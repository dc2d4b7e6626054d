import Typestrip.Source.Diagnostic

/-!
# Units and outputs

A unit is a named source text and an output is what becomes of it: JavaScript, or a diagnostic. Both
travel as JSON records.
-/

namespace Typestrip.TypeScript

open Source

/-- A source text with the name it is reported under. -/
structure SourceUnit where
  name : String
  source : String
  deriving DecidableEq, Repr

namespace SourceUnit

/-- The record of a unit. -/
def toJson (u : SourceUnit) : Json := .object [("name", .string u.name), ("source", .string u.source)]

open Json.Document in
/-- Reads the record of a unit. -/
def ofDocument? (d : Json.Document) : Option SourceUnit := do
  match ← d.record? ["name", "source"] with
  | [name, source] => return ⟨← required string? name, ← required string? source⟩
  | _ => none

end SourceUnit

/-- What becomes of a source text. -/
structure Output where
  /-- Whether there is no JavaScript. -/
  error : Bool
  code : Option String
  diagnostic : Option Diagnostic
  deriving DecidableEq, Repr

namespace Output

/-- The output of a source that is accepted. -/
def success (code : String) : Output := ⟨false, some code, none⟩

/-- The output of a source that is refused. -/
def failure (diagnostic : Diagnostic) : Output := ⟨true, none, some diagnostic⟩

/-- The record of an output. Parts that are missing are left out. -/
def toJson (o : Output) : Json :=
  .object ([("error", .bool o.error)] ++
    (match o.code with
      | some code => [("code", .string code)]
      | none => []) ++
    match o.diagnostic with
      | some d => [("diagnostic", d.toJson)]
      | none => [])

open Json.Document in
/-- Reads the record of an output. -/
def ofDocument? (d : Json.Document) : Option Output := do
  match ← d.record? ["error", "code", "diagnostic"] with
  | [error, code, diagnostic] =>
    let error ← required bool? error
    let code ← withDefault none (nullable? string?) code
    let diagnostic ← withDefault none (nullable? Diagnostic.ofDocument?) diagnostic
    return ⟨error, code, diagnostic⟩
  | _ => none

end Output

end Typestrip.TypeScript
