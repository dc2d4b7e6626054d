import Typestrip.Source.Position

/-!
# Diagnostics

A diagnostic tells a user what went wrong: a category, a message, the place in the source if there is
one, and what would have been accepted there.
-/

namespace Typestrip.Source

/-- The categories of diagnostics. -/
inductive DiagnosticKind where
  /-- The source does not follow the grammar. -/
  | syntactic
  /-- The source follows the grammar only up to a point before its end. -/
  | incomplete
  /-- The grammar itself is broken. -/
  | configuration
  /-- A worker gave no result. -/
  | dispatch
  /-- A file could not be read or written. -/
  | io
  deriving DecidableEq, Repr

/-- The name of a category in records. -/
def DiagnosticKind.name : DiagnosticKind → String
  | syntactic => "syntax"
  | incomplete => "incomplete"
  | configuration => "configuration"
  | dispatch => "dispatch"
  | io => "io"

/-- The category of a name. -/
def DiagnosticKind.ofName? (name : String) : Option DiagnosticKind :=
  [syntactic, incomplete, configuration, dispatch, io].find? (·.name = name)

theorem DiagnosticKind.ofName?_name (k : DiagnosticKind) : ofName? k.name = some k := by
  cases k <;> decide

/-- A failure report for a user. -/
structure Diagnostic where
  kind : DiagnosticKind
  message : String
  position : Option Position
  /-- Descriptions of what would have been accepted at the position. -/
  expected : List String
  deriving DecidableEq, Repr

namespace Diagnostic

/-- A diagnostic as one line of text. -/
def text (d : Diagnostic) : String :=
  let place := match d.position with
    | some p => p.text ++ ": "
    | none => ""
  let accepted := if d.expected.isEmpty then "" else " (expected " ++ " or ".intercalate d.expected ++ ")"
  place ++ d.message ++ accepted

/-- The record of a diagnostic. A missing position and an empty list are left out. -/
def toJson (d : Diagnostic) : Json :=
  .object ([("kind", .string d.kind.name), ("message", .string d.message)] ++
    (match d.position with
      | some p => [("position", p.toJson)]
      | none => []) ++
    if d.expected.isEmpty then [] else [("expected", .array (d.expected.map .string))])

open Json.Document in
/-- Reads the record of a diagnostic. -/
def ofDocument? (d : Json.Document) : Option Diagnostic := do
  match ← d.record? ["kind", "message", "position", "expected"] with
  | [kind, message, position, expected] =>
    let kind ← required (fun d => d.name?.bind DiagnosticKind.ofName?) kind
    let message ← required string? message
    let position ← withDefault none (nullable? Position.ofDocument?) position
    let expected ← withDefault [] (list? string?) expected
    return ⟨kind, message, position, expected⟩
  | _ => none

end Diagnostic

end Typestrip.Source
