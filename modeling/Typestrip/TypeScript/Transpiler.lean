import Typestrip.Grammar.Parser
import Typestrip.TypeScript.Grammar
import Typestrip.TypeScript.Output
import Typestrip.TypeScript.Settings

/-!
# Transpiling a source

`Transpiler.transform` parses a source as a program. The value of the match is its JavaScript. A source
that is not a program altogether fails with input left over, which says little; what stands there is
then parsed as a statement, in order to report what is wrong inside it.
-/

namespace Typestrip.TypeScript

open Grammar

/-- The parsers of the grammar. -/
structure Parsers where
  program : Parser
  statement : Parser

/-- Compiles the grammar. -/
def Parsers.compile : Except GrammarError Parsers := do
  let (entries, builder) := grammar.run {}
  return ⟨← builder.compile entries.program, ← builder.compile entries.statement⟩

/-- The compiled grammar. -/
def Parsers.compiled : Except GrammarError Parsers := Parsers.compile

/-- The grammar together with the way to use it. -/
structure Transpiler where
  parsers : Parsers
  options : Options

namespace Transpiler

/-- The options for parsing under given settings. -/
def optionsOf (s : Settings) : Options :=
  { matchAll := true, memoize := s.memoize, maxDepth := s.maxDepth }

/-- A transpiler with given settings. -/
def ofSettings (s : Settings) : Except GrammarError Transpiler :=
  Parsers.compiled.map (⟨·, optionsOf s⟩)

/-- What is wrong with a source that is a program only up to a position. -/
def explain (t : Transpiler) (source : List Char) (position : Nat) : Source.Diagnostic :=
  let leftOver := ParseError.leftOver position
  match Text.fromBoundary? source position with
  | none => leftOver.diagnostic source
  | some rest =>
    match t.parsers.statement.parse { t.options with matchAll := false } rest with
    | .error e => (e.shift position).diagnostic source
    | .ok _ => leftOver.diagnostic source

/-- Takes the types away from a source. -/
def transform (t : Transpiler) (source : List Char) : Output :=
  match t.parsers.program.parse t.options source with
  | .ok s => .success s.value.flatten
  | .error (.leftOver position) => .failure (t.explain source position)
  | .error e => .failure (e.diagnostic source)

end Transpiler

/-- Takes the types away from a source under the default settings. -/
def transform (source : List Char) : Except GrammarError Output :=
  (Transpiler.ofSettings {}).map (·.transform source)

end Typestrip.TypeScript
