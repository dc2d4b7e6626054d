import Typestrip.Source.Diagnostic
import Typestrip.Text.Offset
import Typestrip.Text.Quoted

/-!
# Why a match failed

A failed match explains itself by a tree. Its leaves are terminals that did not match, input left
over, too deep a nesting, and references to rules without a body; a sequence adds where it stopped and
a choice collects the failures of its alternatives.

`ParseError.deepest` is the leaf that lies furthest into the input and `ParseError.expectedAt` the
list of what would have been accepted at a position; `ParseError.diagnostic` reports both against the
source.
-/

namespace Typestrip.Grammar

/-- A failed match. Positions are byte offsets into the input. -/
inductive ParseError where
  /-- A terminal, described by `expected`, did not match. -/
  | unmatched (position : Nat) (expected : String)
  /-- A part of a sequence failed. -/
  | stopped (position : Nat) (cause : ParseError)
  /-- All of the input had to match and did not. -/
  | leftOver (position : Nat)
  /-- Every alternative failed. -/
  | exhausted (position : Nat) (alternatives : List ParseError)
  /-- A rule was about to be entered inside `limit` others. -/
  | tooDeep (position limit : Nat)
  /-- A rule has no body. -/
  | unresolved (name : String)

namespace ParseError

instance : Inhabited ParseError := ⟨.leftOver 0⟩

/-- Where the failure happened. -/
def position? : ParseError → Option Nat
  | unmatched p _ | stopped p _ | leftOver p | exhausted p _ | tooDeep p _ => some p
  | unresolved _ => none

/-- Whether the failure ends the whole match, whatever could be tried instead. -/
def isFatal : ParseError → Bool
  | tooDeep _ _ | unresolved _ => true
  | _ => false

/-- The failure as a message. -/
def message : ParseError → String
  | unmatched p expected => s!"expected {expected} at offset {p}"
  | stopped p cause => s!"sequence stopped at offset {p}: {cause.message}"
  | leftOver p => s!"unconsumed input at offset {p}"
  | exhausted p _ => s!"no alternative matched at offset {p}"
  | tooDeep p limit => s!"nesting exceeds {limit} rules at offset {p}"
  | unresolved name => "rule `" ++ name ++ "` is not defined"

/-- The largest offset there is. -/
def maxOffset : Nat := Nat.pow 2 64 - 1

/-- How far into the input a failure lies. A rule without a body counts as beyond every position. -/
def reach (e : ParseError) : Nat := e.position?.getD maxOffset

/-- The one of two failures that lies further into the input, the first if both lie equally far. -/
def further : Option ParseError → ParseError → ParseError
  | none, e => e
  | some best, e => if best.reach < e.reach then e else best

mutual
/-- The failure at the bottom of the tree that lies furthest into the input. -/
def deepest : ParseError → ParseError
  | stopped _ cause => cause.deepest
  | exhausted p alternatives => (deepestOf none alternatives).getD (exhausted p alternatives)
  | e => e

/-- The deepest failure among alternatives, `best` being that of the alternatives before them. -/
def deepestOf (best : Option ParseError) : List ParseError → Option ParseError
  | [] => best
  | e :: es => deepestOf (some (further best e.deepest)) es
end

/-- Adds a description unless it is there already. -/
def addExpected (found : List String) (expected : String) : List String :=
  if found.contains expected then found else found ++ [expected]

mutual
/-- Adds the descriptions of the terminals that failed at a position to those found before. -/
def collectExpected (at_ : Nat) (found : List String) : ParseError → List String
  | unmatched p expected => if p = at_ then addExpected found expected else found
  | stopped _ cause => collectExpected at_ found cause
  | exhausted _ alternatives => collectExpectedOf at_ found alternatives
  | leftOver _ | tooDeep _ _ | unresolved _ => found

/-- Adds the descriptions found in a list of failures. -/
def collectExpectedOf (at_ : Nat) (found : List String) : List ParseError → List String
  | [] => found
  | e :: es => collectExpectedOf at_ (collectExpected at_ found e) es
end

/-- The descriptions of all terminals that failed at a position, each once, in the order in which they
were tried. -/
def expectedAt (e : ParseError) (position : Nat) : List String := collectExpected position [] e

mutual
/-- The failure with every position moved by an offset: what a failure in the rest of an input means
for the input. -/
def shift (offset : Nat) : ParseError → ParseError
  | unmatched p expected => unmatched (p + offset) expected
  | stopped p cause => stopped (p + offset) (shift offset cause)
  | leftOver p => leftOver (p + offset)
  | exhausted p alternatives => exhausted (p + offset) (shiftAll offset alternatives)
  | tooDeep p limit => tooDeep (p + offset) limit
  | unresolved name => unresolved name

/-- Moves every failure of a list. -/
def shiftAll (offset : Nat) : List ParseError → List ParseError
  | [] => []
  | e :: es => shift offset e :: shiftAll offset es
end

open Source

/-- The character at an offset as it is shown in a message. -/
def shownAt (source : List Char) (position : Nat) : String :=
  match Text.fromBoundary? source position with
  | some (c :: _) => Text.quoteChar c
  | _ => "end of input"

/-- Reports a failure against the source in which it happened. -/
def diagnostic (e : ParseError) (source : List Char) : Diagnostic :=
  match e.deepest with
  | unresolved name => ⟨.configuration, "grammar rule `" ++ name ++ "` is not defined", none, []⟩
  | leftOver p =>
    ⟨.incomplete, s!"unexpected {shownAt source p}", some (.ofOffset source p), []⟩
  | tooDeep p limit =>
    ⟨.syntactic, s!"nesting too deep (more than {limit} levels)", some (.ofOffset source p), []⟩
  | leaf =>
    let p := leaf.position?.getD 0
    ⟨.syntactic, s!"unexpected {shownAt source p}", some (.ofOffset source p), e.expectedAt p⟩

end ParseError

end Typestrip.Grammar
