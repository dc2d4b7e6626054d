import Typestrip.Grammar.Memo
import Typestrip.Grammar.Registry
import Typestrip.Regex.Reading

/-!
# Compiled grammars

A matcher is a node made ready for matching: patterns are read, descriptions written and names
resolved to slots of the rule table. `Matcher.evaluate` matches one at a position of an input.

Rules are entered through a function that is handed in, so that `evaluate` recurs on the matcher
alone. `enter` ties the knot: with `n` entries left it matches the body of a rule with `n - 1` left,
and with none it fails. Matching therefore ends for every grammar, left-recursive ones included.

Only terminals and the parts of sequences and choices go through the memo.
-/

namespace Typestrip.Grammar

/-- A compiled node. -/
inductive Matcher where
  | literal (a : Attributes) (text : List Char) (expected : String)
  | pattern (a : Attributes) (regex : Regex.Expr) (expected : String)
  | sequence (a : Attributes) (children : List Matcher)
  | choice (a : Attributes) (alternatives : List Matcher)
  | repetition (a : Attributes) (child : Matcher)
  | rule (a : Attributes) (name : String) (slot : Option Nat)

namespace Matcher

/-- The attributes of the node. -/
def attributes : Matcher → Attributes
  | literal a _ _ | pattern a _ _ | sequence a _ | choice a _ | repetition a _ | rule a _ _ => a

/-- Whether the node is a terminal. -/
def isTerminal : Matcher → Bool
  | literal _ _ _ | pattern _ _ _ => true
  | _ => false

end Matcher

/-- The compiled bodies of the rules, by slot. -/
abbrev Rules := Array (Option Matcher)

/-- Matching something at a position: from the position, the input from there on and what is
remembered, to the outcome and what is remembered then. -/
abbrev Recognizer := Nat → List Char → Memo → Outcome × Memo

/-- The value of a match after the node's reshaping function. -/
def Attributes.reshaped (a : Attributes) (v : Value) : Value :=
  match a.reshape with
  | some f => f v
  | none => v

/-- The outcome for a nullable node: a failure that is not fatal is a match of nothing. -/
def Attributes.recover (a : Attributes) : Outcome → Outcome
  | .error e => if a.nullable && !e.isFatal then .ok ⟨.null, 0⟩ else .error e
  | .ok s => .ok s

/-- The rest of a text after a beginning, if the text begins so. -/
def stripPrefix? : List Char → List Char → Option (List Char)
  | [], cs => some cs
  | _ :: _, [] => none
  | d :: ds, c :: cs => if d = c then stripPrefix? ds cs else none

/-- Matches a text. -/
def matchLiteral (a : Attributes) (text : List Char) (expected : String) (pos : Nat)
    (rest : List Char) : Outcome :=
  match stripPrefix? text rest with
  | some _ => .ok ⟨a.reshaped (.text (String.ofList text)), Text.width text⟩
  | none => .error (.unmatched pos expected)

/-- Matches a regular expression against the rest of the input as a text of its own. The match reaches
from the beginning of the rest to the end of what the expression finds. -/
def matchPattern (a : Attributes) (regex : Regex.Expr) (expected : String) (pos : Nat)
    (rest : List Char) : Outcome :=
  match regex.search? rest with
  | some n =>
    let matched := rest.take n
    .ok ⟨a.reshaped (.text (String.ofList matched)), Text.width matched⟩
  | none => .error (.unmatched pos expected)

/-- Asks the memo first, and tells it the outcome. -/
def memoized (id : NodeId) (r : Recognizer) : Recognizer := fun pos rest memo =>
  match memo.find id pos with
  | (some outcome, memo) => (outcome, memo)
  | (none, memo) =>
    let (outcome, memo) := r pos rest memo
    (outcome, memo.insert id pos outcome)

/-- Matches the same thing over and over, until it fails or takes nothing. `items` are the values so
far in reverse, and `pos` is where they end. Only a fatal failure is passed on. -/
def iterate (step : Recognizer) (items : List Value) (pos : Nat) (rest : List Char) (memo : Memo) :
    Except ParseError (List Value × Nat) × Memo :=
  match step pos rest memo with
  | (.error e, memo) => (if e.isFatal then .error e else .ok (items.reverse, pos), memo)
  | (.ok s, memo) =>
    match s.consumed, rest with
    | n + 1, c :: cs =>
      iterate step (s.value :: items) (pos + (n + 1)) (Text.dropBytes (c :: cs) (n + 1)) memo
    | _, _ => (.ok (items.reverse, pos), memo)
termination_by rest.length
decreasing_by exact Text.length_dropBytes_lt _ _ _

/-- Keeps the value of a part of a sequence under its name, if it has one. -/
def keep (a : Attributes) (v : Value) (fields : List (String × Value)) : List (String × Value) :=
  match a.capture with
  | some name => Fields.insert name v fields
  | none => fields

mutual
/-- Matches a compiled node. `enter` matches the body of a rule. -/
def Matcher.evaluate (rules : Rules) (enter : Matcher → Recognizer) : Matcher → Recognizer
  | .literal a text expected => fun pos rest memo =>
    (a.recover (matchLiteral a text expected pos rest), memo)
  | .pattern a regex expected => fun pos rest memo =>
    (a.recover (matchPattern a regex expected pos rest), memo)
  | .sequence a children => fun pos rest memo =>
    match Matcher.evaluateAll rules enter children [] pos rest memo with
    | (.error e, memo) => (a.recover (.error e), memo)
    | (.ok (fields, stop), memo) =>
      let value :=
        if children.any (·.attributes.capture.isSome) then .object fields
        else .text (String.ofList (Text.takeBytes rest (stop - pos)))
      (.ok ⟨a.reshaped value, stop - pos⟩, memo)
  | .choice a alternatives => fun pos rest memo =>
    match Matcher.evaluateFirst rules enter alternatives [] pos rest memo with
    | (.error e, memo) => (a.recover (.error e), memo)
    | (.ok s, memo) => (.ok ⟨a.reshaped s.value, s.consumed⟩, memo)
  | .repetition a child => fun pos rest memo =>
    let step := if child.isTerminal then
        memoized child.attributes.id (Matcher.evaluate rules enter child)
      else Matcher.evaluate rules enter child
    match iterate step [] pos rest memo with
    | (.error e, memo) => (a.recover (.error e), memo)
    | (.ok (items, stop), memo) => (.ok ⟨a.reshaped (.list items), stop - pos⟩, memo)
  | .rule a name slot => fun pos rest memo =>
    match slot.bind fun i => (rules[i]?).join with
    | none => (.error (.unresolved name), memo)
    | some body =>
      match enter body pos rest memo with
      | (.error e, memo) => (a.recover (.error e), memo)
      | (.ok s, memo) => (.ok ⟨a.reshaped s.value, s.consumed⟩, memo)

/-- Matches the parts of a sequence one after the other. The result is what was kept of their values
and where the last one ended. -/
def Matcher.evaluateAll (rules : Rules) (enter : Matcher → Recognizer) :
    List Matcher → List (String × Value) → Nat → List Char → Memo →
      Except ParseError (List (String × Value) × Nat) × Memo
  | [], fields, pos, _, memo => (.ok (fields, pos), memo)
  | m :: ms, fields, pos, rest, memo =>
    match memoized m.attributes.id (Matcher.evaluate rules enter m) pos rest memo with
    | (.error e, memo) => (.error (if e.isFatal then e else .stopped pos e), memo)
    | (.ok s, memo) =>
      Matcher.evaluateAll rules enter ms (keep m.attributes s.value fields) (pos + s.consumed)
        (Text.dropBytes rest s.consumed) memo

/-- Matches the first of the alternatives that matches. `failures` are those of the alternatives tried
before, in reverse. -/
def Matcher.evaluateFirst (rules : Rules) (enter : Matcher → Recognizer) :
    List Matcher → List ParseError → Recognizer
  | [], failures, pos, _, memo => (.error (.exhausted pos failures.reverse), memo)
  | m :: ms, failures, pos, rest, memo =>
    match memoized m.attributes.id (Matcher.evaluate rules enter m) pos rest memo with
    | (.error e, memo) =>
      if e.isFatal then (.error e, memo)
      else Matcher.evaluateFirst rules enter ms (e :: failures) pos rest memo
    | (.ok s, memo) => (.ok s, memo)
end

/-- Matches a node that stands by itself: the root of a grammar or the body of a rule. -/
def Matcher.run (rules : Rules) (enter : Matcher → Recognizer) (m : Matcher) : Recognizer :=
  if m.isTerminal then memoized m.attributes.id (m.evaluate rules enter)
  else m.evaluate rules enter

/-- Matches the body of a rule where `limit` entries may be nested and some are left. -/
def enter (rules : Rules) (limit : Nat) : (left : Nat) → Matcher → Recognizer
  | 0, _ => fun pos _ memo => (.error (.tooDeep pos limit), memo)
  | left + 1, body => body.run rules (enter rules limit left)

end Typestrip.Grammar
