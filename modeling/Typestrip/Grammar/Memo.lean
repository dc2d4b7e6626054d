import Std.Data.TreeMap
import Typestrip.Grammar.Node
import Typestrip.Grammar.ParseError

/-!
# Remembered matches

A memo maps the identity of a node and a position to the outcome of matching the node there. It counts
how often it was asked and knew the answer, and how often it did not. A memo that is switched off
knows nothing, learns nothing and counts nothing.
-/

namespace Typestrip.Grammar

/-- A match: its value, and the number of bytes it took. -/
structure Success where
  value : Value
  consumed : Nat

/-- The outcome of matching a node at a position. -/
abbrev Outcome := Except ParseError Success

/-- Pairs in lexicographic order. -/
def comparePairs (a b : Nat × Nat) : Ordering := (compare a.1 b.1).then (compare a.2 b.2)

/-- The counters of a memo: questions it could answer, questions it could not, entries. -/
structure Stats where
  hits : Nat
  misses : Nat
  entries : Nat
  deriving DecidableEq, Repr

/-- What has been matched so far. -/
structure Memo where
  enabled : Bool
  entries : Std.TreeMap (NodeId × Nat) Outcome comparePairs
  hits : Nat
  misses : Nat

namespace Memo

/-- The memo that knows nothing yet. -/
def empty (enabled : Bool) : Memo := ⟨enabled, ∅, 0, 0⟩

/-- Asks for the outcome of a node at a position. -/
def find (m : Memo) (id : NodeId) (position : Nat) : Option Outcome × Memo :=
  if m.enabled then
    match m.entries.get? (id, position) with
    | some outcome => (some outcome, { m with hits := m.hits + 1 })
    | none => (none, { m with misses := m.misses + 1 })
  else (none, m)

/-- Remembers the outcome of a node at a position. -/
def insert (m : Memo) (id : NodeId) (position : Nat) (outcome : Outcome) : Memo :=
  if m.enabled then { m with entries := m.entries.insert (id, position) outcome } else m

/-- The counters. -/
def stats (m : Memo) : Stats := ⟨m.hits, m.misses, m.entries.size⟩

end Memo

end Typestrip.Grammar
