import Typestrip.Grammar.Node

/-!
# Named rules

A registry numbers the names of rules in the order in which they are declared and keeps the first body
given to each.
-/

namespace Typestrip.Grammar

/-- The declared rules with their bodies. The place of a rule in the list is its slot. -/
structure Registry where
  rules : List (String × Option Node) := []

namespace Registry

/-- The slot of a name. -/
def lookup (r : Registry) (name : String) : Option Nat := r.rules.findIdx? (·.1 = name)

/-- Declares a name, unless it is declared already. -/
def declare (r : Registry) (name : String) : Registry :=
  match r.lookup name with
  | some _ => r
  | none => ⟨r.rules ++ [(name, none)]⟩

/-- The body of a rule. -/
def body? (r : Registry) (name : String) : Option Node := (r.rules.lookup name).join

/-- Whether a rule has a body. -/
def isDefined (r : Registry) (name : String) : Bool := (r.body? name).isSome

/-- Gives the rule with a name a body. -/
def setBody (name : String) (body : Node) (rules : List (String × Option Node)) :
    List (String × Option Node) :=
  rules.map fun (n, b) => (n, if n = name then some body else b)

/-- Gives a rule its body, declaring it if needed. A rule that has a body keeps it, and the second
component is false. -/
def define (r : Registry) (name : String) (body : Node) : Registry × Bool :=
  if r.isDefined name then (r, false)
  else (⟨setBody name body (r.declare name).rules⟩, true)

/-- The number of declared rules. -/
def size (r : Registry) : Nat := r.rules.length

/-- Whether no rule is declared. -/
def isEmpty (r : Registry) : Bool := r.rules.isEmpty

end Registry

end Typestrip.Grammar
