import Typestrip.Grammar.Registry

/-!
# Building grammars

`Build` is the activity of building a grammar. It hands out identities, none of them twice, keeps one
node for each literal, registers rules, and remembers which rules were given a second body. Whatever
changes a node makes a new one with an identity of its own.
-/

namespace Typestrip.Grammar

/-- What a builder has made so far. -/
structure Builder where
  /-- The next identity to hand out. -/
  nextId : NodeId := 0
  /-- The node of each literal. -/
  literals : List (String × Node) := []
  registry : Registry := {}
  /-- The names of the rules that were given a body they had already, in order. -/
  rejected : List String := []

/-- Building a grammar. -/
abbrev Build (α : Type) := StateM Builder α

namespace Build

/-- A new identity. -/
def freshId : Build NodeId := fun b => (b.nextId, { b with nextId := b.nextId + 1 })

/-- The node that matches a text. Equal texts have the same node. -/
def literal (text : String) : Build Node := fun b =>
  match b.literals.lookup text with
  | some n => (n, b)
  | none =>
    let n := Node.terminal { id := b.nextId } (.literal text)
    (n, { b with nextId := b.nextId + 1, literals := (text, n) :: b.literals })

/-- A node that matches a regular expression. -/
def regex (source : String) : Build Node :=
  return .terminal { id := ← freshId } (.regex source)

/-- Adds a child to the children of a sequence, which stand in reverse. Plain literals are joined. -/
def joinChild (children : List Node) (child : Node) : Build (List Node) :=
  match children, child.plainLiteral? with
  | last :: before, some next =>
    match last.plainLiteral? with
    | some previous => return (← literal (previous ++ next)) :: before
    | none => return child :: children
  | _, _ => return child :: children

/-- The children of a sequence with plain literals joined, in reverse, after those in `found`. -/
def joinChildren (found : List Node) : List Node → Build (List Node)
  | [] => return found
  | child :: rest => do joinChildren (← joinChild found child) rest

/-- A node that matches its children one after the other. -/
def sequence (children : List Node) : Build Node := do
  let children ← joinChildren [] children
  return .sequence { id := ← freshId } children.reverse

/-- A node that matches what the first matching alternative matches. -/
def choice (alternatives : List Node) : Build Node :=
  return .choice { id := ← freshId } alternatives

/-- A node that matches its child as often as possible. -/
def repetition (child : Node) : Build Node :=
  return .repetition { id := ← freshId } child

/-- A node that matches what the rule with the name matches. -/
def reference (name : String) : Build Node :=
  return .reference { id := ← freshId } name

/-- Declares a rule. -/
def declare (name : String) : Build Unit := fun b =>
  ((), { b with registry := b.registry.declare name })

/-- Gives a rule its body. A second body is refused and remembered. -/
def define (name : String) (body : Node) : Build Unit := fun b =>
  let (registry, accepted) := b.registry.define name body
  ((), { b with registry, rejected := if accepted then b.rejected else b.rejected ++ [name] })

/-- Declares a rule, builds its body, which may refer to it, and makes a reference to it. -/
def symbol (name : String) (body : Build Node) : Build Node := do
  declare name
  define name (← body)
  reference name

/-- The same node under a new identity and with other attributes. -/
def derive (n : Node) (change : Attributes → Attributes) : Build Node := do
  return n.withAttributes { change n.attributes with id := ← freshId }

/-- The node that matches nothing where `n` fails. -/
def nullable (n : Node) : Build Node := derive n fun a => { a with nullable := true }

/-- The node whose value an enclosing sequence keeps. -/
def capture (name : String) (n : Node) : Build Node :=
  derive n fun a => { a with capture := some name }

/-- The node that applies a function to the value of a match, after those applied already. -/
def map (f : Value → Value) (n : Node) : Build Node :=
  derive n fun a => { a with reshape := some (composeReshape f a.reshape) }

end Build

end Typestrip.Grammar
