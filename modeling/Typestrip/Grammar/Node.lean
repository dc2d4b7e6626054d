import Typestrip.Text.Quoted
import Typestrip.Value

/-!
# Grammar nodes

A grammar is a tree of nodes: terminals, sequences, choices, repetitions and references to rules by
name. Every node carries the same attributes, among them its identity. Two nodes with the same
identity are the same node, so that a match of one at a position is a match of the other.
-/

namespace Typestrip.Grammar

/-- The identity of a node. -/
abbrev NodeId := Nat

/-- What a terminal matches. -/
inductive Pattern where
  | literal (text : String)
  /-- A regular expression by its source. -/
  | regex (source : String)
  deriving DecidableEq, Repr

/-- How a pattern is described in messages. -/
def Pattern.describe : Pattern → String
  | literal text => Text.quote text
  | regex source => "/" ++ source ++ "/"

/-- What all nodes have in common. -/
structure Attributes where
  id : NodeId
  /-- The name under which an enclosing sequence keeps the value of the node. -/
  capture : Option String := none
  /-- Whether the node matches nothing where it would fail. -/
  nullable : Bool := false
  /-- What becomes of the value of a match. -/
  reshape : Option (Value → Value) := none

/-- A node of a grammar. -/
inductive Node where
  | terminal (a : Attributes) (p : Pattern)
  | sequence (a : Attributes) (children : List Node)
  | choice (a : Attributes) (alternatives : List Node)
  | repetition (a : Attributes) (child : Node)
  | reference (a : Attributes) (name : String)

namespace Node

instance : Inhabited Node := ⟨.sequence { id := 0 } []⟩

/-- The attributes of a node. -/
def attributes : Node → Attributes
  | terminal a _ | sequence a _ | choice a _ | repetition a _ | reference a _ => a

/-- The same node with other attributes. -/
def withAttributes (a : Attributes) : Node → Node
  | terminal _ p => terminal a p
  | sequence _ children => sequence a children
  | choice _ alternatives => choice a alternatives
  | repetition _ child => repetition a child
  | reference _ name => reference a name

/-- The identity of a node. -/
def id (n : Node) : NodeId := n.attributes.id

/-- The text of a literal without further attributes: the only kind of node that a sequence may join
with its neighbour. -/
def plainLiteral? : Node → Option String
  | terminal a (.literal text) =>
    if a.capture.isNone && !a.nullable && a.reshape.isNone then some text else none
  | _ => none

end Node

/-- Puts one reshaping function after another. -/
def composeReshape (f : Value → Value) : Option (Value → Value) → Value → Value
  | none => f
  | some first => fun v => f (first v)

end Typestrip.Grammar
