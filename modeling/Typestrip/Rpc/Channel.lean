import Typestrip.Rpc.Message

/-!
# Channels and links

A channel carries items one way, in order, without a bound. Either of its ends may be given up. What
has been sent before the sending end was given up still arrives; what waits when the receiving end is
given up is lost.

A link is a pair of channels between a near and a far side.
-/

namespace Typestrip.Rpc

/-- A channel with what is under way. -/
structure Channel (α : Type) where
  queue : List α := []
  /-- Whether the sending end is held. -/
  sending : Bool := true
  /-- Whether the receiving end is held. -/
  receiving : Bool := true

/-- What the receiving end of a channel has to offer. -/
inductive Reception (α : Type) where
  | item (x : α)
  /-- Nothing so far. -/
  | empty
  /-- Nothing any more. -/
  | closed

namespace Channel

variable {α : Type}

/-- Sends an item, unless the receiving end has been given up. -/
def send? (c : Channel α) (x : α) : Option (Channel α) :=
  if c.receiving then some { c with queue := c.queue ++ [x] } else none

/-- Takes the oldest item. -/
def receive (c : Channel α) : Reception α × Channel α :=
  match c.queue with
  | x :: rest => (.item x, { c with queue := rest })
  | [] => (if c.sending then .empty else .closed, c)

/-- Gives up the sending end. -/
def closeSending (c : Channel α) : Channel α := { c with sending := false }

/-- Gives up the receiving end. -/
def closeReceiving (c : Channel α) : Channel α := { c with queue := [], receiving := false }

end Channel

/-- The two sides of a link. -/
inductive Side where
  | near
  | far
  deriving DecidableEq, Repr

/-- Two channels of envelopes, one each way. -/
structure Link where
  /-- From the near side to the far side. -/
  forth : Channel Envelope := {}
  /-- From the far side to the near side. -/
  back : Channel Envelope := {}

namespace Link

/-- The link seen from the other side. -/
def flip (l : Link) : Link := ⟨l.back, l.forth⟩

/-- The link seen from a side, as if it were the near one. -/
def seenFrom (l : Link) : Side → Link
  | .near => l
  | .far => l.flip

/-- Does something to a link seen from a side. -/
def change (l : Link) (s : Side) (f : Link → Link) : Link := (f (l.seenFrom s)).seenFrom s

/-- Sends an envelope from a side. It is lost if the other side has been given up. -/
def post (l : Link) (s : Side) (e : Envelope) : Bool × Link :=
  match (l.seenFrom s).forth.send? e with
  | some forth => (true, l.change s ({ · with forth }))
  | none => (false, l)

/-- Takes the oldest envelope that has come to a side. -/
def receive (l : Link) (s : Side) : Reception Envelope × Link :=
  let (reception, back) := (l.seenFrom s).back.receive
  (reception, l.change s ({ · with back }))

/-- Gives up both ends of a side. -/
def drop (l : Link) (s : Side) : Link :=
  l.change s fun l => ⟨l.forth.closeSending, l.back.closeReceiving⟩

end Link

end Typestrip.Rpc
