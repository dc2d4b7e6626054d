import Typestrip.Rpc.Caller
import Typestrip.Rpc.Service

/-!
# Connections

A connection is a caller on the near side of a link. A reader takes the envelopes that come in, until
the far side is given up. A worker is a connection with a service on its far side.

What goes on at the same time is cut into steps: `Connection.readOne?` is one step of the reader and
`Worker.listenOne?` one of the listener. They are undefined while there is nothing to do.
`Worker.settle` takes steps until there is nothing left to do.
-/

namespace Typestrip.Rpc

/-- Takes steps as long as they are defined, at most `fuel` of them. -/
def repeatStep {α : Type} (step : α → Option α) : (fuel : Nat) → α → α
  | 0, x => x
  | fuel + 1, x =>
    match step x with
    | some y => repeatStep step fuel y
    | none => x

/-- A caller on the near side of a link. The receiving end of the near side belongs to the reader. -/
structure Connection where
  caller : Caller := {}
  link : Link := {}

namespace Connection

/-- Calls a command. The number of the call is its result, whatever becomes of it. -/
def exec (c : Connection) (command : String) (args : List Json) (transfer : List Buffer) :
    UInt64 × Connection :=
  let (id, caller) := c.caller.allocate
  if c.link.forth.sending then
    match caller.record? id with
    | none => (id, { c with caller := caller.settle id (.error .disconnected) })
    | some caller =>
      match c.link.forth.send? (Request.encode ⟨id, command, args, transfer⟩) with
      | some forth => (id, ⟨caller, { c.link with forth }⟩)
      | none => (id, { c with caller := caller.resolve id (.error .disconnected) })
  else (id, { c with caller := caller.settle id (.error .disconnected) })

/-- The reader takes the next envelope, or ends because the far side is gone. -/
def readOne? (c : Connection) : Option Connection :=
  if c.link.back.receiving then
    match c.link.back.receive with
    | (.item e, back) => some ⟨c.caller.accept e, { c.link with back }⟩
    | (.empty, _) => none
    | (.closed, back) => some ⟨c.caller.close, { c.link with back := back.closeReceiving }⟩
  else none

/-- The reader takes all that has come. -/
def read (c : Connection) : Connection :=
  repeatStep readOne? (c.link.back.queue.length + 1) c

/-- Gives up the sending end. -/
def hangUp (c : Connection) : Connection :=
  { c with link := { c.link with forth := c.link.forth.closeSending } }

end Connection

/-- A connection with a service on its far side. -/
structure Worker (σ : Type) where
  connection : Connection := {}
  service : Service σ

namespace Worker

variable {σ : Type}

/-- The listener answers the next envelope, or ends because the near side hung up. It also ends if an
answer does not get through. -/
def listenOne? (w : Worker σ) : Option (Worker σ) :=
  let link := w.connection.link
  if link.forth.receiving then
    match link.receive .far with
    | (.item e, link) =>
      let (reply, service) := w.service.react e
      let link := match reply with
        | none => link
        | some reply =>
          match link.post .far reply with
          | (true, link) => link
          | (false, link) => link.drop .far
      some ⟨{ w.connection with link }, service⟩
    | (.empty, _) => none
    | (.closed, link) => some { w with connection := { w.connection with link := link.drop .far } }
  else none

/-- The listener answers all that has come. -/
def listen (w : Worker σ) : Worker σ :=
  repeatStep listenOne? (w.connection.link.forth.queue.length + 1) w

/-- Listener and reader do what there is to do. -/
def settle (w : Worker σ) : Worker σ :=
  let w := w.listen
  { w with connection := w.connection.read }

/-- Calls a command. -/
def exec (w : Worker σ) (command : String) (args : List Json) (transfer : List Buffer) :
    UInt64 × Worker σ :=
  let (id, connection) := w.connection.exec command args transfer
  (id, { w with connection })

/-- Hangs up and waits until the listener and then the reader have ended. -/
def terminate (w : Worker σ) : Worker σ :=
  settle { w with connection := w.connection.hangUp }

/-- Looks for the result of a call. -/
def observe (w : Worker σ) (id : UInt64) : Option CallResult × Worker σ :=
  let (r, caller) := w.connection.caller.observe id
  (r, { w with connection := { w.connection with caller } })

end Worker

end Typestrip.Rpc
