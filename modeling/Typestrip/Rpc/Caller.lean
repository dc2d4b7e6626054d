import Typestrip.Rpc.Channel

/-!
# Callers

A caller numbers its calls and keeps a table of the numbers that wait for a response. The result of a
call goes into its mailbox, once; whoever looks into a mailbox that holds a result takes it out.

Each operation on a caller is one step that nothing can interrupt. A call is several of them
(`Connection.exec`), and the responses to other calls may come in between.
-/

namespace Typestrip.Rpc

/-- What comes of a call. -/
abbrev CallResult := Except DispatchError Json

/-- Where the result of a call arrives. -/
inductive Mailbox where
  /-- The result is still to come. -/
  | waiting
  | holding (r : CallResult)
  /-- The result has been taken, and no other will come. -/
  | spent

namespace Mailbox

/-- Looks for a result. A mailbox into which nothing will come any more tells that the other side is
gone. -/
def observe : Mailbox → Option CallResult × Mailbox
  | waiting => (none, waiting)
  | holding r => (some r, spent)
  | spent => (some (.error .disconnected), spent)

/-- Puts a result in. Only a mailbox that waits for one takes it. -/
def put (r : CallResult) : Mailbox → Mailbox
  | waiting => holding r
  | m => m

end Mailbox

/-- The numbers of the calls that wait for a response. -/
structure Pending where
  ids : List UInt64 := []
  /-- Whether the table takes no more numbers. -/
  closed : Bool := false

namespace Pending

/-- Records a number, unless the table is closed. -/
def insert? (p : Pending) (id : UInt64) : Option Pending :=
  if p.closed then none else some { p with ids := id :: p.ids.erase id }

/-- Takes a number out. The first component tells whether it was there. -/
def remove (p : Pending) (id : UInt64) : Bool × Pending :=
  (p.ids.contains id, { p with ids := p.ids.erase id })

/-- Closes the table and takes all numbers out. -/
def close (p : Pending) : List UInt64 × Pending := (p.ids, { ids := [], closed := true })

end Pending

/-- A caller with the mailboxes of its calls. -/
structure Caller where
  /-- The number of the next call. -/
  nextId : UInt64 := 1
  pending : Pending := {}
  mailboxes : List (UInt64 × Mailbox) := []

namespace Caller

/-- The mailbox of a call. -/
def mailbox? (c : Caller) (id : UInt64) : Option Mailbox := c.mailboxes.lookup id

/-- Does something to the mailbox of a call. -/
def updateMailbox (id : UInt64) (f : Mailbox → Mailbox) (mailboxes : List (UInt64 × Mailbox)) :
    List (UInt64 × Mailbox) :=
  mailboxes.map fun (n, m) => (n, if n = id then f m else m)

/-- Hands out the number of a new call. -/
def allocate (c : Caller) : UInt64 × Caller := (c.nextId, { c with nextId := c.nextId + 1 })

/-- Begins a call that has its result already. -/
def settle (c : Caller) (id : UInt64) (r : CallResult) : Caller :=
  { c with mailboxes := (id, .holding r) :: c.mailboxes }

/-- Begins a call that waits for a response, unless the table is closed. -/
def record? (c : Caller) (id : UInt64) : Option Caller :=
  (c.pending.insert? id).map fun pending =>
    { c with pending, mailboxes := (id, .waiting) :: c.mailboxes }

/-- Gives a waiting call its result. For a number that does not wait nothing happens. -/
def resolve (c : Caller) (id : UInt64) (r : CallResult) : Caller :=
  match c.pending.remove id with
  | (true, pending) =>
    { c with pending, mailboxes := updateMailbox id (.put r) c.mailboxes }
  | (false, _) => c

/-- Takes note of an envelope from the far side: a response to a waiting call is its result, and
everything else is passed over. -/
def accept (c : Caller) (e : Envelope) : Caller :=
  match Message.decode e with
  | .ok (.response r) => c.resolve r.id (r.outcome.mapError .remote)
  | _ => c

/-- Closes the table. Calls that wait learn that the far side is gone. -/
def close (c : Caller) : Caller :=
  let (ids, pending) := c.pending.close
  let mailboxes :=
    ids.foldl (fun ms id => updateMailbox id (.put (.error .disconnected)) ms) c.mailboxes
  { c with pending, mailboxes }

/-- Looks for the result of a call. -/
def observe (c : Caller) (id : UInt64) : Option CallResult × Caller :=
  match c.mailbox? id with
  | some m =>
    let (r, m) := m.observe
    (r, { c with mailboxes := updateMailbox id (fun _ => m) c.mailboxes })
  | none => (none, c)

/-- The number of calls that wait for a response. -/
def pendingCount (c : Caller) : Nat := c.pending.ids.length

end Caller

end Typestrip.Rpc
