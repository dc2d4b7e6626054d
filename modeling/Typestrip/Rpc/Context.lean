import Typestrip.Rpc.Connection

/-!
# Execution contexts

A context is a named listener that has been started, with the near side of its link as long as nobody
has taken it. A caller who takes the near side makes a worker of the context.
-/

namespace Typestrip.Rpc

/-- A listener that has been started. -/
structure Context (σ : Type) where
  name : String
  worker : Worker σ
  /-- Whether the near side of the link is still with the context. -/
  attached : Bool := true
  /-- Whether somebody has waited for the end of the listener. -/
  joined : Bool := false

namespace Context

variable {σ : Type}

/-- Starts a listener. -/
def start (name : String) (service : Service σ) : Context σ := { name, worker := { service } }

/-- Starts a listener that breaks down before it listens. -/
def startBroken (name : String) (service : Service σ) : Context σ :=
  { name, worker := { connection := { link := Link.drop {} .far }, service } }

/-- Whether the listener is at work. -/
def isRunning (c : Context σ) : Bool := !c.joined && c.worker.connection.link.forth.receiving

/-- Gives up the near side of the link, if it is still there, and lets the listener end. -/
def release (c : Context σ) : Bool × Context σ :=
  if c.attached then
    let link := c.worker.connection.link.drop .near
    let worker := { c.worker with connection := { c.worker.connection with link } }
    (true, { c with worker := worker.listen, attached := false })
  else (false, c)

/-- Gives up the near side of the link and waits for the end of the listener. -/
def terminate (c : Context σ) : Context σ := { c.release.2 with joined := true }

/-- Makes a worker of a context, if the near side of the link is still there. -/
def wrap (c : Context σ) : Except DispatchError (Worker σ) :=
  if c.attached then .ok { c.worker with connection := c.worker.connection.read }
  else .error .disconnected

end Context

end Typestrip.Rpc
