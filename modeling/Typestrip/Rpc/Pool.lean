import Typestrip.Rpc.Connection

/-!
# Pools

A pool is a fixed number of workers, at least one. Calls go to the workers in turn: the call that
finds the counter at `n` goes to slot `n` modulo the number of workers, however busy that worker is.
-/

namespace Typestrip.Rpc

/-- Workers that take turns. -/
structure Pool (σ : Type) where
  workers : Array (Worker σ)
  /-- The number of calls so far. -/
  dispatched : Nat := 0
  nonempty : 0 < workers.size

namespace Pool

variable {σ : Type}

/-- A pool of `size` workers, each with a service of its own. -/
def start (size : Nat) (service : Nat → Service σ) : Except DispatchError (Pool σ) :=
  let workers := Array.ofFn fun (slot : Fin size) => (⟨{}, service slot⟩ : Worker σ)
  if h : 0 < workers.size then .ok ⟨workers, 0, h⟩ else .error .emptyPool

/-- The number of workers. -/
def size (p : Pool σ) : Nat := p.workers.size

/-- The slot of the call that finds the counter at `n`. -/
def slotFor (p : Pool σ) (n : Nat) : Nat := n % p.size

theorem slotFor_lt (p : Pool σ) (n : Nat) : p.slotFor n < p.workers.size := Nat.mod_lt _ p.nonempty

/-- Replaces the worker in a slot. -/
def setWorker (p : Pool σ) (slot : Nat) (w : Worker σ) (h : slot < p.workers.size) : Pool σ :=
  { p with workers := p.workers.set slot w, nonempty := by simp [p.nonempty] }

/-- Calls a command on the worker in a slot, if there is one. -/
def execOn? (p : Pool σ) (slot : Nat) (command : String) (args : List Json)
    (transfer : List Buffer) : Option (UInt64 × Pool σ) :=
  if h : slot < p.workers.size then
    let (id, w) := p.workers[slot].exec command args transfer
    some (id, p.setWorker slot w h)
  else none

/-- Calls a command on the worker whose turn it is. The result is its slot and the number of the
call. -/
def dispatch (p : Pool σ) (command : String) (args : List Json) (transfer : List Buffer) :
    (Nat × UInt64) × Pool σ :=
  let slot := p.slotFor p.dispatched
  have h : slot < p.workers.size := p.slotFor_lt _
  let (id, w) := p.workers[slot].exec command args transfer
  ((slot, id), { p.setWorker slot w h with dispatched := p.dispatched + 1 })

/-- Does something to every worker. -/
def mapWorkers (f : Worker σ → Worker σ) (p : Pool σ) : Pool σ :=
  { p with workers := p.workers.map f, nonempty := by simp [p.nonempty] }

/-- All workers do what there is to do. -/
def settle (p : Pool σ) : Pool σ := p.mapWorkers Worker.settle

/-- Ends all workers. -/
def terminate (p : Pool σ) : Pool σ := p.mapWorkers Worker.terminate

/-- Looks for the result of a call. -/
def observe (p : Pool σ) (slot : Nat) (id : UInt64) : Option CallResult × Pool σ :=
  if h : slot < p.workers.size then
    let (r, w) := p.workers[slot].observe id
    (r, p.setWorker slot w h)
  else (none, p)

end Pool

end Typestrip.Rpc
