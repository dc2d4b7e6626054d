import Typestrip.Rpc.Pool
import Typestrip.Text.Utf8
import Typestrip.TypeScript.SetupError
import Typestrip.TypeScript.Transpiler

/-!
# Batches

Many sources are transformed by a pool of workers. A source travels as the UTF-8 bytes of a buffer,
its name as the argument of the call, and its output comes back as JSON. The outputs are collected in
the order of the sources, whichever worker is done first.
-/

namespace Typestrip.TypeScript

open Rpc

/-- The command that every worker serves. -/
def transformCommand : String := "transform"

/-- The name of a source that came without one. -/
def unnamed : String := "<unnamed>"

/-- Transforms the source in the first buffer of a call. -/
def Transpiler.handle (t : Transpiler) (c : Call) : Reaction :=
  let name := match c.text 0 with
    | .ok name => name
    | .error _ => unnamed
  match c.transfer with
  | [] => .failure ⟨"TypeError", name ++ ": no source buffer"⟩
  | bytes :: _ =>
    match Utf8.decode bytes with
    | .ok source => .result (t.transform source).toJson.sorted
    | .error e => .failure ⟨"EncodingError", name ++ ": " ++ e.message⟩

/-- The service of a worker. It has no state. -/
def Transpiler.service (t : Transpiler) : Service PUnit :=
  (Service.empty ⟨⟩).register transformCommand fun c s => (t.handle c, s)

/-- A pool of transpiling workers. -/
abbrev Batch := Pool PUnit

namespace Batch

/-- Starts a pool. Where the settings give no number of workers there is one. -/
def start (s : Settings) : Except SetupError Batch := do
  let t ← (Transpiler.ofSettings s).mapError .grammar
  (Pool.start (s.poolSize.getD 1) fun _ => t.service).mapError .dispatch

/-- Calls for the transformation of every unit. The result tells where the calls went. -/
def dispatchAll (b : Batch) : List SourceUnit → List (Nat × UInt64) × Batch
  | [] => ([], b)
  | u :: us =>
    let (call, b) := b.dispatch transformCommand [.string u.name] [Utf8.encode u.source]
    let (calls, b) := dispatchAll b us
    (call :: calls, b)

/-- The output of a unit whose call has no result. -/
def dispatchFailure (u : SourceUnit) (message : String) : Output :=
  .failure ⟨.dispatch, u.name ++ ": " ++ message, none, []⟩

/-- The output of a unit by the result of its call. -/
def outputOf (u : SourceUnit) : CallResult → Output
  | .ok j =>
    (Output.ofDocument? j.toDocument).getD (dispatchFailure u "malformed worker result")
  | .error e => dispatchFailure u e.message

/-- Waits for the result of the call for every unit. -/
def collect (b : Batch) : List (SourceUnit × Nat × UInt64) → List Output × Batch
  | [] => ([], b)
  | (u, slot, id) :: rest =>
    let (result, b) := b.observe slot id
    let (outputs, b) := collect b rest
    (outputOf u (result.getD (.error .disconnected)) :: outputs, b)

/-- Transforms units. The outputs stand in the order of the units. -/
def compile (b : Batch) (units : List SourceUnit) : List Output × Batch :=
  let (calls, b) := dispatchAll b units
  collect b.settle (units.zip calls)

end Batch

/-- Transforms units by a pool of `poolSize` workers that is used once. -/
def compileBatch (units : List SourceUnit) (poolSize : Nat) : Except SetupError (List Output) :=
  (Batch.start (({} : Settings).withPoolSize poolSize)).map fun b => (b.compile units).1

end Typestrip.TypeScript
