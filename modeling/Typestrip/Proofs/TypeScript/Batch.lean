import Typestrip.Proofs.Json.Records
import Typestrip.Proofs.Rpc.Dispatching
import Typestrip.Proofs.Text.Utf8
import Typestrip.Proofs.TypeScript.Setup
import Typestrip.TypeScript.Batch

/-!
# Batches

A unit that is transformed by a pool travels as a buffer of UTF-8 and comes back as JSON. Nothing is
lost on the way: the source is decoded to itself, the output is read back as it was, and neither the
request nor the response nests too deeply to be read (`Transpiler.gives`).

So the outputs of a batch are those that the transpiler gives for the units one by one, in the order
of the units, whatever the order in which the threads of the pool go on (`Batch.Collects.of_run`).
`Batch.compile` is one such order (`Batch.exists_run_compile`).
-/

namespace Typestrip.TypeScript

open Rpc

/-! ## One unit -/

/-- What a worker is to do with a unit. -/
def SourceUnit.job (u : SourceUnit) : Job :=
  ⟨transformCommand, [.string u.name], [Utf8.encode u.source]⟩

namespace Transpiler

/-- What a unit becomes if it is transformed by itself. -/
def output (t : Transpiler) (u : SourceUnit) : Output := t.transform u.source.toList

/-- What a worker sends back for a unit. -/
def reply (t : Transpiler) (u : SourceUnit) : Json := (t.output u).toJson.sorted

/-- A worker stays as it is. -/
theorem after_service (t : Transpiler) (rs : List Request) : t.service.after rs = t.service := by
  have hhandlers := t.service.handlers_after rs
  generalize t.service.after rs = s at hhandlers
  obtain ⟨handlers, state⟩ := s
  cases hhandlers
  rfl

/-- What a worker makes of the request for a unit. -/
theorem outcome_service (t : Transpiler) (u : SourceUnit) (id : UInt64) :
    t.service.outcome (u.job.request id) = .ok (t.reply u) := by
  have hhandle : t.handle ⟨[.string u.name], [Utf8.encode u.source]⟩ = .result (t.reply u) := by
    simp only [handle, Utf8.decode_toUTF8]
    rfl
  simp [Service.outcome, Service.invoke, service, Service.register, Service.empty,
    SourceUnit.job, Job.request, Fields.insert, Fields.find?, hhandle, Reaction.outcome]

theorem depth_response_reply (t : Transpiler) (u : SourceUnit) (id : UInt64) :
    (Response.mk id (.ok (t.reply u))).depth ≤ 4 := by
  have hreply : (t.reply u).depth ≤ 3 :=
    (t.output u).toJson.depth_sorted_le.trans (t.output u).depth_toJson_le
  rw [Response.depth, Response.items, Json.depth]
  refine Nat.succ_le_succ (Json.itemsDepth_le_iff.mpr ?_)
  simp only [List.forall_mem_cons]
  exact ⟨Nat.zero_le _, Nat.zero_le _, Nat.zero_le _, hreply, List.forall_mem_nil _⟩

/-- The request for a unit reaches the worker and its output comes back, whatever the unit. -/
theorem gives (t : Transpiler) (u : SourceUnit) : t.service.Gives u.job (.ok (t.reply u)) := by
  intro rs id
  have hrequest : (u.job.request id).Faithful :=
    ⟨List.forall_mem_singleton.mpr (.string u.name), Nat.lt_of_sub_eq_succ rfl⟩
  have hresponse : (Response.mk id (.ok (t.reply u))).Faithful := by
    rintro _ ⟨⟩
    exact (t.output u).faithful_sorted
  have hdepth : (u.job.request id).depth = 2 := rfl
  rw [← t.outcome_service u id] at hresponse
  have hdepth' := t.depth_response_reply u id
  rw [← t.outcome_service u id] at hdepth'
  rw [t.after_service, Service.answer?_eq_some hrequest hresponse (hdepth.trans_le (by decide))
    (hdepth'.trans (by decide)), t.outcome_service]

end Transpiler

namespace Batch

/-- What is read from the reply of a worker is the output that was sent. -/
theorem outputOf_reply (t : Transpiler) (u : SourceUnit) :
    outputOf u (.ok (t.reply u)) = t.output u := by
  rw [outputOf, Transpiler.reply, Output.ofDocument?_arranged .sorted]
  rfl

/-! ## All units, by threads that go on in any order -/

variable {t : Transpiler} {units : List SourceUnit}

/-- A pool of workers that has just been started, and the units for it. -/
def crew (t : Transpiler) (size : Nat) (units : List SourceUnit) : Crew PUnit :=
  .start size t.service (units.map (·.job))

/-- The outputs of the units of which the results have been found. -/
def outputs (units : List SourceUnit) (results : List CallResult) : List Output :=
  List.zipWith outputOf units results

/-- A pool is on the way to the outputs of units: those that there are already are the first ones, and
as long as they are not all there, somebody can go on. -/
structure Collects (t : Transpiler) (units : List SourceUnit) (c : Crew PUnit) : Prop where
  soFar : outputs units c.results <+: units.map t.output
  atLast : c.Over → outputs units c.results = units.map t.output
  onward : c.Over ∨ ∃ c', c.Step c'

theorem outputs_replies (t : Transpiler) (units : List SourceUnit) :
    outputs units (units.map fun u => .ok (t.reply u)) = units.map t.output := by
  rw [outputs, List.zipWith_map_right, List.zipWith_self]
  exact List.map_congr_left fun u _ => outputOf_reply t u

/-- The outputs of the results that have been found are the first outputs. -/
theorem first_outputs {results : List CallResult}
    (h : results <+: units.map fun u => .ok (t.reply u)) :
    outputs units results <+: units.map t.output := by
  induction units generalizing results with
  | nil => exact List.nil_prefix
  | cons u units ih =>
    cases results with
    | nil => exact List.nil_prefix
    | cons r results =>
      obtain ⟨rfl, hrest⟩ := List.cons_prefix_cons.mp h
      exact List.cons_prefix_cons.mpr ⟨outputOf_reply t u, ih hrest⟩

/-- Whatever the order in which the threads go on, and whoever else uses the pool. -/
theorem Collects.of_run {size : Nat} {c : Crew PUnit} (h : (crew t size units).Run c)
    (hsize : 0 < size) (hsmall : c.Small) : Collects t units c := by
  let outcome (j : Job) : Except Failure Json := t.service.outcome (j.request 0)
  have hgives : ∀ j ∈ units.map (·.job), t.service.Gives j (outcome j) := by
    refine List.forall_mem_map.mpr fun u _ => ?_
    rw [show outcome u.job = .ok (t.reply u) from t.outcome_service u 0]
    exact t.gives u
  have hresults : (units.map (·.job)).map (fun j => (outcome j).mapError DispatchError.remote) =
      units.map fun u => .ok (t.reply u) := by
    rw [List.map_map]
    refine List.map_congr_left fun u _ => ?_
    exact congrArg (Except.mapError DispatchError.remote) (t.outcome_service u 0)
  obtain ⟨hsoFar, hatLast, honward⟩ := h.collects hsize hsmall hgives
  rw [hresults] at hsoFar hatLast
  refine ⟨first_outputs hsoFar, fun hover => ?_, honward⟩
  rw [hatLast hover, outputs_replies]

/-- Whoever uses the pool alone makes no more calls than there are units. -/
theorem Collects.of_steps {size : Nat} {c : Crew PUnit}
    (h : Relation.ReflTransGen Crew.Step (crew t size units) c) (hsize : 0 < size)
    (hfew : units.length < 2 ^ 64) : Collects t units c :=
  .of_run (.of_steps h) hsize (Crew.small_of_steps (by rwa [List.length_map]) h)

/-! ## All units, without interruption -/

/-- The errand of a unit whose call has been made. -/
def errand (call : SourceUnit × Nat × UInt64) : Errand := ⟨call.1.job, call.2.1, call.2.2⟩

variable {b : Batch} {c : Crew PUnit} {n : Nat}

theorem collect_cons (b : Batch) (u : SourceUnit) (slot : Nat) (id : UInt64)
    (calls : List (SourceUnit × Nat × UInt64)) :
    (b.collect ((u, slot, id) :: calls)).1 =
      outputOf u ((b.observe slot id).1.getD (.error .disconnected)) ::
        (collect (b.observe slot id).2 calls).1 := rfl

theorem length_dispatchAll (b : Batch) (units : List SourceUnit) :
    (b.dispatchAll units).1.length = units.length := by
  induction units generalizing b with
  | nil => rfl
  | cons u units ih => exact congrArg (· + 1) (ih _)

/-- What is true of the units is true of the calls for them. -/
theorem map_zip_dispatchAll {α : Type} (f : SourceUnit → α) (b : Batch) (units : List SourceUnit) :
    (units.zip (b.dispatchAll units).1).map (fun call => f call.1) = units.map f := by
  have hunits : (units.zip (b.dispatchAll units).1).map Prod.fst = units :=
    List.map_fst_zip (length_dispatchAll b units).ge
  calc
    _ = ((units.zip (b.dispatchAll units).1).map Prod.fst).map f := List.map_map.symm
    _ = units.map f := by rw [hunits]

/-- Calling for all units. -/
theorem exists_run_dispatchAll (h : c.Idle t.service b n) (htodo : c.todo = units.map (·.job))
    (hfew : n + units.length < 2 ^ 64) :
    ∃ c', c.Run c' ∧ c'.Idle t.service (b.dispatchAll units).2 (n + units.length) ∧ c'.todo = [] ∧
      c'.errands = c.errands ++ (units.zip (b.dispatchAll units).1).map errand := by
  induction units generalizing b c n with
  | nil => exact ⟨c, .start, h, htodo, (List.append_nil _).symm⟩
  | cons u units ih =>
    have hcount : n + (u :: units).length = n + 1 + units.length := by
      rw [List.length_cons]
      omega
    rw [hcount] at hfew ⊢
    obtain ⟨c₁, hrun₁, hidle₁, htodo₁, herrands₁⟩ := h.dispatch htodo (by omega)
    obtain ⟨c₂, hrun₂, hidle₂, htodo₂, herrands₂⟩ := ih hidle₁ htodo₁ hfew
    refine ⟨c₂, hrun₁.trans hrun₂, hidle₂, htodo₂, ?_⟩
    rw [herrands₂, herrands₁, List.append_assoc]
    rfl

/-- Looking for all results once nothing is under way. -/
theorem exists_run_collect {calls : List (SourceUnit × Nat × UInt64)} (h : c.Idle t.service b n)
    (hquiet : ∀ w ∈ c.slots, w.Quiet) (htodo : c.todo = []) (herrands : c.errands = calls.map errand) :
    (b.collect calls).1 = calls.map (fun call => t.output call.1) ∧
      ∃ c', c.Run c' ∧ c'.Idle t.service (b.collect calls).2 n ∧ c'.Over := by
  induction calls generalizing b c with
  | nil => exact ⟨rfl, c, .start, h, htodo, herrands⟩
  | cons call calls ih =>
    obtain ⟨u, slot, id⟩ := call
    obtain ⟨hfound, slots, hrun, hidle, hquiet'⟩ := h.observe hquiet htodo herrands (t.gives u)
    obtain ⟨houtputs, c', hrun', hidle', hover⟩ := ih hidle hquiet' htodo rfl
    refine ⟨?_, c', hrun.trans hrun', hidle', hover⟩
    have hfound : (b.observe slot id).1 = some (.ok (t.reply u)) := hfound
    have houtputs : (collect (b.observe slot id).2 calls).1 =
        calls.map fun call => t.output call.1 := houtputs
    rw [collect_cons, hfound, houtputs, Option.getD_some, outputOf_reply, List.map_cons]

/-- `compile` is one way in which the threads of a pool can follow one another. -/
theorem exists_run_compile (h : c.Idle t.service b n) (htodo : c.todo = units.map (·.job))
    (herrands : c.errands = []) (hfew : n + units.length < 2 ^ 64) :
    (b.compile units).1 = units.map t.output ∧
      ∃ c', c.Run c' ∧ c'.Idle t.service (b.compile units).2 (n + units.length) ∧ c'.Over := by
  obtain ⟨c₁, hrun₁, hidle₁, htodo₁, herrands₁⟩ := exists_run_dispatchAll h htodo hfew
  obtain ⟨slots, hrun₂, hidle₂, hquiet⟩ := hidle₁.settle
  rw [herrands, List.nil_append] at herrands₁
  obtain ⟨houtputs, c₃, hrun₃, hidle₃, hover⟩ := exists_run_collect hidle₂ hquiet htodo₁ herrands₁
  exact ⟨houtputs.trans (map_zip_dispatchAll t.output b units), c₃,
    (hrun₁.trans hrun₂).trans hrun₃, hidle₃, hover⟩

/-- A pool whose workers serve a transpiler, after at most `n` calls in every slot. Nobody waits for a
result. -/
def Ready (t : Transpiler) (n : Nat) (b : Batch) : Prop :=
  ∃ c : Crew PUnit, c.Idle t.service b n ∧ c.errands = []

/-- A pool that is ready transforms units, and is ready again. -/
theorem Ready.compile (h : Ready t n b) (hfew : n + units.length < 2 ^ 64) :
    (b.compile units).1 = units.map t.output ∧ Ready t (n + units.length) (b.compile units).2 := by
  obtain ⟨c, hidle, herrands⟩ := h
  obtain ⟨houtputs, c', -, hidle', hover⟩ :=
    exists_run_compile (hidle.withJobs (units.map (·.job))) rfl herrands hfew
  exact ⟨houtputs, c', hidle', hover.2⟩

/-- Batches that a pool transforms one after the other leave it ready. -/
theorem Ready.compileAll (h : Ready t n b) {batches : List (List SourceUnit)}
    (hfew : n + (batches.map List.length).sum < 2 ^ 64) :
    Ready t (n + (batches.map List.length).sum) (batches.foldl (fun b us => (b.compile us).2) b) := by
  induction batches generalizing b n with
  | nil => exact h
  | cons us batches ih =>
    rw [List.map_cons, List.sum_cons, ← Nat.add_assoc] at hfew ⊢
    have hfirst : n + us.length < 2 ^ 64 := by omega
    exact ih (h.compile hfirst).2 hfew

/-- A pool of at least one worker can be started. -/
theorem exists_ready_start {s : Settings} (ht : Transpiler.ofSettings s = .ok t)
    (hsize : 0 < s.poolSize.getD 1) : ∃ b, Batch.start s = .ok b ∧ Ready t 0 b := by
  obtain ⟨b, hstart, hidle⟩ := Crew.exists_idle_start hsize t.service []
  have hready : Ready t 0 b := ⟨_, hidle, rfl⟩
  refine ⟨b, ?_, hready⟩
  rw [Batch.start, ht]
  show (Pool.start (s.poolSize.getD 1) fun _ => t.service).mapError SetupError.dispatch = _
  rw [hstart]
  rfl

end Batch

end Typestrip.TypeScript
