import Mathlib.Algebra.Order.BigOperators.Group.List
import Typestrip.Proofs.Rpc.Draining
import Typestrip.Rpc.Pool

/-!
# Pools at work

Somebody has jobs done by a pool: the calls for them go to the slots in turn, and when all have been
made the results are waited for in the same order. Every slot is a session with a listener
(`Typestrip.Proofs.Rpc.Listening`) whose threads go on independently of those of all other slots, so
the replies may come back in any order, and others may use the pool at the same time (`Crew.Others`).

The results are those of the jobs, in the order of the jobs, if what comes back for a job does not
depend on what the worker has been asked before (`Service.Gives`). What carries this through all
interleavings is `Crew.Sound`: the request of every call that is waited for is among those made in its
slot, and nobody has found its result yet. The session of the slot then settles which result there is
to be found (`Served.Run.found`) and that there is one once nothing is under way (`Served.Run.finds`).
`Crew.Run.collects` is the result for whole runs, and `Crew.wellFounded_step` says that they end.
-/

namespace Typestrip.Rpc

/-! ## Finding a result -/

/-- Nothing is found while nobody looks. -/
theorem findings_append_of_unlooked {id : UInt64} {es es' : List Event}
    (h : ∀ r, .look id r ∉ es') : findings id (es ++ es') = findings id es := by
  have hnone : findings id es' = [] := by
    refine List.filterMap_eq_nil_iff.mpr ?_
    intro e he
    by_contra hfinding
    obtain ⟨r, hfinding⟩ := Option.ne_none_iff_exists'.mp hfinding
    exact h _ (Event.eq_look_of_finding? hfinding ▸ he)
  unfold findings at hnone ⊢
  rw [List.filterMap_append, hnone, List.append_nil]

namespace Session

variable {s s' : Session} {es : List Event} {id : UInt64}

/-- Whoever finds the result of a call first finds what decided it. -/
theorem Run.fate_of_observe {x : CallResult} (h : Run {} es s) (hone : s.Unshared id)
    (hnew : findings id es = []) (hfound : (s.caller.observe id).1 = some x) : Fate id es x := by
  obtain ⟨l, htold, hshows⟩ := h.history hone
  rw [Caller.observe_fst] at hfound
  unfold Shows at hshows
  generalize hv : s.view id = v at hshows
  cases hshows with
  | unborn | numbered | standing | inHand | withdrawn =>
    obtain ⟨-, hbox, -⟩ := view_eq.mp hv
    rw [hbox] at hfound
    cases hfound
  | settled _ r =>
    obtain ⟨-, hbox, -⟩ := view_eq.mp hv
    rw [hbox] at hfound
    cases hfound
    exact htold.1
  | taken _ r =>
    obtain ⟨-, -, n, hfindings⟩ := htold
    cases hnew.symm.trans hfindings

/-- Nobody has found a result of a call that is just being made. -/
theorem Run.findings_issue {r : Request} (h : Run {} es s) (hstep : s.Step (.issue r) s')
    (hone : s'.Unshared r.id) : findings r.id (es ++ [.issue r]) = [] := by
  obtain ⟨l, htold, hshows⟩ := (h.near hstep).history hone
  have hstage : stage? r.id s'.calls = some .numbered := by
    cases hstep with
    | issue =>
      refine stage?_of_mem (c := ⟨r, .numbered⟩) hone ?_ rfl
      exact List.mem_append_right _ (List.mem_singleton_self _)
  obtain ⟨rfl, -⟩ := hshows.of_numbered hstage
  exact htold.2.2

end Session

namespace Served

variable {σ : Type} {w : Served σ} {service : Service σ} {es : List Event} {r : Request}
  {outcome : Except Failure Json}

/-- Whoever finds the result of a call first finds what comes back for its request. -/
theorem Run.found {x : CallResult} (h : Run { service } es w) (hlive : .hangUp ∉ es)
    (hone : ∀ id, w.session.Unshared id) (hr : ⟨r, .returned⟩ ∈ w.session.calls)
    (hnew : findings r.id es = []) (hanswer : ∀ rs, (service.after rs).answer? r = some outcome)
    (hfound : (w.session.caller.observe r.id).1 = some x) : x = outcome.mapError .remote := by
  obtain ⟨-, hrun⟩ := h.session (.start service)
  obtain ⟨before, after, found, still, -, hrecord, hdecision, hbefore, -⟩ :=
    h.exists_answer hlive hone hr
  rcases hrun.fate_of_observe (hone _) hnew hfound with ⟨-, hfate⟩ | ⟨hunrecorded, -⟩
  · rw [hfate] at hdecision
    obtain ⟨outcome', rfl, hx⟩ := Option.map_eq_some_iff.mp hdecision.symm
    rw [hanswer before] at hbefore
    cases hbefore
    exact hx.symm
  · exact absurd hrecord hunrecorded

/-- When nothing is under way, whoever looks for the result of a call finds it. -/
theorem Run.finds (h : Run { service } es w) (hlive : .hangUp ∉ es)
    (hone : ∀ id, w.session.Unshared id) (hr : ⟨r, .returned⟩ ∈ w.session.calls)
    (hnew : findings r.id es = []) (hanswer : ∀ rs, (service.after rs).answer? r = some outcome)
    (hquiet : w.Quiet) :
    (w.session.caller.observe r.id).1 = some (outcome.mapError .remote) := by
  obtain ⟨-, hrun⟩ := h.session (.start service)
  obtain ⟨before, after, found, still, -, -, hdecision, hbefore, hstill⟩ :=
    h.exists_answer hlive hone hr
  rw [hanswer before, hstill hquiet, Option.or_none] at hbefore
  rw [hbefore] at hdecision
  rw [Caller.observe_fst]
  rcases hrun.holds_of_decision (hone _) hr hdecision (by rw [hquiet.reader]; rfl) with
    hbox | ⟨-, hfirst⟩
  · rw [hbox]
    rfl
  · rw [hnew] at hfirst
    cases hfirst

/-- While nobody has hung up, a session at rest has nothing under way. -/
theorem Rests.quiet (h : w.Rests) (hlive : w.session.Live) : w.Quiet := by
  obtain ⟨hidle, hlistener⟩ := h.listener
  have hforth := (hlistener hlive.forth.2).1
  rcases h.reader with ⟨hlistening, hback, -⟩ | hended
  · exact ⟨hforth, hback, hidle, hlistening⟩
  · have hreading := hlive.reading
    rw [hended] at hreading
    cases hreading

end Served

/-! ## Jobs -/

/-- What somebody wants to have done by a pool. -/
structure Job where
  command : String
  args : List Json
  transfer : List Buffer

/-- The request for a job under the number of a call. -/
def Job.request (j : Job) (id : UInt64) : Request := ⟨id, j.command, j.args, j.transfer⟩

/-- Whatever a service has been asked before, this comes back for a job. -/
def Service.Gives {σ : Type} (s : Service σ) (j : Job) (outcome : Except Failure Json) : Prop :=
  ∀ rs id, (s.after rs).answer? (j.request id) = some outcome

/-- A call for a job, of which nobody has found the result. -/
structure Errand where
  job : Job
  slot : Nat
  id : UInt64

/-- The request that an errand is about. -/
def Errand.request (e : Errand) : Request := e.job.request e.id

/-- A pool together with somebody who has jobs done by it. -/
structure Crew (σ : Type) where
  slots : List (Served σ)
  /-- The number of calls so far. -/
  dispatched : Nat := 0
  /-- The jobs that are still to be dispatched. -/
  todo : List Job := []
  /-- The slot whose turn it is for the next job, once that has been found out. -/
  turn : Option Nat := none
  errands : List Errand := []
  results : List CallResult := []

namespace Crew

variable {σ : Type} {c c' c₀ : Crew σ} {service : Service σ}

/-- A pool that has just been started, and jobs for it. -/
def start (size : Nat) (service : Service σ) (jobs : List Job) : Crew σ :=
  { slots := List.replicate size { service }, todo := jobs }

/-- The calls that have been made are in the hands of whoever made them. -/
def Returned (c : Crew σ) : Prop :=
  ∀ e ∈ c.errands, ∃ w, c.slots[e.slot]? = some w ∧ ⟨e.request, .returned⟩ ∈ w.session.calls

/-- One thing that is done for the jobs. They are dispatched one after the other, and when all have been
dispatched, their results are waited for in the same order. What the threads of the slots do comes in
between. -/
inductive Step (c : Crew σ) : Crew σ → Prop
  | count {j : Job} {rest : List Job} (htodo : c.todo = j :: rest) (hturn : c.turn = none)
      (hreturned : c.Returned) :
    c.Step { c with turn := some (c.dispatched % c.slots.length), dispatched := c.dispatched + 1 }
  | call {j : Job} {rest : List Job} {i : Nat} {w : Served σ} {s : Session} {id : UInt64}
      (htodo : c.todo = j :: rest) (hturn : c.turn = some i) (hslot : c.slots[i]? = some w)
      (hissue : w.session.Step (.issue (j.request id)) s) :
    c.Step { c with slots := c.slots.set i { w with session := s }, todo := rest, turn := none,
                    errands := c.errands ++ [⟨j, i, id⟩] }
  | find {e : Errand} {rest : List Errand} {w : Served σ} {s : Session} {r : CallResult}
      (htodo : c.todo = []) (hreturned : c.Returned) (herrands : c.errands = e :: rest)
      (hslot : c.slots[e.slot]? = some w) (hlook : w.session.Step (.look e.id (some r)) s) :
    c.Step { c with slots := c.slots.set e.slot { w with session := s }, errands := rest,
                    results := c.results ++ [r] }
  | slot {i : Nat} {w w' : Served σ} (hslot : c.slots[i]? = some w) (hstep : w.InnerStep w') :
    c.Step { c with slots := c.slots.set i w' }

/-- What others can do who use the same pool: anything but to hang up and to take results that are not
theirs. -/
inductive Others (c : Crew σ) : Crew σ → Prop
  | count : c.Others { c with dispatched := c.dispatched + 1 }
  | slot {i : Nat} {w w' : Served σ} {es : List Event} (hslot : c.slots[i]? = some w)
      (hstep : w.Step es w') (hlive : .hangUp ∉ es)
      (htheirs : ∀ e ∈ c.errands, e.slot = i → ∀ r, .look e.id r ∉ es) :
    c.Others { c with slots := c.slots.set i w' }

/-- What can come of a crew. -/
inductive Run (c₀ : Crew σ) : Crew σ → Prop
  | start : c₀.Run c₀
  | step {c c' : Crew σ} (h : c₀.Run c) (hstep : c.Step c') : c₀.Run c'
  | others {c c' : Crew σ} (h : c₀.Run c) (hothers : c.Others c') : c₀.Run c'

theorem Run.trans (h : c₀.Run c) (h' : c.Run c') : c₀.Run c' := by
  induction h' with
  | start => exact h
  | step _ hstep ih => exact ih.step hstep
  | others _ hothers ih => exact ih.others hothers

/-- Whoever uses a pool alone does nothing but that. -/
theorem Run.of_steps (h : Relation.ReflTransGen Step c₀ c) : c₀.Run c := by
  induction h with
  | refl => exact .start
  | tail _ hstep ih => exact ih.step hstep

/-- All jobs have been done, and all results have been found. -/
def Over (c : Crew σ) : Prop := c.todo = [] ∧ c.errands = []

/-- In no slot so many calls have been made that their numbers begin again. -/
def Small (c : Crew σ) : Prop := ∀ w ∈ c.slots, w.session.calls.length < 2 ^ 64

end Crew

/-! ## One slot -/

/-- What is true of a slot in which nobody has hung up: the calls for errands there have been made, and
nobody has found their results. -/
def Tended {σ : Type} (service : Service σ) (errands : List Errand) (i : Nat) (w : Served σ) : Prop :=
  ∃ es, Served.Run { service } es w ∧ .hangUp ∉ es ∧
    ∀ e ∈ errands, e.slot = i → e.request ∈ w.session.requests ∧ findings e.id es = []

section Slot

variable {σ : Type} {service : Service σ} {errands errands' : List Errand} {i : Nat}
  {w w' : Served σ} {es : List Event}

theorem Tended.start (service : Service σ) (i : Nat) : Tended service [] i { service } :=
  ⟨[], .start, nofun, nofun⟩

theorem Tended.mono (h : Tended service errands i w)
    (hless : ∀ e ∈ errands', e.slot = i → e ∈ errands) : Tended service errands' i w := by
  obtain ⟨es, hrun, hlive, herrands⟩ := h
  exact ⟨es, hrun, hlive, fun e he hi => herrands e (hless e he hi) hi⟩

theorem Tended.unshared (h : Tended service errands i w) (hcount : w.session.calls.length < 2 ^ 64)
    (id : UInt64) : w.session.Unshared id := by
  obtain ⟨es, hrun, -⟩ := h
  exact (hrun.session (.start service)).2.unshared hcount id

theorem Served.Step.requests_eq (hstep : w.Step es w') :
    w'.session.requests = w.session.requests ++ issued es := by
  cases hstep with
  | @near e s hstep =>
    show s.requests = _
    rw [hstep.requests_eq, issued, List.filterMap_cons, List.filterMap_nil]
    cases e.issued? <;> rfl
  | hear | answer | lose | leave => exact (List.append_nil _).symm

/-- Every call has a request. -/
theorem Session.length_requests (s : Session) : s.requests.length = s.calls.length :=
  List.length_map ..

theorem Served.Step.calls_eq (hstep : w.Step es w') :
    w'.session.calls.length = w.session.calls.length + (issued es).length := by
  rw [← Session.length_requests, ← Session.length_requests, hstep.requests_eq, List.length_append]

theorem Served.Step.calls_le (hstep : w.Step es w') :
    w.session.calls.length ≤ w'.session.calls.length :=
  hstep.calls_eq ▸ Nat.le_add_right _ _

/-- What happens of itself is no call. -/
theorem Event.Inner.issued?_eq {e : Event} (h : e.Inner) : e.issued? = none := by
  cases e with
  | issue => exact h.elim
  | _ => rfl

theorem issued_eq_nil (h : ∀ e ∈ es, e.Inner) : issued es = [] :=
  List.filterMap_eq_nil_iff.mpr fun e he => (h e he).issued?_eq

/-- A step of anybody who leaves the results of the errands alone. -/
theorem Tended.step (h : Tended service errands i w) (hstep : w.Step es w') (hlive : .hangUp ∉ es)
    (htheirs : ∀ e ∈ errands, e.slot = i → ∀ r, .look e.id r ∉ es) :
    Tended service errands i w' := by
  obtain ⟨es₀, hrun, hlive₀, herrands⟩ := h
  refine ⟨es₀ ++ es, hrun.step hstep, ?_, ?_⟩
  · rw [List.mem_append, not_or]
    exact ⟨hlive₀, hlive⟩
  · intro e he hi
    obtain ⟨hrequest, hnew⟩ := herrands e he hi
    rw [findings_append_of_unlooked (htheirs e he hi)]
    rw [hstep.requests_eq]
    exact ⟨List.mem_append_left _ hrequest, hnew⟩

/-- The number of a call that is being made is new. -/
theorem Session.Step.id_ne_of_issue {s s' : Session} {r r' : Request} (hstep : s.Step (.issue r) s')
    (hone : s'.Unshared r.id) (hr' : r' ∈ s.requests) : r'.id ≠ r.id := by
  intro heq
  have hnumbers : s'.numbers = s.numbers ++ [r.id] := hstep.numbers_eq
  have hmem : r.id ∈ s.numbers := by
    obtain ⟨c, hc, rfl⟩ := List.mem_map.mp hr'
    exact List.mem_map.mpr ⟨c, hc, heq⟩
  have hcount := List.count_pos_iff.mpr hmem
  rw [Unshared, hnumbers, List.count_append, List.count_singleton_self] at hone
  omega

/-- A call for a job that is being made is an errand more. -/
theorem Tended.issue {j : Job} {id : UInt64} {s : Session} (h : Tended service errands i w)
    (hissue : w.session.Step (.issue (j.request id)) s) (hone : s.Unshared id) :
    Tended service (errands ++ [⟨j, i, id⟩]) i { w with session := s } := by
  obtain ⟨es, hrun, hlive, herrands⟩ := h
  refine ⟨es ++ [.issue (j.request id)], hrun.near hissue, by simpa using hlive, ?_⟩
  intro e he hi
  rcases List.mem_append.mp he with he | he
  · obtain ⟨hrequest, hnew⟩ := herrands e he hi
    rw [findings_append_of_unlooked (by simp)]
    rw [(Served.Step.near hissue).requests_eq]
    exact ⟨List.mem_append_left _ hrequest, hnew⟩
  · cases List.mem_singleton.mp he
    refine ⟨?_, (hrun.session (.start service)).2.findings_issue hissue hone⟩
    show _ ∈ s.requests
    rw [hissue.requests_eq]
    exact List.mem_append_right _ (List.mem_singleton_self _)

/-- An errand whose result is found is no errand any more. -/
theorem Tended.find {e : Errand} {r : CallResult} {s : Session}
    (h : Tended service (e :: errands) i w)
    (hdistinct : ∀ e' ∈ errands, e'.slot = i → e.id ≠ e'.id)
    (hlook : w.session.Step (.look e.id (some r)) s) :
    Tended service errands i { w with session := s } := by
  have hrest : Tended service errands i w := h.mono fun e' he' _ => List.mem_cons_of_mem _ he'
  refine hrest.step (.near hlook) (by simp) ?_
  intro e' he' hi r' hr'
  injection List.mem_singleton.mp hr' with hid
  exact hdistinct e' he' hi hid.symm

/-- What goes on of itself in a slot does not concern the errands. -/
theorem Tended.run (h : Tended service errands i w) (hrun : w.Run es w')
    (hinner : ∀ e ∈ es, e.Inner) : Tended service errands i w' := by
  induction hrun with
  | start => exact h
  | step _ hstep ih =>
    obtain ⟨hinner, hinner'⟩ := List.forall_mem_append.mp hinner
    exact (ih hinner).step hstep (hinner' _ ·) fun _ _ _ _ hlook => hinner' _ hlook

/-- Once listener and reader have done without interruption what there is to do, nothing is under
way. -/
theorem Tended.settle (h : Tended service errands i w) (hcount : w.session.calls.length < 2 ^ 64)
    (hreply : w.reply = none) (hlistening : w.session.reader = .listening) :
    ∃ w', (∃ es, w.Run es w' ∧ ∀ e ∈ es, e.Inner) ∧ w'.worker = w.worker.settle ∧
      w'.session.calls = w.session.calls ∧ w'.Quiet := by
  obtain ⟨es, w', hrun, hinner, hworker, hreply', hcalls, hforth, hback, hreader⟩ :=
    Served.run_settle hreply hlistening
  have htended := h.run hrun hinner
  have hone := htended.unshared (hcalls ▸ hcount)
  obtain ⟨es', hrun', hlive, -⟩ := htended
  have hlive := (hrun'.orderly hlive hone).live
  have hlistening' : w'.session.reader = .listening := by
    rcases hreader with hlistening' | ⟨-, hgone⟩
    · exact hlistening'
    · rw [hlive.back.2] at hgone
      cases hgone
  exact ⟨w', ⟨es, hrun, hinner⟩, hworker, hcalls, (hforth hlive.forth.2).1, (hback hlive.back.2).1,
    hreply', hlistening'⟩

end Slot

namespace Crew

variable {σ : Type} {c c' c₀ : Crew σ} {service : Service σ}

/-! ## All slots -/

/-- What is true of a crew as long as nobody hangs up. -/
structure Sound (service : Service σ) (c : Crew σ) : Prop where
  nonempty : 0 < c.slots.length
  slots : ∀ i w, c.slots[i]? = some w → Tended service c.errands i w
  placed : ∀ e ∈ c.errands, e.slot < c.slots.length
  turn : ∀ i, c.turn = some i → i < c.slots.length
  distinct : c.errands.Pairwise fun e e' => e.slot = e'.slot → e.id ≠ e'.id

theorem Sound.start {size : Nat} (hsize : 0 < size) (service : Service σ) (jobs : List Job) :
    (start size service jobs).Sound service where
  nonempty := by simpa [Crew.start] using hsize
  slots i w hslot := by
    obtain rfl := List.eq_of_mem_replicate (List.mem_of_getElem? hslot)
    exact .start service i
  placed := nofun
  turn := nofun
  distinct := .nil

/-- What is true of every slot stays so if it is true of the one that changes, and is kept where nothing
changes. -/
theorem forall_slots_set {slots : List (Served σ)} {P Q : Nat → Served σ → Prop} {i : Nat}
    {w' : Served σ} (h : ∀ j w, slots[j]? = some w → P j w) (hnew : Q i w')
    (hold : ∀ j w, j ≠ i → P j w → Q j w) : ∀ j w, (slots.set i w')[j]? = some w → Q j w := by
  intro j w hj
  by_cases hji : i = j
  · subst hji
    rw [List.getElem?_set_self'] at hj
    obtain ⟨-, -, rfl⟩ := Option.map_eq_some_iff.mp hj
    exact hnew
  · rw [List.getElem?_set_ne hji] at hj
    exact hold j w (Ne.symm hji) (h j w hj)

theorem Sound.others (h : c.Sound service) (hothers : c.Others c') : c'.Sound service := by
  cases hothers with
  | count => exact ⟨h.nonempty, h.slots, h.placed, h.turn, h.distinct⟩
  | @slot i w w' es hslot hstep hlive htheirs =>
    have hlength : (c.slots.set i w').length = c.slots.length := List.length_set
    refine ⟨by rw [hlength]; exact h.nonempty, ?_, by rw [hlength]; exact h.placed,
      by rw [hlength]; exact h.turn, h.distinct⟩
    exact forall_slots_set h.slots ((h.slots i w hslot).step hstep hlive htheirs) fun _ _ _ h => h

/-- What happens of itself in a slot is nothing else than others can do. -/
theorem others_of_inner {i : Nat} {w w' : Served σ} (hslot : c.slots[i]? = some w)
    (hstep : w.InnerStep w') : c.Others { c with slots := c.slots.set i w' } := by
  obtain ⟨es, hstep, hinner⟩ := hstep
  exact .slot hslot hstep (hinner _ ·) fun _ _ _ _ hlook => hinner _ hlook

theorem Sound.step (h : c.Sound service) (hstep : c.Step c') (hsmall : c'.Small) :
    c'.Sound service := by
  cases hstep with
  | count =>
    refine ⟨h.nonempty, h.slots, h.placed, ?_, h.distinct⟩
    rintro i ⟨⟩
    exact Nat.mod_lt _ h.nonempty
  | @call j rest i w s id htodo hturn hslot hissue =>
    have htended := h.slots i w hslot
    have hi : i < c.slots.length := h.turn i hturn
    have hlength : (c.slots.set i { w with session := s }).length = c.slots.length :=
      List.length_set
    have hnext : Tended service c.errands i { w with session := s } :=
      htended.step (.near hissue) (by simp) (by simp)
    have hone : s.Unshared id := hnext.unshared (hsmall _ (List.mem_set hi _)) id
    refine ⟨by rw [hlength]; exact h.nonempty, ?_, ?_, nofun, ?_⟩
    · refine forall_slots_set h.slots (htended.issue hissue hone) fun j' w' hne htended' => ?_
      -- the new errand is in another slot
      refine htended'.mono fun e he hslot' => ?_
      rcases List.mem_append.mp he with he | he
      · exact he
      · cases List.mem_singleton.mp he
        exact absurd hslot'.symm hne
    · rw [hlength]
      exact List.forall_mem_append.mpr ⟨h.placed, List.forall_mem_singleton.mpr hi⟩
    · refine List.pairwise_append.mpr ⟨h.distinct, List.pairwise_singleton _ _, ?_⟩
      intro e he e' he' hslot'
      cases List.mem_singleton.mp he'
      obtain ⟨es, -, -, herrands⟩ := htended
      exact hissue.id_ne_of_issue hone (herrands e he hslot').1
  | @find e rest w s r htodo hreturned herrands hslot hlook =>
    have hlength : (c.slots.set e.slot { w with session := s }).length = c.slots.length :=
      List.length_set
    have htended := h.slots e.slot w hslot
    have hplaced := h.placed
    have hdistinct := h.distinct
    rw [herrands] at htended hplaced hdistinct
    obtain ⟨hfirst, hrest⟩ := List.pairwise_cons.mp hdistinct
    refine ⟨by rw [hlength]; exact h.nonempty, ?_, ?_, by rw [hlength]; exact h.turn, hrest⟩
    · refine forall_slots_set h.slots (htended.find ?_ hlook) fun j' w' _ htended' => ?_
      · exact fun e' he' hslot' => hfirst e' he' hslot'.symm
      · refine htended'.mono fun e' he' _ => ?_
        rw [herrands]
        exact List.mem_cons_of_mem _ he'
    · rw [hlength]
      exact fun e' he' => hplaced e' (List.mem_cons_of_mem _ he')
  | slot hslot hstep => exact h.others (others_of_inner hslot hstep)

/-! ## What comes of the jobs -/

theorem forall_of_forall_slots_set {slots : List (Served σ)} {P : Served σ → Prop} {i : Nat}
    {w w' : Served σ} (hslot : slots[i]? = some w) (hback : P w' → P w)
    (h : ∀ v ∈ slots.set i w', P v) : ∀ v ∈ slots, P v := by
  have hi : i < slots.length := (List.getElem?_eq_some_iff.mp hslot).1
  intro v hv
  obtain ⟨j, hj⟩ := List.mem_iff_getElem?.mp hv
  by_cases hij : i = j
  · subst hij
    cases hslot.symm.trans hj
    exact hback (h w' (List.mem_set hi _))
  · refine h v (List.mem_iff_getElem?.mpr ⟨j, ?_⟩)
    rw [List.getElem?_set_ne hij, hj]

theorem Others.small (hothers : c.Others c') (h : c'.Small) : c.Small := by
  cases hothers with
  | count => exact h
  | slot hslot hstep => exact forall_of_forall_slots_set hslot hstep.calls_le.trans_lt h

theorem Step.small (hstep : c.Step c') (h : c'.Small) : c.Small := by
  cases hstep with
  | count => exact h
  | call _ _ hslot hissue =>
    exact forall_of_forall_slots_set hslot (Served.Step.near hissue).calls_le.trans_lt h
  | find _ _ _ hslot hlook =>
    exact forall_of_forall_slots_set hslot (Served.Step.near hlook).calls_le.trans_lt h
  | slot hslot hstep => exact (others_of_inner hslot hstep).small h

/-- The calls that have been made, and those that are still to be made for the jobs. -/
def calls (c : Crew σ) : Nat :=
  (c.slots.map fun w => w.session.calls.length).sum + c.todo.length

theorem Step.calls_eq (hstep : c.Step c') : c'.calls = c.calls := by
  have hset {i : Nat} {w : Served σ} (w' : Served σ) (hslot : c.slots[i]? = some w) :=
    sum_map_set (fun w : Served σ => w.session.calls.length) hslot w'
  cases hstep with
  | count => rfl
  | @call j rest i w s id htodo _ hslot hissue =>
    have hslots := hset { w with session := s } hslot
    have hcalls : s.calls.length = w.session.calls.length + 1 := (Served.Step.near hissue).calls_eq
    simp only [hcalls] at hslots
    simp only [calls, htodo, List.length_cons]
    omega
  | @find e _ w s _ _ _ _ hslot hlook =>
    have hslots := hset { w with session := s } hslot
    have hcalls : s.calls.length = w.session.calls.length := (Served.Step.near hlook).calls_eq
    simp only [hcalls] at hslots
    simp only [calls]
    omega
  | @slot i w w' hslot hstep =>
    have hslots := hset w' hslot
    obtain ⟨es, hstep, hinner⟩ := hstep
    have hcalls := hstep.calls_eq
    rw [issued_eq_nil hinner, List.length_nil] at hcalls
    simp only [calls]
    omega

theorem small_of_calls (h : c.calls < 2 ^ 64) : c.Small := by
  intro w hw
  have hle := List.le_sum_of_mem (List.mem_map_of_mem (f := fun w => w.session.calls.length) hw)
  unfold calls at h
  omega

/-- Who uses a pool alone, for jobs whose number a machine can count, makes no more calls than
that. -/
theorem small_of_steps {size : Nat} {jobs : List Job} (hjobs : jobs.length < 2 ^ 64)
    (h : Relation.ReflTransGen Step (start size service jobs) c) : c.Small := by
  have hcalls : c.calls = (start size service jobs).calls := by
    induction h with
    | refl => rfl
    | tail _ hstep ih => exact hstep.calls_eq.trans ih
  have hstart : (start size service jobs).calls = jobs.length := by
    simp [calls, start]
  refine small_of_calls ?_
  rwa [hcalls, hstart]

/-- The results that have been found are those of the jobs that come first, and the other jobs are still
to be done. -/
def Accounted (jobs : List Job) (outcome : Job → Except Failure Json) (c : Crew σ) : Prop :=
  ∃ done, jobs = done ++ (c.errands.map (·.job) ++ c.todo) ∧
    c.results = done.map fun j => (outcome j).mapError .remote

variable {jobs : List Job} {outcome : Job → Except Failure Json}

/-- The result that is found is that of the job. -/
theorem Sound.result_eq {e : Errand} {w : Served σ} {s : Session} {r : CallResult}
    (h : c.Sound service) (hsmall : c.Small) (hreturned : c.Returned) (he : e ∈ c.errands)
    (hslot : c.slots[e.slot]? = some w) (hlook : w.session.Step (.look e.id (some r)) s)
    (hgives : service.Gives e.job (outcome e.job)) : r = (outcome e.job).mapError .remote := by
  obtain ⟨w', hslot', hcall⟩ := hreturned e he
  cases hslot.symm.trans hslot'
  have htended := h.slots e.slot w hslot
  have hone := htended.unshared (hsmall w (List.mem_of_getElem? hslot))
  obtain ⟨es, hrun, hlive, herrands⟩ := htended
  exact hrun.found hlive hone hcall (herrands e he rfl).2 (fun rs => hgives rs e.id) hlook.observed

theorem Accounted.step (h : c.Accounted jobs outcome) (hsound : c.Sound service) (hsmall : c.Small)
    (hgives : ∀ j ∈ jobs, service.Gives j (outcome j)) (hstep : c.Step c') :
    c'.Accounted jobs outcome := by
  obtain ⟨done, hjobs, hresults⟩ := h
  cases hstep with
  | count => exact ⟨done, hjobs, hresults⟩
  | slot => exact ⟨done, hjobs, hresults⟩
  | @call j rest i w s id htodo hturn hslot hissue =>
    refine ⟨done, ?_, hresults⟩
    rw [hjobs, htodo]
    simp
  | @find e rest w s r htodo hreturned herrands hslot hlook =>
    have he : e ∈ c.errands := herrands ▸ List.mem_cons_self
    have hj : e.job ∈ jobs := by
      rw [hjobs, herrands]
      simp
    refine ⟨done ++ [e.job], ?_, ?_⟩
    · rw [hjobs, herrands]
      simp
    · have hr := hsound.result_eq hsmall hreturned he hslot hlook (hgives e.job hj)
      rw [hresults, hr, List.map_append, List.map_singleton]

theorem Run.sound (h : c₀.Run c) (h₀ : c₀.Sound service) (hsmall : c.Small) : c.Sound service := by
  induction h with
  | start => exact h₀
  | step _ hstep ih => exact (ih (hstep.small hsmall)).step hstep hsmall
  | others _ hothers ih => exact (ih (hothers.small hsmall)).others hothers

theorem Run.accounted (h : c₀.Run c) (h₀ : c₀.Sound service) (hacc : c₀.Accounted jobs outcome)
    (hsmall : c.Small) (hgives : ∀ j ∈ jobs, service.Gives j (outcome j)) :
    c.Accounted jobs outcome := by
  induction h with
  | start => exact hacc
  | step h hstep ih =>
    have hsmall' := hstep.small hsmall
    exact (ih hsmall').step (h.sound h₀ hsmall') hsmall' hgives hstep
  | others _ hothers ih =>
    obtain ⟨done, hjobs, hresults⟩ := ih (hothers.small hsmall)
    cases hothers <;> exact ⟨done, hjobs, hresults⟩

/-! ## Coming to an end -/

/-- What is left to do: a job that is to be dispatched causes at most eight steps in its slot, and it has
to be counted, called for and waited for. -/
def work (c : Crew σ) : Nat :=
  (c.slots.map Served.work).sum + 11 * c.todo.length + c.turn.isNone.toNat + c.errands.length

theorem Step.work_lt (hstep : c.Step c') : c'.work < c.work := by
  have hset {i : Nat} {w : Served σ} (w' : Served σ) (hslot : c.slots[i]? = some w) :
      ((c.slots.set i w').map Served.work).sum + w.work = (c.slots.map Served.work).sum + w'.work :=
    sum_map_set Served.work hslot w'
  cases hstep with
  | count htodo hturn =>
    simp only [work, hturn, Option.isNone_none, Option.isNone_some, Bool.toNat_true, Bool.toNat_false]
    omega
  | @call j rest i w s id htodo hturn hslot hissue =>
    have hslots := hset { w with session := s } hslot
    have hwork := hissue.work_issue
    simp only [Served.work, hissue.farEnds.1] at hslots
    simp only [work, htodo, hturn, Option.isNone_none, Option.isNone_some, Bool.toNat_true,
      Bool.toNat_false, List.length_cons, List.length_append, List.length_nil]
    omega
  | @find e rest w s r htodo _ herrands hslot hlook =>
    have hslots := hset { w with session := s } hslot
    have hwork := hlook.work_look
    simp only [Served.work, hlook.farEnds.1] at hslots
    simp only [work, herrands, List.length_cons]
    omega
  | @slot i w w' hslot hstep =>
    have hslots := hset w' hslot
    obtain ⟨es, hstep, hinner⟩ := hstep
    have hwork := hstep.work_lt hinner
    simp only [work]
    omega

/-- However the threads follow one another, without others they come to an end. -/
theorem wellFounded_step : WellFounded fun c' c : Crew σ => c.Step c' :=
  Subrelation.wf (fun hstep => hstep.work_lt) (measure work).wf

/-- As long as not all results have been found, somebody can go on. -/
theorem Sound.progress (h : c.Sound service) (hsmall : c.Small)
    (hgives : ∀ e ∈ c.errands, service.Gives e.job (outcome e.job)) :
    c.Over ∨ ∃ c', c.Step c' := by
  by_contra hstuck
  obtain ⟨hover, hstuck⟩ := not_or.mp hstuck
  have hstuck : ∀ c', ¬ c.Step c' := not_exists.mp hstuck
  have hrests {i : Nat} {w : Served σ} (hslot : c.slots[i]? = some w) : w.Rests :=
    fun w' hinner => hstuck _ (.slot hslot hinner)
  have hreturned : c.Returned := by
    intro e he
    have hslot := List.getElem?_eq_getElem (h.placed e he)
    obtain ⟨es, -, -, herrands⟩ := h.slots e.slot _ hslot
    obtain ⟨⟨r, st⟩, hc, hr⟩ := List.mem_map.mp (herrands e he rfl).1
    have hst := (hrests hslot).returned _ hc
    cases hr
    cases hst
    exact ⟨_, hslot, hc⟩
  cases htodo : c.todo with
  | cons j rest =>
    cases hturn : c.turn with
    | none => exact hstuck _ (.count htodo hturn hreturned)
    | some i =>
      have hslot := List.getElem?_eq_getElem (h.turn i hturn)
      exact hstuck _ (.call htodo hturn hslot (.issue (j.request _) rfl))
  | nil =>
    cases herrands : c.errands with
    | nil => exact hover ⟨htodo, herrands⟩
    | cons e rest =>
      -- nothing is under way in any slot, so the first result is there
      have he : e ∈ c.errands := herrands ▸ List.mem_cons_self
      obtain ⟨w, hslot, hcall⟩ := hreturned e he
      have htended := h.slots e.slot w hslot
      have hone := htended.unshared (hsmall w (List.mem_of_getElem? hslot))
      obtain ⟨es, hrun, hlive, hnew⟩ := htended
      have hquiet := (hrests hslot).quiet (hrun.orderly hlive hone).live
      have hresult := hrun.finds hlive hone hcall (hnew e he rfl).2 (fun rs => hgives e he rs e.id)
        hquiet
      have hlook := Session.Step.look hcall
      rw [hresult] at hlook
      exact hstuck _ (.find htodo hreturned herrands hslot hlook)

/-- Whatever the order in which the threads of a pool go on, and whatever others do there: the results
that have been found are the first of those of the jobs, in the order of the jobs, and as long as they
are not all there, somebody can go on. -/
theorem Run.collects {size : Nat} (h : Run (Crew.start size service jobs) c) (hsize : 0 < size)
    (hsmall : c.Small) (hgives : ∀ j ∈ jobs, service.Gives j (outcome j)) :
    c.results <+: jobs.map (fun j => (outcome j).mapError .remote) ∧
      (c.Over → c.results = jobs.map fun j => (outcome j).mapError .remote) ∧
      (c.Over ∨ ∃ c', c.Step c') := by
  have hstart : (Crew.start size service jobs).Sound service := .start hsize service jobs
  have haccounted : (Crew.start size service jobs).Accounted jobs outcome := ⟨[], rfl, rfl⟩
  have hsound := h.sound hstart hsmall
  obtain ⟨done, hjobs, hresults⟩ := h.accounted hstart haccounted hsmall hgives
  have herrands : ∀ e ∈ c.errands, service.Gives e.job (outcome e.job) := by
    intro e he
    refine hgives _ ?_
    rw [hjobs]
    exact List.mem_append_right _ (List.mem_append_left _ (List.mem_map_of_mem he))
  refine ⟨?_, ?_, hsound.progress hsmall herrands⟩
  · rw [hresults, hjobs, List.map_append]
    exact List.prefix_append _ _
  · rintro ⟨htodo, herrands⟩
    rw [hresults, hjobs, htodo, herrands, List.map_nil, List.append_nil, List.append_nil]

end Crew

end Typestrip.Rpc
