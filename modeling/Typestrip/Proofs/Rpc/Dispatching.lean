import Mathlib.Data.List.OfFn
import Typestrip.Proofs.Rpc.Crew

/-!
# Pools without interruption

The operations on a `Pool` do at once what the threads of its slots do step by step: `Pool.dispatch`
makes a call, `Pool.settle` lets listeners and readers do all there is to do, and `Pool.observe` looks
for a result. Each of them is a way in which the threads can follow one another (`Crew.Idle.dispatch`,
`Crew.Idle.settle`, `Crew.Idle.observe`), from one state in which nobody is in the middle of something
to another (`Crew.Idle`). So what is true of all runs of a crew is true of them.
-/

namespace Typestrip.Rpc

theorem Worker.exec_eq {σ : Type} {v : Worker σ} {command : String} {args : List Json}
    {transfer : List Buffer} {id : UInt64} {connection : Connection}
    (h : v.connection.exec command args transfer = (id, connection)) :
    v.exec command args transfer = (id, { v with connection }) := by
  simp only [exec, h]

theorem Pool.dispatch_eq {σ : Type} {p : Pool σ} {command : String} {args : List Json}
    {transfer : List Buffer} {id : UInt64} {v : Worker σ}
    (hslot : p.slotFor p.dispatched < p.workers.size)
    (h : p.workers[p.slotFor p.dispatched].exec command args transfer = (id, v)) :
    p.dispatch command args transfer = ((p.slotFor p.dispatched, id),
      { p.setWorker (p.slotFor p.dispatched) v hslot with dispatched := p.dispatched + 1 }) := by
  simp only [dispatch, h]

theorem Worker.observe_eq {σ : Type} {v : Worker σ} {id : UInt64} {r : Option CallResult}
    {caller : Caller} (h : v.connection.caller.observe id = (r, caller)) :
    v.observe id = (r, { v with connection := { v.connection with caller } }) := by
  simp only [observe, h]

theorem Pool.observe_eq {σ : Type} {p : Pool σ} {slot : Nat} {id : UInt64} {r : Option CallResult}
    {v : Worker σ} (hslot : slot < p.workers.size) (h : p.workers[slot].observe id = (r, v)) :
    p.observe slot id = (r, p.setWorker slot v hslot) := by
  simp only [observe, dif_pos hslot, h]

/-! ## Slots one after the other -/

section

variable {σ : Type} {allowed : Event → Prop} {P : List (Served σ) → Prop}
  (hkept : ∀ {slots : List (Served σ)} {i : Nat} {w w' : Served σ} {es : List Event}, P slots →
    slots[i]? = some w → w.Step es w' → (∀ e ∈ es, allowed e) → P (slots.set i w'))
  {slots : List (Served σ)}

include hkept

/-- What is kept by what happens in a slot is kept while only that slot goes on. -/
theorem slots_run {i : Nat} {w w' : Served σ} {es : List Event} (h : P slots)
    (hslot : slots[i]? = some w) (hrun : w.Run es w') (hall : ∀ e ∈ es, allowed e) :
    P (slots.set i w') := by
  obtain ⟨hi, hget⟩ := List.getElem?_eq_some_iff.mp hslot
  induction hrun with
  | start =>
    rw [← hget, List.set_getElem_self]
    exact h
  | @step es es' w₁ w₂ _ hstep ih =>
    obtain ⟨hall₁, hall₂⟩ := List.forall_mem_append.mp hall
    have hnext : (slots.set i w₁)[i]? = some w₁ := List.getElem?_set_self hi
    have hlast := hkept (ih hall₁) hnext hstep hall₂
    rwa [List.set_set] at hlast

/-- What is kept by what happens in a slot is kept while one slot after the other goes on. -/
theorem slots_map {f : Served σ → Served σ}
    (hruns : ∀ w ∈ slots, ∃ es, w.Run es (f w) ∧ ∀ e ∈ es, allowed e) (before : List (Served σ))
    (h : P (before ++ slots)) : P (before ++ slots.map f) := by
  induction slots generalizing before with
  | nil => exact h
  | cons w rest ih =>
    obtain ⟨es, hrun, hall⟩ := hruns w List.mem_cons_self
    have hslot : (before ++ w :: rest)[before.length]? = some w := by
      rw [List.getElem?_append_right (Nat.le_refl _), Nat.sub_self]
      rfl
    have hset : (before ++ w :: rest).set before.length (f w) = (before ++ [f w]) ++ rest := by
      rw [List.set_append_right _ _ (Nat.le_refl _), Nat.sub_self, List.append_assoc]
      rfl
    have hnext := slots_run hkept h hslot hrun hall
    rw [hset] at hnext
    have hrest := ih (fun v hv => hruns v (List.mem_cons_of_mem _ hv)) (before ++ [f w]) hnext
    rwa [List.append_assoc] at hrest

end

namespace Crew

variable {σ : Type} {c c' : Crew σ} {service : Service σ}

/-- What goes on of itself in one slot keeps to what can come of a crew. -/
theorem Run.slot {slots : List (Served σ)} {i : Nat} {w w' : Served σ} {es : List Event}
    (h : c.Run { c with slots }) (hslot : slots[i]? = some w) (hstep : w.Step es w')
    (hinner : ∀ e ∈ es, e.Inner) : c.Run { c with slots := slots.set i w' } :=
  h.step (.slot hslot ⟨es, hstep, hinner⟩)

/-! ## A pool and its slots -/

/-- A pool as it is when nobody is in the middle of something, after at most `n` calls in every slot. -/
structure Idle (service : Service σ) (p : Pool σ) (n : Nat) (c : Crew σ) : Prop where
  workers : c.slots.map Served.worker = p.workers.toList
  dispatched : c.dispatched = p.dispatched
  turn : c.turn = none
  slots : ∀ w ∈ c.slots, w.reply = none ∧ w.session.reader = .listening
  returned : c.Returned
  sound : c.Sound service
  calls : ∀ w ∈ c.slots, w.session.calls.length ≤ n
  few : n < 2 ^ 64

variable {p p' : Pool σ} {n n' : Nat}

theorem Idle.small (h : c.Idle service p n) : c.Small :=
  fun w hw => (h.calls w hw).trans_lt h.few

theorem Idle.length_eq (h : c.Idle service p n) : c.slots.length = p.workers.size := by
  have hlength := congrArg List.length h.workers
  rwa [List.length_map, Array.length_toList] at hlength

theorem Idle.getElem_eq {i : Nat} {w : Served σ} (h : c.Idle service p n) (hi : i < p.workers.size)
    (hslot : c.slots[i]? = some w) : p.workers[i] = w.worker := by
  have hworker : (c.slots.map Served.worker)[i]? = some w.worker := by
    rw [List.getElem?_map, hslot]
    rfl
  rw [h.workers, Array.getElem?_toList, Array.getElem?_eq_getElem hi] at hworker
  exact Option.some.inj hworker

theorem forall_mem_set {slots : List (Served σ)} {P : Served σ → Prop} {i : Nat} {w' : Served σ}
    (h : ∀ w ∈ slots, P w) (hnew : P w') : ∀ w ∈ slots.set i w', P w := by
  intro w hw
  rcases List.mem_or_eq_of_mem_set hw with hw | rfl
  · exact h w hw
  · exact hnew

/-- Something has gone on in one slot, and nobody is in the middle of it any more. -/
theorem Idle.set {i : Nat} {w w' : Served σ} (h : c.Idle service p n) (hrun : c.Run c')
    (hi : i < p.workers.size) (hslot : c.slots[i]? = some w)
    (hworkers : p'.workers = p.workers.set i w'.worker hi) (hslots : c'.slots = c.slots.set i w')
    (hdispatched : c'.dispatched = p'.dispatched) (hturn : c'.turn = none)
    (hidle : w'.reply = none ∧ w'.session.reader = .listening)
    (hkept : ∀ d ∈ w.session.calls, d ∈ w'.session.calls)
    (herrands : ∀ e ∈ c'.errands,
      e ∈ c.errands ∨ e.slot = i ∧ ⟨e.request, .returned⟩ ∈ w'.session.calls)
    (hcalls : w'.session.calls.length ≤ n') (hn : n ≤ n') (hfew : n' < 2 ^ 64) :
    c'.Idle service p' n' := by
  have hi' : i < c.slots.length := h.length_eq ▸ hi
  have hcount : ∀ w ∈ c'.slots, w.session.calls.length ≤ n' := by
    rw [hslots]
    exact forall_mem_set (fun w hw => (h.calls w hw).trans hn) hcalls
  have hsound := hrun.sound h.sound fun w hw => (hcount w hw).trans_lt hfew
  refine ⟨?_, hdispatched, hturn, ?_, ?_, hsound, hcount, hfew⟩
  · rw [hslots, hworkers, List.map_set, h.workers, Array.toList_set]
  · rw [hslots]
    exact forall_mem_set h.slots hidle
  · intro e he
    rw [hslots]
    rcases herrands e he with he | ⟨rfl, hcall⟩
    · obtain ⟨v, hv, hcall⟩ := h.returned e he
      by_cases hei : i = e.slot
      · subst hei
        cases hslot.symm.trans hv
        exact ⟨w', List.getElem?_set_self hi', hkept _ hcall⟩
      · exact ⟨v, (List.getElem?_set_ne hei).trans hv, hcall⟩
    · exact ⟨w', List.getElem?_set_self hi', hcall⟩

/-- A pool can be given other jobs. -/
theorem Idle.withJobs (h : c.Idle service p n) (jobs : List Job) :
    ({ c with todo := jobs } : Crew σ).Idle service p n :=
  ⟨h.workers, h.dispatched, h.turn, h.slots, h.returned,
    ⟨h.sound.nonempty, h.sound.slots, h.sound.placed, h.sound.turn, h.sound.distinct⟩, h.calls, h.few⟩

/-- A pool that has just been started. -/
theorem exists_idle_start {size : Nat} (hsize : 0 < size) (service : Service σ) (jobs : List Job) :
    ∃ p, Pool.start size (fun _ => service) = .ok p ∧
      (start size service jobs).Idle service p 0 := by
  have hnonempty : 0 < (Array.ofFn fun _ : Fin size => (⟨{}, service⟩ : Worker σ)).size := by
    rwa [Array.size_ofFn]
  refine ⟨_, dif_pos hnonempty, ⟨?_, rfl, rfl, ?_, nofun, .start hsize service jobs, ?_, by decide⟩⟩
  · rw [Array.toList_ofFn, List.ofFn_const]
    exact List.map_replicate
  · intro w hw
    obtain rfl := List.eq_of_mem_replicate hw
    exact ⟨rfl, rfl⟩
  · intro w hw
    obtain rfl := List.eq_of_mem_replicate hw
    exact Nat.le_refl 0

/-! ## What is done to a pool -/

/-- Whoever calls without interruption. -/
theorem Idle.dispatch {j : Job} {rest : List Job} (h : c.Idle service p n)
    (htodo : c.todo = j :: rest) (hfew : n + 1 < 2 ^ 64) :
    ∃ c', c.Run c' ∧ c'.Idle service (p.dispatch j.command j.args j.transfer).2 (n + 1) ∧
      c'.todo = rest ∧ c'.errands = c.errands ++
        [⟨j, (p.dispatch j.command j.args j.transfer).1.1,
          (p.dispatch j.command j.args j.transfer).1.2⟩] := by
  let i := p.slotFor p.dispatched
  have hi : i < p.workers.size := p.slotFor_lt _
  have hi' : i < c.slots.length := h.length_eq ▸ hi
  have hturn : c.dispatched % c.slots.length = i := by
    rw [h.dispatched, h.length_eq]
    rfl
  obtain ⟨w, hslot⟩ : ∃ w, c.slots[i]? = some w := ⟨_, List.getElem?_eq_getElem hi'⟩
  have hw : w ∈ c.slots := List.mem_of_getElem? hslot
  obtain ⟨hreply, hlistening⟩ := h.slots w hw
  obtain ⟨s₁, es, s', hissue, hsteps, hinner, hreader, hexec, hcalls⟩ :=
    w.session.run_exec j.command j.args j.transfer
  let w' : Served σ := { w with session := s' }
  have hworker : p.workers[i].exec j.command j.args j.transfer =
      (w.session.caller.nextId, w'.worker) := by
    rw [h.getElem_eq hi hslot]
    exact Worker.exec_eq hexec.symm
  have hcounted := Run.start.step (.count htodo h.turn h.returned)
  rw [hturn] at hcounted
  have hcalled := hcounted.step (.call htodo rfl hslot hissue)
  have hrun := hcalled.trans (slots_run Run.slot .start (List.getElem?_set_self hi') (Served.run_steps hsteps) hinner)
  rw [List.set_set] at hrun
  have hkept : ∀ d ∈ w.session.calls, d ∈ s'.calls := by
    intro d hd
    rw [hcalls]
    exact List.mem_append_left _ hd
  have hcount : s'.calls.length ≤ n + 1 := by
    rw [hcalls, List.length_append]
    exact Nat.succ_le_succ (h.calls w hw)
  rw [Pool.dispatch_eq hi hworker]
  refine ⟨_, hrun, ?_, rfl, rfl⟩
  refine h.set hrun hi hslot rfl rfl (congrArg (· + 1) h.dispatched) rfl
    ⟨hreply, hreader.trans hlistening⟩ hkept ?_ hcount n.le_succ hfew
  intro e he
  rcases List.mem_append.mp he with he | he
  · exact .inl he
  · cases List.mem_singleton.mp he
    refine .inr ⟨rfl, ?_⟩
    show _ ∈ s'.calls
    rw [hcalls]
    exact List.mem_append_right _ (List.mem_singleton_self _)

/-- Listeners and readers that do without interruption what there is to do. -/
theorem Idle.settle (h : c.Idle service p n) :
    ∃ slots, c.Run { c with slots } ∧ ({ c with slots } : Crew σ).Idle service p.settle n ∧
      ∀ w ∈ slots, w.Quiet := by
  have hsettle : ∀ w ∈ c.slots, ∃ w', (∃ es, w.Run es w' ∧ ∀ e ∈ es, e.Inner) ∧
      w'.worker = w.worker.settle ∧ w'.session.calls = w.session.calls ∧ w'.Quiet := by
    intro w hw
    obtain ⟨i, hslot⟩ := List.mem_iff_getElem?.mp hw
    obtain ⟨hreply, hlistening⟩ := h.slots w hw
    exact (h.sound.slots i w hslot).settle (h.small w hw) hreply hlistening
  choose! f hrun hworker hcalls hquiet using hsettle
  have hquiet' : ∀ w ∈ c.slots.map f, w.Quiet := List.forall_mem_map.mpr hquiet
  have hcount : ∀ w ∈ c.slots.map f, w.session.calls.length ≤ n := by
    refine List.forall_mem_map.mpr fun w hw => ?_
    rw [hcalls w hw]
    exact h.calls w hw
  have hrun' : c.Run { c with slots := c.slots.map f } := slots_map Run.slot hrun [] .start
  have hsound := hrun'.sound h.sound fun w hw => (hcount w hw).trans_lt h.few
  refine ⟨c.slots.map f, hrun', ⟨?_, h.dispatched, h.turn, ?_, ?_, hsound, hcount, h.few⟩, hquiet'⟩
  · show (c.slots.map f).map Served.worker = (p.workers.map Worker.settle).toList
    rw [Array.toList_map, ← h.workers, List.map_map, List.map_map]
    exact List.map_congr_left hworker
  · exact fun w hw => ⟨(hquiet' w hw).reply, (hquiet' w hw).reader⟩
  · intro e he
    obtain ⟨w, hslot, hcall⟩ := h.returned e he
    refine ⟨f w, ?_, ?_⟩
    · rw [List.getElem?_map, hslot]
      rfl
    · rw [hcalls w (List.mem_of_getElem? hslot)]
      exact hcall

/-- Whoever looks for the first result once nothing is under way. -/
theorem Idle.observe {e : Errand} {rest : List Errand} {outcome : Except Failure Json}
    (h : c.Idle service p n) (hquiet : ∀ w ∈ c.slots, w.Quiet) (htodo : c.todo = [])
    (herrands : c.errands = e :: rest) (hgives : service.Gives e.job outcome) :
    (p.observe e.slot e.id).1 = some (outcome.mapError .remote) ∧
      ∃ slots, let c' : Crew σ := { c with slots, errands := rest,
                                           results := c.results ++ [outcome.mapError .remote] }
        c.Run c' ∧ c'.Idle service (p.observe e.slot e.id).2 n ∧ ∀ w ∈ slots, w.Quiet := by
  have he : e ∈ c.errands := herrands ▸ List.mem_cons_self
  have hi : e.slot < p.workers.size := h.length_eq ▸ h.sound.placed e he
  obtain ⟨w, hslot, hcall⟩ := h.returned e he
  have hw : w ∈ c.slots := List.mem_of_getElem? hslot
  have hfound : (w.session.caller.observe e.id).1 = some (outcome.mapError .remote) := by
    have htended := h.sound.slots e.slot w hslot
    have hone := htended.unshared (h.small w hw)
    obtain ⟨es, hrun, hlive, hnew⟩ := htended
    exact hrun.finds hlive hone hcall (hnew e he rfl).2 (fun rs => hgives rs e.id) (hquiet w hw)
  let s : Session := { w.session with caller := (w.session.caller.observe e.id).2 }
  let w' : Served σ := { w with session := s }
  have hlook : w.session.Step (.look e.id (some (outcome.mapError .remote))) s :=
    hfound ▸ Session.Step.look hcall
  have hworker : p.workers[e.slot].observe e.id = (some (outcome.mapError .remote), w'.worker) := by
    rw [h.getElem_eq hi hslot]
    exact Worker.observe_eq (Prod.ext hfound rfl)
  have hquiet' : w'.Quiet := ⟨(hquiet w hw).forth, (hquiet w hw).back, (hquiet w hw).reply,
    (hquiet w hw).reader⟩
  have hrun := Run.start.step (.find htodo h.returned herrands hslot hlook)
  rw [Pool.observe_eq hi hworker]
  refine ⟨rfl, c.slots.set e.slot w', hrun, ?_, forall_mem_set hquiet hquiet'⟩
  refine h.set hrun hi hslot rfl rfl h.dispatched h.turn ⟨hquiet'.reply, hquiet'.reader⟩
    (fun _ hd => hd) (fun e' he' => .inl ?_) (h.calls w hw) n.le_refl h.few
  rw [herrands]
  exact List.mem_cons_of_mem _ he'

end Crew

end Typestrip.Rpc
