import Mathlib.Algebra.Order.Floor.Div
import Mathlib.Data.Int.CardIntervalMod
import Typestrip.Proofs.Rpc.Dispatching

/-!
# Taking turns

Any number of threads may call through one pool at the same time. Each of them first finds the counter
at some count and leaves it one higher, at a stroke, and then makes its call in the slot of that count.
In between, others may overtake it, calls are made past the counter, on the handle of one slot, the
threads of the slots go on, and slots may hang up.

However that goes, the slots get the same number of calls, up to one (`Rotation.Run.balanced`). The
calls through the pool find the counts `0, 1, …` in the order in which they come to the counter, and a
call that is made goes into the slot of the count it has found, in whatever order the calls are made:
this is the invariant `Rotation.Even`. How the numbers below `n` are spread over the remainders is then
a matter of counting.

`Pool.dispatch` is what a thread does that nobody interrupts (`Rotation.exists_run_dispatch`), and
`Pool.terminate` is a way for all slots to hang up (`Rotation.exists_run_terminate`).
-/

namespace Typestrip.Rpc

/-- A call through a pool. -/
structure Dispatch where
  job : Job
  /-- The count at which it found the counter. -/
  count : UInt64
  /-- The slot and the number of the call, once it has been made. -/
  made : Option (Nat × UInt64) := none

/-- The request of a call through a pool that has been made in the given slot. -/
def Dispatch.requestIn? (i : Nat) (d : Dispatch) : Option Request :=
  match d.made with
  | some (slot, id) => if slot = i then some (d.job.request id) else none
  | none => none

theorem Dispatch.requestIn?_of_open {d : Dispatch} (h : d.made = none) (i : Nat) :
    d.requestIn? i = none := by
  rw [requestIn?, h]

theorem Dispatch.requestIn?_of_made {d : Dispatch} {slot : Nat} {id : UInt64}
    (h : d.made = some (slot, id)) (i : Nat) :
    d.requestIn? i = if slot = i then some (d.job.request id) else none := by
  rw [requestIn?, h]

/-- A pool that any number of threads use. -/
structure Rotation (σ : Type) where
  slots : List (Served σ)
  nonempty : 0 < slots.length
  counter : UInt64 := 0
  /-- The calls through the pool, in the order in which they came to the counter. -/
  dispatches : List Dispatch := []
  /-- The requests of the calls that went past the counter, with their slots. -/
  direct : List (Nat × Request) := []

namespace Rotation

variable {σ : Type} {t t' t₀ : Rotation σ} {size : Nat} {service : Nat → Service σ}

/-- What the pool is when looked at. -/
def pool (t : Rotation σ) : Pool σ where
  workers := (t.slots.map Served.worker).toArray
  dispatched := t.counter.toNat
  nonempty := by simpa using t.nonempty

/-- A pool that has just been started. -/
def start (size : Nat) (hsize : 0 < size) (service : Nat → Service σ) : Rotation σ where
  slots := List.ofFn fun i : Fin size => { service := service i }
  nonempty := by simpa using hsize

/-- Something has gone on in one slot. -/
def setSlot (t : Rotation σ) (i : Nat) (w : Served σ) : Rotation σ :=
  { t with slots := t.slots.set i w, nonempty := by simpa using t.nonempty }

@[simp]
theorem size_pool : t.pool.size = t.slots.length := by
  simp [pool, Pool.size]

theorem slotFor_pool (n : Nat) : t.pool.slotFor n = n % t.slots.length := by
  rw [Pool.slotFor, size_pool]

/-- One thing that happens to a pool. -/
inductive Step (t : Rotation σ) : Rotation σ → Prop
  /-- A thread that wants to call through the pool comes to the counter. -/
  | draw (j : Job) :
    t.Step { t with counter := t.counter + 1, dispatches := t.dispatches ++ [⟨j, t.counter, none⟩] }
  /-- A thread that has been at the counter makes its call. -/
  | call {n : Nat} {d : Dispatch} {w : Served σ} {s : Session} {id : UInt64}
      (hdrawn : t.dispatches[n]? = some d) (hopen : d.made = none)
      (hslot : t.slots[t.pool.slotFor d.count.toNat]? = some w)
      (hissue : w.session.Step (.issue (d.job.request id)) s) :
    t.Step { t.setSlot (t.pool.slotFor d.count.toNat) { w with session := s } with
      dispatches := t.dispatches.set n { d with made := some (t.pool.slotFor d.count.toNat, id) } }
  /-- Somebody makes a call on the handle of a slot. -/
  | direct {i : Nat} {w : Served σ} {s : Session} {r : Request} (hslot : t.slots[i]? = some w)
      (hissue : w.session.Step (.issue r) s) :
    t.Step { t.setSlot i { w with session := s } with direct := t.direct ++ [(i, r)] }
  /-- Something else happens in a slot. -/
  | slot {i : Nat} {w w' : Served σ} {es : List Event} (hslot : t.slots[i]? = some w)
      (hstep : w.Step es w') (hnone : issued es = []) : t.Step (t.setSlot i w')

/-- What can come of a pool. -/
inductive Run (t₀ : Rotation σ) : Rotation σ → Prop
  | start : t₀.Run t₀
  | step {t t' : Rotation σ} (h : t₀.Run t) (hstep : t.Step t') : t₀.Run t'

theorem Run.trans (h : t₀.Run t) (h' : t.Run t') : t₀.Run t' := by
  induction h' with
  | start => exact h
  | step _ hstep ih => exact ih.step hstep

/-! ## Which slot a call goes to -/

/-- The calls through the pool whose turn is at a slot, whether or not they have been made. -/
def assigned (t : Rotation σ) (i : Nat) : Nat :=
  t.dispatches.countP fun d => t.pool.slotFor d.count.toNat = i

/-- The requests of the calls through the pool that have been made in a slot. -/
def given (t : Rotation σ) (i : Nat) : List Request := t.dispatches.filterMap (·.requestIn? i)

/-- The requests of the calls that have been made in a slot past the counter. -/
def aside (t : Rotation σ) (i : Nat) : List Request :=
  t.direct.filterMap fun (slot, r) => if slot = i then some r else none

/-- All calls that came to the counter have been made. -/
def Settled (t : Rotation σ) : Prop := ∀ d ∈ t.dispatches, d.made ≠ none

/-- What is true of a pool of the given size, however it is used. -/
structure Even (size : Nat) (t : Rotation σ) : Prop where
  length_eq : t.slots.length = size
  counter : t.counter = .ofNat t.dispatches.length
  counts : t.dispatches.map (·.count) = (List.range t.dispatches.length).map .ofNat
  turns : ∀ d ∈ t.dispatches, ∀ i id, d.made = some (i, id) → i = d.count.toNat % size
  requests (i : Nat) (w : Served σ) (hslot : t.slots[i]? = some w) :
    w.session.requests.Perm (t.given i ++ t.aside i)

theorem Even.start {hsize : 0 < size} : (start size hsize service).Even size where
  length_eq := List.length_ofFn
  counter := rfl
  counts := rfl
  turns := nofun
  requests i w hslot := by
    have hstarted : i < size ∧ ({ service := service i } : Served σ) = w := by
      simpa [Rotation.start, List.getElem?_ofFn] using hslot
    obtain ⟨-, rfl⟩ := hstarted
    exact .nil

theorem Even.slotFor_eq (h : t.Even size) (n : Nat) : t.pool.slotFor n = n % size := by
  rw [slotFor_pool, h.length_eq]

/-- A call through the pool has been made in slot `i`; in each slot there is one request more, or as many
as before. -/
theorem filterMap_requestIn?_set {ds : List Dispatch} {n : Nat} {d : Dispatch} {i : Nat} {id : UInt64}
    (hdrawn : ds[n]? = some d) (hopen : d.made = none) (j : Nat) :
    ((ds.set n { d with made := some (i, id) }).filterMap (·.requestIn? j)).Perm
      (ds.filterMap (·.requestIn? j) ++ if i = j then [d.job.request id] else []) := by
  obtain ⟨hn, rfl⟩ := List.getElem?_eq_some_iff.mp hdrawn
  have hmade := Dispatch.requestIn?_of_made (d := { ds[n] with made := some (i, id) }) rfl j
  have hds : ds.filterMap (·.requestIn? j) =
      (ds.take n).filterMap (·.requestIn? j) ++ (ds.drop (n + 1)).filterMap (·.requestIn? j) := by
    conv_lhs => rw [← List.take_append_drop n ds, ← List.cons_getElem_drop_succ (h := hn)]
    rw [List.filterMap_append, List.filterMap_cons_none (Dispatch.requestIn?_of_open hopen j)]
  rw [List.set_eq_take_append_cons_drop, if_pos hn, List.filterMap_append, hds]
  by_cases hij : i = j
  · rw [if_pos hij] at hmade ⊢
    rw [List.filterMap_cons_some hmade, List.append_assoc]
    exact (List.perm_append_singleton _ _).symm.append_left _
  · rw [if_neg hij] at hmade ⊢
    rw [List.filterMap_cons_none hmade, List.append_nil]

/-- The requests of a slot when something has gone on in one slot. -/
theorem Even.requests_set (h : t.Even size) {i : Nat} {w w' : Served σ} {new : List Request}
    (hslot : t.slots[i]? = some w) (hrequests : w'.session.requests = w.session.requests ++ new)
    {before : Nat → List Request}
    (hbefore : ∀ j, (before j).Perm (t.given j ++ t.aside j ++ if i = j then new else [])) :
    ∀ (j : Nat) (v : Served σ), (t.slots.set i w')[j]? = some v →
      v.session.requests.Perm (before j) := by
  refine Crew.forall_slots_set h.requests ?_ ?_
  · rw [hrequests]
    refine ((h.requests i w hslot).append_right new).trans ((hbefore i).trans ?_).symm
    rw [if_pos rfl]
  · intro j v hne hv
    refine hv.trans ((hbefore j).trans ?_).symm
    rw [if_neg (Ne.symm hne), List.append_nil]

theorem Even.step (h : t.Even size) (hstep : t.Step t') : t'.Even size := by
  cases hstep with
  | draw j =>
    -- the call finds the count that is the number of calls before it
    refine ⟨h.length_eq, ?_, ?_, ?_, ?_⟩
    · rw [List.length_append, List.length_singleton, UInt64.ofNat_add, h.counter]
      rfl
    · rw [List.map_append, List.length_append, List.length_singleton, List.range_succ,
        List.map_append, h.counts]
      exact congrArg (_ ++ [·]) h.counter
    · refine List.forall_mem_append.mpr ⟨h.turns, List.forall_mem_singleton.mpr nofun⟩
    · intro i w hslot
      refine (h.requests i w hslot).trans (.of_eq ?_)
      simp [given, aside, Dispatch.requestIn?_of_open]
  | @call n d w s id hdrawn hopen hslot hissue =>
    have hd : d ∈ t.dispatches := List.mem_of_getElem? hdrawn
    have hlength : (t.dispatches.set n
      { d with made := some (t.pool.slotFor d.count.toNat, id) }).length = t.dispatches.length :=
      List.length_set
    -- the call keeps its place and its count, however late it is made
    refine ⟨List.length_set.trans h.length_eq, ?_, ?_, ?_, ?_⟩
    · rw [hlength]
      exact h.counter
    · rw [hlength, List.map_set, ← h.counts]
      refine List.ext_getElem? fun m => ?_
      rw [List.getElem?_set]
      split
      next hm =>
        subst hm
        obtain ⟨hn, rfl⟩ := List.getElem?_eq_some_iff.mp hdrawn
        simp [hn]
      next => rfl
    · intro d' hd' i id' hmade
      rcases List.mem_or_eq_of_mem_set hd' with hd' | rfl
      · exact h.turns d' hd' i id' hmade
      · cases hmade
        exact h.slotFor_eq _
    · refine h.requests_set hslot hissue.requests_eq fun j => ?_
      refine ((filterMap_requestIn?_set hdrawn hopen j).append_right _).trans ?_
      rw [List.append_assoc, List.append_assoc]
      exact List.perm_append_comm.append_left _
  | @direct i w s r hslot hissue =>
    refine ⟨List.length_set.trans h.length_eq, h.counter, h.counts, h.turns, ?_⟩
    refine h.requests_set hslot hissue.requests_eq fun j => ?_
    rw [aside, List.filterMap_append, ← List.append_assoc]
    by_cases hij : i = j <;> simp [hij, given, aside, Event.issued?, setSlot]
  | @slot i w w' es hslot hstep hnone =>
    refine ⟨List.length_set.trans h.length_eq, h.counter, h.counts, h.turns, ?_⟩
    refine h.requests_set hslot hstep.requests_eq fun j => ?_
    rw [hnone, ite_self, List.append_nil]
    rfl

theorem Run.even (h : t₀.Run t) (h₀ : t₀.Even size) : t.Even size := by
  induction h with
  | start => exact h₀
  | step _ hstep ih => exact ih.step hstep

/-! ## How many calls a slot gets -/

/-- The calls through the pool found the counts in their order. -/
theorem Even.count_eq (h : t.Even size) (hfew : t.dispatches.length < 2 ^ 64) {n : Nat} {d : Dispatch}
    (hdrawn : t.dispatches[n]? = some d) : d.count.toNat = n := by
  have hn : n < t.dispatches.length := (List.getElem?_eq_some_iff.mp hdrawn).1
  have hcount : (t.dispatches.map (·.count))[n]? = some d.count := by
    rw [List.getElem?_map, hdrawn]
    rfl
  rw [h.counts, List.getElem?_map, List.getElem?_range hn] at hcount
  rw [← Option.some.inj hcount, UInt64.toNat_ofNat_of_lt' (hn.trans hfew)]

/-- The numbers below `n` are spread evenly over the remainders. -/
theorem countP_range_mod (n : Nat) {k i : Nat} (hi : i < k) :
    (List.range n).countP (· % k = i) = n / k ∨ (List.range n).countP (· % k = i) = n ⌈/⌉ k := by
  have hk : 0 < k := i.zero_le.trans_lt hi
  have hcount : (List.range n).countP (· % k = i) = n.count (· ≡ i [MOD k]) := by
    refine List.countP_congr fun m _ => ?_
    simp [Nat.ModEq, Nat.mod_eq_of_lt hi]
  rw [hcount, Nat.count_modEq_card _ hk, Nat.mod_eq_of_lt hi]
  split
  next hlt =>
    have hn : k * (n / k) + n % k = n := Nat.div_add_mod n k
    have hmod : n % k < k := Nat.mod_lt n hk
    have hnext : (n / k + 1) * k = k * (n / k) + k := by rw [Nat.succ_mul, Nat.mul_comm]
    rw [Nat.ceilDiv_eq_add_pred_div]
    refine .inr (Nat.div_eq_of_lt_le ?_ ?_).symm
    · omega
    · rw [Nat.succ_mul, hnext]
      omega
  next => exact .inl rfl

theorem Even.assigned_eq (h : t.Even size) (hfew : t.dispatches.length < 2 ^ 64) (i : Nat) :
    t.assigned i = (List.range t.dispatches.length).countP (· % size = i) := by
  have hcounts : t.dispatches.map (·.count.toNat) = List.range t.dispatches.length := by
    refine List.ext_getElem? fun n => ?_
    cases hdrawn : t.dispatches[n]? with
    | none =>
      have hn : t.dispatches.length ≤ n := List.getElem?_eq_none_iff.mp hdrawn
      simp [hn]
    | some d =>
      have hn : n < t.dispatches.length := (List.getElem?_eq_some_iff.mp hdrawn).1
      rw [List.getElem?_map, hdrawn, List.getElem?_range hn, Option.map_some,
        h.count_eq hfew hdrawn]
  rw [← hcounts, List.countP_map]
  refine List.countP_congr fun d _ => ?_
  simp [h.slotFor_eq]

/-- A request that has been made in a slot is that of a call whose turn is there. -/
theorem Even.slotFor_of_requestIn? (h : t.Even size) {d : Dispatch} (hd : d ∈ t.dispatches) {i : Nat}
    (hrequest : (d.requestIn? i).isSome) : t.pool.slotFor d.count.toNat = i := by
  unfold Dispatch.requestIn? at hrequest
  split at hrequest
  next slot id hmade =>
    split at hrequest
    next hslot => rw [h.slotFor_eq, ← h.turns d hd slot id hmade, hslot]
    next => cases hrequest
  next => cases hrequest

theorem Even.length_given_le (h : t.Even size) (i : Nat) : (t.given i).length ≤ t.assigned i := by
  rw [given, List.length_filterMap_eq_countP]
  refine List.countP_mono_left fun d hd hrequest => ?_
  exact decide_eq_true (h.slotFor_of_requestIn? hd hrequest)

theorem Even.length_given (h : t.Even size) (hsettled : t.Settled) (i : Nat) :
    (t.given i).length = t.assigned i := by
  rw [given, List.length_filterMap_eq_countP]
  refine List.countP_congr fun d hd => ?_
  rw [decide_eq_true_iff]
  refine ⟨h.slotFor_of_requestIn? hd, fun hturn => ?_⟩
  obtain ⟨⟨slot, id⟩, hmade⟩ := Option.ne_none_iff_exists'.mp (hsettled d hd)
  have hslot : slot = i := by rw [h.turns d hd slot id hmade, ← h.slotFor_eq, hturn]
  rw [Dispatch.requestIn?, hmade]
  exact congrArg Option.isSome (if_pos hslot)

/-- A call that came to the counter can be made, whatever has become of the slots. -/
theorem Even.exists_call (h : t.Even size) {n : Nat} {d : Dispatch}
    (hdrawn : t.dispatches[n]? = some d) (hopen : d.made = none) :
    ∃ id t', t.Step t' ∧
      t'.dispatches = t.dispatches.set n { d with made := some (d.count.toNat % size, id) } := by
  have hturn : t.pool.slotFor d.count.toNat < t.slots.length := by
    rw [slotFor_pool]
    exact Nat.mod_lt _ t.nonempty
  obtain ⟨w, hslot⟩ : ∃ w, t.slots[t.pool.slotFor d.count.toNat]? = some w :=
    ⟨_, List.getElem?_eq_getElem hturn⟩
  have hcall := Step.call hdrawn hopen hslot (.issue (d.job.request _) rfl)
  have hmade : d.count.toNat % size = t.pool.slotFor d.count.toNat := (h.slotFor_eq _).symm
  exact ⟨w.session.caller.nextId, _, hcall, by rw [hmade]⟩

/-- However the threads follow one another that call through a pool, on whatever slots have hung up: the
pool counts the calls; the `n`-th of them goes to slot `n` modulo the number of slots, and always can;
of `n` calls each slot gets `n` divided by the number of slots, rounded down or up, and the requests in
a slot are those of the calls it got and of those made past the counter. -/
theorem Run.balanced {hsize : 0 < size} (h : (Rotation.start size hsize service).Run t)
    (hfew : t.dispatches.length < 2 ^ 64) :
    Pool.start size service = .ok (Rotation.start size hsize service).pool ∧
      t.pool.size = size ∧ t.pool.dispatched = t.dispatches.length ∧
      (∀ n d, t.dispatches[n]? = some d →
        d.count.toNat = n ∧ t.pool.slotFor n = n % size ∧ t.pool.slotFor n < size ∧
        (∀ i id, d.made = some (i, id) → i = n % size) ∧
        (d.made = none → ∃ id t', t.Step t' ∧
          t'.dispatches = t.dispatches.set n { d with made := some (n % size, id) })) ∧
      ∀ i < size, ∃ w, t.slots[i]? = some w ∧
        (t.assigned i = t.dispatches.length / size ∨
          t.assigned i = t.dispatches.length ⌈/⌉ size) ∧
        (t.given i).length ≤ t.assigned i ∧
        (t.Settled → (t.given i).length = t.assigned i) ∧
        w.session.requests.Perm (t.given i ++ t.aside i) := by
  have heven : t.Even size := h.even .start
  refine ⟨?_, ?_, ?_, ?_, ?_⟩
  · rw [Pool.start, dif_pos (by simpa using hsize)]
    simp [Rotation.start, pool, Served.worker, List.map_ofFn, Function.comp_def, Session.connection]
  · rw [size_pool, heven.length_eq]
  · show t.counter.toNat = _
    rw [heven.counter, UInt64.toNat_ofNat_of_lt' hfew]
  · intro n d hdrawn
    have hcount := heven.count_eq hfew hdrawn
    have hturn := heven.slotFor_eq n
    refine ⟨hcount, hturn, hturn ▸ Nat.mod_lt _ hsize, ?_, ?_⟩
    · intro i id hmade
      rw [heven.turns d (List.mem_of_getElem? hdrawn) i id hmade, hcount]
    · intro hopen
      have hcall := heven.exists_call hdrawn hopen
      rwa [hcount] at hcall
  · intro i hi
    have hslot := List.getElem?_eq_getElem (heven.length_eq.symm ▸ hi)
    refine ⟨_, hslot, ?_, heven.length_given_le i, (heven.length_given · i),
      heven.requests i _ hslot⟩
    rw [heven.assigned_eq hfew]
    exact countP_range_mod _ hi

/-- Of two threads that use a pool of two slots, the second overtakes the first between the counter and
the slots. -/
theorem exists_run_overtaking :
    ∃ t, (Rotation.start 2 (by decide) fun _ => Service.empty ()).Run t ∧
      t.dispatches.map (·.made) = [some (0, 1), some (1, 1)] := by
  let j : Job := ⟨"ping", [], []⟩
  let started : Rotation Unit := .start 2 (by decide) fun _ => Service.empty ()
  have hstart : started.Run started := .start
  have hdrawn := (hstart.step (.draw j)).step (.draw j)
  have hsecond := hdrawn.step (.call (n := 1) rfl rfl rfl (.issue (j.request 1) rfl))
  have hfirst := hsecond.step (.call (n := 0) rfl rfl rfl (.issue (j.request 1) rfl))
  exact ⟨_, hfirst, rfl⟩

theorem balanced_overtaking :
    ∃ t, (Rotation.start 2 (by decide) fun _ => Service.empty ()).Run t ∧
      t.dispatches.map (·.made) = [some (0, 1), some (1, 1)] ∧ t.dispatches.length < 2 ^ 64 ∧
      t.Settled ∧ t.pool.dispatched = 2 ∧ (t.given 0).length = 1 ∧ (t.given 1).length = 1 := by
  obtain ⟨t, hrun, hmade⟩ := exists_run_overtaking
  have hlength : t.dispatches.length = 2 := by
    rw [← List.length_map (·.made), hmade]
    rfl
  have hsettled : t.Settled := by
    intro d hd hopen
    have hnone : none ∈ t.dispatches.map (·.made) := List.mem_map.mpr ⟨d, hd, hopen⟩
    simp [hmade] at hnone
  have hfew : t.dispatches.length < 2 ^ 64 := by
    rw [hlength]
    decide
  obtain ⟨-, -, hcount, -, hslots⟩ := Run.balanced hrun hfew
  obtain ⟨-, -, hfirst, -, hgiven, -⟩ := hslots 0 (by decide)
  obtain ⟨-, -, hsecond, -, hgiven', -⟩ := hslots 1 (by decide)
  rw [hlength] at hcount hfirst hsecond
  exact ⟨t, hrun, hmade, hfew, hsettled, hcount, (hgiven hsettled).trans (hfirst.elim id id),
    (hgiven' hsettled).trans (hsecond.elim id id)⟩

/-! ## Without interruption -/

/-- A pool can come to have these slots. -/
def Reaches (t : Rotation σ) (slots : List (Served σ)) : Prop :=
  ∃ nonempty, t.Run { t with slots, nonempty }

theorem Reaches.refl (t : Rotation σ) : t.Reaches t.slots := ⟨t.nonempty, .start⟩

theorem Reaches.slot {slots : List (Served σ)} {i : Nat} {w w' : Served σ} {es : List Event}
    (h : t.Reaches slots) (hslot : slots[i]? = some w) (hstep : w.Step es w')
    (hnone : ∀ e ∈ es, e.issued? = none) : t.Reaches (slots.set i w') := by
  obtain ⟨_, hrun⟩ := h
  exact ⟨_, hrun.step (.slot hslot hstep (List.filterMap_eq_nil_iff.mpr hnone))⟩

/-- What goes on of itself in one slot while nothing else does. -/
theorem run_slot {i : Nat} {w w' : Served σ} {es : List Event} (hslot : t.slots[i]? = some w)
    (hrun : w.Run es w') (hinner : ∀ e ∈ es, e.Inner) : t.Run (t.setSlot i w') := by
  obtain ⟨_, h⟩ := slots_run Reaches.slot (Reaches.refl t) hslot hrun
    fun e he => (hinner e he).issued?_eq
  exact h

/-- A call through the pool that nobody interrupts. -/
theorem exists_run_dispatch (t : Rotation σ) (j : Job) (hfew : t.counter.toNat + 1 < 2 ^ 64) :
    ∃ t', t.Run t' ∧ t'.pool = (t.pool.dispatch j.command j.args j.transfer).2 ∧
      t'.dispatches = t.dispatches ++
        [⟨j, t.counter, some (t.pool.dispatch j.command j.args j.transfer).1⟩] := by
  let i := t.pool.slotFor t.pool.dispatched
  have hi : i < t.pool.workers.size := t.pool.slotFor_lt _
  have hi' : i < t.slots.length := size_pool (t := t) ▸ hi
  obtain ⟨w, hslot⟩ : ∃ w, t.slots[i]? = some w := ⟨_, List.getElem?_eq_getElem hi'⟩
  obtain ⟨s₁, es, s', hissue, hsteps, hinner, -, hexec, -⟩ :=
    w.session.run_exec j.command j.args j.transfer
  have hworker : t.pool.workers[i].exec j.command j.args j.transfer =
      (w.session.caller.nextId, ({ w with session := s' } : Served σ).worker) := by
    have hget : t.slots[i] = w := (List.getElem?_eq_some_iff.mp hslot).2
    have hworker : t.pool.workers[i] = w.worker := by simp [pool, hget]
    rw [hworker]
    exact Worker.exec_eq hexec.symm
  have hdrawn := Run.start.step (.draw (t := t) j)
  have hcalled := hdrawn.step (.call (List.getElem?_concat_length ..) rfl hslot hissue)
  have hrun := hcalled.trans (run_slot (List.getElem?_set_self hi') (Served.run_steps hsteps) hinner)
  have hcounter : (t.counter + 1).toNat = t.counter.toNat + 1 := by
    rw [UInt64.toNat_add]
    exact Nat.mod_eq_of_lt hfew
  rw [Pool.dispatch_eq hi hworker]
  refine ⟨_, hrun, ?_, ?_⟩
  · simp only [pool, setSlot, Pool.setWorker, hcounter, List.set_set, List.map_set,
      List.set_toArray]
    rfl
  · exact List.set_append_right _ _ (Nat.le_refl _) |>.trans (by rw [Nat.sub_self]; rfl)

/-- All slots hang up, and their listeners and readers end. Calls that have not been made yet find
nobody there. -/
theorem exists_run_terminate (t : Rotation σ) (hidle : ∀ w ∈ t.slots,
      w.reply = none ∧ w.session.reader = .listening ∧ ∀ c ∈ w.session.calls, c.stage = .returned) :
    ∃ t', t.Run t' ∧ t'.pool = t.pool.terminate ∧ t'.dispatches = t.dispatches := by
  have hends : ∀ w ∈ t.slots, ∃ w', (∃ es, w.Run es w' ∧ ∀ e ∈ es, e.issued? = none) ∧
      w'.worker = w.worker.terminate := by
    intro w hw
    obtain ⟨hreply, hreader, hreturned⟩ := hidle w hw
    have hhung := Served.Run.start.near (.hangUp hreturned)
    let link : Link := { w.session.link with forth := w.session.link.forth.closeSending }
    obtain ⟨es, w', hsettled, hinner, hworker, -⟩ :=
      Served.run_settle (w := { w with session := { w.session with link } }) hreply hreader
    refine ⟨w', ⟨_, hhung.trans hsettled, ?_⟩, hworker⟩
    exact List.forall_mem_cons.mpr ⟨rfl, fun e he => (hinner e he).issued?_eq⟩
  choose! f hruns hworker using hends
  obtain ⟨_, hrun⟩ := slots_map Reaches.slot hruns [] (Reaches.refl t)
  refine ⟨_, hrun, ?_, rfl⟩
  simpa [pool, Pool.terminate, Pool.mapWorkers] using hworker

end Rotation

end Typestrip.Rpc
