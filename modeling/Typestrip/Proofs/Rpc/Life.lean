import Typestrip.Proofs.Rpc.Session

/-!
# The life of a call

However the steps of a session follow one another, each call by itself has a simple life: it gets its
number, it stands in the table, its result is decided, the result is put into its mailbox, somebody
takes it out. A call that is refused has its result at once.

`Event.turn` is what an event means for one call and `Life.Move` how the call goes on; most events
are for other calls. `Session.Shows` tells how far a call has got by what a session holds of it. A
step of a session is a move of each call whose number nobody else has (`Session.Step.shows`), so
what a run has made of a call can be read off the events alone (`Session.Run.shows`).
-/

namespace Typestrip.Rpc

/-! ## What an event means for a call -/

/-- What an event means for one call. -/
inductive Turn where
  /-- It is about other calls, or it changes nothing for this one. -/
  | aside
  | number
  | refuse
  | record
  | decide (r : CallResult)
  | complete (r : CallResult)
  | take (r : CallResult)

namespace Event

/-- What a response to a call says, when the reader looks it up. -/
def response? (id : UInt64) : Event → Option (Except Failure Json)
  | deliver e =>
    match Message.decode e with
    | .ok (.response p) => if p.id = id then some p.outcome else none
    | _ => none
  | _ => none

/-- The number that a call gets. -/
def number? : Event → Option UInt64
  | issue r => some r.id
  | _ => none

/-- What an event means for the call with a number. -/
def turn (id : UInt64) : Event → Turn
  | issue r => if r.id = id then .number else .aside
  | refuse id' => if id' = id then .refuse else .aside
  | record id' => if id' = id then .record else .aside
  | withdraw id' => if id' = id then .decide (.error .disconnected) else .aside
  | deliver e =>
    match response? id (.deliver e) with
    | some outcome => .decide (outcome.mapError .remote)
    | none => .aside
  | close => .decide (.error .disconnected)
  | complete id' r => if id' = id then .complete r else .aside
  | look id' (some r) => if id' = id then .take r else .aside
  | _ => .aside

theorem response?_deliver {e : Envelope} {p : Response} (h : Message.decode e = .ok (.response p))
    (id : UInt64) : response? id (.deliver e) = if p.id = id then some p.outcome else none := by
  rw [response?, h]

theorem turn_deliver {e : Envelope} {p : Response} (h : Message.decode e = .ok (.response p))
    (id : UInt64) : turn id (.deliver e) =
      if p.id = id then .decide (p.outcome.mapError .remote) else .aside := by
  rw [turn, response?_deliver h]
  by_cases hid : p.id = id <;> simp [hid]

theorem response?_deliver_eq_some {e : Envelope} {id : UInt64} {outcome : Except Failure Json} :
    response? id (.deliver e) = some outcome ↔
      Message.decode e = .ok (.response ⟨id, outcome⟩) := by
  constructor
  · intro h
    rw [response?] at h
    split at h
    next p hdecode =>
      obtain ⟨rfl, hp⟩ := Option.ite_none_right_eq_some.mp h
      cases hp
      exact hdecode
    next => cases h
  · intro h
    rw [response?_deliver h, if_pos rfl]

end Event

/-! ## How a call goes on -/

/-- How far a call has got. -/
inductive Life where
  | unborn
  | numbered
  /-- Its number is in the table. -/
  | standing
  /-- Its number has been taken out of the table, and this result is on the way. -/
  | decided (r : CallResult)
  | settled (r : CallResult)
  /-- The result has been taken out of the mailbox. -/
  | taken (r : CallResult)

/-- How a call goes on when something happens. -/
inductive Life.Move : Life → Turn → Life → Prop
  | aside (l : Life) : Move l .aside l
  | number : Move .unborn .number .numbered
  | refuse : Move .numbered .refuse (.settled (.error .disconnected))
  | record : Move .numbered .record .standing
  | decide (r : CallResult) : Move .standing (.decide r) (.decided r)
  | late {l : Life} (r : CallResult) (h : l ≠ .standing) : Move l (.decide r) l
  | complete (r : CallResult) : Move (.decided r) (.complete r) (.settled r)
  | take (r : CallResult) : Move (.settled r) (.take r) (.taken r)
  | again (r : CallResult) : Move (.taken r) (.take (.error .disconnected)) (.taken r)

/-! ## What a session holds of a call -/

/-- A call whose mailbox has been made, and whose thread has no result to put into it. -/
inductive Stage.Begun : Stage → Prop
  | recorded : Begun .recorded
  | unsent : Begun .unsent
  | returned : Begun .returned

/-- The result that a reader is about to put into the mailbox of a call. -/
def Reader.hand (id : UInt64) : Reader → Option CallResult
  | resolving id' r => if id' = id then some r else none
  | closing ids => if id ∈ ids then some (.error .disconnected) else none
  | listening | holding _ | ended => none

/-- What a session holds of a call. -/
structure View where
  /-- Whether its number is in the table. -/
  standing : Bool
  mailbox : Option Mailbox
  /-- What the reader has in hand for it. -/
  hand : Option CallResult
  stage : Option Stage

/-- The stage of the first call with a number. -/
def stage? (id : UInt64) (calls : List Ongoing) : Option Stage :=
  (calls.find? (·.request.id = id)).map (·.stage)

namespace Session

/-- What a session holds of the call with a number. -/
def view (s : Session) (id : UInt64) : View where
  standing := s.caller.pending.ids.contains id
  mailbox := s.caller.mailbox? id
  hand := s.reader.hand id
  stage := stage? id s.calls

/-- The numbers of all calls. -/
def numbers (s : Session) : List UInt64 := s.calls.map (·.request.id)

/-- At most one call has the number. -/
def Unshared (s : Session) (id : UInt64) : Prop := s.numbers.count id ≤ 1

end Session

/-- What a session holds of a call that has got so far. -/
inductive Life.Seen : Life → View → Prop
  | unborn : Seen .unborn ⟨false, none, none, none⟩
  | numbered : Seen .numbered ⟨false, none, none, some .numbered⟩
  | standing {st : Stage} (h : st.Begun) : Seen .standing ⟨true, some .waiting, none, some st⟩
  | inHand {st : Stage} (h : st.Begun) (r : CallResult) :
    Seen (.decided r) ⟨false, some .waiting, some r, some st⟩
  | withdrawn :
    Seen (.decided (.error .disconnected)) ⟨false, some .waiting, none, some .withdrawn⟩
  | settled {st : Stage} (h : st.Begun) (r : CallResult) :
    Seen (.settled r) ⟨false, some (.holding r), none, some st⟩
  | taken {st : Stage} (h : st.Begun) (r : CallResult) :
    Seen (.taken r) ⟨false, some .spent, none, some st⟩

namespace Life.Seen

variable {l : Life} {v : View} {st st' : Stage} {r : CallResult}

theorem of_stage_none (h : l.Seen v) (hst : v.stage = none) :
    l = .unborn ∧ v = ⟨false, none, none, none⟩ := by
  cases h <;> simp_all

theorem of_numbered (h : l.Seen v) (hst : v.stage = some .numbered) :
    l = .numbered ∧ v = ⟨false, none, none, some .numbered⟩ := by
  cases h with
  | numbered => exact ⟨rfl, rfl⟩
  | standing hst' | inHand hst' | settled hst' | taken hst' => cases hst; cases hst'
  | unborn | withdrawn => cases hst

theorem of_standing (h : l.Seen v) (hv : v.standing = true) :
    l = .standing ∧ ∃ st, st.Begun ∧ v = ⟨true, some .waiting, none, some st⟩ := by
  cases h <;> simp_all

theorem of_hand (h : l.Seen v) (hv : v.hand = some r) :
    l = .decided r ∧ ∃ st, st.Begun ∧ v = ⟨false, some .waiting, some r, some st⟩ := by
  cases h <;> simp_all

theorem of_withdrawn (h : l.Seen v) (hst : v.stage = some .withdrawn) :
    l = .decided (.error .disconnected) ∧
      v = ⟨false, some .waiting, none, some .withdrawn⟩ := by
  cases h with
  | withdrawn => exact ⟨rfl, rfl⟩
  | standing hst' | inHand hst' | settled hst' | taken hst' => cases hst; cases hst'
  | unborn | numbered => cases hst

/-- A call that has returned, and that neither stands in the table nor has its result on the way. -/
theorem of_returned (h : l.Seen v) (hv : v.standing = false) (hhand : v.hand = none)
    (hst : v.stage = some .returned) :
    ∃ r, (l = .settled r ∧ v.mailbox = some (.holding r)) ∨
      (l = .taken r ∧ v.mailbox = some .spent) := by
  cases h <;> simp_all

theorem ne_standing (h : l.Seen v) (hv : v.standing = false) : l ≠ .standing := by
  cases h <;> simp_all

/-- The thread of a call that has begun goes on by itself. -/
theorem restage (h : l.Seen v) (hv : v.stage = some st) (hst : st.Begun) (hst' : st'.Begun) :
    l.Seen { v with stage := some st' } := by
  cases h with
  | unborn => cases hv
  | numbered | withdrawn => cases hv; cases hst
  | standing => exact .standing hst'
  | inHand => exact .inHand hst' _
  | settled => exact .settled hst' _
  | taken => exact .taken hst' _

end Life.Seen

/-! ## Finding a call by its number -/

section Stage

variable {id : UInt64} {calls : List Ongoing} {c : Ongoing} {r : Request} {st st' : Stage} {i : Nat}

theorem stage?_cons (c : Ongoing) (calls : List Ongoing) (id : UInt64) :
    stage? id (c :: calls) = if c.request.id = id then some c.stage else stage? id calls := by
  unfold stage?
  by_cases h : c.request.id = id <;> simp [h]

theorem stage?_eq_none : stage? id calls = none ↔ id ∉ calls.map (·.request.id) := by
  simp [stage?]

theorem stage?_append (id : UInt64) (calls : List Ongoing) (c : Ongoing) :
    stage? id (calls ++ [c]) =
      (stage? id calls).or (if c.request.id = id then some c.stage else none) := by
  unfold stage?
  rw [List.find?_append, Option.map_or]
  by_cases h : c.request.id = id <;> simp [h]

/-- A call whose number nobody else has is found. -/
theorem stage?_of_mem (hone : (calls.map (·.request.id)).count id ≤ 1) (hmem : c ∈ calls)
    (hid : c.request.id = id) : stage? id calls = some c.stage := by
  induction calls with
  | nil => cases hmem
  | cons d calls ih =>
    rw [List.map_cons, List.count_cons] at hone
    rw [stage?_cons]
    by_cases hd : d.request.id = id
    · rw [if_pos hd]
      obtain rfl | hmem := List.mem_cons.mp hmem
      · rfl
      · have hcount : 0 < (calls.map (·.request.id)).count id :=
          List.count_pos_iff.mpr (List.mem_map.mpr ⟨c, hmem, hid⟩)
        simp only [hd, beq_self_eq_true, if_true] at hone
        omega
    · rw [if_neg hd]
      have hmem : c ∈ calls := (List.mem_cons.mp hmem).resolve_left fun h => hd (h ▸ hid)
      exact ih (by omega) hmem

/-- A call keeps its request whatever becomes of it. -/
theorem map_request_set {α : Type} (f : Request → α) (hcall : calls[i]? = some ⟨r, st⟩) (st' : Stage) :
    (calls.set i ⟨r, st'⟩).map (fun c => f c.request) = calls.map fun c => f c.request := by
  have hrequest : (calls.map fun c => f c.request)[i]? = some (f r) := by
    rw [List.getElem?_map, hcall]
    rfl
  obtain ⟨hi, hget⟩ := List.getElem?_eq_some_iff.mp hrequest
  rw [List.map_set]
  show (calls.map fun c => f c.request).set i (f r) = _
  rw [← hget, List.set_getElem_self]

theorem stage?_set_of_ne (hcall : calls[i]? = some ⟨r, st⟩) (hne : r.id ≠ id) (st' : Stage) :
    stage? id (calls.set i ⟨r, st'⟩) = stage? id calls := by
  induction calls generalizing i with
  | nil => rfl
  | cons c calls ih =>
    cases i with
    | zero =>
      cases hcall
      rw [List.set_cons_zero, stage?_cons, stage?_cons, if_neg hne, if_neg hne]
    | succ i =>
      rw [List.set_cons_succ, stage?_cons, stage?_cons, ih hcall]

theorem stage?_set (hone : (calls.map (·.request.id)).count r.id ≤ 1)
    (hcall : calls[i]? = some ⟨r, st⟩) (st' : Stage) :
    stage? r.id (calls.set i ⟨r, st'⟩) = some st' := by
  have hi : i < calls.length := (List.getElem?_eq_some_iff.mp hcall).1
  have hmem : ⟨r, st'⟩ ∈ calls.set i ⟨r, st'⟩ := List.mem_set hi _
  rw [← map_request_set Request.id hcall st'] at hone
  exact stage?_of_mem hone hmem rfl

/-- When a call goes on, the others stay as they are. -/
theorem mem_set_iff {c' d : Ongoing} (hcall : calls[i]? = some c) (hne : d ≠ c) :
    d ∈ calls.set i c' ↔ d = c' ∨ d ∈ calls := by
  constructor
  · exact fun hd => (List.mem_or_eq_of_mem_set hd).symm
  rintro (rfl | hd)
  · exact List.mem_set (List.getElem?_eq_some_iff.mp hcall).1 _
  · obtain ⟨j, hj⟩ := List.mem_iff_getElem?.mp hd
    have hij : i ≠ j := by
      rintro rfl
      exact hne (Option.some.inj (hj.symm.trans hcall))
    exact List.mem_iff_getElem?.mpr ⟨j, by rw [List.getElem?_set_ne hij, hj]⟩

end Stage

/-! ## The table and the reader -/

/-- Whether a reader has closed the table. -/
def Reader.hasClosed : Reader → Bool
  | closing _ | ended => true
  | listening | holding _ | resolving _ _ => false

namespace Session

/-- What is true of the table and the reader of every session. -/
structure Tidy (s : Session) : Prop where
  table : s.caller.pending.ids.Nodup
  closing : ∀ ids, s.reader = .closing ids → ids.Nodup
  closed : s.caller.pending.closed = s.reader.hasClosed
  empty : s.caller.pending.closed = true → s.caller.pending.ids = []

theorem Tidy.start : Tidy {} where
  table := List.nodup_nil
  closing := by rintro ids ⟨⟩
  closed := rfl
  empty := fun _ => rfl

variable {s s' : Session} {e : Event}

/-- A step that leaves the table alone. -/
theorem Tidy.same (h : s.Tidy) (hpending : s'.caller.pending = s.caller.pending)
    (hreader : s'.reader.hasClosed = s.reader.hasClosed)
    (hclosing : ∀ ids, s'.reader = .closing ids → ids.Nodup) : s'.Tidy where
  table := by
    rw [hpending]
    exact h.table
  closing := hclosing
  closed := by
    rw [hpending, hreader]
    exact h.closed
  empty := by
    rw [hpending]
    exact h.empty

/-- A step that takes a number out of the table. -/
theorem Tidy.remove (h : s.Tidy) {id : UInt64}
    (hpending : s'.caller.pending = (s.caller.pending.remove id).2)
    (hreader : s'.reader.hasClosed = s.reader.hasClosed)
    (hclosing : ∀ ids, s'.reader = .closing ids → s.reader = .closing ids) : s'.Tidy where
  table := by
    rw [hpending]
    exact h.table.erase id
  closing ids hids := h.closing ids (hclosing ids hids)
  closed := by
    rw [hpending, hreader]
    exact h.closed
  empty hclosed := by
    rw [hpending] at hclosed ⊢
    rw [Pending.ids_remove, h.empty hclosed]
    rfl

theorem Step.tidy (hstep : s.Step e s') (h : s.Tidy) : s'.Tidy := by
  cases hstep with
  | issue | refuse | send | fail | overtaken | restore | hangUp => exact h.same rfl rfl h.closing
  | look => exact h.same (Caller.pending_observe _ _) rfl h.closing
  | record _ _ hrecord =>
    obtain ⟨hopen, rfl⟩ := Caller.record?_eq_some.mp hrecord
    exact ⟨Pending.nodup_insert h.table, h.closing, h.closed,
      fun hclosed => absurd (hopen.symm.trans hclosed) Bool.false_ne_true⟩
  | withdraw _ hremove => exact h.remove (congrArg Prod.snd hremove).symm rfl fun _ => id
  | receive hreader => exact h.same rfl (by rw [hreader]; rfl) nofun
  | deliver hreader _ hremove =>
    exact h.remove (congrArg Prod.snd hremove).symm (by rw [hreader]; rfl) nofun
  | pass hreader => exact h.same rfl (by rw [hreader]; rfl) nofun
  | resolve hreader => exact h.same rfl (by rw [hreader]; rfl) nofun
  | close hreader =>
    refine ⟨List.nodup_nil, ?_, rfl, fun _ => rfl⟩
    rintro ids ⟨⟩
    exact h.table
  | orphan hreader hid =>
    refine h.same rfl (by rw [hreader]; rfl) ?_
    rintro ids ⟨⟩
    exact (h.closing _ hreader).erase _
  | finish hreader => exact h.same rfl (by rw [hreader]; rfl) nofun

theorem Run.tidy {s₀ : Session} {es : List Event} (h : s₀.Run es s) (h₀ : s₀.Tidy) : s.Tidy := by
  induction h with
  | start => exact h₀
  | near _ hstep ih => exact hstep.tidy ih
  | far _ _ ih => exact ih.same rfl rfl ih.closing

/-! ## One step is one move -/

/-- The session holds of a call what fits how far it has got. -/
def Shows (s : Session) (id : UInt64) (l : Life) : Prop := l.Seen (s.view id)

variable {id : UInt64} {l : Life}

theorem Shows.of_view {v : View} (h : l.Seen v) (hview : s.view id = v) : s.Shows id l := by
  rw [Shows, hview]
  exact h

theorem Shows.aside (h : s.Shows id l) (hturn : e.turn id = .aside)
    (hview : s'.view id = s.view id) : ∃ l', l.Move (e.turn id) l' ∧ s'.Shows id l' := by
  refine ⟨l, ?_, ?_⟩
  · rw [hturn]
    exact .aside l
  · rw [Shows, hview]
    exact h

theorem view_eq {standing : Bool} {mailbox : Option Mailbox} {hand : Option CallResult}
    {stage : Option Stage} :
    s.view id = ⟨standing, mailbox, hand, stage⟩ ↔
      s.caller.pending.ids.contains id = standing ∧ s.caller.mailbox? id = mailbox ∧
        s.reader.hand id = hand ∧ stage? id s.calls = stage := by
  simp [view]

/-- A step in the thread of a call. It may change the stage of the call, its mailbox, and whether its
number is in the table. -/
theorem Shows.thread {i : Nat} {r : Request} {st st' : Stage} {caller : Caller} {link : Link}
    {t : Turn} (h : s.Shows id l) (hone : s.Unshared id) (hcall : s.calls[i]? = some ⟨r, st⟩)
    (hturn : ∀ id, e.turn id = if r.id = id then t else .aside)
    (htable : ∀ id, r.id ≠ id → (id ∈ caller.pending.ids ↔ id ∈ s.caller.pending.ids))
    (hbox : ∀ id, r.id ≠ id → caller.mailbox? id = s.caller.mailbox? id)
    (hown : (s.view r.id).stage = some st → s.Shows r.id l → ∃ l', l.Move t l' ∧ l'.Seen
      ⟨caller.pending.ids.contains r.id, caller.mailbox? r.id, s.reader.hand r.id, some st'⟩) :
    ∃ l', l.Move (e.turn id) l' ∧
      Shows { s with caller, link, calls := s.calls.set i ⟨r, st'⟩ } id l' := by
  rw [hturn]
  by_cases hid : r.id = id
  case pos =>
    subst hid
    obtain ⟨l', hmove, hseen⟩ := hown (stage?_of_mem hone (List.mem_of_getElem? hcall) rfl) h
    rw [if_pos rfl]
    refine ⟨l', hmove, ?_⟩
    rwa [Shows, view, stage?_set hone hcall]
  case neg =>
    rw [if_neg hid]
    refine ⟨l, .aside l, ?_⟩
    rw [Shows, view, stage?_set_of_ne hcall hid, hbox id hid, List.contains_eq_mem,
      decide_eq_decide.mpr (htable id hid), ← List.contains_eq_mem]
    exact h

section Thread

variable {i : Nat} {r : Request}

theorem Shows.issue (h : s.Shows id l) (hone : (s.numbers ++ [r.id]).count id ≤ 1) :
    ∃ l', l.Move ((Event.issue r).turn id) l' ∧
      Shows { s with caller := s.caller.allocate.2, calls := s.calls ++ [⟨r, .numbered⟩] } id l' := by
  by_cases hid : r.id = id
  case pos =>
    subst hid
    have hnew : stage? r.id s.calls = none := by
      rw [stage?_eq_none]
      intro hmem
      have hcount := List.count_pos_iff.mpr hmem
      rw [List.count_append, List.count_singleton_self] at hone
      exact absurd hcount (by unfold numbers at hone; omega)
    obtain ⟨rfl, hview⟩ := h.of_stage_none hnew
    obtain ⟨htable, hbox, hhand, -⟩ := view_eq.mp hview
    refine ⟨.numbered, ?_, ?_⟩
    · rw [Event.turn, if_pos rfl]
      exact .number
    · refine .of_view .numbered (view_eq.mpr ⟨htable, hbox, hhand, ?_⟩)
      rw [stage?_append, hnew, if_pos rfl]
      rfl
  case neg =>
    refine h.aside (if_neg hid) ?_
    simp only [view, stage?_append, if_neg hid, Option.or_none]
    rfl

theorem Shows.refuse (h : s.Shows id l) (hone : s.Unshared id)
    (hcall : s.calls[i]? = some ⟨r, .numbered⟩) :
    ∃ l', l.Move ((Event.refuse r.id).turn id) l' ∧
      Shows { s with caller := s.caller.settle r.id (.error .disconnected),
                     calls := s.calls.set i ⟨r, .returned⟩ } id l' := by
  refine h.thread hone hcall (fun _ => rfl) (fun _ _ => Iff.rfl) ?_ ?_
  · intro id hne
    rw [Caller.mailbox?_settle, if_neg (Ne.symm hne)]
  · intro hst h
    obtain ⟨rfl, hview⟩ := h.of_numbered hst
    obtain ⟨htable, -, hhand, -⟩ := view_eq.mp hview
    refine ⟨_, .refuse, ?_⟩
    rw [Caller.mailbox?_settle, if_pos rfl, hhand, Caller.settle, htable]
    exact .settled .returned _

theorem Shows.record {caller : Caller} (h : s.Shows id l) (hone : s.Unshared id)
    (hcall : s.calls[i]? = some ⟨r, .numbered⟩) (hrecord : s.caller.record? r.id = some caller) :
    ∃ l', l.Move ((Event.record r.id).turn id) l' ∧
      Shows { s with caller, calls := s.calls.set i ⟨r, .recorded⟩ } id l' := by
  have hbox := Caller.mailbox?_record hrecord
  obtain ⟨-, rfl⟩ := Caller.record?_eq_some.mp hrecord
  refine h.thread hone hcall (fun _ => rfl) ?_ ?_ ?_
  · intro id hne
    rw [Pending.mem_insert, or_iff_right (Ne.symm hne)]
  · intro id hne
    rw [hbox, if_neg (Ne.symm hne)]
  · intro hst h
    obtain ⟨rfl, hview⟩ := h.of_numbered hst
    obtain ⟨-, -, hhand, -⟩ := view_eq.mp hview
    refine ⟨_, .record, ?_⟩
    rw [hbox, if_pos rfl, hhand, List.contains_iff_mem.mpr List.mem_cons_self]
    exact .standing .recorded

/-- A step in the thread of a call that has begun, which changes nothing but the stage. -/
theorem Shows.restage {st st' : Stage} {link : Link} (h : s.Shows id l) (hone : s.Unshared id)
    (hcall : s.calls[i]? = some ⟨r, st⟩) (hturn : ∀ id, e.turn id = .aside) (hst : st.Begun)
    (hst' : st'.Begun) :
    ∃ l', l.Move (e.turn id) l' ∧
      Shows { s with link, calls := s.calls.set i ⟨r, st'⟩ } id l' :=
  h.thread hone hcall (fun id => (hturn id).trans (ite_self _).symm) (fun _ _ => Iff.rfl)
    (fun _ _ => rfl) fun hv h => ⟨l, .aside l, Life.Seen.restage h hv hst hst'⟩

theorem Shows.withdraw {pending : Pending} (h : s.Shows id l) (hone : s.Unshared id)
    (htidy : s.Tidy) (hcall : s.calls[i]? = some ⟨r, .unsent⟩)
    (hremove : s.caller.pending.remove r.id = (true, pending)) :
    ∃ l', l.Move ((Event.withdraw r.id).turn id) l' ∧
      Shows { s with caller := { s.caller with pending },
                     calls := s.calls.set i ⟨r, .withdrawn⟩ } id l' := by
  obtain ⟨hmem, rfl⟩ := Pending.remove_eq_true.mp hremove
  refine h.thread hone hcall (fun _ => rfl) ?_ (fun _ _ => rfl) ?_
  · exact fun id hne => List.mem_erase_of_ne (Ne.symm hne)
  · intro _ h
    obtain ⟨rfl, st, -, hview⟩ := h.of_standing (List.contains_iff_mem.mpr hmem)
    obtain ⟨-, hbox, hhand, -⟩ := view_eq.mp hview
    have htable : ((s.caller.pending.remove r.id).2.ids.contains r.id) = false :=
      Bool.eq_false_iff.mpr (mt List.contains_iff_mem.mp htidy.table.not_mem_erase)
    refine ⟨_, .decide _, ?_⟩
    rw [htable, hhand]
    show Life.Seen _ ⟨_, s.caller.mailbox? r.id, _, _⟩
    rw [hbox]
    exact .withdrawn

theorem Shows.restore (h : s.Shows id l) (hone : s.Unshared id)
    (hcall : s.calls[i]? = some ⟨r, .withdrawn⟩) :
    ∃ l', l.Move ((Event.complete r.id (.error .disconnected)).turn id) l' ∧
      Shows { s with caller := s.caller.deposit r.id (.error .disconnected),
                     calls := s.calls.set i ⟨r, .returned⟩ } id l' := by
  refine h.thread hone hcall (fun _ => rfl) (fun _ _ => Iff.rfl) ?_ ?_
  · intro id hne
    rw [Caller.mailbox?_deposit, if_neg (Ne.symm hne)]
  · intro hst h
    obtain ⟨rfl, hview⟩ := h.of_withdrawn hst
    obtain ⟨htable, hbox, hhand, -⟩ := view_eq.mp hview
    refine ⟨_, .complete _, ?_⟩
    rw [Caller.pending_deposit, Caller.mailbox?_deposit, if_pos rfl, htable, hbox, hhand]
    exact .settled .returned _

theorem Shows.look (h : s.Shows id l) (hone : s.Unshared id) (hcall : ⟨r, .returned⟩ ∈ s.calls) :
    ∃ l', l.Move ((Event.look r.id (s.caller.observe r.id).1).turn id) l' ∧
      Shows { s with caller := (s.caller.observe r.id).2 } id l' := by
  by_cases hid : r.id = id
  case neg =>
    refine h.aside ?_ ?_
    · cases (s.caller.observe r.id).1 with
      | none => rfl
      | some => exact if_neg hid
    · simp [view, Caller.mailbox?_observe, Ne.symm hid]
  case pos =>
    subst hid
    have hst : (s.view r.id).stage = some .returned := stage?_of_mem hone hcall rfl
    have hlook {b : Bool} {m : Mailbox} {hand : Option CallResult}
        (hv : s.view r.id = ⟨b, some m, hand, some .returned⟩) :
        (s.caller.observe r.id).1 = m.observe.1 ∧
          view { s with caller := (s.caller.observe r.id).2 } r.id =
            ⟨b, some m.observe.2, hand, some .returned⟩ := by
      obtain ⟨htable, hbox, hhand, hst⟩ := view_eq.mp hv
      refine ⟨by rw [Caller.observe_fst, hbox]; rfl, view_eq.mpr ⟨?_, ?_, hhand, hst⟩⟩
      · rw [Caller.pending_observe, htable]
      · rw [Caller.mailbox?_observe, if_pos rfl, hbox]
        rfl
    have hown {x : CallResult} : (Event.look r.id (some x)).turn r.id = .take x := if_pos rfl
    unfold Shows at h
    generalize hv : s.view r.id = v at h hst
    cases h with
    | unborn | numbered | withdrawn => cases hst
    | standing hbegun =>
      cases hst
      obtain ⟨hnone, hview⟩ := hlook hv
      exact ⟨_, hnone ▸ .aside _, .of_view (.standing hbegun) hview⟩
    | inHand hbegun x =>
      cases hst
      obtain ⟨hnone, hview⟩ := hlook hv
      exact ⟨_, hnone ▸ .aside _, .of_view (.inHand hbegun x) hview⟩
    | settled hbegun x =>
      cases hst
      obtain ⟨hsome, hview⟩ := hlook hv
      refine ⟨_, ?_, .of_view (.taken hbegun x) hview⟩
      rw [hsome, Mailbox.observe, hown]
      exact .take x
    | taken hbegun x =>
      cases hst
      obtain ⟨hsome, hview⟩ := hlook hv
      refine ⟨_, ?_, .of_view (.taken hbegun x) hview⟩
      rw [hsome, Mailbox.observe, hown]
      exact .again x

end Thread

section Reader

/-- A step of the reader that does not concern a call. -/
theorem view_reader {caller : Caller} {link : Link} {reader : Reader}
    (htable : id ∈ caller.pending.ids ↔ id ∈ s.caller.pending.ids)
    (hbox : caller.mailbox? id = s.caller.mailbox? id)
    (hhand : reader.hand id = s.reader.hand id) :
    view { s with caller, link, reader } id = s.view id := by
  simp [view, htable, hbox, hhand]

theorem Shows.deliver {env : Envelope} {p : Response} {pending : Pending} (h : s.Shows id l)
    (htidy : s.Tidy) (hreader : s.reader = .holding env)
    (hdecode : Message.decode env = .ok (.response p))
    (hremove : s.caller.pending.remove p.id = (true, pending)) :
    ∃ l', l.Move ((Event.deliver env).turn id) l' ∧
      Shows { s with caller := { s.caller with pending },
                     reader := .resolving p.id (p.outcome.mapError .remote) } id l' := by
  obtain ⟨hmem, rfl⟩ := Pending.remove_eq_true.mp hremove
  by_cases hid : p.id = id
  case neg =>
    refine h.aside ?_ (view_reader (List.mem_erase_of_ne (Ne.symm hid)) rfl ?_)
    · rw [Event.turn_deliver hdecode, if_neg hid]
    · rw [hreader]
      exact if_neg hid
  case pos =>
    subst hid
    obtain ⟨rfl, st, hbegun, hview⟩ := h.of_standing (List.contains_iff_mem.mpr hmem)
    obtain ⟨-, hbox, -, hst⟩ := view_eq.mp hview
    refine ⟨.decided (p.outcome.mapError .remote), ?_, ?_⟩
    · rw [Event.turn_deliver hdecode, if_pos rfl]
      exact .decide _
    · refine .of_view (.inHand hbegun _) (view_eq.mpr ⟨?_, hbox, if_pos rfl, hst⟩)
      exact Bool.eq_false_iff.mpr (mt List.contains_iff_mem.mp htidy.table.not_mem_erase)

theorem Shows.pass {env : Envelope} (h : s.Shows id l) (hreader : s.reader = .holding env)
    (hother : ∀ p, Message.decode env = .ok (.response p) →
      (s.caller.pending.remove p.id).1 = false) :
    ∃ l', l.Move ((Event.deliver env).turn id) l' ∧
      Shows { s with reader := .listening } id l' := by
  have hview : view { s with reader := .listening } id = s.view id :=
    view_reader Iff.rfl rfl (by rw [hreader]; rfl)
  cases hresponse : Event.response? id (.deliver env) with
  | none =>
    refine h.aside ?_ hview
    rw [Event.turn, hresponse]
  | some outcome =>
    -- the response comes too early or too late
    have habsent := hother _ (Event.response?_deliver_eq_some.mp hresponse)
    refine ⟨l, ?_, .of_view h hview⟩
    rw [Event.turn, hresponse]
    exact .late _ (h.ne_standing habsent)

theorem Shows.resolve {id' : UInt64} {r : CallResult} (h : s.Shows id l)
    (hreader : s.reader = .resolving id' r) :
    ∃ l', l.Move ((Event.complete id' r).turn id) l' ∧
      Shows { s with caller := s.caller.deposit id' r, reader := .listening } id l' := by
  by_cases hid : id' = id
  case neg =>
    refine h.aside (if_neg hid) (view_reader Iff.rfl ?_ ?_)
    · rw [Caller.mailbox?_deposit, if_neg (Ne.symm hid)]
    · rw [hreader]
      exact (if_neg hid).symm
  case pos =>
    subst hid
    have hhand : s.reader.hand id' = some r := by
      rw [hreader]
      exact if_pos rfl
    obtain ⟨rfl, st, hbegun, hview⟩ := h.of_hand hhand
    obtain ⟨htable, hbox, -, hst⟩ := view_eq.mp hview
    refine ⟨.settled r, ?_, .of_view (.settled hbegun r) (view_eq.mpr ⟨htable, ?_, rfl, hst⟩)⟩
    · rw [Event.turn, if_pos rfl]
      exact .complete r
    · rw [Caller.mailbox?_deposit, if_pos rfl, hbox]
      rfl

theorem Shows.close (h : s.Shows id l) (hreader : s.reader = .listening) :
    ∃ l', l.Move (Event.close.turn id) l' ∧
      Shows { s with caller := { s.caller with pending := s.caller.pending.close.2 },
                     reader := .closing s.caller.pending.close.1 } id l' := by
  by_cases hmem : id ∈ s.caller.pending.ids
  case pos =>
    obtain ⟨rfl, st, hbegun, hview⟩ := h.of_standing (List.contains_iff_mem.mpr hmem)
    obtain ⟨-, hbox, -, hst⟩ := view_eq.mp hview
    exact ⟨_, .decide _,
      .of_view (.inHand hbegun _) (view_eq.mpr ⟨rfl, hbox, if_pos hmem, hst⟩)⟩
  case neg =>
    have habsent : s.caller.pending.ids.contains id = false :=
      Bool.eq_false_iff.mpr (mt List.contains_iff_mem.mp hmem)
    refine ⟨l, .late _ (h.ne_standing habsent), .of_view h (view_reader ?_ rfl ?_)⟩
    · exact iff_of_false List.not_mem_nil hmem
    · rw [hreader]
      exact if_neg hmem

theorem Shows.orphan {ids : List UInt64} {id' : UInt64} (h : s.Shows id l) (htidy : s.Tidy)
    (hreader : s.reader = .closing ids) (hid : id' ∈ ids) :
    ∃ l', l.Move ((Event.complete id' (.error .disconnected)).turn id) l' ∧
      Shows { s with caller := s.caller.deposit id' (.error .disconnected),
                     reader := .closing (ids.erase id') } id l' := by
  by_cases hown : id' = id
  case neg =>
    refine h.aside (if_neg hown) (view_reader Iff.rfl ?_ ?_)
    · rw [Caller.mailbox?_deposit, if_neg (Ne.symm hown)]
    · rw [hreader, Reader.hand, Reader.hand]
      simp only [List.mem_erase_of_ne (Ne.symm hown)]
  case pos =>
    subst hown
    have hhand : s.reader.hand id' = some (.error .disconnected) := by
      rw [hreader]
      exact if_pos hid
    obtain ⟨rfl, st, hbegun, hview⟩ := h.of_hand hhand
    obtain ⟨htable, hbox, -, hst⟩ := view_eq.mp hview
    refine ⟨.settled (.error .disconnected), ?_, ?_⟩
    · rw [Event.turn, if_pos rfl]
      exact .complete _
    refine .of_view (.settled hbegun _) (view_eq.mpr ⟨htable, ?_, ?_, hst⟩)
    · rw [Caller.mailbox?_deposit, if_pos rfl, hbox]
      rfl
    · exact if_neg (htidy.closing ids hreader).not_mem_erase

end Reader

theorem Step.numbers_eq (hstep : s.Step e s') : s'.numbers = s.numbers ++ e.number?.toList := by
  cases hstep with
  | issue r hid => simp [numbers, Event.number?]
  | refuse hcall | record hcall | send hcall | fail hcall | withdraw hcall | overtaken hcall
  | restore hcall => exact (map_request_set Request.id hcall _).trans (List.append_nil _).symm
  | receive | deliver | pass | resolve | close | orphan | finish | look | hangUp =>
    exact (List.append_nil _).symm

theorem Step.unshared (hstep : s.Step e s') (hone : s'.Unshared id) : s.Unshared id := by
  rw [Unshared, hstep.numbers_eq, List.count_append] at hone
  exact Nat.le_of_add_right_le hone

/-- A step of a session is a move of each call whose number nobody else has. -/
theorem Step.shows (hstep : s.Step e s') (htidy : s.Tidy) (hone : s'.Unshared id)
    (h : s.Shows id l) : ∃ l', l.Move (e.turn id) l' ∧ s'.Shows id l' := by
  have hone₀ := hstep.unshared hone
  cases hstep with
  | issue r hid => exact h.issue (by simpa [Unshared, numbers] using hone)
  | refuse hcall _ => exact h.refuse hone₀ hcall
  | record hcall _ hrecord => exact h.record hone₀ hcall hrecord
  | send hcall _ => exact h.restage hone₀ hcall (fun _ => rfl) .recorded .returned
  | fail hcall _ => exact h.restage hone₀ hcall (fun _ => rfl) .recorded .unsent
  | withdraw hcall hremove => exact h.withdraw hone₀ htidy hcall hremove
  | overtaken hcall _ => exact h.restage hone₀ hcall (fun _ => rfl) .unsent .returned
  | restore hcall => exact h.restore hone₀ hcall
  | receive hreader _ => exact h.aside rfl (view_reader Iff.rfl rfl (by rw [hreader]; rfl))
  | deliver hreader hdecode hremove => exact h.deliver htidy hreader hdecode hremove
  | pass hreader hother => exact h.pass hreader hother
  | resolve hreader => exact h.resolve hreader
  | close hreader _ => exact h.close hreader
  | orphan hreader hid => exact h.orphan htidy hreader hid
  | finish hreader => exact h.aside rfl (view_reader Iff.rfl rfl (by rw [hreader]; rfl))
  | look hcall => exact h.look hone₀ hcall
  | hangUp _ => exact h.aside rfl rfl

end Session

end Typestrip.Rpc
