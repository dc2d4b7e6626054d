import Typestrip.Proofs.Rpc.Codec
import Typestrip.Proofs.Rpc.History

/-!
# Nobody waits in vain

When nothing will come from the far side any more, the reader closes the table. From then on the table
stays closed and empty, so no call can be recorded that nobody will answer, and every call that stood
in it is told.

`Session.Run.disconnection` says so of every run. What a call gets in the end is the answer that was
delivered to it while its number stood in the table (`answer?`), and otherwise that the far side is
gone.
-/

namespace Typestrip.Rpc

/-! ## Answers -/

/-- What the first response to a call says, of those that the reader looked up while the number of the
call stood in the table. -/
def answer? (id : UInt64) (es : List Event) : Option (Except Failure Json) :=
  ((sinceRecord id es).takeWhile (!·.withdraws id)).findSome? (Event.response? id)

/-- What a call gets in the end: its answer, or that the far side is gone. -/
def finalResult (id : UInt64) (es : List Event) : CallResult :=
  match answer? id es with
  | some outcome => outcome.mapError .remote
  | none => .error .disconnected

/-- What decided a call is its answer, or a disconnection. -/
theorem getD_decision? (id : UInt64) (es : List Event) :
    (decision? id es).getD (.error .disconnected) = finalResult id es := by
  unfold decision? finalResult answer?
  generalize sinceRecord id es = es
  induction es with
  | nil => rfl
  | cons e es ih =>
    rw [List.findSome?_cons, List.takeWhile_cons]
    cases hwithdraws : e.withdraws id with
    | true =>
      rw [Event.turn_of_withdraws hwithdraws]
      rfl
    | false =>
      rw [Bool.not_false, if_pos rfl, List.findSome?_cons]
      cases hresponse : e.response? id with
      | some outcome =>
        rw [Event.decision?_of_response hresponse]
        rfl
      | none =>
        cases hdecision : (e.turn id).decision? with
        | none => exact ih
        | some r =>
          have hwithdraws' := Event.withdraws_of_decision? hresponse hdecision
          exact absurd (hwithdraws.symm.trans hwithdraws') Bool.false_ne_true

theorem Fate.eq_finalResult {id : UInt64} {es : List Event} {r : CallResult} (h : Fate id es r) :
    r = finalResult id es := by
  rw [← getD_decision?]
  obtain ⟨-, hdecision⟩ | ⟨hrecord, rfl⟩ := h
  · rw [hdecision]
    rfl
  · rw [decision?, sinceRecord_of_not_mem hrecord]
    rfl

namespace Session

variable {s s' : Session} {es es' : List Event} {e : Event} {c : Ongoing} {id : UInt64}

/-! ## The closed table -/

theorem Step.closed (hstep : s.Step e s') (h : s.caller.pending.closed = true) :
    s'.caller.pending.closed = true := by
  cases hstep with
  | record _ _ hrecord =>
    obtain ⟨hopen, -⟩ := Caller.record?_eq_some.mp hrecord
    exact absurd (hopen.symm.trans h) Bool.false_ne_true
  | withdraw _ hremove | deliver _ _ hremove =>
    obtain ⟨-, rfl⟩ := Pending.remove_eq_true.mp hremove
    exact h
  | look =>
    rw [Caller.pending_observe]
    exact h
  | close => rfl
  | _ => exact h

theorem Run.closed {s₀ : Session} (h : s₀.Run es s) (hclosed : s₀.caller.pending.closed = true) :
    s.caller.pending.closed = true := by
  induction h with
  | start => exact hclosed
  | near _ hstep ih => exact hstep.closed ih
  | far _ _ ih => exact ih

/-! ## Calls that have returned -/

/-- Whoever looks for the result of a call finds this one, or somebody has found it first. -/
def Holds (s : Session) (es : List Event) (id : UInt64) (r : CallResult) : Prop :=
  s.caller.mailbox? id = some (.holding r) ∨
    (s.caller.mailbox? id = some .spent ∧ (findings id es).head? = some r)

/-- A call that has returned holds its final result, unless its number stands in the table or the
reader has the result in hand. -/
theorem Run.holds (h : Run {} es s) (htable : c.request.id ∉ s.caller.pending.ids) (hc : c ∈ s.calls)
    (hreturned : c.stage = .returned) (hone : s.Unshared c.request.id)
    (hhand : s.reader.hand c.request.id = none) :
    s.Holds es c.request.id (finalResult c.request.id es) := by
  obtain ⟨l, htold, hshows⟩ := h.history hone
  have habsent : s.caller.pending.ids.contains c.request.id = false :=
    Bool.eq_false_iff.mpr (mt List.contains_iff_mem.mp htable)
  have hstage : stage? c.request.id s.calls = some .returned :=
    hreturned ▸ stage?_of_mem hone hc rfl
  obtain ⟨r, ⟨rfl, hbox⟩ | ⟨rfl, hbox⟩⟩ := hshows.of_returned habsent hhand hstage
  · obtain ⟨hfate, -⟩ := htold
    exact hfate.eq_finalResult ▸ .inl hbox
  · obtain ⟨hfate, -, n, hfindings⟩ := htold
    exact hfate.eq_finalResult ▸ .inr ⟨hbox, by rw [hfindings]; rfl⟩

/-! ## Calls that wait -/

/-- Some thread is about to put a result into the mailbox of a call. -/
def Withdrawn (s : Session) (id : UInt64) : Prop :=
  ∃ c ∈ s.calls, c.request.id = id ∧ c.stage = .withdrawn

/-- A mailbox that waits does not wait in vain: its number stands in the table, or a result for it is
on the way. -/
def Attended (s : Session) (id : UInt64) : Prop :=
  s.caller.mailbox? id = some .waiting →
    id ∈ s.caller.pending.ids ∨ s.reader.hand id ≠ none ∨ s.Withdrawn id

theorem Attended.mono (h : s.Attended id)
    (hbox : s'.caller.mailbox? id = some .waiting → s.caller.mailbox? id = some .waiting)
    (htable : id ∈ s.caller.pending.ids → id ∈ s'.caller.pending.ids)
    (hhand : s'.reader.hand id = s.reader.hand id) (hwithdrawn : s.Withdrawn id → s'.Withdrawn id) :
    s'.Attended id := by
  intro hwaiting
  rw [hhand]
  exact (h (hbox hwaiting)).imp htable (Or.imp_right hwithdrawn)

theorem Withdrawn.set {i : Nat} {r : Request} {st st' : Stage} {caller : Caller} {link : Link}
    (h : s.Withdrawn id) (hcall : s.calls[i]? = some ⟨r, st⟩)
    (hst : r.id = id → st ≠ .withdrawn) :
    Withdrawn { s with caller, link, calls := s.calls.set i ⟨r, st'⟩ } id := by
  obtain ⟨c, hc, hid, hwithdrawn⟩ := h
  refine ⟨c, (mem_set_iff hcall ?_).mpr (.inr hc), hid, hwithdrawn⟩
  rintro rfl
  exact hst hid hwithdrawn

theorem mailbox?_put_ne_waiting {caller : Caller} {r : CallResult} :
    (caller.deposit id r).mailbox? id ≠ some .waiting := by
  rw [Caller.mailbox?_deposit, if_pos rfl]
  cases caller.mailbox? id with
  | none => nofun
  | some m => cases m <;> nofun

theorem mailbox?_deposit_waiting {caller : Caller} {id' : UInt64} {r : CallResult}
    (h : (caller.deposit id' r).mailbox? id = some .waiting) :
    id' ≠ id ∧ caller.mailbox? id = some .waiting := by
  have hne : id' ≠ id := by
    rintro rfl
    exact mailbox?_put_ne_waiting h
  rw [Caller.mailbox?_deposit, if_neg (Ne.symm hne)] at h
  exact ⟨hne, h⟩

theorem Step.attended (hstep : s.Step e s') (h : s.Attended id) : s'.Attended id := by
  cases hstep with
  | issue r hid =>
    refine h.mono (fun h => h) (fun h => h) rfl ?_
    rintro ⟨c, hc, hw⟩
    exact ⟨c, List.mem_append_left _ hc, hw⟩
  | @refuse i r hcall hnone =>
    refine h.mono (fun h => ?_) (fun h => h) rfl (·.set hcall fun _ => by decide)
    rw [Caller.mailbox?_settle] at h
    split at h
    · cases h
    · exact h
  | @record i r caller hcall hsending hrecord =>
    have hbox := Caller.mailbox?_record hrecord
    obtain ⟨-, rfl⟩ := Caller.record?_eq_some.mp hrecord
    by_cases hid : r.id = id
    · exact fun _ => .inl (Pending.mem_insert.mpr (.inl hid.symm))
    · refine h.mono (fun h => ?_) (fun h => Pending.mem_insert.mpr (.inr h)) rfl
        (·.set hcall fun _ => by decide)
      rwa [hbox, if_neg (Ne.symm hid)] at h
  | send hcall | fail hcall | overtaken hcall =>
    exact h.mono (fun h => h) (fun h => h) rfl (·.set hcall fun _ => by decide)
  | receive hreader | pass hreader | finish hreader =>
    exact h.mono (fun h => h) (fun h => h) (by rw [hreader]; rfl) (fun h => h)
  | @withdraw i r pending hcall hremove =>
    -- the number leaves the table, and its own thread attends to the mailbox
    obtain ⟨-, rfl⟩ := Pending.remove_eq_true.mp hremove
    by_cases hid : r.id = id
    · refine fun _ => .inr (.inr ⟨⟨r, .withdrawn⟩, ?_, hid, rfl⟩)
      exact List.mem_set (List.getElem?_eq_some_iff.mp hcall).1 _
    · exact h.mono (fun h => h) (List.mem_erase_of_ne (Ne.symm hid)).mpr rfl
        (·.set hcall fun _ => by decide)
  | restore hcall =>
    intro hwaiting
    obtain ⟨hne, hbox⟩ := mailbox?_deposit_waiting hwaiting
    refine h.mono (fun _ => hbox) (fun h => h) rfl (fun hw => ?_) hwaiting
    exact hw.set hcall (absurd · hne)
  | @deliver env p pending hreader hdecode hremove =>
    obtain ⟨-, rfl⟩ := Pending.remove_eq_true.mp hremove
    by_cases hid : p.id = id
    · refine fun _ => .inr (.inl ?_)
      rw [Reader.hand, if_pos hid]
      exact Option.some_ne_none _
    · refine h.mono (fun h => h) (List.mem_erase_of_ne (Ne.symm hid)).mpr ?_ (fun h => h)
      rw [hreader]
      exact if_neg hid
  | resolve hreader =>
    intro hwaiting
    obtain ⟨hne, hbox⟩ := mailbox?_deposit_waiting hwaiting
    refine h.mono (fun _ => hbox) (fun h => h) ?_ (fun h => h) hwaiting
    rw [hreader]
    exact (if_neg hne).symm
  | close hreader _ =>
    -- what stood in the table is now in the hand of the reader
    intro hwaiting
    refine (h hwaiting).elim (fun hmem => .inr (.inl ?_)) (fun h => .inr (h.imp_left fun h => ?_))
    · rw [Reader.hand, Pending.close, if_pos hmem]
      exact Option.some_ne_none _
    · rw [hreader] at h
      exact absurd rfl h
  | @orphan ids id' hreader hid =>
    intro hwaiting
    obtain ⟨hne, hbox⟩ := mailbox?_deposit_waiting hwaiting
    refine h.mono (fun _ => hbox) (fun h => h) ?_ (fun h => h) hwaiting
    rw [hreader, Reader.hand, Reader.hand]
    simp only [List.mem_erase_of_ne (Ne.symm hne)]
  | @look r hcall =>
    refine h.mono (fun h => ?_) ?_ rfl (fun h => h)
    · rw [Caller.mailbox?_observe] at h
      split at h
      next hid =>
        obtain ⟨m, hm, hobserve⟩ := Option.map_eq_some_iff.mp h
        subst hid
        cases m with
        | waiting => exact hm
        | holding | spent => cases hobserve
      next => exact h
    · rw [Caller.pending_observe]
      exact fun h => h
  | hangUp _ => exact h

theorem Run.attended {s₀ : Session} (h : s₀.Run es s) (h₀ : s₀.Attended id) : s.Attended id := by
  induction h with
  | start => exact h₀
  | near _ hstep ih => exact hstep.attended ih
  | far _ _ ih => exact ih

/-- A call that is past its first stage has a mailbox. -/
def Equipped (s : Session) : Prop :=
  ∀ c ∈ s.calls, c.stage ≠ .numbered → s.caller.mailbox? c.request.id ≠ none

theorem Equipped.same (h : s.Equipped) (hcalls : s'.calls = s.calls)
    (hbox : ∀ id, s.caller.mailbox? id ≠ none → s'.caller.mailbox? id ≠ none) : s'.Equipped := by
  intro c hc hst
  rw [hcalls] at hc
  exact hbox _ (h c hc hst)

theorem Equipped.set {i : Nat} {r : Request} {st st' : Stage} {caller : Caller} {link : Link}
    (h : s.Equipped) (hcall : s.calls[i]? = some ⟨r, st⟩)
    (hbox : ∀ id, s.caller.mailbox? id ≠ none → caller.mailbox? id ≠ none)
    (hown : st = .numbered → caller.mailbox? r.id ≠ none) :
    Equipped { s with caller, link, calls := s.calls.set i ⟨r, st'⟩ } := by
  intro c hc hst
  obtain hc | rfl := List.mem_or_eq_of_mem_set hc
  · exact hbox _ (h c hc hst)
  · by_cases hnumbered : st = .numbered
    · exact hown hnumbered
    · have hbefore : s.caller.mailbox? r.id ≠ none := h _ (List.mem_of_getElem? hcall) hnumbered
      exact hbox _ hbefore

theorem mailbox?_deposit_ne_none {caller : Caller} {id' : UInt64} {r : CallResult}
    (h : caller.mailbox? id ≠ none) : (caller.deposit id' r).mailbox? id ≠ none := by
  rw [Caller.mailbox?_deposit]
  split
  next hid =>
    subst hid
    exact mt Option.map_eq_none_iff.mp h
  next => exact h

theorem Step.equipped (hstep : s.Step e s') (h : s.Equipped) : s'.Equipped := by
  cases hstep with
  | issue r hid =>
    intro c hc hst
    obtain hc | hc := List.mem_append.mp hc
    · exact h c hc hst
    · cases List.mem_singleton.mp hc
      exact absurd rfl hst
  | @refuse i r hcall _ =>
    refine h.set hcall (fun id h => ?_) fun _ => ?_ <;> rw [Caller.mailbox?_settle]
    · split
      · nofun
      · exact h
    · rw [if_pos rfl]
      nofun
  | record hcall _ hrecord =>
    have hbox := Caller.mailbox?_record hrecord
    refine h.set hcall (fun id h => ?_) fun _ => ?_ <;> rw [hbox]
    · split
      · nofun
      · exact h
    · rw [if_pos rfl]
      nofun
  | send hcall _ | fail hcall _ | withdraw hcall _ | overtaken hcall _ =>
    exact h.set hcall (fun _ h => h) nofun
  | restore hcall => exact h.set hcall (fun _ => mailbox?_deposit_ne_none) nofun
  | resolve | orphan => exact h.same rfl fun _ => mailbox?_deposit_ne_none
  | look hcall =>
    refine h.same rfl fun id h => ?_
    rw [Caller.mailbox?_observe]
    split
    next hid =>
      subst hid
      exact mt Option.map_eq_none_iff.mp h
    next => exact h
  | receive | deliver | pass | close | finish | hangUp => exact h.same rfl fun _ h => h

theorem Run.equipped (h : Run {} es s) : s.Equipped := by
  induction h with
  | start => nofun
  | near _ hstep ih => exact hstep.equipped ih
  | far _ _ ih => exact ih

/-! ## Disconnection -/

/-- However calls, responses and the end of the far side follow one another: once the table is closed it
is empty, and it stays closed and empty; a call that has returned by then, or returns later, holds its
answer, or that the far side is gone, as soon as the reader has told it; and when the reader has ended
it has told all of them.

The numbers of calls are shared from `2 ^ 64` calls on, and then so are the mailboxes. Even then no
call waits, unless another one with its number is just about to put a result into the mailbox. -/
theorem Run.disconnection (h : Run {} es s) :
    (s.caller.pending.closed = true → s.caller.pending.ids = [] ∧
      ∀ es' s', s.Run es' s' →
        s'.caller.pending.closed = true ∧ s'.caller.pending.ids = []) ∧
    (s.caller.pending.closed = true → ∀ c ∈ s.calls, c.stage = .returned →
      s.Unshared c.request.id → s.reader.hand c.request.id = none →
        s.Holds es c.request.id (finalResult c.request.id es)) ∧
    (s.reader = .ended → s.caller.pending.closed = true ∧ ∀ id, s.reader.hand id = none) ∧
    (s.reader = .ended → ∀ c ∈ s.calls, c.stage = .returned →
      ∃ m, s.caller.mailbox? c.request.id = some m ∧
        (m = .waiting → s.Withdrawn c.request.id)) := by
  have htidy := h.tidy .start
  refine ⟨fun hclosed => ⟨htidy.empty hclosed, fun es' s' h' => ?_⟩,
    fun hclosed c hc hreturned hone hhand => h.holds ?_ hc hreturned hone hhand,
    fun hended => ⟨?_, fun id => ?_⟩, fun hended c hc hreturned => ?_⟩
  · have hclosed' := h'.closed hclosed
    exact ⟨hclosed', (h'.tidy htidy).empty hclosed'⟩
  · rw [htidy.empty hclosed]
    exact List.not_mem_nil
  · rw [htidy.closed, hended]
    rfl
  · rw [hended]
    rfl
  · obtain ⟨m, hm⟩ := Option.ne_none_iff_exists'.mp
      (h.equipped c hc (by rw [hreturned]; nofun))
    refine ⟨m, hm, ?_⟩
    rintro rfl
    have hattended : s.Attended c.request.id := h.attended nofun
    have hclosed : s.caller.pending.closed = true := by
      rw [htidy.closed, hended]
      rfl
    obtain hmem | hhand | hwithdrawn := hattended hm
    · rw [htidy.empty hclosed] at hmem
      cases hmem
    · rw [hended] at hhand
      exact absurd rfl hhand
    · exact hwithdrawn

/-! One call is answered before the far side goes, one is not, and one comes after it. -/

def served : Request := ⟨1, "served", [], []⟩

def stranded : Request := ⟨2, "stranded", [], []⟩

def late : Request := ⟨3, "late", [], []⟩

def parting (answer : Envelope) : List Event :=
  [.issue served, .issue stranded, .record 1, .record 2, .send served, .send stranded,
    .receive answer, .deliver answer, .complete 1 (.ok .null), .close,
    .complete 2 (.error .disconnected), .finish, .issue late, .refuse 3]

def parted : Session where
  caller := ⟨4, ⟨[], true⟩, [(3, .holding (.error .disconnected)),
    (2, .holding (.error .disconnected)), (1, .holding (.ok .null))]⟩
  link := ⟨{ queue := [served.encode, stranded.encode] }, { sending := false, receiving := false }⟩
  calls := [⟨served, .returned⟩, ⟨stranded, .returned⟩, ⟨late, .returned⟩]
  reader := .ended

theorem run_parting {answer : Envelope}
    (hanswer : Message.decode answer = .ok (.response ⟨1, .ok .null⟩)) :
    Run {} (parting answer) parted := by
  have hstart : Run {} [] {} := .start
  have hissued := (hstart.near (.issue served rfl)).near (.issue stranded rfl)
  have hrecorded := (hissued.near (.record (i := 0) (r := served) rfl rfl rfl)).near
    (.record (i := 1) (r := stranded) rfl rfl rfl)
  have hsent := (hrecorded.near (.send (i := 0) (r := served) rfl rfl)).near
    (.send (i := 1) (r := stranded) rfl rfl)
  have hgone := (hsent.far (.post answer rfl)).far .stopSending
  have hresolving := (hgone.near (.receive rfl rfl)).near (.deliver rfl hanswer rfl)
  have hclosing := (hresolving.near (.resolve rfl)).near (.close rfl rfl)
  have hended := (hclosing.near (.orphan rfl (List.mem_singleton_self 2))).near (.finish rfl)
  exact (hended.near (.issue late rfl)).near (.refuse (i := 2) (r := late) rfl (.inr rfl))

theorem finalResult_parting {answer : Envelope}
    (hanswer : Message.decode answer = .ok (.response ⟨1, .ok .null⟩)) :
    finalResult 1 (parting answer) = .ok .null ∧
      finalResult 2 (parting answer) = .error .disconnected ∧
      finalResult 3 (parting answer) = .error .disconnected := by
  simp [finalResult, answer?, sinceRecord, parting, Event.records, Event.withdraws,
    List.findSome?_cons, Event.response?, hanswer, Except.mapError]

theorem disconnection_parting :
    let es := parting (Response.encode ⟨1, .ok .null⟩)
    Run {} es parted ∧ parted.caller.pending.closed = true ∧
    (∀ es' s', parted.Run es' s' → s'.caller.pending.ids = []) ∧
    parted.Holds es 1 (.ok .null) ∧ parted.Holds es 2 (.error .disconnected) ∧
    parted.Holds es 3 (.error .disconnected) := by
  intro es
  have hrun : Run {} es parted := run_parting (decode_null 1)
  obtain ⟨hserved, hstranded, hlate⟩ := finalResult_parting (decode_null 1)
  obtain ⟨hempty, hholds, hended, -⟩ := Run.disconnection hrun
  obtain ⟨hclosed, hhand⟩ := hended rfl
  have hone : ∀ id, parted.Unshared id :=
    List.nodup_iff_count_le_one.mp (show parted.numbers.Nodup by decide)
  refine ⟨hrun, hclosed, fun es' s' h' => ((hempty hclosed).2 es' s' h').2, ?_, ?_, ?_⟩
  · exact hserved ▸ hholds hclosed ⟨served, .returned⟩ (by simp [parted]) rfl (hone _) (hhand 1)
  · exact hstranded ▸
      hholds hclosed ⟨stranded, .returned⟩ (by simp [parted]) rfl (hone _) (hhand 2)
  · exact hlate ▸ hholds hclosed ⟨late, .returned⟩ (by simp [parted]) rfl (hone _) (hhand 3)

end Session

end Typestrip.Rpc
