import Mathlib.Data.List.TakeWhile
import Typestrip.Proofs.Rpc.Life

/-!
# The history of a call

What the events of a run say of one call: when its number went into the table, what decided it since,
which results it got and which have been found in its mailbox. `Life.Told` is what they say of a call
that has got so far, and they do so after every run (`Session.Run.history`).
-/

namespace Typestrip.Rpc

/-! ## What events say of a call -/

namespace Turn

/-- The result that is decided. -/
def decision? : Turn → Option CallResult
  | decide r => some r
  | _ => none

/-- The result that the call gets. -/
def completion? : Turn → Option CallResult
  | refuse => some (.error .disconnected)
  | complete r => some r
  | _ => none

/-- The result that is found. -/
def finding? : Turn → Option CallResult
  | take r => some r
  | _ => none

end Turn

/-- Whether the number of a call goes into the table. -/
def Event.records (id : UInt64) : Event → Bool
  | record id' => id' = id
  | _ => false

/-- Whether the number of a call is taken out of the table for another reason than a response. -/
def Event.withdraws (id : UInt64) : Event → Bool
  | withdraw id' => id' = id
  | close => true
  | _ => false

/-- What has happened since the number of a call went into the table, that included. -/
def sinceRecord (id : UInt64) (es : List Event) : List Event := es.dropWhile (!·.records id)

/-- What decided a call first. -/
def decision? (id : UInt64) (es : List Event) : Option CallResult :=
  (sinceRecord id es).findSome? fun e => (e.turn id).decision?

/-- What the first response to a call says, of those that the reader has looked up since the number of
the call went into the table. -/
def firstResponse? (id : UInt64) (es : List Event) : Option (Except Failure Json) :=
  (sinceRecord id es).findSome? (Event.response? id)

/-- The results that a call got. -/
def completions (id : UInt64) (es : List Event) : List CallResult :=
  es.filterMap fun e => (e.turn id).completion?

/-- The results that were found when somebody looked for the result of a call. -/
def findings (id : UInt64) (es : List Event) : List CallResult :=
  es.filterMap fun e => (e.turn id).finding?

/-- What the events say of the result of a call that has one: what decided it, or that it was
refused. -/
def Fate (id : UInt64) (es : List Event) (r : CallResult) : Prop :=
  (.record id ∈ es ∧ decision? id es = some r) ∨ (.record id ∉ es ∧ r = .error .disconnected)

/-- What the events say of a call that has got so far. -/
def Life.Told (id : UInt64) (es : List Event) : Life → Prop
  | unborn | numbered => .record id ∉ es ∧ completions id es = [] ∧ findings id es = []
  | standing => .record id ∈ es ∧ decision? id es = none ∧ completions id es = [] ∧ findings id es = []
  | decided r =>
    .record id ∈ es ∧ decision? id es = some r ∧ completions id es = [] ∧ findings id es = []
  | settled r => Fate id es r ∧ completions id es = [r] ∧ findings id es = []
  | taken r => Fate id es r ∧ completions id es = [r] ∧
      ∃ n, findings id es = r :: List.replicate n (.error .disconnected)

theorem Event.eq_look_of_finding? {e : Event} {id : UInt64} {r : CallResult}
    (h : (e.turn id).finding? = some r) : e = .look id (some r) := by
  cases e with
  | look id' r' =>
    cases r' with
    | none => cases h
    | some r' =>
      rw [turn] at h
      split at h
      next hid =>
        cases h
        rw [hid]
      next => cases h
  | issue | refuse | record | withdraw | complete =>
    rw [turn] at h
    split at h <;> cases h
  | deliver =>
    rw [turn] at h
    split at h <;> cases h
  | send | fail | overtaken | receive | close | finish | hangUp => cases h

/-! ## One more event -/

section Append

variable {id : UInt64} {es : List Event} {e : Event}

theorem Event.records_iff : e.records id = true ↔ e = .record id := by
  cases e <;> simp [Event.records]

theorem Event.turn_eq_record : e.turn id = .record ↔ e = .record id := by
  unfold turn
  constructor
  · intro h
    split at h
    case h_3 id' =>
      split at h
      next hid => rw [hid]
      next => cases h
    all_goals first | cases h | split at h <;> cases h
  · rintro rfl
    exact if_pos rfl

theorem mem_append_record : .record id ∈ es ++ [e] ↔ .record id ∈ es ∨ e.turn id = .record := by
  rw [List.mem_append, List.mem_singleton, Event.turn_eq_record, @eq_comm _ e]

theorem sinceRecord_append_of_mem (h : .record id ∈ es) :
    sinceRecord id (es ++ [e]) = sinceRecord id es ++ [e] := by
  have hne : (es.dropWhile (!·.records id)).isEmpty = false := by
    rw [Bool.eq_false_iff, ne_eq, List.isEmpty_iff, List.dropWhile_eq_nil_iff]
    intro hall
    simpa [Event.records] using hall _ h
  unfold sinceRecord
  rw [List.dropWhile_append, hne]
  rfl

theorem sinceRecord_of_not_mem (h : .record id ∉ es) : sinceRecord id es = [] := by
  refine List.dropWhile_eq_nil_iff.mpr fun e he => ?_
  have hrecords : e.records id = false :=
    Bool.eq_false_iff.mpr fun hrecords => h (Event.records_iff.mp hrecords ▸ he)
  rw [hrecords]
  rfl

theorem findSome?_sinceRecord_append {β : Type} (f : Event → Option β) (h : .record id ∈ es) :
    (sinceRecord id (es ++ [e])).findSome? f = ((sinceRecord id es).findSome? f).or (f e) := by
  rw [sinceRecord_append_of_mem h, List.findSome?_append]
  congr 1
  cases h : f e <;> simp [h]

/-- Nothing has happened since the number of a call went into the table, before it has. -/
theorem findSome?_sinceRecord_eq_none {β : Type} {f : Event → Option β} (h : .record id ∉ es)
    (hf : f (.record id) = none) : (sinceRecord id (es ++ [e])).findSome? f = none := by
  have hnil : es.dropWhile (!·.records id) = [] := sinceRecord_of_not_mem h
  rw [sinceRecord, List.dropWhile_append, hnil, List.isEmpty_nil, if_pos rfl]
  cases hrecords : e.records id with
  | false => simp [hrecords]
  | true =>
    obtain rfl := Event.records_iff.mp hrecords
    simp [Event.records, hf]

theorem decision?_append_of_mem (h : .record id ∈ es) :
    decision? id (es ++ [e]) = (decision? id es).or (e.turn id).decision? :=
  findSome?_sinceRecord_append _ h

theorem decision?_append_of_not_mem (h : .record id ∉ es) : decision? id (es ++ [e]) = none :=
  findSome?_sinceRecord_eq_none h (by simp [Event.turn, Turn.decision?])

theorem firstResponse?_append_of_mem (h : .record id ∈ es) :
    firstResponse? id (es ++ [e]) = (firstResponse? id es).or (e.response? id) :=
  findSome?_sinceRecord_append _ h

theorem firstResponse?_append_of_not_mem (h : .record id ∉ es) :
    firstResponse? id (es ++ [e]) = none := findSome?_sinceRecord_eq_none h rfl

theorem completions_append :
    completions id (es ++ [e]) = completions id es ++ (e.turn id).completion?.toList := by
  unfold completions
  rw [List.filterMap_append]
  cases h : (e.turn id).completion? <;> simp [h]

theorem findings_append :
    findings id (es ++ [e]) = findings id es ++ (e.turn id).finding?.toList := by
  unfold findings
  rw [List.filterMap_append]
  cases h : (e.turn id).finding? <;> simp [h]

/-! ## One move -/

variable {l l' : Life}

/-- What decided a call goes on to have decided it. -/
theorem Fate.append {r : CallResult} (h : Fate id es r) (hrecord : e.turn id ≠ .record) :
    Fate id (es ++ [e]) r := by
  obtain ⟨hmem, hdecision⟩ | ⟨hmem, hr⟩ := h
  · refine .inl ⟨mem_append_record.mpr (.inl hmem), ?_⟩
    rw [decision?_append_of_mem hmem, hdecision]
    rfl
  · exact .inr ⟨fun h => hmem ((mem_append_record.mp h).resolve_right hrecord), hr⟩

/-- An event that the call itself takes no notice of. -/
theorem Life.Told.append (h : l.Told id es) (hrecord : e.turn id ≠ .record)
    (hcompletion : (e.turn id).completion? = none) (hfinding : (e.turn id).finding? = none)
    (hdecision : l = .standing → (e.turn id).decision? = none) : l.Told id (es ++ [e]) := by
  have hcompletions : completions id (es ++ [e]) = completions id es := by
    rw [completions_append, hcompletion]
    exact List.append_nil _
  have hfindings : findings id (es ++ [e]) = findings id es := by
    rw [findings_append, hfinding]
    exact List.append_nil _
  have hmem : .record id ∈ es ++ [e] ↔ .record id ∈ es := by
    rw [mem_append_record, or_iff_left hrecord]
  cases l with
  | unborn | numbered =>
    unfold Told at h ⊢
    rwa [hmem, hcompletions, hfindings]
  | standing =>
    unfold Told at h ⊢
    rwa [hmem, hcompletions, hfindings, decision?_append_of_mem h.1, hdecision rfl, Option.or_none]
  | decided r =>
    unfold Told at h ⊢
    rw [hmem, hcompletions, hfindings, decision?_append_of_mem h.1, h.2.1]
    exact ⟨h.1, rfl, h.2.2⟩
  | settled r | taken r =>
    unfold Told at h ⊢
    rw [hcompletions, hfindings]
    exact ⟨h.1.append hrecord, h.2⟩

theorem Life.Told.move (h : l.Told id es) (hmove : l.Move (e.turn id) l') :
    l'.Told id (es ++ [e]) := by
  have hmem : .record id ∈ es ++ [e] ↔ .record id ∈ es ∨ e.turn id = .record := mem_append_record
  have hdecision (hrecorded : .record id ∈ es) :
    decision? id (es ++ [e]) = (decision? id es).or (e.turn id).decision? :=
    decision?_append_of_mem hrecorded
  have hcompletions : completions id (es ++ [e]) =
    completions id es ++ (e.turn id).completion?.toList := completions_append
  have hfindings : findings id (es ++ [e]) = findings id es ++ (e.turn id).finding?.toList :=
    findings_append
  generalize ht : e.turn id = t at *
  cases hmove with
  | aside =>
    refine h.append ?_ ?_ ?_ fun _ => ?_ <;> rw [ht]
    · nofun
    all_goals rfl
  | late r hl =>
    refine h.append ?_ ?_ ?_ (absurd · hl) <;> rw [ht]
    · nofun
    all_goals rfl
  | number =>
    obtain ⟨hno, hc, hf⟩ := h
    exact ⟨by simp [hmem, hno], by rw [hcompletions, hc]; rfl, by rw [hfindings, hf]; rfl⟩
  | refuse =>
    obtain ⟨hno, hc, hf⟩ := h
    exact ⟨.inr ⟨by simp [hmem, hno], rfl⟩, by rw [hcompletions, hc]; rfl,
      by rw [hfindings, hf]; rfl⟩
  | record =>
    obtain ⟨hno, hc, hf⟩ := h
    exact ⟨hmem.mpr (.inr rfl), decision?_append_of_not_mem hno, by rw [hcompletions, hc]; rfl,
      by rw [hfindings, hf]; rfl⟩
  | decide r =>
    obtain ⟨hyes, hd, hc, hf⟩ := h
    exact ⟨hmem.mpr (.inl hyes), by rw [hdecision hyes, hd]; rfl, by rw [hcompletions, hc]; rfl,
      by rw [hfindings, hf]; rfl⟩
  | complete r =>
    obtain ⟨hyes, hd, hc, hf⟩ := h
    exact ⟨.inl ⟨hmem.mpr (.inl hyes), by rw [hdecision hyes, hd]; rfl⟩,
      by rw [hcompletions, hc]; rfl, by rw [hfindings, hf]; rfl⟩
  | take r =>
    obtain ⟨hfate, hc, hf⟩ := h
    exact ⟨hfate.append (by rw [ht]; nofun), by rw [hcompletions, hc]; rfl, 0,
      by rw [hfindings, hf]; rfl⟩
  | again r =>
    obtain ⟨hfate, hc, n, hf⟩ := h
    refine ⟨hfate.append (by rw [ht]; nofun), by rw [hcompletions, hc]; rfl, n + 1, ?_⟩
    rw [hfindings, hf, List.replicate_succ', ← List.cons_append]
    rfl

end Append

section Response

variable {id : UInt64} {es : List Event} {e : Event} {outcome : Except Failure Json} {r : CallResult}

theorem Event.decision?_of_response (h : e.response? id = some outcome) :
    (e.turn id).decision? = some (outcome.mapError .remote) := by
  cases e with
  | deliver env =>
    rw [turn, h]
    rfl
  | _ => cases h

theorem Event.turn_of_withdraws (h : e.withdraws id = true) :
    e.turn id = .decide (.error .disconnected) := by
  cases e with
  | close => rfl
  | withdraw id' => exact if_pos (of_decide_eq_true h)
  | _ => cases h

theorem Event.withdraws_of_decision? (h : e.response? id = none)
    (hdecision : (e.turn id).decision? = some r) : e.withdraws id = true := by
  cases e with
  | deliver env =>
    rw [turn, h] at hdecision
    cases hdecision
  | close => rfl
  | withdraw id' =>
    by_cases hid : id' = id
    · exact decide_eq_true hid
    · rw [turn, if_neg hid] at hdecision
      cases hdecision
  | issue | refuse | record | complete =>
    rw [turn] at hdecision
    split at hdecision <;> cases hdecision
  | look id' r =>
    cases r with
    | none => cases hdecision
    | some r =>
      rw [turn] at hdecision
      split at hdecision <;> cases hdecision
  | send | fail | overtaken | receive | finish | hangUp => cases hdecision

/-- Without a disconnection, what decides a call is the first response to it. -/
theorem decision?_eq_map (hkept : ∀ e ∈ es, e.withdraws id = false) :
    decision? id es = (firstResponse? id es).map (·.mapError .remote) := by
  have hkept : ∀ e ∈ sinceRecord id es, e.withdraws id = false :=
    fun e he => hkept e ((List.dropWhile_suffix _).subset he)
  unfold decision? firstResponse?
  generalize sinceRecord id es = es at hkept
  induction es with
  | nil => rfl
  | cons e es ih =>
    rw [List.findSome?_cons, List.findSome?_cons]
    cases hresponse : e.response? id with
    | some outcome =>
      rw [Event.decision?_of_response hresponse]
      rfl
    | none =>
      cases hdecision : (e.turn id).decision? with
      | none => exact ih fun e he => hkept e (List.mem_cons_of_mem _ he)
      | some r =>
        have hwithdraws := Event.withdraws_of_decision? hresponse hdecision
        exact absurd ((hkept e List.mem_cons_self).symm.trans hwithdraws) Bool.false_ne_true

end Response

/-! ## A whole run -/

namespace Session

variable {s s' : Session} {es : List Event} {id : UInt64}

/-- What somebody who looks for a result finds. -/
theorem Step.observed {x : Option CallResult} (hstep : s.Step (.look id x) s') :
    (s.caller.observe id).1 = x := by
  generalize he : Event.look id x = e at hstep
  cases hstep with
  | look =>
    cases he
    rfl
  | _ => cases he

/-- What a run has made of a call whose number nobody else has: the events say it, and the session
shows it. -/
theorem Run.history (h : Run {} es s) (hone : s.Unshared id) :
    ∃ l : Life, l.Told id es ∧ s.Shows id l := by
  induction h with
  | start => exact ⟨.unborn, ⟨List.not_mem_nil, rfl, rfl⟩, .unborn⟩
  | near h hstep ih =>
    obtain ⟨l, htold, hshows⟩ := ih (hstep.unshared hone)
    obtain ⟨l', hmove, hshows'⟩ := hstep.shows (h.tidy .start) hone hshows
    exact ⟨l', htold.move hmove, hshows'⟩
  | far _ _ ih => exact ih hone

end Session

end Typestrip.Rpc
