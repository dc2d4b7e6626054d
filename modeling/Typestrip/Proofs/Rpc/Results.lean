import Typestrip.Proofs.Rpc.Answers
import Typestrip.Proofs.Rpc.Listener

/-!
# Results in order

The listener of a session is a listener like any other: the session is its near side, which sends it
requests and collects its replies (`Served.Tracked`). So whatever happens, hanging up included, the
replies that the reader has looked up are the first of those that the requests have to be replied.

If all messages can be read, every reply that the reader looks up completes the call that it belongs
to. The calls are completed in the order in which their requests were sent, each with what comes of
its own request in the state that the requests before have left (`Served.Run.completed_eq_results`).
-/

namespace Typestrip.Rpc

/-! ## What requests come to -/

/-- The result that an envelope brings, with the number of the call that it belongs to. -/
def Envelope.result? (e : Envelope) : Option (UInt64 × CallResult) :=
  match Message.decode e with
  | .ok (.response p) => some (p.id, p.outcome.mapError .remote)
  | _ => none

theorem Envelope.result?_of_response {e : Envelope} {p : Response}
    (h : Message.decode e = .ok (.response p)) :
    e.result? = some (p.id, p.outcome.mapError .remote) := by
  rw [result?, h]

theorem Envelope.exists_of_result? {e : Envelope} {x : UInt64 × CallResult}
    (h : e.result? = some x) :
    ∃ p, Message.decode e = .ok (.response p) ∧ x = (p.id, p.outcome.mapError .remote) := by
  unfold result? at h
  split at h
  next p hdecode => exact ⟨p, hdecode, (Option.some.inj h).symm⟩
  next => cases h

namespace Service

variable {σ : Type} {s : Service σ} {rs rs' : List Request}

/-- What becomes of requests that a service gets one after the other: the number of each with the
outcome of its handler, in the state that the requests before have left. -/
def results (s : Service σ) : List Request → List (UInt64 × CallResult)
  | [] => []
  | r :: rs =>
    (r.id, (s.outcome r).mapError .remote) ::
      results (s.invoke r.command ⟨r.args, r.transfer⟩).2 rs

theorem results_ids (s : Service σ) (rs : List Request) :
    (s.results rs).map Prod.fst = rs.map (·.id) := by
  induction rs generalizing s with
  | nil => rfl
  | cons r rs ih => rw [results, List.map_cons, List.map_cons, ih]

/-- Neither the requests nor the responses to them nest too deeply for their readers, and what they
hold is such as the reader gives. -/
inductive Readable : Service σ → List Request → Prop
  | nil (s : Service σ) : s.Readable []
  | cons {s : Service σ} {r : Request} {rs : List Request} (hrequest : r.Faithful)
      (hdepth : r.depth ≤ Json.maxDepth) (hresponse : (Response.mk r.id (s.outcome r)).Faithful)
      (hdepth' : (Response.mk r.id (s.outcome r)).depth ≤ Json.maxDepth)
      (hrest : (s.invoke r.command ⟨r.args, r.transfer⟩).2.Readable rs) : s.Readable (r :: rs)

theorem Readable.of_append (h : s.Readable (rs ++ rs')) : s.Readable rs := by
  induction rs generalizing s with
  | nil => exact .nil s
  | cons r rs ih =>
    cases h with
    | cons hrequest hdepth hresponse hdepth' hrest =>
      exact .cons hrequest hdepth hresponse hdepth' (ih hrest)

/-- Each reply to readable requests brings the result of its request. -/
theorem Readable.serve (h : s.Readable rs) :
    (s.serve (rs.map Request.encode)).1.filterMap Envelope.result? = s.results rs ∧
      ∀ e ∈ (s.serve (rs.map Request.encode)).1, e.result? ≠ none := by
  induction h with
  | nil => exact ⟨rfl, nofun⟩
  | @cons s r rs hrequest hdepth hresponse hdepth' _ ih =>
    have hdecode := decode_response hresponse
    rw [if_pos hdepth'] at hdecode
    have hresult := Envelope.result?_of_response hdecode
    rw [List.map_cons, serve_cons, react_request hrequest hdepth, Option.toList_some,
      List.singleton_append]
    constructor
    · rw [List.filterMap_cons_some hresult, ih.1, results]
    · intro e he
      rcases List.mem_cons.mp he with rfl | he
      · rw [hresult]
        nofun
      · exact ih.2 e he

end Service

/-! ## What calls get -/

/-- The result that a call gets from the reader or from its thread. -/
def Event.completed? : Event → Option (UInt64 × CallResult)
  | complete id r => some (id, r)
  | _ => none

/-- The results that have been put into mailboxes, in order. -/
def completed (es : List Event) : List (UInt64 × CallResult) := es.filterMap Event.completed?

/-- The result that a reader is about to put into the mailbox of a call. -/
def Reader.inHand : Reader → List (UInt64 × CallResult)
  | resolving id r => [(id, r)]
  | _ => []

theorem completed_append_complete (es : List Event) (id : UInt64) (r : CallResult) :
    completed (es ++ [.complete id r]) = completed es ++ [(id, r)] := List.filterMap_append

theorem completed_append_of_none {es : List Event} {e : Event} (he : e.completed? = none) :
    completed (es ++ [e]) = completed es := by
  rw [completed, List.filterMap_append, List.filterMap_cons_none he, List.filterMap_nil,
    List.append_nil]
  rfl

theorem mem_completions_of_completed {es : List Event} {id : UInt64} {r : CallResult}
    (h : (id, r) ∈ completed es) : r ∈ completions id es := by
  obtain ⟨e, he, hcompleted⟩ := List.mem_filterMap.mp h
  refine List.mem_filterMap.mpr ⟨e, he, ?_⟩
  cases e with
  | complete id' r' =>
    cases hcompleted
    rw [Event.turn, if_pos rfl]
    rfl
  | _ => cases hcompleted

theorem mem_completions_of_refuse {es : List Event} {id : UInt64} (h : .refuse id ∈ es) :
    .error .disconnected ∈ completions id es := by
  refine List.mem_filterMap.mpr ⟨_, h, ?_⟩
  rw [Event.turn, if_pos rfl]
  rfl

namespace Session

variable {s s' : Session} {es : List Event} {e : Event} {id : UInt64}

/-- A call that got a result holds it. -/
theorem Run.holds_of_completion {r : CallResult} (h : Run {} es s) (hone : s.Unshared id)
    (hr : r ∈ completions id es) : s.Holds es id r := by
  obtain ⟨l, htold, hshows⟩ := h.history hone
  unfold Shows at hshows
  generalize hv : s.view id = v at hshows
  cases hshows with
  | unborn | numbered =>
    rw [htold.2.1] at hr
    cases hr
  | standing | inHand | withdrawn =>
    rw [htold.2.2.1] at hr
    cases hr
  | settled _ r' =>
    rw [htold.2.1, List.mem_singleton] at hr
    obtain ⟨-, hbox, -⟩ := view_eq.mp hv
    exact hr ▸ .inl hbox
  | taken _ r' =>
    obtain ⟨-, hcompletions, n, hfindings⟩ := htold
    rw [hcompletions, List.mem_singleton] at hr
    obtain ⟨-, hbox, -⟩ := view_eq.mp hv
    exact hr ▸ .inr ⟨hbox, by rw [hfindings]; rfl⟩

/-- A call that has been recorded stands in the table as long as the reader has looked up nothing for
it and nobody has taken it out for another reason. -/
theorem Run.mem_table (h : Run {} es s) (hone : s.Unshared id) (hrecord : .record id ∈ es)
    (hkept : ∀ e ∈ es, e.withdraws id = false)
    (hnone : ∀ e ∈ delivered es, ∀ r, e.result? ≠ some (id, r)) :
    id ∈ s.caller.pending.ids := by
  have hresponse : firstResponse? id es = none := by
    refine List.findSome?_eq_none_iff.mpr ?_
    intro e he
    have hmem : e ∈ es := (List.dropWhile_suffix _).subset he
    cases e with
    | deliver env =>
      by_contra hsome
      obtain ⟨outcome, hresponse⟩ := Option.ne_none_iff_exists'.mp hsome
      have hdecode := Event.response?_deliver_eq_some.mp hresponse
      exact hnone env (List.mem_filterMap.mpr ⟨_, hmem, rfl⟩) _
        (Envelope.result?_of_response hdecode)
    | _ => rfl
  have hdecision : decision? id es = none := by
    rw [decision?_eq_map hkept, hresponse]
    rfl
  exact (h.waits hone hrecord hdecision).1

/-- A call whose number stands in the table has not got its result, and its thread has begun. -/
theorem Run.of_mem_table (h : Run {} es s) (hone : s.Unshared id)
    (hmem : id ∈ s.caller.pending.ids) :
    completions id es = [] ∧ ∃ c ∈ s.calls, c.request.id = id ∧ c.stage.Begun := by
  obtain ⟨l, htold, hshows⟩ := h.history hone
  obtain ⟨rfl, st, hbegun, hview⟩ := hshows.of_standing (List.contains_iff_mem.mpr hmem)
  refine ⟨htold.2.2.1, ?_⟩
  have hstage : stage? id s.calls = some st := congrArg View.stage hview
  obtain ⟨c, hfind, rfl⟩ := Option.map_eq_some_iff.mp hstage
  have hid : c.request.id = id := by simpa using List.find?_some hfind
  exact ⟨c, List.mem_of_find?_eq_some hfind, hid, hbegun⟩

/-! ## The calls of a session with a listener -/

/-- What the events say of the calls of a session whose requests all get through: those that have begun
have been recorded, and those that have returned have been sent or refused. -/
structure Registered (s : Session) (es : List Event) : Prop where
  sound : ∀ c ∈ s.calls, ¬ c.stage.Failed
  recorded : ∀ c ∈ s.calls, c.stage = .recorded →
    s.link.forth.sending = true ∧ .record c.request.id ∈ es
  sent : ∀ r ∈ sent es, ⟨r, .returned⟩ ∈ s.calls ∧ .record r.id ∈ es
  returned : ∀ r, ⟨r, .returned⟩ ∈ s.calls → r ∈ Rpc.sent es ∨ .refuse r.id ∈ es
  distinct : ((Rpc.sent es).map (·.id)).Nodup
  kept : s.reader.hasClosed = false → ∀ e ∈ es, ∀ id, e.withdraws id = false

theorem Registered.start : Registered {} [] where
  sound := nofun
  recorded := nofun
  sent := nofun
  returned := nofun
  distinct := List.nodup_nil
  kept := nofun

/-- A step that sends nothing. -/
theorem Registered.unsent (h : s.Registered es) (he : e.request? = none)
    (hsound : ∀ c ∈ s'.calls, ¬ c.stage.Failed)
    (hrecorded : ∀ c ∈ s'.calls, c.stage = .recorded →
      s'.link.forth.sending = true ∧ .record c.request.id ∈ es ++ [e])
    (hsent : ∀ r, ⟨r, .returned⟩ ∈ s.calls → ⟨r, .returned⟩ ∈ s'.calls)
    (hreturned : ∀ r, ⟨r, .returned⟩ ∈ s'.calls → ⟨r, .returned⟩ ∈ s.calls ∨ e = .refuse r.id)
    (hkept : s'.reader.hasClosed = false →
      s.reader.hasClosed = false ∧ ∀ id, e.withdraws id = false) :
    s'.Registered (es ++ [e]) := by
  have hsame : Rpc.sent (es ++ [e]) = Rpc.sent es := sent_append_of_none he
  refine ⟨hsound, hrecorded, ?_, ?_, ?_, ?_⟩
  · intro r hr
    rw [hsame] at hr
    exact ⟨hsent r (h.sent r hr).1, List.mem_append_left _ (h.sent r hr).2⟩
  · intro r hr
    rw [hsame]
    rcases hreturned r hr with hr | rfl
    · exact (h.returned r hr).imp_right (List.mem_append_left _)
    · exact .inr (List.mem_append_right _ (List.mem_singleton_self _))
  · rw [hsame]
    exact h.distinct
  · intro hopen d hd
    rcases List.mem_append.mp hd with hd | hd
    · exact h.kept (hkept hopen).1 d hd
    · exact List.mem_singleton.mp hd ▸ (hkept hopen).2

/-- A step that leaves the calls and the sending end alone. -/
theorem Registered.same (h : s.Registered es) (he : e.request? = none) (hcalls : s'.calls = s.calls)
    (hforth : s'.link.forth.sending = s.link.forth.sending)
    (hkept : s'.reader.hasClosed = false →
      s.reader.hasClosed = false ∧ ∀ id, e.withdraws id = false) :
    s'.Registered (es ++ [e]) := by
  refine h.unsent he (hcalls ▸ h.sound) ?_ (fun r hr => hcalls ▸ hr) (fun r hr => .inl (hcalls ▸ hr))
    hkept
  intro c hc hst
  rw [hcalls] at hc
  rw [hforth]
  exact ⟨(h.recorded c hc hst).1, List.mem_append_left _ (h.recorded c hc hst).2⟩

theorem Step.registered (hstep : s.Step e s') (h : s.Registered es) (hone : ∀ id, s.Unshared id)
    (hopen : s.link.forth.sending = true → s.link.forth.receiving = true) :
    s'.Registered (es ++ [e]) := by
  have hset {i : Nat} {c : Ongoing} (hc : ¬ c.stage.Failed) :
      ∀ d ∈ s.calls.set i c, ¬ d.stage.Failed := by
    intro d hd
    rcases List.mem_or_eq_of_mem_set hd with hd | rfl
    · exact h.sound d hd
    · exact hc
  have hbefore : ∀ c ∈ s.calls, c.stage = .recorded →
      s.link.forth.sending = true ∧ .record c.request.id ∈ es ++ [e] := by
    intro c hc hst
    exact ⟨(h.recorded c hc hst).1, List.mem_append_left _ (h.recorded c hc hst).2⟩
  cases hstep with
  | issue r =>
    refine h.unsent rfl ?_ ?_ ?_ ?_ (fun hopen => ⟨hopen, fun _ => rfl⟩)
    · intro c hc
      rcases List.mem_append.mp hc with hc | hc
      · exact h.sound c hc
      · cases List.mem_singleton.mp hc
        nofun
    · intro c hc hst
      rcases List.mem_append.mp hc with hc | hc
      · exact hbefore c hc hst
      · cases List.mem_singleton.mp hc
        cases hst
    · exact fun r' hr' => List.mem_append_left _ hr'
    · intro r' hr'
      rcases List.mem_append.mp hr' with hr' | hr'
      · exact .inl hr'
      · cases List.mem_singleton.mp hr'
  | @refuse i r hcall _ =>
    refine h.unsent rfl (hset nofun) ?_ ?_ ?_ (fun hopen => ⟨hopen, fun _ => rfl⟩)
    · intro c hc hst
      rcases List.mem_or_eq_of_mem_set hc with hc | rfl
      · exact hbefore c hc hst
      · cases hst
    · exact fun r' hr' => (returned_mem_set hcall nofun).mpr (.inr hr')
    · intro r' hr'
      rcases (returned_mem_set hcall nofun).mp hr' with ⟨rfl, -⟩ | hr'
      · exact .inr rfl
      · exact .inl hr'
  | @record i r caller hcall hsending _ =>
    refine h.unsent rfl (hset nofun) ?_ ?_ ?_ (fun hopen => ⟨hopen, fun _ => rfl⟩)
    · intro c hc hst
      rcases List.mem_or_eq_of_mem_set hc with hc | rfl
      · exact hbefore c hc hst
      · exact ⟨hsending, List.mem_append_right _ (List.mem_singleton_self _)⟩
    · exact fun r' hr' => (returned_mem_set hcall nofun).mpr (.inr hr')
    · intro r' hr'
      rcases (returned_mem_set hcall nofun).mp hr' with ⟨-, hst⟩ | hr'
      · cases hst
      · exact .inl hr'
  | @send i r _ hcall hsend =>
    obtain ⟨-, rfl⟩ := Channel.send?_eq_some.mp hsend
    have hrecorded : ⟨r, .recorded⟩ ∈ s.calls := List.mem_of_getElem? hcall
    have hsent : Rpc.sent (es ++ [.send r]) = Rpc.sent es ++ [r] := sent_append_send es r
    refine ⟨hset nofun, ?_, ?_, ?_, ?_, ?_⟩
    · intro c hc hst
      rcases List.mem_or_eq_of_mem_set hc with hc | rfl
      · exact hbefore c hc hst
      · cases hst
    · intro r' hr'
      rw [hsent, List.mem_append, List.mem_singleton] at hr'
      rcases hr' with hr' | rfl
      · exact ⟨(returned_mem_set hcall nofun).mpr (.inr (h.sent r' hr').1),
          List.mem_append_left _ (h.sent r' hr').2⟩
      · exact ⟨(returned_mem_set hcall nofun).mpr (.inl ⟨rfl, rfl⟩), (hbefore _ hrecorded rfl).2⟩
    · intro r' hr'
      rw [hsent, List.mem_append, List.mem_singleton]
      rcases (returned_mem_set hcall nofun).mp hr' with ⟨rfl, -⟩ | hr'
      · exact .inl (.inr rfl)
      · exact (h.returned r' hr').imp .inl (List.mem_append_left _)
    · -- no request with this number has been sent, for the call is only recorded
      rw [hsent, List.map_append, List.nodup_append]
      refine ⟨h.distinct, List.nodup_singleton _, ?_⟩
      intro id hid id' hid' heq
      obtain rfl := List.mem_singleton.mp hid'
      subst heq
      obtain ⟨r', hr', hid⟩ := List.mem_map.mp hid
      have hreturned := stage?_of_mem (hone r.id) (h.sent r' hr').1 hid
      have hrecorded' := stage?_of_mem (hone r.id) hrecorded rfl
      cases hreturned.symm.trans hrecorded'
    · intro hopen d hd
      rcases List.mem_append.mp hd with hd | hd
      · exact h.kept hopen d hd
      · exact List.mem_singleton.mp hd ▸ fun _ => rfl
  | fail hcall hsend =>
    -- a request that is about to be sent can be sent
    have hsending := (h.recorded _ (List.mem_of_getElem? hcall) rfl).1
    rw [Channel.send?_eq_none, hopen hsending] at hsend
    cases hsend
  | withdraw hcall _ | overtaken hcall _ => exact absurd .unsent (h.sound _ (List.mem_of_getElem? hcall))
  | restore hcall => exact absurd .withdrawn (h.sound _ (List.mem_of_getElem? hcall))
  | receive hreader | pass hreader | deliver hreader | resolve hreader =>
    exact h.same rfl rfl rfl fun _ => ⟨by rw [hreader]; rfl, fun _ => rfl⟩
  | close | finish | orphan => exact h.same rfl rfl rfl nofun
  | look => exact h.same rfl rfl rfl fun hopen => ⟨hopen, fun _ => rfl⟩
  | hangUp hidle =>
    refine h.unsent rfl h.sound ?_ (fun _ h => h) (fun _ h => .inl h) (fun hopen => ⟨hopen, fun _ => rfl⟩)
    intro c hc hst
    cases (hidle c hc).symm.trans hst

end Session

/-! ## The session as the near side of its listener -/

namespace Served

open Listener (Point Happening past)

variable {σ : Type} {w w' : Served σ} {service : Service σ} {es : List Event} {log : List Happening}

/-- The listener of a session, with the link between them. -/
def listener (w : Served σ) : Listener σ := ⟨w.session.link, w.service, w.reply⟩

/-- What happens to the listener of a session agrees with what happens in the session: what the session
has sent has come to the listener, and what the reader has taken has been collected. When the reader
has closed the table, the session had hung up, and nothing has got lost. -/
structure Tracked (service : Service σ) (log : List Happening) (es : List Event) (w : Served σ) :
    Prop where
  run : Listener.Run { service } log w.listener
  sent : past .sent log = (Rpc.sent es).map Request.encode
  collected : past .collected log = delivered es ++ w.session.reader.held
  taking : w.session.reader.hasClosed = false → w.session.link.back.receiving = true
  closed : w.session.reader.hasClosed = true →
    w.session.link.forth.receiving = false ∧ w.session.link.forth.sending = false ∧
      past .heard log = past .sent log ∧ past .posted log = past .collected log ∧
      past .lost log = []

theorem Tracked.start (service : Service σ) : Tracked service [] [] { service } where
  run := .start
  sent := rfl
  collected := rfl
  taking := fun _ => rfl
  closed := nofun

/-- As long as the listener holds its ends, the reader has not closed the table. -/
theorem Tracked.reading (h : w.Tracked service log es)
    (hlistening : w.session.link.forth.receiving = true) : w.session.reader.hasClosed = false := by
  by_contra hclosed
  rw [Bool.not_eq_false] at hclosed
  cases hlistening.symm.trans (h.closed hclosed).1

/-- A listener that has a reply to send holds its ends. -/
theorem Tracked.answering (h : w.Tracked service log es) {e : Envelope} (hreply : w.reply = some e) :
    w.session.link.forth.receiving = true := by
  by_contra hgone
  rw [Bool.not_eq_true] at hgone
  cases hreply.symm.trans (h.run.accounts.ended hgone).1

/-- A session that can still send has a listener. -/
theorem Tracked.listening (h : w.Tracked service log es)
    (hsending : w.session.link.forth.sending = true) :
    w.session.link.forth.receiving = true := by
  by_contra hgone
  rw [Bool.not_eq_true] at hgone
  have hopen : w.session.reader.hasClosed = false := by
    by_contra hclosed
    rw [Bool.not_eq_false] at hclosed
    cases hsending.symm.trans (h.closed hclosed).2.1
  rcases (h.run.accounts.ended hgone).2 with ⟨hhung, -⟩ | ⟨hdeaf, -⟩
  · cases hsending.symm.trans hhung
  · cases (h.taking hopen).symm.trans hdeaf

/-- An event that does not touch the link. -/
theorem Tracked.still {e : Event} {s : Session} (h : w.Tracked service log es)
    (hlink : s.link = w.session.link) (hsent : Rpc.sent (es ++ [e]) = Rpc.sent es)
    (hcollected : delivered (es ++ [e]) ++ s.reader.held =
      delivered es ++ w.session.reader.held)
    (hclosed : s.reader.hasClosed = w.session.reader.hasClosed) :
    Tracked service log (es ++ [e]) { w with session := s } := by
  obtain ⟨hrun, hsent', hcollected', htaking, hover⟩ := h
  refine ⟨?_, hsent' ▸ hsent ▸ rfl, hcollected' ▸ hcollected.symm, ?_, ?_⟩
  · rw [listener] at hrun ⊢
    rwa [hlink]
  · rw [hclosed, hlink]
    exact htaking
  · rw [hclosed, hlink]
    exact hover

theorem Tracked.near {e : Event} {s : Session} (h : w.Tracked service log es)
    (hstep : w.session.Step e s) :
    ∃ log', Tracked service log' (es ++ [e]) { w with session := s } := by
  cases hstep with
  | issue | refuse | record | fail | withdraw | overtaken | restore | look =>
    exact ⟨log, h.still rfl (sent_append_of_none rfl)
      (by rw [delivered_append_of_none rfl]) rfl⟩
  | resolve hreader =>
    exact ⟨log, h.still rfl (sent_append_of_none rfl)
      (by rw [delivered_append_of_none rfl, hreader]; rfl) (by rw [hreader]; rfl)⟩
  | orphan hreader =>
    exact ⟨log, h.still rfl (sent_append_of_none rfl)
      (by rw [delivered_append_of_none rfl, hreader]; rfl) (by rw [hreader]; rfl)⟩
  | deliver hreader | pass hreader =>
    exact ⟨log, h.still rfl (sent_append_of_none rfl)
      (by rw [delivered_append_deliver, hreader]; exact List.append_nil _) (by rw [hreader]; rfl)⟩
  | @send i r forth hcall hsend =>
    have hlistening := (Channel.send?_eq_some.mp hsend).1
    refine ⟨_, h.run.step (.arrive hsend), ?_, ?_, h.taking, ?_⟩
    · rw [sent_append_send, List.map_append, ← h.sent]
      simp
    · rw [delivered_append_of_none rfl, ← h.collected]
      simp
    · intro hclosed
      cases (h.reading hlistening).symm.trans hclosed
  | @receive e back hreader hreceive =>
    have hopen : w.session.reader.hasClosed = false := by rw [hreader]; rfl
    have htaking := h.taking hopen
    refine ⟨_, h.run.step (.collect hreceive), ?_, ?_, fun _ => ?_, nofun⟩
    · rw [sent_append_of_none rfl, ← h.sent]
      simp
    · rw [delivered_append_of_none rfl]
      simp [h.collected, hreader, Reader.held]
    · obtain ⟨rest, -, rfl⟩ := Channel.receive_eq_item.mp hreceive
      exact htaking
  | close hreader hreceive =>
    have hopen : w.session.reader.hasClosed = false := by rw [hreader]; rfl
    obtain ⟨hqueue, hgone, rfl⟩ := Channel.receive_eq_closed.mp hreceive
    have haccounts := h.run.accounts
    have htaking := h.taking hopen
    -- the listener has left, and not for want of a reader
    have hended : w.session.link.forth.receiving = false := haccounts.ends.trans hgone
    have hposted := haccounts.back htaking
    rcases (haccounts.ended hended).2 with ⟨hhung, hheard, hlost⟩ | ⟨hdeaf, -⟩
    · refine ⟨log, h.run, ?_, ?_, nofun, fun _ => ⟨hended, hhung, hheard, ?_, hlost⟩⟩
      · rw [sent_append_of_none rfl, h.sent]
      · rw [delivered_append_of_none rfl, h.collected, hreader]
        rfl
      · show _ = _
        rw [hposted, show w.listener.link.back.queue = [] from hqueue, List.append_nil]
    · cases htaking.symm.trans hdeaf
  | finish hreader =>
    have hclosed : w.session.reader.hasClosed = true := by rw [hreader]; rfl
    refine ⟨_, h.run.step .turnAway, ?_, ?_, nofun, fun _ => ?_⟩
    · rw [sent_append_of_none rfl, ← h.sent]
      simp
    · rw [delivered_append_of_none rfl]
      simp [h.collected, hreader, Reader.held]
    · simpa using h.closed hclosed
  | hangUp _ =>
    refine ⟨_, h.run.step .hangUp, ?_, ?_, h.taking, fun hclosed => ?_⟩
    · rw [sent_append_of_none rfl, ← h.sent]
      simp
    · rw [delivered_append_of_none rfl, ← h.collected]
      simp
    · obtain ⟨hended, -, hrest⟩ := h.closed hclosed
      exact ⟨hended, rfl, by simpa using hrest⟩

/-- Something that the listener does. It does nothing any more when the reader has closed the table. -/
theorem Tracked.far {a : Happening} (h : w.Tracked service log es)
    (hstep : w.listener.Step a w'.listener) (hsession : w'.session.reader = w.session.reader)
    (hback : w'.session.link.back.receiving = w.session.link.back.receiving)
    (hlistening : w.session.link.forth.receiving = true)
    (hsent : past .sent [a] = []) (hcollected : past .collected [a] = []) :
    Tracked service (log ++ [a]) es w' := by
  have hopen := h.reading hlistening
  refine ⟨h.run.step hstep, ?_, ?_, ?_, ?_⟩
  · rw [Listener.past_append, hsent, List.append_nil, h.sent]
  · rw [Listener.past_append, hcollected, List.append_nil, h.collected, hsession]
  · rw [hsession, hback]
    exact h.taking
  · rw [hsession, hopen]
    nofun

theorem Run.tracked (h : Run { service } es w) : ∃ log, w.Tracked service log es := by
  induction h with
  | start => exact ⟨[], .start service⟩
  | @step es es' w w' _ hstep ih =>
    obtain ⟨log, htracked⟩ := ih
    cases hstep with
    | near hstep => exact htracked.near hstep
    | hear hidle hlistening hreceive =>
      rw [List.append_nil]
      exact ⟨_, htracked.far (.hear hidle hlistening hreceive) rfl rfl hlistening rfl rfl⟩
    | answer hreply hsend =>
      rw [List.append_nil]
      have hback := (Channel.send?_eq_some.mp hsend).2
      exact ⟨_, htracked.far (.answer hreply hsend) rfl (by rw [hback]) (htracked.answering hreply)
        rfl rfl⟩
    | lose hreply hsend =>
      rw [List.append_nil]
      exact ⟨_, htracked.far (.lose hreply hsend) rfl rfl (htracked.answering hreply) rfl rfl⟩
    | leave hidle hlistening hreceive =>
      rw [List.append_nil]
      exact ⟨_, htracked.far (.leave hidle hlistening hreceive) rfl rfl hlistening rfl rfl⟩

/-- The replies that the reader has taken are the first of those that the requests have to be replied.
There are no others when the reader has closed the table, or when nothing is under way. -/
theorem Tracked.replies (h : w.Tracked service log es) :
    ∃ more, (service.serve ((Rpc.sent es).map Request.encode)).1 =
      delivered es ++ w.session.reader.held ++ more ∧
      (w.session.reader.hasClosed = true ∨ w.Quiet → more = []) := by
  have haccounts := h.run.accounts
  have hserve := haccounts.answered.serve
  rw [← h.sent, ← h.collected]
  by_cases hclosed : w.session.reader.hasClosed = true
  case pos =>
    obtain ⟨hended, -, hheard, hposted, hlost⟩ := h.closed hclosed
    rw [hheard, hposted, hlost, (haccounts.ended hended).1] at hserve
    refine ⟨[], ?_, fun _ => rfl⟩
    rw [hserve]
    simp
  case neg =>
    rw [Bool.not_eq_true] at hclosed
    have hback := haccounts.back (h.taking hclosed)
    obtain ⟨waiting, hwaiting, hlost, hnone⟩ : ∃ waiting,
        past .sent log = past .heard log ++ waiting ∧ past .lost log = [] ∧
          (w.session.link.forth.queue = [] → waiting = []) := by
      cases hlistening : w.session.link.forth.receiving with
      | true =>
        exact ⟨_, haccounts.forth hlistening, haccounts.listening hlistening, fun h => h⟩
      | false =>
        rcases (haccounts.ended hlistening).2 with ⟨-, hheard, hlost⟩ | ⟨hdeaf, -⟩
        · exact ⟨[], by rw [hheard, List.append_nil], hlost, fun _ => rfl⟩
        · cases (h.taking hclosed).symm.trans hdeaf
    rw [hback, hlost, List.append_nil] at hserve
    refine ⟨w.session.link.back.queue ++ w.reply.toList ++ (w.service.serve waiting).1, ?_, ?_⟩
    · rw [hwaiting, Service.serve_append, hserve]
      simp [listener]
    · rintro (hover | hquiet)
      · cases hclosed.symm.trans hover
      · rw [hquiet.back, hquiet.reply, hnone hquiet.forth]
        rfl

theorem Run.registered (h : Run { service } es w) (hone : ∀ id, w.session.Unshared id) :
    w.session.Registered es := by
  induction h with
  | start => exact .start
  | @step es es' w w' h hstep ih =>
    cases hstep with
    | near hstep =>
      obtain ⟨log, htracked⟩ := h.tracked
      have hone' : ∀ id, w.session.Unshared id := fun id => hstep.unshared (hone id)
      exact hstep.registered (ih hone') hone' htracked.listening
    | hear _ _ hreceive =>
      obtain ⟨rest, -, rfl⟩ := Channel.receive_eq_item.mp hreceive
      rw [List.append_nil]
      exact ⟨(ih hone).sound, (ih hone).recorded, (ih hone).sent, (ih hone).returned,
        (ih hone).distinct, (ih hone).kept⟩
    | answer | lose | leave =>
      rw [List.append_nil]
      exact ⟨(ih hone).sound, (ih hone).recorded, (ih hone).sent, (ih hone).returned,
        (ih hone).distinct, (ih hone).kept⟩

/-! ## In order -/

/-- The results of readable requests are those that the reader has looked up, the one that it has just
taken, and those that are still to come. -/
theorem Tracked.results (h : w.Tracked service log es) (hreadable : service.Readable (Rpc.sent es)) :
    ∃ more, service.results (Rpc.sent es) =
      (delivered es).filterMap Envelope.result? ++
        w.session.reader.held.filterMap Envelope.result? ++ more ∧
      (∀ e ∈ w.session.reader.held, e.result? ≠ none) ∧
      (w.session.reader.hasClosed = true ∨ w.Quiet → more = []) := by
  obtain ⟨more, hreplies, hnone⟩ := h.replies
  obtain ⟨hresults, hsome⟩ := hreadable.serve
  rw [hreplies] at hresults hsome
  refine ⟨more.filterMap Envelope.result?, ?_, ?_, ?_⟩
  · rw [← hresults, List.filterMap_append, List.filterMap_append]
  · intro e he
    exact hsome e (List.mem_append_left _ (List.mem_append_right _ he))
  · intro hover
    rw [hnone hover, List.filterMap_nil]

/-- What the reader has taken is the response to a call that stands in the table. -/
theorem Run.mem_table_of_holding {e : Envelope} (h : Run { service } es w)
    (hone : ∀ id, w.session.Unshared id) (hreadable : service.Readable (Rpc.sent es))
    (hreader : w.session.reader = .holding e) :
    ∃ p, Message.decode e = .ok (.response p) ∧ p.id ∈ w.session.caller.pending.ids := by
  obtain ⟨log, htracked⟩ := h.tracked
  have hregistered := h.registered hone
  obtain ⟨-, hrun⟩ := h.session (.start service)
  obtain ⟨more, hresults, hsome, -⟩ := htracked.results hreadable
  rw [hreader] at hresults hsome
  obtain ⟨x, hx⟩ := Option.ne_none_iff_exists'.mp (hsome e (List.mem_singleton_self e))
  obtain ⟨p, hdecode, rfl⟩ := Envelope.exists_of_result? hx
  rw [Reader.held, List.filterMap_cons_some hx, List.filterMap_nil, List.append_assoc] at hresults
  have hids := Service.results_ids service (Rpc.sent es)
  have hdistinct := hregistered.distinct
  rw [← hids, hresults, List.map_append, List.singleton_append, List.map_cons, List.nodup_middle,
    List.nodup_cons, List.mem_append, not_or] at hdistinct
  have hmem : p.id ∈ (Rpc.sent es).map (·.id) := by
    rw [← hids, hresults]
    simp
  obtain ⟨r, hr, hid⟩ := List.mem_map.mp hmem
  have hopen : w.session.reader.hasClosed = false := by rw [hreader]; rfl
  refine ⟨p, hdecode, hrun.mem_table (hone _) (hid ▸ (hregistered.sent r hr).2)
    (fun d hd => hregistered.kept hopen d hd _) ?_⟩
  intro d hd r' hr'
  exact hdistinct.1.1 (List.mem_map.mpr ⟨(p.id, r'), List.mem_filterMap.mpr ⟨d, hd, hr'⟩, rfl⟩)

/-- When nothing will come any more, no call waits, provided that everything that has been looked up
has completed its call. -/
theorem Run.table_empty {s : Session} (h : Run { service } es w)
    (hone : ∀ id, w.session.Unshared id) (hreadable : service.Readable (Rpc.sent es))
    (hcompleted : completed es = (delivered es).filterMap Envelope.result?)
    (hstep : w.session.Step .close s) : w.session.caller.pending.ids = [] := by
  obtain ⟨log, htracked⟩ := h.tracked
  obtain ⟨log', hclosed⟩ := htracked.near hstep
  have hregistered := h.registered hone
  obtain ⟨-, hrun⟩ := h.session (.start service)
  have hsent : Rpc.sent (es ++ [.close]) = Rpc.sent es := sent_append_of_none rfl
  rw [← hsent] at hreadable
  obtain ⟨more, hresults, -, hnone⟩ := hclosed.results hreadable
  have hhung : w.session.link.forth.sending = false := by
    cases hstep with
    | close => exact (hclosed.closed rfl).2.1
  have hheld : s.reader.held = [] ∧ s.reader.hasClosed = true := by
    cases hstep with
    | close => exact ⟨rfl, rfl⟩
  rw [hnone (.inl hheld.2), hheld.1, hsent, delivered_append_of_none rfl,
    ← hcompleted, List.filterMap_nil, List.append_nil, List.append_nil] at hresults
  refine List.eq_nil_iff_forall_not_mem.mpr ?_
  intro id hid
  obtain ⟨hwaiting, ⟨r, st⟩, hc, rfl, hbegun⟩ := hrun.of_mem_table (hone id) hid
  cases st with
  | recorded => cases hhung.symm.trans (hregistered.recorded _ hc rfl).1
  | unsent => exact hregistered.sound _ hc .unsent
  | numbered | withdrawn => cases hbegun
  | returned =>
    rcases hregistered.returned r hc with hr | hr
    · have hmem : r.id ∈ (service.results (Rpc.sent es)).map Prod.fst := by
        rw [Service.results_ids]
        exact List.mem_map.mpr ⟨r, hr, rfl⟩
      rw [hresults] at hmem
      obtain ⟨⟨id, result⟩, hx, rfl⟩ := List.mem_map.mp hmem
      exact List.not_mem_nil (hwaiting ▸ mem_completions_of_completed hx)
    · exact List.not_mem_nil (hwaiting ▸ mem_completions_of_refuse hr)

/-- Each reply that the reader has looked up has completed its call, or is about to, and nothing else
has completed a call. -/
theorem Run.completed_eq (h : Run { service } es w) (hone : ∀ id, w.session.Unshared id)
    (hreadable : service.Readable (Rpc.sent es)) :
    completed es ++ w.session.reader.inHand = (delivered es).filterMap Envelope.result? ∧
      ∀ ids, w.session.reader = .closing ids → ids = [] := by
  induction h with
  | start => exact ⟨rfl, by rintro _ ⟨⟩⟩
  | @step es es' w w' h hstep ih =>
    cases hstep with
    | hear | answer | lose | leave =>
      rw [List.append_nil] at hreadable ⊢
      exact ih hone hreadable
    | @near e s hstep =>
      have hone' : ∀ id, w.session.Unshared id := fun id => hstep.unshared (hone id)
      have hreadable' : service.Readable (Rpc.sent es) := by
        rw [Rpc.sent, List.filterMap_append] at hreadable
        exact hreadable.of_append
      obtain ⟨hcompleted, hclosing⟩ := ih hone' hreadable'
      have hregistered := h.registered hone'
      cases hstep with
      | issue | refuse | record | send | fail | withdraw | overtaken | look | hangUp =>
        rw [completed_append_of_none rfl, delivered_append_of_none rfl]
        exact ⟨hcompleted, hclosing⟩
      | restore hcall =>
        exact absurd .withdrawn (hregistered.sound _ (List.mem_of_getElem? hcall))
      | receive hreader _ =>
        rw [completed_append_of_none rfl, delivered_append_of_none rfl, ← hcompleted, hreader]
        exact ⟨rfl, by rintro _ ⟨⟩⟩
      | deliver hreader hdecode _ =>
        rw [hreader] at hcompleted
        rw [completed_append_of_none rfl, delivered_append_deliver, List.filterMap_append,
          ← hcompleted, List.filterMap_cons_some (Envelope.result?_of_response hdecode)]
        exact ⟨by simp [Reader.inHand], by rintro _ ⟨⟩⟩
      | pass hreader hother =>
        -- it would have been a response to a call that stands in the table
        obtain ⟨p, hdecode, hmem⟩ := h.mem_table_of_holding hone' hreadable' hreader
        have hgone := hother p hdecode
        rw [(Pending.remove_fst _ _).mpr hmem] at hgone
        cases hgone
      | resolve hreader =>
        rw [hreader] at hcompleted
        rw [completed_append_complete, delivered_append_of_none rfl, ← hcompleted]
        exact ⟨List.append_nil _, by rintro _ ⟨⟩⟩
      | close hreader hreceive =>
        rw [hreader] at hcompleted
        rw [completed_append_of_none rfl, delivered_append_of_none rfl]
        refine ⟨hcompleted, ?_⟩
        rintro ids ⟨⟩
        exact h.table_empty hone' hreadable' ((List.append_nil _).symm.trans hcompleted)
          (.close hreader hreceive)
      | orphan hreader hid =>
        rw [hclosing _ hreader] at hid
        cases hid
      | finish hreader =>
        rw [hreader] at hcompleted
        rw [completed_append_of_none rfl, delivered_append_of_none rfl]
        exact ⟨hcompleted, by rintro _ ⟨⟩⟩

/-- When nothing will come any more, or nothing is under way, the calls whose requests have been sent
have been completed: in the order in which they were sent, each with what comes of its own request in
the state that the requests before have left. -/
theorem Run.completed_eq_results (h : Run { service } es w) (hone : ∀ id, w.session.Unshared id)
    (hreadable : service.Readable (Rpc.sent es))
    (hover : w.session.reader.hasClosed = true ∨ w.Quiet) :
    completed es = service.results (Rpc.sent es) := by
  obtain ⟨log, htracked⟩ := h.tracked
  obtain ⟨more, hresults, -, hnone⟩ := htracked.results hreadable
  have hcompleted := (h.completed_eq hone hreadable).1
  have hidle : w.session.reader.held = [] ∧ w.session.reader.inHand = [] := by
    rcases hover with hclosed | hquiet
    · cases hreader : w.session.reader with
      | closing | ended => exact ⟨rfl, rfl⟩
      | listening | holding | resolving =>
        rw [hreader] at hclosed
        cases hclosed
    · rw [hquiet.reader]
      exact ⟨rfl, rfl⟩
  rw [hidle.2, List.append_nil] at hcompleted
  rw [hresults, hnone hover, hidle.1, hcompleted, List.filterMap_nil, List.append_nil,
    List.append_nil]

end Served

end Typestrip.Rpc
