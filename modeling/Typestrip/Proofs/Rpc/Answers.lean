import Typestrip.Proofs.Rpc.Correlation
import Typestrip.Proofs.Rpc.Disconnection
import Typestrip.Proofs.Rpc.Listening

/-!
# Which requests are answered

As long as nobody hangs up, a session with a listener loses nothing on the way: what has been sent is
what the listener has heard followed by what is still under way, and the replies to what it has heard
are those that the reader has looked up followed by those that are still under way
(`Served.Conveys`). So a call gets what comes back for its request, and if nothing comes back it waits
for ever.

Nothing comes back if the request or the response nests too deeply for the reader of JSON. The writer
has no such limit (`Served.Run.answers`).
-/

namespace Typestrip.Rpc

/-! ## What has been sent and looked up -/

/-- The request that is sent. -/
def Event.request? : Event → Option Request
  | send r => some r
  | _ => none

/-- The envelope that the reader looks up. -/
def Event.envelope? : Event → Option Envelope
  | deliver e => some e
  | _ => none

/-- The requests that have been sent. -/
def sent (es : List Event) : List Request := es.filterMap Event.request?

/-- The envelopes that the reader has looked up. -/
def delivered (es : List Event) : List Envelope := es.filterMap Event.envelope?

/-- The envelope that a reader has taken from the channel and is still to look up. -/
def Reader.held : Reader → List Envelope
  | holding e => [e]
  | _ => []

section Append

variable {es : List Event} {e : Event}

theorem sent_append_send (es : List Event) (r : Request) :
    sent (es ++ [.send r]) = sent es ++ [r] := List.filterMap_append

theorem sent_append_of_none (he : e.request? = none) : sent (es ++ [e]) = sent es := by
  rw [sent, List.filterMap_append, List.filterMap_cons_none he, List.filterMap_nil, List.append_nil]
  rfl

theorem delivered_append_deliver (es : List Event) (env : Envelope) :
    delivered (es ++ [.deliver env]) = delivered es ++ [env] := List.filterMap_append

theorem delivered_append_of_none (he : e.envelope? = none) :
    delivered (es ++ [e]) = delivered es := by
  rw [delivered, List.filterMap_append, List.filterMap_cons_none he, List.filterMap_nil,
    List.append_nil]
  rfl

end Append

/-! ## Live sessions -/

/-- A call whose request could not be sent. -/
inductive Stage.Failed : Stage → Prop
  | unsent : Failed .unsent
  | withdrawn : Failed .withdrawn

namespace Session

variable {s s' : Session} {e : Event} {es : List Event} {id : UInt64}

/-- A session in which nobody has hung up. -/
structure Live (s : Session) : Prop where
  forth : s.link.forth.sending = true ∧ s.link.forth.receiving = true
  back : s.link.back.sending = true ∧ s.link.back.receiving = true
  reading : s.reader.hasClosed = false
  calls : ∀ c ∈ s.calls, ¬ c.stage.Failed

/-- What can happen in a live session on the near side. What becomes of the table and the mailboxes is
left out. -/
inductive LiveStep (s : Session) : Event → Session → Prop
  | issue (r : Request) {caller : Caller} :
    s.LiveStep (.issue r) { s with caller, calls := s.calls ++ [⟨r, .numbered⟩] }
  | record {i : Nat} {r : Request} {caller : Caller}
      (hcall : s.calls[i]? = some ⟨r, .numbered⟩) :
    s.LiveStep (.record r.id) { s with caller, calls := s.calls.set i ⟨r, .recorded⟩ }
  | send {i : Nat} {r : Request} (hcall : s.calls[i]? = some ⟨r, .recorded⟩) :
    s.LiveStep (.send r)
      { s with link.forth.queue := s.link.forth.queue ++ [r.encode],
               calls := s.calls.set i ⟨r, .returned⟩ }
  | receive {e : Envelope} {rest : List Envelope} (hreader : s.reader = .listening)
      (hqueue : s.link.back.queue = e :: rest) :
    s.LiveStep (.receive e) { s with link.back.queue := rest, reader := .holding e }
  | deliver {e : Envelope} {caller : Caller} {reader : Reader} (hreader : s.reader = .holding e)
      (hheld : reader.held = []) (hopen : reader.hasClosed = false) :
    s.LiveStep (.deliver e) { s with caller, reader }
  | resolve {id : UInt64} {r : CallResult} {caller : Caller} (hreader : s.reader = .resolving id r) :
    s.LiveStep (.complete id r) { s with caller, reader := .listening }
  | look {id : UInt64} {r : Option CallResult} {caller : Caller} :
    s.LiveStep (.look id r) { s with caller }

/-- A live session refuses no call, every request gets through, and the reader does not end. -/
theorem Step.liveStep (hstep : s.Step e s') (h : s.Live) (htidy : s.Tidy) (he : e ≠ .hangUp) :
    s.LiveStep e s' := by
  have hopen : s.caller.pending.closed = false := htidy.closed.trans h.reading
  have hgone (hclosed : s.reader.hasClosed = true) {p : Prop} : p :=
    absurd (h.reading.symm.trans hclosed) Bool.false_ne_true
  cases hstep with
  | issue r => exact .issue r
  | refuse _ hnone =>
    obtain hsending | hrecord := hnone
    · exact absurd (hsending.symm.trans h.forth.1) Bool.false_ne_true
    · rw [Caller.record?_eq_none, hopen] at hrecord
      exact absurd hrecord Bool.false_ne_true
  | record hcall => exact .record hcall
  | send hcall hsend =>
    obtain ⟨-, rfl⟩ := Channel.send?_eq_some.mp hsend
    exact .send hcall
  | fail _ hsend =>
    rw [Channel.send?_eq_none, h.forth.2] at hsend
    exact absurd hsend.symm Bool.false_ne_true
  | withdraw hcall | overtaken hcall => exact absurd .unsent (h.calls _ (List.mem_of_getElem? hcall))
  | restore hcall => exact absurd .withdrawn (h.calls _ (List.mem_of_getElem? hcall))
  | receive hreader hreceive =>
    obtain ⟨rest, hqueue, rfl⟩ := Channel.receive_eq_item.mp hreceive
    exact .receive hreader hqueue
  | deliver hreader | pass hreader => exact .deliver hreader rfl rfl
  | resolve hreader => exact .resolve hreader
  | close _ hreceive =>
    obtain ⟨-, hsending, -⟩ := Channel.receive_eq_closed.mp hreceive
    exact absurd (hsending.symm.trans h.back.1) Bool.false_ne_true
  | orphan hreader | finish hreader => exact hgone (by rw [hreader]; rfl)
  | look => exact .look
  | hangUp => exact absurd rfl he

theorem LiveStep.live (hstep : s.LiveStep e s') (h : s.Live) : s'.Live := by
  have hset {i : Nat} {c : Ongoing} (hc : ¬ c.stage.Failed) :
      ∀ d ∈ s.calls.set i c, ¬ d.stage.Failed := by
    intro d hd
    obtain hd | rfl := List.mem_or_eq_of_mem_set hd
    · exact h.calls d hd
    · exact hc
  cases hstep with
  | issue r =>
    refine ⟨h.forth, h.back, h.reading, fun c hc => ?_⟩
    obtain hc | hc := List.mem_append.mp hc
    · exact h.calls c hc
    · cases List.mem_singleton.mp hc
      nofun
  | record => exact ⟨h.forth, h.back, h.reading, hset nofun⟩
  | send => exact ⟨h.forth, h.back, h.reading, hset nofun⟩
  | receive => exact ⟨h.forth, h.back, rfl, h.calls⟩
  | deliver _ _ hopen => exact ⟨h.forth, h.back, hopen, h.calls⟩
  | resolve => exact ⟨h.forth, h.back, rfl, h.calls⟩
  | look => exact ⟨h.forth, h.back, h.reading, h.calls⟩

theorem LiveStep.withdraws (hstep : s.LiveStep e s') (id : UInt64) : e.withdraws id = false := by
  cases hstep <;> rfl

/-! ## Calls and requests -/

/-- What the events of a live session say of its calls: those that have begun have been recorded, and
those that have returned have been sent, under different numbers. -/
structure Ledger (s : Session) (es : List Event) : Prop where
  recorded : ∀ c ∈ s.calls, c.stage ≠ .numbered → .record c.request.id ∈ es
  sent_iff : ∀ r, r ∈ sent es ↔ ⟨r, .returned⟩ ∈ s.calls
  distinct : ((sent es).map (·.id)).Nodup

theorem Ledger.record_of_sent {r : Request} (h : s.Ledger es) (hr : r ∈ sent es) :
    .record r.id ∈ es := h.recorded _ ((h.sent_iff r).mp hr) nofun

theorem returned_mem_set {calls : List Ongoing} {i : Nat} {r r' : Request} {st st' : Stage}
    (hcall : calls[i]? = some ⟨r, st⟩) (hst : st ≠ .returned) :
    ⟨r', .returned⟩ ∈ calls.set i ⟨r, st'⟩ ↔
      (r' = r ∧ st' = .returned) ∨ ⟨r', .returned⟩ ∈ calls := by
  have hne : Ongoing.mk r' .returned ≠ ⟨r, st⟩ := fun h => hst (congrArg Ongoing.stage h).symm
  rw [mem_set_iff hcall hne, Ongoing.mk.injEq, eq_comm (b := st')]

/-- A step that sends nothing. -/
theorem Ledger.unsent (h : s.Ledger es) (he : e.request? = none)
    (hrecorded : ∀ c ∈ s'.calls, c.stage ≠ .numbered → .record c.request.id ∈ es ++ [e])
    (hreturned : ∀ r, ⟨r, .returned⟩ ∈ s'.calls ↔ ⟨r, .returned⟩ ∈ s.calls) :
    s'.Ledger (es ++ [e]) := by
  have hsent : sent (es ++ [e]) = sent es := sent_append_of_none he
  refine ⟨hrecorded, fun r => ?_, ?_⟩
  · rw [hsent, h.sent_iff, hreturned]
  · rw [hsent]
    exact h.distinct

theorem LiveStep.ledger (hstep : s.LiveStep e s') (h : s.Ledger es) (hone : ∀ id, s.Unshared id) :
    s'.Ledger (es ++ [e]) := by
  have hbefore : ∀ c ∈ s.calls, c.stage ≠ .numbered → .record c.request.id ∈ es ++ [e] :=
    fun c hc hst => List.mem_append_left _ (h.recorded c hc hst)
  cases hstep with
  | receive | deliver | resolve | look => exact h.unsent rfl hbefore fun _ => Iff.rfl
  | issue r =>
    refine h.unsent rfl (fun c hc hst => ?_) fun r' => ?_
    · obtain hc | hc := List.mem_append.mp hc
      · exact hbefore c hc hst
      · cases List.mem_singleton.mp hc
        exact absurd rfl hst
    · simp
  | @record i r caller hcall =>
    refine h.unsent rfl (fun c hc hst => ?_) fun r' => ?_
    · obtain hc | rfl := List.mem_or_eq_of_mem_set hc
      · exact hbefore c hc hst
      · exact List.mem_append_right _ (List.mem_singleton_self _)
    · exact (returned_mem_set hcall nofun).trans (or_iff_right nofun)
  | @send i r hcall =>
    have hrecorded : ⟨r, .recorded⟩ ∈ s.calls := List.mem_of_getElem? hcall
    have hsent : sent (es ++ [.send r]) = sent es ++ [r] := sent_append_send es r
    refine ⟨fun c hc hst => ?_, fun r' => ?_, ?_⟩
    · obtain hc | rfl := List.mem_or_eq_of_mem_set hc
      · exact hbefore c hc hst
      · exact hbefore ⟨r, .recorded⟩ hrecorded nofun
    · rw [hsent, List.mem_append, List.mem_singleton, h.sent_iff, or_comm]
      exact (or_congr_left (and_iff_left rfl).symm).trans (returned_mem_set hcall nofun).symm
    · -- no request with this number has been sent, for the call is only recorded
      rw [hsent, List.map_append, List.nodup_append]
      refine ⟨h.distinct, List.nodup_singleton _, fun id hid id' hid' heq => ?_⟩
      obtain rfl := List.mem_singleton.mp hid'
      subst heq
      obtain ⟨r', hr', hid⟩ := List.mem_map.mp hid
      have hreturned := stage?_of_mem (hone r.id) ((h.sent_iff r').mp hr') hid
      have hrecorded' := stage?_of_mem (hone r.id) hrecorded rfl
      cases hreturned.symm.trans hrecorded'

end Session

/-! ## What is under way -/

namespace Served

variable {σ : Type} {w : Served σ} {service : Service σ} {es : List Event}

/-- The replies that the reader has not looked up. -/
def underway (w : Served σ) : List Envelope :=
  w.session.reader.held ++ w.session.link.back.queue ++ w.reply.toList

/-- Nothing that has been sent is lost, and everything comes in order: the listener has heard some of
the requests, the others wait in the channel, and of the replies to those that it has heard some have
been looked up and the others are under way. -/
def Conveys (service : Service σ) (es : List Event) (w : Served σ) : Prop :=
  ∃ heard waiting, sent es = heard ++ waiting ∧
    w.session.link.forth.queue = waiting.map Request.encode ∧
    service.serve (heard.map Request.encode) = (delivered es ++ w.underway, w.service)

theorem Conveys.near {e : Event} {s : Session} (h : w.Conveys service es)
    (hstep : w.session.LiveStep e s) : Conveys service (es ++ [e]) { w with session := s } := by
  obtain ⟨heard, waiting, hsent, hqueue, hserve⟩ := h
  cases hstep with
  | issue | record | look =>
    refine ⟨heard, waiting, (sent_append_of_none rfl).trans hsent, hqueue, hserve.trans ?_⟩
    rw [delivered_append_of_none rfl]
    rfl
  | @send i r hcall =>
    refine ⟨heard, waiting ++ [r], ?_, ?_, hserve.trans ?_⟩
    · rw [sent_append_send, hsent, List.append_assoc]
    · rw [List.map_append, ← hqueue]
      rfl
    · rw [delivered_append_of_none rfl]
      rfl
  | receive hreader hqueue' =>
    -- the oldest reply goes from the channel into the hand of the reader
    refine ⟨heard, waiting, (sent_append_of_none rfl).trans hsent, hqueue, hserve.trans ?_⟩
    rw [delivered_append_of_none rfl, underway, hreader, hqueue']
    rfl
  | deliver hreader hheld =>
    -- and from there it goes to what has been looked up
    refine ⟨heard, waiting, (sent_append_of_none rfl).trans hsent, hqueue, hserve.trans ?_⟩
    rw [delivered_append_deliver, underway, underway, hreader, hheld,
      List.append_assoc (delivered es)]
    rfl
  | resolve hreader =>
    refine ⟨heard, waiting, (sent_append_of_none rfl).trans hsent, hqueue, hserve.trans ?_⟩
    rw [delivered_append_of_none rfl, underway, hreader]
    rfl

theorem Conveys.hear {e : Envelope} {rest : List Envelope} (h : w.Conveys service es)
    (hidle : w.reply = none) (hforth : w.session.link.forth.queue = e :: rest) :
    Conveys service es
      { session := { w.session with link.forth.queue := rest },
        service := (w.service.react e).2, reply := (w.service.react e).1 } := by
  obtain ⟨heard, waiting, hsent, hqueue, hserve⟩ := h
  obtain ⟨r, waiting, rfl, rfl, hrest⟩ := List.map_eq_cons_iff.mp (hqueue.symm.trans hforth)
  refine ⟨heard ++ [r], waiting, ?_, hrest.symm, ?_⟩
  · rw [hsent, List.append_assoc]
    rfl
  · rw [List.map_append, Service.serve_append, hserve, underway, hidle]
    simp [underway, Service.serve_cons, Service.serve]

theorem Conveys.answer {e : Envelope} (h : w.Conveys service es) (hreply : w.reply = some e) :
    Conveys service es
      { w with session.link.back.queue := w.session.link.back.queue ++ [e], reply := none } := by
  obtain ⟨heard, waiting, hsent, hqueue, hserve⟩ := h
  refine ⟨heard, waiting, hsent, hqueue, hserve.trans ?_⟩
  simp [underway, hreply]

/-! ## What has come back -/

/-- Nothing is under way. -/
structure Quiet (w : Served σ) : Prop where
  forth : w.session.link.forth.queue = []
  back : w.session.link.back.queue = []
  reply : w.reply = none
  reader : w.session.reader = .listening

theorem Conveys.replies (h : w.Conveys service es) :
    ∃ more, (service.serve ((sent es).map Request.encode)).1 = delivered es ++ more ∧
      (w.Quiet → more = []) := by
  obtain ⟨heard, waiting, hsent, hqueue, hserve⟩ := h
  refine ⟨w.underway ++ (w.service.serve (waiting.map Request.encode)).1, ?_, fun hquiet => ?_⟩
  · rw [hsent, List.map_append, Service.serve_append, hserve, List.append_assoc]
  · rw [← hqueue, hquiet.forth, underway, hquiet.back, hquiet.reply, hquiet.reader]
    rfl

/-- Nobody responds to a request that has not been sent. -/
theorem Conveys.findSome?_of_not_mem {id : UInt64} (h : w.Conveys service es)
    (hid : id ∉ (sent es).map (·.id)) :
    (delivered es).findSome? (Envelope.response? id) = none := by
  obtain ⟨more, hreplies, -⟩ := h.replies
  have hnone := Service.findSome?_serve_of_not_mem (s := service) hid
  rw [hreplies, List.findSome?_append, Option.or_eq_none_iff] at hnone
  exact hnone.1

section Sent

variable {before after : List Request} {r : Request}

/-- What the reader has looked up for a request, and what is still under way, is what comes back for
it. -/
theorem Conveys.exists_or (h : w.Conveys service es) (hdistinct : ((sent es).map (·.id)).Nodup)
    (hsent : sent es = before ++ r :: after) :
    ∃ still, ((delivered es).findSome? (Envelope.response? r.id)).or still =
      (service.after before).answer? r ∧ (w.Quiet → still = none) := by
  obtain ⟨more, hreplies, hquiet⟩ := h.replies
  rw [hsent, List.map_append, List.map_cons, List.nodup_middle, List.nodup_cons, List.mem_append,
    not_or] at hdistinct
  have hanswer := Service.findSome?_serve (s := service) hdistinct.1.1 hdistinct.1.2
  rw [← hsent, hreplies, List.findSome?_append] at hanswer
  exact ⟨_, hanswer, fun h => by rw [hquiet h]; rfl⟩

end Sent

/-! ## Whole runs -/

/-- What is true of a session with a listener as long as nobody hangs up. -/
structure Orderly (service : Service σ) (es : List Event) (w : Served σ) : Prop where
  live : w.session.Live
  ledger : w.session.Ledger es
  conveys : w.Conveys service es
  heeded : ∀ id, firstResponse? id es = (delivered es).findSome? (Envelope.response? id)
  kept : ∀ e ∈ es, ∀ id, e.withdraws id = false

theorem Orderly.start (service : Service σ) : Orderly service [] { service } where
  live := ⟨⟨rfl, rfl⟩, ⟨rfl, rfl⟩, rfl, nofun⟩
  ledger := ⟨nofun, fun _ => iff_of_false List.not_mem_nil List.not_mem_nil, List.nodup_nil⟩
  conveys := ⟨[], [], rfl, rfl, rfl⟩
  heeded _ := rfl
  kept := nofun

/-- What the reader looks up adds to what it has looked up before. -/
theorem findSome?_delivered_append (id : UInt64) (e : Event) :
    (delivered (es ++ [e])).findSome? (Envelope.response? id) =
      ((delivered es).findSome? (Envelope.response? id)).or (e.response? id) := by
  cases e with
  | deliver env =>
    rw [delivered_append_deliver, List.findSome?_append, List.findSome?_singleton]
    rfl
  | _ => exact (congrArg _ (delivered_append_of_none rfl)).trans Option.or_none.symm

/-- The reader looks up no response to a call before the call has been recorded. -/
theorem heeded_append {e : Event} {s : Session} (h : w.Orderly service es)
    (hledger : s.Ledger (es ++ [e])) (hconveys : Conveys service (es ++ [e]) { w with session := s })
    (id : UInt64) : firstResponse? id (es ++ [e]) =
      (delivered (es ++ [e])).findSome? (Envelope.response? id) := by
  have hunsent {es : List Event} {s : Session} (hledger : s.Ledger es) (hrecord : .record id ∉ es) :
      id ∉ (sent es).map (·.id) := by
    intro hmem
    obtain ⟨r, hr, rfl⟩ := List.mem_map.mp hmem
    exact hrecord (hledger.record_of_sent hr)
  by_cases hrecord : .record id ∈ es
  case pos =>
    -- from now on both sides see the same envelopes
    rw [firstResponse?_append_of_mem hrecord, findSome?_delivered_append, h.heeded]
  rw [firstResponse?_append_of_not_mem hrecord]
  by_cases hnew : .record id ∈ es ++ [e]
  case neg => exact (hconveys.findSome?_of_not_mem (hunsent hledger hnew)).symm
  -- the call is being recorded
  obtain rfl := List.mem_singleton.mp ((List.mem_append.mp hnew).resolve_left hrecord)
  rw [findSome?_delivered_append, h.conveys.findSome?_of_not_mem (hunsent h.ledger hrecord)]
  rfl

theorem Orderly.near {e : Event} {s : Session} (h : w.Orderly service es)
    (hstep : w.session.LiveStep e s) (hone : ∀ id, w.session.Unshared id) :
    Orderly service (es ++ [e]) { w with session := s } := by
  have hledger := hstep.ledger h.ledger hone
  have hconveys := h.conveys.near hstep
  refine ⟨hstep.live h.live, hledger, hconveys, heeded_append h hledger hconveys, fun d hd => ?_⟩
  obtain hd | hd := List.mem_append.mp hd
  · exact h.kept d hd
  · exact List.mem_singleton.mp hd ▸ hstep.withdraws

/-- The listener touches no call. -/
theorem Orderly.far {w' : Served σ} (h : w.Orderly service es)
    (hcalls : w'.session.calls = w.session.calls) (hlive : w'.session.Live)
    (hconveys : w'.Conveys service es) : w'.Orderly service es where
  live := hlive
  ledger := ⟨hcalls ▸ h.ledger.recorded, fun r => hcalls ▸ h.ledger.sent_iff r, h.ledger.distinct⟩
  conveys := hconveys
  heeded := h.heeded
  kept := h.kept

theorem Run.orderly (h : Run { service } es w) (hlive : .hangUp ∉ es)
    (hone : ∀ id, w.session.Unshared id) : w.Orderly service es := by
  induction h with
  | start => exact .start service
  | @step es es' w w' h hstep ih =>
    rw [List.mem_append, not_or] at hlive
    cases hstep with
    | @near e s hstep =>
      have hone' : ∀ id, w.session.Unshared id := fun id => hstep.unshared (hone id)
      have horderly := ih hlive.1 hone'
      obtain ⟨-, hrun⟩ := h.session (.start service)
      have he : e ≠ .hangUp := fun he => hlive.2 (he ▸ List.mem_singleton_self _)
      exact horderly.near (hstep.liveStep horderly.live (hrun.tidy .start) he) hone'
    | hear hidle _ hreceive =>
      have horderly := ih hlive.1 hone
      obtain ⟨rest, hqueue, rfl⟩ := Channel.receive_eq_item.mp hreceive
      rw [List.append_nil]
      exact horderly.far rfl ⟨horderly.live.forth, horderly.live.back, horderly.live.reading,
        horderly.live.calls⟩ (horderly.conveys.hear hidle hqueue)
    | answer hreply hsend =>
      have horderly := ih hlive.1 hone
      obtain ⟨-, rfl⟩ := Channel.send?_eq_some.mp hsend
      rw [List.append_nil]
      exact horderly.far rfl ⟨horderly.live.forth, horderly.live.back, horderly.live.reading,
        horderly.live.calls⟩ (horderly.conveys.answer hreply)
    -- the near side holds its ends, so the listener does not leave
    | lose _ hsend =>
      have hreceiving := (ih hlive.1 hone).live.back.2
      rw [Channel.send?_eq_none.mp hsend] at hreceiving
      cases hreceiving
    | leave _ _ hreceive =>
      have hsending := (ih hlive.1 hone).live.forth.1
      rw [(Channel.receive_eq_closed.mp hreceive).2.1] at hsending
      cases hsending

end Served

namespace Session

variable {s : Session} {es : List Event} {id : UInt64}

/-- A call waits for its response. -/
def Waits (s : Session) (id : UInt64) : Prop :=
  id ∈ s.caller.pending.ids ∧ s.caller.mailbox? id = some .waiting

/-- A call that nothing has decided waits. -/
theorem Run.waits (h : Run {} es s) (hone : s.Unshared id) (hrecord : .record id ∈ es)
    (hdecision : decision? id es = none) : s.Waits id := by
  obtain ⟨l, htold, hshows⟩ := h.history hone
  have hundecided {r : CallResult} : ¬ Fate id es r := by
    rintro (⟨-, hr⟩ | ⟨hr, -⟩)
    · cases hdecision.symm.trans hr
    · exact hr hrecord
  unfold Shows at hshows
  generalize hv : s.view id = v at hshows
  cases hshows with
  | standing =>
    obtain ⟨htable, hbox, -⟩ := view_eq.mp hv
    exact ⟨List.contains_iff_mem.mp htable, hbox⟩
  | unborn | numbered => exact absurd hrecord htold.1
  | inHand | withdrawn => cases hdecision.symm.trans htold.2.1
  | settled | taken => exact absurd htold.1 hundecided

/-- A call that stands in the table has not been decided. -/
theorem Run.decision?_of_mem (h : Run {} es s) (hone : s.Unshared id)
    (hmem : id ∈ s.caller.pending.ids) : decision? id es = none := by
  obtain ⟨l, htold, hshows⟩ := h.history hone
  obtain ⟨rfl, -⟩ := hshows.of_standing (List.contains_iff_mem.mpr hmem)
  exact htold.2.1

/-- A call that has returned and that something has decided holds what decided it, unless the reader has
it in hand. -/
theorem Run.holds_of_decision {r : Request} {x : CallResult} (h : Run {} es s)
    (hone : s.Unshared r.id) (hr : ⟨r, .returned⟩ ∈ s.calls)
    (hdecision : decision? r.id es = some x) (hhand : s.reader.hand r.id = none) :
    s.Holds es r.id x := by
  have htable : r.id ∉ s.caller.pending.ids := by
    intro hmem
    cases hdecision.symm.trans (h.decision?_of_mem hone hmem)
  have hholds := h.holds htable hr rfl hone hhand
  rw [← getD_decision?, hdecision] at hholds
  exact hholds

end Session

namespace Served

variable {σ : Type} {w : Served σ} {service : Service σ} {es : List Event}

/-- What has decided a call that has returned, together with what is still under way for it, is what comes
back for its request. -/
theorem Run.exists_answer (h : Run { service } es w) (hlive : .hangUp ∉ es)
    (hone : ∀ id, w.session.Unshared id) {r : Request} (hr : ⟨r, .returned⟩ ∈ w.session.calls) :
    ∃ (before after : List Request) (found still : Option (Except Failure Json)),
      sent es = before ++ r :: after ∧ .record r.id ∈ es ∧
      decision? r.id es = found.map (·.mapError .remote) ∧
      found.or still = (service.after before).answer? r ∧ (w.Quiet → still = none) := by
  have horderly := h.orderly hlive hone
  have hsent := (horderly.ledger.sent_iff r).mpr hr
  -- nothing has decided the call but what the reader has looked up for it
  have hdecision := decision?_eq_map fun e he => horderly.kept e he r.id
  rw [horderly.heeded] at hdecision
  obtain ⟨before, after, hsplit⟩ := List.append_of_mem hsent
  obtain ⟨still, hanswer, hquiet⟩ := horderly.conveys.exists_or horderly.ledger.distinct hsplit
  exact ⟨before, after, _, still, hsplit, horderly.ledger.record_of_sent hsent, hdecision, hanswer,
    hquiet⟩

/-- As long as nobody hangs up, the calls that have returned have been sent, and each gets what the
service makes of it after the requests that were sent before, as soon as nothing is under way any more,
provided that neither the request nor the response nests more than 127 arrays and objects. Otherwise
the listener takes no notice of the request, or the reader of the response, and the call waits. -/
theorem Run.answers (h : Run { service } es w) (hlive : .hangUp ∉ es)
    (hcount : w.session.calls.length < 2 ^ 64) {r : Request}
    (hr : ⟨r, .returned⟩ ∈ w.session.calls) :
    ∃ before after, sent es = before ++ r :: after ∧
      let outcome := (service.after before).outcome r
      let response : Response := ⟨r.id, outcome⟩
      (Json.maxDepth < r.depth → w.session.Waits r.id) ∧
      (r.Faithful → Json.maxDepth < response.depth → w.session.Waits r.id) ∧
      (w.Quiet → r.Faithful → response.Faithful → r.depth ≤ Json.maxDepth →
        response.depth ≤ Json.maxDepth → w.session.Holds es r.id (outcome.mapError .remote)) := by
  obtain ⟨-, hrun⟩ := h.session (.start service)
  have hone : ∀ id, w.session.Unshared id := hrun.unshared hcount
  obtain ⟨before, after, found, still, hsplit, hrecord, hdecision, hanswer, hquiet⟩ :=
    h.exists_answer hlive hone hr
  have hunanswered (hnone : (service.after before).answer? r = none) : w.session.Waits r.id := by
    refine hrun.waits (hone _) hrecord ?_
    rw [hdecision, (Option.or_eq_none_iff.mp (hanswer.trans hnone)).1]
    rfl
  refine ⟨before, after, hsplit, fun hdeep => hunanswered (Service.answer?_deep hdeep),
    fun hfaithful hdeep => hunanswered (Service.answer?_deep_response hfaithful hdeep),
    fun hq hfaithful hfaithful' hdepth hdepth' => ?_⟩
  rw [hquiet hq, Option.or_none,
    Service.answer?_eq_some hfaithful hfaithful' hdepth hdepth'] at hanswer
  rw [hanswer] at hdecision
  exact hrun.holds_of_decision (hone _) hr hdecision (by rw [hq.reader]; rfl)

/-! Three calls of a service that gives back its arguments as an array. The first is answered. The
listener cannot read the second, and the reader cannot read the response to the third. -/

/-- Arrays in each other. -/
def nested : Nat → Json
  | 0 => .null
  | n + 1 => .array [nested n]

theorem depth_nested : ∀ n, (nested n).depth = n
  | 0 => rfl
  | n + 1 => by rw [nested, Json.depth, Json.itemsDepth, Json.itemsDepth, depth_nested n, max_zero]

theorem faithful_nested : ∀ n, (nested n).Faithful
  | 0 => .null
  | n + 1 => .array fun _ h => List.mem_singleton.mp h ▸ faithful_nested n

def flat : Request := ⟨1, "list", [.null], []⟩

def deep : Request := ⟨2, "list", [nested 127], []⟩

def edge : Request := ⟨3, "list", [nested 126], []⟩

def listing : Service Unit := (Service.empty ()).register "list" fun c s => (.result (.array c.args), s)

theorem outcome_listing (rs : List Request) (id : UInt64) (args : List Json) :
    (listing.after rs).outcome ⟨id, "list", args, []⟩ = .ok (.array args) := by
  rw [Service.outcome, Service.invoke, Service.handlers_after]
  rfl

theorem react_listing {id : UInt64} {args : List Json}
    (h : (Request.mk id "list" args []).Faithful)
    (hdepth : (Request.mk id "list" args []).depth ≤ Json.maxDepth) :
    listing.react (Request.mk id "list" args []).encode =
      (some (Response.encode ⟨id, .ok (.array args)⟩), listing) := Service.react_request h hdepth

def nesting (answer unread : Envelope) : List Event :=
  [.issue flat, .issue deep, .issue edge, .record 1, .record 2, .record 3, .send flat, .send deep,
    .send edge, .receive answer, .deliver answer, .complete 1 (.ok (.array [.null])),
    .receive unread, .deliver unread]

def stuck : Session where
  caller := ⟨4, ⟨[3, 2], false⟩, [(3, .waiting), (2, .waiting), (1, .holding (.ok (.array [.null])))]⟩
  calls := [⟨flat, .returned⟩, ⟨deep, .returned⟩, ⟨edge, .returned⟩]

theorem run_nesting {answer unread : Envelope}
    (hflat : listing.react flat.encode = (some answer, listing))
    (hdeep : listing.react deep.encode = (none, listing))
    (hedge : listing.react edge.encode = (some unread, listing))
    (hanswer : Message.decode answer = .ok (.response ⟨1, .ok (.array [.null])⟩))
    (hunread : Message.decode unread = .error .notJson) :
    Run { service := listing } (nesting answer unread) { session := stuck, service := listing } := by
  have hstart : Run { service := listing } [] { service := listing } := .start
  have hissued := ((hstart.near (.issue flat rfl)).near (.issue deep rfl)).near (.issue edge rfl)
  have hrecorded := ((hissued.near (.record (i := 0) (r := flat) rfl rfl rfl)).near
    (.record (i := 1) (r := deep) rfl rfl rfl)).near (.record (i := 2) (r := edge) rfl rfl rfl)
  have hsent := ((hrecorded.near (.send (i := 0) (r := flat) rfl rfl)).near
    (.send (i := 1) (r := deep) rfl rfl)).near (.send (i := 2) (r := edge) rfl rfl)
  have hheard := (hsent.hears rfl rfl rfl hflat).far (.answer rfl rfl)
  have hheard' := ((hheard.hears rfl rfl rfl hdeep).hears rfl rfl rfl hedge).far (.answer rfl rfl)
  have hresolving := (hheard'.near (.receive rfl rfl)).near (.deliver rfl hanswer rfl)
  have hresolved := (hresolving.near (.resolve rfl)).near (.receive rfl rfl)
  exact hresolved.near (.pass_malformed rfl hunread)

theorem faithful_request {id : UInt64} {command : String} {j : Json} (h : j.Faithful) :
    (Request.mk id command [j] []).Faithful :=
  ⟨fun _ hj => List.mem_singleton.mp hj ▸ h, Nat.two_pow_pos 64⟩

theorem depth_request (id : UInt64) (command : String) (j : Json) :
    (Request.mk id command [j] []).depth = j.depth + 1 := by
  simp [Request.depth, Request.items, Request.commandItem, Json.depth, Json.itemsDepth, Json.ofNat]

theorem depth_response (id : UInt64) (j : Json) :
    (Response.mk id (.ok (.array [j]))).depth = j.depth + 2 := by
  simp [Response.depth, Response.items, Json.depth, Json.itemsDepth, Json.ofNat]

/-- What the service sends for the first request. -/
def listed : Envelope := Response.encode ⟨1, .ok (.array [.null])⟩

/-- What the service sends for the third request. -/
def unread : Envelope := Response.encode ⟨3, .ok (.array [nested 126])⟩

theorem faithful_listed (id : UInt64) {j : Json} (h : j.Faithful) :
    (Response.mk id (.ok (.array [j]))).Faithful := by
  rintro _ ⟨⟩
  exact .array fun _ hj => List.mem_singleton.mp hj ▸ h

theorem run_listing :
    Run { service := listing } (nesting listed unread) { session := stuck, service := listing } := by
  have hdeep : Json.maxDepth < deep.depth := by
    rw [deep, depth_request, depth_nested]
    decide
  have hflat : flat.depth ≤ Json.maxDepth := by
    rw [flat, depth_request]
    decide
  have hedge : edge.depth ≤ Json.maxDepth := by
    rw [edge, depth_request, depth_nested]
    decide
  refine run_nesting (react_listing (faithful_request .null) hflat) (Service.react_deep hdeep)
    (react_listing (faithful_request (faithful_nested 126)) hedge) ?_ (decode_response_deep ?_)
  · rw [listed, decode_response (faithful_listed 1 .null), depth_response, if_pos (by decide)]
  · rw [depth_response, depth_nested]
    decide

theorem quiet_stuck : Quiet { session := stuck, service := listing } := ⟨rfl, rfl, rfl, rfl⟩

theorem answers_listing :
    Run { service := listing } (nesting listed unread) { session := stuck, service := listing } ∧
    .hangUp ∉ nesting listed unread ∧ stuck.calls.length < 2 ^ 64 ∧
    stuck.Holds (nesting listed unread) 1 (.ok (.array [.null])) ∧ stuck.Waits 2 ∧ stuck.Waits 3 := by
  have hlive : .hangUp ∉ nesting listed unread := by simp [nesting]
  have hcount : stuck.calls.length < 2 ^ 64 := by
    rw [show stuck.calls.length = 3 from rfl]
    decide
  refine ⟨run_listing, hlive, hcount, ?_, ?_, ?_⟩
  · obtain ⟨before, after, -, -, -, hflat⟩ :=
      Run.answers run_listing hlive hcount (r := flat) (by simp [stuck])
    rw [flat, outcome_listing, depth_request, depth_response] at hflat
    exact hflat quiet_stuck (faithful_request .null) (faithful_listed 1 .null) (by decide) (by decide)
  · obtain ⟨before, after, -, hdeep, -⟩ :=
      Run.answers run_listing hlive hcount (r := deep) (by simp [stuck])
    rw [deep, depth_request, depth_nested] at hdeep
    exact hdeep (by decide)
  · obtain ⟨before, after, -, -, hedge, -⟩ :=
      Run.answers run_listing hlive hcount (r := edge) (by simp [stuck])
    rw [edge, outcome_listing, depth_response, depth_nested] at hedge
    exact hedge (faithful_request (faithful_nested 126)) (by decide)

/-- It is not so that every call has its result when nothing is under way any more. -/
theorem not_all_answered :
    ¬ ∀ (service : Service Unit) (es : List Event) (w : Served Unit), Run { service } es w →
      .hangUp ∉ es → w.Quiet → ∀ c ∈ w.session.calls, c.stage = .returned →
        ∃ result, w.session.Holds es c.request.id result := by
  intro hall
  have hlive : .hangUp ∉ nesting listed unread := by simp [nesting]
  obtain ⟨result, hbox | ⟨hbox, -⟩⟩ :=
    hall listing _ _ run_listing hlive quiet_stuck ⟨deep, .returned⟩ (by simp [stuck]) rfl
  all_goals cases hbox

end Served

end Typestrip.Rpc
