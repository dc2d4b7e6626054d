import Typestrip.Proofs.Rpc.Codec
import Typestrip.Proofs.Rpc.Life

/-!
# A session with a listener

On the far side of a link a listener answers the requests that come in, one after the other. `Served`
is a session with such a listener, and `Served.Run` any interleaving of its steps with those of the
near side. Of the far side it does nothing else than any far side can do (`Served.Run.session`).

What comes back for a request is told by `Service.answer?`: the listener passes over a request that it
cannot read, and the reader passes over a response that it cannot read. Among the replies to requests
with different numbers, the response to a request is what comes back for it (`findSome?_serve`).
-/

namespace Typestrip.Rpc

/-! ## Channels -/

namespace Channel

variable {α : Type} {c c' : Channel α} {x : α}

theorem send?_eq_some :
    c.send? x = some c' ↔ c.receiving = true ∧ c' = { c with queue := c.queue ++ [x] } := by
  rw [send?, Option.ite_none_right_eq_some, Option.some_inj, eq_comm (a := c')]

theorem send?_eq_none : c.send? x = none ↔ c.receiving = false := by
  simp [send?]

theorem receive_eq_item :
    c.receive = (.item x, c') ↔ ∃ rest, c.queue = x :: rest ∧ c' = { c with queue := rest } := by
  unfold receive
  split
  next y rest h => simp [h, eq_comm]
  next h => cases hs : c.sending <;> simp [h]

theorem of_receive_empty (h : c.receive = (.empty, c')) :
    c.queue = [] ∧ c.sending = true := by
  unfold receive at h
  split at h
  · cases h
  next hqueue =>
    cases hs : c.sending with
    | true => exact ⟨hqueue, rfl⟩
    | false =>
      rw [hs] at h
      cases h

end Channel

/-! ## What comes back for a request -/

/-- What an envelope says, if it is a response to a call. -/
def Envelope.response? (id : UInt64) (e : Envelope) : Option (Except Failure Json) :=
  Event.response? id (.deliver e)

namespace Service

variable {σ : Type} {s : Service σ} {r : Request} {rs : List Request}

theorem serve_cons (s : Service σ) (e : Envelope) (es : List Envelope) :
    s.serve (e :: es) =
      ((s.react e).1.toList ++ ((s.react e).2.serve es).1, ((s.react e).2.serve es).2) := rfl

theorem serve_append (s : Service σ) (es es' : List Envelope) :
    s.serve (es ++ es') =
      ((s.serve es).1 ++ ((s.serve es).2.serve es').1, ((s.serve es).2.serve es').2) := by
  induction es generalizing s with
  | nil => rfl
  | cons e es ih => rw [List.cons_append, serve_cons, serve_cons, ih, List.append_assoc]

/-- A service after requests have come in. -/
def after (s : Service σ) (rs : List Request) : Service σ := (s.serve (rs.map Request.encode)).2

theorem after_cons (s : Service σ) (r : Request) (rs : List Request) :
    s.after (r :: rs) = (s.react r.encode).2.after rs := by
  rw [after, List.map_cons, serve_cons, after]

theorem handlers_invoke (s : Service σ) (command : String) (c : Call) :
    (s.invoke command c).2.handlers = s.handlers := by
  unfold invoke
  cases Fields.find? command s.handlers <;> rfl

theorem handlers_react (s : Service σ) (e : Envelope) : (s.react e).2.handlers = s.handlers := by
  unfold react
  split
  · exact handlers_invoke s _ _
  · rfl

/-- A service keeps its handlers. -/
theorem handlers_after (s : Service σ) (rs : List Request) :
    (s.after rs).handlers = s.handlers := by
  induction rs generalizing s with
  | nil => rfl
  | cons r rs ih => rw [after_cons, ih, handlers_react]

/-- What comes back for a request. -/
def answer? (s : Service σ) (r : Request) : Option (Except Failure Json) :=
  (s.react r.encode).1.bind (Envelope.response? r.id)

/-- What a service makes of a request that it reads. -/
def outcome (s : Service σ) (r : Request) : Except Failure Json :=
  (s.invoke r.command ⟨r.args, r.transfer⟩).1

theorem react_deep (h : Json.maxDepth < r.depth) : s.react r.encode = (none, s) := by
  rw [react, decode_request_deep h]

theorem react_request (h : r.Faithful) (hdepth : r.depth ≤ Json.maxDepth) :
    s.react r.encode = (some (Response.encode ⟨r.id, s.outcome r⟩),
      (s.invoke r.command ⟨r.args, r.transfer⟩).2) := by
  rw [react, decode_request h, if_pos hdepth]
  rfl

theorem answer?_deep (h : Json.maxDepth < r.depth) : s.answer? r = none := by
  rw [answer?, react_deep h]
  rfl

theorem answer?_deep_response (h : r.Faithful)
    (hdeep : Json.maxDepth < (Response.mk r.id (s.outcome r)).depth) : s.answer? r = none := by
  by_cases hdepth : r.depth ≤ Json.maxDepth
  · rw [answer?, react_request h hdepth, Option.bind_some, Envelope.response?, Event.response?,
      decode_response_deep hdeep]
  · exact answer?_deep (Nat.not_le.mp hdepth)

/-- The outcome of a request comes back, if neither the request nor the response nests too deeply. -/
theorem answer?_eq_some (h : r.Faithful) (hresponse : (Response.mk r.id (s.outcome r)).Faithful)
    (hdepth : r.depth ≤ Json.maxDepth)
    (hdepth' : (Response.mk r.id (s.outcome r)).depth ≤ Json.maxDepth) :
    s.answer? r = some (s.outcome r) := by
  have hdecode := decode_response hresponse
  rw [if_pos hdepth'] at hdecode
  rw [answer?, react_request h hdepth, Option.bind_some, Envelope.response?,
    Event.response?_deliver hdecode, if_pos rfl]

/-- A reply is a response to no other request. -/
theorem response?_react {e : Envelope} {id : UInt64} (he : (s.react r.encode).1 = some e)
    (hne : id ≠ r.id) : e.response? id = none := by
  by_contra hsome
  obtain ⟨outcome, hresponse⟩ := Option.ne_none_iff_exists'.mp hsome
  have hdecode := Event.response?_deliver_eq_some.mp hresponse
  rw [react] at he
  split at he
  next r' hrequest =>
    cases he
    have hr' : r'.id = r.id := Message.id_of_decode hrequest
    have hid : id = r'.id := Message.id_of_decode hdecode
    exact hne (hid.trans hr')
  next => cases he

theorem findSome?_serve_of_not_mem {id : UInt64} (h : id ∉ rs.map (·.id)) :
    (s.serve (rs.map Request.encode)).1.findSome? (Envelope.response? id) = none := by
  induction rs generalizing s with
  | nil => rfl
  | cons r rs ih =>
    rw [List.map_cons, List.mem_cons, not_or] at h
    rw [List.map_cons, serve_cons, List.findSome?_append, ih h.2, Option.or_none]
    cases hreply : (s.react r.encode).1 with
    | none => rfl
    | some e => simp [response?_react hreply h.1]

/-- Among the replies, the response to a request is what comes back for it. -/
theorem findSome?_serve {before after : List Request}
    (hbefore : r.id ∉ before.map (·.id)) (hafter : r.id ∉ after.map (·.id)) :
    (s.serve ((before ++ r :: after).map Request.encode)).1.findSome? (Envelope.response? r.id) =
      (s.after before).answer? r := by
  rw [List.map_append, List.map_cons, serve_append, List.findSome?_append,
    findSome?_serve_of_not_mem hbefore, Option.none_or, serve_cons, List.findSome?_append,
    findSome?_serve_of_not_mem hafter, Option.or_none, answer?, Service.after]
  cases (react _ r.encode).1 <;> simp

end Service

/-! ## Steps -/

/-- The near side leaves the ends of the far side alone. -/
theorem Session.Step.farEnds {s s' : Session} {e : Event} (hstep : s.Step e s') :
    s'.link.forth.receiving = s.link.forth.receiving ∧
      s'.link.back.sending = s.link.back.sending := by
  cases hstep with
  | send _ hsend =>
    obtain ⟨-, rfl⟩ := Channel.send?_eq_some.mp hsend
    exact ⟨rfl, rfl⟩
  | receive _ hreceive =>
    obtain ⟨rest, -, rfl⟩ := Channel.receive_eq_item.mp hreceive
    exact ⟨rfl, rfl⟩
  | _ => exact ⟨rfl, rfl⟩

theorem Link.receive_far (l : Link) :
    l.receive .far = (l.forth.receive.1, { l with forth := l.forth.receive.2 }) := rfl

theorem Link.post_far (l : Link) (e : Envelope) :
    l.post .far e = match l.back.send? e with
      | some back => (true, { l with back })
      | none => (false, l) := rfl

theorem Link.drop_far (l : Link) :
    l.drop .far = ⟨l.forth.closeReceiving, l.back.closeSending⟩ := rfl

/-- A session with a listener on its far side. -/
structure Served (σ : Type) where
  session : Session := {}
  service : Service σ
  /-- A reply that is still to be sent. The listener takes nothing from the channel before. -/
  reply : Option Envelope := none

namespace Served

variable {σ : Type}

/-- The connection of a session with the service on its far side. -/
def worker (w : Served σ) : Worker σ := ⟨w.session.connection, w.service⟩

/-- One thing that happens. It is an event on the near side, or something that the listener does. -/
inductive Step (w : Served σ) : List Event → Served σ → Prop
  | near {e : Event} {s : Session} (h : w.session.Step e s) : w.Step [e] { w with session := s }
  -- the listener
  | hear {e : Envelope} {forth : Channel Envelope} (hidle : w.reply = none)
      (hlistening : w.session.link.forth.receiving = true)
      (hreceive : w.session.link.forth.receive = (.item e, forth)) :
    w.Step [] { session := { w.session with link := { w.session.link with forth } },
                service := (w.service.react e).2, reply := (w.service.react e).1 }
  | answer {e : Envelope} {back : Channel Envelope} (hreply : w.reply = some e)
      (hsend : w.session.link.back.send? e = some back) :
    w.Step [] { w with session := { w.session with link := { w.session.link with back } },
                       reply := none }
  | lose {e : Envelope} (hreply : w.reply = some e) (hsend : w.session.link.back.send? e = none) :
    w.Step [] { w with session := { w.session with link := w.session.link.drop .far },
                       reply := none }
  | leave {forth : Channel Envelope} (hidle : w.reply = none)
      (hlistening : w.session.link.forth.receiving = true)
      (hreceive : w.session.link.forth.receive = (.closed, forth)) :
    w.Step [] { w with session := { w.session with link := w.session.link.drop .far } }

/-- What can come of a session with a listener, with what happens on the near side in order. -/
inductive Run (w₀ : Served σ) : List Event → Served σ → Prop
  | start : w₀.Run [] w₀
  | step {es es' : List Event} {w w' : Served σ} (h : w₀.Run es w) (hstep : w.Step es' w') :
    w₀.Run (es ++ es') w'

variable {w w' w₀ : Served σ} {es : List Event}

theorem Run.near {e : Event} {s : Session} (h : w₀.Run es w) (hstep : w.session.Step e s) :
    w₀.Run (es ++ [e]) { w with session := s } := h.step (.near hstep)

theorem Run.trans {es' : List Event} (h : w₀.Run es w) (h' : w.Run es' w') :
    w₀.Run (es ++ es') w' := by
  induction h' with
  | start => rwa [List.append_nil]
  | step _ hstep ih =>
    rw [← List.append_assoc]
    exact ih.step hstep

/-- Something that the listener does. -/
theorem Run.far (h : w₀.Run es w) (hstep : w.Step [] w') : w₀.Run es w' :=
  es.append_nil ▸ h.step hstep

theorem Run.hears {e : Envelope} {rest : List Envelope} {service : Service σ}
    {reply : Option Envelope} (h : w₀.Run es w) (hidle : w.reply = none)
    (hlistening : w.session.link.forth.receiving = true)
    (hqueue : w.session.link.forth.queue = e :: rest) (hreact : w.service.react e = (reply, service)) :
    w₀.Run es ⟨{ w.session with link.forth.queue := rest }, service, reply⟩ := by
  have hheard := h.far (.hear hidle hlistening (Channel.receive_eq_item.mpr ⟨rest, hqueue, rfl⟩))
  rwa [hreact] at hheard

/-- An envelope that the listener answers without interruption, or its end. -/
theorem run_listenOne? {v : Worker σ} (hidle : w.reply = none)
    (hlisten : w.worker.listenOne? = some v) :
    ∃ w', w.Run [] w' ∧ w'.worker = v ∧ w'.reply = none ∧ w'.session.calls = w.session.calls ∧
      w'.session.reader = w.session.reader := by
  unfold Worker.listenOne? at hlisten
  obtain ⟨hlistening, hlisten⟩ := Option.ite_none_right_eq_some.mp hlisten
  cases hreceive : w.session.link.forth.receive with
  | mk reception forth =>
  have hreceive' : w.worker.connection.link.receive .far =
      (reception, { w.session.link with forth }) := by
    show (w.session.link : Link).receive .far = _
    rw [Link.receive_far, hreceive]
  rw [hreceive'] at hlisten
  cases reception with
  | empty => cases hlisten
  | closed =>
    cases hlisten
    obtain ⟨-, -, rfl⟩ := Channel.receive_eq_closed.mp hreceive
    exact ⟨_, Run.start.far (.leave hidle hlistening hreceive), rfl, hidle, rfl, rfl⟩
  | item e =>
    have hheard := Run.start.far (.hear hidle hlistening hreceive)
    cases hreact : w.service.react e with
    | mk reply service =>
    have hreact' : w.worker.service.react e = (reply, service) := hreact
    simp only [hreact'] at hlisten
    rw [hreact] at hheard
    cases reply with
    | none =>
      cases hlisten
      exact ⟨_, hheard, rfl, rfl, rfl, rfl⟩
    | some reply =>
      simp only [Link.post_far] at hlisten
      cases hsend : w.session.link.back.send? reply with
      | some back =>
        simp only [hsend] at hlisten
        cases hlisten
        exact ⟨_, hheard.far (.answer rfl hsend), rfl, rfl, rfl, rfl⟩
      | none =>
        simp only [hsend] at hlisten
        cases hlisten
        exact ⟨_, hheard.far (.lose rfl hsend), rfl, rfl, rfl, rfl⟩

/-! ## The listener as a far side -/

/-- The listener holds both of its ends or neither, and it holds them while it answers. -/
structure Manned (w : Served σ) : Prop where
  ends : w.session.link.forth.receiving = w.session.link.back.sending
  answering : w.reply ≠ none → w.session.link.back.sending = true

theorem Manned.start (service : Service σ) : Manned { service } := ⟨rfl, (absurd rfl ·)⟩

theorem Manned.near {e : Event} {s : Session} (h : w.Manned) (hstep : w.session.Step e s) :
    Manned { w with session := s } := by
  obtain ⟨hforth, hback⟩ := hstep.farEnds
  exact ⟨hforth.trans (h.ends.trans hback.symm), fun hreply => hback.trans (h.answering hreply)⟩

/-- A listener does nothing else than any far side can do. -/
theorem Run.session (h : w₀.Run es w) (h₀ : w₀.Manned) :
    w.Manned ∧ w₀.session.Run es w.session := by
  induction h with
  | start => exact ⟨h₀, .start⟩
  | @step es es' w w' h hstep ih =>
    obtain ⟨hmanned, hrun⟩ := ih
    cases hstep with
    | near hstep => exact ⟨hmanned.near hstep, hrun.near hstep⟩
    | hear hidle hlistening hreceive =>
      rw [List.append_nil]
      have hmove := hrun.far (.take hlistening)
      rw [Link.receive_far, hreceive] at hmove
      obtain ⟨rest, -, rfl⟩ := Channel.receive_eq_item.mp hreceive
      exact ⟨⟨hmanned.ends, fun _ => hmanned.ends.symm.trans hlistening⟩, hmove⟩
    | @answer reply _ hreply hsend =>
      rw [List.append_nil]
      have hsending := hmanned.answering (by rw [hreply]; nofun)
      have hmove := hrun.far (.post reply hsending)
      rw [Link.post_far, hsend] at hmove
      obtain ⟨-, rfl⟩ := Channel.send?_eq_some.mp hsend
      exact ⟨⟨hmanned.ends, absurd rfl⟩, hmove⟩
    | lose hreply _ =>
      rw [List.append_nil]
      exact ⟨⟨rfl, absurd rfl⟩, (hrun.far .stopReceiving).far .stopSending⟩
    | leave hidle _ _ =>
      rw [List.append_nil]
      exact ⟨⟨rfl, (absurd hidle ·)⟩, (hrun.far .stopReceiving).far .stopSending⟩

end Served

end Typestrip.Rpc
