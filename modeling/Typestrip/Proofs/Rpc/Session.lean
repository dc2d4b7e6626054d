import Typestrip.Proofs.Rpc.Caller
import Typestrip.Rpc.Connection

/-!
# What goes on at the same time

A connection is used by any number of threads at once. Each call goes through its stages in a thread
of its own, the reader goes through its own, and the far side does with its end of the link what it
likes. A `Session` is a connection together with how far everyone has got, `Session.Step` one thing
that one of them does to what they share, and `Session.Run` any interleaving of such steps. To take a
number out of the table and to put the result into the mailbox are two steps: others come in between.

A call that nobody interrupts is `Connection.exec` (`Session.run_exec`), and an envelope that the
reader takes without interruption is `Connection.readOne?` (`Session.run_readOne?`).
-/

namespace Typestrip.Rpc

/-! ## Sessions -/

/-- How far a call has got in its thread. -/
inductive Stage where
  /-- It has its number. -/
  | numbered
  /-- Its number is in the table, and its request is to be sent. -/
  | recorded
  /-- Its request could not be sent. -/
  | unsent
  /-- It has taken its number back out of the table, and its result is on the way. -/
  | withdrawn
  /-- It is in the hands of whoever asked for it. -/
  | returned
  deriving DecidableEq, Repr

/-- A call that has been made. -/
structure Ongoing where
  request : Request
  stage : Stage

/-- What the reader is doing. -/
inductive Reader where
  | listening
  /-- It has taken an envelope from the channel. -/
  | holding (e : Envelope)
  /-- It has taken the number of a call out of the table, and the result is on the way. -/
  | resolving (id : UInt64) (r : CallResult)
  /-- It has closed the table, and these calls are still to learn it. -/
  | closing (ids : List UInt64)
  | ended

/-- A connection with all who use it. -/
structure Session where
  caller : Caller := {}
  link : Link := {}
  calls : List Ongoing := []
  reader : Reader := .listening

/-- The connection of a session. -/
def Session.connection (s : Session) : Connection := ⟨s.caller, s.link⟩

/-! ## Steps -/

/-- What happens on the near side. -/
inductive Event where
  /-- A call gets its number. -/
  | issue (r : Request)
  /-- A call gets its result at once, since nobody would answer it. -/
  | refuse (id : UInt64)
  /-- The number of a call goes into the table. -/
  | record (id : UInt64)
  /-- A request is sent. -/
  | send (r : Request)
  /-- The request of a call cannot be sent. -/
  | fail (id : UInt64)
  /-- A call of which the request could not be sent takes its number out of the table. -/
  | withdraw (id : UInt64)
  /-- A call of which the request could not be sent finds that its number has been taken out. -/
  | overtaken (id : UInt64)
  /-- The reader takes an envelope from the channel. -/
  | receive (e : Envelope)
  /-- The reader looks up whose response an envelope is. -/
  | deliver (e : Envelope)
  /-- The reader closes the table, since nothing will come any more. -/
  | close
  /-- The reader ends. -/
  | finish
  /-- A result is put into the mailbox of a call. -/
  | complete (id : UInt64) (r : CallResult)
  /-- Somebody looks for the result of a call. -/
  | look (id : UInt64) (r : Option CallResult)
  /-- The near side hangs up. -/
  | hangUp

/-- What happens of itself: nobody makes a new call, looks for a result or hangs up. -/
def Event.Inner : Event → Prop
  | issue _ | look _ _ | hangUp => False
  | _ => True

/-- What the far side can do with its end of a link. -/
inductive Link.FarMove (l : Link) : Link → Prop
  | post (e : Envelope) (h : l.back.sending = true) : l.FarMove (l.post .far e).2
  | take (h : l.forth.receiving = true) : l.FarMove (l.receive .far).2
  | stopSending : l.FarMove { l with back := l.back.closeSending }
  | stopReceiving : l.FarMove { l with forth := l.forth.closeReceiving }

namespace Session

/-- One thing that somebody on the near side does. The thread that makes a call is given by the place
of the call among all calls. -/
inductive Step (s : Session) : Event → Session → Prop
  -- the thread of a call
  | issue (r : Request) (hid : r.id = s.caller.allocate.1) :
    s.Step (.issue r)
      { s with caller := s.caller.allocate.2, calls := s.calls ++ [⟨r, .numbered⟩] }
  | refuse {i : Nat} {r : Request} (hcall : s.calls[i]? = some ⟨r, .numbered⟩)
      (hnone : s.link.forth.sending = false ∨ s.caller.record? r.id = none) :
    s.Step (.refuse r.id)
      { s with caller := s.caller.settle r.id (.error .disconnected),
               calls := s.calls.set i ⟨r, .returned⟩ }
  | record {i : Nat} {r : Request} {caller : Caller} (hcall : s.calls[i]? = some ⟨r, .numbered⟩)
      (hsending : s.link.forth.sending = true) (hrecord : s.caller.record? r.id = some caller) :
    s.Step (.record r.id) { s with caller, calls := s.calls.set i ⟨r, .recorded⟩ }
  | send {i : Nat} {r : Request} {forth : Channel Envelope}
      (hcall : s.calls[i]? = some ⟨r, .recorded⟩)
      (hsend : s.link.forth.send? r.encode = some forth) :
    s.Step (.send r)
      { s with link := { s.link with forth }, calls := s.calls.set i ⟨r, .returned⟩ }
  | fail {i : Nat} {r : Request} (hcall : s.calls[i]? = some ⟨r, .recorded⟩)
      (hsend : s.link.forth.send? r.encode = none) :
    s.Step (.fail r.id) { s with calls := s.calls.set i ⟨r, .unsent⟩ }
  | withdraw {i : Nat} {r : Request} {pending : Pending}
      (hcall : s.calls[i]? = some ⟨r, .unsent⟩)
      (hremove : s.caller.pending.remove r.id = (true, pending)) :
    s.Step (.withdraw r.id)
      { s with caller := { s.caller with pending }, calls := s.calls.set i ⟨r, .withdrawn⟩ }
  | overtaken {i : Nat} {r : Request} (hcall : s.calls[i]? = some ⟨r, .unsent⟩)
      (hremove : (s.caller.pending.remove r.id).1 = false) :
    s.Step (.overtaken r.id) { s with calls := s.calls.set i ⟨r, .returned⟩ }
  | restore {i : Nat} {r : Request} (hcall : s.calls[i]? = some ⟨r, .withdrawn⟩) :
    s.Step (.complete r.id (.error .disconnected))
      { s with caller := s.caller.deposit r.id (.error .disconnected),
               calls := s.calls.set i ⟨r, .returned⟩ }
  -- the reader
  | receive {e : Envelope} {back : Channel Envelope} (hreader : s.reader = .listening)
      (hreceive : s.link.back.receive = (.item e, back)) :
    s.Step (.receive e) { s with link := { s.link with back }, reader := .holding e }
  | deliver {e : Envelope} {p : Response} {pending : Pending} (hreader : s.reader = .holding e)
      (hdecode : Message.decode e = .ok (.response p))
      (hremove : s.caller.pending.remove p.id = (true, pending)) :
    s.Step (.deliver e)
      { s with caller := { s.caller with pending },
               reader := .resolving p.id (p.outcome.mapError .remote) }
  | pass {e : Envelope} (hreader : s.reader = .holding e)
      (hother : ∀ p, Message.decode e = .ok (.response p) →
        (s.caller.pending.remove p.id).1 = false) :
    s.Step (.deliver e) { s with reader := .listening }
  | resolve {id : UInt64} {r : CallResult} (hreader : s.reader = .resolving id r) :
    s.Step (.complete id r) { s with caller := s.caller.deposit id r, reader := .listening }
  | close {back : Channel Envelope} (hreader : s.reader = .listening)
      (hreceive : s.link.back.receive = (.closed, back)) :
    s.Step .close
      { s with caller := { s.caller with pending := s.caller.pending.close.2 },
               reader := .closing s.caller.pending.close.1 }
  | orphan {ids : List UInt64} {id : UInt64} (hreader : s.reader = .closing ids) (hid : id ∈ ids) :
    s.Step (.complete id (.error .disconnected))
      { s with caller := s.caller.deposit id (.error .disconnected),
               reader := .closing (ids.erase id) }
  | finish (hreader : s.reader = .closing []) :
    s.Step .finish
      { s with link := { s.link with back := s.link.back.closeReceiving }, reader := .ended }
  -- whoever holds a call, and whoever holds the connection
  | look {r : Request} (hcall : ⟨r, .returned⟩ ∈ s.calls) :
    s.Step (.look r.id (s.caller.observe r.id).1) { s with caller := (s.caller.observe r.id).2 }
  | hangUp (hidle : ∀ c ∈ s.calls, c.stage = .returned) :
    s.Step .hangUp { s with link := { s.link with forth := s.link.forth.closeSending } }

/-- What can come of a session, with what happens on the near side in order. -/
inductive Run (s₀ : Session) : List Event → Session → Prop
  | start : s₀.Run [] s₀
  | near {es : List Event} {s s' : Session} {e : Event} (h : s₀.Run es s) (hstep : s.Step e s') :
    s₀.Run (es ++ [e]) s'
  | far {es : List Event} {s : Session} {l : Link} (h : s₀.Run es s) (hmove : s.link.FarMove l) :
    s₀.Run es { s with link := l }

/-- What the near side does while the far side does nothing. -/
inductive Steps (s₀ : Session) : List Event → Session → Prop
  | start : s₀.Steps [] s₀
  | near {es : List Event} {s s' : Session} {e : Event} (h : s₀.Steps es s) (hstep : s.Step e s') :
    s₀.Steps (es ++ [e]) s'

theorem Steps.trans {s₀ s₁ s₂ : Session} {es es' : List Event} (h : s₀.Steps es s₁)
    (h' : s₁.Steps es' s₂) : s₀.Steps (es ++ es') s₂ := by
  induction h' with
  | start => rwa [List.append_nil]
  | near _ hstep ih =>
    rw [← List.append_assoc]
    exact ih.near hstep

theorem Step.steps {s s' : Session} {e : Event} (h : s.Step e s') : s.Steps [e] s' := .near .start h

/-- What is no message is passed over. -/
theorem Step.pass_malformed {s : Session} {e : Envelope} {m : Malformed}
    (hreader : s.reader = .holding e) (hdecode : Message.decode e = .error m) :
    s.Step (.deliver e) { s with reader := .listening } :=
  .pass hreader fun _ hresponse => nomatch hdecode.symm.trans hresponse

end Session

/-! ## Without interruption -/

theorem Channel.receive_eq_closed {α : Type} {c c' : Channel α} :
    c.receive = (.closed, c') ↔ c.queue = [] ∧ c.sending = false ∧ c' = c := by
  unfold receive
  split
  next h => simp [h]
  next h => cases hs : c.sending <;> simp [h, eq_comm]

namespace Connection

variable {c : Connection} {command : String} {args : List Json} {transfer : List Buffer}
  {caller : Caller}

theorem exec_refused (hnone : c.link.forth.sending = false ∨
      c.caller.allocate.2.record? c.caller.nextId = none) :
    c.exec command args transfer = (c.caller.nextId,
      { c with caller := c.caller.allocate.2.settle c.caller.nextId (.error .disconnected) }) := by
  simp only [exec, Caller.allocate] at hnone ⊢
  obtain hsending | hrecord := hnone
  · simp [hsending]
  · simp [hrecord]

theorem exec_sent {forth : Channel Envelope} (hsending : c.link.forth.sending = true)
    (hrecord : c.caller.allocate.2.record? c.caller.nextId = some caller)
    (hsend : c.link.forth.send? (Request.encode ⟨c.caller.nextId, command, args, transfer⟩) =
      some forth) :
    c.exec command args transfer = (c.caller.nextId, ⟨caller, { c.link with forth }⟩) := by
  simp only [exec, Caller.allocate] at hrecord ⊢
  simp [hsending, hrecord, hsend]

theorem exec_unsent (hsending : c.link.forth.sending = true)
    (hrecord : c.caller.allocate.2.record? c.caller.nextId = some caller)
    (hsend : c.link.forth.send? (Request.encode ⟨c.caller.nextId, command, args, transfer⟩) =
      none) :
    c.exec command args transfer = (c.caller.nextId,
      { c with caller := caller.resolve c.caller.nextId (.error .disconnected) }) := by
  simp only [exec, Caller.allocate] at hrecord ⊢
  simp [hsending, hrecord, hsend]

end Connection

namespace Session

/-- A call that nobody interrupts. -/
theorem run_exec (s : Session) (command : String) (args : List Json) (transfer : List Buffer) :
    ∃ s₁ es s', s.Step (.issue ⟨s.caller.nextId, command, args, transfer⟩) s₁ ∧ s₁.Steps es s' ∧
      (∀ e ∈ es, e.Inner) ∧ s'.reader = s.reader ∧
      (s.caller.nextId, s'.connection) = s.connection.exec command args transfer ∧
      s'.calls = s.calls ++ [⟨⟨s.caller.nextId, command, args, transfer⟩, .returned⟩] := by
  let r : Request := ⟨s.caller.nextId, command, args, transfer⟩
  let called (st : Stage) : List Ongoing := s.calls ++ [⟨r, st⟩]
  let s₁ : Session := { s with caller := s.caller.allocate.2, calls := called .numbered }
  have hissue : s.Step (.issue r) s₁ := .issue r rfl
  have hcall (st : Stage) : (called st)[s.calls.length]? = some ⟨r, st⟩ := by simp [called]
  have hset (st st' : Stage) : (called st).set s.calls.length ⟨r, st'⟩ = called st' := by
    simp [called]
  by_cases hnone : s.link.forth.sending = false ∨ s₁.caller.record? r.id = none
  case pos =>
    rw [Connection.exec_refused hnone]
    have hrefused := (Step.refuse (s := s₁) (hcall _) hnone).steps
    exact ⟨_, _, _, hissue, hrefused, by simp [Event.Inner], rfl, rfl, hset _ _⟩
  rw [not_or, Bool.not_eq_false] at hnone
  obtain ⟨caller, hrecord⟩ := Option.ne_none_iff_exists'.mp hnone.2
  have hrecorded := (Step.record (s := s₁) (hcall .numbered) hnone.1 hrecord).steps
  rw [hset] at hrecorded
  cases hsend : s.link.forth.send? r.encode with
  | some forth =>
    rw [Connection.exec_sent hnone.1 hrecord hsend]
    have hsent := hrecorded.near (.send (hcall .recorded) hsend)
    exact ⟨_, _, _, hissue, hsent, by simp [Event.Inner], rfl, rfl, hset _ _⟩
  | none =>
    have hmem : r.id ∈ caller.pending.ids := by
      obtain ⟨-, rfl⟩ := Caller.record?_eq_some.mp hrecord
      exact List.mem_cons_self
    have hunsent := hrecorded.near (.fail (hcall .recorded) hsend)
    rw [hset] at hunsent
    have hwithdrawn := hunsent.near
      (.withdraw (hcall .unsent) (Prod.ext ((Pending.remove_fst _ _).mpr hmem) rfl))
    rw [hset] at hwithdrawn
    have hrestored := hwithdrawn.near (.restore (hcall .withdrawn))
    rw [Connection.exec_unsent hnone.1 hrecord hsend]
    refine ⟨_, _, _, hissue, hrestored, by simp [Event.Inner], rfl, ?_, hset _ _⟩
    show _ = (_, Connection.mk (caller.resolve r.id _) _)
    rw [Caller.resolve_eq, if_pos hmem]
    rfl

/-- The calls that are still to learn that the table has been closed learn it in turn. -/
theorem run_closing (ids : List UInt64) {s : Session} (hreader : s.reader = .closing ids) :
    ∃ es, (∀ e ∈ es, e.Inner) ∧ s.Steps es
      { s with caller := ids.foldl (fun c id => c.deposit id (.error .disconnected)) s.caller,
               reader := .closing [] } := by
  induction ids generalizing s with
  | nil =>
    refine ⟨[], nofun, ?_⟩
    rw [List.foldl_nil, ← hreader]
    exact .start
  | cons id ids ih =>
    have hfirst := Step.orphan hreader List.mem_cons_self
    rw [List.erase_cons_head] at hfirst
    obtain ⟨es, hinner, hrest⟩ :=
      ih (s := { s with caller := s.caller.deposit id _, reader := _ }) rfl
    exact ⟨_, by simpa [Event.Inner] using hinner, hfirst.steps.trans hrest⟩

/-- An envelope that the reader takes without interruption, or its end. -/
theorem run_readOne? {s : Session} {c : Connection} (hreader : s.reader = .listening)
    (hread : s.connection.readOne? = some c) :
    ∃ es s', s.Steps es s' ∧ (∀ e ∈ es, e.Inner) ∧ s'.connection = c ∧ s'.calls = s.calls ∧
      (s'.reader = .listening ∨ s'.reader = .ended ∧ s'.link.back.receiving = false) := by
  unfold Connection.readOne? at hread
  obtain ⟨-, hread⟩ := Option.ite_none_right_eq_some.mp hread
  cases hreceive : s.link.back.receive with
  | mk reception back =>
  have hreceive' : s.connection.link.back.receive = (reception, back) := hreceive
  rw [hreceive'] at hread
  cases reception with
  | empty => cases hread
  | item e =>
    cases hread
    have hholding := (Step.receive hreader hreceive).steps
    by_cases hown : ∃ p, Message.decode e = .ok (.response p) ∧ p.id ∈ s.caller.pending.ids
    case pos =>
      obtain ⟨p, hdecode, hmem⟩ := hown
      have hresolving := hholding.near
        (.deliver rfl hdecode (Prod.ext ((Pending.remove_fst _ _).mpr hmem) rfl))
      refine ⟨_, _, hresolving.near (.resolve rfl), by simp [Event.Inner], ?_, rfl, .inl rfl⟩
      show _ = Connection.mk (s.caller.accept e) _
      rw [Caller.accept_of_response hdecode, Caller.resolve_eq, if_pos hmem]
      rfl
    case neg =>
      have hunknown : ∀ p, Message.decode e = .ok (.response p) → p.id ∉ s.caller.pending.ids :=
        fun p hdecode hmem => hown ⟨p, hdecode, hmem⟩
      refine ⟨_, _, hholding.near (.pass rfl ?_), by simp [Event.Inner], ?_, rfl, .inl rfl⟩
      · exact fun p hdecode => Bool.eq_false_iff.mpr
          (mt (Pending.remove_fst _ _).mp (hunknown p hdecode))
      · show _ = Connection.mk (s.caller.accept e) _
        rw [Caller.accept_of_unknown hunknown]
        rfl
  | closed =>
    cases hread
    have hclosing := (Step.close hreader hreceive).steps
    obtain ⟨es, hinner, htold⟩ := run_closing s.caller.pending.close.1 (s := { s with
      caller := { s.caller with pending := s.caller.pending.close.2 }, reader := .closing _ }) rfl
    refine ⟨_, _, (hclosing.trans htold).near (.finish rfl), ?_, ?_, rfl, .inr ⟨rfl, rfl⟩⟩
    · simpa [Event.Inner, or_imp, forall_and] using hinner
    show Connection.mk _ _ = Connection.mk s.caller.close _
    rw [Caller.close_eq]
    rw [(Channel.receive_eq_closed.mp hreceive).2.2]
    rfl

end Session

end Typestrip.Rpc
