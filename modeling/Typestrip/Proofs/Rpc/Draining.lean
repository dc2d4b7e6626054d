import Typestrip.Proofs.Rpc.Progress
import Typestrip.Proofs.Rpc.Results
import Typestrip.Rpc.Context

/-!
# Hanging up

Whoever terminates a connection hangs up and waits until the listener and then the reader have ended.
At that moment requests and replies may be under way, and the reader may be busy; none of it is lost.
The listener ends when it has answered all that was sent, and the reader when it has taken all replies.

So when the reader has ended, every call that was made before has been completed, in the order in
which the requests were sent, with what came of its own request (`Served.Run.drains`). That it does
end is part of the statement. Calls that are made later are refused.

`Worker.terminate` is one such course of events (`Served.run_terminate`).
-/

namespace Typestrip.Rpc

/-- Whoever takes the near side of a listener that has been started gets a session at its beginning. -/
theorem Context.wrap_start {σ : Type} (name : String) (service : Service σ) :
    (start name service).wrap = .ok (Served.worker { service }) := rfl

/-! ## Calls that have been made -/

/-- The request of a call that gets its number. -/
def Event.issued? : Event → Option Request
  | issue r => some r
  | _ => none

/-- The requests of the calls that have been made. -/
def issued (es : List Event) : List Request := es.filterMap Event.issued?

namespace Session

variable {s s' : Session} {es : List Event} {e : Event}

/-- The requests of all calls. -/
def requests (s : Session) : List Request := s.calls.map (·.request)

theorem Step.requests_eq (hstep : s.Step e s') : s'.requests = s.requests ++ e.issued?.toList := by
  cases hstep with
  | issue r => exact List.map_append
  | refuse hcall | record hcall | send hcall | fail hcall | withdraw hcall | overtaken hcall
  | restore hcall => exact (map_request_set id hcall _).trans (List.append_nil _).symm
  | _ => exact (List.append_nil _).symm

theorem Run.requests_eq (h : Run {} es s) : s.requests = issued es := by
  induction h with
  | start => rfl
  | @near es s s' e _ hstep ih =>
    rw [hstep.requests_eq, ih, issued, issued, List.filterMap_append]
    cases h : e.issued? <;> simp [h]
  | far _ _ ih => exact ih

/-! ## After hanging up -/

/-- A session that has hung up when all calls had returned, with what has happened since. -/
structure HungUp (s : Session) (es : List Event) : Prop where
  hung : s.link.forth.sending = false
  calls : ∀ c ∈ s.calls, c.stage = .numbered ∨ c.stage = .returned
  unsent : ∀ e ∈ es, e.request? = none
  unrecorded : ∀ e ∈ es, ∀ id, e ≠ .record id

theorem Step.hungUp_start (hstep : s.Step .hangUp s') : s'.HungUp [] := by
  cases hstep with
  | hangUp hidle => exact ⟨rfl, fun c hc => .inr (hidle c hc), nofun, nofun⟩

theorem Step.hungUp (hstep : s.Step e s') (h : s.HungUp es) : s'.HungUp (es ++ [e]) := by
  have hkeep {s' : Session} (hhung : s'.link.forth.sending = false)
      (hcalls : ∀ c ∈ s'.calls, c.stage = .numbered ∨ c.stage = .returned)
      (hunsent : e.request? = none) (hunrecorded : ∀ id, e ≠ .record id) :
      s'.HungUp (es ++ [e]) := by
    refine ⟨hhung, hcalls, ?_, ?_⟩
    · exact List.forall_mem_append.mpr ⟨h.unsent, List.forall_mem_singleton.mpr hunsent⟩
    · exact List.forall_mem_append.mpr ⟨h.unrecorded, List.forall_mem_singleton.mpr hunrecorded⟩
  have hbegun {i : Nat} {c : Ongoing} (hcall : s.calls[i]? = some c)
      (hnumbered : c.stage ≠ .numbered) (hreturned : c.stage ≠ .returned) : s'.HungUp (es ++ [e]) :=
    ((h.calls c (List.mem_of_getElem? hcall)).elim hnumbered hreturned).elim
  cases hstep with
  | issue r =>
    refine hkeep h.hung ?_ rfl nofun
    exact List.forall_mem_append.mpr ⟨h.calls, List.forall_mem_singleton.mpr (.inl rfl)⟩
  | refuse hcall _ =>
    refine hkeep h.hung ?_ rfl nofun
    intro c hc
    rcases List.mem_or_eq_of_mem_set hc with hc | rfl
    · exact h.calls c hc
    · exact .inr rfl
  | record _ hsending _ => cases h.hung.symm.trans hsending
  | send hcall | fail hcall => exact hbegun hcall nofun nofun
  | withdraw hcall | overtaken hcall => exact hbegun hcall nofun nofun
  | restore hcall => exact hbegun hcall nofun nofun
  | hangUp _ => exact hkeep rfl h.calls rfl nofun
  | receive | deliver | pass | resolve | close | orphan | finish | look =>
    exact hkeep h.hung h.calls rfl nofun

theorem HungUp.sent_eq (h : s.HungUp es) : sent es = [] :=
  List.filterMap_eq_nil_iff.mpr h.unsent

end Session

namespace Served

variable {σ : Type} {w w' w₀ : Served σ} {service : Service σ} {es es' : List Event}

theorem Run.hungUp (h : w₀.Run es w) (h₀ : w₀.session.HungUp es') :
    w.session.HungUp (es' ++ es) := by
  induction h with
  | start => rwa [List.append_nil]
  | step _ hstep ih =>
    rw [← List.append_assoc]
    cases hstep with
    | near hstep => exact hstep.hungUp ih
    | hear _ _ hreceive =>
      obtain ⟨rest, -, rfl⟩ := Channel.receive_eq_item.mp hreceive
      rw [List.append_nil]
      exact ⟨ih.hung, ih.calls, ih.unsent, ih.unrecorded⟩
    | answer | lose | leave =>
      rw [List.append_nil]
      exact ⟨ih.hung, ih.calls, ih.unsent, ih.unrecorded⟩

/-- A number that is not shared has not been shared before. -/
theorem Run.unshared {id : UInt64} (h : w₀.Run es w) (hone : w.session.Unshared id) :
    w₀.session.Unshared id := by
  induction h with
  | start => exact hone
  | step _ hstep ih =>
    cases hstep with
    | near hstep => exact ih (hstep.unshared hone)
    | hear | answer | lose | leave => exact ih hone

/-! ## Coming to an end -/

/-- A session that has hung up is at rest only when listener and reader have ended. -/
theorem Rests.ended (hrests : w.Rests) (h : Run { service } es w)
    (hhung : w.session.link.forth.sending = false) : w.session.reader = .ended := by
  obtain ⟨log, htracked⟩ := h.tracked
  rcases hrests.reader with ⟨-, -, hsending⟩ | hended
  · have hlistening := htracked.run.accounts.ends.trans hsending
    cases hhung.symm.trans (hrests.listener.2 hlistening).2
  · exact hended

/-- Whoever hangs up and waits for the listener and the reader, without interruption, sees both
end. -/
theorem run_terminate {s : Session} (h : Run { service } es w) (hidle : w.reply = none)
    (hreader : w.session.reader = .listening) (hstep : w.session.Step .hangUp s) :
    ∃ es' w', Run { w with session := s } es' w' ∧ (∀ e ∈ es', e.Inner) ∧
      w'.worker = w.worker.terminate ∧ w'.session.calls = w.session.calls ∧
      w'.session.reader = .ended := by
  have hcalls : s.calls = w.session.calls := by
    cases hstep with
    | hangUp => rfl
  have hreader' : s.reader = .listening := by
    cases hstep with
    | hangUp => exact hreader
  have hworker : worker { w with session := s } =
      { w.worker with connection := w.worker.connection.hangUp } := by
    cases hstep with
    | hangUp => rfl
  obtain ⟨es', w', hrun, hinner, hsettle, -, hcalls', hforth, hback, hended⟩ :=
    run_settle (w := { w with session := s }) hidle hreader'
  refine ⟨es', w', hrun, hinner, ?_, hcalls'.trans hcalls, ?_⟩
  · rw [hsettle, hworker]
    rfl
  obtain ⟨log, htracked⟩ := ((h.near hstep).trans hrun).tracked
  have hhung := (hrun.hungUp hstep.hungUp_start).hung
  rcases hended with hlistening | ⟨hended, -⟩
  · -- the reader would still be listening to a listener that has nothing to wait for
    have hopen : w'.session.link.back.receiving = true := htracked.taking (by rw [hlistening]; rfl)
    have hmanned := htracked.run.accounts.ends.trans (hback hopen).2
    cases hhung.symm.trans (hforth hmanned).2
  · exact hended

/-- A call of a session that has hung up is refused at once. -/
theorem exec_hungUp {c : Connection} (hhung : c.link.forth.sending = false) (command : String)
    (args : List Json) (transfer : List Buffer) :
    (c.exec command args transfer).2.caller.pending = c.caller.pending ∧
      (c.exec command args transfer).2.caller.mailbox? (c.exec command args transfer).1 =
        some (.holding (.error .disconnected)) := by
  rw [Connection.exec_refused (.inl hhung)]
  refine ⟨rfl, ?_⟩
  show (c.caller.allocate.2.settle c.caller.nextId _).mailbox? c.caller.nextId = _
  rw [Caller.mailbox?_settle, if_pos rfl]

/-- If nobody has hung up before, the calls that have been made by the time all have returned are those
whose requests have been sent. -/
theorem Run.sent_perm_issued (h : Run { service } es w) (hlive : .hangUp ∉ es)
    (hone : ∀ id, w.session.Unshared id) (hidle : ∀ c ∈ w.session.calls, c.stage = .returned) :
    (sent es).Perm (issued es) := by
  have hledger := (h.orderly hlive hone).ledger
  have hrequests := (h.session (.start service)).2.requests_eq
  have hissued : (issued es).Nodup := by
    refine List.Nodup.of_map (·.id) ?_
    rw [← hrequests, Session.requests, List.map_map]
    exact List.nodup_iff_count_le_one.mpr hone
  refine (List.perm_ext_iff_of_nodup (.of_map _ hledger.distinct) hissued).mpr ?_
  intro r
  rw [hledger.sent_iff, ← hrequests, Session.requests, List.mem_map]
  constructor
  · exact fun hr => ⟨_, hr, rfl⟩
  · rintro ⟨⟨r, st⟩, hc, rfl⟩
    cases hidle _ hc
    exact hc

/-- Whatever is under way when somebody hangs up, and however things go on, listener and reader come to
an end after finitely many steps. When they have ended, the calls that had been made before have been
completed in the order in which their requests were sent, each with what came of its own request in the
state that the requests before had left; no call waits; and no call that is made later is recorded, but
each gets to know that it is disconnected. -/
theorem Run.drains {s : Session} (h : Run { service } es w) (hlive : .hangUp ∉ es)
    (hstep : w.session.Step .hangUp s) (h' : Run { w with session := s } es' w')
    (hcount : w'.session.calls.length < 2 ^ 64) (hreadable : service.Readable (sent es)) :
    Acc (fun v u : Served σ => u.InnerStep v) w' ∧
    (w'.Rests → w'.session.reader = .ended ∧ ∀ c ∈ w'.session.calls, c.stage = .returned) ∧
    (w'.session.reader = .ended →
      (sent es).Perm (issued es) ∧ ((sent es).map (·.id)).Nodup ∧
      completed (es ++ .hangUp :: es') = service.results (sent es) ∧
      (∀ x ∈ service.results (sent es), w'.session.Holds (es ++ .hangUp :: es') x.1 x.2) ∧
      w'.session.caller.pending = ⟨[], true⟩ ∧
      (∀ id, .record id ∉ es') ∧
      (∀ r ∈ issued es', ⟨r, .returned⟩ ∈ w'.session.calls →
        w'.session.Holds (es ++ .hangUp :: es') r.id (.error .disconnected)) ∧
      ∀ command args transfer,
        let (id, c) := w'.session.connection.exec command args transfer
        c.caller.pending = ⟨[], true⟩ ∧
          c.caller.mailbox? id = some (.holding (.error .disconnected))) := by
  have hidle : ∀ c ∈ w.session.calls, c.stage = .returned := by
    cases hstep with
    | hangUp hidle => exact hidle
  have hwhole : Run { service } (es ++ .hangUp :: es') w' := by
    rw [List.append_cons]
    exact (h.near hstep).trans h'
  have hhungUp : w'.session.HungUp es' := h'.hungUp hstep.hungUp_start
  obtain ⟨-, hrun⟩ := hwhole.session (.start service)
  have hone : ∀ id, w'.session.Unshared id := hrun.unshared hcount
  have hone' : ∀ id, w.session.Unshared id := by
    intro id
    exact hstep.unshared (h'.unshared (hone id))
  have hsent : sent (es ++ .hangUp :: es') = sent es := by
    rw [sent, List.filterMap_append, List.filterMap_cons_none rfl]
    show _ ++ sent es' = _
    rw [hhungUp.sent_eq, List.append_nil]
    rfl
  have hregistered := hwhole.registered hone
  have hperm := h.sent_perm_issued hlive hone' hidle
  refine ⟨wellFounded_inner.apply w', fun hrests =>
    ⟨hrests.ended hwhole hhungUp.hung, hrests.returned⟩, fun hended => ?_⟩
  have hcompleted := hwhole.completed_eq_results hone (hsent ▸ hreadable)
    (.inl (by rw [hended]; rfl))
  rw [hsent] at hcompleted
  have hpending : w'.session.caller.pending = ⟨[], true⟩ := by
    have htidy := hrun.tidy .start
    have hclosed : w'.session.caller.pending.closed = true := by
      rw [htidy.closed, hended]
      rfl
    exact congr (congrArg Pending.mk (htidy.empty hclosed)) hclosed
  refine ⟨hperm, hsent ▸ hregistered.distinct, hcompleted, ?_, hpending, ?_, ?_, ?_⟩
  · rintro ⟨id, r⟩ hx
    rw [← hcompleted] at hx
    exact hrun.holds_of_completion (hone id) (mem_completions_of_completed hx)
  · exact fun id hmem => hhungUp.unrecorded _ hmem id rfl
  · intro r hr hreturned
    rcases hregistered.returned r hreturned with hr' | hr'
    · -- a request that has been sent has been issued before, and its number would occur twice
      rw [hsent, hperm.mem_iff] at hr'
      have hdistinct : ((issued es ++ issued es').map (·.id)).Nodup := by
        have hissued : issued (es ++ .hangUp :: es') = issued es ++ issued es' := by
          rw [issued, List.filterMap_append, List.filterMap_cons_none rfl]
          rfl
        rw [← hissued, ← hrun.requests_eq, Session.requests, List.map_map]
        exact List.nodup_iff_count_le_one.mpr hone
      rw [List.map_append, List.nodup_append] at hdistinct
      exact absurd rfl (hdistinct.2.2 r.id (List.mem_map.mpr ⟨r, hr', rfl⟩) r.id
        (List.mem_map.mpr ⟨r, hr, rfl⟩))
    · exact hrun.holds_of_completion (hone r.id) (mem_completions_of_refuse hr')
  · intro command args transfer
    obtain ⟨hsame, hrefused⟩ := exec_hungUp (c := w'.session.connection) hhungUp.hung command args
      transfer
    exact ⟨hsame.trans hpending, hrefused⟩

/-! Two calls have been made of a service that counts, and neither has been heard when the near side
hangs up. -/

open Listener (plain tally)

def counting : List Event :=
  [.issue (plain 1 "add"), .issue (plain 2 "burst"), .record 1, .record 2, .send (plain 1 "add"),
    .send (plain 2 "burst")]

def waiting : Session where
  caller := ⟨3, ⟨[2, 1], false⟩, [(2, .waiting), (1, .waiting)]⟩
  link := { forth := { queue := [(plain 1 "add").encode, (plain 2 "burst").encode] } }
  calls := [⟨plain 1 "add", .returned⟩, ⟨plain 2 "burst", .returned⟩]

def hungUp : Session := { waiting with link.forth.sending := false }

theorem run_counting : Run { service := tally 0 } counting { session := waiting, service := tally 0 } := by
  have hstart : Run { service := tally 0 } [] { service := tally 0 } := .start
  have hissued := (hstart.near (.issue (plain 1 "add") rfl)).near (.issue (plain 2 "burst") rfl)
  have hrecorded := (hissued.near (.record (i := 0) (r := plain 1 "add") rfl rfl rfl)).near
    (.record (i := 1) (r := plain 2 "burst") rfl rfl rfl)
  exact (hrecorded.near (.send (i := 0) (r := plain 1 "add") rfl rfl)).near
    (.send (i := 1) (r := plain 2 "burst") rfl rfl)

theorem outcome_add (id : UInt64) (n : Nat) :
    (tally n).outcome (plain id "add") = .ok (.ofNat (n + 1)) :=
  congrArg Prod.fst (Service.yields_iff.mp (Listener.yields_add n))

theorem outcome_burst (id : UInt64) (n : Nat) :
    (tally n).outcome (plain id "burst") = .error ⟨"Panic", "handler panicked"⟩ :=
  congrArg Prod.fst (Service.yields_iff.mp (Listener.yields_burst n))

theorem invoke_add (id : UInt64) (n : Nat) :
    ((tally n).invoke (plain id "add").command ⟨(plain id "add").args, (plain id "add").transfer⟩).2 =
      tally (n + 1) :=
  congrArg Prod.snd (Service.yields_iff.mp (Listener.yields_add n))

theorem results_counting : (tally 0).results (sent counting) =
    [(1, .ok (.ofNat 1)), (2, .error (.remote ⟨"Panic", "handler panicked"⟩))] := by
  show (tally 0).results [plain 1 "add", plain 2 "burst"] = _
  rw [Service.results, Service.results, Service.results, outcome_add, invoke_add, outcome_burst]
  rfl

theorem readable_counting : (tally 0).Readable (sent counting) := by
  have hrequest (id : UInt64) (command : String) : (plain id command).Faithful :=
    ⟨nofun, Nat.two_pow_pos 64⟩
  have hdepth (id : UInt64) (command : String) : (plain id command).depth ≤ Json.maxDepth := by
    rw [show (plain id command).depth = 1 from rfl]
    decide
  show (tally 0).Readable [plain 1 "add", plain 2 "burst"]
  refine .cons (hrequest _ _) (hdepth _ _) ?_ ?_ (.cons (hrequest _ _) (hdepth _ _) ?_ ?_ (.nil _))
  · rw [outcome_add]
    rintro j ⟨⟩
    exact Json.faithful_int (by decide) (by decide)
  · rw [outcome_add]
    decide
  · rw [invoke_add, outcome_burst]
    nofun
  · rw [invoke_add, outcome_burst, Response.depth_failure]
    decide

/-- Both get their results, and a call that comes later is refused. -/
theorem drains_counting :
    ∃ es' w', .hangUp ∉ counting ∧ waiting.Step .hangUp hungUp ∧
      Run { session := hungUp, service := tally 0 } es' w' ∧ w'.session.reader = .ended ∧
      completed (counting ++ .hangUp :: es') =
        [(1, .ok (.ofNat 1)), (2, .error (.remote ⟨"Panic", "handler panicked"⟩))] ∧
      w'.session.caller.pending = ⟨[], true⟩ ∧
      (w'.session.connection.exec "add" [] []).2.caller.mailbox?
        (w'.session.connection.exec "add" [] []).1 = some (.holding (.error .disconnected)) := by
  have hlive : .hangUp ∉ counting := by simp [counting]
  have hstep : waiting.Step .hangUp hungUp := .hangUp (by simp [waiting])
  obtain ⟨es', w', hrun, -, -, hcalls, hended⟩ := run_terminate run_counting rfl rfl hstep
  have hcalls : w'.session.calls.length < 2 ^ 64 := by
    rw [hcalls, show waiting.calls.length = 2 from rfl]
    decide
  obtain ⟨-, -, hdrained⟩ := Run.drains run_counting hlive hstep hrun hcalls readable_counting
  obtain ⟨-, -, hcompleted, -, hpending, -, -, hlate⟩ := hdrained hended
  exact ⟨es', w', hlive, hstep, hrun, hended, hcompleted.trans results_counting, hpending,
    (hlate "add" [] []).2⟩

end Served

end Typestrip.Rpc
