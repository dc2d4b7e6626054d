import Typestrip.Proofs.Rpc.Listening

/-!
# The listener

A listener answers the requests that come to it, one after the other, whoever is on the near side. The
near side sends what it likes, takes replies when it likes, and gives up its ends when it likes.
`Listener.Step` is one thing that one of the two does to the link, and `Listener.Run` any interleaving
of such steps.

What the replies have to be is said by `Service.Answered`, without recourse to what the service runs:
one response to each request, with its number and what comes of it in the state that the requests
before have left (`Service.Yields`), and nothing to anything else. Whatever a listener has heard, it
has answered so, and it ends only because the near side has given up an end
(`Listener.Run.answers_requests`).
-/

namespace Typestrip.Rpc

/-! ## What the replies have to be -/

namespace Service

variable {σ : Type} {s s' : Service σ} {command : String} {c : Call} {es replies : List Envelope}

/-- What comes of a call, with the state that it leaves behind. -/
inductive Yields (s : Service σ) (command : String) (c : Call) : Except Failure Json → σ → Prop
  | result {h : Handler σ} {j : Json} {state : σ}
      (hfind : Fields.find? command s.handlers = some h)
      (hcall : h c s.state = (.result j, state)) : s.Yields command c (.ok j) state
  | failure {h : Handler σ} {f : Failure} {state : σ}
      (hfind : Fields.find? command s.handlers = some h)
      (hcall : h c s.state = (.failure f, state)) : s.Yields command c (.error f) state
  | panic {h : Handler σ} {message : String} {state : σ}
      (hfind : Fields.find? command s.handlers = some h)
      (hcall : h c s.state = (.panic (some message), state)) :
    s.Yields command c (.error ⟨"Panic", message⟩) state
  | wordlessPanic {h : Handler σ} {state : σ}
      (hfind : Fields.find? command s.handlers = some h)
      (hcall : h c s.state = (.panic none, state)) :
    s.Yields command c (.error ⟨"Panic", "handler panicked"⟩) state
  | unknown (hfind : Fields.find? command s.handlers = none) :
    s.Yields command c
      (.error ⟨"UnknownCommand", "no handler for command '" ++ command ++ "'"⟩) s.state

theorem yields_iff {outcome : Except Failure Json} {state : σ} :
    s.Yields command c outcome state ↔ s.invoke command c = (outcome, { s with state }) := by
  constructor
  · intro h
    cases h with
    | result hfind hcall | failure hfind hcall | panic hfind hcall | wordlessPanic hfind hcall =>
      rw [invoke, hfind]
      simp only [hcall]
      rfl
    | unknown hfind =>
      rw [invoke, hfind]
      rfl
  · intro h
    unfold invoke at h
    split at h
    next handler hfind =>
      cases hcall : handler c s.state with
      | mk reaction after =>
      rw [hcall] at h
      cases h
      cases reaction with
      | result j => exact .result hfind hcall
      | failure f => exact .failure hfind hcall
      | panic message =>
        cases message with
        | some message => exact .panic hfind hcall
        | none => exact .wordlessPanic hfind hcall
    next hfind =>
      obtain ⟨rfl, hstate⟩ := Prod.mk.inj h
      obtain rfl : s.state = state := congrArg Service.state hstate
      exact .unknown hfind

/-- What has to be replied to envelopes, with the service that is left: one response to each request,
and nothing to a response or to what is no message. -/
inductive Answered : Service σ → List Envelope → List Envelope → Service σ → Prop
  | nil (s : Service σ) : s.Answered [] [] s
  | request {s s' : Service σ} {e : Envelope} {es replies : List Envelope} {r : Request}
      {outcome : Except Failure Json} {state : σ} (hdecode : Message.decode e = .ok (.request r))
      (hyields : s.Yields r.command ⟨r.args, r.transfer⟩ outcome state)
      (hrest : Answered { s with state } es replies s') :
    s.Answered (e :: es) (Response.encode ⟨r.id, outcome⟩ :: replies) s'
  | response {s s' : Service σ} {e : Envelope} {es replies : List Envelope} {p : Response}
      (hdecode : Message.decode e = .ok (.response p)) (hrest : s.Answered es replies s') :
    s.Answered (e :: es) replies s'
  | malformed {s s' : Service σ} {e : Envelope} {es replies : List Envelope} {m : Malformed}
      (hdecode : Message.decode e = .error m) (hrest : s.Answered es replies s') :
    s.Answered (e :: es) replies s'

theorem Answered.serve (h : s.Answered es replies s') : s.serve es = (replies, s') := by
  induction h with
  | nil => rfl
  | request hdecode hyields _ ih =>
    rw [serve_cons, react, hdecode]
    simp only [yields_iff.mp hyields, ih]
    rfl
  | response hdecode _ ih | malformed hdecode _ ih =>
    rw [serve_cons, react, hdecode]
    simp only [ih]
    rfl

theorem answered_serve (s : Service σ) (es : List Envelope) :
    s.Answered es (s.serve es).1 (s.serve es).2 := by
  induction es generalizing s with
  | nil => exact .nil s
  | cons e es ih =>
    rw [serve_cons]
    unfold react
    split
    next r hdecode =>
      have hkept := handlers_invoke s r.command ⟨r.args, r.transfer⟩
      cases hinvoke : s.invoke r.command ⟨r.args, r.transfer⟩ with
      | mk outcome after =>
      rw [hinvoke] at hkept
      obtain ⟨handlers, state⟩ := after
      obtain rfl : handlers = s.handlers := hkept
      exact .request hdecode (yields_iff.mpr hinvoke) (ih _)
    next hother =>
      cases hdecode : Message.decode e with
      | error m => exact .malformed hdecode (ih s)
      | ok message =>
        cases message with
        | response p => exact .response hdecode (ih s)
        | request r => exact absurd hdecode (hother r)

/-- A service replies what has to be replied, and nothing else will do. -/
theorem answered_iff : s.Answered es replies s' ↔ s.serve es = (replies, s') := by
  refine ⟨Answered.serve, fun h => ?_⟩
  have hserve := answered_serve s es
  rwa [h] at hserve

end Service

/-! ## Steps -/

/-- A listener on the far side of a link. -/
structure Listener (σ : Type) where
  link : Link := {}
  service : Service σ
  /-- A reply that is still to be sent. -/
  reply : Option Envelope := none

namespace Listener

/-- A point that an envelope passes. -/
inductive Point where
  /-- The near side has sent it. -/
  | sent
  /-- The listener has taken it from the channel. -/
  | heard
  /-- The listener has sent it. -/
  | posted
  /-- The listener could not send it, and has ended. -/
  | lost
  /-- The near side has taken it from the channel. -/
  | collected
  deriving DecidableEq

/-- What happens on a link with a listener. -/
inductive Happening where
  | passed (p : Point) (e : Envelope)
  /-- The listener ends, since nothing will come any more. -/
  | left
  /-- The near side gives up an end. -/
  | gaveUp

/-- What has passed a point, in order. -/
def past (p : Point) (log : List Happening) : List Envelope :=
  log.filterMap fun
    | .passed q e => if q = p then some e else none
    | _ => none

@[simp]
theorem past_append (p : Point) (log log' : List Happening) :
    past p (log ++ log') = past p log ++ past p log' := List.filterMap_append

@[simp]
theorem past_nil (p : Point) : past p [] = [] := rfl

@[simp]
theorem past_passed (p q : Point) (e : Envelope) (log : List Happening) :
    past p (.passed q e :: log) = (if q = p then [e] else []) ++ past p log := by
  by_cases h : q = p <;> simp [past, h]

@[simp]
theorem past_map (p q : Point) (es : List Envelope) :
    past p (es.map (.passed q)) = if q = p then es else [] := by
  induction es with
  | nil => simp
  | cons e es ih =>
    rw [List.map_cons, past_passed, ih]
    split <;> rfl

@[simp]
theorem past_left (p : Point) (log : List Happening) : past p (.left :: log) = past p log := rfl

@[simp]
theorem past_gaveUp (p : Point) (log : List Happening) : past p (.gaveUp :: log) = past p log := rfl

variable {σ : Type} {w w' w₀ : Listener σ} {log log' : List Happening} {service : Service σ}

/-- One thing that happens on a link with a listener. -/
inductive Step (w : Listener σ) : Happening → Listener σ → Prop
  -- the near side
  | arrive {e : Envelope} {forth : Channel Envelope} (hsend : w.link.forth.send? e = some forth) :
    w.Step (.passed .sent e) { w with link := { w.link with forth } }
  | collect {e : Envelope} {back : Channel Envelope}
      (hreceive : w.link.back.receive = (.item e, back)) :
    w.Step (.passed .collected e) { w with link := { w.link with back } }
  | hangUp : w.Step .gaveUp { w with link := { w.link with forth := w.link.forth.closeSending } }
  | turnAway : w.Step .gaveUp { w with link := { w.link with back := w.link.back.closeReceiving } }
  -- the listener
  | hear {e : Envelope} {forth : Channel Envelope} (hidle : w.reply = none)
      (hlistening : w.link.forth.receiving = true)
      (hreceive : w.link.forth.receive = (.item e, forth)) :
    w.Step (.passed .heard e)
      ⟨{ w.link with forth }, (w.service.react e).2, (w.service.react e).1⟩
  | answer {e : Envelope} {back : Channel Envelope} (hreply : w.reply = some e)
      (hsend : w.link.back.send? e = some back) :
    w.Step (.passed .posted e) { w with link := { w.link with back }, reply := none }
  | lose {e : Envelope} (hreply : w.reply = some e) (hsend : w.link.back.send? e = none) :
    w.Step (.passed .lost e) { w with link := w.link.drop .far, reply := none }
  | leave {forth : Channel Envelope} (hidle : w.reply = none)
      (hlistening : w.link.forth.receiving = true)
      (hreceive : w.link.forth.receive = (.closed, forth)) :
    w.Step .left { w with link := w.link.drop .far }

/-- What can come of a link with a listener, with what happens in order. -/
inductive Run (w₀ : Listener σ) : List Happening → Listener σ → Prop
  | start : w₀.Run [] w₀
  | step {log : List Happening} {w w' : Listener σ} {a : Happening} (h : w₀.Run log w)
      (hstep : w.Step a w') : w₀.Run (log ++ [a]) w'

theorem Run.trans (h : w₀.Run log w) (h' : w.Run log' w') : w₀.Run (log ++ log') w' := by
  induction h' with
  | start => rwa [List.append_nil]
  | step _ hstep ih =>
    rw [← List.append_assoc]
    exact ih.step hstep

/-! ## Accounts -/

/-- Where everything that has been sent has got to. -/
structure Accounts (service : Service σ) (log : List Happening) (w : Listener σ) : Prop where
  answered : service.Answered (past .heard log)
    (past .posted log ++ past .lost log ++ w.reply.toList) w.service
  forth : w.link.forth.receiving = true → past .sent log = past .heard log ++ w.link.forth.queue
  back : w.link.back.receiving = true →
    past .posted log = past .collected log ++ w.link.back.queue
  ends : w.link.forth.receiving = w.link.back.sending
  listening : w.link.forth.receiving = true → past .lost log = []
  ended : w.link.forth.receiving = false → w.reply = none ∧
    (w.link.forth.sending = false ∧ past .heard log = past .sent log ∧ past .lost log = [] ∨
      w.link.back.receiving = false ∧ (past .lost log).length ≤ 1)

theorem Accounts.start (service : Service σ) : Accounts service [] { service } where
  answered := .nil service
  forth := fun _ => rfl
  back := fun _ => rfl
  ends := rfl
  listening := fun _ => rfl
  ended := nofun

theorem Accounts.step {a : Happening} (h : w.Accounts service log) (hstep : w.Step a w') :
    w'.Accounts service (log ++ [a]) := by
  cases hstep with
  | arrive hsend =>
    obtain ⟨hreceiving, rfl⟩ := Channel.send?_eq_some.mp hsend
    exact {
      answered := by simpa using h.answered
      forth := fun _ => by simp [h.forth hreceiving]
      back := by simpa using h.back
      ends := h.ends
      listening := by simpa using h.listening
      ended := fun hgone => nomatch hreceiving.symm.trans hgone }
  | collect hreceive =>
    obtain ⟨rest, hqueue, rfl⟩ := Channel.receive_eq_item.mp hreceive
    exact {
      answered := by simpa using h.answered
      forth := by simpa using h.forth
      back := fun hback => by simp [h.back hback, hqueue]
      ends := h.ends
      listening := by simpa using h.listening
      ended := by simpa using h.ended }
  | hangUp =>
    exact {
      answered := by simpa using h.answered
      forth := by simpa [Channel.closeSending] using h.forth
      back := by simpa using h.back
      ends := h.ends
      listening := by simpa [Channel.closeSending] using h.listening
      ended := fun hgone => by
        obtain ⟨hidle, hcause⟩ := h.ended hgone
        exact ⟨hidle, hcause.imp (fun hleft => ⟨rfl, by simpa using hleft.2⟩) (by simpa using ·)⟩ }
  | turnAway =>
    exact {
      answered := by simpa using h.answered
      forth := by simpa using h.forth
      back := nofun
      ends := h.ends
      listening := by simpa using h.listening
      ended := fun hgone => by
        obtain ⟨hidle, ⟨-, -, hnone⟩ | ⟨-, hone⟩⟩ := h.ended hgone
        · exact ⟨hidle, .inr ⟨rfl, by simp [hnone]⟩⟩
        · exact ⟨hidle, .inr ⟨rfl, by simpa using hone⟩⟩ }
  | @hear e _ hidle hreceiving hreceive =>
    obtain ⟨rest, hqueue, rfl⟩ := Channel.receive_eq_item.mp hreceive
    have hserve := h.answered.serve
    rw [h.listening hreceiving, hidle] at hserve
    exact {
      answered := by
        rw [Service.answered_iff]
        simp [Service.serve_append, hserve, Service.serve, h.listening hreceiving]
      forth := fun _ => by simp [h.forth hreceiving, hqueue]
      back := by simpa using h.back
      ends := h.ends
      listening := by simpa using h.listening
      ended := fun hgone => nomatch hreceiving.symm.trans hgone }
  | answer hreply hsend =>
    obtain ⟨hopen, rfl⟩ := Channel.send?_eq_some.mp hsend
    have hanswering : w.link.forth.receiving = true := by
      by_contra hgone
      cases hreply.symm.trans (h.ended (eq_false_of_ne_true hgone)).1
    exact {
      answered := by simpa [h.listening hanswering, hreply] using h.answered
      forth := by simpa using h.forth
      back := fun _ => by simp [h.back hopen]
      ends := h.ends
      listening := by simpa using h.listening
      ended := fun hgone => nomatch hanswering.symm.trans hgone }
  | lose hreply hsend =>
    rw [Channel.send?_eq_none] at hsend
    have hanswering : w.link.forth.receiving = true := by
      by_contra hgone
      cases hreply.symm.trans (h.ended (eq_false_of_ne_true hgone)).1
    exact {
      answered := by simpa [h.listening hanswering, hreply] using h.answered
      forth := nofun
      back := fun hback => nomatch hsend.symm.trans hback
      ends := rfl
      listening := nofun
      ended := fun _ => ⟨rfl, .inr ⟨hsend, by simp [h.listening hanswering]⟩⟩ }
  | leave hidle hreceiving hreceive =>
    obtain ⟨hqueue, hsending, rfl⟩ := Channel.receive_eq_closed.mp hreceive
    have hall := h.forth hreceiving
    rw [hqueue, List.append_nil] at hall
    exact {
      answered := by simpa using h.answered
      forth := nofun
      back := by simpa [Link.drop_far, Channel.closeSending] using h.back
      ends := rfl
      listening := nofun
      ended := fun _ => ⟨hidle, .inl ⟨hsending, by simpa using ⟨hall.symm, h.listening hreceiving⟩⟩⟩ }

theorem Run.accounts (h : Run { service } log w) : w.Accounts service log := by
  induction h with
  | start => exact .start service
  | step _ hstep ih => exact ih.step hstep

/-! ## Going on -/

/-- The near side sends one envelope after the other. -/
theorem run_send (es : List Envelope) (hlistening : w.link.forth.receiving = true) :
    w.Run (es.map (.passed .sent)) { w with link.forth.queue := w.link.forth.queue ++ es } := by
  induction es generalizing w with
  | nil =>
    rw [List.append_nil]
    exact .start
  | cons e es ih =>
    have harrived : w.Run [.passed .sent e] { w with link.forth.queue := w.link.forth.queue ++ [e] } :=
      Run.start.step (.arrive (Channel.send?_eq_some.mpr ⟨hlistening, rfl⟩))
    have hrest := ih (w := { w with link.forth.queue := w.link.forth.queue ++ [e] }) hlistening
    rw [List.append_assoc] at hrest
    exact harrived.trans hrest

/-- Steps of the listener, while the near side leaves it alone and takes all replies. -/
structure Undisturbed (log : List Happening) : Prop where
  sent : past .sent log = []
  lost : past .lost log = []
  kept : .gaveUp ∉ log

theorem Undisturbed.append (h : Undisturbed log) (h' : Undisturbed log') :
    Undisturbed (log ++ log') where
  sent := by rw [past_append, h.sent, h'.sent, List.append_nil]
  lost := by rw [past_append, h.lost, h'.lost, List.append_nil]
  kept := List.mem_append.not.mpr (not_or.mpr ⟨h.kept, h'.kept⟩)

/-- A reply that is still to be sent is sent. -/
theorem run_reply (hopen : w.link.back.receiving = true) :
    ∃ log, Undisturbed log ∧ past .heard log = [] ∧
      w.Run log { w with link.back.queue := w.link.back.queue ++ w.reply.toList, reply := none } := by
  obtain ⟨link, service, reply⟩ := w
  cases reply with
  | none =>
    refine ⟨[], ⟨rfl, rfl, nofun⟩, rfl, ?_⟩
    simpa using Run.start
  | some e =>
    exact ⟨[.passed .posted e], ⟨rfl, rfl, by simp⟩, rfl,
      Run.start.step (.answer rfl (Channel.send?_eq_some.mpr ⟨hopen, rfl⟩))⟩

/-- What a listener makes of the channel if the near side leaves it alone. -/
def served (w : Listener σ) : Listener σ where
  link.forth := { w.link.forth with queue := [] }
  link.back :=
    { w.link.back with queue := w.link.back.queue ++ (w.service.serve w.link.forth.queue).1 }
  service := (w.service.serve w.link.forth.queue).2

@[simp]
theorem served_reply (w : Listener σ) : w.served.reply = none := rfl

theorem run_served (hidle : w.reply = none) (hlistening : w.link.forth.receiving = true)
    (hopen : w.link.back.receiving = true) :
    ∃ log, Undisturbed log ∧ past .heard log = w.link.forth.queue ∧ w.Run log w.served := by
  generalize hqueue : w.link.forth.queue = queue
  induction queue generalizing w with
  | nil =>
    refine ⟨[], ⟨rfl, rfl, nofun⟩, rfl, ?_⟩
    obtain ⟨⟨⟨_, _, _⟩, _⟩, _, _⟩ := w
    cases hqueue
    cases hidle
    simpa [served, Service.serve] using Run.start
  | cons e rest ih =>
    have hheard := Run.start.step
      (.hear hidle hlistening (Channel.receive_eq_item.mpr ⟨rest, hqueue, rfl⟩))
    obtain ⟨log, hlog, hno, hreplied⟩ := run_reply
      (w := ⟨{ w.link with forth.queue := rest }, (w.service.react e).2, (w.service.react e).1⟩) hopen
    obtain ⟨log', hlog', hrest, hserved⟩ := ih (w := ⟨{ w.link with
      forth.queue := rest, back.queue := w.link.back.queue ++ (w.service.react e).1.toList },
      (w.service.react e).2, none⟩) rfl hlistening hopen rfl
    have hone : Undisturbed [.passed .heard e] := ⟨rfl, rfl, by simp⟩
    refine ⟨_, (hone.append hlog).append hlog', by simp [hno, hrest], ?_⟩
    have hall := (hheard.trans hreplied).trans hserved
    simpa [served, hqueue, Service.serve_cons] using hall

/-! ## The replies -/

/-- A listener answers exactly the requests that it hears, in the order in which they were sent, and
what it replies arrives in that order. It goes on through all that has been sent, as long as the near
side takes replies, and it has ended only if the near side had hung up and nothing was left to hear,
or if the near side takes no more replies. -/
theorem Run.answers_requests (h : Run { service } log w) :
    service.Answered (past .heard log) (past .posted log ++ past .lost log ++ w.reply.toList)
      w.service ∧
    (w.link.back.receiving = true →
      past .posted log = past .collected log ++ w.link.back.queue) ∧
    (w.link.forth.receiving = true →
      past .sent log = past .heard log ++ w.link.forth.queue ∧ past .lost log = [] ∧
      (w.link.back.receiving = true → ∃ log' w', w.Run log' w' ∧ Undisturbed log' ∧
        service.Answered (past .sent log) (past .posted (log ++ log')) w'.service ∧
        w'.link.forth.receiving = w.link.forth.sending)) ∧
    (w.link.forth.receiving = false → w.reply = none ∧
      (w.link.forth.sending = false ∧ past .heard log = past .sent log ∧ past .lost log = [] ∨
        w.link.back.receiving = false ∧ (past .lost log).length ≤ 1)) := by
  have haccounts := h.accounts
  refine ⟨haccounts.answered, haccounts.back, fun hlistening =>
    ⟨haccounts.forth hlistening, haccounts.listening hlistening, fun hopen => ?_⟩, haccounts.ended⟩
  obtain ⟨log₁, hlog₁, hno, hreplied⟩ := run_reply hopen
  obtain ⟨log₂, hlog₂, hall, hserved⟩ := run_served
    (w := { w with link.back.queue := w.link.back.queue ++ w.reply.toList, reply := none })
    rfl hlistening hopen
  have hrun := hreplied.trans hserved
  have hown := hlog₁.append hlog₂
  have hheard : past .heard (log ++ (log₁ ++ log₂)) = past .sent log := by
    simp [hno, hall, haccounts.forth hlistening]
  have hanswered := (h.trans hrun).accounts.answered
  rw [hheard, past_append .lost, haccounts.listening hlistening, hown.lost] at hanswered
  simp only [List.append_nil, served_reply, Option.toList_none] at hanswered
  cases hsending : w.link.forth.sending with
  | true => exact ⟨_, _, hrun, hown, hanswered, hlistening⟩
  | false =>
    -- the near side has hung up, and nothing is left to hear
    have hleft := hrun.step (.leave rfl hlistening (Channel.receive_eq_closed.mpr ⟨rfl, hsending, rfl⟩))
    exact ⟨_, _, hleft, hown.append ⟨rfl, rfl, by simp⟩, by simpa using hanswered, rfl⟩

/-! A service that counts, with a handler that panics and one that fails, hears requests among other
envelopes. -/

/-- A call without arguments. -/
def plain (id : UInt64) (command : String) : Request := ⟨id, command, [], []⟩

theorem decode_plain (id : UInt64) (command : String) :
    Message.decode (plain id command).encode = .ok (.request (plain id command)) := by
  have hfaithful : (plain id command).Faithful := ⟨nofun, Nat.two_pow_pos 64⟩
  have hdepth : (plain id command).depth = 1 := rfl
  rw [decode_request hfaithful, hdepth, if_pos (by decide)]

theorem answered_plain {s s' : Service σ} {id : UInt64} {command : String}
    {outcome : Except Failure Json} {state : σ} {es replies : List Envelope}
    (hyields : s.Yields command ⟨[], []⟩ outcome state)
    (hrest : Service.Answered { s with state } es replies s') :
    s.Answered ((plain id command).encode :: es) (Response.encode ⟨id, outcome⟩ :: replies) s' :=
  .request (r := plain id command) (decode_plain id command) hyields hrest

/-- An array that is no message. -/
def greeting : Envelope := ⟨(Json.array [.string "hello"]).text, []⟩

theorem decode_greeting : Message.decode greeting = .error .missingId := by
  have hfaithful : ∀ j ∈ [Json.string "hello"], j.Faithful :=
    fun _ hj => List.mem_singleton.mp hj ▸ .string _
  have hdepth : (Json.array [.string "hello"]).depth = 1 := rfl
  rw [greeting, Message.decode_faithful hfaithful, hdepth, if_pos (by decide)]
  rfl

def adding : Handler Nat := fun _ n => (.result (.ofNat (n + 1)), n + 1)

def bursting : Handler Nat := fun _ n => (.panic none, n + 10)

def refusing : Handler Nat := fun _ n => (.failure ⟨"Full", "no more"⟩, n)

def tally (n : Nat) : Service Nat := ⟨[("add", adding), ("burst", bursting), ("refuse", refusing)], n⟩

def mixture : List Envelope :=
  [greeting, (plain 1 "add").encode, Response.encode ⟨9, .ok .null⟩, (plain 2 "burst").encode,
    (plain 3 "refuse").encode, (plain 4 "take").encode, (plain 5 "add").encode]

def tallied : List Envelope :=
  [Response.encode ⟨1, .ok (.ofNat 1)⟩, Response.encode ⟨2, .error ⟨"Panic", "handler panicked"⟩⟩,
    Response.encode ⟨3, .error ⟨"Full", "no more"⟩⟩,
    Response.encode ⟨4, .error ⟨"UnknownCommand", "no handler for command 'take'"⟩⟩,
    Response.encode ⟨5, .ok (.ofNat 12)⟩]

theorem yields_add (n : Nat) :
    (tally n).Yields "add" ⟨[], []⟩ (.ok (.ofNat (n + 1))) (n + 1) :=
  .result (h := adding) rfl rfl

theorem yields_burst (n : Nat) :
    (tally n).Yields "burst" ⟨[], []⟩ (.error ⟨"Panic", "handler panicked"⟩) (n + 10) :=
  .wordlessPanic (h := bursting) (by simp [tally, Fields.find?]) rfl

theorem answered_mixture : (tally 0).Answered mixture tallied (tally 12) := by
  have hrefuse : (tally 11).Yields "refuse" ⟨[], []⟩ (.error ⟨"Full", "no more"⟩) 11 :=
    .failure (h := refusing) (by simp [tally, Fields.find?]) rfl
  have htake : (tally 11).Yields "take" ⟨[], []⟩
      (.error ⟨"UnknownCommand", "no handler for command 'take'"⟩) 11 :=
    .unknown (by simp [tally, Fields.find?])
  exact .malformed decode_greeting (answered_plain (yields_add 0) (.response (decode_null 9)
    (answered_plain (yields_burst 1) (answered_plain hrefuse (answered_plain htake
      (answered_plain (yields_add 11) (.nil _)))))))

/-- All of it is answered, and the listener then waits for more. -/
theorem answers_requests_mixture :
    ∃ log w, Run { service := tally 0 } log w ∧ past .sent log = mixture ∧
      past .heard log = mixture ∧ past .posted log = tallied ∧ w.service.state = 12 ∧
      w.link.forth.receiving = true := by
  obtain ⟨log, hlog, hall, hserved⟩ := run_served
    (w := { link.forth.queue := mixture, service := tally 0 }) rfl rfl rfl
  have hrun := (run_send (w := { service := tally 0 }) mixture rfl).trans hserved
  obtain ⟨hanswered, -, hlistening, -⟩ := hrun.answers_requests
  have hheard : past .heard (mixture.map (.passed .sent) ++ log) = mixture := by
    simp [hall]
  rw [hheard, (hlistening rfl).2.1, served_reply, Option.toList_none, List.append_nil,
    List.append_nil] at hanswered
  obtain ⟨hposted, hservice⟩ := Prod.mk.inj (hanswered.serve.symm.trans answered_mixture.serve)
  exact ⟨_, _, hrun, by simp [hlog.sent], hheard, hposted, congrArg Service.state hservice, rfl⟩

end Listener

end Typestrip.Rpc
