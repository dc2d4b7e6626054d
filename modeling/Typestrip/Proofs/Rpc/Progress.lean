import Typestrip.Proofs.Rpc.Listening

/-!
# Coming to rest

Left to themselves, the threads of the calls that have been made, the reader and the listener have only
so much to do. Every step of theirs takes something off what is left (`Served.Step.work_lt`), so they
come to rest after finitely many steps, in whatever order they take them (`Served.wellFounded_inner`).

When they are at rest, all calls have returned, nothing is under way, and either both sides wait for
more or reader and listener have ended (`Served.Rests.outcome`).
-/

namespace Typestrip.Rpc

/-! ## What is left to do -/

/-- How many steps a call may still cause. -/
def Stage.work : Stage → Nat
  | numbered => 8
  | recorded => 6
  | unsent => 2
  | withdrawn => 1
  | returned => 0

/-- How many steps the reader has to take with what it has in hand and until it ends. -/
def Reader.work : Reader → Nat
  | holding _ => 4
  | resolving _ _ => 3
  | listening => 2
  | closing ids => ids.length + 1
  | ended => 0

theorem sum_map_set {α : Type} (f : α → Nat) {l : List α} {i : Nat} {a : α} (h : l[i]? = some a)
    (b : α) : ((l.set i b).map f).sum + f a = (l.map f).sum + f b := by
  induction l generalizing i with
  | nil => cases h
  | cons c l ih =>
    cases i with
    | zero =>
      obtain rfl : c = a := Option.some.inj h
      simp only [List.set_cons_zero, List.map_cons, List.sum_cons]
      omega
    | succ i =>
      have hrest := ih (i := i) h
      simp only [List.set_cons_succ, List.map_cons, List.sum_cons]
      omega

def callsWork (calls : List Ongoing) : Nat := (calls.map (·.stage.work)).sum

namespace Session

variable {s s' : Session} {e : Event}

/-- How many steps a session may still take of itself. A number in the table is counted, since its call
is told when the table is closed. -/
def work (s : Session) : Nat :=
  callsWork s.calls + 5 * s.link.forth.queue.length + 3 * s.link.back.queue.length +
    s.reader.work + s.caller.pending.ids.length

theorem Step.work_lt (hstep : s.Step e s') (he : e.Inner) : s'.work < s.work := by
  have hset {calls : List Ongoing} {i : Nat} {r : Request} {st : Stage} (st' : Stage)
      (h : calls[i]? = some ⟨r, st⟩) :
      callsWork (calls.set i ⟨r, st'⟩) + st.work = callsWork calls + st'.work :=
    sum_map_set (fun c : Ongoing => c.stage.work) h ⟨r, st'⟩
  cases hstep with
  | issue | look | hangUp => exact he.elim
  | @refuse i r hcall _ =>
    have hcalls := hset .returned hcall
    simp only [work, Stage.work, Caller.settle] at hcalls ⊢
    omega
  | @record i r caller hcall _ hrecord =>
    obtain ⟨-, rfl⟩ := Caller.record?_eq_some.mp hrecord
    have hcalls := hset .recorded hcall
    have hids : (s.caller.pending.ids.erase r.id).length ≤ s.caller.pending.ids.length :=
      List.length_erase_le
    simp only [work, Stage.work, List.length_cons] at hcalls ⊢
    omega
  | send hcall hsend =>
    obtain ⟨-, rfl⟩ := Channel.send?_eq_some.mp hsend
    have hcalls := hset .returned hcall
    simp only [work, Stage.work, List.length_append, List.length_singleton] at hcalls ⊢
    omega
  | fail hcall _ =>
    have hcalls := hset .unsent hcall
    simp only [work, Stage.work] at hcalls ⊢
    omega
  | @withdraw i r pending hcall hremove =>
    obtain ⟨-, rfl⟩ := Pending.remove_eq_true.mp hremove
    have hcalls := hset .withdrawn hcall
    have hids : (s.caller.pending.ids.erase r.id).length ≤ s.caller.pending.ids.length :=
      List.length_erase_le
    simp only [work, Stage.work, Pending.ids_remove] at hcalls ⊢
    omega
  | overtaken hcall _ =>
    have hcalls := hset .returned hcall
    simp only [work, Stage.work] at hcalls ⊢
    omega
  | restore hcall =>
    have hcalls := hset .returned hcall
    simp only [work, Stage.work, Caller.pending_deposit] at hcalls ⊢
    omega
  | receive hreader hreceive =>
    obtain ⟨rest, hqueue, rfl⟩ := Channel.receive_eq_item.mp hreceive
    simp only [work, hreader, hqueue, Reader.work, List.length_cons]
    omega
  | @deliver _ p pending hreader _ hremove =>
    obtain ⟨-, rfl⟩ := Pending.remove_eq_true.mp hremove
    have hids : (s.caller.pending.ids.erase p.id).length ≤ s.caller.pending.ids.length :=
      List.length_erase_le
    simp only [work, hreader, Reader.work, Pending.ids_remove]
    omega
  | pass hreader _ =>
    simp only [work, hreader, Reader.work]
    omega
  | resolve hreader =>
    simp only [work, hreader, Reader.work, Caller.pending_deposit]
    omega
  | close hreader hreceive =>
    obtain ⟨-, -, rfl⟩ := Channel.receive_eq_closed.mp hreceive
    simp only [work, hreader, Reader.work, Pending.close, List.length_nil]
    omega
  | @orphan ids id hreader hid =>
    have hids := List.length_erase_of_mem hid
    have hpos := List.length_pos_of_mem hid
    simp only [work, hreader, Reader.work, Caller.pending_deposit]
    omega
  | finish hreader =>
    simp only [work, hreader, Reader.work, Channel.closeReceiving, List.length_nil]
    omega

/-- A call that is made causes at most eight steps. -/
theorem Step.work_issue {r : Request} (hstep : s.Step (.issue r) s') : s'.work = s.work + 8 := by
  cases hstep with
  | issue =>
    simp only [work, callsWork, Caller.allocate, List.map_append, List.sum_append, List.map_singleton,
      List.sum_singleton, Stage.work]
    omega

/-- Whoever looks for a result causes nothing. -/
theorem Step.work_look {id : UInt64} {r : Option CallResult} (hstep : s.Step (.look id r) s') :
    s'.work = s.work := by
  generalize he : Event.look id r = e at hstep
  cases hstep with
  | look => simp only [work, Caller.pending_observe]
  | _ => cases he

end Session

namespace Served

variable {σ : Type} {w w' : Served σ} {es : List Event} {service : Service σ}

/-- How many steps may still be taken without anybody's doing. -/
def work (w : Served σ) : Nat :=
  w.session.work + 4 * w.reply.toList.length + w.session.link.forth.receiving.toNat

/-- A step that is taken without anybody's doing. -/
def InnerStep (w w' : Served σ) : Prop := ∃ es, w.Step es w' ∧ ∀ e ∈ es, e.Inner

theorem Step.work_lt (hstep : w.Step es w') (hinner : ∀ e ∈ es, e.Inner) : w'.work < w.work := by
  cases hstep with
  | near hstep =>
    have hlt := hstep.work_lt (hinner _ (List.mem_singleton_self _))
    simp only [work, hstep.farEnds.1]
    omega
  | @hear e _ hidle hlistening hreceive =>
    obtain ⟨rest, hqueue, rfl⟩ := Channel.receive_eq_item.mp hreceive
    have hreply : (w.service.react e).1.toList.length ≤ 1 := by
      cases (w.service.react e).1 <;> simp
    simp only [work, Session.work, hqueue, List.length_cons, hidle, hlistening]
    omega
  | answer hreply hsend =>
    obtain ⟨-, rfl⟩ := Channel.send?_eq_some.mp hsend
    simp only [work, Session.work, hreply, List.length_append, List.length_singleton,
      Option.toList_some, Option.toList_none, List.length_nil]
    omega
  | lose hreply _ =>
    simp only [work, Session.work, hreply, Link.drop_far, Channel.closeReceiving,
      Channel.closeSending, Option.toList_some, Option.toList_none, List.length_nil,
      List.length_singleton, Bool.toNat_false]
    omega
  | leave _ hlistening _ =>
    simp only [work, Session.work, hlistening, Link.drop_far, Channel.closeReceiving,
      Channel.closeSending, List.length_nil, Bool.toNat_false, Bool.toNat_true]
    omega

/-- In whatever order the steps are taken, they come to an end. -/
theorem wellFounded_inner : WellFounded fun w' w : Served σ => w.InnerStep w' :=
  Subrelation.wf (fun ⟨_, hstep, hinner⟩ => hstep.work_lt hinner) (measure work).wf

/-! ## At rest -/

/-- Nothing happens unless somebody makes a call, looks for a result or hangs up. -/
def Rests (w : Served σ) : Prop := ∀ w', ¬ w.InnerStep w'

/-- A session that is left to itself comes to rest. -/
theorem exists_rests (w : Served σ) :
    ∃ es w', w.Run es w' ∧ (∀ e ∈ es, e.Inner) ∧ w'.Rests := by
  induction w using wellFounded_inner.induction with
  | _ w ih =>
  by_cases hrests : w.Rests
  · exact ⟨[], w, .start, nofun, hrests⟩
  · obtain ⟨v, es, hstep, hinner⟩ := not_forall_not.mp hrests
    obtain ⟨es', w', hrun, hinner', hrests'⟩ := ih v ⟨es, hstep, hinner⟩
    refine ⟨es ++ es', w', ?_, ?_, hrests'⟩
    · exact (Run.start.step hstep).trans hrun
    · exact List.forall_mem_append.mpr ⟨hinner, hinner'⟩

theorem Rests.no_near {e : Event} {s : Session} (h : w.Rests) (hstep : w.session.Step e s)
    (hinner : e.Inner) : False :=
  h _ ⟨[e], .near hstep, fun _ he => List.mem_singleton.mp he ▸ hinner⟩

theorem Rests.no_far (h : w.Rests) : ¬ w.Step [] w' := fun hstep => h _ ⟨[], hstep, nofun⟩

/-- The thread of a call can always go on until the call has returned. -/
theorem Rests.returned (h : w.Rests) : ∀ c ∈ w.session.calls, c.stage = .returned := by
  rintro ⟨r, st⟩ hc
  obtain ⟨i, hcall⟩ := List.mem_iff_getElem?.mp hc
  cases st with
  | returned => rfl
  | numbered =>
    cases hsending : w.session.link.forth.sending with
    | false => exact (h.no_near (.refuse hcall (.inl hsending)) trivial).elim
    | true =>
      cases hrecord : w.session.caller.record? r.id with
      | none => exact (h.no_near (.refuse hcall (.inr hrecord)) trivial).elim
      | some caller => exact (h.no_near (.record hcall hsending hrecord) trivial).elim
  | recorded =>
    cases hsend : w.session.link.forth.send? r.encode with
    | none => exact (h.no_near (.fail hcall hsend) trivial).elim
    | some forth => exact (h.no_near (.send hcall hsend) trivial).elim
  | unsent =>
    cases hremove : w.session.caller.pending.remove r.id with
    | mk found pending =>
    cases found with
    | false => exact (h.no_near (.overtaken hcall (congrArg Prod.fst hremove)) trivial).elim
    | true => exact (h.no_near (.withdraw hcall hremove) trivial).elim
  | withdrawn => exact (h.no_near (.restore hcall) trivial).elim

/-- The listener has sent its replies, and waits for more unless it has ended. -/
theorem Rests.listener (h : w.Rests) : w.reply = none ∧
    (w.session.link.forth.receiving = true →
      w.session.link.forth.queue = [] ∧ w.session.link.forth.sending = true) := by
  have hidle : w.reply = none := by
    by_contra hreply
    obtain ⟨e, hreply⟩ := Option.ne_none_iff_exists'.mp hreply
    cases hsend : w.session.link.back.send? e with
    | none => exact h.no_far (.lose hreply hsend)
    | some back => exact h.no_far (.answer hreply hsend)
  refine ⟨hidle, fun hlistening => ?_⟩
  cases hreceive : w.session.link.forth.receive with
  | mk reception forth =>
  cases reception with
  | item e => exact (h.no_far (.hear hidle hlistening hreceive)).elim
  | closed => exact (h.no_far (.leave hidle hlistening hreceive)).elim
  | empty => exact Channel.of_receive_empty hreceive

/-- The reader has nothing in hand, and waits for more unless it has ended. -/
theorem Rests.reader (h : w.Rests) :
    (w.session.reader = .listening ∧ w.session.link.back.queue = [] ∧
      w.session.link.back.sending = true) ∨ w.session.reader = .ended := by
  cases hreader : w.session.reader with
  | ended => exact .inr rfl
  | holding e =>
    by_cases hown : ∃ p, Message.decode e = .ok (.response p) ∧ p.id ∈ w.session.caller.pending.ids
    · obtain ⟨p, hdecode, hmem⟩ := hown
      exact (h.no_near (.deliver hreader hdecode
        (Pending.remove_eq_true.mpr ⟨hmem, rfl⟩)) trivial).elim
    · refine (h.no_near (.pass hreader fun p hdecode => ?_) trivial).elim
      exact Bool.eq_false_iff.mpr fun hmem => hown ⟨p, hdecode, (Pending.remove_fst _ _).mp hmem⟩
  | resolving id r => exact (h.no_near (.resolve hreader) trivial).elim
  | closing ids =>
    cases ids with
    | nil => exact (h.no_near (.finish hreader) trivial).elim
    | cons id ids => exact (h.no_near (.orphan hreader List.mem_cons_self) trivial).elim
  | listening =>
    cases hreceive : w.session.link.back.receive with
    | mk reception back =>
    cases reception with
    | item e => exact (h.no_near (.receive hreader hreceive) trivial).elim
    | closed => exact (h.no_near (.close hreader hreceive) trivial).elim
    | empty => exact .inl ⟨rfl, Channel.of_receive_empty hreceive⟩

end Served

/-! ## Without interruption -/

section Repeat

variable {α β : Type} {step : α → Option α}

/-- Steps that are each a run of something else are a run of it together. -/
theorem repeatStep_lift (f : β → α) {R : β → β → Prop} {I : β → Prop} (hrefl : ∀ b, R b b)
    (htrans : ∀ {a b c}, R a b → R b c → R a c)
    (hstep : ∀ b a, I b → step (f b) = some a → ∃ b', R b b' ∧ I b' ∧ f b' = a) (fuel : Nat) {b : β}
    (hb : I b) : ∃ b', R b b' ∧ I b' ∧ f b' = repeatStep step fuel (f b) := by
  induction fuel generalizing b with
  | zero => exact ⟨b, hrefl b, hb, rfl⟩
  | succ fuel ih =>
    rw [repeatStep]
    cases hnext : step (f b) with
    | none => exact ⟨b, hrefl b, hb, rfl⟩
    | some a =>
      obtain ⟨c, hbc, hc, rfl⟩ := hstep b a hb hnext
      obtain ⟨d, hcd, hd, heq⟩ := ih hc
      exact ⟨d, htrans hbc hcd, hd, heq⟩

/-- Enough fuel brings to rest what takes something off with every step. -/
theorem repeatStep_rests (μ : α → Nat) (hlt : ∀ a b, step a = some b → μ b < μ a) {fuel : Nat} {a : α}
    (hfuel : μ a ≤ fuel) : step (repeatStep step fuel a) = none := by
  induction fuel generalizing a with
  | zero =>
    rw [repeatStep]
    by_contra hnext
    obtain ⟨b, hnext⟩ := Option.ne_none_iff_exists'.mp hnext
    have hless := hlt a b hnext
    omega
  | succ fuel ih =>
    rw [repeatStep]
    cases hnext : step a with
    | none => exact hnext
    | some b =>
      have hless := hlt a b hnext
      exact ih (by omega)

end Repeat

/-- How many envelopes a channel still brings, its end included. -/
def Channel.toCome {α : Type} (c : Channel α) : Nat := if c.receiving then c.queue.length + 1 else 0

theorem Worker.toCome_listenOne? {σ : Type} {w v : Worker σ} (h : w.listenOne? = some v) :
    v.connection.link.forth.toCome < w.connection.link.forth.toCome := by
  unfold Worker.listenOne? at h
  obtain ⟨hlistening, h⟩ := Option.ite_none_right_eq_some.mp h
  rw [Link.receive_far] at h
  cases hreceive : w.connection.link.forth.receive with
  | mk reception forth =>
  rw [hreceive] at h
  cases reception with
  | empty => cases h
  | closed =>
    cases h
    simp [Channel.toCome, hlistening, Link.drop_far, Channel.closeReceiving]
  | item e =>
    obtain ⟨rest, hqueue, rfl⟩ := Channel.receive_eq_item.mp hreceive
    cases hreply : (w.service.react e).1 with
    | none =>
      simp only [hreply] at h
      cases h
      simp [Channel.toCome, hlistening, hqueue]
    | some reply =>
      simp only [hreply, Link.post_far] at h
      cases hsend : w.connection.link.back.send? reply with
      | some back =>
        simp only [hsend] at h
        cases h
        simp [Channel.toCome, hlistening, hqueue]
      | none =>
        simp only [hsend] at h
        cases h
        simp [Channel.toCome, hlistening, hqueue, Link.drop_far, Channel.closeReceiving]

theorem Connection.toCome_readOne? {c d : Connection} (h : c.readOne? = some d) :
    d.link.back.toCome < c.link.back.toCome := by
  unfold Connection.readOne? at h
  obtain ⟨hreading, h⟩ := Option.ite_none_right_eq_some.mp h
  cases hreceive : c.link.back.receive with
  | mk reception back =>
  rw [hreceive] at h
  cases reception with
  | empty => cases h
  | closed =>
    cases h
    simp [Channel.toCome, hreading, Channel.closeReceiving]
  | item e =>
    obtain ⟨rest, hqueue, rfl⟩ := Channel.receive_eq_item.mp hreceive
    cases h
    simp [Channel.toCome, hreading, hqueue]

/-- Nothing will come of a channel without somebody's doing. -/
def Channel.AtRest {α : Type} (c : Channel α) : Prop :=
  c.receiving = true → c.queue = [] ∧ c.sending = true

theorem Worker.atRest_listen {σ : Type} (w : Worker σ) : w.listen.connection.link.forth.AtRest := by
  have hnone : w.listen.listenOne? = none := by
    refine repeatStep_rests (fun w => w.connection.link.forth.toCome)
      (fun _ _ => toCome_listenOne?) ?_
    unfold Channel.toCome
    split <;> omega
  intro hlistening
  unfold Worker.listenOne? at hnone
  rw [if_pos hlistening, Link.receive_far] at hnone
  cases hreceive : w.listen.connection.link.forth.receive with
  | mk reception forth =>
  rw [hreceive] at hnone
  cases reception with
  | empty => exact Channel.of_receive_empty hreceive
  | item | closed => cases hnone

theorem Connection.atRest_read (c : Connection) : c.read.link.back.AtRest := by
  have hnone : c.read.readOne? = none := by
    refine repeatStep_rests (fun c => c.link.back.toCome) (fun _ _ => toCome_readOne?) ?_
    unfold Channel.toCome
    split <;> omega
  intro hreading
  unfold Connection.readOne? at hnone
  rw [if_pos hreading] at hnone
  cases hreceive : c.read.link.back.receive with
  | mk reception back =>
  rw [hreceive] at hnone
  cases reception with
  | empty => exact Channel.of_receive_empty hreceive
  | item | closed => cases hnone

theorem Connection.forth_readOne? {c d : Connection} (h : c.readOne? = some d) :
    d.link.forth = c.link.forth := by
  unfold Connection.readOne? at h
  obtain ⟨-, h⟩ := Option.ite_none_right_eq_some.mp h
  split at h <;> cases h <;> rfl

/-- The reader does not touch what is sent. -/
theorem Connection.forth_read (c : Connection) : c.read.link.forth = c.link.forth := by
  obtain ⟨d, -, hforth, hread⟩ := repeatStep_lift (fun c : Connection => c) (R := fun _ _ => True)
    (I := fun d => d.link.forth = c.link.forth) (fun _ => trivial) (fun _ _ => trivial)
    (fun d d' hd hnext => ⟨d', trivial, (forth_readOne? hnext).trans hd, rfl⟩)
    (c.link.back.queue.length + 1) rfl
  rw [read, ← hread, hforth]

namespace Served

variable {σ : Type} {w : Served σ}

/-- What the listener does if nobody interrupts it. -/
theorem run_listen (hidle : w.reply = none) :
    ∃ w', w.Run [] w' ∧ w'.worker = w.worker.listen ∧ w'.reply = none ∧
      w'.session.calls = w.session.calls ∧ w'.session.reader = w.session.reader := by
  obtain ⟨w', ⟨hrun, hcalls, hreader⟩, hidle', hworker⟩ := repeatStep_lift (fun w : Served σ => w.worker)
    (R := fun u v => u.Run [] v ∧ v.session.calls = u.session.calls ∧
      v.session.reader = u.session.reader) (I := fun u => u.reply = none)
    (fun u => ⟨.start, rfl, rfl⟩)
    (fun h h' => ⟨h.1.trans h'.1, h'.2.1.trans h.2.1, h'.2.2.trans h.2.2⟩)
    (fun u v hu hlisten => by
      obtain ⟨u', hrun, hworker, hreply, hcalls, hreader⟩ := run_listenOne? hu hlisten
      exact ⟨u', ⟨hrun, hcalls, hreader⟩, hreply, hworker⟩)
    (w.session.link.forth.queue.length + 1) hidle
  exact ⟨w', hrun, hworker, hidle', hcalls, hreader⟩

/-- What the near side does while the listener does nothing. -/
theorem run_steps {s : Session} {es : List Event} (hsteps : w.session.Steps es s) :
    w.Run es { w with session := s } := by
  induction hsteps with
  | start => exact .start
  | near _ hstep ih => exact ih.near hstep

/-- What the reader does if nobody interrupts it. -/
theorem run_read (hreader : w.session.reader = .listening) :
    ∃ es s, w.Run es { w with session := s } ∧ (∀ e ∈ es, e.Inner) ∧
      s.connection = w.session.connection.read ∧ s.calls = w.session.calls ∧
      (s.reader = .listening ∨ s.reader = .ended ∧ s.link.back.receiving = false) := by
  obtain ⟨s, ⟨es, hsteps, hinner, hcalls⟩, hended, hread⟩ := repeatStep_lift Session.connection
    (R := fun s s' => ∃ es, s.Steps es s' ∧ (∀ e ∈ es, e.Inner) ∧ s'.calls = s.calls)
    (I := fun s => s.reader = .listening ∨ s.reader = .ended ∧ s.link.back.receiving = false)
    (fun s => ⟨[], .start, nofun, rfl⟩)
    (fun ⟨_, h, hinner, hcalls⟩ ⟨_, h', hinner', hcalls'⟩ => ⟨_, h.trans h',
      List.forall_mem_append.mpr ⟨hinner, hinner'⟩, hcalls'.trans hcalls⟩)
    (fun s c hs hnext => by
      rcases hs with hs | ⟨-, hgone⟩
      · obtain ⟨es, s', hsteps, hinner, hconnection, hcalls, hreader'⟩ :=
          Session.run_readOne? hs hnext
        exact ⟨s', ⟨es, hsteps, hinner, hcalls⟩, hreader', hconnection⟩
      · unfold Connection.readOne? at hnext
        rw [if_neg (by rw [show s.connection.link.back.receiving = false from hgone]; nofun)] at hnext
        cases hnext)
    (w.session.link.back.queue.length + 1) (.inl hreader)
  exact ⟨es, s, run_steps hsteps, hinner, hread, hcalls, hended⟩

/-- What listener and reader do one after the other if nobody interrupts them. Then nothing will come
of the link without somebody's doing. -/
theorem run_settle (hidle : w.reply = none) (hreader : w.session.reader = .listening) :
    ∃ es w', w.Run es w' ∧ (∀ e ∈ es, e.Inner) ∧ w'.worker = w.worker.settle ∧ w'.reply = none ∧
      w'.session.calls = w.session.calls ∧ w'.session.link.forth.AtRest ∧
      w'.session.link.back.AtRest ∧ (w'.session.reader = .listening ∨
        w'.session.reader = .ended ∧ w'.session.link.back.receiving = false) := by
  obtain ⟨u, hlisten, hworker, hidle', hcalls, hreader'⟩ := run_listen hidle
  obtain ⟨es, s, hread, hinner, hconnection, hcalls', hended⟩ := run_read (hreader'.trans hreader)
  have hsettle : worker { u with session := s } = w.worker.settle := by
    show Worker.mk s.connection u.service = _
    rw [hconnection]
    show { u.worker with connection := u.worker.connection.read } = _
    rw [hworker]
    rfl
  have hforth : s.link.forth = u.session.link.forth := by
    show s.connection.link.forth = _
    rw [hconnection, Connection.forth_read]
    rfl
  refine ⟨es, _, hlisten.trans hread, hinner, hsettle, hidle', hcalls'.trans hcalls, ?_, ?_, hended⟩
  · show s.link.forth.AtRest
    rw [hforth]
    show u.worker.connection.link.forth.AtRest
    rw [hworker]
    exact w.worker.atRest_listen
  · show s.connection.link.back.AtRest
    rw [hconnection]
    exact u.session.connection.atRest_read

end Served

end Typestrip.Rpc
