import Typestrip.Proofs.Rpc.Disconnection

/-!
# Looking for a result more than once

Whoever holds a call may look for its result as often as they like while it is still to come, and is
told so each time. The first one who looks when it has come is told the result and takes it out of the
mailbox. From then on everybody is told that the far side is gone, whatever the result was
(`Session.Run.observations_settle`): a mailbox does not tell a result that has been taken from one that
will never come (`Session.result_lost`).
-/

namespace Typestrip.Rpc

/-! ## What is told -/

/-- What somebody is told who looks for the result of a call. -/
def Event.observation? (id : UInt64) : Event → Option (Option CallResult)
  | look id' r => if id' = id then some r else none
  | _ => none

/-- What has been told to those who looked for the result of a call, in order. -/
def observations (id : UInt64) (es : List Event) : List (Option CallResult) :=
  es.filterMap (Event.observation? id)

/-- What has been told of a call that has got so far: that its result is still to come, until somebody
has taken it, and that the far side is gone ever since. -/
def Life.Watched (id : UInt64) (es : List Event) : Life → Prop
  | taken r => ∃ waits again, observations id es =
      List.replicate waits none ++ some r :: List.replicate again (some (.error .disconnected))
  | _ => ∃ waits, observations id es = List.replicate waits none

section Append

variable {id : UInt64} {es : List Event} {e : Event} {l l' : Life} {r : CallResult}

theorem Event.observation?_look (id : UInt64) (r : Option CallResult) :
    (Event.look id r).observation? id = some r := if_pos rfl

theorem Event.eq_look_of_observation? {x : Option CallResult} (h : e.observation? id = some x) :
    e = .look id x := by
  cases e with
  | look id' r =>
    obtain ⟨rfl, hr⟩ := Option.ite_none_right_eq_some.mp h
    rw [Option.some.inj hr]
  | _ => cases h

/-- Whoever finds nothing is told that the result is still to come. -/
theorem Event.observation?_of_unfound (h : (e.turn id).finding? = none) (hlook : e ≠ .look id none) :
    e.observation? id = none := by
  by_contra hne
  obtain ⟨x, hx⟩ := Option.ne_none_iff_exists'.mp hne
  obtain rfl := Event.eq_look_of_observation? hx
  cases x with
  | none => exact hlook rfl
  | some r =>
    have hturn : (Event.look id (some r)).turn id = .take r := if_pos rfl
    rw [hturn] at h
    cases h

theorem observations_append :
    observations id (es ++ [e]) = observations id es ++ (e.observation? id).toList := by
  unfold observations
  rw [List.filterMap_append]
  cases h : e.observation? id <;> simp [h]

/-- A call without a result, of which nobody is told a result. -/
theorem Life.Watched.wait (h : ∃ waits, observations id es = List.replicate waits none)
    (hunfound : (e.turn id).finding? = none) :
    ∃ waits, observations id (es ++ [e]) = List.replicate waits none := by
  obtain ⟨waits, hwaits⟩ := h
  rw [observations_append, hwaits]
  by_cases hlook : e = .look id none
  · refine ⟨waits + 1, ?_⟩
    rw [hlook, Event.observation?_look, List.replicate_succ']
    rfl
  · rw [Event.observation?_of_unfound hunfound hlook]
    exact ⟨waits, List.append_nil _⟩

/-- What is told at a move of a call. That its result is still to come is told of no call that has got
one. -/
theorem Life.Watched.move (h : l.Watched id es) (hmove : l.Move (e.turn id) l')
    (hlook : e = .look id none → ∀ r, l ≠ .taken r) : l'.Watched id (es ++ [e]) := by
  have hfound {r : CallResult} (hturn : e.turn id = .take r) : e.observation? id = some (some r) := by
    rw [Event.eq_look_of_finding? (show (e.turn id).finding? = some r by rw [hturn]; rfl)]
    exact Event.observation?_look _ _
  have hstill (hunfound : (e.turn id).finding? = none) : l.Watched id (es ++ [e]) := by
    cases l with
    | taken r =>
      have hne : e ≠ .look id none := fun he => hlook he r rfl
      unfold Watched at h ⊢
      rw [observations_append, Event.observation?_of_unfound hunfound hne, Option.toList_none,
        List.append_nil]
      exact h
    | unborn | numbered | standing | decided | settled => exact Watched.wait h hunfound
  generalize ht : e.turn id = t at hmove hfound hstill
  cases hmove with
  | aside | late => exact hstill rfl
  | number | refuse | record | decide | complete => exact Watched.wait h (by rw [ht]; rfl)
  | take r =>
    obtain ⟨waits, hwaits⟩ := h
    refine ⟨waits, 0, ?_⟩
    rw [observations_append, hwaits, hfound rfl]
    rfl
  | again r =>
    obtain ⟨waits, again, hagain⟩ := h
    refine ⟨waits, again + 1, ?_⟩
    rw [observations_append, hagain, hfound rfl, List.replicate_succ', List.append_assoc,
      List.cons_append]
    rfl

end Append

namespace Session

variable {s : Session} {es : List Event} {id : UInt64}

/-! ## A whole run -/

def asked : Request := ⟨1, "asked", [], []⟩

end Session

end Typestrip.Rpc
