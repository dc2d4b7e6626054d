import Typestrip.Proofs.Grammar.Matching
import Typestrip.Proofs.Grammar.Memo
import Typestrip.Proofs.Text.Boundary

/-!
# Two runs side by side

Many facts about matching compare two runs of one grammar: with and without a memo, with fewer and
with more entries left, at a position and further into a longer input. A `Simulation` says what the
two runs have to do with each other: by how much their positions differ, how their memos are
related, and which failures of the first run excuse the second one from all duties.

The main statement is `Simulation.evaluate_follows`: if entering a rule and asking the memo keep the
two runs side by side, then matching any node does.
-/

namespace Typestrip.Grammar

/-! ## Failures moved by an offset -/

@[simp] theorem ParseError.isFatal_shift (k : Nat) (e : ParseError) :
    (e.shift k).isFatal = e.isFatal := by
  cases e <;> simp [ParseError.shift, ParseError.isFatal]

/-- An outcome with the positions of its failure moved by an offset. -/
def Outcome.shift (k : Nat) : Outcome → Outcome
  | .ok s => .ok s
  | .error e => .error (e.shift k)

theorem ParseError.shiftAll_eq_map (k : Nat) (es : List ParseError) :
    ParseError.shiftAll k es = es.map (ParseError.shift k) := by
  induction es with
  | nil => rfl
  | cons e es ih => rw [ParseError.shiftAll, ih, List.map_cons]

theorem ParseError.shiftAll_reverse (k : Nat) (es : List ParseError) :
    ParseError.shiftAll k es.reverse = (ParseError.shiftAll k es).reverse := by
  rw [shiftAll_eq_map, shiftAll_eq_map, List.map_reverse]

mutual
theorem ParseError.shift_zero : ∀ e : ParseError, e.shift 0 = e
  | .unmatched _ _ | .leftOver _ | .tooDeep _ _ | .unresolved _ => rfl
  | .stopped p cause => by rw [shift, shift_zero cause, Nat.add_zero]
  | .exhausted p es => by rw [shift, shiftAll_zero es, Nat.add_zero]

theorem ParseError.shiftAll_zero : ∀ es : List ParseError, shiftAll 0 es = es
  | [] => rfl
  | e :: es => by rw [shiftAll, shift_zero e, shiftAll_zero es]
end

@[simp] theorem Outcome.shift_zero (o : Outcome) : Outcome.shift 0 o = o := by
  cases o with
  | error e => rw [shift, e.shift_zero]
  | ok s => rfl

/-! ## Agreement of outcomes -/

/-- What a first run on `input` has to do with a second one whose positions are larger by
`offset`. -/
structure Simulation where
  input : List Char
  offset : Nat
  /-- Failures of the first run after which nothing is asked of the second. -/
  excused : ParseError → Prop
  excused_fatal : ∀ {e}, excused e → e.isFatal = true
  /-- How the memos of the two runs are related. -/
  related : Memo → Memo → Prop

namespace Simulation

variable (S : Simulation)

/-- The outcomes of the two runs agree: the first one is excused, or both fail alike, or both
succeed with results that are the same in the sense of `same`. -/
inductive Agree {α : Type} (same : α → α → Prop) :
    Except ParseError α × Memo → Except ParseError α × Memo → Prop
  | excused {e m y} : S.excused e → Agree same (.error e, m) y
  | failed {e m₁ m₂} : S.related m₁ m₂ → Agree same (.error e, m₁) (.error (e.shift S.offset), m₂)
  | matched {a b m₁ m₂} : same a b → S.related m₁ m₂ → Agree same (.ok a, m₁) (.ok b, m₂)

/-- The same match from `pos` on, which ends at a character boundary. -/
def SameMatch (pos : Nat) (s t : Success) : Prop :=
  s = t ∧ (Text.fromBoundary? S.input (pos + s.consumed)).isSome = true

/-- The same results with ends at corresponding character boundaries, not before `pos`. -/
def SameStop {α : Type} (pos : Nat) (x y : α × Nat) : Prop :=
  y = (x.1, x.2 + S.offset) ∧ pos ≤ x.2 ∧ (Text.fromBoundary? S.input x.2).isSome = true

/-- The second recognizer does at every boundary of the input what the first one does. -/
def Follows (r₁ r₂ : Recognizer) : Prop :=
  ∀ ⦃pos rest m₁ m₂⦄, Text.fromBoundary? S.input pos = some rest → S.related m₁ m₂ →
    S.Agree (S.SameMatch pos) (r₁ pos rest m₁) (r₂ (pos + S.offset) rest m₂)

variable {S}

/-- An outcome agrees with the same outcome moved by the offset. -/
theorem Agree.shifted {pos : Nat} {o : Outcome} {m₁ m₂ : Memo}
    (ho : ∀ s, o = .ok s → (Text.fromBoundary? S.input (pos + s.consumed)).isSome = true)
    (hm : S.related m₁ m₂) :
    S.Agree (S.SameMatch pos) (o, m₁) (Outcome.shift S.offset o, m₂) := by
  cases o with
  | ok s => exact .matched ⟨rfl, ho s rfl⟩ hm
  | error e => exact .failed hm

/-- A node that may be nullable, after its content has been tried. -/
theorem Agree.recover {pos : Nat} (a : Attributes) {o₁ o₂ : Outcome} {m₁ m₂ : Memo}
    (hpos : (Text.fromBoundary? S.input pos).isSome = true)
    (h : S.Agree (S.SameMatch pos) (o₁, m₁) (o₂, m₂)) :
    S.Agree (S.SameMatch pos) (a.recover o₁, m₁) (a.recover o₂, m₂) := by
  cases h with
  | excused he =>
    rw [a.recover_of_isFatal (S.excused_fatal he)]
    exact .excused he
  | failed hm =>
    rw [Attributes.recover, Attributes.recover, ParseError.isFatal_shift]
    split
    · exact .matched ⟨rfl, hpos⟩ hm
    · exact .failed hm
  | matched hs hm => exact .matched hs hm

/-! ## Terminals -/

theorem matchLiteral_follows (a : Attributes) (text : List Char) (expected : String) :
    S.Follows (fun pos rest m => (a.recover (matchLiteral a text expected pos rest), m))
      (fun pos rest m => (a.recover (matchLiteral a text expected pos rest), m)) := by
  intro pos rest m₁ m₂ hpos hm
  refine .recover a (by rw [hpos]; rfl) ?_
  rw [matchLiteral, matchLiteral]
  cases hs : stripPrefix? text rest with
  | none => exact .failed hm
  | some after =>
    refine .matched ⟨rfl, ?_⟩ hm
    rw [Text.fromBoundary?_add hpos, stripPrefix?_eq_some_iff.mp hs, Text.fromBoundary?_width]
    rfl

theorem matchPattern_follows (a : Attributes) (regex : Regex.Expr) (expected : String) :
    S.Follows (fun pos rest m => (a.recover (matchPattern a regex expected pos rest), m))
      (fun pos rest m => (a.recover (matchPattern a regex expected pos rest), m)) := by
  intro pos rest m₁ m₂ hpos hm
  refine .recover a (by rw [hpos]; rfl) ?_
  rw [matchPattern, matchPattern]
  cases regex.search? rest with
  | none => exact .failed hm
  | some n =>
    refine .matched ⟨rfl, ?_⟩ hm
    have hcut := Text.fromBoundary?_width (rest.take n) (rest.drop n)
    rw [List.take_append_drop] at hcut
    rw [Text.fromBoundary?_add hpos, hcut]
    rfl

/-! ## Nodes with parts -/

variable {rules : Rules} {e₁ e₂ : Matcher → Recognizer}

/-- Matching the node, asking the memo first, keeps the two runs side by side. -/
def FollowsAsked (S : Simulation) (rules : Rules) (e₁ e₂ : Matcher → Recognizer) (m : Matcher) :
    Prop :=
  S.Follows (memoized m.attributes.id (m.evaluate rules e₁))
    (memoized m.attributes.id (m.evaluate rules e₂))

theorem Agree.mono {α : Type} {same same' : α → α → Prop} (hsame : ∀ a b, same a b → same' a b)
    {x y : Except ParseError α × Memo} (h : S.Agree same x y) : S.Agree same' x y := by
  cases h with
  | excused he => exact .excused he
  | failed hm => exact .failed hm
  | matched hs hm => exact .matched (hsame _ _ hs) hm

theorem evaluateAll_follows {ms : List Matcher} (h : ∀ m ∈ ms, S.FollowsAsked rules e₁ e₂ m)
    (fields : List (String × Value)) {pos : Nat} {rest : List Char} {m₁ m₂ : Memo}
    (hpos : Text.fromBoundary? S.input pos = some rest) (hm : S.related m₁ m₂) :
    S.Agree (S.SameStop pos) (Matcher.evaluateAll rules e₁ ms fields pos rest m₁)
      (Matcher.evaluateAll rules e₂ ms fields (pos + S.offset) rest m₂) := by
  induction ms generalizing fields pos rest m₁ m₂ with
  | nil => exact .matched ⟨rfl, Nat.le_refl _, by rw [hpos]; rfl⟩ hm
  | cons m ms ih =>
    have hhead := h m List.mem_cons_self hpos hm
    rw [Matcher.evaluateAll, Matcher.evaluateAll]
    -- both sides of the goal are a case distinction on how the two runs ask for the first part
    revert hhead
    generalize memoized _ _ pos rest m₁ = x
    generalize memoized _ _ (pos + S.offset) rest m₂ = y
    intro hhead
    cases hhead with
    | @excused e m y he =>
      -- an excused failure is fatal: the sequence ends with it as it is
      show S.Agree _ (Except.error (if e.isFatal = true then e else .stopped pos e), m) _
      rw [if_pos (S.excused_fatal he)]
      exact .excused he
    | @failed e m₁ m₂ hm =>
      dsimp only
      rw [ParseError.isFatal_shift]
      split
      · exact .failed hm
      · exact .failed (e := .stopped pos e) hm
    | @matched s t m₁ m₂ hs hm =>
      obtain ⟨rfl, hend⟩ := hs
      have hrest := Text.fromBoundary?_step hpos hend
      dsimp only
      rw [Nat.add_right_comm pos S.offset]
      refine (ih (fun m hm => h m (List.mem_cons_of_mem _ hm)) _ hrest hm).mono ?_
      rintro x y ⟨hxy, hle, hx⟩
      exact ⟨hxy, Nat.le_trans (Nat.le_add_right _ _) hle, hx⟩

theorem evaluateFirst_follows {ms : List Matcher} (h : ∀ m ∈ ms, S.FollowsAsked rules e₁ e₂ m)
    (failures : List ParseError) {pos : Nat} {rest : List Char} {m₁ m₂ : Memo}
    (hpos : Text.fromBoundary? S.input pos = some rest) (hm : S.related m₁ m₂) :
    S.Agree (S.SameMatch pos) (Matcher.evaluateFirst rules e₁ ms failures pos rest m₁)
      (Matcher.evaluateFirst rules e₂ ms (ParseError.shiftAll S.offset failures)
        (pos + S.offset) rest m₂) := by
  induction ms generalizing failures m₁ m₂ with
  | nil =>
    rw [Matcher.evaluateFirst, Matcher.evaluateFirst, ← ParseError.shiftAll_reverse]
    exact .failed (e := .exhausted pos failures.reverse) hm
  | cons m ms ih =>
    have hhead := h m List.mem_cons_self hpos hm
    rw [Matcher.evaluateFirst, Matcher.evaluateFirst]
    revert hhead
    generalize memoized _ _ pos rest m₁ = x
    generalize memoized _ _ (pos + S.offset) rest m₂ = y
    intro hhead
    cases hhead with
    | @excused e m y he =>
      dsimp only
      rw [if_pos (S.excused_fatal he)]
      exact .excused he
    | @failed e m₁ m₂ hm =>
      dsimp only
      rw [ParseError.isFatal_shift]
      split
      · exact .failed hm
      · exact ih (fun m hm => h m (List.mem_cons_of_mem _ hm)) (e :: failures) hm
    | matched hs hm => exact .matched hs hm

theorem run_follows {m : Matcher} (hask : S.FollowsAsked rules e₁ e₂ m)
    (h : S.Follows (m.evaluate rules e₁) (m.evaluate rules e₂)) :
    S.Follows (m.run rules e₁) (m.run rules e₂) := by
  rw [Matcher.run, Matcher.run]
  split
  · exact hask
  · exact h

theorem iterate_follows {r₁ r₂ : Recognizer} (h : S.Follows r₁ r₂) (items : List Value) {pos : Nat}
    {rest : List Char} {m₁ m₂ : Memo} (hpos : Text.fromBoundary? S.input pos = some rest)
    (hm : S.related m₁ m₂) :
    S.Agree (S.SameStop pos) (iterate r₁ items pos rest m₁)
      (iterate r₂ items (pos + S.offset) rest m₂) := by
  have hhead := h hpos hm
  rw [iterate, iterate]
  revert hhead
  generalize r₁ pos rest m₁ = x
  generalize r₂ (pos + S.offset) rest m₂ = y
  intro hhead
  cases hhead with
  | @excused e m y he =>
    dsimp only
    rw [if_pos (S.excused_fatal he)]
    exact .excused he
  | @failed e m₁ m₂ hm =>
    dsimp only
    rw [ParseError.isFatal_shift]
    split
    · exact .failed hm
    · exact .matched ⟨rfl, Nat.le_refl _, by rw [hpos]; rfl⟩ hm
  | @matched s t m₁ m₂ hs hm =>
    obtain ⟨rfl, hend⟩ := hs
    dsimp only
    have hstop : S.SameStop pos (items.reverse, pos) (items.reverse, pos + S.offset) :=
      ⟨rfl, Nat.le_refl _, by rw [hpos]; rfl⟩
    -- a match of nothing ends the rounds, and so does the end of the input
    cases hn : s.consumed with
    | zero => exact .matched hstop hm
    | succ n =>
      cases hcs : rest with
      | nil => exact .matched hstop hm
      | cons c cs =>
        rw [hn] at hend
        rw [hcs] at hpos
        have hrest := Text.fromBoundary?_step hpos hend
        dsimp only
        rw [Nat.add_right_comm pos S.offset]
        refine (iterate_follows h (s.value :: items) hrest hm).mono ?_
        rintro x y ⟨hxy, hle, hx⟩
        exact ⟨hxy, Nat.le_trans (Nat.le_add_right _ _) hle, hx⟩
termination_by rest.length
decreasing_by
  rw [hcs]
  exact Text.length_dropBytes_lt _ _ _

/-! ## All nodes -/

/-- What keeps the two runs side by side: asking the memo does where matching the node does, and
entering a rule does. -/
structure SideBySide (S : Simulation) (rules : Rules) (member : Matcher → Prop)
    (e₁ e₂ : Matcher → Recognizer) : Prop where
  ask : ∀ {m}, member m → S.Follows (m.evaluate rules e₁) (m.evaluate rules e₂) →
    S.FollowsAsked rules e₁ e₂ m
  enter : ∀ {body}, IsBody rules body → S.Follows (e₁ body) (e₂ body)

variable {member : Matcher → Prop}

/-- Asking two memos that do not know the outcome. Both are told it, so what is left to show is that
they are related then. -/
theorem asked_of_not_known {id : NodeId} {r₁ r₂ : Recognizer} (hr : S.Follows r₁ r₂) {pos : Nat}
    {rest : List Char} {m₁ m₂ : Memo} (hpos : Text.fromBoundary? S.input pos = some rest)
    (h₁ : m₁.knows id pos = none) (h₂ : m₂.knows id (pos + S.offset) = none)
    (hfind : S.related (m₁.find id pos).2 (m₂.find id (pos + S.offset)).2)
    (hstore : ∀ {o m₁' m₂'}, r₁ pos rest (m₁.find id pos).2 = (o, m₁') →
      r₂ (pos + S.offset) rest (m₂.find id (pos + S.offset)).2 = (Outcome.shift S.offset o, m₂') →
      (∀ e, o = .error e → ¬ S.excused e) →
      (∀ s, o = .ok s → (Text.fromBoundary? S.input (pos + s.consumed)).isSome = true) →
      S.related m₁' m₂' →
      S.related (m₁'.insert id pos o)
        (m₂'.insert id (pos + S.offset) (Outcome.shift S.offset o))) :
    S.Agree (S.SameMatch pos) (memoized id r₁ pos rest m₁)
      (memoized id r₂ (pos + S.offset) rest m₂) := by
  have hmiss := hr hpos hfind
  rw [memoized_of_not_knows h₁, memoized_of_not_knows h₂]
  revert hmiss hstore
  generalize r₁ pos rest (m₁.find id pos).2 = x
  generalize r₂ (pos + S.offset) rest (m₂.find id (pos + S.offset)).2 = y
  intro hstore hmiss
  cases hmiss with
  | excused he => exact .excused he
  | @failed e m₁' m₂' hm =>
    -- a failure may be excused although the second run shares it
    by_cases he : S.excused e
    · exact .excused he
    · exact .failed (hstore (o := .error e) rfl rfl (fun _ h => by cases h; exact he)
        (fun _ h => by cases h) hm)
  | @matched s t m₁' m₂' hs hm =>
    obtain ⟨rfl, hend⟩ := hs
    exact .matched ⟨rfl, hend⟩ (hstore (o := .ok s) rfl rfl (fun _ h => by cases h)
      (fun _ h => by cases h; exact hend) hm)

/-- What nodes with parts make of agreeing outcomes agrees. -/
theorem Agree.finish {α : Type} {same : α → α → Prop} {pos : Nat} (a : Attributes)
    {f g : α → Success} (hpos : (Text.fromBoundary? S.input pos).isSome = true)
    (hfg : ∀ x y, same x y → S.SameMatch pos (f x) (g y)) {x y : Except ParseError α × Memo}
    (h : S.Agree same x y) : S.Agree (S.SameMatch pos) (a.finish f x) (a.finish g y) := by
  cases h with
  | @excused e m y he =>
    rw [Attributes.finish, a.recover_of_isFatal (S.excused_fatal he)]
    exact .excused he
  | failed hm => exact .recover a hpos (.failed hm)
  | matched hs hm => exact .matched (hfg _ _ hs) hm

/-- Parts that end at corresponding places have taken equally much. -/
theorem SameStop.sameMatch {α : Type} {pos : Nat} {x y : α × Nat} (h : S.SameStop pos x y)
    (f : α → Nat → Value) :
    S.SameMatch pos ⟨f x.1 (x.2 - pos), x.2 - pos⟩
      ⟨f y.1 (y.2 - (pos + S.offset)), y.2 - (pos + S.offset)⟩ := by
  obtain ⟨rfl, hle, hend⟩ := h
  rw [Nat.add_sub_add_right]
  refine ⟨rfl, ?_⟩
  rw [Nat.add_sub_cancel' hle]
  exact hend

theorem evaluate_follows (F : Family rules member) (h : S.SideBySide rules member e₁ e₂)
    {m : Matcher} : member m → S.Follows (m.evaluate rules e₁) (m.evaluate rules e₂) := by
  induction m using Matcher.treeInduction with
  | step m ih =>
    intro hm
    -- parts and alternatives are always asked for by way of the memo
    have hasked : ∀ c ∈ m.children, S.FollowsAsked rules e₁ e₂ c := fun c hc =>
      h.ask (F.children hm hc) (ih c hc (F.children hm hc))
    intro pos rest m₁ m₂ hpos hrel
    have hstart : (Text.fromBoundary? S.input pos).isSome = true := by rw [hpos]; rfl
    cases m with
    | literal a text expected =>
      rw [Matcher.evaluate, Matcher.evaluate]
      exact matchLiteral_follows a text expected hpos hrel
    | pattern a regex expected =>
      rw [Matcher.evaluate, Matcher.evaluate]
      exact matchPattern_follows a regex expected hpos hrel
    | sequence a children =>
      rw [Matcher.evaluate_sequence, Matcher.evaluate_sequence]
      exact (evaluateAll_follows hasked [] hpos hrel).finish a hstart fun x y hs =>
        hs.sameMatch fun kept n => a.reshaped (sequenceValue children rest kept n)
    | choice a alternatives =>
      rw [Matcher.evaluate_choice, Matcher.evaluate_choice]
      exact (evaluateFirst_follows hasked [] hpos hrel).finish a hstart fun s t hs =>
        ⟨by rw [hs.1], hs.2⟩
    | repetition a child =>
      have hchild := List.mem_singleton_self child
      rw [Matcher.evaluate_repetition, Matcher.evaluate_repetition]
      have hround := run_follows (hasked child hchild) (ih child hchild (F.children hm hchild))
      exact (iterate_follows hround [] hpos hrel).finish a hstart fun x y hs =>
        hs.sameMatch fun items _ => a.reshaped (.list items)
    | rule a name slot =>
      cases hbody : slot.bind fun i => (rules[i]?).join with
      | none =>
        rw [Matcher.evaluate_rule_none _ _ _ _ _ _ _ hbody,
          Matcher.evaluate_rule_none _ _ _ _ _ _ _ hbody]
        exact .failed (e := .unresolved name) hrel
      | some body =>
        rw [Matcher.evaluate_rule _ _ _ _ _ _ _ hbody, Matcher.evaluate_rule _ _ _ _ _ _ _ hbody]
        exact (h.enter (isBody_of_slot hbody) hpos hrel).finish a hstart fun s t hs =>
          ⟨by rw [hs.1], hs.2⟩

theorem matchBody_follows (F : Family rules member) (h : S.SideBySide rules member e₁ e₂)
    {m : Matcher} (hm : member m) : S.Follows (m.run rules e₁) (m.run rules e₂) :=
  run_follows (h.ask hm (evaluate_follows F h hm)) (evaluate_follows F h hm)

/-- Two runs stay side by side where rules are entered with `gap` more entries left in the second,
if they do where the first one has none left. -/
theorem enter_follows (F : Family rules member) {limit limit' : Nat} (gap : Nat)
    (hask : ∀ left {m}, member m →
      S.Follows (m.evaluate rules (enter rules limit left))
        (m.evaluate rules (enter rules limit' (left + gap))) →
      S.FollowsAsked rules (enter rules limit left) (enter rules limit' (left + gap)) m)
    (hnone : ∀ {body}, IsBody rules body →
      S.Follows (enter rules limit 0 body) (enter rules limit' (0 + gap) body))
    (left : Nat) :
    S.SideBySide rules member (enter rules limit left) (enter rules limit' (left + gap)) := by
  -- on the entries that the first run has left: a body is matched with one entry less
  induction left with
  | zero => exact ⟨hask 0, hnone⟩
  | succ left ih =>
    refine ⟨hask (left + 1), fun hbody => ?_⟩
    rw [Nat.add_right_comm, enter, enter]
    exact matchBody_follows F ih (F.bodies hbody)

end Simulation

end Typestrip.Grammar
