import Typestrip.Proofs.Grammar.Calls
import Typestrip.Proofs.Text.Boundary

/-!
# What all failures have in common

Failures are built up on the way out of a match: a sequence says where it stopped, a choice collects
the failures of its alternatives, and what is remembered comes back unchanged. A `FailureLaw` is a
property of failures that survives all of this. Two kinds of outcome are told apart throughout: one
that aborts the parse, after which nothing is asked of the memo, and one with which the parse goes
on, which leaves the memo in order.

Main statements: `FailureLaw.enter_obeys`, matching keeps every such law; `FailureLaw.Kept.reached`,
so does every moment of a parse.
-/

namespace Typestrip.Grammar

/-- A property of the failures of matching from a position of `input` on. Failures that arise there
have it, and what a node makes of the failures of its parts has it if those have. -/
structure FailureLaw where
  input : List Char
  holds : Nat → ParseError → Prop
  unmatched : ∀ {pos} expected, Text.IsBoundary input pos → holds pos (.unmatched pos expected)
  tooDeep : ∀ {pos} limit, Text.IsBoundary input pos → holds pos (.tooDeep pos limit)
  unresolved : ∀ pos name, holds pos (.unresolved name)
  stopped : ∀ {pos e}, Text.IsBoundary input pos → holds pos e → e.isFatal = false →
    holds pos (.stopped pos e)
  exhausted : ∀ {pos es}, Text.IsBoundary input pos →
    (∀ e ∈ es, holds pos e ∧ e.isFatal = false) → holds pos (.exhausted pos es)
  /-- A failure of a part further on is one of the whole. -/
  earlier : ∀ {pos stop e}, pos ≤ stop → holds stop e → holds pos e

namespace FailureLaw

variable (L : FailureLaw)

/-- A match from `pos` on that ends at a character boundary. -/
def Inside (pos : Nat) (s : Success) : Prop := Text.IsBoundary L.input (pos + s.consumed)

/-- Parts from `pos` on that end at a character boundary. -/
def StopsInside {α : Type} (pos : Nat) (x : α × Nat) : Prop :=
  pos ≤ x.2 ∧ Text.IsBoundary L.input x.2

/-- All that is remembered keeps the law, and nothing of it is fatal. -/
structure InOrder (memo : Memo) : Prop where
  matched : ∀ {id pos s}, memo.knows id pos = some (.ok s) → L.Inside pos s
  failed : ∀ {id pos e}, memo.knows id pos = some (.error e) → e.isFatal = false ∧ L.holds pos e

/-- How matching from `pos` on ends: with a fatal failure, or with a memo that is in order. -/
inductive Ends {α : Type} (pos : Nat) (good : α → Prop) : Except ParseError α × Memo → Prop
  | aborted {e memo} : e.isFatal = true → L.holds pos e → Ends pos good (.error e, memo)
  | failed {e memo} : e.isFatal = false → L.holds pos e → L.InOrder memo →
      Ends pos good (.error e, memo)
  | matched {x memo} : good x → L.InOrder memo → Ends pos good (.ok x, memo)

/-- The recognizer keeps the law at every boundary of the input. -/
def Obeys (r : Recognizer) : Prop :=
  ∀ ⦃pos rest memo⦄, Text.fromBoundary? L.input pos = some rest → L.InOrder memo →
    L.Ends pos (L.Inside pos) (r pos rest memo)

variable {L}

theorem inOrder_empty (enabled : Bool) : L.InOrder (.empty enabled) where
  matched h := by simp at h
  failed h := by simp at h

theorem InOrder.find {memo : Memo} (h : L.InOrder memo) (id : NodeId) (pos : Nat) :
    L.InOrder (memo.find id pos).2 where
  matched hk := h.matched (by rwa [Memo.knows_find] at hk)
  failed hk := h.failed (by rwa [Memo.knows_find] at hk)

theorem InOrder.insert_ok {memo : Memo} (h : L.InOrder memo) (id : NodeId) {pos : Nat} {s : Success}
    (hs : L.Inside pos s) : L.InOrder (memo.insert id pos (.ok s)) where
  matched hk := by
    rw [Memo.knows_insert] at hk
    split at hk
    · next hkey =>
      obtain ⟨-, rfl⟩ := Prod.mk.injEq .. ▸ hkey.2
      cases hk
      exact hs
    · exact h.matched hk
  failed hk := by
    rw [Memo.knows_insert] at hk
    split at hk
    · cases hk
    · exact h.failed hk

theorem InOrder.insert_error {memo : Memo} (h : L.InOrder memo) (id : NodeId) {pos : Nat}
    {e : ParseError} (he : e.isFatal = false) (hlaw : L.holds pos e) :
    L.InOrder (memo.insert id pos (.error e)) where
  matched hk := by
    rw [Memo.knows_insert] at hk
    split at hk
    · cases hk
    · exact h.matched hk
  failed hk := by
    rw [Memo.knows_insert] at hk
    split at hk
    · next hkey =>
      obtain ⟨-, rfl⟩ := Prod.mk.injEq .. ▸ hkey.2
      cases hk
      exact ⟨he, hlaw⟩
    · exact h.failed hk

/-! ## Nodes by themselves -/

theorem Ends.mono {α : Type} {pos stop : Nat} {good good' : α → Prop} (hle : pos ≤ stop)
    (hgood : ∀ x, good x → good' x) {x : Except ParseError α × Memo} (h : L.Ends stop good x) :
    L.Ends pos good' x := by
  cases h with
  | aborted hfatal he => exact .aborted hfatal (L.earlier hle he)
  | failed hfatal he hm => exact .failed hfatal (L.earlier hle he) hm
  | matched hx hm => exact .matched (hgood _ hx) hm

theorem Ends.recover {pos : Nat} (a : Attributes) (hpos : Text.IsBoundary L.input pos) {o : Outcome}
    {memo : Memo} (h : L.Ends pos (L.Inside pos) (o, memo)) :
    L.Ends pos (L.Inside pos) (a.recover o, memo) := by
  cases h with
  | aborted hfatal he =>
    rw [a.recover_of_isFatal hfatal]
    exact .aborted hfatal he
  | failed hfatal he hm =>
    rw [Attributes.recover]
    split
    · exact .matched hpos hm
    · exact .failed hfatal he hm
  | matched hs hm => exact .matched hs hm

theorem Ends.finish {α : Type} {pos : Nat} {good : α → Prop} (a : Attributes) {f : α → Success}
    (hpos : Text.IsBoundary L.input pos) (hf : ∀ x, good x → L.Inside pos (f x))
    {x : Except ParseError α × Memo} (h : L.Ends pos good x) :
    L.Ends pos (L.Inside pos) (a.finish f x) := by
  cases h with
  | aborted hfatal he => exact .recover a hpos (.aborted hfatal he)
  | failed hfatal he hm => exact .recover a hpos (.failed hfatal he hm)
  | matched hx hm => exact .matched (hf _ hx) hm

theorem matchLiteral_ends (a : Attributes) (text : List Char) (expected : String) {pos : Nat}
    {rest : List Char} {memo : Memo} (hpos : Text.fromBoundary? L.input pos = some rest)
    (hm : L.InOrder memo) :
    L.Ends pos (L.Inside pos) (matchLiteral a text expected pos rest, memo) := by
  rw [matchLiteral]
  cases hs : stripPrefix? text rest with
  | none => exact .failed rfl (L.unmatched expected (Text.isBoundary_of_fromBoundary? hpos)) hm
  | some after =>
    refine .matched (Text.isBoundary_iff.mpr ⟨after, ?_⟩) hm
    rw [Text.fromBoundary?_add hpos, stripPrefix?_eq_some_iff.mp hs, Text.fromBoundary?_width]

theorem matchPattern_ends (a : Attributes) (regex : Regex.Expr) (expected : String) {pos : Nat}
    {rest : List Char} {memo : Memo} (hpos : Text.fromBoundary? L.input pos = some rest)
    (hm : L.InOrder memo) :
    L.Ends pos (L.Inside pos) (matchPattern a regex expected pos rest, memo) := by
  rw [matchPattern]
  cases regex.search? rest with
  | none => exact .failed rfl (L.unmatched expected (Text.isBoundary_of_fromBoundary? hpos)) hm
  | some n =>
    refine .matched (Text.isBoundary_iff.mpr ⟨rest.drop n, ?_⟩) hm
    have hcut := Text.fromBoundary?_width (rest.take n) (rest.drop n)
    rw [List.take_append_drop] at hcut
    rw [Text.fromBoundary?_add hpos, hcut]

/-! ## Nodes with parts -/

theorem memoized_obeys {r : Recognizer} (h : L.Obeys r) (id : NodeId) :
    L.Obeys (memoized id r) := by
  intro pos rest memo hpos hm
  cases hk : memo.knows id pos with
  | some o =>
    rw [memoized_of_knows hk]
    cases o with
    | ok s => exact .matched (hm.matched hk) (hm.find id pos)
    | error e => exact .failed (hm.failed hk).1 (hm.failed hk).2 (hm.find id pos)
  | none =>
    rw [memoized_of_not_knows hk]
    have hend := h hpos (hm.find id pos)
    revert hend
    rcases r pos rest (memo.find id pos).2 with ⟨o, memo'⟩
    intro hend
    cases hend with
    | aborted hfatal he => exact .aborted hfatal he
    | failed hfatal he hm => exact .failed hfatal he (hm.insert_error id hfatal he)
    | matched hs hm => exact .matched hs (hm.insert_ok id hs)

variable {rules : Rules} {e : Matcher → Recognizer}

theorem evaluateAll_ends {ms : List Matcher} (h : ∀ m ∈ ms, L.Obeys (m.evaluate rules e))
    (fields : List (String × Value)) {pos : Nat} {rest : List Char} {memo : Memo}
    (hpos : Text.fromBoundary? L.input pos = some rest) (hm : L.InOrder memo) :
    L.Ends pos (L.StopsInside pos) (Matcher.evaluateAll rules e ms fields pos rest memo) := by
  induction ms generalizing fields pos rest memo with
  | nil => exact .matched ⟨Nat.le_refl _, Text.isBoundary_of_fromBoundary? hpos⟩ hm
  | cons m ms ih =>
    have hhead := memoized_obeys (h m List.mem_cons_self) m.attributes.id hpos hm
    rw [Matcher.evaluateAll]
    revert hhead
    rcases memoized _ _ pos rest memo with ⟨o, memo'⟩
    intro hhead
    cases hhead with
    | @aborted cause _ hfatal he =>
      show L.Ends _ _ (Except.error (if cause.isFatal = true then cause else _), _)
      rw [if_pos hfatal]
      exact .aborted hfatal he
    | @failed cause _ hfatal he hm =>
      show L.Ends _ _ (Except.error (if cause.isFatal = true then cause else _), _)
      rw [if_neg (by rw [hfatal]; exact Bool.false_ne_true)]
      exact .failed rfl (L.stopped (Text.isBoundary_of_fromBoundary? hpos) he hfatal) hm
    | @matched s _ hs hm =>
      have htail := ih (fun m hm => h m (List.mem_cons_of_mem _ hm))
        (keep m.attributes s.value fields) (hs.fromBoundary?_step hpos) hm
      exact htail.mono (Nat.le_add_right _ _) fun x hx =>
        ⟨Nat.le_trans (Nat.le_add_right _ _) hx.1, hx.2⟩

theorem evaluateFirst_ends {ms : List Matcher} (h : ∀ m ∈ ms, L.Obeys (m.evaluate rules e))
    {failures : List ParseError} {pos : Nat} {rest : List Char} {memo : Memo}
    (hpos : Text.fromBoundary? L.input pos = some rest)
    (hfailures : ∀ e ∈ failures, L.holds pos e ∧ e.isFatal = false) (hm : L.InOrder memo) :
    L.Ends pos (L.Inside pos) (Matcher.evaluateFirst rules e ms failures pos rest memo) := by
  induction ms generalizing failures memo with
  | nil =>
    exact .failed rfl (L.exhausted (Text.isBoundary_of_fromBoundary? hpos)
      fun e he => hfailures e (List.mem_reverse.mp he)) hm
  | cons m ms ih =>
    have hhead := memoized_obeys (h m List.mem_cons_self) m.attributes.id hpos hm
    rw [Matcher.evaluateFirst]
    revert hhead
    rcases memoized _ _ pos rest memo with ⟨o, memo'⟩
    intro hhead
    cases hhead with
    | aborted hfatal he =>
      dsimp only
      rw [if_pos hfatal]
      exact .aborted hfatal he
    | failed hfatal he hm =>
      dsimp only
      rw [if_neg (by rw [hfatal]; exact Bool.false_ne_true)]
      exact ih (fun m hm => h m (List.mem_cons_of_mem _ hm))
        (List.forall_mem_cons.mpr ⟨⟨he, hfatal⟩, hfailures⟩) hm
    | matched hs hm => exact .matched hs hm

theorem iterate_ends {r : Recognizer} (h : L.Obeys r) (items : List Value) {pos : Nat}
    {rest : List Char} {memo : Memo} (hpos : Text.fromBoundary? L.input pos = some rest)
    (hm : L.InOrder memo) : L.Ends pos (L.StopsInside pos) (iterate r items pos rest memo) := by
  have hstop : L.StopsInside pos (items.reverse, pos) :=
    ⟨Nat.le_refl _, Text.isBoundary_of_fromBoundary? hpos⟩
  have hhead := h hpos hm
  rw [iterate]
  revert hhead
  rcases r pos rest memo with ⟨o, memo'⟩
  intro hhead
  cases hhead with
  | aborted hfatal he =>
    dsimp only
    rw [if_pos hfatal]
    exact .aborted hfatal he
  | failed hfatal he hm =>
    dsimp only
    rw [if_neg (by rw [hfatal]; exact Bool.false_ne_true)]
    exact .matched hstop hm
  | @matched s _ hs hm =>
    dsimp only
    -- a match of nothing ends the rounds, and so does the end of the input
    cases hn : s.consumed with
    | zero => exact .matched hstop hm
    | succ n =>
      cases hcs : rest with
      | nil => exact .matched hstop hm
      | cons c cs =>
        have hend : Text.IsBoundary L.input (pos + (n + 1)) := hn ▸ hs
        have htail := iterate_ends h (s.value :: items) (hend.fromBoundary?_step (hcs ▸ hpos)) hm
        exact htail.mono (Nat.le_add_right _ _) fun x hx =>
          ⟨Nat.le_trans (Nat.le_add_right _ _) hx.1, hx.2⟩
termination_by rest.length
decreasing_by
  rw [hcs]
  exact Text.length_dropBytes_lt _ _ _

theorem run_obeys {m : Matcher} (h : L.Obeys (m.evaluate rules e)) : L.Obeys (m.run rules e) := by
  rw [Matcher.run]
  split
  · exact memoized_obeys h _
  · exact h

/-! ## All nodes -/

/-- Parts that end inside the input are a match that does. -/
theorem StopsInside.inside {α : Type} {pos : Nat} {x : α × Nat} (h : L.StopsInside pos x)
    (v : Value) : L.Inside pos ⟨v, x.2 - pos⟩ := by
  show Text.IsBoundary L.input (pos + (x.2 - pos))
  rw [Nat.add_sub_cancel' h.1]
  exact h.2

theorem Inside.reshaped {pos : Nat} {s : Success} (h : L.Inside pos s) (v : Value) :
    L.Inside pos ⟨v, s.consumed⟩ := h

theorem evaluate_obeys (h : ∀ {body}, IsBody rules body → L.Obeys (e body)) (m : Matcher) :
    L.Obeys (m.evaluate rules e) := by
  induction m using Matcher.treeInduction with
  | step m ih =>
    intro pos rest memo hpos hm
    have hstart := Text.isBoundary_of_fromBoundary? hpos
    cases m with
    | literal a text expected =>
      rw [Matcher.evaluate_literal]
      exact .recover a hstart (matchLiteral_ends a text expected hpos hm)
    | pattern a regex expected =>
      rw [Matcher.evaluate_pattern]
      exact .recover a hstart (matchPattern_ends a regex expected hpos hm)
    | sequence a children =>
      rw [Matcher.evaluate_sequence]
      exact (evaluateAll_ends ih [] hpos hm).finish a hstart fun x hx => hx.inside _
    | choice a alternatives =>
      rw [Matcher.evaluate_choice]
      exact (evaluateFirst_ends ih hpos (List.forall_mem_nil _) hm).finish a hstart fun s hs =>
        hs.reshaped _
    | repetition a child =>
      rw [Matcher.evaluate_repetition]
      have hround := run_obeys (ih child (List.mem_singleton_self child))
      exact (iterate_ends hround [] hpos hm).finish a hstart fun x hx => hx.inside _
    | rule a name slot =>
      cases hbody : slot.bind fun i => (rules[i]?).join with
      | none =>
        rw [Matcher.evaluate_rule_none _ _ _ _ _ _ _ hbody]
        exact .aborted rfl (L.unresolved pos name)
      | some body =>
        rw [Matcher.evaluate_rule _ _ _ _ _ _ _ hbody]
        exact (h (isBody_of_slot hbody) hpos hm).finish a hstart fun s hs => hs.reshaped _

/-- Matching the body of a rule keeps the law, however many entries are left. -/
theorem enter_obeys (L : FailureLaw) (rules : Rules) (limit left : Nat) (body : Matcher) :
    L.Obeys (enter rules limit left body) := by
  -- on the entries left: a body is matched with one entry less
  induction left generalizing body with
  | zero =>
    intro pos rest memo hpos hm
    exact .aborted rfl (L.tooDeep limit (Text.isBoundary_of_fromBoundary? hpos))
  | succ left ih => exact run_obeys (evaluate_obeys (fun _ => ih _) body)

theorem node_obeys (L : FailureLaw) (rules : Rules) (limit left : Nat) (m : Matcher) :
    L.Obeys (m.evaluate rules (enter rules limit left)) :=
  evaluate_obeys (fun _ => L.enter_obeys rules limit left _) m

theorem ask_obeys (L : FailureLaw) (rules : Rules) (limit left : Nat) (m : Matcher) :
    L.Obeys (memoized m.attributes.id (m.evaluate rules (enter rules limit left))) :=
  memoized_obeys (L.node_obeys rules limit left m) _

/-! ## Moments of a parse -/

/-- A moment at a character boundary, with a memo in order. -/
structure Kept (L : FailureLaw) (x : Frame) : Prop where
  boundary : Text.fromBoundary? L.input x.pos = some x.rest
  memo : L.InOrder x.memo

theorem Kept.calls {limit : Nat} {x y : Frame} (hx : L.Kept x) (h : Calls rules limit x y) :
    L.Kept y := by
  obtain ⟨hpos, hm⟩ := hx
  cases h with
  | ask hfind =>
    obtain rfl := congrArg Prod.snd hfind
    exact ⟨hpos, hm.find _ _⟩
  | @partMatched m ms fields left pos rest memo s memo' hhead =>
    dsimp only at hpos hm
    have hend := L.ask_obeys rules limit left m hpos hm
    rw [hhead] at hend
    cases hend with
    | matched hs hm => exact ⟨hs.fromBoundary?_step hpos, hm⟩
  | @alternativeFailed m ms failures left pos rest memo e memo' hhead hfatal =>
    dsimp only at hpos hm
    have hend := L.ask_obeys rules limit left m hpos hm
    rw [hhead] at hend
    cases hend with
    | aborted hfatal' => exact absurd (hfatal.symm.trans hfatal') Bool.false_ne_true
    | failed _ _ hm => exact ⟨hpos, hm⟩
  | @roundMatched child items left pos c cs memo s n memo' hhead hs =>
    dsimp only at hpos hm
    have hend := L.enter_obeys rules limit (left + 1) child hpos hm
    rw [enter, hhead] at hend
    cases hend with
    | matched hinside hm =>
      rw [Inside, hs] at hinside
      exact ⟨hinside.fromBoundary?_step hpos, hm⟩
  | _ => exact ⟨hpos, hm⟩

theorem Kept.reached {limit : Nat} {x y : Frame} (hx : L.Kept x)
    (h : Relation.ReflTransGen (Calls rules limit) x y) : L.Kept y := by
  induction h with
  | refl => exact hx
  | tail _ hcall ih => exact ih.calls hcall

/-! ## Whole parses -/

theorem Ends.holds {α : Type} {pos : Nat} {good : α → Prop} {e : ParseError} {memo : Memo}
    (h : L.Ends pos good (.error e, memo)) : L.holds pos e := by
  cases h with
  | aborted _ he | failed _ he _ => exact he

theorem Ends.good {α : Type} {pos : Nat} {good : α → Prop} {x : α} {memo : Memo}
    (h : L.Ends pos good (.ok x, memo)) : good x := by
  cases h with
  | matched hx _ => exact hx

/-- A parse begins at a boundary with a memo in order. -/
theorem start_kept (L : FailureLaw) (p : Parser) (options : Options) {input : List Char}
    (h : L.input = input) : L.Kept (p.start options input) := by
  subst h
  exact ⟨Text.fromBoundary?_zero _, inOrder_empty _⟩

/-- Where the failure of a parse does not keep the law, the root has matched and input is left
over. -/
theorem parse_failure (L : FailureLaw) {p : Parser} {options : Options} {input : List Char}
    (hinput : L.input = input) {e : ParseError} (h : p.parse options input = .error e) :
    (∃ s : Success, L.Inside 0 s ∧ e = .leftOver s.consumed) ∨
      (p.matchAt options.maxDepth 0 input (.empty options.memoize)).1 = .error e ∧
        L.holds 0 e := by
  subst hinput
  -- the root is matched as the body of a rule is
  have hroot : L.Ends 0 (L.Inside 0)
      (p.matchAt options.maxDepth 0 L.input (.empty options.memoize)) :=
    L.enter_obeys p.rules options.maxDepth (options.maxDepth + 1) p.root
      (Text.fromBoundary?_zero _) (inOrder_empty _)
  rw [p.parse_eq] at h
  revert h hroot
  rcases p.matchAt options.maxDepth 0 L.input (.empty options.memoize) with ⟨cause | s, memo⟩
  · intro h hroot
    rw [Options.complete_error] at h
    obtain rfl := Except.error.inj h
    exact .inr ⟨rfl, hroot.holds⟩
  · intro h hroot
    rcases options.complete_ok L.input s with hs | ⟨-, hs⟩ <;> rw [hs] at h
    · cases h
    · exact .inl ⟨s, hroot.good, (Except.error.inj h).symm⟩

end FailureLaw

end Typestrip.Grammar
