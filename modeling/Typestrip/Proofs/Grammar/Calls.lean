import Mathlib.Data.Set.Finite.Lattice
import Mathlib.Logic.Relation
import Mathlib.Order.WellFounded
import Typestrip.Proofs.Grammar.Matching
import Typestrip.Proofs.Grammar.Memo

/-!
# The calls of a parse

`Calls` says of a moment of a parse which further ones it leads to: a sequence asks for its parts
one after the other, a rule has its body matched with one entry less left, and so on. What is
reached from a frame by calls is under way while the frame is.

Main statements: `calls_wellFounded`, every chain of calls comes to an end, whatever the grammar is;
`Calls.failure`, a fatal failure of a call is the failure of the caller; and
`Frame.exists_call_of_isFatal`, where a fatal failure comes from.
-/

namespace Typestrip.Grammar

/-- What there is to do at some moment of a parse. -/
inductive Task where
  | run (m : Matcher)
  | ask (m : Matcher)
  | evaluate (m : Matcher)
  | parts (ms : List Matcher) (fields : List (String × Value))
  | alternatives (ms : List Matcher) (failures : List ParseError)
  | rounds (child : Matcher) (items : List Value)
  /-- The rule in a slot is about to be entered. -/
  | enter (slot : Nat)

/-- A moment of a parse: what there is to do, how many rules may still be entered, the position, the
input from there on, and what is remembered. -/
structure Frame where
  task : Task
  left : Nat
  pos : Nat
  rest : List Char
  memo : Memo

/-- A frame leads to another one. -/
inductive Calls (rules : Rules) (limit : Nat) : Frame → Frame → Prop
  | runTerminal {m left pos rest memo} : m.isTerminal = true →
      Calls rules limit ⟨.run m, left, pos, rest, memo⟩ ⟨.ask m, left, pos, rest, memo⟩
  | runOther {m left pos rest memo} : m.isTerminal = false →
      Calls rules limit ⟨.run m, left, pos, rest, memo⟩ ⟨.evaluate m, left, pos, rest, memo⟩
  | ask {m left pos rest memo memo'} : memo.find m.attributes.id pos = (none, memo') →
      Calls rules limit ⟨.ask m, left, pos, rest, memo⟩ ⟨.evaluate m, left, pos, rest, memo'⟩
  | sequence {a ms left pos rest memo} :
      Calls rules limit ⟨.evaluate (.sequence a ms), left, pos, rest, memo⟩
        ⟨.parts ms [], left, pos, rest, memo⟩
  | part {m ms fields left pos rest memo} :
      Calls rules limit ⟨.parts (m :: ms) fields, left, pos, rest, memo⟩
        ⟨.ask m, left, pos, rest, memo⟩
  | partMatched {m ms fields left pos rest memo s memo'} :
      memoized m.attributes.id (m.evaluate rules (enter rules limit left)) pos rest memo =
        (.ok s, memo') →
      Calls rules limit ⟨.parts (m :: ms) fields, left, pos, rest, memo⟩
        ⟨.parts ms (keep m.attributes s.value fields), left, pos + s.consumed,
          Text.dropBytes rest s.consumed, memo'⟩
  | choice {a ms left pos rest memo} :
      Calls rules limit ⟨.evaluate (.choice a ms), left, pos, rest, memo⟩
        ⟨.alternatives ms [], left, pos, rest, memo⟩
  | alternative {m ms failures left pos rest memo} :
      Calls rules limit ⟨.alternatives (m :: ms) failures, left, pos, rest, memo⟩
        ⟨.ask m, left, pos, rest, memo⟩
  | alternativeFailed {m ms failures left pos rest memo e memo'} :
      memoized m.attributes.id (m.evaluate rules (enter rules limit left)) pos rest memo =
        (.error e, memo') → e.isFatal = false →
      Calls rules limit ⟨.alternatives (m :: ms) failures, left, pos, rest, memo⟩
        ⟨.alternatives ms (e :: failures), left, pos, rest, memo'⟩
  | repetition {a child left pos rest memo} :
      Calls rules limit ⟨.evaluate (.repetition a child), left, pos, rest, memo⟩
        ⟨.rounds child [], left, pos, rest, memo⟩
  | round {child items left pos rest memo} :
      Calls rules limit ⟨.rounds child items, left, pos, rest, memo⟩
        ⟨.run child, left, pos, rest, memo⟩
  | roundMatched {child items left pos c cs memo s n memo'} :
      child.run rules (enter rules limit left) pos (c :: cs) memo = (.ok s, memo') →
      s.consumed = n + 1 →
      Calls rules limit ⟨.rounds child items, left, pos, c :: cs, memo⟩
        ⟨.rounds child (s.value :: items), left, pos + (n + 1), Text.dropBytes (c :: cs) (n + 1),
          memo'⟩
  | rule {a name slot body left pos rest memo} : (rules[slot]?).join = some body →
      Calls rules limit ⟨.evaluate (.rule a name (some slot)), left, pos, rest, memo⟩
        ⟨.enter slot, left, pos, rest, memo⟩
  | enter {slot body left pos rest memo} : (rules[slot]?).join = some body →
      Calls rules limit ⟨.enter slot, left + 1, pos, rest, memo⟩
        ⟨.run body, left, pos, rest, memo⟩

/-- Where a parse begins. -/
def Parser.start (p : Parser) (options : Options) (input : List Char) : Frame :=
  ⟨.run p.root, options.maxDepth, 0, input, .empty options.memoize⟩

/-- A moment that comes in the course of a parse. -/
def Parser.Reaches (p : Parser) (options : Options) (input : List Char) (x : Frame) : Prop :=
  Relation.ReflTransGen (Calls p.rules options.maxDepth) (p.start options input) x

variable {rules : Rules} {limit : Nat}

/-! ## Calls come to an end -/

/-- How much there is to do before a rule is entered or input is taken. -/
noncomputable def Task.weight : Task → Nat
  | run m => 4 * sizeOf m + 2
  | ask m => 4 * sizeOf m + 1
  | evaluate m => 4 * sizeOf m
  | parts ms _ | alternatives ms _ => 4 * sizeOf ms
  | rounds child _ => 4 * sizeOf child + 3
  | enter _ => 0

/-- What every call makes smaller: entries left, then what there is to do, then the input. -/
noncomputable def Frame.rank (x : Frame) : Nat × Nat × Nat := (x.left, x.task.weight, x.rest.length)

/-- The order of ranks. -/
def rankLt : Nat × Nat × Nat → Nat × Nat × Nat → Prop :=
  Prod.Lex (· < ·) (Prod.Lex (· < ·) (· < ·))

theorem rankLt_wellFounded : WellFounded rankLt :=
  WellFounded.prod_lex Nat.lt_wfRel.wf (WellFounded.prod_lex Nat.lt_wfRel.wf Nat.lt_wfRel.wf)

theorem rankLt_of_weight {left w w' n n' : Nat} (h : w' < w) : rankLt (left, w', n') (left, w, n) :=
  .right _ (.left _ _ h)

theorem Calls.rank_lt {x y : Frame} (h : Calls rules limit x y) : rankLt y.rank x.rank := by
  cases h with
  | enter => exact .left _ _ (Nat.lt_succ_self _)
  -- the next round of the same repetition is the only call that goes by the input
  | roundMatched => exact .right _ (.right _ (Text.length_dropBytes_lt _ _ _))
  | runTerminal | runOther | ask | round =>
    refine rankLt_of_weight ?_
    simp only [Task.weight]
    omega
  | sequence | choice | repetition | rule =>
    refine rankLt_of_weight ?_
    simp only [Task.weight, Matcher.sequence.sizeOf_spec, Matcher.choice.sizeOf_spec,
      Matcher.repetition.sizeOf_spec, Matcher.rule.sizeOf_spec]
    omega
  | part | partMatched | alternative | alternativeFailed =>
    refine rankLt_of_weight ?_
    simp only [Task.weight, List.cons.sizeOf_spec]
    omega

/-- Every chain of calls comes to an end. -/
theorem calls_wellFounded (rules : Rules) (limit : Nat) :
    WellFounded fun y x => Calls rules limit x y :=
  Subrelation.wf Calls.rank_lt (InvImage.wf Frame.rank rankLt_wellFounded)

/-- The calls of a frame, one after the other. -/
def Frame.calls (rules : Rules) (limit : Nat) : Frame → List Frame
  | ⟨.run m, left, pos, rest, memo⟩ =>
    [⟨if m.isTerminal then .ask m else .evaluate m, left, pos, rest, memo⟩]
  | ⟨.ask m, left, pos, rest, memo⟩ =>
    match memo.find m.attributes.id pos with
    | (some _, _) => []
    | (none, memo') => [⟨.evaluate m, left, pos, rest, memo'⟩]
  | ⟨.evaluate (.sequence _ ms), left, pos, rest, memo⟩ => [⟨.parts ms [], left, pos, rest, memo⟩]
  | ⟨.evaluate (.choice _ ms), left, pos, rest, memo⟩ =>
    [⟨.alternatives ms [], left, pos, rest, memo⟩]
  | ⟨.evaluate (.repetition _ child), left, pos, rest, memo⟩ =>
    [⟨.rounds child [], left, pos, rest, memo⟩]
  | ⟨.evaluate (.rule _ _ (some slot)), left, pos, rest, memo⟩ =>
    if (rules[slot]?).join.isSome then [⟨.enter slot, left, pos, rest, memo⟩] else []
  | ⟨.parts (m :: ms) fields, left, pos, rest, memo⟩ =>
    ⟨.ask m, left, pos, rest, memo⟩ ::
      match memoized m.attributes.id (m.evaluate rules (enter rules limit left)) pos rest memo with
      | (.ok s, memo') => [⟨.parts ms (keep m.attributes s.value fields), left, pos + s.consumed,
          Text.dropBytes rest s.consumed, memo'⟩]
      | (.error _, _) => []
  | ⟨.alternatives (m :: ms) failures, left, pos, rest, memo⟩ =>
    ⟨.ask m, left, pos, rest, memo⟩ ::
      match memoized m.attributes.id (m.evaluate rules (enter rules limit left)) pos rest memo with
      | (.ok _, _) => []
      | (.error e, memo') =>
        if e.isFatal then [] else [⟨.alternatives ms (e :: failures), left, pos, rest, memo'⟩]
  | ⟨.rounds child items, left, pos, rest, memo⟩ =>
    ⟨.run child, left, pos, rest, memo⟩ ::
      match child.run rules (enter rules limit left) pos rest memo with
      | (.ok s, memo') =>
        match s.consumed, rest with
        | n + 1, c :: cs => [⟨.rounds child (s.value :: items), left, pos + (n + 1),
            Text.dropBytes (c :: cs) (n + 1), memo'⟩]
        | _, _ => []
      | (.error _, _) => []
  | ⟨.enter slot, left + 1, pos, rest, memo⟩ =>
    ((rules[slot]?).join.map fun body => ⟨.run body, left, pos, rest, memo⟩).toList
  | _ => []

theorem Calls.mem_calls {x y : Frame} (h : Calls rules limit x y) : y ∈ x.calls rules limit := by
  cases h with
  | runTerminal hm | runOther hm => simp [Frame.calls, hm]
  | ask hfind => simp [Frame.calls, hfind]
  | sequence | choice | repetition | part | alternative | round => simp [Frame.calls]
  | rule hbody => simp [Frame.calls, hbody]
  | partMatched hhead => simp [Frame.calls, hhead]
  | alternativeFailed hhead hfatal => simp [Frame.calls, hhead, hfatal]
  | roundMatched hhead hs => simp [Frame.calls, hhead, hs]
  | enter hbody => simp [Frame.calls, hbody]

theorem calls_of_mem {x y : Frame} (h : y ∈ x.calls rules limit) : Calls rules limit x y := by
  unfold Frame.calls at h
  split at h
  · next m left pos rest memo =>
    obtain rfl := List.mem_singleton.mp h
    cases hm : m.isTerminal with
    | true => exact .runTerminal hm
    | false => exact .runOther hm
  · split at h
    · cases h
    · next hfind =>
      obtain rfl := List.mem_singleton.mp h
      exact .ask hfind
  · obtain rfl := List.mem_singleton.mp h
    exact .sequence
  · obtain rfl := List.mem_singleton.mp h
    exact .choice
  · obtain rfl := List.mem_singleton.mp h
    exact .repetition
  · split at h
    · next hbody =>
      obtain rfl := List.mem_singleton.mp h
      obtain ⟨body, hbody⟩ := Option.isSome_iff_exists.mp hbody
      exact .rule hbody
    · cases h
  · rcases List.mem_cons.mp h with rfl | h
    · exact .part
    · split at h
      · next hhead =>
        obtain rfl := List.mem_singleton.mp h
        exact .partMatched hhead
      · cases h
  · rcases List.mem_cons.mp h with rfl | h
    · exact .alternative
    · split at h
      · cases h
      · next hhead =>
        split at h
        · cases h
        · next hfatal =>
          obtain rfl := List.mem_singleton.mp h
          exact .alternativeFailed hhead (Bool.eq_false_of_not_eq_true hfatal)
  · rcases List.mem_cons.mp h with rfl | h
    · exact .round
    · split at h
      · next hhead =>
        split at h
        · next hs h =>
          obtain rfl := List.mem_singleton.mp h
          exact .roundMatched hhead hs
        · cases h
      · cases h
  · obtain ⟨body, hbody, rfl⟩ := Option.map_eq_some_iff.mp (Option.mem_toList.mp h)
    exact .enter hbody
  · cases h

/-- The moment that a frame leads to if of its calls the one with the first number is followed, of
the calls of that the one with the second number, and so on. -/
def Frame.follow (rules : Rules) (limit : Nat) : List Nat → Frame → Option Frame
  | [], x => some x
  | i :: is, x => ((x.calls rules limit)[i]?).bind (follow rules limit is)

theorem Frame.reaches_of_follow {is : List Nat} {x y : Frame}
    (h : x.follow rules limit is = some y) : Relation.ReflTransGen (Calls rules limit) x y := by
  induction is generalizing x with
  | nil =>
    obtain rfl := Option.some.inj h
    exact .refl
  | cons i is ih =>
    obtain ⟨z, hz, hy⟩ := Option.bind_eq_some_iff.mp h
    exact .head (calls_of_mem (List.mem_of_getElem? hz)) (ih hy)

/-- All that a frame leads to, directly or through further calls, is finite. -/
theorem finite_reached (rules : Rules) (limit : Nat) (x : Frame) :
    {y | Relation.ReflTransGen (Calls rules limit) x y}.Finite := by
  induction x using (calls_wellFounded rules limit).induction with
  | _ x ih =>
    have hcalls : {y | Calls rules limit x y}.Finite :=
      (List.finite_toSet (x.calls rules limit)).subset fun y h => h.mem_calls
    refine ((Set.finite_singleton x).union (hcalls.biUnion ih)).subset fun y hy => ?_
    rcases Relation.ReflTransGen.cases_head hy with rfl | ⟨z, hxz, hzy⟩
    · exact .inl rfl
    · exact .inr (Set.mem_biUnion hxz hzy)

/-! ## Failures of calls -/

/-- The failure of an outcome. -/
def failure? {α : Type} : Except ParseError α → Option ParseError
  | .error e => some e
  | .ok _ => none

@[simp] theorem failure?_error {α : Type} (e : ParseError) :
    failure? (.error e : Except ParseError α) = some e := rfl

@[simp] theorem failure?_ok {α : Type} (x : α) : failure? (.ok x) = none := rfl

theorem failure?_eq_some {α : Type} {x : Except ParseError α} {e : ParseError} :
    failure? x = some e ↔ x = .error e := by
  cases x <;> simp

/-- The failure with which a frame ends. -/
def Frame.failure (rules : Rules) (limit : Nat) (x : Frame) : Option ParseError :=
  let entering := Grammar.enter rules limit x.left
  match x.task with
  | .run m => failure? (m.run rules entering x.pos x.rest x.memo).1
  | .ask m =>
    failure? (memoized m.attributes.id (m.evaluate rules entering) x.pos x.rest x.memo).1
  | .evaluate m => failure? (m.evaluate rules entering x.pos x.rest x.memo).1
  | .parts ms fields =>
    failure? (Matcher.evaluateAll rules entering ms fields x.pos x.rest x.memo).1
  | .alternatives ms failures =>
    failure? (Matcher.evaluateFirst rules entering ms failures x.pos x.rest x.memo).1
  | .rounds child items => failure? (iterate (child.run rules entering) items x.pos x.rest x.memo).1
  | .enter slot => (rules[slot]?).join.bind fun body =>
    failure? (entering body x.pos x.rest x.memo).1

/-- A node with parts passes their fatal failures on. -/
theorem failure?_finish_of_isFatal {α : Type} {a : Attributes} {f : α → Success}
    {x : Except ParseError α × Memo} {e : ParseError} (he : e.isFatal = true)
    (h : failure? x.1 = some e) : failure? (a.finish f x).1 = some e := by
  rcases x with ⟨e' | s, memo⟩
  · obtain rfl := Option.some.inj h
    show failure? (a.recover (.error e')) = _
    rw [a.recover_of_isFatal he, failure?_error]
  · simp at h

theorem failure?_of_recover {a : Attributes} {o : Outcome} {e : ParseError}
    (h : failure? (a.recover o) = some e) : failure? o = some e := by
  cases o with
  | ok s => exact h
  | error e' =>
    rw [Attributes.recover] at h
    split at h
    · simp at h
    · exact h

/-- A failure of a node with parts is that of its parts. -/
theorem failure?_of_finish {α : Type} {a : Attributes} {f : α → Success}
    {x : Except ParseError α × Memo} {e : ParseError} (h : failure? (a.finish f x).1 = some e) :
    failure? x.1 = some e := by
  rcases x with ⟨e' | s, memo⟩
  · exact failure?_of_recover (o := .error e') h
  · simp [Attributes.finish] at h

/-- A fatal failure of a call is the failure of the caller. -/
theorem Calls.failure {x y : Frame} {e : ParseError} (h : Calls rules limit x y)
    (hy : y.failure rules limit = some e) (he : e.isFatal = true) :
    x.failure rules limit = some e := by
  cases h with
  | runTerminal hm => simpa only [Frame.failure, Matcher.run, if_pos hm] using hy
  | runOther hm =>
    simpa only [Frame.failure, Matcher.run, hm, Bool.false_eq_true, if_false] using hy
  | ask hfind =>
    simp only [Frame.failure, memoized, hfind] at hy ⊢
    exact hy
  | sequence =>
    simp only [Frame.failure, Matcher.evaluate_sequence] at hy ⊢
    exact failure?_finish_of_isFatal he hy
  | @part m ms fields left pos rest memo =>
    simp only [Frame.failure, Matcher.evaluateAll] at hy ⊢
    revert hy
    rcases memoized _ _ pos rest memo with ⟨e' | s, memo'⟩
    · intro hy
      obtain rfl := Option.some.inj hy
      simp only [he, if_true, failure?_error]
    · simp
  | partMatched hhead =>
    simp only [Frame.failure, Matcher.evaluateAll, hhead] at hy ⊢
    exact hy
  | choice =>
    simp only [Frame.failure, Matcher.evaluate_choice] at hy ⊢
    exact failure?_finish_of_isFatal he hy
  | @alternative m ms failures left pos rest memo =>
    simp only [Frame.failure, Matcher.evaluateFirst] at hy ⊢
    revert hy
    rcases memoized _ _ pos rest memo with ⟨e' | s, memo'⟩
    · intro hy
      obtain rfl := Option.some.inj hy
      simp only [he, if_true, failure?_error]
    · simp
  | alternativeFailed hhead hfatal =>
    simp only [Frame.failure, Matcher.evaluateFirst, hhead, hfatal] at hy ⊢
    exact hy
  | repetition =>
    simp only [Frame.failure, Matcher.evaluate_repetition] at hy ⊢
    exact failure?_finish_of_isFatal he hy
  | @round child items left pos rest memo =>
    simp only [Frame.failure] at hy ⊢
    rw [iterate]
    revert hy
    rcases child.run rules _ pos rest memo with ⟨e' | s, memo'⟩
    · intro hy
      obtain rfl := Option.some.inj hy
      simp only [he, if_true, failure?_error]
    · simp
  | roundMatched hhead hs =>
    simp only [Frame.failure] at hy ⊢
    rw [iterate, hhead]
    simp only [hs]
    exact hy
  | rule hbody =>
    simp only [Frame.failure, hbody, Option.bind_some] at hy ⊢
    rw [Matcher.evaluate_rule _ _ _ _ _ _ _ (by rw [Option.bind_some, hbody])]
    exact failure?_finish_of_isFatal he hy
  | enter hbody =>
    simp only [Frame.failure, hbody, Option.bind_some] at hy ⊢
    rw [Grammar.enter]
    exact hy

/-! ## Where fatal failures come from -/

/-- A fatal failure is raised: no more rules may be entered, or a rule has no body. -/
inductive Raises (rules : Rules) (limit : Nat) : Frame → ParseError → Prop
  | tooDeep {slot body pos rest memo} : (rules[slot]?).join = some body →
      Raises rules limit ⟨.enter slot, 0, pos, rest, memo⟩ (.tooDeep pos limit)
  | unresolved {a name slot left pos rest memo} :
      (slot.bind fun i => (rules[i]?).join) = none →
      Raises rules limit ⟨.evaluate (.rule a name slot), left, pos, rest, memo⟩ (.unresolved name)

theorem Raises.isFatal {x : Frame} {e : ParseError} (h : Raises rules limit x e) :
    e.isFatal = true := by
  cases h <;> rfl

/-- Where a failure is raised, the frame ends with it. -/
theorem Raises.failure {x : Frame} {e : ParseError} (h : Raises rules limit x e) :
    x.failure rules limit = some e := by
  cases h with
  | tooDeep hbody =>
    simp only [Frame.failure, hbody, Option.bind_some]
    rfl
  | unresolved hbody =>
    simp only [Frame.failure]
    rw [Matcher.evaluate_rule_none _ _ _ _ _ _ _ hbody, failure?_error]

section Origin

variable {left start : Nat} {rest : List Char} {memo : Memo} {e : ParseError}

theorem exists_call_of_evaluate {m : Matcher} (he : e.isFatal = true)
    (h : Frame.failure rules limit ⟨.evaluate m, left, start, rest, memo⟩ = some e) :
    Raises rules limit ⟨.evaluate m, left, start, rest, memo⟩ e ∨
      ∃ y, Calls rules limit ⟨.evaluate m, left, start, rest, memo⟩ y ∧
        y.failure rules limit = some e := by
  simp only [Frame.failure] at h
  cases m with
  | literal a text expected =>
    rw [Matcher.evaluate] at h
    have hfail := failure?_of_recover h
    unfold matchLiteral at hfail
    split at hfail
    · simp at hfail
    · obtain rfl := Option.some.inj hfail
      cases he
  | pattern a regex expected =>
    rw [Matcher.evaluate] at h
    have hfail := failure?_of_recover h
    unfold matchPattern at hfail
    split at hfail
    · simp at hfail
    · obtain rfl := Option.some.inj hfail
      cases he
  | sequence a ms =>
    rw [Matcher.evaluate_sequence] at h
    exact .inr ⟨_, .sequence, failure?_of_finish h⟩
  | choice a ms =>
    rw [Matcher.evaluate_choice] at h
    exact .inr ⟨_, .choice, failure?_of_finish h⟩
  | repetition a child =>
    rw [Matcher.evaluate_repetition] at h
    exact .inr ⟨_, .repetition, failure?_of_finish h⟩
  | rule a name slot =>
    cases hbody : slot.bind fun i => (rules[i]?).join with
    | none =>
      rw [Matcher.evaluate_rule_none _ _ _ _ _ _ _ hbody] at h
      obtain rfl := Option.some.inj h
      exact .inl (.unresolved hbody)
    | some body =>
      rw [Matcher.evaluate_rule _ _ _ _ _ _ _ hbody] at h
      obtain ⟨i, rfl, hi⟩ := Option.bind_eq_some_iff.mp hbody
      refine .inr ⟨_, .rule hi, ?_⟩
      simp only [Frame.failure, hi, Option.bind_some]
      exact failure?_of_finish h

theorem exists_call_of_parts {ms : List Matcher} {fields : List (String × Value)}
    (he : e.isFatal = true)
    (h : Frame.failure rules limit ⟨.parts ms fields, left, start, rest, memo⟩ = some e) :
    ∃ y, Calls rules limit ⟨.parts ms fields, left, start, rest, memo⟩ y ∧
      y.failure rules limit = some e := by
  simp only [Frame.failure] at h
  cases ms with
  | nil => simp [Matcher.evaluateAll] at h
  | cons m ms =>
    rw [Matcher.evaluateAll] at h
    rcases hhead : memoized m.attributes.id (m.evaluate rules (enter rules limit left)) start rest
      memo with ⟨e' | s, memo'⟩
    · rw [hhead] at h
      refine ⟨_, .part, ?_⟩
      simp only [Frame.failure, hhead, failure?_error]
      have hcause : (if e'.isFatal = true then e' else .stopped start e') = e := Option.some.inj h
      split at hcause
      · rw [hcause]
      · subst hcause
        cases he
    · rw [hhead] at h
      exact ⟨_, .partMatched hhead, h⟩

theorem exists_call_of_alternatives {ms : List Matcher} {failures : List ParseError}
    (he : e.isFatal = true)
    (h : Frame.failure rules limit ⟨.alternatives ms failures, left, start, rest, memo⟩ = some e) :
    ∃ y, Calls rules limit ⟨.alternatives ms failures, left, start, rest, memo⟩ y ∧
      y.failure rules limit = some e := by
  simp only [Frame.failure] at h
  cases ms with
  | nil =>
    rw [Matcher.evaluateFirst] at h
    obtain rfl := Option.some.inj h
    cases he
  | cons m ms =>
    rw [Matcher.evaluateFirst] at h
    rcases hhead : memoized m.attributes.id (m.evaluate rules (enter rules limit left)) start rest
      memo with ⟨e' | s, memo'⟩
    · rw [hhead] at h
      dsimp only at h
      split at h
      · refine ⟨_, .alternative, ?_⟩
        simp only [Frame.failure, hhead, failure?_error]
        exact h
      · next hfatal => exact ⟨_, .alternativeFailed hhead (Bool.eq_false_of_not_eq_true hfatal), h⟩
    · rw [hhead] at h
      simp at h

theorem exists_call_of_rounds {child : Matcher} {items : List Value}
    (h : Frame.failure rules limit ⟨.rounds child items, left, start, rest, memo⟩ = some e) :
    ∃ y, Calls rules limit ⟨.rounds child items, left, start, rest, memo⟩ y ∧
      y.failure rules limit = some e := by
  simp only [Frame.failure] at h
  rw [iterate] at h
  rcases hhead : child.run rules (enter rules limit left) start rest memo with ⟨e' | s, memo'⟩
  · rw [hhead] at h
    refine ⟨_, .round, ?_⟩
    simp only [Frame.failure, hhead, failure?_error]
    dsimp only at h
    split at h
    · exact h
    · simp at h
  · rw [hhead] at h
    dsimp only at h
    split at h
    · next k c cs hs => exact ⟨_, .roundMatched hhead hs, h⟩
    · simp at h

/-- A fatal failure of a frame is raised there, or remembered, or that of a call. -/
theorem Frame.exists_call_of_isFatal {x : Frame} (he : e.isFatal = true)
    (h : x.failure rules limit = some e) :
    Raises rules limit x e ∨
      (∃ m, x.task = .ask m ∧ x.memo.knows m.attributes.id x.pos = some (.error e)) ∨
      ∃ y, Calls rules limit x y ∧ y.failure rules limit = some e := by
  obtain ⟨task, left, start, rest, memo⟩ := x
  -- by the task: only `ask` can answer from the memo, and only `enter` can run out of entries
  cases task with
  | run m =>
    simp only [Frame.failure, Matcher.run] at h
    split at h
    · next hm => exact .inr (.inr ⟨_, .runTerminal hm, h⟩)
    · next hm => exact .inr (.inr ⟨_, .runOther (Bool.eq_false_of_not_eq_true hm), h⟩)
  | ask m =>
    simp only [Frame.failure] at h
    cases hk : memo.knows m.attributes.id start with
    | none =>
      rw [memoized_of_not_knows hk] at h
      exact .inr (.inr ⟨_, .ask (Memo.find_eq_of_knows hk), h⟩)
    | some o =>
      rw [memoized_of_knows hk] at h
      cases o with
      | ok s => simp at h
      | error e' => exact .inr (.inl ⟨m, rfl, by rw [hk, Option.some.inj h]⟩)
  | evaluate m => exact (exists_call_of_evaluate he h).imp_right .inr
  | parts ms fields => exact .inr (.inr (exists_call_of_parts he h))
  | alternatives ms failures => exact .inr (.inr (exists_call_of_alternatives he h))
  | rounds child items => exact .inr (.inr (exists_call_of_rounds h))
  | enter slot =>
    simp only [Frame.failure] at h
    obtain ⟨body, hbody, h⟩ := Option.bind_eq_some_iff.mp h
    cases left with
    | zero =>
      rw [Grammar.enter] at h
      obtain rfl := Option.some.inj h
      exact .inl (.tooDeep hbody)
    | succ left =>
      rw [Grammar.enter] at h
      exact .inr (.inr ⟨_, .enter hbody, h⟩)

end Origin

end Typestrip.Grammar
