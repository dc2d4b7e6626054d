import Mathlib.Data.List.Forall2
import Typestrip.Proofs.Grammar.Matching
import Typestrip.Proofs.Grammar.Memo
import Typestrip.Proofs.Text.Boundary

/-!
# Grammars that differ in failures only

Which failure it is that ends an attempt at a node makes no difference to what matches, unless it is
a fatal one: nullable nodes, choices and repetitions only look at that. Outcomes are `Alike` if they
are the same match, the same fatal failure, or failures that are not fatal. Nodes are alike if their
outcomes are, and every kind of node makes alike nodes of alike parts. All of this is about matching
without a memo.

Main statement: `Parser.parse_alike`.
-/

namespace Typestrip.Grammar

/-! ## Outcomes -/

/-- The same match, the same fatal failure, or failures that are not fatal. -/
inductive Alike {α : Type} : Except ParseError α → Except ParseError α → Prop
  | matched (a : α) : Alike (.ok a) (.ok a)
  | fatal {e} : e.isFatal = true → Alike (.error e) (.error e)
  | failed {e e'} : e.isFatal = false → e'.isFatal = false → Alike (.error e) (.error e')

namespace Alike

variable {α : Type} {x y z : Except ParseError α}

theorem refl : ∀ x : Except ParseError α, Alike x x
  | .ok a => .matched a
  | .error e => by
    cases he : e.isFatal with
    | true => exact .fatal he
    | false => exact .failed he he

theorem symm (h : Alike x y) : Alike y x := by
  cases h with
  | matched a => exact .matched a
  | fatal he => exact .fatal he
  | failed he he' => exact .failed he' he

theorem trans (h : Alike x y) (h' : Alike y z) : Alike x z := by
  cases h with
  | matched a => exact h'
  | fatal he => exact h'
  | failed he he' =>
    cases h' with
    | fatal hfatal => exact absurd hfatal (Bool.eq_false_iff.mp he')
    | failed _ he'' => exact .failed he he''

theorem recover (a : Attributes) {o o' : Outcome} (h : Alike o o') :
    Alike (a.recover o) (a.recover o') := by
  cases h with
  | matched s => exact .matched s
  | fatal he =>
    rw [a.recover_of_isFatal he]
    exact .fatal he
  | failed he he' =>
    rw [Attributes.recover, Attributes.recover, he, he']
    split
    · exact .matched _
    · exact .failed he he'

theorem complete (options : Options) (input : List Char) {o o' : Outcome} (h : Alike o o') :
    Alike (options.complete input o) (options.complete input o') := by
  cases h with
  | matched s => exact .refl _
  | fatal he =>
    rw [Options.complete_error]
    exact .fatal he
  | failed he he' =>
    rw [Options.complete_error, Options.complete_error]
    exact .failed he he'

end Alike

/-! ## Runs without a memo -/

/-- Two runs that end with alike outcomes and without a memo. -/
inductive AlikeEnds {α : Type} : Except ParseError α × Memo → Except ParseError α × Memo → Prop
  | intro {o o'} : Alike o o' → AlikeEnds (o, .off) (o', .off)

/-- Two recognizers with alike outcomes everywhere. -/
def AlikeRuns (r r' : Recognizer) : Prop :=
  ∀ pos rest, AlikeEnds (r pos rest .off) (r' pos rest .off)

namespace AlikeEnds

variable {α : Type} {x y z : Except ParseError α × Memo}

theorem alike (h : AlikeEnds x y) : Alike x.1 y.1 := by
  obtain ⟨h⟩ := h
  exact h

theorem symm (h : AlikeEnds x y) : AlikeEnds y x := by
  obtain ⟨h⟩ := h
  exact ⟨h.symm⟩

theorem trans (h : AlikeEnds x y) (h' : AlikeEnds y z) : AlikeEnds x z := by
  obtain ⟨h⟩ := h
  cases h' with
  | intro h' => exact ⟨h.trans h'⟩

theorem finish (a : Attributes) (f : α → Success) (h : AlikeEnds x y) :
    AlikeEnds (a.finish f x) (a.finish f y) := by
  obtain ⟨h⟩ := h
  cases h with
  | matched s => exact ⟨.matched _⟩
  | fatal he => exact ⟨(Alike.fatal he).recover a⟩
  | failed he he' => exact ⟨(Alike.failed he he').recover a⟩

end AlikeEnds

theorem AlikeRuns.memoized {r r' : Recognizer} (h : AlikeRuns r r') (id id' : NodeId) :
    AlikeRuns (memoized id r) (memoized id' r') := by
  intro pos rest
  have hr := h pos rest
  rw [memoized_of_not_knows (Memo.knows_empty false id pos),
    memoized_of_not_knows (Memo.knows_empty false id' pos), Memo.find_off, Memo.find_off]
  revert hr
  generalize r pos rest .off = x
  generalize r' pos rest .off = y
  rintro ⟨h⟩
  exact ⟨h⟩

theorem iterate_alike {r r' : Recognizer} (h : AlikeRuns r r') (items : List Value) (pos : Nat)
    (rest : List Char) :
    AlikeEnds (iterate r items pos rest .off) (iterate r' items pos rest .off) := by
  have hr := h pos rest
  rw [iterate, iterate]
  revert hr
  generalize r pos rest .off = x
  generalize r' pos rest .off = y
  rintro ⟨hround⟩
  cases hround with
  | fatal he =>
    dsimp only
    rw [if_pos he]
    exact ⟨.fatal he⟩
  | failed he he' =>
    dsimp only
    rw [he, he']
    exact ⟨.matched _⟩
  | matched s =>
    dsimp only
    cases hn : s.consumed with
    | zero => exact ⟨.matched _⟩
    | succ n =>
      cases hcs : rest with
      | nil => exact ⟨.matched _⟩
      | cons c cs => exact iterate_alike h _ _ _
termination_by rest.length
decreasing_by exact Text.length_dropBytes_lt _ _ _

/-! ## Nodes -/

theorem optionRel_imp {α β : Type} {R S : α → β → Prop} (h : ∀ a b, R a b → S a b) {x : Option α}
    {y : Option β} (hxy : Option.Rel R x y) : Option.Rel S x y := by
  cases hxy with
  | none => exact .none
  | some hab => exact .some (h _ _ hab)

theorem optionRel_right {α β : Type} {R : α → β → Prop} {S : β → β → Prop}
    (h : ∀ a b, R a b → S b b) {x : Option α} {y : Option β} (hxy : Option.Rel R x y) :
    Option.Rel S y y := by
  cases hxy with
  | none => exact .none
  | some hab => exact .some (h _ _ hab)

/-- Two tables of rules that are entered with alike outcomes. -/
def AlikeRules (rules : Rules) (e : Matcher → Recognizer) (rules' : Rules)
    (e' : Matcher → Recognizer) : Prop :=
  ∀ slot : Nat, Option.Rel (fun body body' => AlikeRuns (e body) (e' body'))
    (rules[slot]?).join (rules'[slot]?).join

variable {rules rules' : Rules} {e e' : Matcher → Recognizer}

/-- What is alike something is alike itself. -/
theorem AlikeRules.right (h : AlikeRules rules e rules' e') : AlikeRules rules' e' rules' e' := by
  refine fun slot => optionRel_right (fun body body' hruns pos rest => ?_) (h slot)
  exact (hruns pos rest).symm.trans (hruns pos rest)

/-- Nodes with alike outcomes. -/
structure Matcher.Alike (m m' : Matcher) : Prop where
  attributes : m.attributes = m'.attributes
  isTerminal : m.isTerminal = m'.isTerminal
  evaluate : ∀ {rules e rules' e'}, AlikeRules rules e rules' e' →
    AlikeRuns (m.evaluate rules e) (m'.evaluate rules' e')

/-- Lists of nodes that, one after the other, have alike outcomes. -/
structure AlikeParts (ms ms' : List Matcher) : Prop where
  captures : ms.any (·.attributes.capture.isSome) = ms'.any (·.attributes.capture.isSome)
  evaluateAll : ∀ {rules e rules' e'}, AlikeRules rules e rules' e' → ∀ fields pos rest,
    AlikeEnds (Matcher.evaluateAll rules e ms fields pos rest .off)
      (Matcher.evaluateAll rules' e' ms' fields pos rest .off)

namespace AlikeParts

theorem nil : AlikeParts [] [] where
  captures := rfl
  evaluateAll _ fields pos rest := by
    rw [Matcher.evaluateAll, Matcher.evaluateAll]
    exact ⟨.matched _⟩

theorem cons {m m' : Matcher} {ms ms' : List Matcher} (hm : m.Alike m') (hms : AlikeParts ms ms') :
    AlikeParts (m :: ms) (m' :: ms') where
  captures := by rw [List.any_cons, List.any_cons, hm.attributes, hms.captures]
  evaluateAll {rules e rules' e'} hrules fields pos rest := by
    have hhead := (hm.evaluate hrules).memoized m.attributes.id m'.attributes.id pos rest
    rw [Matcher.evaluateAll, Matcher.evaluateAll]
    revert hhead
    generalize memoized _ (m.evaluate rules e) pos rest .off = x
    generalize memoized _ (m'.evaluate rules' e') pos rest .off = y
    rintro ⟨hhead⟩
    cases hhead with
    | fatal he =>
      dsimp only
      rw [if_pos he]
      exact ⟨.fatal he⟩
    | failed he he' =>
      dsimp only
      rw [he, he']
      exact ⟨.failed rfl rfl⟩
    | matched s =>
      rw [hm.attributes]
      exact hms.evaluateAll hrules _ _ _

theorem ofForall₂ {ms ms' : List Matcher} (h : List.Forall₂ Matcher.Alike ms ms') :
    AlikeParts ms ms' := by
  induction h with
  | nil => exact .nil
  | cons hm _ ih => exact .cons hm ih

theorem trans {ms₁ ms₂ ms₃ : List Matcher} (h : AlikeParts ms₁ ms₂) (h' : AlikeParts ms₂ ms₃) :
    AlikeParts ms₁ ms₃ where
  captures := h.captures.trans h'.captures
  evaluateAll hrules fields pos rest :=
    (h.evaluateAll hrules fields pos rest).trans (h'.evaluateAll hrules.right fields pos rest)

end AlikeParts

theorem evaluateFirst_alike {ms ms' : List Matcher} (h : List.Forall₂ Matcher.Alike ms ms')
    (hrules : AlikeRules rules e rules' e') (failures failures' : List ParseError) (pos : Nat)
    (rest : List Char) :
    AlikeEnds (Matcher.evaluateFirst rules e ms failures pos rest .off)
      (Matcher.evaluateFirst rules' e' ms' failures' pos rest .off) := by
  induction h generalizing failures failures' with
  | nil =>
    rw [Matcher.evaluateFirst, Matcher.evaluateFirst]
    exact ⟨.failed rfl rfl⟩
  | @cons m m' ms ms' hm _ ih =>
    have hhead := (hm.evaluate hrules).memoized m.attributes.id m'.attributes.id pos rest
    rw [Matcher.evaluateFirst, Matcher.evaluateFirst]
    revert hhead
    generalize memoized _ (m.evaluate rules e) pos rest .off = x
    generalize memoized _ (m'.evaluate rules' e') pos rest .off = y
    rintro ⟨hhead⟩
    cases hhead with
    | fatal he =>
      dsimp only
      rw [if_pos he, if_pos he]
      exact ⟨.fatal he⟩
    | failed he he' =>
      dsimp only
      rw [he, he']
      exact ih _ _
    | matched s => exact ⟨.matched s⟩

namespace Matcher.Alike

theorem run {m m' : Matcher} (h : m.Alike m') (hrules : AlikeRules rules e rules' e') :
    AlikeRuns (m.run rules e) (m'.run rules' e') := by
  rw [Matcher.run, Matcher.run, h.isTerminal]
  split
  · exact (h.evaluate hrules).memoized _ _
  · exact h.evaluate hrules

theorem sequence (a : Attributes) {ms ms' : List Matcher} (h : AlikeParts ms ms') :
    (Matcher.sequence a ms).Alike (.sequence a ms') where
  attributes := rfl
  isTerminal := rfl
  evaluate hrules pos rest := by
    have hvalue : sequenceValue ms rest = sequenceValue ms' rest := by
      funext kept n
      rw [sequenceValue, sequenceValue, h.captures]
    rw [evaluate_sequence, evaluate_sequence, hvalue]
    exact (h.evaluateAll hrules [] pos rest).finish a _

theorem choice (a : Attributes) {ms ms' : List Matcher} (h : List.Forall₂ Matcher.Alike ms ms') :
    (Matcher.choice a ms).Alike (.choice a ms') where
  attributes := rfl
  isTerminal := rfl
  evaluate hrules pos rest := by
    rw [evaluate_choice, evaluate_choice]
    exact (evaluateFirst_alike h hrules [] [] pos rest).finish a _

theorem repetition (a : Attributes) {m m' : Matcher} (h : m.Alike m') :
    (Matcher.repetition a m).Alike (.repetition a m') where
  attributes := rfl
  isTerminal := rfl
  evaluate hrules pos rest := by
    rw [evaluate_repetition, evaluate_repetition]
    exact (iterate_alike (h.run hrules) [] pos rest).finish a _

theorem rule (a : Attributes) (name : String) (slot : Option Nat) :
    (Matcher.rule a name slot).Alike (.rule a name slot) where
  attributes := rfl
  isTerminal := rfl
  evaluate {rules e rules' e'} hrules pos rest := by
    have hslot : Option.Rel (fun body body' => AlikeRuns (e body) (e' body'))
        (slot.bind fun i => (rules[i]?).join) (slot.bind fun i => (rules'[i]?).join) := by
      cases slot with
      | none => exact .none
      | some i => exact hrules i
    cases hbody : slot.bind fun i => (rules[i]?).join with
    | none =>
      cases hbody' : slot.bind fun i => (rules'[i]?).join with
      | none =>
        rw [evaluate_rule_none _ _ _ _ _ _ _ hbody, evaluate_rule_none _ _ _ _ _ _ _ hbody']
        exact ⟨.fatal rfl⟩
      | some body' =>
        rw [hbody, hbody'] at hslot
        cases hslot
    | some body =>
      cases hbody' : slot.bind fun i => (rules'[i]?).join with
      | none =>
        rw [hbody, hbody'] at hslot
        cases hslot
      | some body' =>
        rw [hbody, hbody'] at hslot
        rw [evaluate_rule _ _ _ _ _ _ _ hbody, evaluate_rule _ _ _ _ _ _ _ hbody']
        cases hslot with
        | some hruns => exact (hruns pos rest).finish a _

theorem refl (m : Matcher) : m.Alike m := by
  induction m using Matcher.treeInduction with
  | step m ih =>
    cases m with
    | literal a text expected =>
      refine ⟨rfl, rfl, fun _ pos rest => ?_⟩
      rw [evaluate_literal, evaluate_literal]
      exact ⟨.refl _⟩
    | pattern a regex expected =>
      refine ⟨rfl, rfl, fun _ pos rest => ?_⟩
      rw [evaluate_pattern, evaluate_pattern]
      exact ⟨.refl _⟩
    | sequence a ms => exact .sequence a (.ofForall₂ (List.forall₂_same.mpr ih))
    | choice a ms => exact .choice a (List.forall₂_same.mpr ih)
    | repetition a child => exact .repetition a (ih child (List.mem_singleton_self child))
    | rule a name slot => exact .rule a name slot

end Matcher.Alike

theorem AlikeParts.refl (ms : List Matcher) : AlikeParts ms ms :=
  .ofForall₂ (List.forall₂_same.mpr fun m _ => .refl m)

/-! ## Parsers -/

/-- Rules with alike bodies are entered with alike outcomes. -/
theorem enter_alike
    (h : ∀ slot : Nat, Option.Rel Matcher.Alike (rules[slot]?).join (rules'[slot]?).join)
    (limit left : Nat) :
    AlikeRules rules (enter rules limit left) rules' (enter rules' limit left) := by
  induction left with
  | zero =>
    refine fun slot => optionRel_imp (fun body body' _ pos rest => ?_) (h slot)
    rw [enter, enter]
    exact ⟨.fatal rfl⟩
  | succ left ih =>
    refine fun slot => optionRel_imp (fun body body' hbody => ?_) (h slot)
    rw [enter, enter]
    exact hbody.run ih

/-- Parsers with alike roots and rules have alike results without a memo. -/
theorem Parser.parse_alike {p p' : Parser} (hroot : p.root.Alike p'.root)
    (hrules : ∀ slot : Nat, Option.Rel Matcher.Alike (p.rules[slot]?).join (p'.rules[slot]?).join)
    (matchAll : Bool) (maxDepth : Nat) (input : List Char) :
    Alike (p.parse ⟨matchAll, false, maxDepth⟩ input)
      (p'.parse ⟨matchAll, false, maxDepth⟩ input) := by
  have hends : AlikeEnds (p.matchAt maxDepth 0 input .off) (p'.matchAt maxDepth 0 input .off) :=
    hroot.run (enter_alike hrules maxDepth maxDepth) 0 input
  rw [p.parse_eq, p'.parse_eq]
  exact hends.alike.complete _ input

end Typestrip.Grammar
