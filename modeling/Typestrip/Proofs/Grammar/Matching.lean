import Typestrip.Grammar.Parser

/-!
# How matching takes its course

What the proofs about matching share. The nodes right below a node are its `children`, and a
`Family` is a set of nodes that is closed under them and holds the bodies of all rules.
`Attributes.finish` is what all nodes with parts have in common: a failure of the parts is recovered
from if the node is nullable, a success is turned into a match. With it each kind of node has one
equation (`evaluate_sequence` and so on), by which the proofs go.
-/

namespace Typestrip.Grammar

/-! ## Parts of a matcher -/

/-- The nodes right below a node. Rules are not entered. -/
def Matcher.children : Matcher → List Matcher
  | .sequence _ ms | .choice _ ms => ms
  | .repetition _ m => [m]
  | .literal .. | .pattern .. | .rule .. => []

/-- A node is the body of a rule. -/
def IsBody (rules : Rules) (body : Matcher) : Prop := ∃ slot : Nat, (rules[slot]?).join = some body

theorem isBody_of_slot {rules : Rules} {slot : Option Nat} {body : Matcher}
    (h : (slot.bind fun i => (rules[i]?).join) = some body) : IsBody rules body := by
  obtain ⟨i, -, hi⟩ := Option.bind_eq_some_iff.mp h
  exact ⟨i, hi⟩

/-- A set of nodes that holds the bodies of all rules and with each node all nodes below it. -/
structure Family (rules : Rules) (member : Matcher → Prop) : Prop where
  children : ∀ {m c}, member m → c ∈ m.children → member c
  bodies : ∀ {body}, IsBody rules body → member body

theorem Family.all (rules : Rules) : Family rules fun _ => True :=
  ⟨fun _ _ => trivial, fun _ => trivial⟩

theorem Matcher.sizeOf_lt_of_mem_children {m c : Matcher} (h : c ∈ m.children) :
    sizeOf c < sizeOf m := by
  cases m with
  | sequence a ms | choice a ms =>
    have : sizeOf c < sizeOf ms := List.sizeOf_lt_of_mem h
    simp only [sequence.sizeOf_spec, choice.sizeOf_spec]
    omega
  | repetition a m =>
    rw [List.mem_singleton.mp h, repetition.sizeOf_spec]
    omega
  | literal | pattern | rule => simp [children] at h

/-- Each identity belongs to one node. -/
def Identified (member : Matcher → Prop) : Prop :=
  ∀ ⦃m m'⦄, member m → member m' → m.attributes.id = m'.attributes.id → m = m'

/-- Induction over the tree of a node. -/
theorem Matcher.treeInduction {motive : Matcher → Prop}
    (step : ∀ m : Matcher, (∀ c ∈ m.children, motive c) → motive m) (m : Matcher) : motive m :=
  step m fun c _ => Matcher.treeInduction step c
termination_by m
decreasing_by exact Matcher.sizeOf_lt_of_mem_children ‹_›

/-! ## The kinds of nodes -/

/-- Nothing recovers from a fatal failure. -/
theorem Attributes.recover_of_isFatal (a : Attributes) {e : ParseError} (h : e.isFatal = true) :
    a.recover (.error e) = .error e := by
  rw [recover, h, Bool.not_true, Bool.and_false]
  rfl

/-- What a node makes of the outcome of its parts. -/
def Attributes.finish {α : Type} (a : Attributes) (f : α → Success) :
    Except ParseError α × Memo → Outcome × Memo
  | (.error e, memo) => (a.recover (.error e), memo)
  | (.ok x, memo) => (.ok (f x), memo)

/-- The value of a sequence that begins with `rest` and of whose parts `kept` was kept. -/
def sequenceValue (children : List Matcher) (rest : List Char) (kept : List (String × Value))
    (consumed : Nat) : Value :=
  if children.any (·.attributes.capture.isSome) then .object kept
  else .text (String.ofList (Text.takeBytes rest consumed))

namespace Matcher

variable (rules : Rules) (e : Matcher → Recognizer) (a : Attributes) (pos : Nat) (rest : List Char)
  (memo : Memo)

theorem evaluate_literal (text : List Char) (expected : String) :
    (literal a text expected).evaluate rules e pos rest memo =
      (a.recover (matchLiteral a text expected pos rest), memo) := by
  rw [evaluate]

theorem evaluate_pattern (regex : Regex.Expr) (expected : String) :
    (pattern a regex expected).evaluate rules e pos rest memo =
      (a.recover (matchPattern a regex expected pos rest), memo) := by
  rw [evaluate]

theorem evaluate_sequence (children : List Matcher) :
    (sequence a children).evaluate rules e pos rest memo =
      a.finish (fun x => ⟨a.reshaped (sequenceValue children rest x.1 (x.2 - pos)), x.2 - pos⟩)
        (evaluateAll rules e children [] pos rest memo) := by
  rw [evaluate]
  dsimp only
  rcases evaluateAll rules e children [] pos rest memo with ⟨_ | ⟨kept, stop⟩, memo⟩ <;> rfl

theorem evaluate_choice (alternatives : List Matcher) :
    (choice a alternatives).evaluate rules e pos rest memo =
      a.finish (fun s => ⟨a.reshaped s.value, s.consumed⟩)
        (evaluateFirst rules e alternatives [] pos rest memo) := by
  rw [evaluate]
  dsimp only
  rcases evaluateFirst rules e alternatives [] pos rest memo with ⟨_ | s, memo⟩ <;> rfl

/-- A repeated node asks the memo itself if it is a terminal, as a node that stands by itself
does. -/
theorem evaluate_repetition (child : Matcher) :
    (repetition a child).evaluate rules e pos rest memo =
      a.finish (fun x => ⟨a.reshaped (.list x.1), x.2 - pos⟩)
        (iterate (child.run rules e) [] pos rest memo) := by
  rw [evaluate, ← run]
  dsimp only
  rcases iterate (child.run rules e) [] pos rest memo with ⟨_ | ⟨items, stop⟩, memo⟩ <;> rfl

theorem evaluate_rule {slot : Option Nat} {body : Matcher} (name : String)
    (h : (slot.bind fun i => (rules[i]?).join) = some body) :
    (rule a name slot).evaluate rules e pos rest memo =
      a.finish (fun s => ⟨a.reshaped s.value, s.consumed⟩) (e body pos rest memo) := by
  rw [evaluate, h]
  dsimp only
  rcases e body pos rest memo with ⟨_ | s, memo⟩ <;> rfl

theorem evaluate_rule_none {slot : Option Nat} (name : String)
    (h : (slot.bind fun i => (rules[i]?).join) = none) :
    (rule a name slot).evaluate rules e pos rest memo = (.error (.unresolved name), memo) := by
  rw [evaluate, h]

end Matcher

theorem stripPrefix?_eq_some_iff {text cs after : List Char} :
    stripPrefix? text cs = some after ↔ cs = text ++ after := by
  induction text generalizing cs with
  | nil => simp [stripPrefix?]
  | cons d ds ih =>
    cases cs with
    | nil => simp [stripPrefix?]
    | cons c cs =>
      rw [stripPrefix?]
      by_cases hdc : d = c
      · rw [if_pos hdc, ih, hdc, List.cons_append, List.cons_inj_right]
      · simp [hdc, Ne.symm hdc]

/-! ## Whole parses -/

/-- What a parse makes of the outcome of matching the root. -/
def Options.complete (options : Options) (input : List Char) (o : Outcome) : Outcome :=
  if options.matchAll then o.requireAll (Text.width input) else o

@[simp] theorem Options.complete_error (options : Options) (input : List Char) (e : ParseError) :
    options.complete input (.error e) = .error e := by
  unfold complete
  split <;> rfl

/-- A match stands, unless all of the input had to match and some is left over. -/
theorem Options.complete_ok (options : Options) (input : List Char) (s : Success) :
    options.complete input (.ok s) = .ok s ∨
      s.consumed < Text.width input ∧
        options.complete input (.ok s) = .error (.leftOver s.consumed) := by
  unfold complete
  split
  · rw [Outcome.requireAll]
    split
    · next hlt => exact .inr ⟨hlt, rfl⟩
    · exact .inl rfl
  · exact .inl rfl

theorem Parser.parse_eq (p : Parser) (options : Options) (input : List Char) :
    p.parse options input = options.complete input
      (p.matchAt options.maxDepth 0 input (.empty options.memoize)).1 := by
  rw [parse, parseDetailed]
  rcases p.matchAt options.maxDepth 0 input (.empty options.memoize) with ⟨o, memo⟩
  rfl

end Typestrip.Grammar
