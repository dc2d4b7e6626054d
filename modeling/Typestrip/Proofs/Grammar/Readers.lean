import Typestrip.Proofs.Grammar.Extents
import Typestrip.Proofs.Grammar.Lossless
import Typestrip.Proofs.Grammar.Tandem

/-!
# Readers of forms

A compiled grammar holds matchers of which only the form is written down (`Matcher.OfForm`). The form tells
their constructs, their parts and what they do with values, so that they can be read step by step.
-/

namespace Typestrip.Grammar

/-- The matcher is compiled from a node of the form. -/
def Matcher.OfForm (r : Registry) (m : Matcher) (form : Node) : Prop :=
  ∃ n : Node, n.form = form ∧ n.compile r = .ok m

/-! ## What the form tells -/

variable {r : Registry} {m : Matcher} {form : Node} {forms : List Node} {a : Attributes}

namespace Matcher.OfForm

theorem outline (h : m.OfForm r form) : m.outline = form.outline r.lookup := by
  obtain ⟨n, rfl, hn⟩ := h
  rw [Node.outline_of_compile hn, Node.outline_form]

theorem children (h : m.OfForm r form) :
    List.Forall₂ (fun form m => m.OfForm r form) form.children m.children := by
  obtain ⟨n, rfl, hn⟩ := h
  rw [n.children_form, List.forall₂_map_left_iff]
  exact (Node.compile_eq_ok hn).2.imp fun n m hn => ⟨n, rfl, hn⟩

theorem attributes (h : m.OfForm r form) : m.attributes.form = form.attributes := by
  obtain ⟨n, rfl, hn⟩ := h
  rw [(Node.compile_eq_ok hn).1, n.attributes_form]

theorem exists_sequence (h : m.OfForm r (.sequence a forms)) :
    ∃ a' ms, m = .sequence a' ms ∧ a'.form = a ∧ List.Forall₂ (fun form m => m.OfForm r form) forms ms := by
  have hchildren := h.children
  have hattributes := h.attributes
  obtain ⟨n, hform, hn⟩ := h
  cases n with
  | sequence a' ns =>
    obtain ⟨ms, -, rfl⟩ := exists_of_map_eq_ok hn
    exact ⟨_, ms, rfl, hattributes, hchildren⟩
  | terminal | choice | repetition | reference => cases hform

theorem exists_choice (h : m.OfForm r (.choice a forms)) :
    ∃ a' ms, m = .choice a' ms ∧ a'.form = a ∧ List.Forall₂ (fun form m => m.OfForm r form) forms ms := by
  have hchildren := h.children
  have hattributes := h.attributes
  obtain ⟨n, hform, hn⟩ := h
  cases n with
  | choice a' ns =>
    obtain ⟨ms, -, rfl⟩ := exists_of_map_eq_ok hn
    exact ⟨_, ms, rfl, hattributes, hchildren⟩
  | terminal | sequence | repetition | reference => cases hform

theorem exists_repetition (h : m.OfForm r (.repetition a form)) :
    ∃ a' c, m = .repetition a' c ∧ a'.form = a ∧ c.OfForm r form := by
  have hchildren := h.children
  have hattributes := h.attributes
  obtain ⟨n, hform, hn⟩ := h
  cases n with
  | repetition a' n =>
    obtain ⟨c, -, rfl⟩ := exists_of_map_eq_ok hn
    exact ⟨_, c, rfl, hattributes, (List.forall₂_cons.mp hchildren).1⟩
  | terminal | sequence | choice | reference => cases hform

theorem exists_pattern {source : String} {e : Regex.Expr} (h : m.OfForm r (.terminal a (.regex source)))
    (he : regexOutline source = .pattern e) : ∃ a' expected, m = .pattern a' e expected ∧ a'.form = a := by
  have hattributes := h.attributes
  obtain ⟨n, hform, hn⟩ := h
  cases n with
  | terminal a' p =>
    obtain ⟨-, rfl⟩ := Node.terminal.inj hform
    rw [Node.compile] at hn
    rw [regexOutline] at he
    split at hn
    · next regex hregex =>
      obtain rfl := Except.ok.inj hn
      rw [hregex] at he
      obtain rfl := Outline.pattern.inj he
      exact ⟨_, _, rfl, hattributes⟩
    · cases hn
  | sequence | choice | repetition | reference => cases hform

end Matcher.OfForm

theorem Attributes.keep_of_form {a' : Attributes} (h : a.form = a') (v : Value)
    (fields : List (String × Value)) : keep a v fields = keep a' v fields := by
  rw [← h]
  rfl

/-- What a node makes of a reading that may fail. -/
theorem Attributes.settle_of_sure {α : Type} (hnull : a.nullable = false) (cs : List Char)
    (f : α → List Char → Value) (x : Reading α) :
    a.settle cs f x = x.andThen fun v rest => .matched (a.reshaped (f v rest)) rest := by
  cases x with
  | matched v rest => rfl
  | failed =>
    rw [settle, hnull]
    rfl
  | fatal => rfl

/-! ## Reading step by step -/

variable {rules : Rules} {n : Nat} {ms : List Matcher} {cs cs' : List Char}
  {both : Value → List Char → Value → List Char → Prop} {alone : Value → List Char → Prop}

theorem Matcher.exists_of_readsFirst {v : Value} {s : List Char}
    (h : Matcher.readsFirst rules (entered rules n) ms cs = .matched v s) :
    ∃ m ∈ ms, m.read rules n cs = .matched v s := by
  induction ms with
  | nil => cases h
  | cons m ms ih =>
    rw [readsFirst] at h
    split at h
    · next hm => exact ⟨m, List.mem_cons_self, hm.trans h⟩
    · obtain ⟨m, hm, hread⟩ := ih h
      exact ⟨m, List.mem_cons_of_mem _ hm, hread⟩
    · cases h

/-- What the first of some alternatives comes to. Where only the second text has a match, none of them must
match in the first one. -/
theorem Matcher.pairs_choice (ha : a.reshape = none) (hnull : a.nullable = false)
    (hms : ∀ m ∈ ms, Reading.Pairs both alone (m.read rules n cs) (m.read rules n cs'))
    (halone : ∀ {v' s'}, alone v' s' → ∀ m ∈ ms, ∀ v s, m.read rules n cs ≠ .matched v s) :
    Reading.Pairs both alone ((Matcher.choice a ms).read rules n cs)
      ((Matcher.choice a ms).read rules n cs') := by
  have hsettle (cs : List Char) (x : Reading Value) : a.settle cs (fun v _ => v) x = x := by
    rw [Attributes.settle_of_sure hnull]
    cases x with
    | matched v s => rw [Reading.andThen, Attributes.reshaped_of_none ha]
    | failed => rfl
    | fatal => rfl
  rw [read, reads, reads, hsettle, hsettle]
  induction ms with
  | nil => exact .failed
  | cons m ms ih =>
    obtain ⟨hm, hms⟩ := List.forall_mem_cons.mp hms
    have ih := ih hms fun h => (List.forall_mem_cons.mp (halone h)).2
    unfold Matcher.read at hm
    rw [Matcher.readsFirst, Matcher.readsFirst]
    generalize m.reads rules (entered rules n) cs = x at hm
    generalize m.reads rules (entered rules n) cs' = x' at hm
    cases hm with
    | fatal => exact .fatal
    | secondFatal => exact .secondFatal
    | failed => exact ih
    | matched h => exact .matched h
    | alone h =>
      cases hfirst : Matcher.readsFirst rules (entered rules n) ms cs with
      | failed => exact .alone h
      | fatal => exact .fatal
      | matched v s =>
        obtain ⟨m, hm, hread⟩ := Matcher.exists_of_readsFirst hfirst
        exact absurd hread (halone h m (List.mem_cons_of_mem _ hm) v s)

/-- The same for alternatives of which the forms are known. -/
theorem Matcher.OfForm.pairs_choice (hm : m.OfForm r (.choice a forms)) (ha : a.reshape = none)
    (hnull : a.nullable = false)
    (hforms : ∀ form ∈ forms, ∀ {m : Matcher}, m.OfForm r form →
      Reading.Pairs both alone (m.read rules n cs) (m.read rules n cs'))
    (halone : ∀ {v' s'}, alone v' s' → ∀ form ∈ forms, ∀ {m : Matcher}, m.OfForm r form → ∀ v s,
      m.read rules n cs ≠ .matched v s) :
    Reading.Pairs both alone (m.read rules n cs) (m.read rules n cs') := by
  obtain ⟨a', ms, rfl, rfl, hms⟩ := hm.exists_choice
  refine Matcher.pairs_choice ha hnull (fun m hm => ?_) fun h m hm v s => ?_
  · obtain ⟨form, hform, hm⟩ := exists_of_forall₂ hms hm
    exact hforms form hform hm
  · obtain ⟨form, hform, hm⟩ := exists_of_forall₂ hms hm
    exact halone h form hform hm v s

theorem Matcher.read_pattern {e : Regex.Expr} {expected : String} (ha : a.reshape = none)
    (hnull : a.nullable = false) (cs : List Char) : (Matcher.pattern a e expected).read rules n cs =
      (readPattern e cs).andThen fun x rest => .matched (.text (String.ofList x)) rest := by
  rw [read, reads, Attributes.settle_of_sure hnull]
  simp only [Attributes.reshaped_of_none ha]

theorem Matcher.read_repetition {m : Matcher} (ha : a.reshape = none) (hnull : a.nullable = false)
    (cs : List Char) : (Matcher.repetition a m).read rules n cs =
      (readRounds (m.read rules n) [] cs).andThen fun l rest => .matched (.list l) rest := by
  rw [read, reads, Attributes.settle_of_sure hnull]
  simp only [Attributes.reshaped_of_none ha]
  rfl

theorem Matcher.readsAll_cons {m : Matcher} (fields : List (String × Value)) (cs : List Char) :
    readsAll rules (entered rules n) (m :: ms) fields cs = (m.read rules n cs).andThen fun v rest =>
      readsAll rules (entered rules n) ms (keep m.attributes v fields) rest := by
  rw [readsAll, read]
  cases m.reads rules (entered rules n) cs <;> rfl

/-- A sequence of two parts, of which one is kept. -/
theorem Matcher.OfForm.exists_pair {form form' : Node} (hm : m.OfForm r (.sequence a [form, form']))
    (hnull : a.nullable = false) (hkept : [form, form'].any (·.attributes.capture.isSome) = true) :
    ∃ m₁ m₂ : Matcher, m₁.OfForm r form ∧ m₂.OfForm r form' ∧ ∀ cs, m.read rules n cs =
      (m₁.read rules n cs).andThen fun v rest => (m₂.read rules n rest).andThen fun v' rest' =>
        .matched (a.reshaped (.object (keep form'.attributes v' (keep form.attributes v [])))) rest' := by
  obtain ⟨a', ms, rfl, rfl, hms⟩ := hm.exists_sequence
  obtain ⟨m₁, _, h₁, htail, rfl⟩ := List.forall₂_cons_left_iff.mp hms
  obtain ⟨m₂, _, h₂, hnil, rfl⟩ := List.forall₂_cons_left_iff.mp htail
  obtain rfl := List.forall₂_nil_left_iff.mp hnil
  refine ⟨m₁, m₂, h₁, h₂, fun cs => ?_⟩
  have hany : [m₁, m₂].any (·.attributes.capture.isSome) = true := by
    rw [← hkept, List.any_cons, List.any_cons, List.any_cons, List.any_cons, ← h₁.attributes, ← h₂.attributes]
    rfl
  have hnull : a'.nullable = false := hnull
  have hreshaped (v : Value) : a'.form.reshaped v = a'.reshaped v := rfl
  rw [read, reads, Attributes.settle_of_sure hnull]
  simp only [readsAll_cons, Reading.andThen_andThen, Attributes.keep_of_form h₁.attributes,
    Attributes.keep_of_form h₂.attributes]
  simp only [readsAll, Reading.andThen, sequenceValue, if_pos hany, hreshaped]

/-- A reference to a rule. -/
theorem Matcher.OfForm.read_reference {name : String} {slot : Nat} {body : Matcher}
    (hm : m.OfForm r (.reference a name)) (ha : a.reshape = none) (hnull : a.nullable = false)
    (hslot : r.lookup name = some slot) (hbody : (rules[slot]?).join = some body) (cs : List Char) :
    m.read rules n cs = entered rules n body cs := by
  have hattributes := hm.attributes
  obtain ⟨node, hform, hnode⟩ := hm
  cases node with
  | reference a' name' =>
    obtain ⟨rfl, rfl⟩ := Node.reference.inj hform
    obtain rfl := Except.ok.inj hnode
    have ha : a'.reshape = none := ha
    have hnull : a'.nullable = false := hnull
    rw [read, reads, hslot, Option.bind_some, hbody]
    dsimp only
    rw [Attributes.settle_of_sure hnull]
    simp only [Attributes.reshaped_of_none ha]
    cases entered rules n body cs <;> rfl
  | terminal | sequence | choice | repetition => cases hform

/-! ## In tandem -/

section

variable {Z : Type} [DecidableEq Z] {T : Tandem Z} {meets : Z → List Char → List Char → Prop}
  {tail : List Char} {ps : List (Tandem.Part Z)}

omit [DecidableEq Z] in
theorem Matcher.forall₂_bears
    (H : List.Forall₂ (fun form p => ∀ {m : Matcher}, m.OfForm r form → m.Bears meets rules n p) forms ps)
    (hms : List.Forall₂ (fun form m => Matcher.OfForm r m form) forms ms) :
    List.Forall₂ (Matcher.Bears meets rules n) ms ps := by
  induction H generalizing ms with
  | nil =>
    obtain rfl := List.forall₂_nil_left_iff.mp hms
    exact .nil
  | cons hp _ ih =>
    obtain ⟨m, ms, hm, hrest, rfl⟩ := List.forall₂_cons_left_iff.mp hms
    exact .cons (hp hm) (ih hrest)

/-- What holds of the parts of a sequence holds of the sequence. -/
theorem Tandem.Sound.bears_sequence_of_form (S : T.Sound meets tail rules)
    (hm : m.OfForm r (.sequence a forms))
    (H : List.Forall₂ (fun form p => ∀ {m : Matcher}, m.OfForm r form → m.Bears meets rules n p) forms ps) :
    m.Bears meets rules n (a.outline (.sequence (ps.map (·.1))), T.dress a (T.row ps)) := by
  obtain ⟨a', ms, rfl, rfl, hms⟩ := hm.exists_sequence
  exact S.bears_sequence a' (Matcher.forall₂_bears H hms)

/-- The same for alternatives. -/
theorem Tandem.Sound.bears_choice_of_form (S : T.Sound meets tail rules)
    (hm : m.OfForm r (.choice a forms))
    (H : List.Forall₂ (fun form p => ∀ {m : Matcher}, m.OfForm r form → m.Bears meets rules n p) forms ps) :
    m.Bears meets rules n (a.outline (.choice (ps.map (·.1))), T.dress a (T.oneOf ps)) := by
  obtain ⟨a', ms, rfl, rfl, hms⟩ := hm.exists_choice
  exact S.bears_choice a' (Matcher.forall₂_bears H hms)

end

/-! ## Whole parses -/

section

variable {p : Parser} {member : Matcher → Prop} {options : Options} {input rest : List Char} {v : Value}

theorem Matcher.read_mono_ne_fatal {m : Matcher} {left left' : Nat} (h : m.read rules left cs ≠ .fatal)
    (hle : left ≤ left') : m.read rules left' cs = m.read rules left cs := by
  cases hread : m.read rules left cs with
  | matched v rest => exact Matcher.read_mono hread hle
  | failed => exact Matcher.read_mono_failed hread hle
  | fatal => exact absurd hread h

variable (F : Family p.rules member) (hid : Identified member) (hroot : member p.root)

include F hid hroot

/-- Where there is no fatal failure, there is none in reading the root with enough entries left. -/
theorem Parser.exists_read (options : Options) (input : List Char) :
    (∃ e, p.parse options input = .error e ∧ e.isFatal = true) ∨
      ∃ n, p.root.read p.rules n input ≠ .fatal := by
  rw [p.parse_eq]
  rcases hmatch : p.matchAt options.maxDepth 0 input (.empty options.memoize) with ⟨e | s, memo⟩
  · by_cases hfatal : e.isFatal = true
    · exact .inl ⟨e, options.complete_error input e, hfatal⟩
    · have hfatal := Bool.eq_false_of_not_eq_true hfatal
      obtain ⟨-, n, hplain⟩ := exists_plain_of_run F hid hroot (Text.fromBoundary?_zero input)
        (Memo.sound_empty _) hmatch (.not_fatal hfatal)
      exact .inr ⟨n, by rw [Matcher.read_of_plain_error hplain hfatal]; nofun⟩
  · obtain ⟨-, n, hplain⟩ := exists_plain_of_run F hid hroot (Text.fromBoundary?_zero input)
      (Memo.sound_empty _) hmatch (.ok s)
    obtain ⟨text, rest, -, -, hread⟩ := Matcher.read_of_plain_ok hplain
    exact .inr ⟨n, by rw [hread]; nofun⟩

/-- Where all of the input has to match, a parse that succeeds has read all of it. -/
theorem Parser.exists_read_of_parse (hall : options.matchAll = true) {s : Success}
    (h : p.parse options input = .ok s) : ∃ n, p.root.read p.rules n input = .matched s.value [] := by
  have hleaves := Parser.leaves_of_parse F hid hroot hall h
  obtain ⟨-, n, hplain⟩ := exists_plain_of_run F hid hroot (Text.fromBoundary?_zero input)
    (Memo.sound_empty _) (Prod.ext (Parser.matchAt_of_parse_ok h) rfl) (.ok s)
  obtain ⟨text, rest, -, -, hread⟩ := Matcher.read_of_plain_ok hplain
  obtain rfl := Option.some.inj ((Matcher.leaves_of_read_matched hread).unique hleaves)
  exact ⟨n, hread⟩

/-- Where all of the input is read, the parse succeeds unless there is a fatal failure. -/
theorem Parser.parse_of_read (hall : options.matchAll = true) {n : Nat}
    (h : p.root.read p.rules n input = .matched v []) :
    (∃ e, p.parse options input = .error e ∧ e.isFatal = true) ∨
      ∃ s, p.parse options input = .ok s ∧ s.value = v := by
  refine (Parser.parse_of_leaves F hid hroot (Matcher.leaves_of_read_matched h)).imp_right ?_
  rintro ⟨s, hs⟩
  obtain ⟨n', hread⟩ := Parser.exists_read_of_parse F hid hroot hall hs
  have hmax := Matcher.read_mono h (Nat.le_max_left n n')
  rw [Matcher.read_mono hread (Nat.le_max_right n n')] at hmax
  exact ⟨s, hs, (Reading.matched.inj hmax).1⟩

end

end Typestrip.Grammar
