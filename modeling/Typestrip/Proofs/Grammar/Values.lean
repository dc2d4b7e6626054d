import Typestrip.Proofs.Grammar.Outlines

/-!
# The same value from two texts

The value of a match is made of what terminals took and of which parts were kept. So two texts give a
node the same value, whatever else stands in them, if what its outline keeps is the same in both
(`Same`). There is one lemma for each way of keeping something: a terminal that takes the same, a node
that is left out, the first alternative, no rounds at all, and the kept parts of a sequence.
-/

namespace Typestrip.Grammar

variable {rules : Rules} {o : Outline} {os : List Outline} {cs cs' : List Char}

/-! ## Constructs without what is said about them -/

/-- What a node matches, apart from that it may be left out or kept. -/
def Outline.core : Outline → Outline
  | .optional o => o.core
  | .kept o => o.core
  | o => o

/-- Whether the value is kept. -/
def Outline.isKept : Outline → Bool
  | .kept _ => true
  | _ => false

/-- Whether only a terminal has the outline. -/
def Outline.isTerminal (o : Outline) : Bool :=
  match o.core with
  | .literal _ | .pattern _ => true
  | _ => false

/-- The attributes of a node that has to match and is not kept. -/
def Attributes.bare (a : Attributes) : Attributes := { a with nullable := false, capture := none }

/-- The same node, but it has to match and is not kept. -/
def Matcher.bare : Matcher → Matcher
  | .literal a text expected => .literal a.bare text expected
  | .pattern a regex expected => .pattern a.bare regex expected
  | .sequence a ms => .sequence a.bare ms
  | .choice a ms => .choice a.bare ms
  | .repetition a m => .repetition a.bare m
  | .rule a name slot => .rule a.bare name slot

theorem Attributes.core_outline (a : Attributes) (ho : o.core = o) : (a.outline o).core = o := by
  rw [outline]
  split <;> split <;> simp only [Outline.core, ho]

theorem Matcher.outline_bare (m : Matcher) : m.bare.outline = m.outline.core := by
  cases m <;> exact (Attributes.core_outline _ rfl).symm

theorem Matcher.isTerminal_eq (m : Matcher) : m.isTerminal = m.outline.isTerminal := by
  rw [Outline.isTerminal]
  cases m <;> rw [outline, Attributes.core_outline _ rfl] <;> rfl

theorem Matcher.isKept_outline (m : Matcher) :
    m.outline.isKept = m.attributes.capture.isSome := by
  have hkept (a : Attributes) {o : Outline} (ho : o.isKept = false) :
      (a.outline o).isKept = a.capture.isSome := by
    rw [Attributes.outline]
    cases a.capture.isSome with
    | true => rfl
    | false =>
      show (if a.nullable then Outline.optional o else o).isKept = false
      split
      · rfl
      · exact ho
  cases m <;> exact hkept _ rfl

theorem Matcher.any_isKept_outlineAll (ms : List Matcher) :
    (Matcher.outlineAll ms).any Outline.isKept = ms.any (·.attributes.capture.isSome) := by
  induction ms with
  | nil => rfl
  | cons m ms ih => rw [outlineAll, List.any_cons, List.any_cons, ih, m.isKept_outline]

theorem Matcher.exists_of_core_pattern {m : Matcher} {regex : Regex.Expr}
    (h : m.outline.core = .pattern regex) : ∃ a expected, m = .pattern a regex expected := by
  cases m <;> rw [outline, Attributes.core_outline _ rfl] at h <;> cases h
  exact ⟨_, _, rfl⟩

theorem Matcher.exists_of_core_sequence {m : Matcher} (h : m.outline.core = .sequence os) :
    ∃ a ms, m = .sequence a ms ∧ Matcher.outlineAll ms = os := by
  cases m <;> rw [outline, Attributes.core_outline _ rfl] at h <;> cases h
  exact ⟨_, _, rfl, rfl⟩

theorem Matcher.exists_of_core_choice {m : Matcher} (h : m.outline.core = .choice os) :
    ∃ a ms, m = .choice a ms ∧ Matcher.outlineAll ms = os := by
  cases m <;> rw [outline, Attributes.core_outline _ rfl] at h <;> cases h
  exact ⟨_, _, rfl, rfl⟩

theorem Matcher.exists_of_core_repetition {m : Matcher} (h : m.outline.core = .repetition o) :
    ∃ a child, m = .repetition a child ∧ child.outline = o := by
  cases m <;> rw [outline, Attributes.core_outline _ rfl] at h <;> cases h
  exact ⟨_, _, rfl, rfl⟩

theorem Matcher.exists_of_core_rule {m : Matcher} {slot : Option Nat}
    (h : m.outline.core = .rule slot) : ∃ a name, m = .rule a name slot := by
  cases m <;> rw [outline, Attributes.core_outline _ rfl] at h <;> cases h
  exact ⟨_, _, rfl⟩

theorem Matcher.exists_of_outlineAll {ms : List Matcher} (h : Matcher.outlineAll ms = o :: os) :
    ∃ m ms', ms = m :: ms' ∧ m.outline = o ∧ Matcher.outlineAll ms' = os := by
  cases ms with
  | nil => cases h
  | cons m ms =>
    obtain ⟨rfl, rfl⟩ := List.cons.inj h
    exact ⟨m, ms, rfl, rfl, rfl⟩

theorem Matcher.eq_nil_of_outlineAll {ms : List Matcher} (h : Matcher.outlineAll ms = []) :
    ms = [] := by
  cases ms with
  | nil => rfl
  | cons => cases h

/-- What is read of a node is what is read of its construct, but that nothing is the value where the
construct fails. -/
theorem Matcher.read_eq_bare (m : Matcher) (n : Nat) (cs : List Char) {v : Value} {r : List Char}
    (h : m.read rules n cs = .matched v r) :
    m.bare.read rules n cs = .matched v r ∨ m.bare.read rules n cs = .failed ∧ v = .null := by
  have hsettle {α : Type} (a : Attributes) (f : α → List Char → Value) (x : Reading α)
      (h : a.settle cs f x = .matched v r) :
      a.bare.settle cs f x = .matched v r ∨ a.bare.settle cs f x = .failed ∧ v = .null := by
    cases x with
    | matched x rest => exact .inl h
    | failed =>
      rw [Attributes.settle] at h
      split at h
      · exact .inr ⟨rfl, (Reading.matched.inj h).1.symm⟩
      · cases h
    | fatal => cases h
  unfold Matcher.read at h ⊢
  cases m with
  | rule a name slot =>
    simp only [Matcher.bare, Matcher.reads] at h ⊢
    cases hbody : slot.bind fun i => (rules[i]?).join with
    | none =>
      rw [hbody] at h
      cases h
    | some body =>
      rw [hbody] at h
      exact hsettle a _ _ h
  | _ =>
    simp only [Matcher.bare, Matcher.reads] at h ⊢
    exact hsettle _ _ _ h

/-! ## Values that are the same -/

/-- A node with the outline has the same value in both texts, where it matches. -/
def Same (rules : Rules) (o : Outline) (cs cs' : List Char) : Prop :=
  ∀ ⦃m : Matcher⦄ ⦃n n' v v' r r'⦄, m.outline = o → m.read rules n cs = .matched v r →
    m.read rules n' cs' = .matched v' r' → v = v'

/-- The parts of a sequence with the outlines are kept with the same values. -/
def SameParts (rules : Rules) (os : List Outline) (cs cs' : List Char) : Prop :=
  ∀ ⦃ms : List Matcher⦄ ⦃fields n n' x x' r r'⦄, Matcher.outlineAll ms = os →
    Matcher.readsAll rules (entered rules n) ms fields cs = .matched x r →
      Matcher.readsAll rules (entered rules n') ms fields cs' = .matched x' r' → x = x'

/-- A part that matches is no failure of the sequence. -/
theorem Matcher.read_ne_failed {m : Matcher} {n : Nat} {r : List Char}
    (h : Leaves (outlineOf rules) m.outline cs (some r)) : m.read rules n cs ≠ .failed := by
  intro hfailed
  cases h.unique (leaves_of_read_failed hfailed)

theorem Matcher.not_read_matched {m : Matcher} {n : Nat} {v : Value} {r : List Char}
    (h : Leaves (outlineOf rules) m.outline cs none) : m.read rules n cs ≠ .matched v r := by
  intro hmatched
  cases h.unique (leaves_of_read_matched hmatched)

/-- Where its construct matches, the value of a node is that of its construct. -/
theorem Same.of_bare {o' : Outline} {r r' : List Char} (ho : o.core = o')
    (hcs : Leaves (outlineOf rules) o' cs (some r)) (hcs' : Leaves (outlineOf rules) o' cs' (some r'))
    (h : ∀ ⦃m : Matcher⦄ ⦃n n' v v'⦄, m.outline.core = o' →
      m.bare.read rules n cs = .matched v r → m.bare.read rules n' cs' = .matched v' r' → v = v') :
    Same rules o cs cs' := by
  subst ho
  have hbare {m : Matcher} {n : Nat} {cs r s : List Char} {v : Value}
      (hcs : Leaves (outlineOf rules) m.outline.core cs (some r))
      (hread : m.read rules n cs = .matched v s) : m.bare.read rules n cs = .matched v r := by
    rw [← m.outline_bare] at hcs
    rcases m.read_eq_bare n cs hread with hbare | ⟨hfailed, -⟩
    · obtain rfl := Option.some.inj (hcs.unique (Matcher.leaves_of_read_matched hbare))
      exact hbare
    · exact absurd hfailed (Matcher.read_ne_failed hcs)
  rintro m n n' v v' s s' rfl hread hread'
  exact h rfl (hbare hcs hread) (hbare hcs' hread')

/-- What is left out has no value. -/
theorem Same.skipped (hcs : Leaves (outlineOf rules) o.core cs none)
    (hcs' : Leaves (outlineOf rules) o.core cs' none) : Same rules o cs cs' := by
  have hnull {m : Matcher} {n : Nat} {cs s : List Char} {v : Value}
      (hcs : Leaves (outlineOf rules) m.outline.core cs none)
      (hread : m.read rules n cs = .matched v s) : v = .null := by
    rw [← m.outline_bare] at hcs
    rcases m.read_eq_bare n cs hread with hbare | ⟨-, hv⟩
    · cases hcs.unique (Matcher.leaves_of_read_matched hbare)
    · exact hv
  rintro m n n' v v' s s' rfl hread hread'
  rw [hnull hcs hread, hnull hcs' hread']

theorem Attributes.eq_of_settle_bare {α : Type} {a : Attributes} {f : α → List Char → Value}
    {x : Reading α} {v : Value} {r : List Char} (h : a.bare.settle cs f x = .matched v r) :
    ∃ y, x = .matched y r ∧ v = a.reshaped (f y r) := by
  cases x with
  | matched y rest =>
    obtain ⟨rfl, rfl⟩ := Reading.matched.inj h
    exact ⟨y, rfl, rfl⟩
  | failed | fatal => cases h

/-- A terminal that takes the same text. -/
theorem Same.pattern {regex : Regex.Expr} {x r r' : List Char} (ho : o.core = .pattern regex)
    (h : Leaves (outlineOf rules) (.pattern regex) (x ++ r) (some r))
    (h' : Leaves (outlineOf rules) (.pattern regex) (x ++ r') (some r')) :
    Same rules o (x ++ r) (x ++ r') := by
  have htaken {a : Attributes} {expected : String} {n : Nat} {v : Value} {r : List Char}
      (h : (Matcher.pattern a.bare regex expected).read rules n (x ++ r) = .matched v r) :
      v = a.reshaped (.text (String.ofList x)) := by
    rw [Matcher.read, Matcher.reads] at h
    obtain ⟨taken, htaken, rfl⟩ := Attributes.eq_of_settle_bare h
    rw [readPattern] at htaken
    split at htaken
    · next k hk =>
      obtain ⟨rfl, hdrop⟩ := Reading.matched.inj htaken
      have hsplit := List.take_append_drop k (x ++ r)
      rw [hdrop] at hsplit
      rw [List.append_cancel_right hsplit]
    · cases htaken
  refine .of_bare ho h h' fun m n n' v v' hm hread hread' => ?_
  obtain ⟨a, expected, rfl⟩ := Matcher.exists_of_core_pattern hm
  rw [htaken hread, htaken hread']

/-- A choice of which the first alternative matches. -/
theorem Same.alternative {o' : Outline} {r r' : List Char} (ho : o.core = .choice (o' :: os))
    (hcs : Leaves (outlineOf rules) o' cs (some r)) (hcs' : Leaves (outlineOf rules) o' cs' (some r'))
    (h : Same rules o' cs cs') : Same rules o cs cs' := by
  have hfirst {a : Attributes} {m : Matcher} {ms : List Matcher} {n : Nat} {v : Value}
      {cs r s : List Char} (hcs : Leaves (outlineOf rules) m.outline cs (some r))
      (hread : (Matcher.choice a.bare (m :: ms)).read rules n cs = .matched v s) :
      ∃ v', m.read rules n cs = .matched v' s ∧ v = a.reshaped v' := by
    rw [Matcher.read, Matcher.reads] at hread
    obtain ⟨v', hread', rfl⟩ := Attributes.eq_of_settle_bare hread
    rw [Matcher.readsFirst] at hread'
    split at hread'
    · next hm =>
      obtain ⟨rfl, rfl⟩ := Reading.matched.inj hread'
      exact ⟨_, hm, rfl⟩
    · next hm => exact absurd hm (Matcher.read_ne_failed hcs)
    · cases hread'
  refine .of_bare ho (.alternative hcs) (.alternative hcs') fun m n n' v v' hm hread hread' => ?_
  obtain ⟨a, ms, rfl, hms⟩ := Matcher.exists_of_core_choice hm
  obtain ⟨m, ms, rfl, rfl, -⟩ := Matcher.exists_of_outlineAll hms
  obtain ⟨w, hw, rfl⟩ := hfirst hcs hread
  obtain ⟨w', hw', rfl⟩ := hfirst hcs' hread'
  rw [h rfl hw hw']

/-- A repetition without a round. -/
theorem Same.stop {o' : Outline} (ho : o.core = .repetition o')
    (hcs : Leaves (outlineOf rules) o' cs none) (hcs' : Leaves (outlineOf rules) o' cs' none) :
    Same rules o cs cs' := by
  have hnone {a : Attributes} {child : Matcher} {n : Nat} {v : Value} {cs s : List Char}
      (hcs : Leaves (outlineOf rules) child.outline cs none)
      (hread : (Matcher.repetition a.bare child).read rules n cs = .matched v s) :
      v = a.reshaped (.list []) := by
    rw [Matcher.read, Matcher.reads] at hread
    obtain ⟨items, hrounds, rfl⟩ := Attributes.eq_of_settle_bare hread
    rw [readRounds] at hrounds
    split at hrounds
    · next hm => exact absurd hm (Matcher.not_read_matched hcs)
    · rw [← (Reading.matched.inj hrounds).1]
      rfl
    · cases hrounds
  refine .of_bare ho (.stop hcs) (.stop hcs') fun m n n' v v' hm hread hread' => ?_
  obtain ⟨a, child, rfl, rfl⟩ := Matcher.exists_of_core_repetition hm
  rw [hnone hcs hread, hnone hcs' hread']

theorem SameParts.nil : SameParts rules [] cs cs' := by
  intro ms fields n n' x x' r r' hms hread hread'
  obtain rfl := Matcher.eq_nil_of_outlineAll hms
  rw [Matcher.readsAll] at hread hread'
  rw [← (Reading.matched.inj hread).1, ← (Reading.matched.inj hread').1]

theorem keep_eq {m : Matcher} {v v' : Value} (h : m.outline.isKept = true → v = v')
    (fields : List (String × Value)) : keep m.attributes v fields = keep m.attributes v' fields := by
  rw [m.isKept_outline] at h
  rw [keep, keep]
  cases hcapture : m.attributes.capture with
  | none => rfl
  | some name => rw [h (by rw [hcapture]; rfl)]

theorem SameParts.cons {mid mid' : List Char} (hcs : Leaves (outlineOf rules) o cs (some mid))
    (hcs' : Leaves (outlineOf rules) o cs' (some mid')) (h : o.isKept = true → Same rules o cs cs')
    (hs : SameParts rules os mid mid') : SameParts rules (o :: os) cs cs' := by
  have hhead {m : Matcher} {ms : List Matcher} {fields x : List (String × Value)} {n : Nat}
      {cs mid s : List Char} (hcs : Leaves (outlineOf rules) m.outline cs (some mid))
      (hread : Matcher.readsAll rules (entered rules n) (m :: ms) fields cs = .matched x s) :
      ∃ v, m.read rules n cs = .matched v mid ∧
        Matcher.readsAll rules (entered rules n) ms (keep m.attributes v fields) mid =
          .matched x s := by
    rw [Matcher.readsAll] at hread
    split at hread
    · next hm =>
      obtain rfl := Option.some.inj (hcs.unique (Matcher.leaves_of_read_matched hm))
      exact ⟨_, hm, hread⟩
    · cases hread
    · cases hread
  intro ms fields n n' x x' r r' hms hread hread'
  obtain ⟨m, ms, rfl, rfl, rfl⟩ := Matcher.exists_of_outlineAll hms
  obtain ⟨v, hv, hread⟩ := hhead hcs hread
  obtain ⟨v', hv', hread'⟩ := hhead hcs' hread'
  rw [keep_eq (fun hkept => h hkept rfl hv hv')] at hread
  exact hs rfl hread hread'

/-- A sequence whose value is what it keeps. -/
theorem Same.sequence {r r' : List Char} (ho : o.core = .sequence os)
    (hkept : os.any Outline.isKept = true) (hcs : Leaves (outlineOf rules) (.sequence os) cs (some r))
    (hcs' : Leaves (outlineOf rules) (.sequence os) cs' (some r')) (h : SameParts rules os cs cs') :
    Same rules o cs cs' := by
  refine .of_bare ho hcs hcs' fun m n n' v v' hm hread hread' => ?_
  obtain ⟨a, ms, rfl, hms⟩ := Matcher.exists_of_core_sequence hm
  rw [Matcher.bare, Matcher.read, Matcher.reads] at hread hread'
  obtain ⟨x, hx, rfl⟩ := Attributes.eq_of_settle_bare hread
  obtain ⟨x', hx', rfl⟩ := Attributes.eq_of_settle_bare hread'
  have hany : ms.any (·.attributes.capture.isSome) = true := by
    rw [← Matcher.any_isKept_outlineAll, hms, hkept]
  rw [sequenceValue, sequenceValue, if_pos hany, if_pos hany, h hms hx hx']

end Typestrip.Grammar
