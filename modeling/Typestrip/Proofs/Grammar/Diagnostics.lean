import Typestrip.Proofs.Grammar.Memoization
import Typestrip.Proofs.Grammar.Positions

/-!
# What diagnostics say

A diagnostic reports the failure at the bottom of a tree that lies furthest into the input. So what
it says can be told from the parts of the tree: where failures bottom out in terminals that did not
match and in too deep a nesting (`ParseError.Grounded`), a diagnostic is about the source, has a
position, and lists what would have been accepted there (`ParseError.Grounded.diagnostic`).
-/

namespace Typestrip.Source.Position

/-! ## Positions of offsets -/

theorem offset_after (p : Position) (c : Char) :
    (p.after c).offset = p.offset + c.utf8Size.toUInt64 := by
  rw [after]
  split <;> rfl

theorem offset_advance (p : Position) (front back : List Char) :
    (p.advance (Text.width front) (front ++ back)).offset =
      p.offset + (Text.width front).toUInt64 := by
  induction front generalizing p with
  | nil =>
    have hstay : p.advance 0 back = p := by
      cases back with
      | nil => rfl
      | cons c back => exact if_neg (Nat.not_le.mpr (Char.utf8Size_pos c))
    show (p.advance 0 back).offset = p.offset + 0
    rw [hstay, UInt64.add_zero]
  | cons c front ih =>
    rw [Text.width_cons, List.cons_append, advance, if_pos (Nat.le_add_right _ _),
      Nat.add_sub_cancel_left, ih, offset_after, UInt64.add_assoc]
    exact congrArg _ (UInt64.ofNat_add _ _).symm

/-- The position of a character boundary has its offset. -/
theorem offset_ofOffset {source : List Char} {pos : Nat} (h : Text.IsBoundary source pos) :
    (ofOffset source pos).offset = pos.toUInt64 := by
  obtain ⟨front, back, rfl, rfl⟩ := h
  rw [ofOffset, offset_advance]
  exact UInt64.zero_add _

end Typestrip.Source.Position

namespace Typestrip.Grammar

open Source

/-- The message about rules that nest too deeply. -/
def nestingMessage (limit : Nat) : String := s!"nesting too deep (more than {limit} levels)"

namespace ParseError

/-- A failure stands somewhere in the tree of another one. -/
def Part (e part : ParseError) : Prop :=
  Relation.ReflTransGen (fun e cause => cause ∈ e.causes) e part

theorem part_self (e : ParseError) : e.Part e := .refl

/-- A failure in a tree is the one on top, or it stands in the tree of one of its causes. -/
theorem part_iff {e part : ParseError} : e.Part part ↔ part = e ∨ ∃ c ∈ e.causes, c.Part part := by
  rw [Part, Relation.ReflTransGen.cases_head_iff, eq_comm]
  rfl

theorem part_iff_below {e part : ParseError} : e.Part part ↔ part = e ∨ e.Below part :=
  Relation.reflTransGen_iff_eq_or_transGen

theorem part_of_cause {e c part : ParseError} (hc : c ∈ e.causes) (h : c.Part part) :
    e.Part part :=
  part_iff.mpr (.inr ⟨c, hc, h⟩)

/-! ## The deepest failure -/

theorem further_eq (best : Option ParseError) (e : ParseError) :
    further best e = e ∨ best = some (further best e) := by
  cases best with
  | none => exact .inl rfl
  | some b =>
    rw [further]
    split
    · exact .inl rfl
    · exact .inr rfl

/-- There is a deepest failure among some. -/
theorem deepestOf_ne_none {es : List ParseError} {best : Option ParseError}
    (h : best ≠ none ∨ es ≠ []) : deepestOf best es ≠ none := by
  induction es generalizing best with
  | nil => exact h.resolve_right fun hes => hes rfl
  | cons e es ih => exact ih (.inl (Option.some_ne_none _))

mutual
/-- The deepest failure stands in the tree, at the bottom. -/
theorem deepest_part : ∀ e : ParseError, e.Part e.deepest ∧ e.deepest.causes = []
  | stopped p cause => by
    obtain ⟨hpart, hleaf⟩ := deepest_part cause
    exact ⟨part_of_cause (List.mem_singleton_self cause) hpart, hleaf⟩
  | exhausted p alternatives => by
    rw [deepest]
    cases hfound : deepestOf none alternatives with
    | none =>
      -- there are no alternatives
      have hnone : alternatives = [] := by
        by_contra hne
        exact deepestOf_ne_none (.inr hne) hfound
      exact ⟨part_self _, hnone⟩
    | some e =>
      obtain ⟨c, hc, hpart, hleaf⟩ := (deepestOf_part alternatives hfound).resolve_left nofun
      exact ⟨part_of_cause hc hpart, hleaf⟩
  | unmatched .. | leftOver _ | tooDeep .. | unresolved _ => ⟨part_self _, rfl⟩

theorem deepestOf_part : ∀ (es : List ParseError) {best : Option ParseError} {e : ParseError},
    deepestOf best es = some e → best = some e ∨ ∃ c ∈ es, c.Part e ∧ e.causes = []
  | [], _, _, h => .inl h
  | c :: es, best, e, h => by
    rw [deepestOf] at h
    rcases deepestOf_part es h with hbest | ⟨c', hc', hpart⟩
    · rcases further_eq best c.deepest with heq | heq
      · obtain rfl := (Option.some.inj hbest).symm.trans heq
        exact .inr ⟨c, List.mem_cons_self, deepest_part c⟩
      · exact .inl (heq.trans hbest)
    · exact .inr ⟨c', List.mem_cons_of_mem c hc', hpart⟩
end

/-! ## What would have been accepted -/

theorem subset_addExpected (found : List String) (x : String) : found ⊆ addExpected found x := by
  rw [addExpected]
  split
  · exact List.Subset.refl found
  · exact List.subset_append_left found [x]

theorem mem_addExpected (found : List String) (x : String) : x ∈ addExpected found x := by
  rw [addExpected]
  split
  · next h => exact List.contains_iff_mem.mp h
  · exact List.mem_append_right found (List.mem_singleton_self x)

mutual
/-- What has been found stays, and what each terminal expects that failed at the position is added. -/
theorem collectExpected_spec (pos : Nat) : ∀ (e : ParseError) (found : List String),
    found ⊆ collectExpected pos found e ∧
      ∀ x, e.Part (unmatched pos x) → x ∈ collectExpected pos found e
  | unmatched p expected, found => by
    rw [collectExpected]
    refine ⟨?_, fun x hpart => ?_⟩
    · split
      · exact subset_addExpected found expected
      · exact List.Subset.refl found
    · rcases part_iff.mp hpart with heq | ⟨c, hc, -⟩
      · obtain ⟨rfl, rfl⟩ := unmatched.inj heq
        rw [if_pos rfl]
        exact mem_addExpected found x
      · cases hc
  | stopped p cause, found => by
    obtain ⟨hsub, hmem⟩ := collectExpected_spec pos cause found
    refine ⟨hsub, fun x hpart => ?_⟩
    obtain ⟨c, hc, hpart'⟩ := (part_iff.mp hpart).resolve_left nofun
    obtain rfl := List.mem_singleton.mp hc
    exact hmem x hpart'
  | exhausted p alternatives, found => by
    obtain ⟨hsub, hmem⟩ := collectExpectedOf_spec pos alternatives found
    refine ⟨hsub, fun x hpart => ?_⟩
    obtain ⟨c, hc, hpart⟩ := (part_iff.mp hpart).resolve_left nofun
    exact hmem x c hc hpart
  | leftOver p, found | tooDeep p limit, found | unresolved name, found => by
    refine ⟨List.Subset.refl found, fun x hpart => ?_⟩
    obtain ⟨c, hc, -⟩ := (part_iff.mp hpart).resolve_left nofun
    cases hc

theorem collectExpectedOf_spec (pos : Nat) : ∀ (es : List ParseError) (found : List String),
    found ⊆ collectExpectedOf pos found es ∧
      ∀ x, ∀ c ∈ es, c.Part (unmatched pos x) → x ∈ collectExpectedOf pos found es
  | [], found => ⟨List.Subset.refl found, nofun⟩
  | e :: es, found => by
    obtain ⟨hsub, hmem⟩ := collectExpected_spec pos e found
    obtain ⟨hsubs, hmems⟩ := collectExpectedOf_spec pos es (collectExpected pos found e)
    refine ⟨List.Subset.trans hsub hsubs, fun x c hc hpart => ?_⟩
    rcases List.mem_cons.mp hc with rfl | hc
    · exact hsubs (hmem x hpart)
    · exact hmems x c hc hpart
end

/-- What a terminal expected that failed somewhere would have been accepted there. -/
theorem mem_expectedAt {e : ParseError} {pos : Nat} {x : String}
    (h : e.Part (unmatched pos x)) : x ∈ e.expectedAt pos :=
  (collectExpected_spec pos e []).2 x h

/-! ## Failures in the rest of an input -/

theorem causes_shift (offset : Nat) (e : ParseError) :
    (e.shift offset).causes = e.causes.map (shift offset) := by
  cases e with
  | exhausted p es => exact shiftAll_eq_map offset es
  | _ => rfl

theorem position?_shift (offset : Nat) (e : ParseError) :
    (e.shift offset).position? = e.position?.map (· + offset) := by
  cases e <;> rfl

/-- The tree of a moved failure is made of moved failures. -/
theorem exists_of_part_shift {e part : ParseError} {offset : Nat}
    (h : (e.shift offset).Part part) : ∃ e', e.Part e' ∧ part = e'.shift offset := by
  generalize htop : e.shift offset = top at h
  induction h using Relation.ReflTransGen.head_induction_on generalizing e with
  | refl => exact ⟨e, e.part_self, htop.symm⟩
  | head hcause _ ih =>
    subst htop
    rw [causes_shift] at hcause
    obtain ⟨c, hc, rfl⟩ := List.mem_map.mp hcause
    obtain ⟨e', hpart, heq⟩ := ih rfl
    exact ⟨e', part_of_cause hc hpart, heq⟩

/-! ## Reports -/

theorem head?_append {s : String} {c : Char} (h : s.toList.head? = some c) (t : String) :
    (s ++ t).toList.head? = some c := by
  rw [String.toList_append, List.head?_append, h, Option.some_or]

theorem head?_nestingMessage (limit : Nat) : (nestingMessage limit).toList.head? = some 'n' :=
  head?_append (head?_append (by decide) _) _

/-- No failure in the tree is about too deep a nesting. -/
def Shallow (e : ParseError) : Prop := ∀ part, e.Part part → ¬ part.IsTooDeep

theorem Shallow.shift {e : ParseError} (h : e.Shallow) (offset : Nat) :
    (e.shift offset).Shallow := by
  intro part hpart hdeep
  obtain ⟨e', hpart', rfl⟩ := exists_of_part_shift hpart
  refine h e' hpart' ?_
  cases e' with
  | tooDeep => trivial
  | _ => exact hdeep

/-- A report is about the nesting only if a failure is. -/
theorem Shallow.message_ne {e : ParseError} (h : e.Shallow) (source : List Char) (limit : Nat) :
    (e.diagnostic source).message ≠ nestingMessage limit := by
  have hdeepest := h e.deepest e.deepest_part.1
  have hne {s : String} {c : Char} (hs : s.toList.head? = some c) (hc : c ≠ 'n') :
      s ≠ nestingMessage limit := by
    rintro rfl
    exact hc (Option.some.inj (hs.symm.trans (head?_nestingMessage limit)))
  have hunexpected (s : String) : s!"unexpected {s}" ≠ nestingMessage limit :=
    hne (head?_append (c := 'u') (by decide) s) (by decide)
  rw [diagnostic]
  revert hdeepest
  cases e.deepest with
  | unresolved name =>
    exact fun _ => hne (head?_append (head?_append (c := 'g') (by decide) name) _) (by decide)
  | tooDeep pos limit => exact fun h => absurd trivial h
  | _ => exact fun _ => hunexpected _

/-- Failures bottom out in terminals that did not match and in too deep a nesting. -/
def Grounded (e : ParseError) : Prop :=
  ∀ part, e.Part part → part.causes = [] →
    (∃ pos expected, part = unmatched pos expected) ∨ ∃ pos limit, part = tooDeep pos limit

theorem Grounded.shift {e : ParseError} (h : e.Grounded) (offset : Nat) :
    (e.shift offset).Grounded := by
  intro part hpart hleaf
  obtain ⟨e', hpart', rfl⟩ := exists_of_part_shift hpart
  rw [causes_shift, List.map_eq_nil_iff] at hleaf
  rcases h e' hpart' hleaf with ⟨pos, expected, rfl⟩ | ⟨pos, limit, rfl⟩
  · exact .inl ⟨_, _, rfl⟩
  · exact .inr ⟨_, _, rfl⟩

/-- What a report says of a failure of this kind. -/
theorem Grounded.diagnostic {e : ParseError} (h : e.Grounded) (source : List Char) :
    ∃ pos, e.deepest.position? = some pos ∧ (e.diagnostic source).kind = .syntactic ∧
      (e.diagnostic source).position = some (.ofOffset source pos) ∧
      ((e.diagnostic source).expected ≠ [] ∨
        ∃ limit, (e.diagnostic source).message = nestingMessage limit) := by
  obtain ⟨hpart, hleaf⟩ := e.deepest_part
  rcases h e.deepest hpart hleaf with ⟨pos, expected, heq⟩ | ⟨pos, limit, heq⟩
  · refine ⟨pos, ?_⟩
    rw [ParseError.diagnostic, heq]
    exact ⟨rfl, rfl, rfl, .inl (List.ne_nil_of_mem (mem_expectedAt (heq ▸ hpart)))⟩
  · refine ⟨pos, ?_⟩
    rw [ParseError.diagnostic, heq]
    exact ⟨rfl, rfl, rfl, .inr ⟨limit, rfl⟩⟩

end ParseError

/-- What is not about too deep a nesting has nothing below it that is, if it is the failure of a
parse. -/
theorem Parser.parse_shallow {p : Parser} {options : Options} {input : List Char} {e : ParseError}
    (h : p.parse options input = .error e) (he : ¬ e.IsTooDeep) : e.Shallow := by
  intro part hpart hdeep
  rcases ParseError.part_iff_below.mp hpart with rfl | hbelow
  · exact he hdeep
  · rcases (partialBelow input).parse_failure rfl h with ⟨s, -, rfl⟩ | ⟨-, -, hpartial⟩
    · obtain ⟨c, hc, -⟩ := ParseError.below_iff.mp hbelow
      cases hc
    · exact Bool.false_ne_true ((hpartial part hbelow).1.symm.trans hdeep.isFatal)

end Typestrip.Grammar
