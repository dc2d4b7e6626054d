import Typestrip.Proofs.Grammar.Outlines

/-!
# Every text has an outcome

Rules that are entered at one position without taking anything in between could enter each other for
ever. In a grammar in which every rule enters at its own position only rules of lower ranks, all rules
take something and all references lead to bodies (`Founded`), every node either fails or leaves some rest
of every text (`Founded.exists_leaves`). So to show that a node fails it is enough to refute all of its
matches (`Founded.leaves_none`).
-/

namespace Typestrip.Grammar

variable {bodies : Nat → Option Outline} {place : List Char → Prop} {o : Outline} {os : List Outline}
  {cs rest : List Char} {r : Option (List Char)}

/-- What a match takes stands in front of what it leaves. -/
theorem Course.exists_append (h : Course bodies place o cs r) (hr : r = some rest) :
    ∃ front, cs = front ++ rest := by
  induction h generalizing rest with
  | @literal text rest' =>
    obtain rfl := Option.some.inj hr
    exact ⟨text, rfl⟩
  | @pattern regex cs =>
    obtain ⟨n, -, rfl⟩ := Option.map_eq_some_iff.mp hr
    exact ⟨cs.take n, (List.take_append_drop n cs).symm⟩
  | done | idle | stop | skipped =>
    obtain rfl := Option.some.inj hr
    exact ⟨[], rfl⟩
  | part _ _ _ ih ihs | round _ _ _ _ ih ihs =>
    obtain ⟨front, rfl⟩ := ih rfl
    obtain ⟨front', rfl⟩ := ihs hr
    exact ⟨front ++ front', (List.append_assoc ..).symm⟩
  | alternative _ ih | rule _ _ ih | optional _ ih | kept _ ih => exact ih hr
  | otherwise _ _ _ ihs => exact ihs hr
  | literalFailed | partFailed | exhausted => cases hr

/-! ## Rules that are entered -/

mutual
/-- The rules that an outline may enter where it begins are among `near`, and all others among
`far`. -/
def Outline.enters (sure near far : Nat → Bool) : Outline → Bool
  | .literal _ | .pattern _ => true
  | .sequence os => Outline.entersInTurn sure near far os
  | .choice os => Outline.entersAll sure near far os
  | .repetition o | .optional o | .kept o => o.enters sure near far
  | .rule slot => slot.any near

/-- Parts of a sequence begin at the same position until one takes something. -/
def Outline.entersInTurn (sure near far : Nat → Bool) : List Outline → Bool
  | [] => true
  | o :: os => o.enters sure near far &&
      if o.takes sure then Outline.entersInTurn sure far far os
      else Outline.entersInTurn sure near far os

/-- All alternatives begin at the same position. -/
def Outline.entersAll (sure near far : Nat → Bool) : List Outline → Bool
  | [] => true
  | o :: os => o.enters sure near far && Outline.entersAll sure near far os
end

variable {sure near near' far : Nat → Bool}

mutual
theorem Outline.enters_mono (h : ∀ slot, near slot = true → near' slot = true) :
    ∀ {o : Outline}, o.enters sure near far = true → o.enters sure near' far = true
  | .literal _, _ | .pattern _, _ => rfl
  | .sequence _, ho => Outline.entersInTurn_mono h ho
  | .choice _, ho => Outline.entersAll_mono h ho
  | .repetition o, ho | .optional o, ho | .kept o, ho => Outline.enters_mono (o := o) h ho
  | .rule none, ho => by cases ho
  | .rule (some slot), ho => h slot ho

theorem Outline.entersInTurn_mono (h : ∀ slot, near slot = true → near' slot = true) :
    ∀ {os : List Outline}, Outline.entersInTurn sure near far os = true →
      Outline.entersInTurn sure near' far os = true
  | [], _ => rfl
  | o :: os, hos => by
    rw [entersInTurn, Bool.and_eq_true] at hos ⊢
    refine ⟨Outline.enters_mono h hos.1, ?_⟩
    by_cases htakes : o.takes sure = true
    · rw [if_pos htakes] at hos ⊢
      exact hos.2
    · rw [if_neg htakes] at hos ⊢
      exact Outline.entersInTurn_mono h hos.2

theorem Outline.entersAll_mono (h : ∀ slot, near slot = true → near' slot = true) :
    ∀ {os : List Outline}, Outline.entersAll sure near far os = true →
      Outline.entersAll sure near' far os = true
  | [], _ => rfl
  | o :: os, hos => by
    rw [entersAll, Bool.and_eq_true] at hos ⊢
    exact ⟨Outline.enters_mono h hos.1, Outline.entersAll_mono h hos.2⟩
end

/-! ## Outcomes -/

/-- Every known rule has a body, which takes something, enters only known rules, and at its own position
only those of lower ranks. -/
structure Founded (bodies : Nat → Option Outline) (known : Nat → Bool) (rank : Nat → Nat) : Prop where
  body : ∀ {slot}, known slot = true → ∃ o, bodies slot = some o ∧ o.takes known = true ∧
    o.enters known (fun i => known i && decide (rank i < rank slot)) known = true

variable {known : Nat → Bool} {rank : Nat → Nat} {N : Nat}

namespace Founded

/-- What takes something leaves less. -/
theorem length_lt (h : Founded bodies known rank) (ho : o.takes known = true)
    (hleaves : Leaves bodies o cs (some rest)) : rest.length < cs.length := by
  refine hleaves.length_lt (fun {slot o} (hknown : known slot = true) ho => ?_) rfl ho
  obtain ⟨o', ho', htakes, -⟩ := h.body hknown
  rwa [Option.some.inj (ho.symm.trans ho')]

section

-- the three statements are proved together, and each of them needs all assumptions in the end
set_option linter.unusedSectionVars false

variable (h : Founded bodies known rank) (hnear : ∀ slot, near slot = true → known slot = true)
  (hshorter : ∀ {cs : List Char} {o : Outline}, cs.length < N → o.enters known known known = true →
    ∃ r, Leaves bodies o cs r)
  (hrules : ∀ {cs : List Char} {slot : Nat}, cs.length ≤ N → near slot = true →
    ∃ r, Leaves bodies (.rule (some slot)) cs r)

include h hnear hshorter hrules

mutual
/-- What enters only rules with outcomes where it begins has an outcome, if everything has one on
shorter texts. -/
theorem exists_of_enters : ∀ {o : Outline} {cs : List Char}, cs.length ≤ N →
    o.enters known near known = true → ∃ r, Leaves bodies o cs r
  | .literal text, cs, _, _ => by
    by_cases hprefix : text <+: cs
    · obtain ⟨rest, rfl⟩ := hprefix
      exact ⟨_, .literal⟩
    · exact ⟨_, .literalFailed hprefix⟩
  | .pattern _, _, _, _ => ⟨_, .pattern⟩
  | .sequence _, _, hcs, ho => exists_of_entersInTurn hcs ho
  | .choice _, _, hcs, ho => exists_of_entersAll hcs ho
  | .repetition o, cs, hcs, ho => by
    obtain ⟨_ | mid, hround⟩ := exists_of_enters (o := o) hcs ho
    · exact ⟨_, .stop hround⟩
    obtain ⟨front, rfl⟩ := hround.exists_append rfl
    cases front with
    | nil => exact ⟨_, .idle hround⟩
    | cons c front =>
      have hlt : mid.length < (c :: front ++ mid).length := by
        rw [List.cons_append, List.length_cons, List.length_append]
        omega
      obtain ⟨r, hrounds⟩ := hshorter (o := .repetition o) (Nat.lt_of_lt_of_le hlt hcs)
        (Outline.enters_mono hnear ho)
      exact ⟨r, .round hround hlt trivial hrounds⟩
  | .rule (some _), _, hcs, ho => hrules hcs ho
  | .rule none, _, _, ho => by cases ho
  | .optional o, _, hcs, ho => by
    obtain ⟨_ | mid, ho⟩ := exists_of_enters (o := o) hcs ho
    · exact ⟨_, .skipped ho⟩
    · exact ⟨_, .optional ho⟩
  | .kept o, _, hcs, ho => by
    obtain ⟨r, ho⟩ := exists_of_enters (o := o) hcs ho
    exact ⟨r, .kept ho⟩

theorem exists_of_entersInTurn : ∀ {os : List Outline} {cs : List Char}, cs.length ≤ N →
    Outline.entersInTurn known near known os = true → ∃ r, Leaves bodies (.sequence os) cs r
  | [], _, _, _ => ⟨_, .done⟩
  | o :: os, cs, hcs, hos => by
    obtain ⟨ho, hos⟩ := Bool.and_eq_true_iff.mp hos
    obtain ⟨_ | mid, hpart⟩ := exists_of_enters (o := o) hcs ho
    · exact ⟨_, .partFailed hpart⟩
    obtain ⟨r, hparts⟩ : ∃ r, Leaves bodies (.sequence os) mid r := by
      split at hos
      · next htakes =>
        exact hshorter (Nat.lt_of_lt_of_le (h.length_lt htakes hpart) hcs) hos
      · exact exists_of_entersInTurn (Nat.le_trans (hpart.length_le rfl) hcs) hos
    exact ⟨r, .part hpart trivial hparts⟩

theorem exists_of_entersAll : ∀ {os : List Outline} {cs : List Char}, cs.length ≤ N →
    Outline.entersAll known near known os = true → ∃ r, Leaves bodies (.choice os) cs r
  | [], _, _, _ => ⟨_, .exhausted⟩
  | o :: os, cs, hcs, hos => by
    obtain ⟨ho, hos⟩ := Bool.and_eq_true_iff.mp hos
    obtain ⟨_ | rest, hfirst⟩ := exists_of_enters (o := o) hcs ho
    · obtain ⟨r, hothers⟩ := exists_of_entersAll hcs hos
      exact ⟨r, .otherwise hfirst hothers⟩
    · exact ⟨_, .alternative hfirst⟩
end

end

/-- On every text a node has an outcome. -/
theorem exists_leaves (h : Founded bodies known rank) (ho : o.enters known known known = true)
    (cs : List Char) : ∃ r, Leaves bodies o cs r := by
  induction hN : cs.length using Nat.strong_induction_on generalizing o cs with
  | _ N ih =>
    subst hN
    have hshorter {cs' : List Char} {o : Outline} (hlt : cs'.length < cs.length)
        (ho : o.enters known known known = true) : ∃ r, Leaves bodies o cs' r :=
      ih _ hlt ho cs' rfl
    -- rules have outcomes by their ranks
    have hranked (k : Nat) : ∀ {cs' : List Char} {slot : Nat}, cs'.length ≤ cs.length →
        (known slot && decide (rank slot < k)) = true →
        ∃ r, Leaves bodies (.rule (some slot)) cs' r := by
      induction k with
      | zero =>
        intro cs' slot _ hslot
        simp at hslot
      | succ k ihk =>
        intro cs' slot hcs' hslot
        rw [Bool.and_eq_true, decide_eq_true_eq] at hslot
        obtain ⟨body, hbody, -, henters⟩ := h.body hslot.1
        have hlower : ∀ i, (known i && decide (rank i < rank slot)) = true →
            (known i && decide (rank i < k)) = true := by
          intro i hi
          rw [Bool.and_eq_true, decide_eq_true_eq] at hi ⊢
          exact ⟨hi.1, Nat.lt_of_lt_of_le hi.2 (Nat.le_of_lt_succ hslot.2)⟩
        obtain ⟨r, hr⟩ := exists_of_enters h (fun i hi => (Bool.and_eq_true_iff.mp hi).1) hshorter ihk
          hcs' (Outline.enters_mono hlower henters)
        exact ⟨r, .rule hbody hr⟩
    refine exists_of_enters h (fun _ => id) hshorter (fun {cs' slot} hcs' hslot => ?_) le_rfl ho
    exact hranked (rank slot + 1) hcs' (by simp [hslot])

/-- A node fails if none of its matches is possible. -/
theorem leaves_none (h : Founded bodies known rank) (ho : o.enters known known known = true)
    (hnot : ∀ rest, ¬ Leaves bodies o cs (some rest)) : Leaves bodies o cs none := by
  obtain ⟨_ | rest, hleaves⟩ := h.exists_leaves ho cs
  · exact hleaves
  · exact absurd hleaves (hnot rest)

end Founded

/-- Checks the bodies of the first `n` rules. -/
def foundedBy (rules : Rules) (n : Nat) (rank : Nat → Nat) : Bool :=
  let known : Nat → Bool := fun slot => decide (slot < n)
  (List.range n).all fun slot => (outlineOf rules slot).any fun o =>
    o.takes known && o.enters known (fun i => known i && decide (rank i < rank slot)) known

theorem founded_of_foundedBy {rules : Rules} {n : Nat} (h : foundedBy rules n rank = true) :
    Founded (outlineOf rules) (fun slot => decide (slot < n)) rank := by
  refine ⟨fun {slot} hslot => ?_⟩
  have hbody := List.all_eq_true.mp h slot (List.mem_range.mpr (of_decide_eq_true hslot))
  obtain ⟨o, ho, hcheck⟩ := (Option.any_eq_true _ _).mp hbody
  obtain ⟨htakes, henters⟩ := Bool.and_eq_true_iff.mp hcheck
  exact ⟨o, ho, htakes, henters⟩

end Typestrip.Grammar
