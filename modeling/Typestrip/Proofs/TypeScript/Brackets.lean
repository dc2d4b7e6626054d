import Typestrip.Proofs.Grammar.Texts
import Typestrip.Proofs.TypeScript.Annotations

/-!
# Texts in which brackets pair up

A group ends at the bracket that belongs to its opening one: what stands between them is `Balanced`
(`TypeRules.exists_balanced`), and in front of every balanced text with a closing bracket behind it a
group ends there (`TypeRules.group_of_balanced`).

The parameters of a function are balanced as well, as long as no other brackets stand between angle
brackets in their types: angle brackets take other brackets as they come, and so could take the one that
closes the list of parameters (`TypeRules.leaves_behind_list`).
-/

namespace Typestrip.TypeScript

open Grammar Regex

theorem holds_oneOf (cs : List Char) (d : Char) : (oneOf cs).holds d = decide (d ∈ cs) := by
  induction cs with
  | nil => rfl
  | cons c cs ih =>
    cases cs with
    | nil => simp [oneOf, CharSet.holds_single, beq_eq_decide]
    | cons c' cs =>
      rw [oneOf, CharSet.holds_union, ih, CharSet.holds_single, Bool.eq_iff_iff]
      · simp
      · simp

/-! ## Balanced texts -/

/-- The brackets that groups stand in. -/
def bracketPairs : List (Char × Char) := [('(', ')'), ('[', ']'), ('{', '}')]

/-- Brackets and quotation marks. -/
def pairedMarks : List Char := brackets ++ ['"', '\'', '`']

theorem chunkSet_holds (d : Char) : chunkSet.holds d = decide (d ∉ pairedMarks) := by
  rw [chunkSet, CharSet.holds_complement, holds_oneOf, decide_not]
  rfl

/-- Texts in which brackets and quotation marks pair up. -/
inductive Balanced : List Char → Prop
  | nil : Balanced []
  | plain {c cs} : c ∉ pairedMarks → Balanced cs → Balanced (c :: cs)
  | quoted {x cs} : string.rest? x = some [] → Balanced cs → Balanced (x ++ cs)
  | enclosed {opening closing x cs} : (opening, closing) ∈ bracketPairs → Balanced x →
      Balanced cs → Balanced (opening :: x ++ closing :: cs)

variable {bodies : Nat → Option Outline} {place : List Char → Prop} {o : Outline} {n : Nat}
  {c d : Char} {x y cs r rest : List Char}

/-- What is checked of each character of a list holds of all of them. -/
theorem forall_mem_of_all {P : Char → Prop} [DecidablePred P]
    (hall : cs.all (fun c => decide (P c)) = true) : ∀ c ∈ cs, P c :=
  fun c hc => of_decide_eq_true (List.all_eq_true.mp hall c hc)

theorem string_skips_of_plain (hd : d ∉ pairedMarks) : string.skips d = true := by
  have hne {mark : Char} (hmark : mark ∈ pairedMarks) : d ≠ mark := by
    rintro rfl
    exact hd hmark
  exact string_skips (hne (by decide)) (hne (by decide)) (hne (by decide))

theorem not_opening_of_plain (hd : d ∉ pairedMarks) : d ∉ ['(', '[', '{'] := by
  have hmarks : ∀ c ∈ ['(', '[', '{'], c ∈ pairedMarks := forall_mem_of_all (by decide)
  exact fun hopen => hd (hmarks d hopen)

namespace Balanced

theorem append (hx : Balanced x) (hy : Balanced y) : Balanced (x ++ y) := by
  induction hx with
  | nil => exact hy
  | plain hc _ ih => exact .plain hc ih
  | quoted hstring _ ih =>
    rw [List.append_assoc]
    exact .quoted hstring ih
  | @enclosed opening closing x cs hpair hx _ _ ih =>
    have := Balanced.enclosed hpair hx ih
    rwa [← List.cons_append, ← List.append_assoc] at this

theorem of_plain (h : ∀ c ∈ x, c ∉ pairedMarks) : Balanced x := by
  induction x with
  | nil => exact .nil
  | cons c cs ih =>
    obtain ⟨hc, hcs⟩ := List.forall_mem_cons.mp h
    exact .plain hc (ih hcs)

theorem of_string (h : string.rest? x = some []) : Balanced x := by
  have := Balanced.quoted h .nil
  rwa [List.append_nil] at this

theorem of_pair {opening closing : Char} (hpair : (opening, closing) ∈ bracketPairs)
    (hx : Balanced x) : Balanced (opening :: x ++ [closing]) :=
  .enclosed hpair hx .nil

end Balanced

/-- The text of a string is a string by itself. -/
theorem exists_string (h : string.rest? cs = some rest) :
    ∃ x, cs = x ++ rest ∧ string.rest? x = some [] := by
  obtain ⟨y, hy, rfl⟩ := Option.map_eq_some_iff.mp h
  have hmem := List.mem_of_mem_head? hy
  obtain ⟨x, hx⟩ := Expr.exists_leads hmem
  obtain rfl : cs = x ++ y.2 := hx.1
  refine ⟨x, rfl, ?_⟩
  -- the match does not reach into what it leaves
  have hshort : y ∈ (string.ends (none, x)).map (Spot.append y.2) := by
    rw [← Expr.ends_append (rfl : string.lookFree = true)]
    exact List.mem_filter.mpr ⟨hmem, by simp [Expr.reaches]⟩
  obtain ⟨z, hz, hzy⟩ := List.mem_map.mp hshort
  have hnil : z.2 = [] := List.append_left_eq_self.mp (congrArg Prod.snd hzy)
  have hlength := string_single (none, x)
  rw [Expr.rest?]
  rcases hends : string.ends (none, x) with _ | ⟨z', _ | ⟨z'', zs⟩⟩
  · rw [hends] at hz
    cases hz
  · rw [hends] at hz
    obtain rfl := List.mem_singleton.mp hz
    exact congrArg some hnil
  · rw [hends] at hlength
    exact absurd hlength (by simp)

/-! ## Matches that take balanced texts -/

/-- Neither brackets nor quotation marks are taken. -/
def plainExpr (e : Expr) : Bool := pairedMarks.all fun d => !e.mayTake d

/-- Nodes that take balanced texts, provided that groups do. -/
def balancedLeaf : Outline → Bool
  | .literal text => text.all fun c => decide (c ∉ pairedMarks)
  | .pattern (.seq (.look .textStart) e) => e == string || plainExpr e
  | .rule slot => slot == some 3
  | _ => false

/-- What an expression takes of a text. -/
theorem exists_text_of_rest? {e : Expr} (h : e.rest? cs = some rest) :
    ∃ x, cs = x ++ rest ∧ ∀ c ∈ x, e.mayTake c = true := by
  obtain ⟨y, hy, rfl⟩ := Option.map_eq_some_iff.mp h
  have hmem := List.mem_of_mem_head? hy
  obtain ⟨x, hx⟩ := Expr.exists_leads hmem
  exact ⟨x, hx.1, Expr.mayTake_of_mem_ends hmem hx⟩

theorem takes_of_balancedLeaf (hleaf : balancedLeaf o = true)
    (hgroup : Course bodies place (.rule (some 3)) cs (some rest) → Takes Balanced cs rest)
    (h : Course bodies place o cs (some rest)) : Takes Balanced cs rest := by
  unfold balancedLeaf at hleaf
  split at hleaf
  · next text =>
    refine ⟨text, course_literal_iff.mp h, .of_plain fun c hc => ?_⟩
    exact of_decide_eq_true (List.all_eq_true.mp hleaf c hc)
  · next e =>
    have he : e.rest? cs = some rest := (course_scan_iff.mp h).symm
    rcases Bool.or_eq_true_iff.mp hleaf with hstring | hplain
    · rw [beq_iff_eq.mp hstring] at he
      obtain ⟨x, hx, hstring⟩ := exists_string he
      exact ⟨x, hx, .of_string hstring⟩
    · obtain ⟨x, hx, htake⟩ := exists_text_of_rest? he
      refine ⟨x, hx, .of_plain fun c hc hmark => ?_⟩
      have hnot := List.all_eq_true.mp hplain c hmark
      rw [htake c hc] at hnot
      cases hnot
  · next slot =>
    obtain rfl : slot = some 3 := beq_iff_eq.mp hleaf
    exact hgroup h
  · cases hleaf

namespace TypeRules

variable (B : TypeRules bodies)

include B

/-- Between its brackets a group is balanced. -/
theorem exists_balanced {cs r : List Char}
    (h : Course bodies place (.rule (some 3)) cs (some r)) :
    ∃ opening closing x, (opening, closing) ∈ bracketPairs ∧ Balanced x ∧
      cs = opening :: x ++ closing :: r := by
  obtain ⟨opening, closing, hpair, henclosed⟩ := B.exists_of_group h
  obtain ⟨cs', hopen, -, h⟩ := course_part_iff.mp henclosed
  obtain ⟨mid, hrounds, -, h⟩ := course_part_iff.mp h
  obtain ⟨mid', hclose, -, h⟩ := course_part_iff.mp h
  obtain rfl := Option.some.inj (course_done_iff.mp h)
  have hcs := course_literal_iff.mp hopen
  obtain rfl := course_literal_iff.mp hclose
  obtain ⟨x, rfl, hx⟩ : Takes Balanced cs' ([closing] ++ r) := by
    refine Course.exists_text balancedLeaf (fun _ => false) .nil
      (fun hx hy => hx.append hy) (fun {o cs₁ _} hleaf hlen hinner => ?_) nofun hrounds rfl le_rfl rfl
    refine takes_of_balancedLeaf hleaf (fun hgroup => ?_) hinner
    -- what stands inside is shorter
    have hlt : cs₁.length < cs.length := by
      rw [hcs]
      exact Nat.lt_succ_of_le hlen
    obtain ⟨opening', closing', x, hpair', hx, rfl⟩ := exists_balanced hgroup
    exact ⟨opening' :: x ++ [closing'], by simp, .of_pair hpair' hx⟩
  exact ⟨opening, closing, x, hpair, hx, by rw [hcs]; simp⟩
termination_by cs.length

/-- Groups take balanced texts. -/
theorem takes_group (h : Course bodies place (.rule (some 3)) cs (some r)) :
    Takes Balanced cs r := by
  obtain ⟨opening, closing, x, hpair, hx, rfl⟩ := B.exists_balanced h
  exact ⟨opening :: x ++ [closing], by simp, .of_pair hpair hx⟩

/-! ## Groups around balanced texts -/

/-- Rounds of what stands between brackets come to the closing bracket, if they do so behind the plain
characters that come first. -/
theorem rounds_plain (h : Leaves bodies (.repetition innerOutline)
    (x.dropWhile chunkSet.holds ++ c :: r) (some (c :: r))) (hc : chunkSet.holds c = false) :
    Leaves bodies (.repetition innerOutline) (x ++ c :: r) (some (c :: r)) := by
  cases x with
  | nil => exact h
  | cons d cs =>
    by_cases hd : chunkSet.holds d = true
    · have hplain : d ∉ pairedMarks := by simpa [chunkSet_holds] using hd
      have hdrop : (d :: cs ++ c :: r).dropWhile chunkSet.holds =
          (d :: cs).dropWhile chunkSet.holds ++ c :: r := by
        rw [List.dropWhile_append]
        split
        · next hnil => rw [List.isEmpty_iff.mp hnil, List.dropWhile_cons_of_neg (by simp [hc])]; rfl
        · rfl
      have hchunk : Leaves bodies innerOutline (d :: cs ++ c :: r)
          (some ((d :: cs).dropWhile chunkSet.holds ++ c :: r)) := by
        refine .otherwise (course_scan_iff.mpr ?_)
          (.otherwise (B.group_failed (not_opening_of_plain hplain))
            (.alternative (course_scan_iff.mpr ?_)))
        · exact (Expr.rest?_of_skips (string_skips_of_plain hplain) _).symm
        · rw [← hdrop, chunk, plus, List.cons_append, Expr.rest?_run_cons hd,
            List.dropWhile_cons_of_pos hd]
      refine .round hchunk ?_ trivial h
      rw [List.dropWhile_cons_of_pos hd]
      have := (List.dropWhile_suffix (l := cs) chunkSet.holds).length_le
      simp only [List.length_append, List.length_cons]
      omega
    · rwa [List.dropWhile_cons_of_neg hd] at h

/-- Rounds of what stands between brackets take a balanced text up to the closing bracket. -/
theorem rounds_of_balanced (hx : Balanced x) {c : Char} (hc : c ∈ [')', ']', '}']) (r : List Char) :
    Leaves bodies (.repetition innerOutline) (x ++ c :: r) (some (c :: r)) := by
  have hclosing {c : Char} (hc : c ∈ [')', ']', '}']) : chunkSet.holds c = false :=
    (List.all_iff_forall_prop.mp rfl : ∀ c ∈ [')', ']', '}'], chunkSet.holds c = false) c hc
  refine B.rounds_plain ?_ (hclosing hc)
  induction hx generalizing c r with
  | nil => exact .stop (B.inner_failed hc)
  | @plain d cs hd _ ih =>
    rw [List.dropWhile_cons_of_pos (by simpa [chunkSet_holds] using hd)]
    exact ih hc r
  | @quoted x cs hstring _ ih =>
    have hrest := string_single.rest?_append rfl hstring (cs ++ c :: r)
    obtain ⟨d, x, rfl, hd⟩ := Expr.exists_of_rest? rfl hstring
    have hquote : chunkSet.holds d = false := by
      by_contra hplain
      rw [string_skips_of_plain (by simpa [chunkSet_holds] using hplain)] at hd
      cases hd
    rw [List.cons_append, List.dropWhile_cons_of_neg (by simp [hquote]), ← List.cons_append,
      List.append_assoc]
    refine .round (.alternative (course_scan_iff.mpr hrest.symm)) ?_ trivial
      (B.rounds_plain (ih hc r) (hclosing hc))
    simp only [List.cons_append, List.nil_append, List.length_cons, List.length_append]
    omega
  | @enclosed opening closing x cs hpair _ _ ihx ih =>
    have hpairs : ∀ pair ∈ bracketPairs, chunkSet.holds pair.1 = false ∧
        pair.2 ∈ [')', ']', '}'] ∧ string.skips pair.1 = true :=
      List.all_iff_forall_prop.mp rfl
    obtain ⟨hopening, hclosed, hskips⟩ := hpairs _ hpair
    rw [List.cons_append, List.dropWhile_cons_of_neg (by simp [hopening]), List.cons_append,
      List.append_assoc, List.cons_append]
    have hinner := B.rounds_plain (ihx hclosed (cs ++ c :: r)) (hclosing hclosed)
    have hgroup : Leaves bodies (.rule (some 3)) (opening :: (x ++ closing :: (cs ++ c :: r)))
        (some (cs ++ c :: r)) :=
      B.group_of_enclosed hpair (.part (course_literal_iff.mpr rfl) trivial
        (.part hinner trivial (.part (course_literal_iff.mpr rfl) trivial .done)))
    refine .round (.otherwise (course_scan_iff.mpr (Expr.rest?_of_skips hskips _).symm)
      (.alternative hgroup)) ?_ trivial (B.rounds_plain (ih hc r) (hclosing hc))
    simp only [List.length_append, List.length_cons]
    omega

/-- A group ends at the bracket behind a balanced text. -/
theorem group_of_balanced {opening closing : Char} (hpair : (opening, closing) ∈ bracketPairs)
    (hx : Balanced x) (r : List Char) :
    Leaves bodies (.rule (some 3)) (opening :: (x ++ closing :: r)) (some r) := by
  have hclosing : ∀ pair ∈ bracketPairs, pair.2 ∈ [')', ']', '}'] := by decide
  exact B.group_of_enclosed hpair (.part (course_literal_iff.mpr rfl) trivial
    (.part (B.rounds_of_balanced hx (hclosing _ hpair) r) trivial
      (.part (course_literal_iff.mpr rfl) trivial .done)))

/-- What stands behind the bracket that closes a balanced text is determined. -/
theorem eq_of_balanced {opening closing : Char} (hpair : (opening, closing) ∈ bracketPairs)
    (hx : Balanced x) (hy : Balanced y) {s : List Char} (h : x ++ closing :: r = y ++ closing :: s) :
    r = s := by
  have hleaves := B.group_of_balanced hpair hx r
  rw [h] at hleaves
  exact Option.some.inj (hleaves.unique (B.group_of_balanced hpair hy s))

end TypeRules

/-! ## Types and parameters -/

/-- A bracket or a quotation mark stands between an angle bracket that is opened and one that is
closed. -/
def Swallows (x : List Char) : Prop :=
  ∃ front inside back, x = front ++ '<' :: (inside ++ '>' :: back) ∧ ∃ c ∈ inside, c ∈ pairedMarks

theorem Swallows.append_left (h : Swallows x) (y : List Char) : Swallows (x ++ y) := by
  obtain ⟨front, inside, back, rfl, hinside⟩ := h
  exact ⟨front, inside, back ++ y, by simp, hinside⟩

theorem Swallows.append_right (h : Swallows y) (x : List Char) : Swallows (x ++ y) := by
  obtain ⟨front, inside, back, rfl, hinside⟩ := h
  exact ⟨x ++ front, inside, back, by simp, hinside⟩

/-- Where no angle bracket is closed nothing is swallowed. -/
theorem Swallows.of_append (h : Swallows (x ++ y)) (hy : '>' ∉ y) : Swallows x := by
  obtain ⟨front, inside, back, hsame, hinside⟩ := h
  have hsame : x ++ y = (front ++ '<' :: inside) ++ '>' :: back := by simp [hsame]
  rcases List.append_eq_append_iff.mp hsame with ⟨mid, -, rfl⟩ | ⟨mid, rfl, hmid⟩
  · exact absurd (List.mem_append_right mid List.mem_cons_self) hy
  · cases mid with
    | nil => exact absurd (by rw [← List.nil_append y, ← hmid]; exact List.mem_cons_self) hy
    | cons d mid =>
      obtain ⟨rfl, -⟩ := List.cons.inj hmid
      exact ⟨front, inside, mid, by simp, hinside⟩

/-- A text that is balanced, or in which angle brackets swallow something. -/
def Angled (x : List Char) : Prop := Balanced x ∨ Swallows x

/-- A text that is balanced up to a colon behind which angle brackets swallow something, if they do. -/
def Listed (x : List Char) : Prop :=
  Balanced x ∨ ∃ front back, x = front ++ ':' :: back ∧ Balanced front ∧ Swallows back

theorem Angled.append (hx : Angled x) (hy : Angled y) : Angled (x ++ y) := by
  rcases hx with hx | hx
  · exact hy.imp hx.append fun hy => hy.append_right x
  · exact .inr (hx.append_left y)

theorem Listed.append (hx : Listed x) (hy : Listed y) : Listed (x ++ y) := by
  rcases hx with hx | ⟨front, back, rfl, hfront, hback⟩
  · rcases hy with hy | ⟨front, back, rfl, hfront, hback⟩
    · exact .inl (hx.append hy)
    · exact .inr ⟨x ++ front, back, (List.append_assoc ..).symm, hx.append hfront, hback⟩
  · exact .inr ⟨front, back ++ y, by simp, hfront, hback.append_left y⟩

/-- Nodes that types are made of. -/
def angledLeaf (o : Outline) : Bool :=
  balancedLeaf o || o.same (scan arraySuffix) || o.same (.rule (some 4))

/-- Nodes that parameters are made of. -/
def listedLeaf (o : Outline) : Bool := balancedLeaf o || o.same annotationOutline

/-- Pairs of square brackets. -/
theorem balanced_of_arraySuffix (h : arraySuffix.rest? cs = some rest) : Takes Balanced cs rest := by
  obtain ⟨y, hy, rfl⟩ := Option.map_eq_some_iff.mp h
  have hmem := List.mem_of_mem_head? hy
  obtain ⟨x, hx⟩ := Expr.exists_leads hmem
  refine ⟨x, hx.1, Expr.star_leads .nil (fun hfront hback => hfront.append hback) ?_ hmem hx⟩
  intro w z ds hround hds
  obtain ⟨blanks, mid, pair, rfl, hmid, hblanks, hpair, hpair'⟩ := Expr.exists_of_seq_leads hround hds
  obtain ⟨opening, mid', closing, rfl, hopening, hopening', hclosing, hclosing'⟩ :=
    Expr.exists_of_seq_leads hpair hpair'
  obtain ⟨c, rfl, hc⟩ := Expr.exists_of_chars_leads hopening hopening'
  obtain ⟨d, rfl, hd⟩ := Expr.exists_of_chars_leads hclosing hclosing'
  rw [CharSet.holds_single, beq_iff_eq] at hc hd
  subst hc hd
  refine (Balanced.of_plain fun c hc hmark => ?_).append (Balanced.of_pair (by decide) .nil)
  have hblank : (Expr.star true (.chars .space)).mayTake c = true :=
    Expr.mayTake_of_mem_ends hmid hblanks c hc
  have hnot : ∀ c ∈ pairedMarks, (Expr.star true (.chars .space)).mayTake c = false :=
    List.all_iff_forall_prop.mp rfl
  rw [hnot c hmark] at hblank
  cases hblank

namespace TypeRules

variable (B : TypeRules bodies)

include B

/-- Types take balanced texts, unless angle brackets swallow something. -/
theorem takes_type (h : Course bodies place (.rule (some 6)) cs (some r)) : Takes Angled cs r := by
  refine Course.exists_text angledLeaf (fun slot => slot == 5 || slot == 6)
    (.inl .nil) (fun hx hy => hx.append hy) (fun {o cs r} hleaf _ hpart => ?_)
    (fun {slot o} hslot hbody => ?_) h rfl le_rfl rfl
  · rcases Bool.or_eq_true_iff.mp hleaf with hleaf | hangles
    · rcases Bool.or_eq_true_iff.mp hleaf with hleaf | hsuffix
      · obtain ⟨x, hcs, hx⟩ := takes_of_balancedLeaf hleaf B.takes_group hpart
        exact ⟨x, hcs, .inl hx⟩
      · obtain rfl := Outline.eq_of_same hsuffix
        obtain ⟨x, hcs, hx⟩ := balanced_of_arraySuffix (course_scan_iff.mp hpart).symm
        exact ⟨x, hcs, .inl hx⟩
    · obtain rfl := Outline.eq_of_same hangles
      obtain ⟨cs', hopen, -, hangles⟩ := course_part_iff.mp ((course_rule_iff B.angles).mp hpart)
      obtain ⟨mid, hrounds, -, hangles⟩ := course_part_iff.mp hangles
      obtain ⟨mid', hclose, -, hangles⟩ := course_part_iff.mp hangles
      obtain rfl := Option.some.inj (course_done_iff.mp hangles)
      obtain rfl := course_literal_iff.mp hopen
      obtain rfl := course_literal_iff.mp hclose
      obtain ⟨inside, rfl⟩ := hrounds.exists_append rfl
      refine ⟨'<' :: (inside ++ ['>']), by simp, ?_⟩
      by_cases hmark : ∃ c ∈ inside, c ∈ pairedMarks
      · exact .inr ⟨[], inside, [], rfl, hmark⟩
      · refine .inl (.of_plain fun c hc hcm => ?_)
        simp only [List.mem_cons, List.mem_append, List.not_mem_nil, or_false] at hc
        rcases hc with rfl | hc | rfl
        · exact absurd hcm (by decide)
        · exact hmark ⟨c, hc, hcm⟩
        · exact absurd hcm (by decide)
  · rcases Bool.or_eq_true_iff.mp hslot with h | h <;> obtain rfl := beq_iff_eq.mp h
    · obtain rfl := Option.some.inj (hbody.symm.trans B.primary)
      rfl
    · obtain rfl := Option.some.inj (hbody.symm.trans B.type)
      rfl

/-- Parameters take balanced texts, unless angle brackets swallow something in the type of one. -/
theorem takes_params (h : Course bodies place paramsOutline cs (some r)) : Takes Listed cs r := by
  refine Course.exists_text listedLeaf (fun _ => false) (.inl .nil)
    (fun hx hy => hx.append hy) (fun {o cs r} hleaf _ hpart => ?_) nofun h rfl le_rfl rfl
  rcases Bool.or_eq_true_iff.mp hleaf with hleaf | hannotation
  · obtain ⟨x, hcs, hx⟩ := takes_of_balancedLeaf hleaf B.takes_group hpart
    exact ⟨x, hcs, .inl hx⟩
  obtain rfl := Outline.eq_of_same hannotation
  rcases course_optional_iff.mp hpart with hpart | ⟨-, rfl⟩
  · obtain ⟨cs₁, hblanks, -, hpart⟩ := course_part_iff.mp hpart
    obtain ⟨cs₂, hcolon, -, hpart⟩ := course_part_iff.mp hpart
    obtain ⟨cs₃, hblanks', -, hpart⟩ := course_part_iff.mp hpart
    obtain ⟨cs₄, htype, -, hpart⟩ := course_part_iff.mp hpart
    obtain rfl := Option.some.inj (course_done_iff.mp hpart)
    obtain ⟨x, rfl, hx⟩ := takes_of_balancedLeaf rfl B.takes_group hblanks
    obtain rfl := course_literal_iff.mp hcolon
    obtain ⟨y, rfl, hy⟩ := takes_of_balancedLeaf rfl B.takes_group hblanks'
    obtain ⟨z, rfl, hz⟩ := B.takes_type htype
    refine ⟨x ++ ':' :: (y ++ z), by simp, ?_⟩
    rcases hz with hz | hz
    · exact .inl (hx.append (.plain (by decide) (hy.append hz)))
    · exact .inr ⟨x, y ++ z, rfl, hx, hz.append_right y⟩
  · exact ⟨[], rfl, .inl .nil⟩

/-- A list of parameters ends at the parenthesis behind a balanced text, if angle brackets swallow
nothing behind a colon in it. -/
theorem leaves_behind_list (hx : Balanced x)
    (hangle : ∀ front back, x = front ++ ':' :: back → Balanced front → ¬ Swallows back)
    {c : List Char} (hc : '>' ∉ c) {os : List Outline}
    (h : Leaves bodies (.sequence (.literal ['('] :: blanksOutline :: paramsOutline :: blanksOutline ::
      .literal [')'] :: os)) ('(' :: (x ++ ')' :: c)) (some r)) :
    Leaves bodies (.sequence os) c (some r) := by
  have hlist := leaves_behind (course_literal_iff.mpr rfl) h
  obtain ⟨cs₁, hblanks, -, hlist⟩ := course_part_iff.mp hlist
  obtain ⟨cs₂, hparams, -, hlist⟩ := course_part_iff.mp hlist
  obtain ⟨cs₃, hblanks', -, hlist⟩ := course_part_iff.mp hlist
  obtain ⟨cs₄, hclosing, -, hrest⟩ := course_part_iff.mp hlist
  obtain ⟨y, hcs, hy⟩ := takes_of_balancedLeaf rfl B.takes_group hblanks
  obtain ⟨z, rfl, hz⟩ := B.takes_params hparams
  obtain ⟨y', rfl, hy'⟩ := takes_of_balancedLeaf rfl B.takes_group hblanks'
  obtain rfl := course_literal_iff.mp hclosing
  have hpair : ('(', ')') ∈ bracketPairs := by decide
  rcases hz with hz | ⟨front, back, rfl, hfront, hback⟩
  · have hsame : x ++ ')' :: c = (y ++ (z ++ y')) ++ ')' :: cs₄ := by simpa using hcs
    obtain rfl := B.eq_of_balanced hpair hx (hy.append (hz.append hy')) hsame
    exact hrest
  · have hsame : x ++ ')' :: c = (y ++ front) ++ ':' :: (back ++ (y' ++ ')' :: cs₄)) := by
      simpa using hcs
    rcases List.append_eq_append_iff.mp hsame with ⟨mid, hmid, hcolon⟩ | ⟨mid, rfl, hcolon⟩
    · -- the text would be closed inside of a balanced one
      cases mid with
      | nil => simp at hcolon
      | cons d mid =>
        obtain ⟨rfl, -⟩ := List.cons.inj hcolon
        have hinside : x ++ ')' :: (mid ++ [')']) = (y ++ front) ++ ')' :: [] := by
          rw [hmid]
          simp
        have := B.eq_of_balanced hpair hx (hy.append hfront) hinside
        simp at this
    · cases mid with
      | nil => simp at hcolon
      | cons d mid =>
        obtain ⟨rfl, hback'⟩ := List.cons.inj hcolon
        rw [List.append_eq] at hback'
        refine absurd ?_ (hangle (y ++ front) mid rfl (hy.append hfront))
        have hswallows : Swallows (mid ++ ')' :: c) := by
          rw [← hback']
          exact hback.append_left _
        exact hswallows.of_append (by simp [hc])

end TypeRules

end Typestrip.TypeScript
