import Typestrip.Proofs.Regex.Runs

/-!
# Matching in front of a text

Appending a text to another one adds matches of an expression that reach into it, and changes none of
the others (`Expr.ends_append`). So where no match can end inside of what is appended, the expression
leaves of the longer text what it leaves of the shorter one, with the text appended
(`Expr.rest?_append`). That no match ends there is told by its characters: the first one that cannot
be taken at all is reached by characters only with which no match can end (`Expr.bars`).
-/

namespace Typestrip.Regex

/-- The place in a text that goes on with another one. -/
def Spot.append (c : List Char) (x : Spot) : Spot := (x.1, x.2 ++ c)

namespace Expr

/-- No conditions on places are asked. -/
def lookFree : Expr → Bool
  | look _ => false
  | empty | chars _ => true
  | seq a b | alt a b => a.lookFree && b.lookFree
  | star _ a => a.lookFree

/-- All conditions on places are of some kind. -/
def asks (p : Look → Bool) : Expr → Bool
  | look l => p l
  | empty | chars _ => true
  | seq a b | alt a b => a.asks p && b.asks p
  | star _ a => a.asks p

theorem asks_of_lookFree {e : Expr} (h : e.lookFree = true) (p : Look → Bool) : e.asks p = true := by
  induction e with
  | look => cases h
  | empty | chars => rfl
  | seq a b iha ihb | alt a b iha ihb =>
    obtain ⟨ha, hb⟩ := Bool.and_eq_true_iff.mp h
    exact Bool.and_eq_true_iff.mpr ⟨iha ha, ihb hb⟩
  | star greedy a ih => exact ih h

/-- The matches in a text, in the text that goes on with `c`. -/
def reaches (c : List Char) (y : Spot) : Bool := c.length ≤ y.2.length

theorem filter_flatMap_reaches {f : Spot → List Spot} (c : List Char)
    (hf : ∀ y, ∀ z ∈ f y, z.2.length ≤ y.2.length) (ys : List Spot) :
    (ys.flatMap f).filter (reaches c) =
      (ys.filter (reaches c)).flatMap fun y => (f y).filter (reaches c) := by
  induction ys with
  | nil => rfl
  | cons y ys ih =>
    rw [List.flatMap_cons, List.filter_append, ih]
    by_cases hy : reaches c y = true
    · rw [List.filter_cons_of_pos hy, List.flatMap_cons]
    · -- what comes after a place inside of `c` is inside as well
      have hnone : (f y).filter (reaches c) = [] := by
        refine List.filter_eq_nil_iff.mpr fun z hz hreach => hy ?_
        rw [reaches, decide_eq_true_eq] at hreach ⊢
        exact Nat.le_trans hreach (hf y z hz)
      rw [List.filter_cons_of_neg hy, hnone, List.nil_append]

theorem ends_star_append {a : Expr} {greedy : Bool} {c : List Char}
    (ha : ∀ x, (a.ends (x.append c)).filter (reaches c) = (a.ends x).map (Spot.append c)) (x : Spot) :
    ((star greedy a).ends (x.append c)).filter (reaches c) =
      ((star greedy a).ends x).map (Spot.append c) := by
  have hmore : ((a.ends (x.append c)).flatMap fun y =>
        if y.2.length < (x.append c).2.length then (star greedy a).ends y else [y]).filter
          (reaches c) =
      ((a.ends x).flatMap fun y =>
        if y.2.length < x.2.length then (star greedy a).ends y else [y]).map (Spot.append c) := by
    rw [filter_flatMap_reaches, ha, List.flatMap_map, List.map_flatMap]
    · refine List.flatMap_congr fun y hy => ?_
      have hlt : ((y.append c).2.length < (x.append c).2.length) = (y.2.length < x.2.length) := by
        simp [Spot.append]
      simp only [hlt]
      split
      · exact ends_star_append ha y
      · simp [reaches, Spot.append]
    · intro y z hz
      split at hz
      · exact length_le_of_mem_ends hz
      · exact Nat.le_of_eq (by rw [List.mem_singleton.mp hz])
  have hhere : [x.append c].filter (reaches c) = [x].map (Spot.append c) := by
    simp [reaches, Spot.append]
  rw [ends_star, ends_star]
  cases greedy
  · simpa [List.filter_cons, hmore] using hhere
  · simp only [if_true, List.filter_append, List.map_append, hmore, hhere]
termination_by x.2.length

/-- Of the matches in a longer text, those that do not reach into what is appended are those in the
shorter one, if no condition on a place tells its end from what is appended. -/
theorem ends_append_of_asks {e : Expr} {p : Look → Bool} (he : e.asks p = true) {c : List Char}
    (hp : ∀ l before, p l = true → l.holds ⟨before, c.head?⟩ = l.holds ⟨before, none⟩) (x : Spot) :
    (e.ends (x.append c)).filter (reaches c) = (e.ends x).map (Spot.append c) := by
  induction e generalizing x with
  | look l =>
    have hholds : l.holds ⟨x.1, (x.2 ++ c).head?⟩ = l.holds ⟨x.1, x.2.head?⟩ := by
      obtain ⟨before, _ | ⟨d, w⟩⟩ := x
      · exact hp l before he
      · rfl
    show (List.filter _ (if l.holds ⟨x.1, (x.2 ++ c).head?⟩ then [x.append c] else [])) =
      List.map _ (if l.holds ⟨x.1, x.2.head?⟩ then [x] else [])
    rw [hholds]
    split
    · simp [reaches, Spot.append]
    · rfl
  | empty => simp [ends, reaches, Spot.append]
  | chars s =>
    obtain ⟨before, _ | ⟨d, w⟩⟩ := x
    · -- a character is taken from `c`
      refine List.filter_eq_nil_iff.mpr fun y hy hreach => ?_
      have hlt := length_lt_of_takes (e := chars s) rfl hy
      rw [reaches, decide_eq_true_eq] at hreach
      exact absurd hreach (Nat.not_le.mpr hlt)
    · show (List.filter _ (if s.holds d then [(some d, w ++ c)] else [])) =
        List.map _ (if s.holds d then [(some d, w)] else [])
      split
      · simp [reaches, Spot.append]
      · rfl
  | seq a b iha ihb =>
    obtain ⟨ha, hb⟩ := Bool.and_eq_true_iff.mp he
    rw [ends, filter_flatMap_reaches c (fun _ _ => length_le_of_mem_ends), iha ha, ends,
      List.flatMap_map, List.map_flatMap]
    exact List.flatMap_congr fun y _ => ihb hb y
  | alt a b iha ihb =>
    obtain ⟨ha, hb⟩ := Bool.and_eq_true_iff.mp he
    rw [ends, ends, List.filter_append, List.map_append, iha ha, ihb hb]
  | star greedy a ih => exact ends_star_append (ih he) x

/-- The same for an expression that asks no conditions. -/
theorem ends_append {e : Expr} (he : e.lookFree = true) (c : List Char) (x : Spot) :
    (e.ends (x.append c)).filter (reaches c) = (e.ends x).map (Spot.append c) :=
  ends_append_of_asks (p := fun _ => false) (asks_of_lookFree he _) (fun _ _ h => absurd h (by simp)) x

/-! ## The characters of a match -/

/-- Whether a match can have a character in it. -/
def mayTake (d : Char) : Expr → Bool
  | empty | look _ => false
  | chars s => s.holds d
  | seq a b | alt a b => a.mayTake d || b.mayTake d
  | star _ a => a.mayTake d

/-- Whether a match can end with a character. -/
def mayEnd (d : Char) : Expr → Bool
  | empty | look _ => false
  | chars s => s.holds d
  | seq a b => b.mayEnd d || (!b.takes && a.mayEnd d)
  | alt a b => a.mayEnd d || b.mayEnd d
  | star _ a => a.mayEnd d

variable {e : Expr} {x y : Spot} {cs : List Char} {d : Char}

theorem leads_inj {ds : List Char} (h : x.Leads cs y) (h' : x.Leads ds y) : cs = ds :=
  List.append_cancel_right (h.1.symm.trans h'.1)

/-- Where a repetition of `a` ends, it has taken nothing, or a round of `a` and further ones. -/
theorem star_cases {a : Expr} {greedy : Bool} (h : y ∈ (star greedy a).ends x) :
    y = x ∨ ∃ z ∈ a.ends x, y = z ∨ z.2.length < x.2.length ∧ y ∈ (star greedy a).ends z := by
  have hcases : y = x ∨ ∃ z ∈ a.ends x,
      y ∈ if z.2.length < x.2.length then (star greedy a).ends z else [z] := by
    rw [ends_star] at h
    cases greedy <;> simpa [or_comm] using h
  refine hcases.imp_right fun ⟨z, hz, hy⟩ => ⟨z, hz, ?_⟩
  split at hy
  · next hlt => exact .inr ⟨hlt, hy⟩
  · exact .inl (List.mem_singleton.mp hy)

/-- What holds of nothing and of all rounds in a row holds of a repetition. -/
theorem star_leads {a : Expr} {greedy : Bool} {P : List Char → Prop} (hnil : P [])
    (happend : ∀ {cs ds}, P cs → P ds → P (cs ++ ds))
    (ha : ∀ {x y cs}, y ∈ a.ends x → x.Leads cs y → P cs) {x y : Spot} {cs : List Char}
    (h : y ∈ (star greedy a).ends x) (hcs : x.Leads cs y) : P cs := by
  rcases star_cases h with rfl | ⟨z, hz, rfl | ⟨hlt, hy⟩⟩
  · rwa [leads_inj hcs y.leads_refl]
  · exact ha hz hcs
  · obtain ⟨front, hfront⟩ := exists_leads hz
    obtain ⟨back, hback⟩ := exists_leads hy
    rw [leads_inj hcs (hfront.trans hback)]
    exact happend (ha hz hfront) (star_leads hnil happend ha hy hback)
termination_by x.2.length

theorem exists_of_chars_leads {s : CharSet} (h : y ∈ (chars s).ends x) (hcs : x.Leads cs y) :
    ∃ c, cs = [c] ∧ s.holds c = true := by
  obtain ⟨before, _ | ⟨c, rest⟩⟩ := x
  · cases h
  · rw [ends] at h
    split at h
    · next hc =>
      obtain rfl := List.mem_singleton.mp h
      exact ⟨c, leads_inj hcs ⟨rfl, rfl⟩, hc⟩
    · cases h

/-- A match of two expressions in a row is one of the first and one of the second behind it. -/
theorem exists_of_seq_leads {a b : Expr} (h : y ∈ (seq a b).ends x) (hcs : x.Leads cs y) :
    ∃ front z back, cs = front ++ back ∧ z ∈ a.ends x ∧ x.Leads front z ∧ y ∈ b.ends z ∧
      z.Leads back y := by
  obtain ⟨z, hz, hy⟩ := List.mem_flatMap.mp h
  obtain ⟨front, hfront⟩ := exists_leads hz
  obtain ⟨back, hback⟩ := exists_leads hy
  exact ⟨front, z, back, leads_inj hcs (hfront.trans hback), hz, hfront, hy, hback⟩

theorem mayTake_of_mem_ends (h : y ∈ e.ends x) (hcs : x.Leads cs y) :
    ∀ d ∈ cs, e.mayTake d = true := by
  induction e generalizing x y cs with
  | empty =>
    obtain rfl := List.mem_singleton.mp h
    rw [leads_inj hcs y.leads_refl]
    simp
  | chars s =>
    obtain ⟨c, rfl, hc⟩ := exists_of_chars_leads h hcs
    simpa [mayTake] using hc
  | look l =>
    rw [ends] at h
    split at h
    · obtain rfl := List.mem_singleton.mp h
      rw [leads_inj hcs y.leads_refl]
      simp
    · cases h
  | seq a b iha ihb =>
    obtain ⟨front, z, back, rfl, hz, hfront, hy, hback⟩ := exists_of_seq_leads h hcs
    intro d hd
    rw [mayTake, Bool.or_eq_true]
    exact (List.mem_append.mp hd).imp (iha hz hfront d) (ihb hy hback d)
  | alt a b iha ihb =>
    intro d hd
    rw [mayTake, Bool.or_eq_true]
    exact (List.mem_append.mp h).imp (fun h => iha h hcs d hd) (fun h => ihb h hcs d hd)
  | star greedy a ih =>
    refine star_leads (P := fun cs => ∀ d ∈ cs, a.mayTake d = true) (by simp) ?_ ih h hcs
    intro cs ds hfront hback d hd
    exact (List.mem_append.mp hd).elim (hfront d) (hback d)

/-- What is found at the beginning of a text leads to where a match ends. -/
theorem exists_leads_of_search? {cs : List Char} {k : Nat} (h : (anchored e).search? cs = some k) :
    ∃ y ∈ e.ends (none, cs), Spot.Leads (none, cs) (cs.take k) y := by
  rw [anchored, search?_anchored] at h
  obtain ⟨y, hy, rfl⟩ := Option.map_eq_some_iff.mp h
  have hmem := List.mem_of_mem_head? hy
  obtain ⟨ds, hds⟩ := exists_leads hmem
  have hcs : cs = ds ++ y.2 := hds.1
  have htake : cs.take (cs.length - y.2.length) = ds := by
    rw [hcs, List.length_append, Nat.add_sub_cancel, List.take_left]
  exact ⟨y, hmem, htake ▸ hds⟩

theorem mayEnd_of_mem_ends (h : y ∈ e.ends x) (hcs : x.Leads cs y) :
    ∀ d, cs.getLast? = some d → e.mayEnd d = true := by
  induction e generalizing x y cs with
  | empty =>
    obtain rfl := List.mem_singleton.mp h
    rw [leads_inj hcs y.leads_refl]
    simp
  | chars s =>
    intro d hd
    exact mayTake_of_mem_ends h hcs d (List.mem_of_getLast? hd)
  | look l =>
    rw [ends] at h
    split at h
    · obtain rfl := List.mem_singleton.mp h
      rw [leads_inj hcs y.leads_refl]
      simp
    · cases h
  | seq a b iha ihb =>
    obtain ⟨front, z, back, rfl, hz, hfront, hy, hback⟩ := exists_of_seq_leads h hcs
    intro d hd
    rw [mayEnd, Bool.or_eq_true, Bool.and_eq_true, Bool.not_eq_true']
    rw [List.getLast?_append] at hd
    cases hlast : back.getLast? with
    | some d' =>
      rw [hlast] at hd
      obtain rfl := Option.some.inj hd
      exact .inl (ihb hy hback d' hlast)
    | none =>
      rw [hlast, Option.none_or] at hd
      refine .inr ⟨?_, iha hz hfront d hd⟩
      by_contra htakes
      -- `b` takes something
      have hlt := length_lt_of_takes (Bool.of_not_eq_false htakes) hy
      obtain rfl := List.getLast?_eq_none_iff.mp hlast
      exact absurd hback.length (by rw [List.length_nil]; omega)
  | alt a b iha ihb =>
    intro d hd
    rw [mayEnd, Bool.or_eq_true]
    exact (List.mem_append.mp h).imp (fun h => iha h hcs d hd) (fun h => ihb h hcs d hd)
  | star greedy a ih =>
    refine star_leads (P := fun cs => ∀ d, cs.getLast? = some d → a.mayEnd d = true) (by simp) ?_
      ih h hcs
    intro cs ds hfront hback d hd
    rw [List.getLast?_append] at hd
    rcases Option.or_eq_some_iff.mp hd with hd | ⟨-, hd⟩
    · exact hback d hd
    · exact hfront d hd

/-! ## Texts that bar an expression -/

/-- No match that reaches into a text ends inside of it: its first character cannot be taken, or no
match can end with it and the same holds of what comes after. -/
def bars (e : Expr) : List Char → Bool
  | [] => true
  | d :: c => !e.mayTake d || (!e.mayEnd d && e.bars c)

theorem eq_nil_of_bars {c back rest : List Char} (hbars : e.bars c = true) (hc : c = back ++ rest)
    (htake : ∀ d ∈ back, e.mayTake d = true)
    (hend : ∀ d, back.getLast? = some d → e.mayEnd d = true) : back = [] := by
  induction back generalizing c with
  | nil => rfl
  | cons d back ih =>
    subst hc
    rw [List.cons_append, bars, htake d List.mem_cons_self, Bool.not_true, Bool.false_or,
      Bool.and_eq_true, Bool.not_eq_true'] at hbars
    obtain ⟨hd, hbars⟩ := hbars
    -- the match goes on, so it ends inside of what comes after
    have hback : back = [] := by
      refine ih hbars rfl (fun d hd => htake d (List.mem_cons_of_mem _ hd)) fun d' hd' => ?_
      refine hend d' ?_
      rw [List.getLast?_cons, hd']
      rfl
    subst hback
    rw [hend d rfl] at hd
    cases hd

/-- No match reaches into a text that bars the expression. -/
theorem reaches_of_bars {c : List Char} (hbars : e.bars c = true) (h : y ∈ e.ends (x.append c)) :
    reaches c y = true := by
  obtain ⟨cs, hcs⟩ := exists_leads h
  rw [reaches, decide_eq_true_eq]
  by_contra hlt
  have hlt := Nat.not_le.mp hlt
  -- what is taken goes beyond the shorter text
  have hsplit : x.2 ++ c = cs ++ y.2 := hcs.1
  rcases List.append_eq_append_iff.mp hsplit with ⟨back, hback, hc⟩ | ⟨back, hback, hy⟩
  · obtain rfl : back = [] := by
      refine eq_nil_of_bars hbars hc (fun d hd => ?_) fun d hd => ?_
      · exact mayTake_of_mem_ends h hcs d (by rw [hback]; exact List.mem_append_right _ hd)
      · refine mayEnd_of_mem_ends h hcs d ?_
        rw [hback, List.getLast?_append, hd]
        rfl
    rw [hc] at hlt
    exact Nat.lt_irrefl _ hlt
  · rw [hy, List.length_append] at hlt
    omega

/-- What is left of a text in front of one that bars the expression reaches into the former. -/
theorem exists_of_rest?_bars {c v r : List Char} (hbars : e.bars c = true)
    (h : e.rest? (v ++ c) = some r) : ∃ w, w <:+ v ∧ r = w ++ c := by
  obtain ⟨y, hy, rfl⟩ := Option.map_eq_some_iff.mp h
  have hmem : y ∈ e.ends (Spot.append c (none, v)) := List.mem_of_mem_head? hy
  have hreach := reaches_of_bars hbars hmem
  obtain ⟨cs, hcs⟩ := exists_leads hmem
  have hsplit : v ++ c = cs ++ y.2 := hcs.1
  rw [reaches, decide_eq_true_eq] at hreach
  rcases List.append_eq_append_iff.mp hsplit with ⟨back, -, hback⟩ | ⟨back, rfl, hback⟩
  · obtain rfl : back = [] := by
      have := congrArg List.length hback
      rw [List.length_append] at this
      exact List.length_eq_zero_iff.mp (by omega)
    exact ⟨[], List.nil_suffix, hback.symm⟩
  · exact ⟨back, List.suffix_append cs back, hback⟩

/-- A text with none of whose characters a match can end. -/
theorem bars_of_not_mayEnd {c : List Char} (h : ∀ d ∈ c, e.mayEnd d = false) : e.bars c = true := by
  induction c with
  | nil => rfl
  | cons d c ih =>
    obtain ⟨hd, hc⟩ := List.forall_mem_cons.mp h
    rw [bars, hd, ih hc]
    simp

/-- In front of a text that bars the expression, its matches are those in the shorter text. -/
theorem rest?_append_of_asks {p : Look → Bool} (he : e.asks p = true) {c : List Char}
    (hp : ∀ l before, p l = true → l.holds ⟨before, c.head?⟩ = l.holds ⟨before, none⟩)
    (hbars : e.bars c = true) (w : List Char) :
    e.rest? (w ++ c) = (e.rest? w).map (· ++ c) := by
  have hends := ends_append_of_asks he hp (none, w)
  rw [List.filter_eq_self.mpr fun y hy => reaches_of_bars hbars hy] at hends
  have hwhole : e.ends (none, w ++ c) = (e.ends (none, w)).map (Spot.append c) := hends
  rw [rest?, hwhole, rest?, List.head?_map, Option.map_map, Option.map_map]
  rfl

/-- The same for an expression that asks no conditions. -/
theorem rest?_append (he : e.lookFree = true) {c : List Char} (hbars : e.bars c = true)
    (w : List Char) : e.rest? (w ++ c) = (e.rest? w).map (· ++ c) :=
  rest?_append_of_asks (p := fun _ => false) (asks_of_lookFree he _)
    (fun _ _ h => absurd h (by simp)) hbars w

/-! ## Expressions with one match -/

/-- Matches where a text begins with a character take nothing, as far as the parts of the expression
tell. -/
def shuns (d : Char) : Expr → Bool
  | chars s => !s.holds d
  | seq a b => a.shuns d && (a.takes || b.shuns d)
  | alt a b => a.shuns d && b.shuns d
  | star _ a => a.shuns d
  | empty | look _ => true

/-- There is no match where a text begins with a character, as far as the parts of the expression
tell. -/
def skips (d : Char) : Expr → Bool
  | chars s => !s.holds d
  | seq a b => a.skips d || (a.shuns d && b.skips d)
  | alt a b => a.skips d && b.skips d
  | empty | look _ | star _ _ => false

theorem eq_of_shuns {before : Option Char} {cs : List Char} (h : e.shuns d = true)
    (hy : y ∈ e.ends (before, d :: cs)) : y = (before, d :: cs) := by
  induction e generalizing y with
  | empty => exact List.mem_singleton.mp hy
  | look l =>
    rw [ends] at hy
    split at hy
    · exact List.mem_singleton.mp hy
    · cases hy
  | chars s =>
    rw [ends, if_neg (by simpa [shuns] using h)] at hy
    cases hy
  | seq a b iha ihb =>
    obtain ⟨ha, hb⟩ := Bool.and_eq_true_iff.mp h
    obtain ⟨z, hz, hy⟩ := List.mem_flatMap.mp hy
    obtain rfl := iha ha hz
    rcases Bool.or_eq_true_iff.mp hb with htakes | hb
    · exact absurd (length_lt_of_takes htakes hz) (Nat.lt_irrefl _)
    · exact ihb hb hy
  | alt a b iha ihb =>
    obtain ⟨ha, hb⟩ := Bool.and_eq_true_iff.mp h
    exact (List.mem_append.mp hy).elim (iha ha) (ihb hb)
  | star greedy a ih =>
    rcases star_cases hy with rfl | ⟨z, hz, rfl | ⟨hlt, -⟩⟩
    · rfl
    · exact ih h hz
    · rw [ih h hz] at hlt
      exact absurd hlt (Nat.lt_irrefl _)

theorem ends_of_skips (h : e.skips d = true) (before : Option Char) (cs : List Char) :
    e.ends (before, d :: cs) = [] := by
  induction e with
  | empty | look | star => cases h
  | chars s => exact if_neg (by simpa [skips] using h)
  | seq a b iha ihb =>
    rcases Bool.or_eq_true_iff.mp h with ha | hb
    · rw [ends, iha ha]
      rfl
    · obtain ⟨ha, hb⟩ := Bool.and_eq_true_iff.mp hb
      refine List.flatMap_eq_nil_iff.mpr fun y hy => ?_
      rw [eq_of_shuns ha hy]
      exact ihb hb
  | alt a b iha ihb =>
    obtain ⟨ha, hb⟩ := Bool.and_eq_true_iff.mp h
    rw [ends, iha ha, ihb hb]
    rfl

theorem rest?_of_skips (h : e.skips d = true) (cs : List Char) : e.rest? (d :: cs) = none := by
  rw [rest?, ends_of_skips h]
  rfl

/-- What takes something matches at characters only that it does not skip. -/
theorem exists_of_rest? (htakes : e.takes = true) {cs rest : List Char}
    (h : e.rest? cs = some rest) : ∃ d cs', cs = d :: cs' ∧ e.skips d = false := by
  cases cs with
  | nil =>
    rw [rest?, List.eq_nil_iff_forall_not_mem.mpr fun _ hy =>
      Nat.not_lt_zero _ (length_lt_of_takes htakes hy)] at h
    cases h
  | cons d cs =>
    refine ⟨d, cs, rfl, Bool.eq_false_iff.mpr fun hd => ?_⟩
    rw [rest?_of_skips hd] at h
    cases h

theorem ends_nil_of_takes (h : e.takes = true) (before : Option Char) :
    e.ends (before, []) = [] :=
  List.eq_nil_iff_forall_not_mem.mpr fun _ hy => Nat.not_lt_zero _ (length_lt_of_takes h hy)

/-- There is one match at most, wherever it begins. -/
def Single (e : Expr) : Prop := ∀ x, (e.ends x).length ≤ 1

theorem single_chars (s : CharSet) : (chars s).Single := by
  rintro ⟨before, _ | ⟨c, cs⟩⟩
  · exact Nat.zero_le 1
  · rw [ends]
    split
    · exact Nat.le_refl 1
    · exact Nat.zero_le 1

theorem length_flatMap_le {f : Spot → List Spot} (hf : ∀ y, (f y).length ≤ 1) {ys : List Spot}
    (hys : ys.length ≤ 1) : (ys.flatMap f).length ≤ 1 := by
  match ys, hys with
  | [], _ => exact Nat.zero_le 1
  | [y], _ =>
    rw [List.flatMap_singleton]
    exact hf y
  | _ :: _ :: _, hys => exact absurd hys (by simp)

theorem Single.seq {a b : Expr} (ha : a.Single) (hb : b.Single) : (seq a b).Single :=
  fun x => length_flatMap_le hb (ha x)

/-- Alternatives of which no two match at the same place. -/
theorem Single.alt {a b : Expr} (ha : a.Single) (hb : b.Single) (hatakes : a.takes = true)
    (hdisjoint : ∀ d, a.skips d = true ∨ b.skips d = true) : (alt a b).Single := by
  rintro ⟨before, _ | ⟨d, cs⟩⟩
  · rw [ends, ends_nil_of_takes hatakes]
    exact hb _
  · rw [ends]
    rcases hdisjoint d with h | h
    · rw [ends_of_skips h]
      exact hb _
    · rw [ends_of_skips h, List.append_nil]
      exact ha _

/-- Rounds up to a character with which no further round begins. -/
theorem Single.until {a : Expr} (ha : a.Single) (htakes : a.takes = true) {s : CharSet}
    (hskips : ∀ d, s.holds d = true → a.skips d = true) (x : Spot) :
    ((Expr.seq (star true a) (chars s)).ends x).length ≤ 1 := by
  have hmore : (Expr.seq (star true a) (chars s)).ends x =
      ((a.ends x).flatMap fun y => (Expr.seq (star true a) (chars s)).ends y) ++
        (chars s).ends x := by
    rw [ends, ends_star, if_pos rfl, List.flatMap_append, List.flatMap_singleton,
      List.flatMap_assoc]
    congr 1
    refine List.flatMap_congr fun y hy => ?_
    rw [if_pos (length_lt_of_takes htakes hy)]
    rfl
  rw [hmore]
  rcases hends : (chars s).ends x with _ | ⟨z, zs⟩
  · have hlength := ha x
    rw [List.append_nil]
    rcases hround : a.ends x with _ | ⟨y, _ | ⟨z, ys⟩⟩
    · exact Nat.zero_le 1
    · rw [List.flatMap_singleton]
      have hlt := length_lt_of_takes htakes (hround ▸ List.mem_singleton_self y)
      exact ha.until htakes hskips y
    · rw [hround] at hlength
      exact absurd hlength (by simp)
  · -- here the character comes next
    obtain ⟨before, _ | ⟨d, cs⟩⟩ := x
    · cases hends
    · have hd : s.holds d = true := by
        by_contra hd
        rw [ends, if_neg hd] at hends
        cases hends
      rw [ends_of_skips (hskips d hd), List.flatMap_nil, List.nil_append, ← hends]
      exact single_chars s _
termination_by x.2.length

/-- An expression with one match leaves the same of a text that goes on. -/
theorem Single.rest?_append (h : e.Single) (he : e.lookFree = true) {w r : List Char}
    (hr : e.rest? w = some r) (c : List Char) : e.rest? (w ++ c) = some (r ++ c) := by
  obtain ⟨y, hy, rfl⟩ := Option.map_eq_some_iff.mp hr
  have hmem : y.append c ∈ e.ends (none, w ++ c) := by
    have hmem : y.append c ∈ (e.ends (none, w)).map (Spot.append c) :=
      List.mem_map_of_mem (List.mem_of_mem_head? hy)
    rw [← ends_append he] at hmem
    exact (List.mem_filter.mp hmem).1
  have hlength := h (none, w ++ c)
  rw [rest?]
  rcases hends : e.ends (none, w ++ c) with _ | ⟨z, _ | ⟨z', zs⟩⟩
  · rw [hends] at hmem
    cases hmem
  · rw [hends] at hmem
    obtain rfl := List.mem_singleton.mp hmem
    rfl
  · rw [hends] at hlength
    exact absurd hlength (by simp)

/-! ## What comes behind a run -/

/-- Passing characters of a set, one comes no further than to the first other one. -/
theorem dropWhile_of_mem_ends {greedy : Bool} {s : CharSet}
    (h : y ∈ (star greedy (chars s)).ends x) : x.2.dropWhile s.holds = y.2.dropWhile s.holds := by
  obtain ⟨cs, hcs⟩ := exists_leads h
  have hall : ∀ d ∈ cs, s.holds d = true := mayTake_of_mem_ends h hcs
  rw [hcs.1, List.dropWhile_append_of_pos hall]

/-- There is no match behind a run if there is none at the first character that ends the run. -/
theorem ends_behind_run {greedy : Bool} {s : CharSet} {b : Expr} (hb : b.takes = true)
    (hskips : ∀ d, s.holds d = true → b.skips d = true)
    (h : ∀ d ∈ (x.2.dropWhile s.holds).head?, b.skips d = true) :
    (seq (star greedy (chars s)) b).ends x = [] := by
  refine List.flatMap_eq_nil_iff.mpr fun y hy => ?_
  obtain ⟨before, _ | ⟨d, cs⟩⟩ := y
  · exact ends_nil_of_takes hb before
  · refine ends_of_skips ?_ before cs
    by_cases hd : s.holds d = true
    · exact hskips d hd
    · refine h d ?_
      rw [dropWhile_of_mem_ends hy, List.dropWhile_cons_of_neg hd]
      rfl

/-- Where no round begins, a repetition takes nothing. -/
theorem rest?_star_of_ends {a : Expr} {greedy : Bool} {cs : List Char}
    (h : a.ends (none, cs) = []) : (star greedy a).rest? cs = some cs := by
  rw [rest?, ends_star, h]
  cases greedy <;> rfl

end Expr

end Typestrip.Regex
