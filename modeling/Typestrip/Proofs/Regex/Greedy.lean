import Typestrip.Proofs.Regex.Locality

/-!
# The preferred match, step by step

`Expr.Prefers` says what the preferred match at the beginning of a text leaves of it. It is built up
as the expression is: the preferred match of two expressions in a row is the preferred match of the
first and of the second behind it, and that of a greedy repetition goes on as long as a round matches.
-/

namespace Typestrip.Regex.Expr

variable {a b e : Expr} {s : CharSet} {cs mid r : List Char} {c d : Char} {res : Option (List Char)}

/-- What the preferred match at the beginning of a text leaves over, or that there is none, whatever
stands in front of the text. -/
def Prefers (e : Expr) (cs : List Char) (res : Option (List Char)) : Prop :=
  ∀ before, (e.ends (before, cs)).head?.map (·.2) = res

theorem Prefers.rest? (h : e.Prefers cs res) : e.rest? cs = res := h none

theorem prefers_chars (hc : s.holds c = true) (cs : List Char) :
    (chars s).Prefers (c :: cs) (some cs) := by
  intro before
  have hends : (chars s).ends (before, c :: cs) = [(some c, cs)] := if_pos hc
  rw [hends]
  rfl

theorem prefers_run (s : CharSet) (cs : List Char) :
    (star true (chars s)).Prefers cs (some (cs.dropWhile s.holds)) :=
  fun before => head?_ends_run s before cs

theorem prefers_empty (cs : List Char) : empty.Prefers cs (some cs) := fun _ => rfl

theorem prefers_of_skips (h : e.skips d = true) (cs : List Char) : e.Prefers (d :: cs) none := by
  intro before
  rw [ends_of_skips h]
  rfl

theorem prefers_nil_of_takes (h : e.takes = true) : e.Prefers [] none := by
  intro before
  rw [ends_nil_of_takes h]
  rfl

/-- The first of all matches. -/
theorem Prefers.exists_cons (h : e.Prefers cs (some r)) (before : Option Char) :
    ∃ y ys, e.ends (before, cs) = y :: ys ∧ y.2 = r := by
  obtain ⟨y, hy, hr⟩ := Option.map_eq_some_iff.mp (h before)
  obtain ⟨ys, hys⟩ := List.head?_eq_some_iff.mp hy
  exact ⟨y, ys, hys, hr⟩

theorem Prefers.ends_eq_nil (h : e.Prefers cs none) (before : Option Char) :
    e.ends (before, cs) = [] :=
  List.head?_eq_none_iff.mp (Option.map_eq_none_iff.mp (h before))

theorem Prefers.seq (ha : a.Prefers cs (some mid)) (hb : b.Prefers mid (some r)) :
    (Expr.seq a b).Prefers cs (some r) := by
  intro before
  obtain ⟨⟨c, _⟩, ys, hends, rfl⟩ := ha.exists_cons before
  obtain ⟨z, zs, hz, rfl⟩ := hb.exists_cons c
  rw [ends, hends, List.flatMap_cons, hz]
  rfl

theorem Prefers.seq_failed (ha : a.Prefers cs none) : (Expr.seq a b).Prefers cs none := by
  intro before
  rw [ends, ha.ends_eq_nil]
  rfl

theorem Prefers.left (ha : a.Prefers cs (some r)) : (Expr.alt a b).Prefers cs (some r) := by
  intro before
  obtain ⟨y, ys, hends, rfl⟩ := ha.exists_cons before
  rw [ends, hends]
  rfl

theorem Prefers.right (ha : a.Prefers cs none) (hb : b.Prefers cs res) :
    (Expr.alt a b).Prefers cs res := by
  intro before
  rw [ends, ha.ends_eq_nil, List.nil_append]
  exact hb before

theorem Prefers.round (ha : a.Prefers cs (some mid)) (hlt : mid.length < cs.length)
    (h : (star true a).Prefers mid (some r)) : (star true a).Prefers cs (some r) := by
  intro before
  obtain ⟨⟨c, _⟩, ys, hends, rfl⟩ := ha.exists_cons before
  obtain ⟨z, zs, hz, rfl⟩ := h.exists_cons c
  rw [ends_star, hends, if_pos rfl, List.flatMap_cons, if_pos hlt, hz]
  rfl

theorem Prefers.stop (ha : a.Prefers cs none) : (star true a).Prefers cs (some cs) := by
  intro before
  rw [ends_star, ha.ends_eq_nil]
  rfl

theorem Prefers.length_le (h : e.Prefers cs (some r)) : r.length ≤ cs.length := by
  obtain ⟨y, ys, hends, rfl⟩ := h.exists_cons none
  exact length_le_of_mem_ends (x := (none, cs)) (by rw [hends]; exact List.mem_cons_self)

/-! ## Rounds -/

section

variable {Q : List Char → Prop}
  (h : ∀ u, Q u → a.Prefers u none ∨ ∃ v, Q v ∧ v.length < u.length ∧ a.Prefers u (some v))

include h

/-- If every round that begins at some places ends at one of them, all rounds do. -/
theorem exists_prefers_star {u : List Char} (hu : Q u) :
    ∃ r, Q r ∧ (star true a).Prefers u (some r) := by
  rcases h u hu with hnone | ⟨v, hv, hlt, hround⟩
  · exact ⟨u, hu, .stop hnone⟩
  · obtain ⟨r, hr, hrounds⟩ := exists_prefers_star hv
    exact ⟨r, hr, hround.round hlt hrounds⟩
termination_by u.length

/-- The same for one round at least. -/
theorem prefers_rounds {u : List Char} (hu : Q u) :
    (Expr.seq a (star true a)).Prefers u none ∨
      ∃ r, Q r ∧ r.length < u.length ∧ (Expr.seq a (star true a)).Prefers u (some r) := by
  rcases h u hu with hnone | ⟨v, hv, hlt, hround⟩
  · exact .inl hnone.seq_failed
  · obtain ⟨r, hr, hrounds⟩ := exists_prefers_star h hv
    exact .inr ⟨r, hr, Nat.lt_of_le_of_lt hrounds.length_le hlt, hround.seq hrounds⟩

end

end Typestrip.Regex.Expr
