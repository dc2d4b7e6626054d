import Typestrip.Proofs.Regex.Greedy

/-!
# Preferred matches in a text and in a longer one

The preferred match in a text is the preferred one in every longer text, unless it comes to the end of
the shorter one: there it may go on in the longer one. `Expr.Parallel` says how the two are related,
and it is built up as the expression is, like `Expr.Prefers`.
-/

namespace Typestrip.Regex.Expr

variable {a b e : Expr} {s : CharSet} {cs r u v w z : List Char} {stop stop' : List Char → Prop}

/-! ## Expressions that match everywhere -/

/-- There is a match in every text, as far as the parts of the expression tell. -/
def free : Expr → Bool
  | empty | star _ _ => true
  | seq a b => a.free && b.free
  | alt a b => a.free || b.free
  | chars _ | look _ => false

theorem ends_ne_nil_of_free {e : Expr} (h : e.free = true) (x : Spot) : e.ends x ≠ [] := by
  induction e generalizing x with
  | empty => exact List.cons_ne_nil _ _
  | star greedy a =>
    rw [ends_star]
    cases greedy
    · exact List.cons_ne_nil _ _
    · exact List.append_ne_nil_of_right_ne_nil _ (List.cons_ne_nil _ _)
  | seq a b iha ihb =>
    obtain ⟨ha, hb⟩ := Bool.and_eq_true_iff.mp h
    obtain ⟨y, hy⟩ := List.exists_mem_of_ne_nil _ (iha ha x)
    obtain ⟨z, hz⟩ := List.exists_mem_of_ne_nil _ (ihb hb y)
    exact List.ne_nil_of_mem (List.mem_flatMap.mpr ⟨y, hy, hz⟩)
  | alt a b iha ihb =>
    rcases Bool.or_eq_true_iff.mp h with ha | hb
    · exact List.append_ne_nil_of_left_ne_nil (iha ha x) _
    · exact List.append_ne_nil_of_right_ne_nil _ (ihb hb x)
  | chars | look => cases h

theorem exists_rest?_of_free {e : Expr} (h : e.free = true) (cs : List Char) :
    ∃ rest, e.rest? cs = some rest := by
  obtain ⟨y, ys, hends⟩ := List.exists_cons_of_ne_nil (ends_ne_nil_of_free h (none, cs))
  exact ⟨y.2, by rw [rest?, hends]; rfl⟩

theorem not_prefers_of_free (h : e.free = true) : ¬ e.Prefers cs none :=
  fun hnone => ends_ne_nil_of_free h (none, cs) (hnone.ends_eq_nil none)

/-! ## Two texts -/

/-- The preferred matches in `u` and in `u` with `z` behind it: there is none, or both leave what stands
behind the same part of `u`, or one of them takes all of `u` and the other one leaves what `stop` says. -/
inductive Parallel (z : List Char) (stop : List Char → Prop) (e : Expr) (u : List Char) : Prop
  | failed : e.Prefers u none → e.Prefers (u ++ z) none → Parallel z stop e u
  | inside {v : List Char} : v ≠ [] → v <:+ u → e.Prefers u (some v) →
      e.Prefers (u ++ z) (some (v ++ z)) → Parallel z stop e u
  | past {w : List Char} : e.Prefers u (some []) → stop w → e.Prefers (u ++ z) (some w) →
      Parallel z stop e u

theorem Prefers.length_lt (ha : a.takes = true) (h : a.Prefers cs (some r)) : r.length < cs.length := by
  obtain ⟨y, ys, hends, rfl⟩ := h.exists_cons none
  exact length_lt_of_takes (x := (none, cs)) ha (by rw [hends]; exact List.mem_cons_self)

theorem parallel_chars (s : CharSet) (hu : u ≠ []) : Parallel z (· = z) (chars s) u := by
  obtain ⟨d, v, rfl⟩ := List.exists_cons_of_ne_nil hu
  by_cases hd : s.holds d = true
  · by_cases hv : v = []
    · subst hv
      exact .past (prefers_chars hd []) rfl (prefers_chars hd z)
    · exact .inside hv (List.suffix_cons d v) (prefers_chars hd v) (prefers_chars hd (v ++ z))
  · have hskips : (chars s).skips d = true := by simpa [skips] using hd
    exact .failed (prefers_of_skips hskips v) (prefers_of_skips hskips (v ++ z))

theorem parallel_run (s : CharSet) (u : List Char) :
    Parallel z (· = z.dropWhile s.holds) (star true (chars s)) u := by
  have hlong := prefers_run s (u ++ z)
  rw [List.dropWhile_append] at hlong
  by_cases hnil : u.dropWhile s.holds = []
  · rw [hnil, List.isEmpty_nil, if_pos rfl] at hlong
    exact .past (hnil ▸ prefers_run s u) rfl hlong
  · rw [if_neg (by simpa using hnil)] at hlong
    exact .inside hnil (List.dropWhile_suffix _) (prefers_run s u) hlong

namespace Parallel

theorem mono (h : Parallel z stop e u) (hstop : ∀ w, stop w → stop' w) : Parallel z stop' e u := by
  cases h with
  | failed h h' => exact .failed h h'
  | inside hv hs h h' => exact .inside hv hs h h'
  | past h hw h' => exact .past h (hstop _ hw) h'

theorem alt (ha : Parallel z stop a u) (hb : Parallel z stop b u) :
    Parallel z stop (Expr.alt a b) u := by
  cases ha with
  | failed ha ha' =>
    cases hb with
    | failed hb hb' => exact .failed (ha.right hb) (ha'.right hb')
    | inside hv hs hb hb' => exact .inside hv hs (ha.right hb) (ha'.right hb')
    | past hb hw hb' => exact .past (ha.right hb) hw (ha'.right hb')
  | inside hv hs ha ha' => exact .inside hv hs ha.left ha'.left
  | past ha hw ha' => exact .past ha.left hw ha'.left

/-- Two expressions in a row, of which the second one matches everywhere. Behind the end of the shorter
text it goes on where the first one stops. -/
theorem seq (ha : Parallel z stop a u) (hfree : b.free = true)
    (hb : ∀ v, v ≠ [] → v <:+ u → Parallel z stop' b v) (hend : b.Prefers [] (some []))
    (hstop : ∀ w, stop w → ∃ w', stop' w' ∧ b.Prefers w (some w')) :
    Parallel z stop' (Expr.seq a b) u := by
  cases ha with
  | failed ha ha' => exact .failed ha.seq_failed ha'.seq_failed
  | inside hv hs ha ha' =>
    cases hb _ hv hs with
    | failed hb => exact absurd hb (not_prefers_of_free hfree)
    | inside hv' hs' hb hb' => exact .inside hv' (hs'.trans hs) (ha.seq hb) (ha'.seq hb')
    | past hb hw hb' => exact .past (ha.seq hb) hw (ha'.seq hb')
  | past ha hw ha' =>
    obtain ⟨w', hw', hb⟩ := hstop _ hw
    exact .past (ha.seq hend) hw' (ha'.seq hb)

/-- Rounds that go on behind the end of the shorter text. -/
theorem star {u : List Char} (htakes : a.takes = true) (ha : ∀ v, v ≠ [] → v <:+ u → Parallel z stop a v)
    (hstop : ∀ w, stop w → ∃ w', stop' w' ∧ (Expr.star true a).Prefers w (some w')) (hu : u ≠ []) :
    Parallel z stop' (Expr.star true a) u := by
  cases ha u hu (List.suffix_refl u) with
  | failed hround hround' => exact .inside hu (List.suffix_refl u) (.stop hround) (.stop hround')
  | inside hv hs hround hround' =>
    have hlt := hround.length_lt htakes
    cases star htakes (fun v hv hsuffix => ha v hv (hsuffix.trans hs)) hstop hv with
    | failed hnone => exact absurd hnone (not_prefers_of_free rfl)
    | inside hv' hs' hrounds hrounds' =>
      exact .inside hv' (hs'.trans hs) (hround.round hlt hrounds)
        (hround'.round (hround'.length_lt htakes) hrounds')
    | past hrounds hw hrounds' =>
      exact .past (hround.round hlt hrounds) hw (hround'.round (hround'.length_lt htakes) hrounds')
  | past hround hw hround' =>
    obtain ⟨w', hw', hrounds⟩ := hstop _ hw
    exact .past (hround.round (hround.length_lt htakes) (.stop (prefers_nil_of_takes htakes))) hw'
      (hround'.round (hround'.length_lt htakes) hrounds)
termination_by u.length

/-- One round at least. -/
theorem rounds (htakes : a.takes = true) (ha : ∀ v, v ≠ [] → v <:+ u → Parallel z stop a v)
    (hstop : ∀ w, stop w → ∃ w', stop' w' ∧ (Expr.star true a).Prefers w (some w')) (hu : u ≠ []) :
    Parallel z stop' (Expr.seq a (Expr.star true a)) u :=
  (ha u hu (List.suffix_refl u)).seq rfl
    (fun _ hv hs => star htakes (fun v hv' hs' => ha v hv' (hs'.trans hs)) hstop hv)
    (.stop (prefers_nil_of_takes htakes)) hstop

end Parallel

end Typestrip.Regex.Expr
