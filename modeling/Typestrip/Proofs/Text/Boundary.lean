import Typestrip.Text.Offset

/-!
# Character boundaries

`fromBoundary?` finds what stands from a boundary on. An offset is a boundary exactly if it is the
width of a beginning (`fromBoundary?_eq_some_iff`), so boundaries add up: a boundary of the rest,
counted from where the rest begins, is a boundary of the whole (`fromBoundary?_add`).
-/

namespace Typestrip.Text

@[simp] theorem fromBoundary?_zero (cs : List Char) : fromBoundary? cs 0 = some cs := by
  cases cs <;> rfl

theorem fromBoundary?_succ (c : Char) (cs : List Char) (n : Nat) :
    fromBoundary? (c :: cs) (n + 1) =
      if c.utf8Size ≤ n + 1 then fromBoundary? cs (n + 1 - c.utf8Size) else none := rfl

/-- Cutting at the width of a beginning is cutting at a boundary. -/
theorem fromBoundary?_width (a b : List Char) : fromBoundary? (a ++ b) (width a) = some b := by
  induction a with
  | nil => simp
  | cons c cs ih =>
    obtain ⟨k, hk⟩ := Nat.exists_eq_succ_of_ne_zero (utf8Size_ne_zero c)
    have hsum : width (c :: cs) = (k + width cs) + 1 := by rw [width_cons, hk]; omega
    rw [List.cons_append, hsum, fromBoundary?_succ, if_pos (by omega)]
    rw [show k + width cs + 1 - c.utf8Size = width cs by omega]
    exact ih

theorem fromBoundary?_eq_some_iff {cs rest : List Char} {n : Nat} :
    fromBoundary? cs n = some rest ↔ ∃ before, cs = before ++ rest ∧ width before = n := by
  constructor
  · intro h
    induction cs generalizing n with
    | nil =>
      cases n with
      | zero => exact ⟨[], Option.some.inj h, rfl⟩
      | succ n => cases h
    | cons c cs ih =>
      cases n with
      | zero => exact ⟨[], Option.some.inj h, rfl⟩
      | succ n =>
        rw [fromBoundary?_succ] at h
        split at h
        · next hle =>
          obtain ⟨before, hcs, hw⟩ := ih h
          exact ⟨c :: before, by rw [hcs, List.cons_append], by rw [width_cons, hw]; omega⟩
        · cases h
  · rintro ⟨before, rfl, rfl⟩
    exact fromBoundary?_width before rest

/-- At a boundary the two ways of cutting agree. -/
theorem dropBytes_of_fromBoundary? {cs rest : List Char} {n : Nat}
    (h : fromBoundary? cs n = some rest) : dropBytes cs n = rest := by
  obtain ⟨before, rfl, rfl⟩ := fromBoundary?_eq_some_iff.mp h
  exact dropBytes_width before rest

theorem fromBoundary?_dropBytes {cs : List Char} {n : Nat}
    (h : (fromBoundary? cs n).isSome = true) : fromBoundary? cs n = some (dropBytes cs n) := by
  obtain ⟨rest, hr⟩ := Option.isSome_iff_exists.mp h
  rw [hr, dropBytes_of_fromBoundary? hr]

/-- Offsets into the rest are counted from where the rest begins. -/
theorem fromBoundary?_add {cs rest : List Char} {n : Nat} (h : fromBoundary? cs n = some rest)
    (k : Nat) : fromBoundary? cs (n + k) = fromBoundary? rest k := by
  obtain ⟨before, rfl, rfl⟩ := fromBoundary?_eq_some_iff.mp h
  cases hk : fromBoundary? rest k with
  | some after =>
    obtain ⟨mid, rfl, rfl⟩ := fromBoundary?_eq_some_iff.mp hk
    exact fromBoundary?_eq_some_iff.mpr ⟨before ++ mid, by simp, by simp⟩
  | none =>
    cases hs : fromBoundary? (before ++ rest) (width before + k) with
    | none => rfl
    | some after =>
      obtain ⟨front, hfront, hw⟩ := fromBoundary?_eq_some_iff.mp hs
      rcases List.append_eq_append_iff.mp hfront with ⟨mid, rfl, rfl⟩ | ⟨mid, rfl, rfl⟩
      · -- what is cut off reaches into `rest`, so `k` is a boundary there
        rw [width_append, Nat.add_left_cancel_iff] at hw
        rw [fromBoundary?_eq_some_iff.mpr ⟨mid, rfl, hw⟩] at hk
        simp at hk
      · -- what is cut off ends inside `before`, though it is not narrower: `k` is zero
        rw [width_append] at hw
        have hmid : width mid = 0 := by omega
        have hzero : k = 0 := by omega
        subst hzero
        simp at hk

/-- Going on from a boundary to a later one. -/
theorem fromBoundary?_step {cs rest : List Char} {n k : Nat} (h : fromBoundary? cs n = some rest)
    (hk : (fromBoundary? cs (n + k)).isSome = true) :
    fromBoundary? cs (n + k) = some (dropBytes rest k) := by
  rw [fromBoundary?_add h] at hk ⊢
  exact fromBoundary?_dropBytes hk

/-- An offset into a text that cuts no character apart. -/
def IsBoundary (cs : List Char) (n : Nat) : Prop :=
  ∃ before after, cs = before ++ after ∧ width before = n

theorem isBoundary_iff {cs : List Char} {n : Nat} :
    IsBoundary cs n ↔ ∃ rest, fromBoundary? cs n = some rest := by
  constructor
  · rintro ⟨before, after, hcs, hn⟩
    exact ⟨after, fromBoundary?_eq_some_iff.mpr ⟨before, hcs, hn⟩⟩
  · rintro ⟨rest, h⟩
    obtain ⟨before, hcs, hn⟩ := fromBoundary?_eq_some_iff.mp h
    exact ⟨before, rest, hcs, hn⟩

theorem isBoundary_of_fromBoundary? {cs rest : List Char} {n : Nat}
    (h : fromBoundary? cs n = some rest) : IsBoundary cs n := isBoundary_iff.mpr ⟨rest, h⟩

theorem IsBoundary.le_width {cs : List Char} {n : Nat} (h : IsBoundary cs n) : n ≤ width cs := by
  obtain ⟨before, after, rfl, rfl⟩ := h
  rw [width_append]
  exact Nat.le_add_right _ _

/-- What stands from a later boundary on. -/
theorem IsBoundary.fromBoundary?_step {cs rest : List Char} {n k : Nat}
    (hk : IsBoundary cs (n + k)) (h : fromBoundary? cs n = some rest) :
    fromBoundary? cs (n + k) = some (dropBytes rest k) :=
  Text.fromBoundary?_step h (Option.isSome_iff_exists.mpr (isBoundary_iff.mp hk))

/-- The text between two offsets, if it begins and ends at boundaries. -/
def slice? (cs : List Char) (start stop : Nat) : Option (List Char) :=
  if start ≤ stop then
    (fromBoundary? cs start).bind fun rest =>
      (fromBoundary? rest (stop - start)).map fun _ => takeBytes rest (stop - start)
  else none

theorem slice?_of_isBoundary {cs rest : List Char} {start stop : Nat}
    (hstart : fromBoundary? cs start = some rest) (hle : start ≤ stop)
    (hstop : IsBoundary cs stop) :
    slice? cs start stop = some (takeBytes rest (stop - start)) := by
  obtain ⟨after, hafter⟩ := isBoundary_iff.mp hstop
  have hcut : fromBoundary? rest (stop - start) = some after := by
    rw [← fromBoundary?_add hstart, Nat.add_sub_cancel' hle, hafter]
  rw [slice?, if_pos hle, hstart, Option.bind_some, hcut, Option.map_some]

/-- All that stands from a boundary on. -/
theorem slice?_width {cs rest : List Char} {start : Nat} (h : fromBoundary? cs start = some rest) :
    slice? cs start (width cs) = some rest := by
  obtain ⟨before, hcs, rfl⟩ := fromBoundary?_eq_some_iff.mp h
  have hwhole : IsBoundary cs (width cs) := ⟨cs, [], by simp, rfl⟩
  rw [slice?_of_isBoundary h (isBoundary_of_fromBoundary? h).le_width hwhole, hcs, width_append,
    Nat.add_sub_cancel_left]
  simpa using takeBytes_width rest []

/-- A boundary behind the beginning of a text leaves a shorter text. -/
theorem length_lt_of_fromBoundary? {cs rest : List Char} {n : Nat}
    (h : fromBoundary? cs n = some rest) (hn : 0 < n) : rest.length < cs.length := by
  obtain ⟨before, rfl, rfl⟩ := fromBoundary?_eq_some_iff.mp h
  cases before with
  | nil => simp at hn
  | cons c before =>
    rw [List.length_append, List.length_cons]
    omega

end Typestrip.Text
