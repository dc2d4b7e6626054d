import Mathlib.Data.List.TakeWhile
import Typestrip.Text.Lines

/-!
# Texts up to blanks

What trimming and splitting into lines leave of a text: all that is no blank.
-/

namespace Typestrip.Text

/-- The characters of a text that are no blanks. -/
def nonBlank (cs : List Char) : List Char := cs.filter (!Unicode.isSpace ·)

@[simp] theorem nonBlank_append (cs ds : List Char) :
    nonBlank (cs ++ ds) = nonBlank cs ++ nonBlank ds :=
  List.filter_append ..

theorem nonBlank_flatMap {α : Type} (f : α → List Char) (as : List α) :
    nonBlank (as.flatMap f) = as.flatMap fun a => nonBlank (f a) :=
  List.filter_flatMap ..

theorem nonBlank_eq_nil {cs : List Char} (h : ∀ c ∈ cs, Unicode.isSpace c = true) :
    nonBlank cs = [] :=
  List.filter_eq_nil_iff.mpr fun c hc => by simp [h c hc]

@[simp] theorem nonBlank_trimStart (cs : List Char) : nonBlank (trimStart cs) = nonBlank cs := by
  have hblank : nonBlank (cs.takeWhile Unicode.isSpace) = [] :=
    nonBlank_eq_nil fun c hc => List.mem_takeWhile_imp hc
  rw [trimStart, ← List.nil_append (nonBlank (cs.dropWhile _)), ← hblank, ← nonBlank_append,
    List.takeWhile_append_dropWhile]

@[simp] theorem nonBlank_trimEnd (cs : List Char) : nonBlank (trimEnd cs) = nonBlank cs := by
  have hstart := nonBlank_trimStart cs.reverse
  rw [nonBlank, trimEnd, List.filter_reverse]
  rw [nonBlank, trimStart, nonBlank, List.filter_reverse] at hstart
  rw [hstart, List.reverse_reverse]
  rfl

theorem trimEnd_sublist (cs : List Char) : (trimEnd cs).Sublist cs := by
  have hsublist := (List.dropWhile_sublist Unicode.isSpace (l := cs.reverse)).reverse
  rwa [List.reverse_reverse] at hsublist

@[simp] theorem nonBlank_trim (cs : List Char) : nonBlank (trim cs) = nonBlank cs := by
  rw [trim, nonBlank_trimEnd, nonBlank_trimStart]

/-- A text without the mark is one part. -/
theorem split_of_not_mem {mark : Char} {cs : List Char} (h : mark ∉ cs) :
    split mark cs = (cs, []) := by
  induction cs with
  | nil => rfl
  | cons c cs ih =>
    obtain ⟨hc, hcs⟩ := not_or.mp (List.mem_cons.not.mp h)
    rw [split, ih hcs]
    exact if_neg (Ne.symm hc)

end Typestrip.Text
