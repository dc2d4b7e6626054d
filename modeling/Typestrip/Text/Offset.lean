/-!
# Byte offsets in a text

A text is a list of characters, and an offset into it counts the bytes of its UTF-8 form. `width` is
the length of a text in bytes; `takeBytes` and `dropBytes` cut a text at an offset. The main
statements say that cutting at the width of a beginning gives that beginning and what follows it
(`takeBytes_width`, `dropBytes_width`), so an offset that is the width of a beginning is always a
character boundary.
-/

namespace Typestrip.Text

/-- The number of bytes of a text in UTF-8. -/
def width : List Char → Nat
  | [] => 0
  | c :: cs => c.utf8Size + width cs

/-- The text up to offset `n`. A character that the offset falls into is kept whole. -/
def takeBytes : List Char → Nat → List Char
  | [], _ => []
  | c :: cs, n => if n = 0 then [] else c :: takeBytes cs (n - c.utf8Size)

/-- The text from offset `n` on. A character that the offset falls into is left out whole. -/
def dropBytes : List Char → Nat → List Char
  | [], _ => []
  | c :: cs, n => if n = 0 then c :: cs else dropBytes cs (n - c.utf8Size)

/-- The text from offset `n` on, if `n` is a character boundary inside the text or its end. -/
def fromBoundary? : List Char → Nat → Option (List Char)
  | cs, 0 => some cs
  | [], _ + 1 => none
  | c :: cs, n + 1 => if c.utf8Size ≤ n + 1 then fromBoundary? cs (n + 1 - c.utf8Size) else none

@[simp] theorem width_nil : width [] = 0 := rfl

@[simp] theorem width_cons (c : Char) (cs : List Char) : width (c :: cs) = c.utf8Size + width cs := rfl

@[simp] theorem width_append (a b : List Char) : width (a ++ b) = width a + width b := by
  induction a with
  | nil => simp
  | cons c cs ih => simp [ih, Nat.add_assoc]

theorem utf8Size_ne_zero (c : Char) : c.utf8Size ≠ 0 := Nat.ne_of_gt c.utf8Size_pos

@[simp] theorem takeBytes_width (a b : List Char) : takeBytes (a ++ b) (width a) = a := by
  induction a with
  | nil => cases b <;> simp [takeBytes]
  | cons c cs ih => simp [takeBytes, utf8Size_ne_zero, ih]

@[simp] theorem dropBytes_width (a b : List Char) : dropBytes (a ++ b) (width a) = b := by
  induction a with
  | nil => cases b <;> simp [dropBytes]
  | cons c cs ih => simp [dropBytes, utf8Size_ne_zero, ih]

theorem takeBytes_append_dropBytes (cs : List Char) (n : Nat) :
    takeBytes cs n ++ dropBytes cs n = cs := by
  induction cs generalizing n with
  | nil => rfl
  | cons c cs ih => by_cases h : n = 0 <;> simp [takeBytes, dropBytes, h, ih]

theorem length_dropBytes_le (cs : List Char) (n : Nat) : (dropBytes cs n).length ≤ cs.length := by
  induction cs generalizing n with
  | nil => simp [dropBytes]
  | cons c cs ih =>
    by_cases h : n = 0
    · simp [dropBytes, h]
    · have := ih (n - c.utf8Size)
      simp only [dropBytes, h, if_false, List.length_cons]
      omega

/-- Cutting past the first character leaves a shorter text: loops over a text end by this. -/
theorem length_dropBytes_lt (c : Char) (cs : List Char) (n : Nat) :
    (dropBytes (c :: cs) (n + 1)).length < (c :: cs).length := by
  have := length_dropBytes_le cs (n + 1 - c.utf8Size)
  simp only [dropBytes, Nat.add_one_ne_zero, if_false, List.length_cons]
  omega

end Typestrip.Text
