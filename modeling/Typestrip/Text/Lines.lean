import Typestrip.Unicode.Class

/-!
# Blanks and lines

Trimming, and splitting at a mark, into lines and into words. Blanks are all characters of
White_Space; lines end with a line feed alone.
-/

namespace Typestrip.Text

/-- A text without blanks at its beginning. -/
def trimStart (cs : List Char) : List Char := cs.dropWhile Unicode.isSpace

/-- A text without blanks at its end. -/
def trimEnd (cs : List Char) : List Char := (cs.reverse.dropWhile Unicode.isSpace).reverse

/-- A text without blanks at both ends. -/
def trim (cs : List Char) : List Char := trimEnd (trimStart cs)

/-- The part of a text before the first mark, and the parts after the marks. -/
def split (mark : Char) : List Char → List Char × List (List Char)
  | [] => ([], [])
  | c :: cs =>
    let (first, rest) := split mark cs
    if c = mark then ([], first :: rest) else (c :: first, rest)

/-- The line that a text begins with, and the lines after it. -/
def splitLines (cs : List Char) : List Char × List (List Char) := split '\n' cs

/-- The words of a text, that is, its longest parts without blanks. `word` is the word begun before,
in reverse. -/
def wordsAfter (word : List Char) : List Char → List (List Char)
  | [] => if word.isEmpty then [] else [word.reverse]
  | c :: cs =>
    if Unicode.isSpace c then
      if word.isEmpty then wordsAfter [] cs else word.reverse :: wordsAfter [] cs
    else wordsAfter (c :: word) cs

/-- The words of a text with single spaces between them. -/
def normalizeSpace (s : String) : String :=
  " ".intercalate ((wordsAfter [] s.toList).map String.ofList)

/-- Joining the parts of a text with marks gives the text. -/
theorem split_join (mark : Char) (cs : List Char) :
    (split mark cs).1 ++ (split mark cs).2.flatMap (mark :: ·) = cs := by
  induction cs with
  | nil => rfl
  | cons c cs ih =>
    by_cases h : c = mark
    · simp [split, h, ih]
    · simp [split, h, ih]

end Typestrip.Text
