import Typestrip.Unicode.Category

/-!
# Classes of characters

Whitespace, digits, word characters and visible characters, each a property of Unicode (version 15).
All of ASCII is decided without the category table.
-/

namespace Typestrip.Unicode

/-- The property White_Space. -/
def isSpace (c : Char) : Bool :=
  let n := c.toNat
  if n < 128 then n == 32 || (9 ≤ n && n ≤ 13)
  else n == 0x85 || n == 0xA0 || n == 0x1680 || (0x2000 ≤ n && n ≤ 0x200A) || n == 0x2028 ||
    n == 0x2029 || n == 0x202F || n == 0x205F || n == 0x3000

/-- A decimal digit of any script. -/
def isDigit (c : Char) : Bool :=
  if c.toNat < 128 then c.isDigit else Category.of c == .decimalNumber

/-- Letters written inside circles and squares, which count as alphabetic though their category is
that of symbols. -/
def isEnclosedLetter (n : Nat) : Bool :=
  (0x24B6 ≤ n && n ≤ 0x24E9) || (0x1F130 ≤ n && n ≤ 0x1F149) || (0x1F150 ≤ n && n ≤ 0x1F169) ||
    (0x1F170 ≤ n && n ≤ 0x1F189)

/-- A word character: an alphabetic character, a mark, a digit, a connector such as `_`, or one of
the two joiners. -/
def isWord (c : Char) : Bool :=
  if c.toNat < 128 then c.isAlphanum || c == '_'
  else
    let k := Category.of c
    k.isLetter || k.isMark || k == .decimalNumber || k == .letterNumber ||
      k == .connectorPunctuation || isEnclosedLetter c.toNat || c.toNat == 0x200C ||
      c.toNat == 0x200D

/-- An alphabetic character or a number, as far as names of groups in patterns admit them. -/
def isAlphabetic (c : Char) : Bool :=
  if c.toNat < 128 then c.isAlpha
  else
    let k := Category.of c
    k.isLetter || k == .letterNumber || isEnclosedLetter c.toNat

/-- A character with a shape of its own: anything but controls, formats, private and unassigned
code points and separators, with the exception of the plain space. -/
def isVisible (c : Char) : Bool :=
  if c.toNat < 128 then 32 ≤ c.toNat && c.toNat < 127
  else
    let k := Category.of c
    !(k.isOther || k.isSeparator)

/-- Spacing marks, joiners and tags that extend the character before them, beside the nonspacing and
enclosing marks that all do. -/
def otherGraphemeExtenders : List (Nat × Nat) :=
  [(0x9BE, 0x9BE), (0x9D7, 0x9D7), (0xB3E, 0xB3E), (0xB57, 0xB57), (0xBBE, 0xBBE), (0xBD7, 0xBD7),
   (0xCC2, 0xCC2), (0xCD5, 0xCD6), (0xD3E, 0xD3E), (0xD57, 0xD57), (0xDCF, 0xDCF), (0xDDF, 0xDDF),
   (0x1B35, 0x1B35), (0x200C, 0x200C), (0x302E, 0x302F), (0xFF9E, 0xFF9F), (0x1133E, 0x1133E),
   (0x11357, 0x11357), (0x114B0, 0x114B0), (0x114BD, 0x114BD), (0x115AF, 0x115AF),
   (0x11930, 0x11930), (0x1D165, 0x1D165), (0x1D16E, 0x1D172), (0xE0020, 0xE007F)]

/-- The property Grapheme_Extend: a character that is drawn with the one before it. -/
def extendsGrapheme (c : Char) : Bool :=
  if c.toNat < 0x300 then false
  else
    let k := Category.of c
    k == .nonspacingMark || k == .enclosingMark ||
      otherGraphemeExtenders.any fun r => r.1 ≤ c.toNat && c.toNat ≤ r.2

/-- Every character that the core library takes for whitespace is a space here. -/
theorem isSpace_of_isWhitespace {c : Char} (h : c.isWhitespace) : isSpace c := by
  simp only [Char.isWhitespace, Bool.or_eq_true, decide_eq_true_eq] at h
  rcases h with ((h | h) | h) | h <;> subst h <;> decide

end Typestrip.Unicode
