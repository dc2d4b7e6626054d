import Typestrip.Unicode.Class

/-!
# Quoted text

The form in which a text or a character is shown inside a message: between quotes, with everything
that could not be seen or would end the quotation written as an escape. `quote` shows a text between
double quotes and `quoteChar` a character between single ones.
-/

namespace Typestrip.Text

/-- The hexadecimal digits of a number, lower case and without leading zeros. -/
def hexDigits (n : Nat) : List Char := Nat.toDigits 16 n

/-- The escape of a character by its code point, `\u{…}`. -/
def codeEscape (c : Char) : List Char := '\\' :: 'u' :: '\x7b' :: hexDigits c.toNat ++ ['\x7d']

/-- A character as it stands in a quotation that `mark` closes. The null character, tab, line feed
and carriage return have short escapes; the backslash and the mark are escaped by a backslash;
whatever is invisible or drawn onto its predecessor is written by its code point. -/
def quotedChar (mark c : Char) : List Char :=
  if c = '\x00' then ['\\', '0']
  else if c = '\t' then ['\\', 't']
  else if c = '\r' then ['\\', 'r']
  else if c = '\n' then ['\\', 'n']
  else if c = '\\' then ['\\', '\\']
  else if c = mark then ['\\', mark]
  else if Unicode.extendsGrapheme c then codeEscape c
  else if Unicode.isVisible c then [c]
  else codeEscape c

/-- A text between double quotes. -/
def quote (s : String) : String :=
  String.ofList ('"' :: s.toList.flatMap (quotedChar '"') ++ ['"'])

/-- A character between single quotes. -/
def quoteChar (c : Char) : String :=
  String.ofList ('\'' :: quotedChar '\'' c ++ ['\''])

end Typestrip.Text
