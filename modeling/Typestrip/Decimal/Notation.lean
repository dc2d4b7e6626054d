import Typestrip.Decimal.Shortest

/-!
# Written numbers

How the digits of a decimal are laid out as text. A `Notation` collects the choices: where the point
may stand for the number to be written without an exponent, what follows a whole number, and how the
exponent is marked.
-/

namespace Typestrip.Decimal

/-- The choices in writing a finite number. `point` is the place of the decimal point: the number of
digits before it, negative if zeros follow it. -/
structure Notation where
  /-- Whether a number with its point at this place is written without an exponent. -/
  positional : (point : Int) → Bool
  /-- What is added to a whole number that is written without an exponent. -/
  wholeSuffix : List Char
  /-- What stands between the digits and an exponent of at least zero. -/
  exponentMark : List Char
  /-- What stands between the digits and the absolute value of a negative exponent. -/
  negativeExponentMark : List Char

/-- A number of zeros. -/
def zeros (n : Nat) : List Char := List.replicate n '0'

/-- The digits of a decimal with the point at its place. -/
def positionalText (suffix : List Char) (digits : List Char) (exponent : Int) : List Char :=
  let point := exponent + digits.length
  if 0 ≤ exponent then digits ++ zeros exponent.toNat ++ suffix
  else if 0 < point then digits.take point.toNat ++ '.' :: digits.drop point.toNat
  else '0' :: '.' :: zeros (-point).toNat ++ digits

/-- The digits with the point after the first, and the exponent that this asks for. -/
def exponentText (n : Notation) (digits : List Char) (exponent : Int) : List Char :=
  let e := exponent + digits.length - 1
  let leading := digits.take 1
  let rest := digits.drop 1
  leading ++ (if rest.isEmpty then [] else '.' :: rest) ++
    (if 0 ≤ e then n.exponentMark ++ Nat.toDigits 10 e.toNat
     else n.negativeExponentMark ++ Nat.toDigits 10 (-e).toNat)

/-- A decimal in a notation, without a sign. -/
def Notation.write (n : Notation) (d : Decimal) : List Char :=
  let digits := Nat.toDigits 10 d.digits
  if d.digits = 0 || n.positional (d.exponent + digits.length) then
    positionalText n.wholeSuffix digits d.exponent
  else exponentText n digits d.exponent

/-- Whether a floating-point number has its sign bit set. -/
def isNegative (x : Float) : Bool := Nat.pow 2 63 ≤ x.toBits.toNat

/-- A finite number in a notation. The sign of zero is kept. -/
def Notation.writeFloat (n : Notation) (x : Float) : List Char :=
  let digits := n.write (shortest x)
  if isNegative x then '-' :: digits else digits

end Typestrip.Decimal
