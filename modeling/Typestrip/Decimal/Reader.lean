import Typestrip.Decimal.Notation

/-!
# Reading decimal numbers

`readFloat?` reads a whole text as a floating-point number: an optional sign, digits with or without
a point, an optional exponent, or one of the words for infinity and for a number that is none, in
any case. The result is the floating-point number nearest to the decimal.
-/

namespace Typestrip.Decimal

/-- The digits that a text begins with, and the rest. -/
def takeDigits (cs : List Char) : List Char × List Char :=
  (cs.takeWhile Char.isDigit, cs.dropWhile Char.isDigit)

/-- The number that digits spell, after `n`. -/
def digitsValue (n : Nat) (ds : List Char) : Nat :=
  ds.foldl (fun n d => 10 * n + (d.toNat - '0'.toNat)) n

/-- The floating-point number nearest to `digits · 10 ^ exponent`. Exponents far outside the range of
floating-point numbers are decided without computing the power. -/
def nearestFloat (digits : Nat) (exponent : Int) : Float :=
  let point := exponent + digitCount digits
  if digits = 0 || point < -400 then 0
  else if 400 < point then Float.ofBits 0x7FF0000000000000
  else if 0 ≤ exponent then Float.ofScientific digits false exponent.toNat
  else Float.ofScientific digits true (-exponent).toNat

/-- An exponent after its mark: an optional sign and at least one digit, up to the end. -/
def exponent? : List Char → Option Int
  | '-' :: ds => if ds.isEmpty || !ds.all Char.isDigit then none else some (-digitsValue 0 ds)
  | '+' :: ds => if ds.isEmpty || !ds.all Char.isDigit then none else some (digitsValue 0 ds)
  | ds => if ds.isEmpty || !ds.all Char.isDigit then none else some (digitsValue 0 ds)

/-- A number without a sign. -/
def readUnsigned? (cs : List Char) : Option Float :=
  let lower := cs.map Char.toLower
  if lower = "inf".toList || lower = "infinity".toList then
    some (Float.ofBits 0x7FF0000000000000)
  else if lower = "nan".toList then some (Float.ofBits 0x7FF8000000000000)
  else
    let (whole, rest) := takeDigits cs
    let (fraction, rest) := match rest with
      | '.' :: rest => takeDigits rest
      | rest => ([], rest)
    if whole.isEmpty && fraction.isEmpty then none
    else
      let digits := digitsValue (digitsValue 0 whole) fraction
      match rest with
      | [] => some (nearestFloat digits (-fraction.length))
      | c :: rest =>
        if c = 'e' || c = 'E' then
          (exponent? rest).map fun e => nearestFloat digits (e - fraction.length)
        else none

/-- A number with an optional sign. -/
def readFloat? : List Char → Option Float
  | '-' :: cs => (readUnsigned? cs).map Float.neg
  | '+' :: cs => readUnsigned? cs
  | cs => readUnsigned? cs

end Typestrip.Decimal
