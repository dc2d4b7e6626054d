import Typestrip.Decimal.Reader

/-!
# Numbers in JSON

A number is a whole number of at most 64 bits or a floating-point number. `Literal` is a number as it
is spelled, and `Literal.value?` says which number the spelling means.

A spelling without point and exponent is a whole number if it fits into 64 bits. Every other spelling
is a floating-point number, and `-0` is one too, for the sake of its sign. Of its digits, as many are
taken as make a significand of 64 bits; further digits before the point count as powers of ten, and
further digits after it are left out. The significand is then multiplied with or divided by a power
of ten in floating-point arithmetic.
-/

namespace Typestrip.Json

/-- A number: a whole number from `-2 ^ 63` to `2 ^ 64 - 1`, or a floating-point number. -/
inductive Number where
  | int (n : Int)
  | float (x : Float)

/-- The largest unsigned whole number of 64 bits. -/
def maxUnsigned : Nat := Nat.pow 2 64 - 1

/-- A spelled number: digits before the point, after it, and of the exponent. -/
structure Literal where
  negative : Bool
  whole : List Char
  fraction : Option (List Char)
  /-- Whether the exponent is negative, and its digits. -/
  exponent : Option (Bool × List Char)

/-- A significand and the number of digits, of those it was read from, that it has no room for. -/
structure Significand where
  value : Nat
  dropped : Nat

/-- Takes one more digit before the point. Once a digit had no room, none has. -/
def Significand.pushWhole (s : Significand) (d : Char) : Significand :=
  let next := 10 * s.value + (d.toNat - '0'.toNat)
  if s.dropped ≠ 0 ∨ maxUnsigned < next then ⟨s.value, s.dropped + 1⟩ else ⟨next, 0⟩

/-- Takes the digits after the point as far as there is room. The second component counts the digits
taken. -/
def pushFraction (value taken : Nat) : List Char → Nat × Nat
  | [] => (value, taken)
  | d :: ds =>
    let next := 10 * value + (d.toNat - '0'.toNat)
    if maxUnsigned < next then (value, taken) else pushFraction next (taken + 1) ds

/-- The floating-point number nearest to `10 ^ n`. -/
def powerOfTen (n : Nat) : Float := Float.ofScientific 1 false n

/-- Divides by `10 ^ n`, in steps of at most `10 ^ 308`. -/
def divideByPower (x : Float) (n : Nat) : Float :=
  if n ≤ 308 then x / powerOfTen n
  else if x == 0 then x
  else divideByPower (x / powerOfTen 308) (n - 308)
termination_by n

/-- The absolute value `significand · 10 ^ exponent`, unless it is too large for a floating-point
number. -/
def scale? (significand : Nat) (exponent : Int) : Option Float :=
  let x := Float.ofNat significand
  if exponent < 0 then some (divideByPower x (-exponent).toNat)
  else if 308 < exponent then if x == 0 then some x else none
  else
    let y := x * powerOfTen exponent.toNat
    if y.isInf then none else some y

/-- The largest exponent that is computed with. -/
def maxExponent : Nat := Nat.pow 2 31 - 1

/-- The absolute value of a spelled number that is not a whole number of 64 bits. -/
def Literal.magnitude? (l : Literal) (s : Significand) : Option Float :=
  let (value, taken) := pushFraction s.value 0 (l.fraction.getD [])
  let exponent : Int := s.dropped - taken
  match l.exponent with
  | none => scale? value exponent
  | some (negative, digits) =>
    let e := Decimal.digitsValue 0 digits
    if maxExponent < e then if value = 0 ∨ negative then some 0 else none
    else scale? value (if negative then exponent - e else exponent + e)

/-- The number that a spelling means. -/
def Literal.value? (l : Literal) : Option Number :=
  let s := l.whole.foldl Significand.pushWhole ⟨0, 0⟩
  let isWhole := l.fraction.isNone && l.exponent.isNone && s.dropped = 0
  if isWhole && !l.negative then some (.int s.value)
  else if isWhole && s.value ≠ 0 && s.value ≤ Nat.pow 2 63 then some (.int (-s.value))
  else
    (l.magnitude? s).map fun x => .float (if l.negative then x.neg else x)

/-- How floating-point numbers are written: without an exponent if at most sixteen digits stand
before the point and at most four zeros after it, and with `.0` if they are whole. -/
def floatNotation : Decimal.Notation where
  positional := fun point => -5 < point ∧ point ≤ 16
  wholeSuffix := ['.', '0']
  exponentMark := ['e', '+']
  negativeExponentMark := ['e', '-']

/-- The text of a number. A floating-point number that is not finite has none and is written as
`null`. -/
def Number.text : Number → List Char
  | .int n => if n < 0 then '-' :: Nat.toDigits 10 n.natAbs else Nat.toDigits 10 n.natAbs
  | .float x => if x.isFinite then floatNotation.writeFloat x else ['n', 'u', 'l', 'l']

/-- The floating-point number nearest to a number. -/
def Number.toFloat : Number → Float
  | .int n => Float.ofInt n
  | .float x => x

end Typestrip.Json
