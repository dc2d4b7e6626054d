/-!
# The shortest decimal of a binary fraction

A finite floating-point number is `m · 2 ^ q`. It is written with the fewest decimal digits that
still read back as the same number, and among those with the ones nearest to it. `shortest` finds
them by exact arithmetic on natural numbers: for one digit, two digits and so on it looks at the two
multiples of the power of ten around the number and takes the first grid on which one of them lies
between the neighbours' midpoints.
-/

namespace Typestrip.Decimal

/-- The number `digits · 10 ^ exponent`. -/
structure Decimal where
  digits : Nat
  exponent : Int
  deriving DecidableEq, Repr

/-- A finite number of at least zero as `significand · 2 ^ exponent`, where `atPower` says that the
next smaller number is nearer than the next larger one. -/
structure Binary where
  significand : Nat
  exponent : Int
  atPower : Bool
  deriving DecidableEq, Repr

/-- The absolute value of a finite floating-point number. -/
def Binary.ofFloat (x : Float) : Binary :=
  let bits := x.toBits.toNat
  let fraction : Nat := bits % Nat.pow 2 52
  let biased : Nat := bits / Nat.pow 2 52 % Nat.pow 2 11
  if biased = 0 then ⟨fraction, -1074, false⟩
  else ⟨Nat.pow 2 52 + fraction, (biased : Int) - 1075, fraction = 0 ∧ 1 < biased⟩

/-- A number in quarters of the unit of the last place, and what rounds to it: everything between
`low` and `high`, the ends included if `closed`. Each is to be multiplied by `2 ^ exponent`. -/
structure Interval where
  low : Nat
  value : Nat
  high : Nat
  closed : Bool
  exponent : Int

/-- The numbers nearer to `b` than to its neighbours. -/
def Binary.interval (b : Binary) : Interval where
  low := 4 * b.significand - if b.atPower then 1 else 2
  value := 4 * b.significand
  high := 4 * b.significand + 2
  closed := b.significand % 2 = 0
  exponent := b.exponent - 2

/-- The interval in units in which the multiples of `10 ^ k` are the multiples of `step`. -/
structure Grid where
  low : Nat
  value : Nat
  high : Nat
  closed : Bool
  step : Nat

/-- Puts the interval and the multiples of `10 ^ k` over a common denominator. -/
def Interval.grid (i : Interval) (k : Int) : Grid :=
  let scale := Nat.pow 2 i.exponent.toNat * Nat.pow 10 (-k).toNat
  { low := i.low * scale
    value := i.value * scale
    high := i.high * scale
    closed := i.closed
    step := Nat.pow 10 k.toNat * Nat.pow 2 (-i.exponent).toNat }

/-- Whether the multiple `g` of the grid's step lies in the interval. -/
def Grid.holds (t : Grid) (g : Nat) : Bool :=
  if t.closed then t.low ≤ g * t.step && g * t.step ≤ t.high
  else t.low < g * t.step && g * t.step < t.high

/-- The multiple of the step in the interval that is nearest to the value: one of the two around it,
the even one if they are equally near. -/
def Grid.nearest? (t : Grid) : Option Nat :=
  let below := t.value / t.step
  let above := below + 1
  let toBelow := t.value - below * t.step
  let toAbove := above * t.step - t.value
  match t.holds below, t.holds above with
  | true, true =>
    some (if toBelow < toAbove then below else if toAbove < toBelow then above
      else if below % 2 = 0 then below else above)
  | true, false => some below
  | false, true => some above
  | false, false => none

/-- The number of decimal digits of `n`. -/
def digitCount (n : Nat) : Nat := (Nat.toDigits 10 n).length

/-- The position of the first decimal digit: the number of digits before the point, or minus the
number of zeros after it. -/
def Interval.firstDigit (i : Interval) : Int :=
  let t := i.grid 0
  let guess : Int := (digitCount t.value : Int) - (digitCount t.step : Int)
  let u := i.grid guess
  if u.value < u.step then guess else guess + 1

/-- Takes trailing zeros off the digits, at most `fuel` of them. -/
def Decimal.strip (d : Decimal) : (fuel : Nat) → Decimal
  | 0 => d
  | fuel + 1 =>
    if d.digits ≠ 0 ∧ d.digits % 10 = 0 then
      Decimal.strip ⟨d.digits / 10, d.exponent + 1⟩ fuel
    else d

/-- Tries grids of `count` digits and more, `tries` of them. -/
def Interval.search (i : Interval) (first : Int) (count : Nat) : (tries : Nat) → Option Decimal
  | 0 => none
  | tries + 1 =>
    let k := first - count
    match (i.grid k).nearest? with
    | some g => some (Decimal.strip ⟨g, k⟩ (count + 1))
    | none => i.search first (count + 1) tries

/-- The shortest decimal that reads back as the absolute value of a finite number. Seventeen digits
always suffice. -/
def shortest (x : Float) : Decimal :=
  let b := Binary.ofFloat x
  if b.significand = 0 then ⟨0, 0⟩
  else
    let i := b.interval
    (i.search i.firstDigit 1 17).getD ⟨0, 0⟩

end Typestrip.Decimal
