/-!
# Tables of runs

A property that gives every code point a value is kept as its runs: maximal stretches of consecutive
code points with the same value. The written form of a table is, for each run from code point zero
on, the index of the value in letters and the length of the run in digits, left out where it is one.
`Runs.read` reads the written form and `Runs.lookup` finds the value of a code point by bisection.
-/

namespace Typestrip.Unicode

/-- Runs by their first code points, which ascend, with the index of the value of each run. -/
abbrev Runs := Array (Nat × Nat)

namespace Runs

/-- The digit that a letter stands for in base 52. -/
def letterDigit (c : Char) : Nat :=
  if 'a' ≤ c then c.toNat - 'a'.toNat else c.toNat - 'A'.toNat + 26

/-- Reads the runs after the one that begins at `start`. Of that one the index in `letters` letters
and the `length` have been read, as far as they go. -/
def readFrom (letters : Nat) : List Char → (start index letterCount length : Nat) → Runs → Runs
  | [], start, index, _, _, found => found.push (start, index)
  | c :: cs, start, index, letterCount, length, found =>
    if c.isDigit then
      readFrom letters cs start index letterCount (10 * length + (c.toNat - '0'.toNat)) found
    else if letterCount < letters then
      readFrom letters cs start (52 * index + letterDigit c) (letterCount + 1) length found
    else
      readFrom letters cs (start + max length 1) (letterDigit c) 1 0 (found.push (start, index))

/-- Reads a table, broken into lines anywhere, whose indices have the given number of letters. -/
def read (letters : Nat) (written : List String) : Runs :=
  readFrom letters (written.flatMap String.toList) 0 0 0 0 #[]

/-- The place of the last run that starts at or before `n`, if one between `lo` and `hi` does. -/
def place (runs : Runs) (n lo hi : Nat) : Nat :=
  if hi ≤ lo + 1 then lo
  else
    let mid := (lo + hi) / 2
    if (runs.getD mid (0, 0)).1 ≤ n then place runs n mid hi else place runs n lo mid
termination_by hi - lo

/-- The index of the value of a code point. -/
def lookup (runs : Runs) (n : Nat) : Nat := (runs.getD (place runs n 0 runs.size) (0, 0)).2

end Runs

end Typestrip.Unicode
