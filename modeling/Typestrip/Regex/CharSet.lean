import Typestrip.Unicode.CaseFolding
import Typestrip.Unicode.Class
import Typestrip.Unicode.Script

/-!
# Sets of characters in patterns

A set is kept as the expression that describes it, and `CharSet.holds` decides membership. The
equations of membership are stated beside the definition, one for each way to form a set.
-/

namespace Typestrip.Regex

/-- A description of a set of characters. -/
inductive CharSet where
  | nothing
  /-- All characters with code points from `lo` to `hi`. -/
  | range (lo hi : Nat)
  | digit
  | space
  | word
  | category (k : Unicode.Category)
  /-- All characters of the script with this index. -/
  | script (index : Nat)
  | union (a b : CharSet)
  | inter (a b : CharSet)
  | complement (a : CharSet)
  /-- All characters that agree up to case with a member of the set. -/
  | ignoringCase (a : CharSet)
  deriving DecidableEq, Repr

namespace CharSet

/-- The set of one character. -/
def single (c : Char) : CharSet := range c.toNat c.toNat

/-- The set of all characters. -/
def any : CharSet := complement nothing

/-- The members of `a` that are not in `b`. -/
def diff (a b : CharSet) : CharSet := inter a (complement b)

/-- The members of exactly one of two sets. -/
def symmetricDiff (a b : CharSet) : CharSet := union (diff a b) (diff b a)

/-- The set or, if asked for, its complement. -/
def negateIf (negated : Bool) (a : CharSet) : CharSet := if negated then complement a else a

/-- Whether a character is a member. -/
def holds : CharSet → Char → Bool
  | nothing, _ => false
  | range lo hi, c => lo ≤ c.toNat && c.toNat ≤ hi
  | digit, c => Unicode.isDigit c
  | space, c => Unicode.isSpace c
  | word, c => Unicode.isWord c
  | category k, c => Unicode.Category.of c == k
  | script index, c => Unicode.Script.of c == index
  | union a b, c => holds a c || holds b c
  | inter a b, c => holds a c && holds b c
  | complement a, c => !holds a c
  | ignoringCase a, c => (Unicode.caseVariants c).any fun n => holds a (Char.ofNat n)

@[simp] theorem holds_nothing (c : Char) : nothing.holds c = false := rfl

@[simp] theorem holds_range (lo hi : Nat) (c : Char) :
    (range lo hi).holds c = (lo ≤ c.toNat && c.toNat ≤ hi) := rfl

@[simp] theorem holds_union (a b : CharSet) (c : Char) :
    (union a b).holds c = (a.holds c || b.holds c) := rfl

@[simp] theorem holds_inter (a b : CharSet) (c : Char) :
    (inter a b).holds c = (a.holds c && b.holds c) := rfl

@[simp] theorem holds_complement (a : CharSet) (c : Char) :
    (complement a).holds c = !a.holds c := rfl

theorem holds_single (d c : Char) : (single d).holds c = (c == d) := by
  rw [single, holds_range, Bool.eq_iff_iff, Bool.and_eq_true, decide_eq_true_eq, decide_eq_true_eq,
    beq_iff_eq, ← Nat.le_antisymm_iff, eq_comm]
  exact Char.toNat_inj

end CharSet

end Typestrip.Regex
