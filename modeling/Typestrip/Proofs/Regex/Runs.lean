import Typestrip.Proofs.Regex.Backtracking

/-!
# What a match leaves of a text

`Expr.rest?` is what the preferred match of an expression at the beginning of a text leaves over. For
the expressions that scanners are made of it has a closed form: a run of characters of a set leaves
what begins with the first character outside the set (`Expr.rest?_run`).
-/

namespace Typestrip.Regex

namespace Expr

/-- What the preferred match at the beginning of a text leaves over. -/
def rest? (e : Expr) (cs : List Char) : Option (List Char) := (e.ends (none, cs)).head?.map (·.2)

/-- An expression that matches at the beginning of a text only. -/
def anchored (e : Expr) : Expr := seq (look .textStart) e

/-- What is found at the beginning of a text ends where the preferred match does. -/
theorem search?_anchored_drop (e : Expr) (cs : List Char) :
    ((anchored e).search? cs).map cs.drop = e.rest? cs := by
  rw [anchored, search?_anchored, Option.map_map, rest?]
  refine Option.map_congr fun y hy => ?_
  obtain ⟨ds, hleads⟩ := exists_leads (List.mem_of_mem_head? hy)
  have hcs : cs = ds ++ y.2 := hleads.1
  show cs.drop (cs.length - y.2.length) = y.2
  rw [hcs, List.length_append, Nat.add_sub_cancel, List.drop_left]

/-! ## Runs -/

/-- The longest run of characters of a set is preferred. -/
theorem head?_ends_run (s : CharSet) (before : Option Char) (cs : List Char) :
    ((star true (chars s)).ends (before, cs)).head?.map (·.2) = some (cs.dropWhile s.holds) := by
  induction cs generalizing before with
  | nil => rfl
  | cons c cs ih =>
    rw [ends_star, List.dropWhile_cons]
    by_cases hc : s.holds c = true
    · have hround : (chars s).ends (before, c :: cs) = [(some c, cs)] := if_pos hc
      simp only [hround, List.flatMap_singleton, List.length_cons, Nat.lt_succ_self, if_true, hc]
      rw [List.head?_append, Option.map_or, ih (some c), Option.some_or]
    · have hround : (chars s).ends (before, c :: cs) = [] := if_neg hc
      rw [hround, if_neg hc]
      rfl

theorem rest?_run (s : CharSet) (cs : List Char) :
    (star true (chars s)).rest? cs = some (cs.dropWhile s.holds) :=
  head?_ends_run s none cs

/-- Behind a character of a set. -/
theorem rest?_chars_seq {s : CharSet} {c : Char} (hc : s.holds c = true) (e : Expr)
    (cs : List Char) :
    (seq (chars s) e).rest? (c :: cs) = (e.ends (some c, cs)).head?.map (·.2) := by
  have hchars : (chars s).ends (none, c :: cs) = [(some c, cs)] := if_pos hc
  rw [rest?, ends, hchars, List.flatMap_singleton]

theorem rest?_chars_seq_of_not {s : CharSet} {c : Char} (hc : s.holds c = false) (e : Expr)
    (cs : List Char) : (seq (chars s) e).rest? (c :: cs) = none := by
  have hchars : (chars s).ends (none, c :: cs) = [] := if_neg (by rw [hc]; exact Bool.false_ne_true)
  rw [rest?, ends, hchars]
  rfl

/-- A run of one character at least. -/
theorem rest?_run_cons {s : CharSet} {c : Char} (hc : s.holds c = true) (cs : List Char) :
    (seq (chars s) (star true (chars s))).rest? (c :: cs) = some (cs.dropWhile s.holds) := by
  rw [rest?_chars_seq hc, head?_ends_run]

/-- Something that may be left out. -/
theorem rest?_or_empty (e : Expr) (cs : List Char) :
    (alt e empty).rest? cs = some ((e.rest? cs).getD cs) := by
  rw [rest?, ends, List.head?_append, rest?]
  cases (e.ends (none, cs)).head? <;> rfl

end Expr

end Typestrip.Regex
