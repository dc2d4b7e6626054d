import Typestrip.Proofs.Grammar.Positions
import Typestrip.Proofs.Regex.Groups
import Typestrip.Proofs.Regex.Locality

/-!
# Regular expressions as terminals

A terminal looks for its regular expression from the beginning of the rest of the input on. The source
is put into a group for that, so what is looked for is what the source says only if the source says
something by itself. Then a terminal takes the preferred match at the very beginning of the rest
(`Node.regex_anchored`). A source that is made whole by the group alone can get out of it
(`regex_escaped`).
-/

namespace Typestrip.Regex

/-- A text at the beginning of another one is matched by an expression. -/
def Expr.MatchesFront (e : Expr) (front rest : List Char) : Prop :=
  ∃ back, rest = front ++ back ∧ (front.getLast?, back) ∈ e.ends (none, rest)

variable {e : Expr} {rest : List Char} {n : Nat}

/-- What an expression finds that is tied to the beginning of a text is a match there. -/
theorem Expr.matchesFront_of_search? (h : e.anchored.search? rest = some n) :
    e.MatchesFront (rest.take n) rest := by
  obtain ⟨⟨before, back⟩, hmem, hrest, hlast⟩ := exists_leads_of_search? h
  obtain rfl : before = (rest.take n).getLast? := hlast.trans (Option.or_none ..)
  exact ⟨back, hrest, hmem⟩

/-- If it finds nothing there is no match at the beginning. -/
theorem Expr.ends_of_search?_eq_none (h : e.anchored.search? rest = none) :
    e.ends (none, rest) = [] := by
  rw [anchored, search?_anchored, Option.map_eq_none_iff, List.head?_eq_none_iff] at h
  exact h

end Typestrip.Regex

namespace Typestrip.Grammar

open Regex

variable {r : Registry} {a : Attributes} {source : String} {m : Matcher} {e : Expr}

/-- A terminal whose source is a pattern by itself matches that pattern, tied to the beginning of the
text. -/
theorem Node.compile_regex (hm : Node.compile r (.terminal a (.regex source)) = .ok m)
    (he : Expr.ofSource? source.toList = some e) :
    m = .pattern a e.anchored (Pattern.regex source).describe := by
  rw [compile] at hm
  cases hregex : Expr.ofSource? (anchoredSource source) with
  | none =>
    rw [hregex] at hm
    cases hm
  | some regex =>
    rw [hregex] at hm
    obtain rfl := Expr.ofSource?_grouped he hregex
    exact (Except.ok.inj hm).symm

/-- A terminal succeeds only if its source, as a pattern by itself, matches at the very beginning of
the rest of the input, and what it takes is such a match: the one that is preferred. The only other
success there is that of a nullable terminal that takes nothing because nothing matches. -/
theorem Node.regex_anchored (hm : Node.compile r (.terminal a (.regex source)) = .ok m)
    (he : Expr.ofSource? source.toList = some e) (rules : Rules) (enter : Matcher → Recognizer)
    (pos : Nat) (rest : List Char) (memo : Memo) {s : Success}
    (h : (m.evaluate rules enter pos rest memo).1 = .ok s) :
    (∃ front, e.MatchesFront front rest ∧ e.match? none rest = some front.length ∧
      s = ⟨a.reshaped (.text (String.ofList front)), Text.width front⟩) ∨
    a.nullable = true ∧ e.ends (none, rest) = [] ∧ s = ⟨.null, 0⟩ := by
  obtain rfl := Node.compile_regex hm he
  rw [Matcher.evaluate_pattern] at h
  dsimp only at h
  rw [matchPattern] at h
  cases hfound : e.anchored.search? rest with
  | some n =>
    rw [hfound] at h
    obtain rfl := Except.ok.inj h
    refine .inl ⟨rest.take n, Expr.matchesFront_of_search? hfound, ?_, rfl⟩
    have hle : n ≤ rest.length := Expr.search?_le hfound
    rw [Expr.anchored, Expr.search?_anchored, ← Expr.match?_eq] at hfound
    rw [hfound, List.length_take, Nat.min_eq_left hle]
  | none =>
    rw [hfound, Attributes.recover] at h
    split at h
    · next hnullable =>
      obtain rfl := Except.ok.inj h
      exact .inr ⟨(Bool.and_eq_true_iff.mp hnullable).1, Expr.ends_of_search?_eq_none hfound, rfl⟩
    · cases h

/-- The letter that makes up a line of its own. -/
def lineExpr : Expr := .seq (.look .lineStart) (.seq (.chars (.single 'a')) (.look .lineEnd))

/-- The beginning and the end of a line are looked for, not those of the text. -/
theorem regex_anchored_line : ∃ m, Node.compile {} (.terminal { id := 0 } (.regex "^a$")) = .ok m ∧
    Expr.ofSource? "^a$".toList = some lineExpr ∧
    (m.evaluate #[] (enter #[] 0 0) 0 ['a', '\n', 'b'] .off).1 = .ok ⟨.text "a", 1⟩ ∧
    ∃ front, lineExpr.MatchesFront front ['a', '\n', 'b'] ∧ Text.width front = 1 := by
  have he : Expr.ofSource? "^a$".toList = some lineExpr := rfl
  have hm : Node.compile {} (.terminal { id := 0 } (.regex "^a$")) =
    .ok (.pattern { id := 0 } lineExpr.anchored "/^a$/") := rfl
  have hs : ((Matcher.pattern { id := 0 } lineExpr.anchored "/^a$/").evaluate #[] (enter #[] 0 0) 0
      ['a', '\n', 'b'] .off).1 = .ok ⟨.text "a", 1⟩ := rfl
  refine ⟨_, hm, he, hs, ?_⟩
  rcases Node.regex_anchored hm he #[] (enter #[] 0 0) 0 ['a', '\n', 'b'] .off hs with
    ⟨front, hfront, -, hsuccess⟩ | ⟨-, -, hsuccess⟩
  · exact ⟨front, hfront, (congrArg Success.consumed hsuccess).symm⟩
  · cases congrArg Success.consumed hsuccess

/-- A source that ends the group it is put into and begins another one is no pattern by itself. As a
terminal it is accepted, and finds what it says further on in the input. What it takes begins with a
letter that it does not match anywhere. -/
theorem regex_escaped : ∃ m, Node.compile {} (.terminal { id := 0 } (.regex "a)|(?:b")) = .ok m ∧
    Expr.ofSource? "a)|(?:b".toList = none ∧
    (m.evaluate #[] (enter #[] 0 0) 0 ['x', 'b'] .off).1 = .ok ⟨.text "xb", 2⟩ :=
  ⟨_, rfl, rfl, rfl⟩

end Typestrip.Grammar
