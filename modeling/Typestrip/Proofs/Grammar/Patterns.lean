import Typestrip.Grammar.Parser

/-!
# The table of patterns

Compiling looks a pattern up before it reads it. An entry of the table is put there when its source
has been read, and stays as it is, so every entry is what reading its source gives
(`Patterns.Sound`). From such a table on, compiling gives what is said without a table, and leaves
such a table behind (`Compiler.Computes`). For a node that is `Compiler.computes_node`; the rules
follow where their slots are filled.
-/

namespace Typestrip.Grammar

/-- Every entry of a table is what reading its source gives. -/
def Patterns.Sound (patterns : Patterns) : Prop :=
  ∀ source regex, patterns.lookup source = some regex →
    Regex.Expr.ofSource? (anchoredSource source) = some regex

theorem Patterns.sound_nil : Patterns.Sound [] := nofun

/-- A pattern that has been read is put into the table. -/
theorem Patterns.Sound.cons {patterns : Patterns} (h : patterns.Sound) {source : String}
    {regex : Regex.Expr} (hread : Regex.Expr.ofSource? (anchoredSource source) = some regex) :
    Patterns.Sound ((source, regex) :: patterns) := by
  intro other regex' hlookup
  rw [List.lookup_cons] at hlookup
  split at hlookup
  · next heq =>
    obtain rfl := Option.some.inj hlookup
    rw [eq_of_beq heq]
    exact hread
  · exact h other regex' hlookup

namespace Compiler

variable {α β : Type} {x : Compiler α} {y : Except GrammarError α}

/-- With any table of what has been read, `x` does what is said by `y`. -/
def Computes (x : Compiler α) (y : Except GrammarError α) : Prop :=
  ∀ patterns : Patterns, patterns.Sound →
    match y with
    | .ok a => ∃ after : Patterns, x.run patterns = .ok (a, after) ∧ after.Sound
    | .error e => x.run patterns = .error e

theorem computes_pure (a : α) : Computes (pure a) (.ok a) :=
  fun patterns hsound => ⟨patterns, rfl, hsound⟩

theorem Computes.bind (h : Computes x y) {f : α → Compiler β} {g : α → Except GrammarError β}
    (hnext : ∀ a, Computes (f a) (g a)) : Computes (x >>= f) (y >>= g) := by
  intro patterns hsound
  have hx := h patterns hsound
  cases y with
  | error e =>
    show (x >>= f).run patterns = .error e
    rw [StateT.run_bind, hx]
    rfl
  | ok a =>
    obtain ⟨after, hrun, hafter⟩ := hx
    have hrest : (x >>= f).run patterns = (f a).run after := by
      rw [StateT.run_bind, hrun]
      rfl
    rw [hrest]
    exact hnext a after hafter

theorem Computes.map (h : Computes x y) (f : α → β) :
    Computes (do return f (← x)) (y.map f) := by
  have hmap : y.map f = y >>= fun a => .ok (f a) := by cases y <;> rfl
  rw [hmap]
  exact h.bind fun a => computes_pure (f a)

/-- The table does not show in what compiling gives. -/
theorem Computes.run'_eq (h : Computes x y) {patterns : Patterns} (hsound : patterns.Sound) :
    x.run' patterns = y := by
  have hx := h patterns hsound
  cases y with
  | error e =>
    rw [StateT.run'_eq, hx]
    rfl
  | ok a =>
    obtain ⟨after, hrun, -⟩ := hx
    rw [StateT.run'_eq, hrun]
    rfl

theorem computes_pattern (source : String) :
    Computes (pattern source)
      (match Regex.Expr.ofSource? (anchoredSource source) with
        | some regex => .ok regex
        | none => .error (.invalidPattern source)) := by
  intro patterns hsound
  cases hlookup : patterns.lookup source with
  | some regex =>
    -- it has been read before, with the same result
    rw [hsound source regex hlookup]
    refine ⟨patterns, ?_, hsound⟩
    simp only [pattern, StateT.run_bind, StateT.run_get, pure_bind, hlookup]
    rfl
  | none =>
    cases hread : Regex.Expr.ofSource? (anchoredSource source) with
    | some regex =>
      refine ⟨(source, regex) :: patterns, ?_, hsound.cons hread⟩
      simp only [pattern, StateT.run_bind, StateT.run_get, pure_bind, hlookup, hread]
      rfl
    | none =>
      show (pattern source).run patterns = .error (.invalidPattern source)
      simp only [pattern, StateT.run_bind, StateT.run_get, pure_bind, hlookup, hread]
      rfl

variable {r : Registry}

mutual
/-- Compiling a node gives what the node is compiled to. -/
theorem computes_node : ∀ n : Node, Computes (node r n) (n.compile r)
  | .terminal a (.literal text) => computes_pure _
  | .terminal a (.regex source) => by
    have hterminal := (computes_pattern source).map fun regex =>
      Matcher.pattern a regex (Pattern.regex source).describe
    rw [node, Node.compile]
    split
    · next hread =>
      rw [hread] at hterminal
      exact hterminal
    · next hread =>
      rw [hread] at hterminal
      exact hterminal
  | .sequence a ns => by
    rw [node, Node.compile]
    exact (computes_nodes ns).map (Matcher.sequence a)
  | .choice a ns => by
    rw [node, Node.compile]
    exact (computes_nodes ns).map (Matcher.choice a)
  | .repetition a n => by
    rw [node, Node.compile]
    exact (computes_node n).map (Matcher.repetition a)
  | .reference a name => computes_pure _

theorem computes_nodes : ∀ ns : List Node, Computes (nodes r ns) (Node.compileAll r ns)
  | [] => computes_pure _
  | n :: ns => by
    rw [nodes, Node.compileAll]
    exact (computes_node n).bind fun m => (computes_nodes ns).bind fun ms => computes_pure (m :: ms)
end

end Compiler

end Typestrip.Grammar
