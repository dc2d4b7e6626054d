import Typestrip.Proofs.Grammar.Compilation
import Typestrip.Proofs.Text.Utf8

/-!
# Compiling from bytes

The kernel evaluates the bytes of a text faster than its characters. `Node.compileBy` compiles a
node with the characters of all texts taken by a function of their own, and a builder compiles two
roots in one go, so that the rules are compiled once (`Builder.compile_eq_by`). With characters
taken from the bytes this is how checks of a compiled grammar are evaluated.
-/

namespace Typestrip.Utf8

/-- The characters of a text, taken from its bytes if they are all of ASCII. -/
def charsOf (s : String) : List Char :=
  let bytes := s.toUTF8.data.toList
  if bytes.all (· < 0x80) then bytes.map fun b => Char.ofNat b.toNat else s.toList

theorem charsOf_eq : charsOf = String.toList := by
  funext s
  rw [charsOf]
  split
  · next hascii =>
    exact (toList_of_ascii fun b hb => of_decide_eq_true (List.all_eq_true.mp hascii b hb)).symm
  · rfl

end Typestrip.Utf8

namespace Typestrip.Grammar

section

variable (chars : String → List Char) (r : Registry)

mutual
/-- Compiles a node, with the characters of texts taken by a given function. -/
def Node.compileBy : Node → Except GrammarError Matcher
  | .terminal a (.literal text) => .ok (.literal a (chars text) (Pattern.literal text).describe)
  | .terminal a (.regex source) =>
    match Regex.Expr.ofSource? (['\\', 'A', '(', '?', ':'] ++ chars source ++ [')']) with
    | some regex => .ok (.pattern a regex (Pattern.regex source).describe)
    | none => .error (.invalidPattern source)
  | .sequence a children => (Node.compileAllBy children).map (.sequence a)
  | .choice a alternatives => (Node.compileAllBy alternatives).map (.choice a)
  | .repetition a child => (Node.compileBy child).map (.repetition a)
  | .reference a name => .ok (.rule a name (r.lookup name))

/-- Compiles a list of nodes, with the characters of texts taken by a given function. -/
def Node.compileAllBy : List Node → Except GrammarError (List Matcher)
  | [] => .ok []
  | n :: ns => do
    let m ← Node.compileBy n
    return m :: (← Node.compileAllBy ns)
end

/-- The compiled bodies of rules, with the characters of texts taken by a given function. -/
def compileBodiesBy : List (String × Option Node) → Except GrammarError (List (Option Matcher))
  | [] => .ok []
  | (_, none) :: rest => return none :: (← compileBodiesBy rest)
  | (_, some body) :: rest => do
    let m ← body.compileBy chars r
    return some m :: (← compileBodiesBy rest)

end

variable {r : Registry}

mutual
theorem Node.compileBy_toList : ∀ n : Node, n.compileBy String.toList r = n.compile r
  | .terminal _ (.literal _) => rfl
  | .terminal _ (.regex _) => rfl
  | .sequence a ns | .choice a ns => by rw [compileBy, compile, compileAllBy_toList ns]
  | .repetition a n => by rw [compileBy, compile, compileBy_toList n]
  | .reference _ _ => rfl

theorem Node.compileAllBy_toList : ∀ ns : List Node,
    Node.compileAllBy String.toList r ns = Node.compileAll r ns
  | [] => rfl
  | n :: ns => by rw [compileAllBy, compileAll, compileBy_toList n, compileAllBy_toList ns]
end

theorem compileBodiesBy_toList (rules : List (String × Option Node)) :
    compileBodiesBy String.toList r rules = compileBodies r rules := by
  induction rules with
  | nil => rfl
  | cons rule rules ih =>
    obtain ⟨name, body | body⟩ := rule
    · rw [compileBodiesBy, compileBodies, ih]
    · rw [compileBodiesBy, compileBodies, ih, Node.compileBy_toList]

/-- Two roots are compiled with the rules of one builder. -/
theorem Builder.compile_eq_by {b : Builder} (h : b.rejected = []) {α : Type}
    (first second : Node) (pair : Parser → Parser → α) :
    (do return pair (← b.compile first) (← b.compile second)) = do
      let bodies ← compileBodiesBy Utf8.charsOf b.registry b.registry.rules
      return pair ⟨← first.compileBy Utf8.charsOf b.registry, bodies.toArray⟩
        ⟨← second.compileBy Utf8.charsOf b.registry, bodies.toArray⟩ := by
  have hcompile (root : Node) : b.compile root = Parser.compile b.registry root := by
    rw [Builder.compile, h]
  rw [Utf8.charsOf_eq, compileBodiesBy_toList, Node.compileBy_toList, Node.compileBy_toList,
    hcompile, hcompile, Parser.compile_eq, Parser.compile_eq]
  cases compileBodies b.registry b.registry.rules with
  | error e => rfl
  | ok bodies =>
    cases first.compile b.registry <;> cases second.compile b.registry <;> rfl

end Typestrip.Grammar
