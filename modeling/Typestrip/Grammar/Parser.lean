import Typestrip.Grammar.Builder
import Typestrip.Grammar.Matcher

/-!
# Parsers

`Parser.compile` makes a parser from a registry of rules and a root node, and `Parser.parse` matches
an input with it. A grammar is refused if a rule was given two bodies or if a pattern, wherever it
stands, cannot be read; rules come before the root, in the order of their slots.

Compiling hands on a table of the patterns that have been read, so that each source is read once in
all of a grammar. What a node is compiled to is said without the table (`Node.compile`).
-/

namespace Typestrip.Grammar

/-- What is wrong with a grammar. -/
inductive GrammarError where
  | duplicateRule (name : String)
  | invalidPattern (source : String)
  deriving DecidableEq, Repr

/-- The message for a grammar error. -/
def GrammarError.message : GrammarError → String
  | duplicateRule name => "rule `" ++ name ++ "` is defined more than once"
  | invalidPattern source => s!"invalid pattern /{source}/"

/-- A compiled grammar. -/
structure Parser where
  root : Matcher
  rules : Rules

/-- The source that a pattern is read from: the pattern as a group, tied to the beginning of the
text. -/
def anchoredSource (source : String) : List Char :=
  ['\\', 'A', '(', '?', ':'] ++ source.toList ++ [')']

mutual
/-- What a node is compiled to, with every pattern read by itself. -/
def Node.compile (registry : Registry) : Node → Except GrammarError Matcher
  | .terminal a (.literal text) => .ok (.literal a text.toList (Pattern.literal text).describe)
  | .terminal a (.regex source) =>
    match Regex.Expr.ofSource? (anchoredSource source) with
    | some regex => .ok (.pattern a regex (Pattern.regex source).describe)
    | none => .error (.invalidPattern source)
  | .sequence a children => (Node.compileAll registry children).map (.sequence a)
  | .choice a alternatives => (Node.compileAll registry alternatives).map (.choice a)
  | .repetition a child => (Node.compile registry child).map (.repetition a)
  | .reference a name => .ok (.rule a name (registry.lookup name))

/-- What the nodes of a list are compiled to. -/
def Node.compileAll (registry : Registry) : List Node → Except GrammarError (List Matcher)
  | [] => .ok []
  | n :: ns => do
    let m ← Node.compile registry n
    return m :: (← Node.compileAll registry ns)
end

/-- The patterns that have been read, by their sources. -/
abbrev Patterns := List (String × Regex.Expr)

/-- Compiling with a table of patterns. -/
abbrev Compiler (α : Type) := StateT Patterns (Except GrammarError) α

namespace Compiler

/-- Looks a pattern up by its source, or reads it and puts it into the table. -/
def pattern (source : String) : Compiler Regex.Expr := do
  match (← get).lookup source with
  | some regex => return regex
  | none =>
    match Regex.Expr.ofSource? (anchoredSource source) with
    | some regex =>
      modify ((source, regex) :: ·)
      return regex
    | none => throw (.invalidPattern source)

mutual
/-- Compiles a node. -/
def node (registry : Registry) : Node → Compiler Matcher
  | .terminal a (.literal text) => return .literal a text.toList (Pattern.literal text).describe
  | .terminal a (.regex source) =>
    return .pattern a (← pattern source) (Pattern.regex source).describe
  | .sequence a children => return .sequence a (← nodes registry children)
  | .choice a alternatives => return .choice a (← nodes registry alternatives)
  | .repetition a child => return .repetition a (← node registry child)
  | .reference a name => return .rule a name (registry.lookup name)

/-- Compiles a list of nodes, from left to right. -/
def nodes (registry : Registry) : List Node → Compiler (List Matcher)
  | [] => return []
  | n :: ns => do
    let m ← node registry n
    return m :: (← nodes registry ns)
end

end Compiler

/-- A table with an empty slot for each declared rule. -/
def Rules.placeholders (registry : Registry) : Rules := Array.replicate registry.size none

/-- Fills a slot of a table. There is no table if the slot is filled already. -/
def Rules.install? (rules : Rules) (slot : Nat) (m : Matcher) : Option Rules :=
  match rules[slot]? with
  | some none => some (rules.setIfInBounds slot (some m))
  | _ => none

/-- Compiles the bodies of rules, the first of which has the given slot, and fills their slots. -/
def installBodies (registry : Registry) (slot : Nat) (rules : Rules) :
    List (String × Option Node) → Compiler Rules
  | [] => return rules
  | (_, none) :: rest => installBodies registry (slot + 1) rules rest
  | (name, some body) :: rest => do
    let m ← Compiler.node registry body
    match rules.install? slot m with
    | some rules => installBodies registry (slot + 1) rules rest
    | none => throw (.duplicateRule name)

/-- Compiles the rules of a registry and then a root node. -/
def Compiler.grammar (registry : Registry) (root : Node) : Compiler Parser := do
  let rules ← installBodies registry 0 (.placeholders registry) registry.rules
  return ⟨← Compiler.node registry root, rules⟩

/-- Compiles a root node together with the rules of a registry, with no pattern read before. -/
def Parser.compile (registry : Registry) (root : Node) : Except GrammarError Parser :=
  (Compiler.grammar registry root).run' []

/-- Compiles a root node together with the rules of a builder. -/
def Builder.compile (b : Builder) (root : Node) : Except GrammarError Parser :=
  match b.rejected with
  | name :: _ => .error (.duplicateRule name)
  | [] => Parser.compile b.registry root

/-- How to parse. -/
structure Options where
  /-- Whether all of the input has to match. -/
  matchAll : Bool := false
  /-- Whether matches are remembered. -/
  memoize : Bool := true
  /-- How many rules may be entered inside each other. -/
  maxDepth : Nat := 256

/-- The outcome of a parse with the counters of its memo. -/
structure Parser.Report where
  result : Outcome
  stats : Stats

/-- Turns a match that leaves input over into a failure. -/
def Outcome.requireAll (length : Nat) : Outcome → Outcome
  | .ok s => if s.consumed < length then .error (.leftOver s.consumed) else .ok s
  | .error e => .error e

/-- Matches the root at a position of an input, given by what stands from there on. -/
def Parser.matchAt (p : Parser) (maxDepth : Nat) : Recognizer :=
  p.root.run p.rules (enter p.rules maxDepth maxDepth)

/-- Parses an input and reports the counters of the memo. -/
def Parser.parseDetailed (p : Parser) (options : Options) (input : List Char) : Report :=
  let (outcome, memo) := p.matchAt options.maxDepth 0 input (Memo.empty options.memoize)
  let outcome := if options.matchAll then Outcome.requireAll (Text.width input) outcome else outcome
  ⟨outcome, memo.stats⟩

/-- Parses an input. -/
def Parser.parse (p : Parser) (options : Options) (input : List Char) : Outcome :=
  (p.parseDetailed options input).result

end Typestrip.Grammar
