import Typestrip.Regex.Expr
import Typestrip.Regex.Property
import Typestrip.Regex.Syntax

/-!
# From the tree of a pattern to its expression

Flags decide what the parts of a pattern mean: whether letters match in either case, whether `^` and
`$` look at lines, whether a dot passes line breaks, which repetitions are greedy, and whether classes
know all of Unicode. A flag in the middle of a group holds for the rest of the group, later branches
included. `Expr.ofSource?` gives the expression of a source, if the source is a pattern.
-/

namespace Typestrip.Regex

/-- The flags in force. -/
structure Mode where
  ignoreCase : Bool
  multiLine : Bool
  dotMatchesBreak : Bool
  swapGreed : Bool
  unicode : Bool
  anyBreak : Bool

/-- The flags at the beginning of a pattern: `^` and `$` look at lines. -/
def Mode.initial : Mode := ⟨false, true, false, false, true, false⟩

/-- Puts a flag into a state. -/
def Mode.set (m : Mode) (change : Flag × Bool) : Mode :=
  match change with
  | (.ignoreCase, b) => { m with ignoreCase := b }
  | (.multiLine, b) => { m with multiLine := b }
  | (.dotMatchesBreak, b) => { m with dotMatchesBreak := b }
  | (.swapGreed, b) => { m with swapGreed := b }
  | (.unicode, b) => { m with unicode := b }
  | (.anyBreak, b) => { m with anyBreak := b }
  | (.verbose, _) => m

/-- Puts flags into states. -/
def Mode.setAll (m : Mode) (changes : FlagChanges) : Mode := changes.foldl Mode.set m

namespace CharSet

/-- The characters of ASCII. -/
def ascii : CharSet := range 0 127

/-- A union of ranges given by their ends. -/
def ranges (rs : List (Char × Char)) : CharSet :=
  rs.foldr (fun r s => union (range r.1.toNat r.2.toNat) s) nothing

/-- The characters of ASCII in a class with a name. -/
def asciiNamed : String → CharSet
  | "alnum" => ranges [('0', '9'), ('A', 'Z'), ('a', 'z')]
  | "alpha" => ranges [('A', 'Z'), ('a', 'z')]
  | "ascii" => ascii
  | "blank" => ranges [('\t', '\t'), (' ', ' ')]
  | "cntrl" => ranges [('\x00', '\x1f'), ('\x7f', '\x7f')]
  | "digit" => ranges [('0', '9')]
  | "graph" => ranges [('!', '~')]
  | "lower" => ranges [('a', 'z')]
  | "print" => ranges [(' ', '~')]
  | "punct" => ranges [('!', '/'), (':', '@'), ('[', '`'), ('\x7b', '~')]
  | "space" => ranges [('\t', '\r'), (' ', ' ')]
  | "upper" => ranges [('A', 'Z')]
  | "word" => ranges [('0', '9'), ('A', 'Z'), ('_', '_'), ('a', 'z')]
  | _ => ranges [('0', '9'), ('A', 'F'), ('a', 'f')]

/-- Adds the other case of every member, if letters match in either case. -/
def foldIn (m : Mode) (s : CharSet) : CharSet :=
  if !m.ignoreCase then s
  else if m.unicode then ignoringCase s
  else inter ascii (ignoringCase s)

end CharSet

/-- The set of a class with a letter. Without Unicode its complement would hold bytes that are no
characters, and is refused. -/
def PerlClass.set? (m : Mode) (negated : Bool) (k : PerlClass) : Option CharSet :=
  if m.unicode then
    some <| .negateIf negated <| match k with
      | digit => .digit
      | space => .space
      | word => .word
  else if negated then none
  else
    some <| match k with
      | digit => .asciiNamed "digit"
      | space => .asciiNamed "space"
      | word => .asciiNamed "word"

mutual
/-- The set of a class in brackets. -/
def ClassAst.set? (m : Mode) : ClassAst → Option CharSet
  | .empty => some .nothing
  | .literal c => if m.unicode || c.toNat < 128 then some (.single c) else none
  | .range a b => if m.unicode || b.toNat < 128 then some (.range a.toNat b.toNat) else none
  | .ascii negated name =>
    if m.unicode || !negated then some (.negateIf negated (.asciiNamed name)) else none
  | .perl negated k => k.set? m negated
  | .property negated name =>
    if m.unicode then (CharSet.ofProperty? name).map fun s => .negateIf negated (s.foldIn m)
    else none
  | .bracketed negated a =>
    if m.unicode || !negated then (a.set? m).map fun s => .negateIf negated (s.foldIn m) else none
  | .union items => ClassAst.unionSet? m items
  | .binary op a b => do
    let s := (← a.set? m).foldIn m
    let t := (← b.set? m).foldIn m
    return match op with
      | .intersection => .inter s t
      | .difference => .diff s t
      | .symmetricDifference => .symmetricDiff s t

/-- The union of the sets of a list of items. -/
def ClassAst.unionSet? (m : Mode) : List ClassAst → Option CharSet
  | [] => some .nothing
  | [a] => a.set? m
  | a :: as => do
    let s ← a.set? m
    return .union s (← ClassAst.unionSet? m as)
end

/-- The condition of an assertion. -/
def Assertion.look (m : Mode) : Assertion → Look
  | caret =>
    if m.multiLine then if m.anyBreak then .lineStartAnyBreak else .lineStart else .textStart
  | dollar => if m.multiLine then if m.anyBreak then .lineEndAnyBreak else .lineEnd else .textEnd
  | textStart => .textStart
  | textEnd => .textEnd
  | wordBoundary => .wordBoundary !m.unicode
  | notWordBoundary => .notWordBoundary !m.unicode
  | wordStart => .wordStart !m.unicode
  | wordEnd => .wordEnd !m.unicode
  | wordStartHalf => .notAfterWord !m.unicode
  | wordEndHalf => .notBeforeWord !m.unicode

/-- The characters that a dot passes. -/
def dotSet (m : Mode) : CharSet :=
  if m.dotMatchesBreak then .any
  else if m.anyBreak then .complement (.union (.single '\n') (.single '\r'))
  else .complement (.single '\n')

/-- A repetition. -/
def Expr.repetition (min : Nat) (max : Option Nat) (greedy : Bool) (a : Expr) : Expr :=
  match min, max with
  | 0, none => .star greedy a
  | min, none => .seq (a.times min) (.star greedy a)
  | 0, some max => a.atMost greedy max
  | min, some max => if max ≤ min then a.times min else .seq (a.times min) (a.atMost greedy (max - min))

/-- The room that a pattern may take, in units of a state that passes one byte. -/
def maxSize : Nat := 327680

/-- The room that a class with a letter takes: its members' UTF-8 forms have to be told apart. -/
def PerlClass.size : PerlClass → Nat
  | digit => 150
  | space => 40
  | word => 1500

mutual
/-- The room that the contents of a class take. -/
def ClassAst.size : ClassAst → Nat
  | .perl _ k => k.size
  | .property _ _ => 1000
  | .bracketed _ a => a.size + 10
  | .union items => ClassAst.sizes items
  | .binary _ a b => a.size + b.size
  | _ => 1

/-- The room that the items of a class take. -/
def ClassAst.sizes : List ClassAst → Nat
  | [] => 0
  | a :: as => a.size + ClassAst.sizes as
end

mutual
/-- The room that a pattern takes once its counted repetitions are written out. -/
def Ast.size : Ast → Nat
  | .literal c _ => c.utf8Size
  | .dot => 15
  | .perl _ k => k.size
  | .property _ _ => 1000
  | .bracketed _ a => a.size
  | .repetition min max _ a => (max.getD (min + 1)) * (a.size + 1)
  | .group _ a => a.size + 2
  | .alternation branches => Ast.sizes branches
  | .concat parts => Ast.sizes parts
  | _ => 1

/-- The room that a list of patterns takes. -/
def Ast.sizes : List Ast → Nat
  | [] => 1
  | a :: as => a.size + Ast.sizes as
end

mutual
/-- The expression of a tree under the flags in force, and the flags in force after it. -/
def Ast.expr? (m : Mode) : Ast → Option (Expr × Mode)
  | .empty => some (.empty, m)
  | .flags changes => some (.empty, m.setAll changes)
  | .literal c isByte =>
    if !m.unicode && isByte && 128 ≤ c.toNat then none
    else if !m.unicode && 128 ≤ c.toNat then some (.chars (.single c), m)
    else some (.chars ((CharSet.single c).foldIn m), m)
  | .dot => if m.unicode then some (.chars (dotSet m), m) else none
  | .assertion a => some (.look (a.look m), m)
  | .perl negated k => (k.set? m negated).map fun s => (.chars s, m)
  | .property negated name =>
    if m.unicode then
      (CharSet.ofProperty? name).map fun s => (.chars (.negateIf negated (s.foldIn m)), m)
    else none
  | .bracketed negated a =>
    if m.unicode || !negated then
      (a.set? m).map fun s => (.chars (.negateIf negated (s.foldIn m)), m)
    else none
  | .repetition min max greedy a => do
    let (e, m) ← a.expr? m
    return (e.repetition min max (greedy != m.swapGreed), m)
  | .group changes a => do
    let (e, _) ← a.expr? (m.setAll changes)
    return (e, m)
  | .alternation branches => Ast.altExpr? m branches
  | .concat parts => Ast.seqExpr? m parts

/-- The expression of the parts of a branch, one after the other. -/
def Ast.seqExpr? (m : Mode) : List Ast → Option (Expr × Mode)
  | [] => some (.empty, m)
  | [a] => a.expr? m
  | a :: as => do
    let (e, m) ← a.expr? m
    let (f, m) ← Ast.seqExpr? m as
    return (.seq e f, m)

/-- The expression of the branches of a group. -/
def Ast.altExpr? (m : Mode) : List Ast → Option (Expr × Mode)
  | [] => some (.empty, m)
  | [a] => a.expr? m
  | a :: as => do
    let (e, m) ← a.expr? m
    let (f, m) ← Ast.altExpr? m as
    return (.alt e f, m)
end

/-- The expression that a source spells. -/
def Expr.ofSource? (source : List Char) : Option Expr := do
  let a ← Ast.ofSource? source
  if a.size ≤ maxSize then
    let (e, _) ← a.expr? Mode.initial
    return e
  else none

end Typestrip.Regex
