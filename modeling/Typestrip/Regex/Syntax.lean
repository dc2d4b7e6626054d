import Typestrip.Unicode.Class

/-!
# The syntax of patterns

`Ast.ofSource?` reads the source of a pattern. There is no tree if the source is malformed; which way
it is malformed is not told. The grammar is the usual one, with classes that nest and combine, inline
flags, named groups and counted repetitions, without references back and without assertions on what
lies around a match.

In verbose mode blanks and comments between the parts of a pattern are skipped. The mode belongs to
the reading position, since a flag in the middle of a group switches it on for the rest of the group.
-/

namespace Typestrip.Regex

/-- What a flag letter switches. -/
inductive Flag where
  | ignoreCase | multiLine | dotMatchesBreak | swapGreed | unicode | anyBreak | verbose
  deriving DecidableEq, Repr

/-- The flag of a letter. -/
def Flag.ofLetter? (c : Char) : Option Flag :=
  if c = 'i' then some ignoreCase
  else if c = 'm' then some multiLine
  else if c = 's' then some dotMatchesBreak
  else if c = 'U' then some swapGreed
  else if c = 'u' then some unicode
  else if c = 'R' then some anyBreak
  else if c = 'x' then some verbose
  else none

/-- Flags with the states they are put into. -/
abbrev FlagChanges := List (Flag × Bool)

/-- The state that a flag is put into. -/
def FlagChanges.state? (changes : FlagChanges) (f : Flag) : Option Bool :=
  (changes.find? (·.1 = f)).map (·.2)

/-- The classes that have an escape of one letter. -/
inductive PerlClass where
  | digit | space | word
  deriving DecidableEq, Repr

/-- The conditions on places, before the flags decide on their exact meaning. -/
inductive Assertion where
  | caret | dollar | textStart | textEnd
  | wordBoundary | notWordBoundary | wordStart | wordEnd | wordStartHalf | wordEndHalf
  deriving DecidableEq, Repr

/-- The operators between sets in a class. -/
inductive SetOp where
  | intersection | difference | symmetricDifference
  deriving DecidableEq, Repr

/-- The contents of a class in brackets. -/
inductive ClassAst where
  | empty
  | literal (c : Char)
  | range (first last : Char)
  | ascii (negated : Bool) (name : String)
  | perl (negated : Bool) (k : PerlClass)
  | property (negated : Bool) (name : String)
  | bracketed (negated : Bool) (a : ClassAst)
  | union (items : List ClassAst)
  | binary (op : SetOp) (a b : ClassAst)

/-- The tree of a pattern. -/
inductive Ast where
  | empty
  | flags (changes : FlagChanges)
  /-- A character. `isByte` marks one written by exactly two hexadecimal digits. -/
  | literal (c : Char) (isByte : Bool)
  | dot
  | assertion (a : Assertion)
  | perl (negated : Bool) (k : PerlClass)
  | property (negated : Bool) (name : String)
  | bracketed (negated : Bool) (a : ClassAst)
  | repetition (min : Nat) (max : Option Nat) (greedy : Bool) (a : Ast)
  | group (changes : FlagChanges) (a : Ast)
  | alternation (branches : List Ast)
  | concat (parts : List Ast)

/-- Where the reader stands: the characters to come, whether blanks are skipped, and the names given
to groups so far. -/
structure Cursor where
  rest : List Char
  verbose : Bool
  names : List (List Char)

namespace Cursor

/-- Skips blanks and comments. A comment runs from `#` to the end of the line. -/
def skip (inComment : Bool) : List Char → List Char
  | [] => []
  | c :: cs =>
    if inComment then skip (c ≠ '\n') cs
    else if Unicode.isSpace c then skip false cs
    else if c = '#' then skip true cs
    else c :: cs

/-- Skips blanks and comments in verbose mode. -/
def space (k : Cursor) : Cursor := if k.verbose then { k with rest := skip false k.rest } else k

/-- Steps over one character. -/
def next (k : Cursor) : Cursor := { k with rest := k.rest.tail }

/-- Steps over one character and blanks after it. Fails at the end of the source. -/
def nextPart? (k : Cursor) : Option Cursor :=
  let k := k.next.space
  if k.rest.isEmpty then none else some k

/-- The character to come. -/
def peek? (k : Cursor) : Option Char := k.rest.head?

end Cursor

/-- The value of a hexadecimal digit. -/
def hexValue? (c : Char) : Option Nat :=
  if c.isDigit then some (c.toNat - '0'.toNat)
  else if 'a' ≤ c ∧ c ≤ 'f' then some (c.toNat - 'a'.toNat + 10)
  else if 'A' ≤ c ∧ c ≤ 'F' then some (c.toNat - 'A'.toNat + 10)
  else none

/-- The character of a code point, unless it is a surrogate or too large. -/
def charOfCode? (n : Nat) : Option Char :=
  if h : n.isValidChar then some ⟨n.toUInt32, by
    rcases h with h | ⟨h, h'⟩ <;> simp [UInt32.isValidChar, Nat.isValidChar] <;> omega⟩
  else none

/-- Reads `count` hexadecimal digits. The cursor stands on the first. -/
def readHexDigits (value : Nat) : (count : Nat) → Cursor → Option (Nat × Cursor)
  | 0, k => some (value, k)
  | 1, k => do
    let d ← hexValue? (← k.peek?)
    return (16 * value + d, k.next.space)
  | count + 2, k => do
    let d ← hexValue? (← k.peek?)
    readHexDigits (16 * value + d) (count + 1) (← k.nextPart?)

/-- Reads hexadecimal digits up to a closing brace. The cursor stands before the next digit. -/
def readHexBrace (digits : List Nat) : (fuel : Nat) → Cursor → Option (Nat × Cursor)
  | 0, _ => none
  | fuel + 1, k => do
    let k ← k.nextPart?
    let c ← k.peek?
    if c = '\x7d' then
      if digits.isEmpty then none
      else return (digits.foldr (fun d n => 16 * n + d) 0, k.next.space)
    else readHexBrace ((← hexValue? c) :: digits) fuel k

/-- Reads a character given by code. The cursor stands on the letter after the backslash. The second
component says whether the code has exactly two digits without braces. -/
def readHex (k : Cursor) : Option ((Char × Bool) × Cursor) := do
  let letter ← k.peek?
  let k ← k.nextPart?
  if k.peek? = some '\x7b' then
    let (n, k) ← readHexBrace [] (k.rest.length + 1) k
    return ((← charOfCode? n, false), k)
  else
    let count := if letter = 'x' then 2 else if letter = 'u' then 4 else 8
    let (n, k) ← readHexDigits 0 count k
    return ((← charOfCode? n, letter = 'x'), k)

/-- Reads the name of a property up to a closing brace. -/
def readPropertyBrace (name : List Char) : (fuel : Nat) → Cursor → Option (String × Cursor)
  | 0, _ => none
  | fuel + 1, k => do
    let k ← k.nextPart?
    let c ← k.peek?
    if c = '\x7d' then return (String.ofList name.reverse, k.next)
    else readPropertyBrace (c :: name) fuel k

/-- Reads the name of a property. The cursor stands on the letter after the backslash. -/
def readProperty (k : Cursor) : Option (String × Cursor) := do
  let k ← k.nextPart?
  let c ← k.peek?
  if c = '\x7b' then readPropertyBrace [] (k.rest.length + 1) k
  else if c = '\\' then none
  else return (String.ofList [c], k.next.space)

/-- Characters with a meaning of their own somewhere in a pattern. -/
def metaChars : List Char :=
  ['\\', '.', '+', '*', '?', '(', ')', '|', '[', ']', '\x7b', '\x7d', '^', '$', '#', '&', '-', '~']

/-- Characters that may be escaped without need: those of ASCII that are no letters, digits or angle
brackets. -/
def isEscapable (c : Char) : Bool :=
  metaChars.contains c || (c.toNat < 128 && !c.isAlphanum && c ≠ '<' && c ≠ '>')

/-- The letters of the special word boundaries. -/
def isBoundaryChar (c : Char) : Bool := c.isAlpha || c = '-'

/-- Reads the letters of a special word boundary up to a closing brace. -/
def readBoundaryName (name : List Char) : (fuel : Nat) → Cursor → Option (String × Cursor)
  | 0, _ => none
  | fuel + 1, k => do
    let c ← k.peek?
    if isBoundaryChar c then readBoundaryName (c :: name) fuel k.next.space
    else if c = '\x7d' then return (String.ofList name.reverse, k.next)
    else none

/-- Reads what follows `\b`: a special word boundary in braces, unless the braces hold something else
and so belong to a repetition. -/
def readBoundary (k : Cursor) : Option (Ast × Cursor) :=
  if k.peek? = some '\x7b' then do
    let inside ← k.nextPart?
    if isBoundaryChar (← inside.peek?) then
      let (name, k) ← readBoundaryName [] (inside.rest.length + 1) inside
      if name = "start" then return (.assertion .wordStart, k)
      else if name = "end" then return (.assertion .wordEnd, k)
      else if name = "start-half" then return (.assertion .wordStartHalf, k)
      else if name = "end-half" then return (.assertion .wordEndHalf, k)
      else none
    else return (.assertion .wordBoundary, k)
  else some (.assertion .wordBoundary, k)

/-- Reads an escape. The cursor stands on the backslash. -/
def readEscape (k : Cursor) : Option (Ast × Cursor) := do
  let k := k.next
  let c ← k.peek?
  if c.isDigit then none
  else if c = 'x' ∨ c = 'u' ∨ c = 'U' then
    let ((ch, isByte), k) ← readHex k
    return (.literal ch isByte, k)
  else if c = 'p' ∨ c = 'P' then
    let (name, k) ← readProperty k
    return (.property (c = 'P') name, k)
  else if c = 'd' ∨ c = 'D' then return (.perl (c = 'D') .digit, k.next)
  else if c = 's' ∨ c = 'S' then return (.perl (c = 'S') .space, k.next)
  else if c = 'w' ∨ c = 'W' then return (.perl (c = 'W') .word, k.next)
  else
    let k := k.next
    if isEscapable c then return (.literal c false, k)
    else if c = 'a' then return (.literal '\x07' false, k)
    else if c = 'f' then return (.literal '\x0c' false, k)
    else if c = 't' then return (.literal '\t' false, k)
    else if c = 'n' then return (.literal '\n' false, k)
    else if c = 'r' then return (.literal '\r' false, k)
    else if c = 'v' then return (.literal '\x0b' false, k)
    else if c = 'A' then return (.assertion .textStart, k)
    else if c = 'z' then return (.assertion .textEnd, k)
    else if c = 'b' then readBoundary k
    else if c = 'B' then return (.assertion .notWordBoundary, k)
    else if c = '<' then return (.assertion .wordStart, k)
    else if c = '>' then return (.assertion .wordEnd, k)
    else none

/-! ## Classes -/

/-- The classes of ASCII characters that have a name. -/
def asciiClassNames : List String :=
  ["alnum", "alpha", "ascii", "blank", "cntrl", "digit", "graph", "lower", "print", "punct", "space",
   "upper", "word", "xdigit"]

/-- Reads a named class such as `[:alpha:]` after its opening bracket and colon, if it is one. -/
def readAsciiClass? (cs : List Char) : Option (ClassAst × List Char) :=
  let (negated, cs) := match cs with
    | '^' :: cs => (true, cs)
    | cs => (false, cs)
  let name := String.ofList (cs.takeWhile (· ≠ ':'))
  match cs.dropWhile (· ≠ ':') with
  | ':' :: ']' :: rest =>
    if asciiClassNames.contains name then some (.ascii negated name, rest) else none
  | _ => none

/-- Reads a character or an escape in a class. -/
def readClassItem (k : Cursor) : Option (Ast × Cursor) := do
  let c ← k.peek?
  if c = '\\' then readEscape k else return (.literal c false, k.next)

/-- An item that may stand in a class. -/
def ClassAst.ofItem? : Ast → Option ClassAst
  | .literal c _ => some (.literal c)
  | .perl negated p => some (.perl negated p)
  | .property negated name => some (.property negated name)
  | _ => none

/-- Reads a character, a class escape or a range of characters in a class. -/
def readClassRange (k : Cursor) : Option (ClassAst × Cursor) := do
  let (first, k) ← readClassItem k
  let k := k.space
  let c ← k.peek?
  let following := k.next.space.peek?
  if c ≠ '-' ∨ following = some ']' ∨ following = some '-' then
    return (← ClassAst.ofItem? first, k)
  else
    let (last, k) ← readClassItem (← k.nextPart?)
    match first, last with
    | .literal a _, .literal b _ => if a ≤ b then return (.range a b, k) else none
    | _, _ => none

/-- The union of items, which stand in reverse. -/
def ClassAst.ofItems : List ClassAst → ClassAst
  | [] => .empty
  | [a] => a
  | items => .union items.reverse

/-- Applies a pending operator. -/
def ClassAst.join (pending : Option (SetOp × ClassAst)) (a : ClassAst) : ClassAst :=
  match pending with
  | none => a
  | some (op, left) => .binary op left a

/-- The operator that stands at the beginning of a text. -/
def setOp? : List Char → Option SetOp
  | '&' :: '&' :: _ => some .intersection
  | '-' :: '-' :: _ => some .difference
  | '~' :: '~' :: _ => some .symmetricDifference
  | _ => none

/-- Reads the hyphens at the beginning of a class, each of which stands for itself. -/
def readHyphens (items : List ClassAst) : (fuel : Nat) → Cursor → Option (List ClassAst × Cursor)
  | 0, _ => none
  | fuel + 1, k =>
    if k.peek? = some '-' then do readHyphens (.literal '-' :: items) fuel (← k.nextPart?)
    else some (items, k)

/-- Reads the beginning of a class: its negation, and the hyphens and the closing bracket that stand
for themselves there. The cursor stands on the opening bracket. -/
def openClass (k : Cursor) : Option (Bool × List ClassAst × Cursor) := do
  let k ← k.nextPart?
  let negated := k.peek? = some '^'
  let k ← if negated then k.nextPart? else some k
  let (items, k) ← readHyphens [] (k.rest.length + 1) k
  if items.isEmpty ∧ k.peek? = some ']' then return (negated, [.literal ']'], ← k.nextPart?)
  else return (negated, items, k)

/-- Reads the items of a class up to its closing bracket. -/
def readClassItems (pending : Option (SetOp × ClassAst)) (items : List ClassAst) :
    (fuel : Nat) → Cursor → Option (ClassAst × Cursor)
  | 0, _ => none
  | fuel + 1, k => do
    let k := k.space
    let c ← k.peek?
    match setOp? k.rest with
    | some op =>
      readClassItems (some (op, ClassAst.join pending (ClassAst.ofItems items))) [] fuel k.next.next
    | none =>
      if c = ']' then return (ClassAst.join pending (ClassAst.ofItems items), k.next)
      else if c = '[' then
        let named := match k.rest with
          | _ :: ':' :: cs => readAsciiClass? cs
          | _ => none
        match named with
        | some (a, rest) => readClassItems pending (a :: items) fuel { k with rest }
        | none =>
          let (negated, first, k) ← openClass k
          let (a, k) ← readClassItems none first fuel k
          readClassItems pending (.bracketed negated a :: items) fuel k
      else
        let (a, k) ← readClassRange k
        readClassItems pending (a :: items) fuel k

/-! ## Groups and repetitions -/

/-- Reads flag letters up to `:` or `)`. `negation` is set once a minus sign has been read, and
`dangling` as long as no flag follows it. -/
def readFlags (found : FlagChanges) (negation dangling : Bool) :
    List Char → Option (FlagChanges × List Char)
  | [] => none
  | c :: cs =>
    if c = ':' ∨ c = ')' then if dangling then none else some (found.reverse, c :: cs)
    else if c = '-' then if negation then none else readFlags found true true cs
    else
      match Flag.ofLetter? c with
      | some f =>
        if (found.state? f).isSome then none else readFlags ((f, !negation) :: found) negation false cs
      | none => none

/-- The characters of group names. -/
def isNameChar (isFirst : Bool) (c : Char) : Bool :=
  c = '_' || Unicode.isAlphabetic c ||
    (!isFirst && (c = '.' || c = '[' || c = ']' || (Unicode.Category.of c).isNumber))

/-- Reads the name of a group up to a closing angle bracket. -/
def readName (name : List Char) : List Char → Option (List Char × List Char)
  | [] => none
  | c :: cs =>
    if c = '>' then if name.isEmpty then none else some (name.reverse, cs)
    else if isNameChar name.isEmpty c then readName (c :: name) cs
    else none

/-- What an opening parenthesis introduces: flags for the rest of the group, or a group. -/
inductive Opening where
  | flags (changes : FlagChanges)
  | group (changes : FlagChanges)

/-- Names a group. Fails if the name is taken. -/
def nameGroup (k : Cursor) (cs : List Char) : Option (Opening × Cursor) := do
  let (name, rest) ← readName [] cs
  if k.names.contains name then none
  else return (.group [], { k with rest, names := name :: k.names })

/-- Reads what follows an opening parenthesis. -/
def readOpening (k : Cursor) : Option (Opening × Cursor) :=
  let k := k.next.space
  match k.rest with
  | '?' :: '=' :: _ => none
  | '?' :: '!' :: _ => none
  | '?' :: '<' :: '=' :: _ => none
  | '?' :: '<' :: '!' :: _ => none
  | '?' :: 'P' :: '<' :: cs => nameGroup k cs
  | '?' :: '<' :: cs => nameGroup k cs
  | '?' :: cs =>
    match readFlags [] false false cs with
    | some (changes, ')' :: rest) =>
      if changes.isEmpty then none else some (.flags changes, { k with rest })
    | some (changes, _ :: rest) => some (.group changes, { k with rest })
    | _ => none
  | _ => some (.group [], k)

/-- The largest count of a repetition. -/
def maxCount : Nat := Nat.pow 2 32 - 1

/-- Skips blanks in a count. -/
def Cursor.blanks (k : Cursor) : Cursor := { k with rest := k.rest.dropWhile Unicode.isSpace }

/-- Reads the digits of a count. -/
def readDigits (digits : List Char) : (fuel : Nat) → Cursor → List Char × Cursor
  | 0, k => (digits.reverse, k)
  | fuel + 1, k =>
    match k.peek? with
    | some c => if c.isDigit then readDigits (c :: digits) fuel k.next.space else (digits.reverse, k)
    | none => (digits.reverse, k)

/-- Reads a count of a repetition, with blanks around it. -/
def readCount (k : Cursor) : Option Nat × Cursor :=
  let k := k.blanks
  let (digits, k) := readDigits [] (k.rest.length + 1) k
  let n := digits.foldl (fun n d => 10 * n + (d.toNat - '0'.toNat)) 0
  (if digits.isEmpty ∨ maxCount < n then none else some n, k.blanks.space)

/-- Reads the question mark that makes a repetition reluctant. -/
def readGreed (k : Cursor) : Bool × Cursor :=
  if k.peek? = some '?' then (false, k.next) else (true, k)

/-- Reads the counts of a repetition. The cursor stands on the opening brace. -/
def readCounts (k : Cursor) : Option ((Nat × Option Nat) × Cursor) := do
  let (min, k) := readCount (← k.nextPart?)
  let c ← k.peek?
  let min ← min
  let ((max, k) : Option Nat × Cursor) ←
    if c = ',' then do
      let k ← k.nextPart?
      if k.peek? = some '\x7d' then some (none, k)
      else
        let (max, k) := readCount k
        some (some (← max), k)
    else some (some min, k)
  if k.peek? ≠ some '\x7d' then none
  else if max.any (· < min) then none
  else return ((min, max), k.next.space)

/-- Whether a part of a pattern can be repeated. -/
def Ast.isRepeatable : Ast → Bool
  | .empty | .flags _ => false
  | _ => true

/-- The tree of the parts of a branch, which stand in reverse. -/
def Ast.ofParts : List Ast → Ast
  | [] => .empty
  | [a] => a
  | parts => .concat parts.reverse

/-- The tree of the branches of a group, which stand in reverse. -/
def Ast.ofBranches : List Ast → Ast
  | [] => .empty
  | [a] => a
  | branches => .alternation branches.reverse

/-- Repeats the part read last. -/
def repeatLast (min : Nat) (max : Option Nat) (greedy : Bool) : List Ast → Option (List Ast)
  | [] => none
  | a :: parts => if a.isRepeatable then some (.repetition min max greedy a :: parts) else none

/-- Reads the branches of a group up to its closing parenthesis or the end of the source, which is not
read. `branches` and `parts` have been read already. -/
def readBranches (branches parts : List Ast) : (fuel : Nat) → Cursor → Option (Ast × Cursor)
  | 0, _ => none
  | fuel + 1, k =>
    let k := k.space
    match k.rest with
    | [] => some (Ast.ofBranches (Ast.ofParts parts :: branches), k)
    | ')' :: _ => some (Ast.ofBranches (Ast.ofParts parts :: branches), k)
    | '|' :: _ => readBranches (Ast.ofParts parts :: branches) [] fuel k.next
    | '(' :: _ => do
      match ← readOpening k with
      | (.flags changes, k) =>
        let verbose := (changes.state? .verbose).getD k.verbose
        readBranches branches (.flags changes :: parts) fuel { k with verbose }
      | (.group changes, k) =>
        let verbose := (changes.state? .verbose).getD k.verbose
        let (a, inner) ← readBranches [] [] fuel { k with verbose }
        if inner.peek? = some ')' then
          readBranches branches (.group changes a :: parts) fuel
            { inner.next with verbose := k.verbose }
        else none
    | '[' :: _ => do
      let (negated, items, k) ← openClass k
      let (a, k) ← readClassItems none items (k.rest.length + 1) k
      readBranches branches (.bracketed negated a :: parts) fuel k
    | '?' :: _ => do
      let (greedy, k) := readGreed k.next
      readBranches branches (← repeatLast 0 (some 1) greedy parts) fuel k
    | '*' :: _ => do
      let (greedy, k) := readGreed k.next
      readBranches branches (← repeatLast 0 none greedy parts) fuel k
    | '+' :: _ => do
      let (greedy, k) := readGreed k.next
      readBranches branches (← repeatLast 1 none greedy parts) fuel k
    | '\x7b' :: _ => do
      let ((min, max), k) ← readCounts k
      let (greedy, k) := readGreed k
      readBranches branches (← repeatLast min max greedy parts) fuel k
    | '\\' :: _ => do
      let (a, k) ← readEscape k
      readBranches branches (a :: parts) fuel k
    | '.' :: _ => readBranches branches (.dot :: parts) fuel k.next
    | '^' :: _ => readBranches branches (.assertion .caret :: parts) fuel k.next
    | '$' :: _ => readBranches branches (.assertion .dollar :: parts) fuel k.next
    | c :: _ => readBranches branches (.literal c false :: parts) fuel k.next

/-! ## Whole patterns -/

mutual
/-- How deeply the sets of a class are nested. -/
def ClassAst.depth : ClassAst → Nat
  | .bracketed _ a => a.depth + 1
  | .union items => ClassAst.depths items + 1
  | .binary _ a b => max a.depth b.depth + 1
  | _ => 0

/-- The greatest depth of a set. -/
def ClassAst.depths : List ClassAst → Nat
  | [] => 0
  | a :: as => max a.depth (ClassAst.depths as)
end

mutual
/-- How deeply the parts of a pattern are nested. -/
def Ast.depth : Ast → Nat
  | .bracketed _ a => a.depth + 1
  | .repetition _ _ _ a => a.depth + 1
  | .group _ a => a.depth + 1
  | .alternation branches => Ast.depths branches + 1
  | .concat parts => Ast.depths parts + 1
  | _ => 0

/-- The greatest depth of a part. -/
def Ast.depths : List Ast → Nat
  | [] => 0
  | a :: as => max a.depth (Ast.depths as)
end

/-- The deepest nesting that a pattern may have. -/
def maxNesting : Nat := 250

/-- The tree of a source. -/
def Ast.ofSource? (source : List Char) : Option Ast := do
  let (a, k) ← readBranches [] [] (2 * source.length + 2) ⟨source, false, []⟩
  if k.rest.isEmpty ∧ a.depth ≤ maxNesting then return a else none

end Typestrip.Regex
