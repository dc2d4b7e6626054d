import Typestrip.Regex.CharSet

/-!
# Regular expressions and how they match

An expression describes texts. Matching prefers: of two alternatives the first, and of going on or
stopping in a repetition what its greed says. `Expr.match?` finds the preferred match at the
beginning of a text and `Expr.search?` the first place in a text with a match.

A match is found by carrying an ordered list of threads through the text. A thread is a character set
to be passed next and the expressions to follow; threads stand in order of preference. One that has
nothing left to match is an answer, and threads after it are given up. The list is kept free of
repetitions, so that its length is bounded by the expression and the time by the text.
-/

namespace Typestrip.Regex

/-- A place between two characters of a text. -/
structure Place where
  before : Option Char
  after : Option Char

/-- A condition on a place. Those on words take only ASCII into account if `ascii` is set. -/
inductive Look where
  | textStart
  | textEnd
  | lineStart
  | lineEnd
  /-- Line starts where a carriage return, a line feed or both in this order end a line. -/
  | lineStartAnyBreak
  | lineEndAnyBreak
  | wordBoundary (ascii : Bool)
  | notWordBoundary (ascii : Bool)
  | wordStart (ascii : Bool)
  | wordEnd (ascii : Bool)
  | notAfterWord (ascii : Bool)
  | notBeforeWord (ascii : Bool)
  deriving DecidableEq, Repr

/-- Whether there is a word character. -/
def isWordAt (ascii : Bool) : Option Char → Bool
  | none => false
  | some c => if ascii then c.isAlphanum || c == '_' else Unicode.isWord c

/-- Whether a condition holds at a place. -/
def Look.holds (p : Place) : Look → Bool
  | textStart => p.before.isNone
  | textEnd => p.after.isNone
  | lineStart => p.before.all (· == '\n')
  | lineEnd => p.after.all (· == '\n')
  | lineStartAnyBreak =>
    p.before.all fun c => c == '\n' || (c == '\r' && p.after != some '\n')
  | lineEndAnyBreak =>
    p.after.all fun c => c == '\r' || (c == '\n' && p.before != some '\r')
  | wordBoundary a => isWordAt a p.before != isWordAt a p.after
  | notWordBoundary a => isWordAt a p.before == isWordAt a p.after
  | wordStart a => !isWordAt a p.before && isWordAt a p.after
  | wordEnd a => isWordAt a p.before && !isWordAt a p.after
  | notAfterWord a => !isWordAt a p.before
  | notBeforeWord a => !isWordAt a p.after

/-- A regular expression. -/
inductive Expr where
  | empty
  | chars (s : CharSet)
  | look (l : Look)
  | seq (a b : Expr)
  | alt (a b : Expr)
  /-- Any number of repetitions, as many as possible if `greedy`, else as few as possible. -/
  | star (greedy : Bool) (a : Expr)
  deriving DecidableEq, Repr

/-- An attempt at a match: `accept` is complete, `await s next` has to pass a member of `s` and then
everything in `next`. -/
inductive Thread where
  | accept
  | await (s : CharSet) (next : List Expr)
  deriving DecidableEq, Repr

/-- Two threads or groups of threads in order of preference. -/
def prefer (greedy : Bool) (more fewer : List Thread) : List Thread :=
  if greedy then more ++ fewer else fewer ++ more

/-- The threads of `e` followed by `next`, at a place. `after` gives the threads of `next` alone, to
be used where `e` matches without passing a character; a repetition ends with such a round. -/
def Expr.threads (p : Place) : Expr → (next : List Expr) → (after : Unit → List Thread) →
    List Thread
  | empty, _, after => after ()
  | chars s, next, _ => [.await s next]
  | look l, _, after => if l.holds p then after () else []
  | seq a b, next, after => a.threads p (b :: next) fun _ => b.threads p next after
  | alt a b, next, after => a.threads p next after ++ b.threads p next after
  | star greedy a, next, after =>
    prefer greedy (a.threads p (star greedy a :: next) after) (after ())

/-- The threads of a list of expressions at a place. -/
def threadsOf (p : Place) : List Expr → List Thread
  | [] => [.accept]
  | e :: next => e.threads p next fun _ => threadsOf p next

/-- Drops threads that stand further to the front already. -/
def distinct : List Thread → List Thread
  | [] => []
  | t :: ts => t :: (distinct ts).filter (· ≠ t)

/-- The threads in front of the first complete one, and whether there is a complete one. -/
def untilAccept : List Thread → List Thread × Bool
  | [] => ([], false)
  | .accept :: _ => ([], true)
  | t :: ts =>
    let (front, accepted) := untilAccept ts
    (t :: front, accepted)

/-- The threads after a character, at the place `p` behind it. -/
def pass (c : Char) (p : Place) : List Thread → List Thread
  | [] => []
  | .accept :: ts => pass c p ts
  | .await s next :: ts => if s.holds c then threadsOf p next ++ pass c p ts else pass c p ts

/-- The length of the best match once `count` characters have been passed: a complete thread beats
every match found before, since only threads preferred to those went on. -/
def betterOf (accepted : Bool) (count : Nat) (best : Option Nat) : Option Nat :=
  if accepted then some count else best

/-- Carries threads through a text. `count` characters have been passed, and `best` is the length of
the best match so far, which any thread still going is preferred to. -/
def run (threads : List Thread) (count : Nat) (best : Option Nat) : List Char → Option Nat
  | [] => betterOf (untilAccept (distinct threads)).2 count best
  | c :: rest =>
    let (front, accepted) := untilAccept (distinct threads)
    if front.isEmpty then betterOf accepted count best
    else run (pass c ⟨some c, rest.head?⟩ front) (count + 1) (betterOf accepted count best) rest

/-- The number of characters of the preferred match at the beginning of a text, of which `before` is
the character in front. -/
def Expr.match? (e : Expr) (before : Option Char) (cs : List Char) : Option Nat :=
  run (threadsOf ⟨before, cs.head?⟩ [e]) 0 none cs

/-- Whether an expression matches at the beginning of a text only. -/
def Expr.isAnchored : Expr → Bool
  | look .textStart => true
  | seq a b => a.isAnchored || b.isAnchored
  | alt a b => a.isAnchored && b.isAnchored
  | _ => false

/-- The number of characters up to the end of the first match in a text that is preferred at its
place. `count` characters precede the text, the last of them `before`. -/
def Expr.searchFrom (e : Expr) (before : Option Char) (count : Nat) : List Char → Option Nat
  | [] => (e.match? before []).map (count + ·)
  | c :: rest =>
    match e.match? before (c :: rest) with
    | some n => some (count + n)
    | none => e.searchFrom (some c) (count + 1) rest

/-- The number of characters up to the end of the first match in a text. -/
def Expr.search? (e : Expr) (cs : List Char) : Option Nat :=
  if e.isAnchored then e.match? none cs else e.searchFrom none 0 cs

/-- The expression `a` repeated `n` times. -/
def Expr.times (a : Expr) : Nat → Expr
  | 0 => empty
  | 1 => a
  | n + 1 => seq a (times a n)

/-- At most one `a`. -/
def Expr.optional (greedy : Bool) (a : Expr) : Expr := if greedy then alt a empty else alt empty a

/-- At most `n` times `a`. -/
def Expr.atMost (greedy : Bool) (a : Expr) : Nat → Expr
  | 0 => empty
  | 1 => optional greedy a
  | n + 1 => optional greedy (seq a (atMost greedy a n))

end Typestrip.Regex
