import Typestrip.Proofs.Grammar.Tandem
import Typestrip.Proofs.TypeScript.Dangling
import Typestrip.Proofs.TypeScript.Quotation

/-!
# Comments at the end of a line

A line and the same line with blanks and a comment behind it are read alike up to the end of the line,
if nothing that is opened in the line is closed in the comment and no slash makes the comment something
else (`Apart`). The places of the two texts fall into a few stages (`Stage`): what takes the end of the
line may go on through the blanks, but only the statement that is the comment takes the comment.
-/

namespace Typestrip.TypeScript

open Grammar Regex

/-! ## A line and a comment -/

/-- A comment that ends with its line. -/
def commentLine (c : List Char) : List Char := '/' :: '/' :: (c ++ ['\n'])

/-- Nothing in a line reaches into the comment `c` behind it. -/
structure Apart (t c : List Char) : Prop where
  last : ∃ front d, t = front ++ [d] ∧ Unicode.isSpace d = false
  line : '\n' ∉ t
  slash : '/' ∉ t
  commentBreak : '\n' ∉ c
  /-- A slash in the comment could close a regular expression literal, if an expression could go on. -/
  commentSlash : '/' ∈ c → t.getLast? = some ';'
  quotes : ∀ q ∈ marks, q ∈ t → q ∉ c
  angles : '<' ∈ t → '>' ∉ c
  /-- No bracket of the line is closed in the comment. -/
  closed : ∀ pair ∈ bracketPairs, pair.2 ∈ c → ∀ front rest, t = front ++ pair.1 :: rest →
    ∃ x back, rest = x ++ pair.2 :: back ∧ Balanced x
  /-- No brace closes the head of an interface in the comment. -/
  extended : '{' ∈ c → ¬ "extends".toList <:+: t
  /-- A declaration that is erased ends in the line. -/
  declared : ∀ front rest, t = front ++ "declare".toList ++ rest →
    (∀ d ∈ rest.head?, Unicode.isWord d = false) → ';' ∈ rest ∨ '{' ∈ rest
  typeOnly : ∀ word ∈ ["import", "export"], ∀ front blanks rest, blanks ≠ [] →
    (∀ d ∈ blanks, Unicode.isSpace d = true) →
    t = front ++ word.toList ++ blanks ++ "type".toList ++ rest →
    (∀ d ∈ rest.head?, Unicode.isWord d = false) → ';' ∈ rest
  /-- The line does not end where a statement has to follow. -/
  otherwise : ¬ "else".toList <:+ t
  headed : ∀ word ∈ controlWords, ∀ front blanks x, (∀ d ∈ blanks, Unicode.isSpace d = true) →
    t = front ++ word ++ blanks ++ '(' :: (x ++ [')']) → ¬ Balanced x

/-- Blanks, and it may be the comment. -/
structure Trail (c b y : List Char) : Prop where
  ne : b ≠ []
  blank : ∀ d ∈ b, d = ' ' ∨ d = '\t'
  comment : y = [] ∨ y = commentLine c

/-- The stages of reading a line and what stands behind it. -/
inductive Stage
  /-- In front of the end of the line. -/
  | inside
  /-- The same, behind a word to which a group in parentheses belongs. -/
  | headed
  /-- At the end of the line. -/
  | edge
  /-- Behind the blanks there. -/
  | start
  /-- Behind the first slash of the comment. -/
  | halved
  /-- At the line break behind the comment. -/
  | break_
  /-- At the end of both texts. -/
  | finish
  /-- Anywhere behind the end of the line. -/
  | beyond
  deriving DecidableEq

/-- Where the stages are: `r` is what is left of the line `t`, and `r'` is what is left of the line with
`b` and `y` behind it. -/
def Stage.meets (t b y : List Char) : Stage → List Char → List Char → Prop
  | inside, r, r' => r ≠ [] ∧ r <:+ t ∧ r' = r ++ (b ++ y)
  | headed, r, r' => r ≠ [] ∧ r' = r ++ (b ++ y) ∧ ∃ word ∈ controlWords, ∃ front blanks,
      (∀ d ∈ blanks, Unicode.isSpace d = true) ∧ t = front ++ word ++ blanks ++ r
  | edge, r, r' => r = [] ∧ r' = b ++ y
  | start, r, r' => r = [] ∧ r' = y
  | halved, r, r' => r = [] ∧ '/' :: r' = y
  | break_, r, r' => r = [] ∧ r' = ['\n'] ∧ y ≠ []
  | finish, r, r' => r = [] ∧ r' = []
  | beyond, r, r' => r = [] ∧ ∃ x, x ≠ [] ∧ b ++ y = x ++ r'

variable {t c b y r r' s u w : List Char} {d : Char} {e : Expr} {set : CharSet}

namespace Stage

theorem headed.inside (h : headed.meets t b y r r') : inside.meets t b y r r' := by
  obtain ⟨hr, hr', word, -, front, blanks, -, ht⟩ := h
  exact ⟨hr, ⟨front ++ word ++ blanks, ht.symm⟩, hr'⟩

/-- A suffix of the line lies in front of its end or at it. -/
theorem inside_or_edge (hs : s <:+ t) :
    inside.meets t b y s (s ++ (b ++ y)) ∨ s = [] ∧ edge.meets t b y s (s ++ (b ++ y)) := by
  by_cases h : s = []
  · subst h
    exact .inr ⟨rfl, rfl, rfl⟩
  · exact .inl ⟨h, hs, rfl⟩

end Stage

/-! ## The texts -/

section

variable (K : Trail c b y)

include K

theorem Trail.head : ∃ d b', b ++ y = d :: b' ∧ (d = ' ' ∨ d = '\t') := by
  obtain ⟨d, b', rfl⟩ := List.exists_cons_of_ne_nil K.ne
  exact ⟨d, b' ++ y, rfl, K.blank d List.mem_cons_self⟩

theorem Trail.head_start (hd : d ∈ y.head?) : d = '/' := by
  rcases K.comment with rfl | rfl
  · cases hd
  · exact (Option.some.inj hd).symm

/-- A run that passes blanks but no slash comes to the end of the blanks. -/
theorem Trail.dropWhile {p : Char → Bool} (hspace : p ' ' = true) (htab : p '\t' = true)
    (hslash : p '/' = false) : (b ++ y).dropWhile p = y := by
  have hy : y.dropWhile p = y := dropWhile_of_head fun d hd => by rw [K.head_start hd, hslash]
  rw [List.dropWhile_append_of_pos, hy]
  intro d hd
  rcases K.blank d hd with rfl | rfl
  · exact hspace
  · exact htab

theorem Trail.blank_isSpace (hd : d ∈ b) : Unicode.isSpace d = true := by
  rcases K.blank d hd with rfl | rfl <;> rfl

theorem Trail.dropWhile_isSpace : (b ++ y).dropWhile Unicode.isSpace = y :=
  K.dropWhile (by decide) (by decide) (by decide)

/-- What stands behind the line stands in the comment, blanks, slashes and line breaks apart. -/
theorem Trail.mem_comment (hd : d ∈ b ++ y) (hmark : d ∉ [' ', '\t', '/', '\n']) : d ∈ c := by
  simp only [List.mem_cons, List.not_mem_nil, or_false, not_or] at hmark
  obtain ⟨hspace, htab, hslash, hbreak⟩ := hmark
  rcases List.mem_append.mp hd with hd | hd
  · exact ((K.blank d hd).elim hspace htab).elim
  · rcases K.comment with rfl | rfl
    · cases hd
    · simpa [commentLine, hslash, hbreak] using hd

/-- A text without a slash does not reach into the comment. -/
theorem Trail.prefix_of_slash (hw : '/' ∉ w) (h : w <+: s ++ y) : w <+: s := by
  rcases K.comment with rfl | rfl
  · rwa [List.append_nil] at h
  · obtain ⟨rest, hrest⟩ := h
    obtain ⟨g, rfl, -⟩ := exists_of_word_append hw hrest.symm
    exact List.prefix_append w g

/-- A text that does not end with a blank does not reach into the blanks. -/
theorem Trail.prefix_of_last (hw : '/' ∉ w) (hlast : ∀ d ∈ w.getLast?, d ≠ ' ' ∧ d ≠ '\t')
    (h : w <+: r ++ (b ++ y)) : w <+: r := by
  rw [← List.append_assoc] at h
  obtain ⟨rest, hrest⟩ := K.prefix_of_slash hw h
  rcases List.append_eq_append_iff.mp hrest with ⟨g, rfl, -⟩ | ⟨x, rfl, hx⟩
  · exact List.prefix_append w g
  · rcases List.eq_nil_or_concat x with rfl | ⟨x, d, rfl⟩
    · rw [List.append_nil]
    · obtain ⟨hspace, htab⟩ := hlast d (by simp)
      rcases K.blank d (by simp [hx]) with rfl | rfl
      · exact absurd rfl hspace
      · exact absurd rfl htab

end

section

variable (H : Apart t c)

include H

theorem Apart.ne_nil : t ≠ [] := by
  obtain ⟨front, d, rfl, -⟩ := H.last
  simp

/-- The rest of the line ends in something else than a blank. -/
theorem Apart.exists_last (hr : r ≠ []) (hs : r <:+ t) :
    ∃ front d, r = front ++ [d] ∧ Unicode.isSpace d = false := by
  obtain ⟨front, d, rfl, hd⟩ := H.last
  obtain ⟨x, hx⟩ := hs
  rcases List.eq_nil_or_concat r with rfl | ⟨r, d', rfl⟩
  · exact absurd rfl hr
  · rw [List.concat_eq_append, ← List.append_assoc] at hx
    obtain ⟨-, hd'⟩ := List.append_inj' hx rfl
    exact ⟨r, d', List.concat_eq_append, (List.singleton_inj.mp hd') ▸ hd⟩

/-- Passing blanks, one stays in front of the end of the line. -/
theorem Apart.dropWhile_ne (hr : r ≠ []) (hs : r <:+ t) {p : Char → Bool}
    (hp : ∀ d, p d = true → Unicode.isSpace d = true) : r.dropWhile p ≠ [] := by
  obtain ⟨front, d, rfl, hd⟩ := H.exists_last hr hs
  intro h
  have hall := List.dropWhile_eq_nil_iff.mp h d (by simp)
  rw [hp d hall] at hd
  cases hd

theorem Apart.head_ne_slash (hs : d :: r <:+ t) : d ≠ '/' := by
  rintro rfl
  exact H.slash (hs.mem List.mem_cons_self)

end

/-! ## Patterns -/

def blankRun : Expr := .star true (.chars .space)

def lineBlanks : Expr := .star true (.chars (oneOf [' ', '\t']))

def lineBreak : Expr :=
  .seq lineBlanks (.seq (.alt (char '\r') .empty) (.seq (char '\n') blankRun))

/-- What a class says that it extends. -/
def extendsClause : Expr :=
  spelled "extends".toList (.seq boundary (.star true (.chars (.complement (.single '{')))))

/-- An expression takes no slash and does not end with a blank, and asks for nothing but the ends of
words. -/
def isSteady (e : Expr) : Bool :=
  e.asks (· = .wordBoundary false) && !e.mayEnd ' ' && !e.mayEnd '\t' && !e.mayTake '/'

section

variable (K : Trail c b y)

include K

theorem Trail.bars (h : isSteady e = true) : e.bars (b ++ y) = true := by
  simp only [isSteady, Bool.and_eq_true, Bool.not_eq_true'] at h
  obtain ⟨⟨⟨-, hspace⟩, htab⟩, hslash⟩ := h
  have hy : e.bars y = true := by
    cases y with
    | nil => rfl
    | cons d y =>
      obtain rfl := K.head_start (d := d) rfl
      rw [Expr.bars, hslash]
      rfl
  have hblank := K.blank
  clear K
  induction b with
  | nil => exact hy
  | cons d b ih =>
    obtain ⟨hd, hb⟩ := List.forall_mem_cons.mp hblank
    have hend : e.mayEnd d = false := by
      rcases hd with rfl | rfl
      · exact hspace
      · exact htab
    rw [List.cons_append, Expr.bars, hend, ih hb]
    simp

/-- What ends in front of the blanks. -/
theorem Trail.rest?_append (h : isSteady e = true) (w : List Char) :
    e.rest? (w ++ (b ++ y)) = (e.rest? w).map (· ++ (b ++ y)) := by
  have hbars := K.bars h
  simp only [isSteady, Bool.and_eq_true] at h
  refine Expr.rest?_append_of_asks h.1.1.1 (fun l before hl => ?_) hbars w
  obtain rfl := of_decide_eq_true hl
  obtain ⟨d, b', hz, hd⟩ := K.head
  rw [hz, List.head?_cons, Look.holds, Look.holds]
  rcases hd with rfl | rfl <;> rfl

end

/-- A run of characters of a set. -/
theorem rest?_plus (set : CharSet) (cs : List Char) : (plus (.chars set)).rest? cs =
    if cs.head?.any set.holds then some (cs.dropWhile set.holds) else none := by
  cases cs with
  | nil => rfl
  | cons d cs =>
    rw [List.head?_cons, Option.any_some]
    split
    · next hd => rw [plus, Expr.rest?_run_cons hd, List.dropWhile_cons_of_pos hd]
    · next hd => exact Expr.rest?_chars_seq_of_not (Bool.eq_false_of_not_eq_true hd) _ cs

/-- What is spelled stands at the beginning, or there is no match. -/
theorem ends_spelled (word : List Char) (e : Expr) (before : Option Char) (cs : List Char) :
    (spelled word e).ends (before, word ++ cs) = e.ends (word.getLast?.or before, cs) := by
  induction word generalizing before with
  | nil => rfl
  | cons d word ih =>
    have hchar : (char d).ends (before, d :: (word ++ cs)) = [(some d, word ++ cs)] :=
      if_pos (by simp [CharSet.holds_single])
    show ((char d).ends (before, d :: (word ++ cs))).flatMap (spelled word e).ends = _
    rw [hchar, List.flatMap_singleton, ih, List.getLast?_cons]
    cases word.getLast? <;> rfl

/-- A word, and then everything up to a character. -/
theorem prefers_clause (word : List Char) (hword : ∀ before, isWordAt false (word.getLast?.or before) = true)
    (set : CharSet) (cs : List Char) :
    (spelled word (.seq boundary (.star true (.chars set)))).Prefers (word ++ cs)
      (if cs.head?.any Unicode.isWord then none else some (cs.dropWhile set.holds)) := by
  intro before
  have hholds : (Look.wordBoundary false).holds ⟨word.getLast?.or before, cs.head?⟩ =
      !cs.head?.any Unicode.isWord := by
    rw [Look.holds, hword]
    cases cs.head? <;> simp [isWordAt]
  have hends : boundary.ends (word.getLast?.or before, cs) =
      if cs.head?.any Unicode.isWord then [] else [(word.getLast?.or before, cs)] := by
    show (if (Look.wordBoundary false).holds ⟨word.getLast?.or before, cs.head?⟩ then _ else _) = _
    rw [hholds]
    cases cs.head?.any Unicode.isWord <;> rfl
  rw [ends_spelled, Expr.ends, hends]
  split
  · rfl
  · rw [List.flatMap_singleton, Expr.head?_ends_run]

/-! ## Readings in front of the end of the line -/

section

variable {js : List (Joint Stage)}

/-- What is read of the line with and without what stands behind it. -/
abbrev Reads (t b y : List Char) (js : List (Joint Stage)) (e : Expr) (r r' : List Char) : Prop :=
  Reading.Meets (Stage.meets t b y) js (readPattern (.anchored e) r) (readPattern (.anchored e) r')

/-- An expression that leaves of both texts what stands behind the same part of the line. -/
theorem reads_along (h : e.rest? (r ++ (b ++ y)) = (e.rest? r).map (· ++ (b ++ y)))
    (hq : ∀ x s, r = x ++ s → (∀ d ∈ x, e.mayTake d = true) → e.rest? r = some s →
      ∃ q, .same q ∈ js ∧ q.meets t b y s (s ++ (b ++ y))) :
    Reads t b y js e r (r ++ (b ++ y)) := by
  cases hr : e.rest? r with
  | none =>
    rw [hr] at h
    exact .pattern_failed hr h
  | some s =>
    rw [hr, Option.map_some] at h
    obtain ⟨x, rfl, htake⟩ := exists_text_of_rest? hr
    obtain ⟨q, hj, hmeets⟩ := hq x s rfl htake hr
    rw [List.append_assoc] at h ⊢
    exact .pattern_same hr h hj hmeets

/-- Such an expression comes to a place in front of the end of the line or to its end. -/
theorem reads_append (hs : r <:+ t) (h : e.rest? (r ++ (b ++ y)) = (e.rest? r).map (· ++ (b ++ y)))
    (hinside : .same .inside ∈ js) (hedge : .same .edge ∈ js ∨ e.rest? r ≠ some []) :
    Reads t b y js e r (r ++ (b ++ y)) := by
  refine reads_along h ?_
  rintro x s rfl - hr
  rcases Stage.inside_or_edge (b := b) (y := y) ((List.suffix_append x s).trans hs) with
    hz | ⟨rfl, hz⟩
  · exact ⟨.inside, hinside, hz⟩
  · exact ⟨.edge, hedge.resolve_right (not_not_intro hr), hz⟩

/-- An expression that may come to the end of the line and go on behind it. -/
theorem reads_of_parallel {q : Stage} (hs : r <:+ t)
    (h : e.Parallel (b ++ y) (q.meets t b y []) r) (hinside : .same .inside ∈ js)
    (hq : .apart q ∈ js ∨ e.rest? r ≠ some []) : Reads t b y js e r (r ++ (b ++ y)) := by
  cases h with
  | failed h h' => exact .pattern_failed h.rest? h'.rest?
  | inside hv hsuffix h h' =>
    obtain ⟨x, rfl⟩ := hsuffix
    have h' := h'.rest?
    rw [List.append_assoc] at h' ⊢
    exact .pattern_same h.rest? h' hinside ⟨hv, (List.suffix_append x _).trans hs, rfl⟩
  | past h hw h' =>
    exact .pattern_apart h.rest? h'.rest? (hq.resolve_right (not_not_intro h.rest?)) hw

/-- A clause takes what stands in front of a character, of which one comes in the line. -/
theorem reads_cut (hs : r <:+ t) (hask : e.asks (· = .wordBoundary false) = true)
    (hmark : ∀ z s, z ∈ [[], b ++ y] → e.rest? (r ++ z) = some s →
      ∃ m ∈ r, e.mayTake m = false ∧ Unicode.isWord m = false)
    (hinside : .same .inside ∈ js) : Reads t b y js e r (r ++ (b ++ y)) := by
  by_cases h : ∃ m ∈ r, e.mayTake m = false ∧ Unicode.isWord m = false
  · obtain ⟨m, hm, htake, hword⟩ := h
    obtain ⟨u, v, rfl⟩ := List.append_of_mem hm
    -- the clause ends in front of the character, whatever stands behind it
    have hcut (v : List Char) : e.rest? (u ++ m :: v) = (e.rest? u).map (· ++ m :: v) := by
      refine Expr.rest?_append_of_asks hask (fun l before hl => ?_) ?_ u
      · obtain rfl := of_decide_eq_true hl
        simp [Look.holds, isWordAt, hword]
      · rw [Expr.bars, htake]
        rfl
    refine reads_append hs ?_ hinside (.inr ?_)
    · rw [List.append_assoc, List.cons_append, hcut, hcut, Option.map_map]
      exact Option.map_congr fun x _ => by simp
    · rw [hcut]
      cases e.rest? u <;> simp
  · have hnone {z : List Char} (hz : z ∈ [[], b ++ y]) : e.rest? (r ++ z) = none := by
      by_contra hsome
      obtain ⟨s, hs⟩ := Option.ne_none_iff_exists'.mp hsome
      exact h (hmark z s hz hs)
    exact .pattern_failed (List.append_nil r ▸ hnone (by simp)) (hnone (by simp))

/-! ## Patterns that come to the end of the line -/

theorem parallel_plus (set : CharSet) {z u : List Char} (hu : u ≠ []) :
    (plus (.chars set)).Parallel z (· = z.dropWhile set.holds) u :=
  .rounds rfl (fun _ hv _ => Expr.parallel_chars set hv)
    (fun _ hw => ⟨_, rfl, hw ▸ Expr.prefers_run set _⟩) hu

/-- What is spelled out takes just that. -/
theorem prefers_word (word v : List Char) : (chars word).Prefers (word ++ v) (some v) := by
  have hchar (d : Char) (v : List Char) : (char d).Prefers (d :: v) (some v) :=
    Expr.prefers_chars (by simp [CharSet.holds_single]) v
  induction word with
  | nil => exact Expr.prefers_empty v
  | cons d word ih =>
    cases word with
    | nil => exact hchar d v
    | cons d' word => exact (hchar d _).seq ih

theorem word_failed {word : List Char} (h : ¬ word <+: u) : (chars word).Prefers u none := by
  intro before
  rw [Option.map_eq_none_iff, List.head?_eq_none_iff, List.eq_nil_iff_forall_not_mem]
  exact fun s hs => h ⟨_, (leads_of_chars hs).1.symm⟩

section

variable (K : Trail c b y)

include K

theorem Trail.parallel_word {word : List Char} (hword : '/' ∉ word)
    (hlast : ∀ d ∈ word.getLast?, d ≠ ' ' ∧ d ≠ '\t') :
    (chars word).Parallel (b ++ y) (· = b ++ y) u := by
  by_cases h : word <+: u
  · obtain ⟨v, rfl⟩ := h
    by_cases hv : v = []
    · subst hv
      refine .past (prefers_word word []) rfl ?_
      rw [List.append_nil]
      exact prefers_word word _
    · refine .inside hv (List.suffix_append word v) (prefers_word word v) ?_
      rw [List.append_assoc]
      exact prefers_word word _
  · exact .failed (word_failed h) (word_failed fun h' => h (K.prefix_of_last hword hlast h'))

/-- Words go on through the blanks. -/
theorem Trail.prefers_word : (Expr.star true wordPiece).Prefers (b ++ y) (some y) ∧
    wordRun.Prefers (b ++ y) (some y) := by
  have hend : (Expr.star true wordPiece).Prefers y (some y) := by
    rcases K.comment with rfl | rfl
    · exact .stop (Expr.prefers_nil_of_takes rfl)
    · exact .stop (Expr.prefers_of_skips (by decide) _)
  have hblank (d : Char) (hd : d ∈ b) (cs : List Char) : wordPiece.Prefers (d :: cs) (some cs) :=
    .left (Expr.prefers_chars (by rcases K.blank d hd with rfl | rfl <;> decide) cs)
  have hrun : ∀ b' ⊆ b, (Expr.star true wordPiece).Prefers (b' ++ y) (some y) := by
    intro b' hsub
    induction b' with
    | nil => exact hend
    | cons d b' ih =>
      obtain ⟨hd, hsub⟩ := List.cons_subset.mp hsub
      exact (hblank d hd (b' ++ y)).round (Nat.lt_succ_self _) (ih hsub)
  refine ⟨hrun b (List.Subset.refl b), ?_⟩
  obtain ⟨d, b', rfl⟩ := List.exists_cons_of_ne_nil K.ne
  exact (hblank d List.mem_cons_self (b' ++ y)).seq (hrun b' (List.subset_cons_self d b'))

theorem Trail.parallel_wordRun (hu : u ≠ []) : wordRun.Parallel (b ++ y) (· = y) u := by
  refine .rounds rfl (fun v hv _ => (Expr.parallel_chars wordSet hv).alt
    ((K.parallel_word (by decide) (by simp)).alt (K.parallel_word (by decide) (by simp)))) ?_ hu
  rintro _ rfl
  exact ⟨y, rfl, K.prefers_word.1⟩

theorem Trail.parallel_leadingBar (hu : u ≠ []) : leadingBar.Parallel (b ++ y) (· = y) u := by
  have hblanks : (Expr.star true (.chars .space)).Prefers (b ++ y) (some y) := by
    have hrun := Expr.prefers_run .space (b ++ y)
    rwa [show (b ++ y).dropWhile CharSet.space.holds = y from K.dropWhile_isSpace] at hrun
  have hbar : (Expr.seq (char '|') (.star true (.chars .space))).Parallel (b ++ y) (· = y) u := by
    refine .seq (Expr.parallel_chars _ hu) rfl (fun v _ _ => (Expr.parallel_run .space v).mono
      fun w hw => hw.trans K.dropWhile_isSpace) (Expr.prefers_run .space []) ?_
    rintro _ rfl
    exact ⟨y, rfl, hblanks⟩
  exact hbar.alt (.inside hu (List.suffix_refl u) (Expr.prefers_empty u) (Expr.prefers_empty _))

end

theorem prefers_layoutRun (hu : '/' ∉ (u.dropWhile Unicode.isSpace).head?) :
    layoutRun.Prefers u (some (u.dropWhile Unicode.isSpace)) := by
  induction u with
  | nil => exact .stop (Expr.prefers_nil_of_takes rfl)
  | cons d u ih =>
    by_cases hd : Unicode.isSpace d = true
    · rw [List.dropWhile_cons_of_pos hd] at hu ⊢
      exact (Expr.Prefers.left (Expr.prefers_chars (s := .space) hd u)).round (Nat.lt_succ_self _) (ih hu)
    · rw [List.dropWhile_cons_of_neg hd] at hu ⊢
      refine .stop (.right (Expr.prefers_of_skips (by simpa [Expr.skips, CharSet.holds] using hd) u)
        (spelled_failed fun h => hu ?_))
      rw [← (List.cons_prefix_cons.mp h).1]
      rfl

theorem prefers_lineComment (hbreak : '\n' ∉ c) : lineComment.Prefers (commentLine c) (some ['\n']) := by
  have hrun : (c ++ ['\n']).dropWhile (CharSet.complement (.single '\n')).holds = ['\n'] := by
    rw [List.dropWhile_append_of_pos]
    · rfl
    · intro d hd
      rw [CharSet.holds_complement, CharSet.holds_single, Bool.not_eq_true', beq_eq_false_iff_ne]
      rintro rfl
      exact hbreak hd
  have htext := Expr.prefers_run (.complement (.single '\n')) (c ++ ['\n'])
  rw [hrun] at htext
  exact .seq (Expr.prefers_chars (by decide) _) (.seq (Expr.prefers_chars (by decide) _) htext)

/-- Blanks and the comment are laid out behind operators. -/
theorem Trail.prefers_layoutRun (K : Trail c b y) (hbreak : '\n' ∉ c) :
    layoutRun.Prefers (b ++ y) (some []) := by
  have hend : layoutRun.Prefers y (some []) := by
    rcases K.comment with rfl | rfl
    · exact .stop (Expr.prefers_nil_of_takes rfl)
    · refine .round (.right (Expr.prefers_of_skips (by decide) _) (prefers_lineComment hbreak))
        (by simp [commentLine]) ?_
      exact TypeScript.prefers_layoutRun (u := ['\n']) (by decide)
  have hall := K.blank
  clear K
  induction b with
  | nil => exact hend
  | cons d b ih =>
    obtain ⟨hd, hb⟩ := List.forall_mem_cons.mp hall
    refine .round (.left (Expr.prefers_chars ?_ _)) (Nat.lt_succ_self _) (ih hb)
    rcases hd with rfl | rfl <;> decide

/-- Operators go on through the blanks and the comment. -/
theorem Trail.parallel_operatorRun (K : Trail c b y) (H : Apart t c) (hu : u ≠ []) (hs : u <:+ t) :
    operatorRun.Parallel (b ++ y) (· = []) u := by
  have hlayout : ∀ v, v ≠ [] → v <:+ t → layoutRun.Parallel (b ++ y) (· = []) v := by
    intro v hv hs
    have hne := H.dropWhile_ne hv hs fun _ hd => hd
    obtain ⟨d, w, hw⟩ := List.exists_cons_of_ne_nil hne
    have hsuffix : v.dropWhile Unicode.isSpace <:+ v := List.dropWhile_suffix _
    have hd : d ≠ '/' := H.head_ne_slash (hw ▸ hsuffix.trans hs)
    have hlong := dropWhile_append_of_ne_nil hne (b ++ y)
    refine .inside hne hsuffix (TypeScript.prefers_layoutRun (by simpa [hw] using hd)) ?_
    rw [← hlong]
    exact TypeScript.prefers_layoutRun (by simpa [hlong, hw] using hd)
  have hround : ∀ v, v ≠ [] → v <:+ u → operatorRound.Parallel (b ++ y) (· = []) v := by
    intro v hv hsuffix
    refine .seq (parallel_plus _ hv) rfl (fun w hw hws => hlayout w hw (hws.trans (hsuffix.trans hs)))
      (.stop (Expr.prefers_nil_of_takes rfl)) ?_
    rintro _ rfl
    refine ⟨[], rfl, ?_⟩
    -- no blank is a mark
    obtain ⟨d, b', hb, hd⟩ := K.head
    have hd : (oneOf operatorMarks).holds d = false := by rcases hd with rfl | rfl <;> decide
    have hstay : (b ++ y).dropWhile (oneOf operatorMarks).holds = b ++ y := by
      rw [hb, List.dropWhile_cons_of_neg (by simp [hd])]
    rw [hstay]
    exact K.prefers_layoutRun H.commentBreak
  refine .rounds rfl hround ?_ hu
  rintro _ rfl
  exact ⟨[], rfl, .stop (Expr.prefers_nil_of_takes rfl)⟩

/-! ## Words, strings and clauses -/

/-- Words to which a group in parentheses belongs. -/
def controlHeads : List Expr := [spelled "if".toList boundary, loopHead]

def otherwiseWord : Expr := spelled "else".toList boundary

theorem exists_of_word {word : List Char} (h : (spelled word boundary).rest? r = some s) :
    r = word ++ s := by
  obtain ⟨z, hz, rfl⟩ := Option.map_eq_some_iff.mp h
  obtain ⟨z', hleads, hz⟩ := exists_of_spelled (List.mem_of_mem_head? hz)
  rw [(eq_of_boundary hz).1]
  exact hleads.1

theorem exists_of_controlHead (he : e ∈ controlHeads) (h : e.rest? r = some s) :
    ∃ word ∈ controlWords, r = word ++ s := by
  simp only [controlHeads, List.mem_cons, List.not_mem_nil, or_false] at he
  rcases he with rfl | rfl
  · exact ⟨"if".toList, by decide, exists_of_word h⟩
  · obtain ⟨z, hz, rfl⟩ := Option.map_eq_some_iff.mp h
    obtain ⟨z', hz', hz⟩ := List.mem_flatMap.mp (List.mem_of_mem_head? hz)
    rw [(eq_of_boundary hz).1]
    rcases List.mem_append.mp hz' with h | h
    · exact ⟨"while".toList, by decide, (leads_of_chars h).1⟩
    · exact ⟨"for".toList, by decide, (leads_of_chars h).1⟩

/-- No string of the line ends in the comment. -/
theorem rest?_string (K : Trail c b y) (H : Apart t c) (hr : r ≠ []) (hs : r <:+ t) :
    string.rest? (r ++ (b ++ y)) = (string.rest? r).map (· ++ (b ++ y)) := by
  cases hshort : string.rest? r with
  | some s => exact string_single.rest?_append rfl hshort _
  | none =>
    cases hlong : string.rest? (r ++ (b ++ y)) with
    | none => rfl
    | some s =>
      exfalso
      obtain ⟨z, hz, -⟩ := Option.map_eq_some_iff.mp hlong
      have hmem := List.mem_of_mem_head? hz
      obtain ⟨x, hx⟩ := Expr.exists_leads hmem
      obtain ⟨mark, hmark, body, -, rfl⟩ := quotation_of_leads hmem hx
      have hsplit : r ++ (b ++ y) = mark :: (body ++ mark :: z.2) := by simpa using hx.1
      by_cases hreach : (b ++ y).length ≤ z.2.length
      · -- the same string stands in the line
        have hfilter : z ∈ (string.ends (Spot.append (b ++ y) (none, r))).filter
            (Expr.reaches (b ++ y)) :=
          List.mem_filter.mpr ⟨hmem, by simpa [Expr.reaches] using hreach⟩
        rw [Expr.ends_append rfl, List.head?_eq_none_iff.mp (Option.map_eq_none_iff.mp hshort)] at hfilter
        cases hfilter
      · -- its last mark stands behind the line
        have hsuffix : mark :: z.2 <:+ r ++ (b ++ y) := by
          rw [hsplit]
          exact (List.suffix_append body _).trans (List.suffix_cons _ _)
        have hbehind : mark ∈ b ++ y :=
          (List.suffix_of_suffix_length_le hsuffix (List.suffix_append r _)
            (by simp at hreach ⊢; omega)).mem List.mem_cons_self
        have hline : mark ∈ t := by
          obtain ⟨d, r, rfl⟩ := List.exists_cons_of_ne_nil hr
          exact hs.mem (by simp [(List.cons.inj hsplit).1])
        have hplain : ∀ mark ∈ marks, mark ∉ [' ', '\t', '/', '\n'] := forall_mem_of_all (by decide)
        exact H.quotes mark hmark hline (K.mem_comment hbehind (hplain mark hmark))

/-- The clause of a class goes on to the end if no brace comes in the line. -/
theorem Trail.parallel_extendsClause (K : Trail c b y) (H : Apart t c) (hs : r <:+ t) :
    extendsClause.Parallel (b ++ y) (· = []) r := by
  by_cases h : "extends".toList <+: r
  · obtain ⟨w, rfl⟩ := h
    have hshort := prefers_clause "extends".toList (fun _ => rfl) (.complement (.single '{')) w
    have hlong := prefers_clause "extends".toList (fun _ => rfl) (.complement (.single '{'))
      (w ++ (b ++ y))
    have hhead : (w ++ (b ++ y)).head?.any Unicode.isWord = w.head?.any Unicode.isWord := by
      obtain ⟨d, b', hb, hd⟩ := K.head
      cases w with
      | nil => rcases hd with rfl | rfl <;> (rw [List.nil_append, hb]; rfl)
      | cons => rfl
    rw [hhead, ← List.append_assoc] at hlong
    by_cases hword : w.head?.any Unicode.isWord = true
    · rw [if_pos hword] at hshort hlong
      exact .failed hshort hlong
    · rw [if_neg hword] at hshort hlong
      by_cases hnil : w.dropWhile (CharSet.complement (.single '{')).holds = []
      · have hnil' : (w ++ (b ++ y)).dropWhile (CharSet.complement (.single '{')).holds = [] := by
          rw [dropWhile_append_of_eq_nil hnil, List.dropWhile_eq_nil_iff]
          intro d hd
          rw [CharSet.holds_complement, CharSet.holds_single, Bool.not_eq_true', beq_eq_false_iff_ne]
          rintro rfl
          exact H.extended (K.mem_comment hd (by decide))
            ((List.prefix_append _ w).isInfix.trans hs.isInfix)
        exact .past (hnil ▸ hshort) rfl (hnil' ▸ hlong)
      · rw [dropWhile_append_of_ne_nil hnil] at hlong
        exact .inside hnil ((List.dropWhile_suffix _).trans (List.suffix_append _ w)) hshort hlong
  · exact .failed (spelled_failed h)
      (spelled_failed fun h' => h (K.prefix_of_last (by decide) (by simp) h'))

/-- A boundary stands in front of the end, or of something that is no word. -/
theorem head_of_boundary {word : List Char} {x z z' : Spot} (hlast : word.getLast?.any Unicode.isWord = true)
    (hword : x.Leads word z) (h : z' ∈ boundary.ends z) : ∀ d ∈ z.2.head?, Unicode.isWord d = false := by
  obtain ⟨c, hc, hisWord⟩ := (Option.any_eq_true _ _).mp hlast
  have hholds := (eq_of_boundary h).2
  have hbefore : z.1 = some c := by rw [hword.2, hc, Option.some_or]
  have hc : isWordAt false (some c) = true := by simpa [isWordAt] using hisWord
  rw [Look.holds, Spot.place, hbefore] at hholds
  simp only [hc] at hholds
  intro d hd
  rw [hd] at hholds
  simpa [isWordAt] using hholds

theorem exists_of_ambientHead (h : ambientHead.rest? r = some s) :
    ∃ front rest, r = front ++ "declare".toList ++ rest ∧ '/' ∉ front ∧
      ∀ d ∈ rest.head?, Unicode.isWord d = false := by
  obtain ⟨z, hz, -⟩ := Option.map_eq_some_iff.mp h
  obtain ⟨z₁, hz₁, hz⟩ := List.mem_flatMap.mp (List.mem_of_mem_head? hz)
  obtain ⟨z₂, hz₂, hz⟩ := exists_of_spelled hz
  obtain ⟨z₃, hz₃, -⟩ := List.mem_flatMap.mp hz
  obtain ⟨front, hfront⟩ := Expr.exists_leads hz₁
  refine ⟨front, z₂.2, (hfront.trans hz₂).1, fun hslash => ?_, head_of_boundary rfl hz₂ hz₃⟩
  cases Expr.mayTake_of_mem_ends hz₁ hfront _ hslash

theorem exists_of_typeOnlyHead (h : typeOnlyHead.rest? r = some s) :
    ∃ word ∈ ["import", "export"], ∃ blanks rest, blanks ≠ [] ∧
      (∀ d ∈ blanks, Unicode.isSpace d = true) ∧ r = word.toList ++ blanks ++ "type".toList ++ rest ∧
      ∀ d ∈ rest.head?, Unicode.isWord d = false := by
  obtain ⟨z, hz, -⟩ := Option.map_eq_some_iff.mp h
  obtain ⟨z₁, hz₁, hz⟩ := List.mem_flatMap.mp (List.mem_of_mem_head? hz)
  obtain ⟨z₂, hz₂, hz⟩ := List.mem_flatMap.mp hz
  obtain ⟨z₃, hz₃, hz⟩ := exists_of_spelled hz
  obtain ⟨z₄, hz₄, -⟩ := List.mem_flatMap.mp hz
  obtain ⟨blanks, hblanks⟩ := Expr.exists_leads hz₂
  obtain ⟨word, hword, hz₁⟩ : ∃ word ∈ ["import", "export"], Spot.Leads (none, r) word.toList z₁ := by
    rcases List.mem_append.mp hz₁ with h | h
    · exact ⟨_, by simp, leads_of_chars h⟩
    · exact ⟨_, by simp, leads_of_chars h⟩
  refine ⟨word, hword, blanks, z₃.2, ?_, ?_, ((hz₁.trans hblanks).trans hz₃).1,
    head_of_boundary rfl hz₃ hz₄⟩
  · rintro rfl
    have hlt := Expr.length_lt_of_takes (by decide) hz₂
    rw [hblanks.length] at hlt
    simp at hlt
  · have htake := Expr.mayTake_of_mem_ends hz₂ hblanks
    simpa [plus, Expr.mayTake, CharSet.holds] using htake

section

variable (K : Trail c b y)

include K

/-- What an erased declaration begins with stands in the line, if what stands behind the line is behind
it at all. -/
theorem exists_of_head {head rest z : List Char} (hz : z ∈ [[], b ++ y]) (hslash : '/' ∉ head)
    (hlast : ∀ d ∈ head.getLast?, d ≠ ' ' ∧ d ≠ '\t') (h : r ++ z = head ++ rest)
    (hrest : ∀ d ∈ rest.head?, Unicode.isWord d = false) :
    ∃ g, r = head ++ g ∧ ∀ d ∈ g.head?, Unicode.isWord d = false := by
  have hprefix : head <+: r := by
    simp only [List.mem_cons, List.not_mem_nil, or_false] at hz
    rcases hz with rfl | rfl
    · exact ⟨rest, by rw [← h, List.append_nil]⟩
    · exact K.prefix_of_last hslash hlast ⟨rest, h.symm⟩
  obtain ⟨g, rfl⟩ := hprefix
  refine ⟨g, rfl, fun d hd => hrest d ?_⟩
  rw [List.append_assoc] at h
  rw [← List.append_cancel_left h]
  cases g with
  | nil => cases hd
  | cons => exact hd

variable (H : Apart t c) {js : List (Joint Stage)}

include H

theorem reads_ambientHead (hs : r <:+ t) (hinside : .same .inside ∈ js) :
    Reads t b y js ambientHead r (r ++ (b ++ y)) := by
  refine reads_cut hs (by decide) (fun z s hz h => ?_) hinside
  obtain ⟨front, rest, hr, hfront, hrest⟩ := exists_of_ambientHead h
  obtain ⟨g, rfl, hg⟩ := exists_of_head K hz (by simp [hfront]) (by simp) hr hrest
  obtain ⟨x, rfl⟩ := hs
  rcases H.declared (x ++ front) g (by simp) hg with hmark | hmark
  · exact ⟨';', by simp [hmark], by decide, by decide⟩
  · exact ⟨'{', by simp [hmark], by decide, by decide⟩

theorem reads_typeOnlyHead (hs : r <:+ t) (hinside : .same .inside ∈ js) :
    Reads t b y js typeOnlyHead r (r ++ (b ++ y)) := by
  refine reads_cut hs (by decide) (fun z s hz h => ?_) hinside
  obtain ⟨word, hword, blanks, rest, hne, hblanks, hr, hrest⟩ := exists_of_typeOnlyHead h
  have hslash : '/' ∉ word.toList ++ blanks ++ "type".toList := by
    have hwords : ∀ word ∈ ["import", "export"], '/' ∉ word.toList := by decide
    have hnot : '/' ∉ blanks := fun hmem => by cases hblanks _ hmem
    simp [hwords word hword, hnot]
  obtain ⟨g, rfl, hg⟩ := exists_of_head K hz hslash (by simp) hr hrest
  obtain ⟨x, rfl⟩ := hs
  have hmark := H.typeOnly word hword x blanks g hne hblanks (by simp) hg
  exact ⟨';', by simp [hmark], by decide, by decide⟩

/-- No line break comes behind blanks only. -/
theorem lineBreak_failed {z : List Char} (hz : z ∈ [[], b ++ y]) (hs : r <:+ t) :
    lineBreak.rest? (r ++ z) = none := by
  cases hrest : lineBreak.rest? (r ++ z) with
  | none => rfl
  | some s =>
    exfalso
    obtain ⟨e, he, rfl⟩ := Option.map_eq_some_iff.mp hrest
    have hmem := List.mem_of_mem_head? he
    obtain ⟨x, hx⟩ := Expr.exists_leads hmem
    have hslash : '/' ∉ x := fun hmark => by cases Expr.mayTake_of_mem_ends hmem hx _ hmark
    have hbreak : '\n' ∈ x := by
      obtain ⟨x₁, s₁, x₂, rfl, -, -, hs₂, hx₂⟩ := Expr.exists_of_seq_leads hmem hx
      obtain ⟨x₃, s₃, x₄, rfl, -, -, hs₄, hx₄⟩ := Expr.exists_of_seq_leads hs₂ hx₂
      obtain ⟨x₅, s₅, x₆, rfl, hs₅, hx₅, -, -⟩ := Expr.exists_of_seq_leads hs₄ hx₄
      obtain ⟨d, rfl, hd⟩ := Expr.exists_of_chars_leads hs₅ hx₅
      rw [CharSet.holds_single, beq_iff_eq] at hd
      simp [hd]
    have hprefix : x <+: r ++ b := by
      have hx : x <+: r ++ z := ⟨e.2, hx.1.symm⟩
      simp only [List.mem_cons, List.not_mem_nil, or_false] at hz
      rcases hz with rfl | rfl
      · exact (List.append_nil r ▸ hx).trans (List.prefix_append r b)
      · exact K.prefix_of_slash hslash (List.append_assoc r b y ▸ hx)
    rcases List.mem_append.mp (List.IsPrefix.mem hbreak hprefix) with hmem | hmem
    · exact H.line (hs.mem hmem)
    · rcases K.blank _ hmem with h | h <;> cases h

end

/-! ## How matches of patterns are related -/

/-- Patterns that begin with a slash. -/
def slashPatterns : List Expr := [commentText, Form.blockCommentText, regexLiteral, divisionLead]

theorem skips_of_slashPatterns (he : e ∈ slashPatterns) (hd : d ≠ '/') : e.skips d = true := by
  simp only [slashPatterns, List.mem_cons, List.not_mem_nil, or_false] at he
  rcases he with rfl | rfl | rfl | rfl <;>
    simp [commentText, Form.blockCommentText, regexLiteral, divisionLead, spelled, char, Expr.skips,
      CharSet.holds_single, hd]

/-- How matches may come to the end of the line. If the comment has slashes in it, then the line ends in a
semicolon. -/
def atEnd (slashed : Bool) (e : Expr) (j : Joint Stage) : List (Joint Stage) :=
  if slashed && !e.mayEnd ';' then [] else [j]

/-- How the matches of a pattern are related that begin in front of the end of the line. -/
def insideJoints (slashed : Bool) (e : Expr) : Option (List (Joint Stage)) :=
  if e ∈ controlHeads then some (.same .headed :: atEnd slashed e (.same .edge))
  else if e = otherwiseWord then some [.same .inside]
  else if isSteady e || e = string then some (.same .inside :: atEnd slashed e (.same .edge))
  else if e ∈ [blankRun, plus (.chars .space), lineBlanks, typeOnlyHead, ambientHead] then
    some [.same .inside]
  else if e ∈ lineBreak :: slashPatterns then some []
  else if e ∈ [wordRun, defaultChunk, leadingBar] then
    some (.same .inside :: atEnd slashed e (.apart .start))
  else if e ∈ [chunk, angleChunk] then some [.same .inside, .apart .beyond]
  else if e ∈ [operatorRun, extendsClause] then some [.same .inside, .apart .finish]
  else none

/-- The same at the end of the line. -/
def edgeJoints (e : Expr) : Option (List (Joint Stage)) :=
  if isSteady e then some (if e.takes then [] else [.same .edge])
  else if e ∈ [blankRun, lineBlanks] then some [.apart .start]
  else if e ∈ [plus (.chars .space), wordRun, defaultChunk] then some [.alone .start]
  else if e ∈ [chunk, angleChunk] then some [.alone .beyond]
  else if e = leadingBar then some [.same .edge]
  else if e = lineBreak || (e.takes && e.skips ' ' && e.skips '\t') then some []
  else none

/-- How the matches of a pattern are related. -/
def patternJoints (slashed : Bool) (e : Expr) : Stage → Option (List (Joint Stage))
  | .inside => insideJoints slashed e
  | .headed => if e = blankRun then some [.same .headed] else none
  | .edge => edgeJoints e
  | .start =>
    if e = commentText then some [.alone .break_]
    else if e = divisionLead then some [.alone .halved]
    else if e ∈ [Form.blockCommentText, regexLiteral] || (e.takes && e.skips '/') then some []
    else if e.free && e.shuns '/' then some [.same .start]
    else none
  | .halved =>
    if (!slashed && e ∈ [Form.blockCommentText, regexLiteral]) || (e.takes && e.skips '/') then some []
    else none
  | .break_ => if e = blankRun then some [.apart .finish] else none
  | .finish => some (if e.takes then [] else [.same .finish])
  | .beyond => if e.takes then some [.alone .beyond] else none

/-- With a slash in the comment, what is left of the line ends in a semicolon. -/
theorem Apart.getLast?_eq (H : Apart t c) (hc : '/' ∈ c) (hr : r ≠ []) (hs : r <:+ t) :
    r.getLast? = some ';' := by
  obtain ⟨front, d, rfl, -⟩ := H.exists_last hr hs
  obtain ⟨x, rfl⟩ := hs
  have ht := H.commentSlash hc
  rw [← List.append_assoc, List.getLast?_concat] at ht
  rw [List.getLast?_concat, ht]

/-- A match that comes to the end of the line ends with a semicolon, if the line does. -/
theorem Apart.mem_atEnd_or (H : Apart t c) {slashed : Bool} (hslashed : slashed = decide ('/' ∈ c))
    (hr : r ≠ []) (hs : r <:+ t) (j : Joint Stage) :
    j ∈ atEnd slashed e j ∨ e.rest? r ≠ some [] := by
  unfold atEnd
  split
  · next hif =>
    obtain ⟨hc, hend⟩ := Bool.and_eq_true_iff.mp hif
    refine .inr fun hrest => ?_
    have hlast := H.getLast?_eq (of_decide_eq_true (hslashed ▸ hc)) hr hs
    obtain ⟨z, hz, hnil⟩ := Option.map_eq_some_iff.mp hrest
    have hmem := List.mem_of_mem_head? hz
    obtain ⟨x, hx⟩ := Expr.exists_leads hmem
    have htext : r = x ++ z.2 := hx.1
    rw [hnil, List.append_nil] at htext
    rw [Expr.mayEnd_of_mem_ends hmem hx ';' (htext ▸ hlast)] at hend
    cases hend
  · exact .inl (List.mem_singleton_self j)

/-- What has a match at the end of a text does not have to take something. -/
theorem takes_eq_false {s : List Char} (h : e.rest? [] = some s) : e.takes = false := by
  by_contra htakes
  cases (Expr.prefers_nil_of_takes (Bool.of_not_eq_false htakes)).rest?.symm.trans h

/-- Blanks end in front of the last character of the line. -/
theorem reads_blanks (set : CharSet) (H : Apart t c) (hr : r ≠ []) (hs : r <:+ t)
    (hset : ∀ d, set.holds d = true → Unicode.isSpace d = true) (hblank : (b ++ y).dropWhile set.holds = y)
    (he : e = .star true (.chars set) ∨ e = plus (.chars set)) :
    Reads t b y [.same .inside] e r (r ++ (b ++ y)) := by
  have hstart : ∀ w, w = (b ++ y).dropWhile set.holds → Stage.start.meets t b y [] w :=
    fun w hw => ⟨rfl, hw.trans hblank⟩
  have hne := H.dropWhile_ne hr hs hset
  rcases he with rfl | rfl
  · refine reads_of_parallel hs ((Expr.parallel_run set r).mono hstart) (by simp) (.inr ?_)
    rw [Expr.rest?_run]
    exact fun h => hne (Option.some.inj h)
  · refine reads_of_parallel hs ((parallel_plus set hr).mono hstart) (by simp) (.inr ?_)
    rw [rest?_plus]
    split
    · exact fun h => hne (Option.some.inj h)
    · nofun

section

variable (K : Trail c b y) {js : List (Joint Stage)} {slashed : Bool}

include K

theorem reads_controlHead (he : e ∈ controlHeads) (hs : r <:+ t) (hheaded : .same .headed ∈ js)
    (hedge : .same .edge ∈ js ∨ e.rest? r ≠ some []) : Reads t b y js e r (r ++ (b ++ y)) := by
  have hsteady : ∀ e ∈ controlHeads, isSteady e = true := by decide
  refine reads_along (K.rest?_append (hsteady e he) r) ?_
  rintro x s rfl - h
  obtain ⟨word, hword, hr⟩ := exists_of_controlHead he h
  obtain rfl := List.append_cancel_right hr
  rcases Stage.inside_or_edge (b := b) (y := y) ((List.suffix_append x s).trans hs) with
    ⟨hne, -, -⟩ | ⟨rfl, hz⟩
  · obtain ⟨front, ht⟩ := hs
    exact ⟨.headed, hheaded, hne, rfl, x, hword, front, [], nofun, by simpa using ht.symm⟩
  · exact ⟨.edge, hedge.resolve_right (not_not_intro h), hz⟩

/-- A run through the blanks goes beyond the line. -/
theorem Trail.beyond (hspace : set.holds ' ' = true) (htab : set.holds '\t' = true) :
    Stage.beyond.meets t b y [] ((b ++ y).dropWhile set.holds) := by
  refine ⟨rfl, (b ++ y).takeWhile set.holds, ?_, List.takeWhile_append_dropWhile.symm⟩
  obtain ⟨d, b', hb, hd⟩ := K.head
  rw [hb, List.takeWhile_cons_of_pos (by rcases hd with rfl | rfl <;> assumption)]
  exact List.cons_ne_nil _ _

/-- A run of characters of a set finds the blanks behind the line, but nothing at the end of a text. -/
theorem Trail.rest?_plus (he : e = plus (.chars set)) (hspace : set.holds ' ' = true)
    (htab : set.holds '\t' = true) :
    e.rest? [] = none ∧ e.rest? (b ++ y) = some ((b ++ y).dropWhile set.holds) := by
  subst he
  obtain ⟨d, b', hb, hd⟩ := K.head
  refine ⟨rfl, ?_⟩
  rw [TypeScript.rest?_plus, if_pos]
  rcases hd with rfl | rfl <;> simp [hb, hspace, htab]

theorem Trail.prefers_leadingBar : leadingBar.Prefers (b ++ y) (some (b ++ y)) := by
  obtain ⟨d, b', hb, hd⟩ := K.head
  refine .right (.seq_failed ?_) (Expr.prefers_empty _)
  rw [hb]
  exact Expr.prefers_of_skips (by rcases hd with rfl | rfl <;> decide) b'

variable (H : Apart t c) (hslashed : slashed = decide ('/' ∈ c))

include H

omit H in
/-- What may go on through the blanks behind the line. -/
theorem reads_padded (he : e ∈ [wordRun, defaultChunk, leadingBar]) (hr : r ≠ []) (hs : r <:+ t)
    (hinside : .same .inside ∈ js) (hend : .apart .start ∈ js ∨ e.rest? r ≠ some []) :
    Reads t b y js e r (r ++ (b ++ y)) := by
  have hstart : ∀ w, w = y → Stage.start.meets t b y [] w := fun w hw => ⟨rfl, hw⟩
  simp only [List.mem_cons, List.not_mem_nil, or_false] at he
  rcases he with rfl | rfl | rfl
  · exact reads_of_parallel hs ((K.parallel_wordRun hr).mono hstart) hinside hend
  · refine reads_of_parallel hs ((parallel_plus _ hr).mono fun w hw => hstart w ?_) hinside hend
    rw [hw, K.dropWhile (by decide) (by decide) (by decide)]
  · exact reads_of_parallel hs ((K.parallel_leadingBar hr).mono hstart) hinside hend

/-- What ends in front of the last character of the line. -/
theorem reads_between (he : e ∈ [blankRun, plus (.chars .space), lineBlanks, typeOnlyHead, ambientHead])
    (hr : r ≠ []) (hs : r <:+ t) : Reads t b y [.same .inside] e r (r ++ (b ++ y)) := by
  simp only [List.mem_cons, List.not_mem_nil, or_false] at he
  rcases he with rfl | rfl | rfl | rfl | rfl
  · exact reads_blanks .space H hr hs (fun _ hd => hd) K.dropWhile_isSpace (.inl rfl)
  · exact reads_blanks .space H hr hs (fun _ hd => hd) K.dropWhile_isSpace (.inr rfl)
  · refine reads_blanks (oneOf [' ', '\t']) H hr hs (fun d hd => ?_)
      (K.dropWhile (by decide) (by decide) (by decide)) (.inl rfl)
    rw [holds_oneOf, decide_eq_true_eq] at hd
    simp only [List.mem_cons, List.not_mem_nil, or_false] at hd
    rcases hd with rfl | rfl <;> rfl
  · exact reads_typeOnlyHead K H hs (by simp)
  · exact reads_ambientHead K H hs (by simp)

/-- What has no match in the line, which has neither a line break nor a slash. -/
theorem reads_none (he : e ∈ lineBreak :: slashPatterns) (hr : r ≠ []) (hs : r <:+ t) :
    Reads t b y [] e r (r ++ (b ++ y)) := by
  rcases List.mem_cons.mp he with rfl | he
  · refine .pattern_failed ?_ (lineBreak_failed K H (by simp) hs)
    exact List.append_nil r ▸ lineBreak_failed K H (z := []) (by simp) hs
  · obtain ⟨d, r, rfl⟩ := List.exists_cons_of_ne_nil hr
    have hskips := skips_of_slashPatterns he (H.head_ne_slash hs)
    exact .pattern_failed (Expr.rest?_of_skips hskips r) (Expr.rest?_of_skips hskips _)

include hslashed in
/-- In front of the end of the line, by what the pattern does with the blanks behind it. -/
theorem reads_of_inside (hout : insideJoints slashed e = some js) (hr : r ≠ []) (hs : r <:+ t) :
    Reads t b y js e r (r ++ (b ++ y)) := by
  have hend {j j' : Joint Stage} : j ∈ j' :: atEnd slashed e j ∨ e.rest? r ≠ some [] :=
    (H.mem_atEnd_or hslashed hr hs j).imp_left (List.mem_cons_of_mem _)
  unfold insideJoints at hout
  split at hout
  · next he =>
    obtain rfl := Option.some.inj hout
    exact reads_controlHead K he hs List.mem_cons_self hend
  split at hout
  · next he =>
    subst he
    obtain rfl := Option.some.inj hout
    refine reads_append hs (K.rest?_append (by decide) r) (by simp) (.inr fun h => ?_)
    obtain rfl := exists_of_word h
    -- a branch has to follow this word, so the line does not end with it
    exact H.otherwise (List.append_nil "else".toList ▸ hs)
  split at hout
  · next he =>
    obtain rfl := Option.some.inj hout
    refine reads_append hs ?_ List.mem_cons_self hend
    rcases Bool.or_eq_true_iff.mp he with he | he
    · exact K.rest?_append he r
    · rw [of_decide_eq_true he]
      exact rest?_string K H hr hs
  split at hout
  · next he =>
    obtain rfl := Option.some.inj hout
    exact reads_between K H he hr hs
  split at hout
  · next he =>
    obtain rfl := Option.some.inj hout
    exact reads_none K H he hr hs
  split at hout
  · next he =>
    obtain rfl := Option.some.inj hout
    exact reads_padded K he hr hs List.mem_cons_self hend
  split at hout
  · next he =>
    obtain rfl := Option.some.inj hout
    simp only [List.mem_cons, List.not_mem_nil, or_false] at he
    rcases he with rfl | rfl
    · exact reads_of_parallel hs ((parallel_plus chunkSet hr).mono fun w hw =>
        hw ▸ K.beyond (by decide) (by decide)) (by simp) (.inl (by simp))
    · exact reads_of_parallel hs ((parallel_plus angleChunkSet hr).mono fun w hw =>
        hw ▸ K.beyond (by decide) (by decide)) (by simp) (.inl (by simp))
  split at hout
  · next he =>
    obtain rfl := Option.some.inj hout
    have hfinish : ∀ w, w = [] → Stage.finish.meets t b y [] w := fun w hw => ⟨rfl, hw⟩
    simp only [List.mem_cons, List.not_mem_nil, or_false] at he
    rcases he with rfl | rfl
    · exact reads_of_parallel hs ((K.parallel_operatorRun H hr hs).mono hfinish) (by simp)
        (.inl (by simp))
    · exact reads_of_parallel hs ((K.parallel_extendsClause H hs).mono hfinish) (by simp)
        (.inl (by simp))
  · cases hout

/-- At the end of the line, in front of the blanks. -/
theorem reads_of_edge (hout : edgeJoints e = some js) : Reads t b y js e [] (b ++ y) := by
  -- what fails at the end of a text is read behind it alone
  have halone {q : Stage} {w : List Char} (h : e.rest? [] = none) (h' : e.rest? (b ++ y) = some w)
      (hq : .alone q ∈ js) (hmeets : q.meets t b y [] w) : Reads t b y js e [] (b ++ y) :=
    .pattern_alone h h' hq hmeets
  unfold edgeJoints at hout
  split at hout
  · next he =>
    obtain rfl := Option.some.inj hout
    refine reads_along (r := []) (K.rest?_append he []) ?_
    rintro x s hx - h
    obtain ⟨rfl, rfl⟩ := List.append_eq_nil_iff.mp hx.symm
    exact ⟨.edge, by simp [takes_eq_false h], rfl, rfl⟩
  split at hout
  · next he =>
    obtain rfl := Option.some.inj hout
    have hrun (set : CharSet) (he : e = .star true (.chars set)) (hblank : (b ++ y).dropWhile set.holds = y) :
        Reads t b y [.apart .start] e [] (b ++ y) := by
      subst he
      refine .pattern_apart (Expr.rest?_run set []) (Expr.rest?_run set _) (List.mem_singleton_self _) ?_
      exact ⟨rfl, hblank⟩
    simp only [List.mem_cons, List.not_mem_nil, or_false] at he
    rcases he with he | he
    · exact hrun .space he K.dropWhile_isSpace
    · exact hrun _ he (K.dropWhile (by decide) (by decide) (by decide))
  split at hout
  · next he =>
    obtain rfl := Option.some.inj hout
    simp only [List.mem_cons, List.not_mem_nil, or_false] at he
    rcases he with he | rfl | he
    · obtain ⟨h, h'⟩ := K.rest?_plus he (by decide) (by decide)
      exact halone h h' (List.mem_singleton_self _) ⟨rfl, K.dropWhile_isSpace⟩
    · exact halone (Expr.prefers_nil_of_takes rfl).rest? K.prefers_word.2.rest?
        (List.mem_singleton_self _) ⟨rfl, rfl⟩
    · obtain ⟨h, h'⟩ := K.rest?_plus he (by decide) (by decide)
      exact halone h h' (List.mem_singleton_self _)
        ⟨rfl, K.dropWhile (by decide) (by decide) (by decide)⟩
  split at hout
  · next he =>
    obtain rfl := Option.some.inj hout
    simp only [List.mem_cons, List.not_mem_nil, or_false] at he
    rcases he with he | he
    · obtain ⟨h, h'⟩ := K.rest?_plus he (by decide) (by decide)
      exact halone h h' (List.mem_singleton_self _) (K.beyond (by decide) (by decide))
    · obtain ⟨h, h'⟩ := K.rest?_plus he (by decide) (by decide)
      exact halone h h' (List.mem_singleton_self _) (K.beyond (by decide) (by decide))
  split at hout
  · next he =>
    obtain rfl := Option.some.inj hout
    subst he
    exact .pattern_same (x := []) rfl K.prefers_leadingBar.rest? (List.mem_singleton_self _) ⟨rfl, rfl⟩
  split at hout
  · next he =>
    obtain rfl := Option.some.inj hout
    rcases Bool.or_eq_true_iff.mp he with he | he
    · rw [of_decide_eq_true he]
      exact .pattern_failed rfl (lineBreak_failed K H (r := []) (by simp) (List.nil_suffix))
    · simp only [Bool.and_eq_true] at he
      obtain ⟨d, b', hb, hd⟩ := K.head
      refine .pattern_failed (Expr.prefers_nil_of_takes he.1.1).rest? ?_
      rw [hb]
      refine Expr.rest?_of_skips ?_ b'
      rcases hd with rfl | rfl
      · exact he.1.2
      · exact he.2
  · cases hout

end

/-! ## Patterns at the comment -/

theorem prefers_comment (hbreak : '\n' ∉ c) : commentText.Prefers (commentLine c) (some ['\n']) :=
  .left (prefers_lineComment hbreak)

theorem prefers_divisionLead (cs : List Char) : divisionLead.Prefers ('/' :: '/' :: cs) (some ('/' :: cs)) :=
  .seq (Expr.prefers_chars (by decide) _) (.seq (.right (Expr.prefers_of_skips (by decide) _)
    (Expr.prefers_empty _)) (.seq (Expr.prefers_run .space _) (.stop (Expr.prefers_of_skips (by decide) _))))

theorem takes_of_slashes (he : e ∈ [Form.blockCommentText, regexLiteral]) : e.takes = true := by
  simp only [List.mem_cons, List.not_mem_nil, or_false] at he
  rcases he with rfl | rfl <;> rfl

/-- Neither a block comment nor a regular expression literal begins with two slashes. -/
theorem not_slashes (he : e ∈ [Form.blockCommentText, regexLiteral]) (cs : List Char) :
    e.rest? ('/' :: '/' :: cs) = none := by
  simp only [List.mem_cons, List.not_mem_nil, or_false] at he
  rcases he with rfl | rfl
  · exact (spelled_failed fun h => by simp at h).rest?
  · cases hrest : regexLiteral.rest? ('/' :: '/' :: cs) with
    | none => rfl
    | some s =>
      obtain ⟨d, a, f, hcs, hd, -⟩ := exists_of_regexLiteral hrest
      exact absurd (List.cons.inj (List.cons.inj hcs).2).1.symm hd

/-- Both have another slash behind the first one. -/
theorem not_slash (he : e ∈ [Form.blockCommentText, regexLiteral]) {cs : List Char} (hcs : '/' ∉ cs) :
    e.rest? ('/' :: cs) = none := by
  cases hrest : e.rest? ('/' :: cs) with
  | none => rfl
  | some s =>
    refine absurd ?_ hcs
    simp only [List.mem_cons, List.not_mem_nil, or_false] at he
    rcases he with rfl | rfl
    · obtain ⟨z, hz, rfl⟩ := Option.map_eq_some_iff.mp hrest
      obtain ⟨z₁, hz₁, hz⟩ := exists_of_spelled (List.mem_of_mem_head? hz)
      obtain ⟨z₂, hz₂, hz⟩ := List.mem_flatMap.mp hz
      obtain ⟨inner, hinner⟩ := Expr.exists_leads hz₂
      have htext : '/' :: cs = ['/', '*'] ++ inner ++ ['*', '/'] ++ z.2 :=
        ((hz₁.trans hinner).trans (leads_of_chars hz)).1
      simp [(List.cons.inj htext).2]
    · obtain ⟨d, a, f, htext, -⟩ := exists_of_regexLiteral hrest
      simp [(List.cons.inj htext).2]

section

variable (K : Trail c b y) (H : Apart t c) {js : List (Joint Stage)} {slashed : Bool}

include K H

/-- Behind the blanks, in front of the comment. -/
theorem reads_of_start (hout : patternJoints slashed e .start = some js) : Reads t b y js e [] y := by
  simp only [patternJoints] at hout
  have hnone (h : e.rest? [] = none) (h' : e.rest? (commentLine c) = none) : Reads t b y js e [] y :=
    .pattern_failed h (by rcases K.comment with rfl | rfl <;> assumption)
  have halone {q : Stage} {w : List Char} (h : e.rest? [] = none)
      (h' : e.rest? (commentLine c) = some w) (hq : .alone q ∈ js)
      (hmeets : y = commentLine c → q.meets t b y [] w) : Reads t b y js e [] y := by
    rcases K.comment with rfl | rfl
    · exact .pattern_failed h h
    · exact .pattern_alone h h' hq (hmeets rfl)
  split at hout
  · next he =>
    obtain rfl := Option.some.inj hout
    subst he
    exact halone rfl (prefers_comment H.commentBreak).rest? (List.mem_singleton_self _)
      fun hy => ⟨rfl, rfl, by rw [hy]; exact List.cons_ne_nil _ _⟩
  split at hout
  · next he =>
    obtain rfl := Option.some.inj hout
    subst he
    exact halone rfl (prefers_divisionLead _).rest? (List.mem_singleton_self _) fun hy => ⟨rfl, hy.symm⟩
  split at hout
  · next he =>
    rcases Bool.or_eq_true_iff.mp he with he | he
    · have he := of_decide_eq_true he
      exact hnone (Expr.prefers_nil_of_takes (takes_of_slashes he)).rest? (not_slashes he _)
    · obtain ⟨htakes, hskips⟩ := Bool.and_eq_true_iff.mp he
      exact hnone (Expr.prefers_nil_of_takes htakes).rest? (Expr.rest?_of_skips hskips _)
  split at hout
  · next he =>
    obtain rfl := Option.some.inj hout
    obtain ⟨hfree, hshuns⟩ := Bool.and_eq_true_iff.mp he
    have hstay (cs : List Char) (hcs : ∀ d ∈ cs.head?, d = '/') : e.rest? cs = some cs := by
      obtain ⟨s, hs⟩ := Expr.exists_rest?_of_free hfree cs
      obtain ⟨z, hz, rfl⟩ := Option.map_eq_some_iff.mp hs
      have hmem := List.mem_of_mem_head? hz
      cases cs with
      | nil =>
        obtain ⟨x, hx⟩ := Expr.exists_leads hmem
        rw [hs, (List.append_eq_nil_iff.mp hx.1.symm).2]
      | cons d cs =>
        obtain rfl := hcs d rfl
        rw [hs, Expr.eq_of_shuns hshuns hmem]
    exact .pattern_same (x := []) (hstay [] nofun) (hstay y fun d hd => K.head_start hd)
      (List.mem_singleton_self _) ⟨rfl, rfl⟩
  · cases hout

omit K in
/-- Behind the head of a control statement come blanks, and something else in the line. -/
theorem reads_of_headed (hout : patternJoints slashed e .headed = some js)
    (hq : Stage.headed.meets t b y r r') : Reads t b y js e r r' := by
  simp only [patternJoints] at hout
  split at hout
  · next he =>
    obtain rfl := Option.some.inj hout
    subst he
    obtain ⟨hr, rfl, word, hword, front, blanks, hblanks, rfl⟩ := hq
    have hne := H.dropWhile_ne hr (List.suffix_append _ r) fun _ hd => hd
    refine reads_along ?_ ?_
    · rw [blankRun, Expr.rest?_run, Expr.rest?_run, Option.map_some]
      exact congrArg some (dropWhile_append_of_ne_nil hne _)
    · rintro x s rfl htake h
      rw [blankRun, Expr.rest?_run] at h
      refine ⟨.headed, List.mem_singleton_self _, Option.some.inj h ▸ hne, rfl, word, hword, front,
        blanks ++ x, fun d hd => ?_, by simp⟩
      exact (List.mem_append.mp hd).elim (hblanks d) (htake d)
  · cases hout

omit H in
/-- Behind the first slash of the comment. -/
theorem reads_of_halved (hslashed : slashed = decide ('/' ∈ c))
    (hout : patternJoints slashed e .halved = some js) (hq : Stage.halved.meets t b y r r') :
    Reads t b y js e r r' := by
  obtain ⟨rfl, hy⟩ := hq
  obtain rfl : r' = '/' :: (c ++ ['\n']) := by
    rcases K.comment with rfl | rfl
    · cases hy
    · exact (List.cons.inj hy).2
  simp only [patternJoints] at hout
  split at hout
  · next he =>
    rcases Bool.or_eq_true_iff.mp he with he | he
    · obtain ⟨hnot, he⟩ := Bool.and_eq_true_iff.mp he
      have he := of_decide_eq_true he
      exact .pattern_failed (Expr.prefers_nil_of_takes (takes_of_slashes he)).rest?
        (not_slash he (by simpa [hslashed] using hnot))
    · obtain ⟨htakes, hskips⟩ := Bool.and_eq_true_iff.mp he
      exact .pattern_failed (Expr.prefers_nil_of_takes htakes).rest? (Expr.rest?_of_skips hskips _)
  · cases hout

omit K H in
/-- At the end of both texts. -/
theorem reads_of_finish (hout : patternJoints slashed e .finish = some js) : Reads t b y js e [] [] := by
  obtain rfl := Option.some.inj hout
  cases h : e.rest? [] with
  | none => exact .pattern_failed h h
  | some s =>
    obtain ⟨x, hx, -⟩ := exists_text_of_rest? h
    obtain ⟨rfl, rfl⟩ := List.append_eq_nil_iff.mp hx.symm
    rw [takes_eq_false h]
    exact .pattern_same (x := []) h h (List.mem_singleton_self _) ⟨rfl, rfl⟩

omit K H in
/-- Beyond the blanks behind the line. -/
theorem reads_of_beyond (hout : patternJoints slashed e .beyond = some js)
    (hq : Stage.beyond.meets t b y r r') : Reads t b y js e r r' := by
  obtain ⟨rfl, x, hx, hsplit⟩ := hq
  simp only [patternJoints] at hout
  split at hout
  · next htakes =>
    obtain rfl := Option.some.inj hout
    have hnone := (Expr.prefers_nil_of_takes htakes).rest?
    cases h : e.rest? r' with
    | none => exact .pattern_failed hnone h
    | some s =>
      obtain ⟨x', rfl, -⟩ := exists_text_of_rest? h
      exact .pattern_alone hnone h (List.mem_singleton_self _)
        ⟨rfl, x ++ x', by simp [hx], by simpa using hsplit⟩
  · cases hout

theorem reads_of_meets (hslashed : slashed = decide ('/' ∈ c)) {q : Stage}
    (hout : patternJoints slashed e q = some js) (hq : q.meets t b y r r') : Reads t b y js e r r' := by
  cases q with
  | inside =>
    obtain ⟨hr, hs, rfl⟩ := hq
    exact reads_of_inside K H hslashed hout hr hs
  | headed => exact reads_of_headed H hout hq
  | edge =>
    obtain ⟨rfl, rfl⟩ := hq
    exact reads_of_edge K H hout
  | start =>
    obtain ⟨rfl, rfl⟩ := hq
    exact reads_of_start K H hout
  | halved => exact reads_of_halved K hslashed hout hq
  | break_ =>
    obtain ⟨rfl, rfl, -⟩ := hq
    simp only [patternJoints] at hout
    split at hout
    · next he =>
      obtain rfl := Option.some.inj hout
      subst he
      have hend : lineBreak.rest? ['\n'] = some [] := rfl
      exact .pattern_apart rfl hend (List.mem_singleton_self _) ⟨rfl, rfl⟩
    · cases hout
  | finish =>
    obtain ⟨rfl, rfl⟩ := hq
    exact reads_of_finish hout
  | beyond => exact reads_of_beyond hout hq

end

end

/-! ## How matches of literals are related -/

def literalJoints (slashed : Bool) (text : List Char) : Stage → Option (List (Joint Stage))
  | .inside | .headed =>
    if !text.isEmpty && text.all (· ∉ [' ', '\t', '/']) then
      some (.same .inside :: if slashed && text.getLast? != some ';' then [] else [.same .edge])
    else none
  | .beyond => if text.isEmpty then none else some [.alone .beyond]
  | _ => if text.head?.any (· ∉ [' ', '\t', '\n', '/']) then some [] else none

section

variable (K : Trail c b y) (H : Apart t c) {text : List Char} {js : List (Joint Stage)} {slashed : Bool}
  (hslashed : slashed = decide ('/' ∈ c))

include K H hslashed

theorem literal_of_inside (hout : literalJoints slashed text .inside = some js) (hr : r ≠ []) (hs : r <:+ t) :
    Reading.Meets (Stage.meets t b y) js (readLiteral text r) (readLiteral text (r ++ (b ++ y))) := by
  simp only [literalJoints] at hout
  split at hout
  · next htext =>
    obtain rfl := Option.some.inj hout
    obtain ⟨hne, hall⟩ := Bool.and_eq_true_iff.mp htext
    have hmark : ∀ d ∈ text, d ∉ [' ', '\t', '/'] := fun d hd => of_decide_eq_true (List.all_eq_true.mp hall d hd)
    by_cases h : text <+: r
    · obtain ⟨s, rfl⟩ := h
      rw [List.append_assoc, readLiteral_append, readLiteral_append]
      rcases Stage.inside_or_edge (b := b) (y := y) ((List.suffix_append text s).trans hs) with
        hz | ⟨rfl, hz⟩
      · exact .matched ⟨.same .inside, by simp, rfl, hz⟩
      · refine .matched ⟨.same .edge, List.mem_cons_of_mem _ ?_, rfl, hz⟩
        rw [List.append_nil] at hr hs
        split
        · next hif =>
          obtain ⟨hc, hlast⟩ := Bool.and_eq_true_iff.mp hif
          rw [H.getLast?_eq (of_decide_eq_true (hslashed ▸ hc)) hr hs] at hlast
          cases hlast
        · exact List.mem_singleton_self _
    · have h' : ¬ text <+: r ++ (b ++ y) := fun h' => h <| by
        refine K.prefix_of_last (fun hslash => hmark _ hslash (by decide)) (fun d hd => ?_) h'
        have := hmark d (List.mem_of_getLast? hd)
        simp only [List.mem_cons, List.not_mem_nil, or_false, not_or] at this
        exact ⟨this.1, this.2.1⟩
      rw [readLiteral_failed h, readLiteral_failed h']
      exact .failed
  · cases hout

omit K H hslashed in
/-- No literal begins with a blank, a slash or a line break. -/
theorem literal_failed
    (hout : (if text.head?.any (· ∉ [' ', '\t', '\n', '/']) then some [] else none) = some js)
    (hr' : ∀ d ∈ r'.head?, d ∈ [' ', '\t', '\n', '/']) :
    Reading.Meets (Stage.meets t b y) js (readLiteral text []) (readLiteral text r') := by
  split at hout
  · next htext =>
    obtain ⟨d, hd, hnot⟩ := (Option.any_eq_true _ _).mp htext
    obtain ⟨text, rfl⟩ := List.head?_eq_some_iff.mp hd
    have hnone {cs : List Char} (hcs : ∀ d ∈ cs.head?, d ∈ [' ', '\t', '\n', '/']) :
        ¬ d :: text <+: cs := by
      rintro ⟨rest, rfl⟩
      exact of_decide_eq_true hnot (hcs d rfl)
    rw [readLiteral_failed (hnone (by simp)), readLiteral_failed (hnone hr')]
    exact .failed
  · cases hout

omit K H hslashed in
theorem literal_of_beyond (hout : literalJoints slashed text .beyond = some js)
    (hq : Stage.beyond.meets t b y r r') :
    Reading.Meets (Stage.meets t b y) js (readLiteral text r) (readLiteral text r') := by
  obtain ⟨rfl, x, hx, hsplit⟩ := hq
  simp only [literalJoints] at hout
  split at hout
  · cases hout
  · next hne =>
    obtain rfl := Option.some.inj hout
    have hnone : ¬ text <+: [] := fun h => hne (by simpa using h)
    rw [readLiteral_failed hnone]
    by_cases h : text <+: r'
    · obtain ⟨s, rfl⟩ := h
      rw [readLiteral_append]
      exact .alone ⟨.beyond, List.mem_singleton_self _, rfl, x ++ text, by simp [hx],
        by simpa using hsplit⟩
    · rw [readLiteral_failed h]
      exact .failed

theorem literal_of_meets {q : Stage} (hout : literalJoints slashed text q = some js) (hq : q.meets t b y r r') :
    Reading.Meets (Stage.meets t b y) js (readLiteral text r) (readLiteral text r') := by
  cases q with
  | inside =>
    obtain ⟨hr, hs, rfl⟩ := hq
    exact literal_of_inside K H hslashed hout hr hs
  | headed =>
    obtain ⟨hr, hs, rfl⟩ := Stage.headed.inside hq
    exact literal_of_inside K H hslashed hout hr hs
  | edge =>
    obtain ⟨rfl, rfl⟩ := hq
    obtain ⟨d, b', hb, hd⟩ := K.head
    refine literal_failed hout fun d' hd' => ?_
    rw [hb] at hd'
    obtain rfl := Option.some.inj hd'
    rcases hd with rfl | rfl <;> decide
  | start =>
    obtain ⟨rfl, rfl⟩ := hq
    exact literal_failed hout fun d hd => by rw [K.head_start hd]; decide
  | halved =>
    obtain ⟨rfl, hy⟩ := hq
    refine literal_failed hout fun d hd => ?_
    rcases K.comment with rfl | rfl
    · cases hy
    · rw [(List.cons.inj hy).2] at hd
      obtain rfl := Option.some.inj hd
      decide
  | break_ =>
    obtain ⟨rfl, rfl, -⟩ := hq
    exact literal_failed hout fun d hd => by obtain rfl := Option.some.inj hd; decide
  | finish =>
    obtain ⟨rfl, rfl⟩ := hq
    exact literal_failed hout nofun
  | beyond => exact literal_of_beyond hout hq

end

end Typestrip.TypeScript
