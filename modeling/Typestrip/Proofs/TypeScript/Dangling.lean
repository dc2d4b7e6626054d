import Typestrip.Proofs.Grammar.Zones
import Typestrip.Proofs.TypeScript.Operators

/-!
# Operators without operands

A source that ends in an operator, with nothing but blanks and line comments behind it, is refused
(`Transpiler.transform_dangling`), whatever stands in front of the operator. Its places fall into a few
zones (`Zone`). Whatever node begins in front of the last mark of the operator ends in front of it:
what passes the mark stands before blanks, a comment or the end, where the grammar asks for an operand,
a type, a name or a closing bracket, and finds none. So no place in front of the mark leads to the end
of the source.

A block comment is an operand, so that `a + /* c */;` is accepted, and there are other things that take
an operator: pairs of increments, the head of an arrow function, type arguments, regular expression
literals and declarations that are erased (`Transpiler.transform_taken_operator`).
-/

namespace Typestrip.TypeScript

open Grammar Grammar.Tree Regex

/-! ## The text in front of the end -/

/-- A text that ends in an operator, and what is laid out behind it: nothing that takes the operator
stands in the text. -/
structure Dangling (t z : List Char) : Prop where
  trailer : Trailer z
  /-- The operator does not end in an increment, a decrement or an arrow. -/
  ending : ∀ x ∈ ["++", "--", "=>"], ¬ x.toList <:+ t
  /-- It closes no angle bracket. -/
  angle : ['>'] <:+ t → '<' ∉ t
  /-- No comment and no regular expression literal begins in the text. -/
  slash : '/' ∉ t ∨ '/' ∉ z ∧ (∀ m ∈ ['/', '*'], ¬ ['/', m] <:+: t) ∧
    (['/'] <:+ t → t.count '/' = 1)
  declared : ¬ "declare".toList <:+: t
  typeOnly : ∀ word ∈ ["import", "export"], ∀ b, b ≠ [] → (∀ d ∈ b, Unicode.isSpace d = true) →
    ¬ word.toList ++ b ++ "type".toList <:+: t

/-- The zones of a text that ends in an operator. -/
inductive Zone
  /-- In front of the last mark of the operator. -/
  | inside
  /-- Right behind it. -/
  | behind
  /-- Behind the blanks there. -/
  | start
  /-- Behind all that is laid out. -/
  | finish
  /-- Behind the first slash of a comment. -/
  | halved
  /-- Anywhere behind the operator. -/
  | beyond
  deriving DecidableEq

/-- Quotation marks and closing brackets, of which there are none behind the operator. -/
def closers : List Char := ['"', '\'', '`', ')', ']', '}', '>']

/-- Where the zones are: `w` stands in front of the last mark, and `z` behind it. -/
def Zone.holds (w : List Char) (m : Char) (z : List Char) : Zone → List Char → Prop
  | inside, u => ∃ v, v <:+ w ∧ u = v ++ m :: z
  | behind, u => Trailer u
  | start, u => Trailer u ∧ ∀ d ∈ u.head?, Unicode.isSpace d = false
  | finish, u => u = [] ∨ u = [';']
  | halved, u => Trailer ('/' :: u) ∧ u.head? = some '/'
  | beyond, u => ∀ d ∈ u, d ∉ closers

variable {w v z u r x y t : List Char} {m d : Char} {e : Expr}

/-! ## Patterns at the beginning of a comment -/

/-- A regular expression literal has two slashes on one line, with something else between them and
letters behind. -/
theorem exists_of_regexLiteral (h : regexLiteral.rest? u = some r) :
    ∃ d a f, u = '/' :: d :: (a ++ '/' :: f) ++ r ∧ d ≠ '/' ∧ '\n' ∉ '/' :: d :: (a ++ '/' :: f) ∧
      ∀ d ∈ f, (CharSet.union (.range 65 90) (.range 97 122)).holds d = true := by
  obtain ⟨s, hs, rfl⟩ := Option.map_eq_some_iff.mp h
  have hmem := List.mem_of_mem_head? hs
  obtain ⟨x, hx⟩ := Expr.exists_leads hmem
  have hline : '\n' ∉ x := fun hbreak => by
    have := Expr.mayTake_of_mem_ends hmem hx _ hbreak
    revert this
    decide
  obtain ⟨x₁, ⟨b, cs⟩, x₂, rfl, hs₁, hx₁, hs₂, hx₂⟩ := Expr.exists_of_seq_leads hmem hx
  obtain ⟨x₃, s₃, x₄, rfl, hs₃, hx₃, hs₄, hx₄⟩ := Expr.exists_of_seq_leads hs₂ hx₂
  obtain ⟨x₅, s₅, x₆, rfl, -, -, hs₆, hx₆⟩ := Expr.exists_of_seq_leads hs₄ hx₄
  obtain ⟨x₇, s₇, f, rfl, hs₇, hx₇, hf, hletters⟩ := Expr.exists_of_seq_leads hs₆ hx₆
  obtain ⟨c, rfl, hc⟩ := Expr.exists_of_chars_leads hs₁ hx₁
  obtain ⟨c', rfl, hc'⟩ := Expr.exists_of_chars_leads hs₇ hx₇
  rw [CharSet.holds_single, beq_iff_eq] at hc hc'
  subst hc hc'
  cases x₃ with
  | nil =>
    have hlt := Expr.length_lt_of_takes (by decide) hs₃
    rw [hx₃.length] at hlt
    simp at hlt
  | cons d x₃ =>
    refine ⟨d, x₃ ++ x₅, f, by simpa using hx.1, ?_, by simpa using hline,
      Expr.mayTake_of_mem_ends hf hletters⟩
    rintro rfl
    obtain rfl : cs = '/' :: (x₃ ++ s₃.2) := hx₃.1
    rw [Expr.ends_of_skips (by decide)] at hs₃
    cases hs₃

/-- Behind every dot of a text stands a letter. -/
def Dotted (x : List Char) : Prop :=
  ∀ a b, x = a ++ '.' :: b → ∃ c ∈ b.head?, letter.holds c = true

theorem dotted_of_not_mem (hx : '.' ∉ x) : Dotted x := by
  rintro a b rfl
  simp at hx

theorem Dotted.append (hx : Dotted x) (hy : Dotted y) : Dotted (x ++ y) := by
  intro a b hab
  rcases List.append_eq_append_iff.mp hab with ⟨a', rfl, hy'⟩ | ⟨b', rfl, hb⟩
  · exact hy a' b hy'
  · cases b' with
    | nil =>
      rw [List.append_nil] at hx
      exact hy [] b hb.symm
    | cons d b' =>
      obtain ⟨rfl, rfl⟩ := List.cons.inj hb
      obtain ⟨c, hc, hletter⟩ := hx a b' rfl
      refine ⟨c, ?_, hletter⟩
      cases b' with
      | nil => cases hc
      | cons => exact hc

theorem dotted_of_typeName {s s' : Spot} (h : s' ∈ typeName.ends s) (hx : s.Leads x s') :
    Dotted x := by
  -- an expression that takes no dot
  have hplain {e : Expr} {s s' : Spot} {x : List Char} (he : e.mayTake '.' = false)
      (h : s' ∈ e.ends s) (hx : s.Leads x s') : Dotted x :=
    dotted_of_not_mem fun hdot => by cases he.symm.trans (Expr.mayTake_of_mem_ends h hx _ hdot)
  obtain ⟨x₁, s₁, x₂, rfl, hs₁, hx₁, hs₂, hx₂⟩ := Expr.exists_of_seq_leads h hx
  obtain ⟨x₃, s₃, x₄, rfl, hs₃, hx₃, hs₄, hx₄⟩ := Expr.exists_of_seq_leads hs₂ hx₂
  obtain ⟨x₅, s₅, x₆, rfl, hs₅, hx₅, hs₆, hx₆⟩ := Expr.exists_of_seq_leads hs₄ hx₄
  refine (hplain (by decide) hs₁ hx₁).append ((hplain (by decide) hs₃ hx₃).append
    ((hplain (by decide) hs₅ hx₅).append ?_))
  refine Expr.star_leads (dotted_of_not_mem (by simp)) Dotted.append (fun h hx => ?_) hs₆ hx₆
  obtain ⟨x₁, s₁, x₂, rfl, hs₁, hx₁, hs₂, hx₂⟩ := Expr.exists_of_seq_leads h hx
  obtain ⟨x₃, s₃, x₄, rfl, hs₃, hx₃, hs₄, hx₄⟩ := Expr.exists_of_seq_leads hs₂ hx₂
  obtain ⟨d, rfl, hd⟩ := Expr.exists_of_chars_leads hs₁ hx₁
  obtain ⟨c, rfl, hc⟩ := Expr.exists_of_chars_leads hs₃ hx₃
  have hrest := hplain (by decide) hs₂ hx₂
  intro a b hab
  cases a with
  | nil =>
    obtain ⟨-, rfl⟩ := List.cons.inj hab
    exact ⟨c, rfl, hc⟩
  | cons d' a => exact hrest a b (List.cons.inj hab).2

/-- What is spelled stands at the beginning. -/
theorem spelled_failed {word : List Char} (h : ¬ word <+: u) : (spelled word e).Prefers u none := by
  intro before
  rw [Option.map_eq_none_iff, List.head?_eq_none_iff, List.eq_nil_iff_forall_not_mem]
  intro s hs
  obtain ⟨s', hleads, -⟩ := exists_of_spelled hs
  exact h ⟨_, hleads.1.symm⟩

theorem Trailer.exists_of_slash (h : Trailer ('/' :: u)) :
    ∃ x y, u = '/' :: (x ++ y) ∧ '/' ∉ x ∧ '/' ∉ y.head? ∧ (y = [] ∨ ∃ c, y = '\n' :: c) := by
  generalize hs : '/' :: u = s at h
  cases h with
  | nil | semicolon => cases hs
  | blank hd =>
    obtain ⟨rfl, -⟩ := List.cons.inj hs
    cases hd
  | @comment x c hx =>
    obtain ⟨-, rfl⟩ := List.cons.inj hs
    exact ⟨x, _, rfl, fun h => hx '/' h (by decide), by simp, .inr ⟨c, rfl⟩⟩
  | @last x hx =>
    obtain ⟨-, rfl⟩ := List.cons.inj hs
    exact ⟨x, [], by simp, fun h => hx '/' h (by decide), by simp, .inl rfl⟩

/-- At its beginning only blanks, a slash or a semicolon are taken. -/
theorem Trailer.failed (h : Trailer u) (hhead : ∀ d ∈ u.head?, Unicode.isSpace d = false)
    (he : (e.takes && e.skips '/' && e.skips ';') = true) : e.Prefers u none := by
  simp only [Bool.and_eq_true] at he
  obtain ⟨⟨htakes, hslash⟩, hsemicolon⟩ := he
  cases u with
  | nil => exact Expr.prefers_nil_of_takes htakes
  | cons d u =>
    rcases h.head rfl with hd | rfl | rfl
    · rw [hhead d rfl] at hd
      cases hd
    · exact Expr.prefers_of_skips hsemicolon u
    · exact Expr.prefers_of_skips hslash u

/-- No block comment begins where a comment does, or behind its first slash. -/
theorem Trailer.blockComment_failed (h : Trailer u)
    (hhead : ∀ d ∈ u.head?, Unicode.isSpace d = false) :
    Form.blockCommentText.Prefers u none := by
  refine spelled_failed fun hprefix => ?_
  obtain ⟨s, rfl⟩ := hprefix
  obtain ⟨x, y, hs, -⟩ := Trailer.exists_of_slash h
  cases hs

/-- Neither does a regular expression literal. -/
theorem Trailer.regexLiteral_failed (h : Trailer u) : regexLiteral.rest? u = none := by
  cases hrest : regexLiteral.rest? u with
  | none => rfl
  | some r =>
    obtain ⟨d, a, f, rfl, hd, -⟩ := exists_of_regexLiteral hrest
    obtain ⟨x, y, hs, -⟩ := h.exists_of_slash
    exact absurd (List.cons.inj hs).1 hd

theorem Trailer.blockComment_failed_halved (h : Trailer ('/' :: u)) :
    Form.blockCommentText.rest? u = none := by
  cases hrest : Form.blockCommentText.rest? u with
  | none => rfl
  | some r =>
    -- the end of the block comment would stand in the comment
    obtain ⟨s, hs, rfl⟩ := Option.map_eq_some_iff.mp hrest
    obtain ⟨s₁, hs₁, hs⟩ := exists_of_spelled (List.mem_of_mem_head? hs)
    obtain ⟨s₂, hs₂, hs⟩ := List.mem_flatMap.mp hs
    obtain ⟨inner, hinner⟩ := Expr.exists_leads hs₂
    have htext : u = ['/', '*'] ++ inner ++ ['*', '/'] ++ s.2 :=
      ((hs₁.trans hinner).trans (leads_of_chars hs)).1
    exact absurd ⟨'/' :: '/' :: '*' :: inner, s.2, by simp [htext]⟩ h.not_infix

theorem Trailer.regexLiteral_failed_halved (h : Trailer ('/' :: u)) : regexLiteral.rest? u = none := by
  cases hrest : regexLiteral.rest? u with
  | none => rfl
  | some r =>
    obtain ⟨d, a, f, rfl, -, hline, -⟩ := exists_of_regexLiteral hrest
    obtain ⟨x, y, hs, hx, -, hy⟩ := h.exists_of_slash
    obtain ⟨-, hs⟩ := List.cons.inj hs
    -- the second slash stands on the same line as the first one
    refine absurd ?_ hx
    rcases hy with rfl | ⟨c, rfl⟩
    · rw [List.append_nil] at hs
      rw [← hs]
      simp
    · have hbreak : '\n' ∉ d :: (a ++ '/' :: f) := fun h => hline (List.mem_cons_of_mem _ h)
      obtain ⟨g, hg, -⟩ := exists_of_word_append hbreak hs.symm
      rw [hg]
      simp

/-! ## Patterns in front of the operator -/

theorem dropWhile_of_mark {p : Char → Bool} (hm : p m = false) :
    (v ++ m :: z).dropWhile p = v.dropWhile p ++ m :: z := by
  rw [List.dropWhile_append]
  split
  · next hempty =>
    rw [List.isEmpty_iff.mp hempty, List.dropWhile_cons_of_neg (by simp [hm]), List.nil_append]
  · rfl

/-- In front of the last mark or right behind it. -/
def Near (w : List Char) (m : Char) (z u : List Char) : Prop :=
  Zone.inside.holds w m z u ∨ u = z

section

variable (H : Dangling (w ++ [m]) z) (hm : m ∈ '/' :: operatorMarks)

theorem mark_not_space (hm : m ∈ '/' :: operatorMarks) : Unicode.isSpace m = false :=
  forall_mem_of_all (P := fun m => Unicode.isSpace m = false) (by decide) m hm

/-- One character behind a place in front of the last mark. -/
theorem near_of_cons (hu : Zone.inside.holds w m z (d :: u)) : Near w m z u := by
  obtain ⟨v, hv, hu⟩ := hu
  cases v with
  | nil => exact .inr (List.cons.inj hu).2
  | cons c v =>
    refine .inl ⟨v, (List.suffix_cons c v).trans hv, (List.cons.inj hu).2⟩

theorem suffix_inside (hu : Zone.inside.holds w m z u) (hr : r <:+ u) :
    Zone.inside.holds w m z r ∨ r <:+ z := by
  obtain ⟨v, hv, rfl⟩ := hu
  obtain ⟨x, hx⟩ := hr
  rcases List.append_eq_append_iff.mp hx with ⟨v', rfl, rfl⟩ | ⟨x', -, hx'⟩
  · exact .inl ⟨v', (List.suffix_append x v').trans hv, rfl⟩
  · cases x' with
    | nil => exact .inl ⟨[], List.nil_suffix, hx'.symm⟩
    | cons c x' => exact .inr ⟨x', (List.cons.inj hx').2.symm⟩

include H

/-- Every match ends in front of the last mark, or somewhere behind it. -/
theorem inside_or_beyond (hu : Zone.inside.holds w m z u) (hr : r <:+ u) :
    Within (Zone.holds w m z) [.inside, .beyond] r := by
  rcases suffix_inside hu hr with h | h
  · exact ⟨.inside, by simp, h⟩
  · exact ⟨.beyond, by simp, fun _ hd hcloser => H.trailer.not_mem hcloser (h.mem hd)⟩

/-- Neither the last mark nor what stands behind it begins a comment. -/
theorem not_opening (hu : Zone.inside.holds w m z u) {k : Char} (hk : k ∈ ['/', '*']) :
    ¬ ['/', k] <+: u := by
  obtain ⟨v, hv, rfl⟩ := hu
  have hv' : v ++ [m] <:+ w ++ [m] := by
    obtain ⟨x, rfl⟩ := hv
    exact ⟨x, by simp⟩
  intro hprefix
  have hslash : '/' ∈ w ++ [m] := by
    refine hv'.mem ?_
    cases v with
    | nil =>
      obtain ⟨rfl, -⟩ := List.cons_prefix_cons.mp hprefix
      simp
    | cons d v =>
      obtain ⟨rfl, -⟩ := List.cons_prefix_cons.mp hprefix
      simp
  obtain ⟨hz, hnot, -⟩ := H.slash.resolve_left (not_not_intro hslash)
  cases v with
  | nil =>
    -- the comment would begin at the last mark
    obtain ⟨-, hprefix⟩ := List.cons_prefix_cons.mp hprefix
    obtain ⟨s, rfl⟩ := hprefix
    simp only [List.mem_cons, List.not_mem_nil, or_false] at hk
    rcases hk with rfl | rfl
    · simp at hz
    · exact absurd (H.trailer.head (d := '*') rfl) (by decide)
  | cons d v =>
    refine hnot k hk (List.IsInfix.trans ?_ hv'.isInfix)
    have hwhole : ['/', k] <+: (d :: v ++ [m]) ++ z := by simpa using hprefix
    exact (List.prefix_of_prefix_length_le hwhole (List.prefix_append _ _) (by simp)).isInfix

theorem comment_failed (hu : Zone.inside.holds w m z u) : commentText.rest? u = none :=
  (Expr.Prefers.right (spelled_failed (not_opening H hu (by decide)))
    (spelled_failed (not_opening H hu (by decide)))).rest?

theorem blockComment_failed (hu : Zone.inside.holds w m z u) :
    Form.blockCommentText.rest? u = none :=
  (spelled_failed (not_opening H hu (by decide))).rest?

/-- Behind blanks there. -/
theorem dropWhile_near (hm : m ∈ '/' :: operatorMarks) (hu : Near w m z u) :
    Zone.inside.holds w m z (u.dropWhile Unicode.isSpace) ∨
      Zone.start.holds w m z (u.dropWhile Unicode.isSpace) := by
  rcases hu with ⟨v, hv, rfl⟩ | rfl
  · rw [dropWhile_of_mark (mark_not_space hm)]
    exact .inl ⟨_, (List.dropWhile_suffix _).trans hv, rfl⟩
  · exact .inr H.trailer.dropWhile

include hm

theorem leadingBar_inside (hu : Zone.inside.holds w m z u) :
    ∃ r, (Zone.inside.holds w m z r ∨ Zone.start.holds w m z r) ∧ leadingBar.Prefers u (some r) := by
  cases u with
  | nil => exact ⟨[], .inl hu, .right (Expr.prefers_nil_of_takes rfl) (Expr.prefers_empty _)⟩
  | cons d u =>
    by_cases hd : d = '|'
    · subst hd
      exact ⟨_, dropWhile_near H hm (near_of_cons hu),
        .left (.seq (Expr.prefers_chars (by decide) u) (Expr.prefers_run .space u))⟩
    · have hskips : (char '|').skips d = true := by
        simpa [char, Expr.skips, CharSet.holds_single] using hd
      exact ⟨_, .inl hu, .right (Expr.prefers_of_skips hskips u).seq_failed (Expr.prefers_empty _)⟩

/-- A slash that divides, and what belongs to it. -/
theorem divisionLead_inside (hu : Zone.inside.holds w m z u) (h : divisionLead.rest? u = some r) :
    Zone.inside.holds w m z r ∨ Zone.start.holds w m z r := by
  -- signs end in front of the last mark or behind the blanks
  have hsigns : ∀ u, Zone.inside.holds w m z u ∨ Zone.start.holds w m z u →
      (Expr.seq (.chars (oneOf ['-', '+'])) (.star true (.chars .space))).Prefers u none ∨
      ∃ v, (Zone.inside.holds w m z v ∨ Zone.start.holds w m z v) ∧ v.length < u.length ∧
        (Expr.seq (.chars (oneOf ['-', '+'])) (.star true (.chars .space))).Prefers u (some v) := by
    rintro u (hu | ⟨htrailer, hhead⟩)
    · cases u with
      | nil => exact .inl (Expr.prefers_nil_of_takes rfl).seq_failed
      | cons d u =>
        by_cases hd : (oneOf ['-', '+']).holds d = true
        · refine .inr ⟨_, dropWhile_near H hm (near_of_cons hu), ?_,
            .seq (Expr.prefers_chars hd u) (Expr.prefers_run .space u)⟩
          exact Nat.lt_succ_of_le (List.length_dropWhile_le _ _)
        · exact .inl (Expr.prefers_of_skips (by simpa [Expr.skips] using hd) u).seq_failed
    · exact .inl (htrailer.failed hhead (by decide)).seq_failed
  have hbehind {u : List Char} (hu : Near w m z u) :
      ∃ r, (Zone.inside.holds w m z r ∨ Zone.start.holds w m z r) ∧
        (Expr.seq (.star true (.chars .space)) signRun).Prefers u (some r) := by
    obtain ⟨r, hr, hrounds⟩ := Expr.exists_prefers_star hsigns (dropWhile_near H hm hu)
    exact ⟨r, hr, .seq (Expr.prefers_run .space u) hrounds⟩
  have hequals {u : List Char} (hu : Near w m z u) :
      ∃ v, Near w m z v ∧ (Expr.alt (char '=') .empty).Prefers u (some v) := by
    cases u with
    | nil => exact ⟨[], hu, .right (Expr.prefers_nil_of_takes rfl) (Expr.prefers_empty _)⟩
    | cons d u =>
      by_cases hd : d = '='
      · subst hd
        rcases hu with hu | rfl
        · exact ⟨u, near_of_cons hu, .left (Expr.prefers_chars (by decide) u)⟩
        · exact absurd (H.trailer.head (d := '=') rfl) (by decide)
      · have hskips : (char '=').skips d = true := by
          simpa [char, Expr.skips, CharSet.holds_single] using hd
        exact ⟨_, hu, .right (Expr.prefers_of_skips hskips u) (Expr.prefers_empty _)⟩
  cases u with
  | nil => cases (Expr.prefers_nil_of_takes (e := divisionLead) rfl).rest?.symm.trans h
  | cons d u =>
    by_cases hd : d = '/'
    · subst hd
      obtain ⟨v, hv, hequal⟩ := hequals (near_of_cons hu)
      obtain ⟨r', hr', hblanks⟩ := hbehind hv
      have hlead : divisionLead.Prefers ('/' :: u) (some r') :=
        .seq (Expr.prefers_chars (by decide) u) (.seq hequal hblanks)
      rwa [Option.some.inj (h.symm.trans hlead.rest?)]
    · have hskips : (char '/').skips d = true := by
        simpa [char, Expr.skips, CharSet.holds_single] using hd
      have hlead : divisionLead.Prefers (d :: u) none := (Expr.prefers_of_skips hskips u).seq_failed
      cases hlead.rest?.symm.trans h

/-- Words pass signs in pairs only, and the operator does not end in one. -/
theorem wordPiece_inside (hu : Zone.inside.holds w m z u) : wordPiece.Prefers u none ∨
    ∃ v, Zone.inside.holds w m z v ∧ v.length < u.length ∧ wordPiece.Prefers u (some v) := by
  obtain ⟨v, hv, rfl⟩ := hu
  have hmark : wordSet.holds m = false := by
    have hall : ∀ d ∈ '/' :: operatorMarks, d ∈ wordMarks := forall_mem_of_all (by decide)
    simpa [wordSet_holds] using hall m hm
  have hpair (k : Char) (hk : k = '+' ∨ k = '-') : (chars [k, k]).Prefers (v ++ m :: z) none ∨
      ∃ v', v' <:+ v ∧ v'.length < v.length ∧
        (chars [k, k]).Prefers (v ++ m :: z) (some (v' ++ m :: z)) := by
    by_cases hprefix : [k, k] <+: v ++ m :: z
    · have hsign : ¬ Unicode.isSpace k = true ∧ k ≠ ';' ∧ k ≠ '/' := by
        rcases hk with rfl | rfl <;> decide
      obtain _ | ⟨c, _ | ⟨c', v⟩⟩ := v
      · -- nothing behind the operator is a sign
        obtain ⟨s, hs⟩ := (List.cons_prefix_cons.mp hprefix).2
        rcases H.trailer.head (d := k) (by rw [← hs]; rfl) with h | h | h
        · exact absurd h hsign.1
        · exact absurd h hsign.2.1
        · exact absurd h hsign.2.2
      · obtain ⟨hc, hnext⟩ := List.cons_prefix_cons.mp hprefix
        obtain ⟨hc', -⟩ := List.cons_prefix_cons.mp hnext
        subst hc hc'
        obtain ⟨front, rfl⟩ := hv
        rcases hk with rfl | rfl
        · exact absurd ⟨front, by simp⟩ (H.ending "++" (by simp))
        · exact absurd ⟨front, by simp⟩ (H.ending "--" (by simp))
      · obtain ⟨hc, hnext⟩ := List.cons_prefix_cons.mp hprefix
        obtain ⟨hc', -⟩ := List.cons_prefix_cons.mp hnext
        subst hc hc'
        have hchar (cs : List Char) : (char k).Prefers (k :: cs) (some cs) :=
          Expr.prefers_chars (by simp [CharSet.holds_single]) cs
        exact .inr ⟨v, (List.suffix_cons _ v).trans (List.suffix_cons _ _),
          by rw [List.length_cons, List.length_cons]; omega,
          (hchar _).seq (hchar _)⟩
    · left
      intro before
      rw [Option.map_eq_none_iff, List.head?_eq_none_iff, List.eq_nil_iff_forall_not_mem]
      exact fun s hs => hprefix ⟨_, (leads_of_chars hs).1.symm⟩
  have hinside {v' : List Char} (hv' : v' <:+ v) : Zone.inside.holds w m z (v' ++ m :: z) :=
    ⟨v', hv'.trans hv, rfl⟩
  have hlength {v' : List Char} (hlt : v'.length < v.length) :
      (v' ++ m :: z).length < (v ++ m :: z).length := by
    simpa using hlt
  by_cases hset : ∃ c v', v = c :: v' ∧ wordSet.holds c = true
  · obtain ⟨c, v', rfl, hc⟩ := hset
    exact .inr ⟨_, hinside (List.suffix_cons c v'), hlength (by simp),
      .left (Expr.prefers_chars hc _)⟩
  have hchar : (Expr.chars wordSet).Prefers (v ++ m :: z) none := by
    cases v with
    | nil => exact Expr.prefers_of_skips (by simpa [Expr.skips] using hmark) z
    | cons c v =>
      refine Expr.prefers_of_skips ?_ _
      simpa [Expr.skips] using fun hc => hset ⟨c, v, rfl, hc⟩
  rcases hpair '+' (.inl rfl) with hplus | ⟨v', hv', hlt, hplus⟩
  · rcases hpair '-' (.inr rfl) with hminus | ⟨v', hv', hlt, hminus⟩
    · exact .inl (hchar.right (hplus.right hminus))
    · exact .inr ⟨_, hinside hv', hlength hlt, hchar.right (hplus.right hminus)⟩
  · exact .inr ⟨_, hinside hv', hlength hlt, hchar.right hplus.left⟩

/-- An operator ends in front of its last mark, or behind all that is laid out. -/
theorem operatorRound_inside (hu : Zone.inside.holds w m z u ∨ Zone.finish.holds w m z u) :
    operatorRound.Prefers u none ∨
      ∃ v, (Zone.inside.holds w m z v ∨ Zone.finish.holds w m z v) ∧ v.length < u.length ∧
        operatorRound.Prefers u (some v) := by
  have hmarks : ∀ u, Near w m z u → (Expr.chars (oneOf operatorMarks)).Prefers u none ∨
      ∃ v, Near w m z v ∧ v.length < u.length ∧
        (Expr.chars (oneOf operatorMarks)).Prefers u (some v) := by
    intro u hu
    cases u with
    | nil => exact .inl (Expr.prefers_nil_of_takes rfl)
    | cons d u =>
      by_cases hd : (oneOf operatorMarks).holds d = true
      · refine .inr ⟨u, ?_, Nat.lt_succ_self _, Expr.prefers_chars hd u⟩
        rcases hu with hu | rfl
        · exact near_of_cons hu
        · -- nothing behind the operator is a mark
          rw [holds_oneOf, decide_eq_true_eq] at hd
          have hnot : ∀ d ∈ operatorMarks, ¬ (Unicode.isSpace d = true ∨ d = ';' ∨ d = '/') :=
            forall_mem_of_all (by decide)
          exact absurd (H.trailer.head rfl) (hnot d hd)
      · exact .inl (Expr.prefers_of_skips (by simpa [Expr.skips] using hd) u)
  have hlayout : ∀ u, Zone.inside.holds w m z u → (Expr.alt (.chars .space) lineComment).Prefers u none ∨
      ∃ v, Zone.inside.holds w m z v ∧ v.length < u.length ∧
        (Expr.alt (.chars .space) lineComment).Prefers u (some v) := by
    rintro u ⟨v, hv, rfl⟩
    have hcomment := not_opening H ⟨v, hv, rfl⟩ (k := '/') (by decide)
    cases v with
    | nil =>
      have hskips : (Expr.chars .space).skips m = true := by
        simpa [Expr.skips, CharSet.holds] using mark_not_space hm
      exact .inl ((Expr.prefers_of_skips hskips z).right (spelled_failed hcomment))
    | cons d v =>
      by_cases hd : Unicode.isSpace d = true
      · exact .inr ⟨_, ⟨v, (List.suffix_cons d v).trans hv, rfl⟩, by simp,
          .left (Expr.prefers_chars (s := .space) hd _)⟩
      · have hskips : (Expr.chars .space).skips d = true := by
          simpa [Expr.skips, CharSet.holds] using hd
        exact .inl ((Expr.prefers_of_skips hskips _).right (spelled_failed hcomment))
  rcases hu with hu | hu
  · rcases Expr.prefers_rounds hmarks (.inl hu) with hnone | ⟨v, hv | rfl, hlt, hrun⟩
    · exact .inl hnone.seq_failed
    · obtain ⟨r, hr, hrest⟩ := Expr.exists_prefers_star hlayout hv
      exact .inr ⟨r, .inl hr, Nat.lt_of_le_of_lt hrest.length_le hlt, hrun.seq hrest⟩
    · obtain ⟨r, hr, hrest⟩ := H.trailer.prefers
      exact .inr ⟨r, .inr hr, Nat.lt_of_le_of_lt hrest.length_le hlt, hrun.seq hrest⟩
  · rcases hu with rfl | rfl
    · exact .inl (Expr.prefers_nil_of_takes rfl)
    · exact .inl (Expr.prefers_of_skips (by decide) [])

omit H hm in
/-- What stands at a place in front of the last mark and does not reach the mark stands in the text. -/
theorem infix_of_not_mem (hu : Zone.inside.holds w m z (x ++ r)) (hx : m ∉ x) : x <:+: w ++ [m] := by
  obtain ⟨v, ⟨front, rfl⟩, hv⟩ := hu
  obtain ⟨g, rfl, -⟩ := exists_of_word_append hx hv.symm
  exact ⟨front, g ++ [m], by simp⟩

theorem typeOnly_failed (hu : Zone.inside.holds w m z u) : typeOnlyHead.rest? u = none := by
  cases hrest : typeOnlyHead.rest? u with
  | none => rfl
  | some r =>
    exfalso
    obtain ⟨s, hs, rfl⟩ := Option.map_eq_some_iff.mp hrest
    obtain ⟨s₁, hs₁, hs⟩ := List.mem_flatMap.mp (List.mem_of_mem_head? hs)
    obtain ⟨s₂, hs₂, hs⟩ := List.mem_flatMap.mp hs
    obtain ⟨s₃, hs₃, -⟩ := exists_of_spelled hs
    obtain ⟨word, hword, hs₁⟩ : ∃ word ∈ ["import", "export"], Spot.Leads (none, u) word.toList s₁ := by
      rcases List.mem_append.mp hs₁ with h | h
      · exact ⟨_, by simp, leads_of_chars h⟩
      · exact ⟨_, by simp, leads_of_chars h⟩
    obtain ⟨b, hb⟩ := Expr.exists_leads hs₂
    have hspace : ∀ d ∈ b, Unicode.isSpace d = true := by
      have htake := Expr.mayTake_of_mem_ends hs₂ hb
      simpa [plus, Expr.mayTake, CharSet.holds] using htake
    obtain rfl : u = word.toList ++ b ++ "type".toList ++ s₃.2 := ((hs₁.trans hb).trans hs₃).1
    have hb : b ≠ [] := by
      rintro rfl
      have hlt := Expr.length_lt_of_takes (by decide) hs₂
      rw [hb.length] at hlt
      simp at hlt
    refine H.typeOnly word hword b hb hspace (infix_of_not_mem hu ?_)
    rw [List.mem_append, List.mem_append, not_or, not_or]
    refine ⟨⟨?_, fun hmem => ?_⟩, ?_⟩
    · have hall : ∀ m ∈ '/' :: operatorMarks, ∀ word ∈ ["import", "export"], m ∉ word.toList :=
        forall_mem_of_all (by decide)
      exact hall m hm word hword
    · cases (hspace m hmem).symm.trans (mark_not_space hm)
    · have hall : ∀ m ∈ '/' :: operatorMarks, m ∉ "type".toList :=
        forall_mem_of_all (by decide)
      exact hall m hm

theorem ambient_failed (hu : Zone.inside.holds w m z u) : ambientHead.rest? u = none := by
  cases hrest : ambientHead.rest? u with
  | none => rfl
  | some r =>
    exfalso
    obtain ⟨s, hs, rfl⟩ := Option.map_eq_some_iff.mp hrest
    obtain ⟨s₁, hs₁, hs⟩ := List.mem_flatMap.mp (List.mem_of_mem_head? hs)
    obtain ⟨s₂, hs₂, -⟩ := exists_of_spelled hs
    obtain ⟨front, hfront⟩ := Expr.exists_leads hs₁
    have htake := Expr.mayTake_of_mem_ends hs₁ hfront
    obtain rfl : u = front ++ "declare".toList ++ s₂.2 := (hfront.trans hs₂).1
    refine H.declared ((List.suffix_append front _).isInfix.trans (infix_of_not_mem hu ?_))
    rw [List.mem_append, not_or]
    have hall : ∀ m ∈ '/' :: operatorMarks, (modifier "export").mayTake m = false ∧
        m ∉ "declare".toList := forall_mem_of_all (by decide)
    exact ⟨fun hmem => absurd ((htake m hmem).symm.trans (hall m hm).1) Bool.true_eq_false.mp,
      (hall m hm).2⟩

/-- The name of a type ends in front of the last mark, because letters stand behind its dots. -/
theorem typeName_inside (hu : Zone.inside.holds w m z u) (h : typeName.rest? u = some r) :
    Zone.inside.holds w m z r := by
  obtain ⟨s, hs, rfl⟩ := Option.map_eq_some_iff.mp h
  have hmem := List.mem_of_mem_head? hs
  obtain ⟨x, hx⟩ := Expr.exists_leads hmem
  have hdots := dotted_of_typeName hmem hx
  obtain rfl : u = x ++ s.2 := hx.1
  rcases suffix_inside hu (List.suffix_append x s.2) with hr | ⟨back, hback⟩
  · exact hr
  exfalso
  obtain ⟨v, -, hv⟩ := hu
  rw [← hback, ← List.cons_append, ← List.append_assoc] at hv
  have hx' : x = v ++ m :: back := List.append_cancel_right hv
  -- of the marks only a dot is taken
  have hall : ∀ m ∈ '/' :: operatorMarks, m ≠ '.' → typeName.mayTake m = false :=
    forall_mem_of_all (by decide)
  have htake := Expr.mayTake_of_mem_ends hmem hx m (by simp [hx'])
  obtain rfl : m = '.' := by
    by_contra hne
    cases htake.symm.trans (hall m hm hne)
  obtain ⟨c, hc, hletter⟩ := hdots v back hx'
  have hhead : c ∈ z.head? := by
    rw [← hback]
    cases back with
    | nil => cases hc
    | cons => exact hc
  rcases H.trailer.head hhead with hc | rfl | rfl
  · cases (letter_holds_of_isSpace hc).symm.trans hletter
  · cases hletter
  · cases hletter

/-- A regular expression literal ends in front of the last mark. -/
theorem regexLiteral_inside (hu : Zone.inside.holds w m z u) (h : regexLiteral.rest? u = some r) :
    Zone.inside.holds w m z r := by
  obtain ⟨d, a, f, hu', -, -, hletters⟩ := exists_of_regexLiteral h
  rcases suffix_inside hu ⟨_, hu'.symm⟩ with hr | ⟨back, rfl⟩
  · exact hr
  exfalso
  -- both slashes stand in the text, so one is the last mark, or the letters pass the last mark
  obtain ⟨v, ⟨front, rfl⟩, rfl⟩ := hu
  have hsplit : v ++ m :: back = ('/' :: d :: a) ++ '/' :: f := by
    refine (List.append_left_inj r).mp ?_
    rw [List.append_assoc]
    simpa using hu'
  have hslash : '/' ∈ front ++ v ++ [m] := by
    cases v with
    | nil => simp [(List.cons.inj hsplit).1]
    | cons c v => simp [(List.cons.inj hsplit).1]
  obtain ⟨hz, -, hcount⟩ := H.slash.resolve_left (not_not_intro hslash)
  have hlast (hv : v = '/' :: d :: a) (hm : m = '/') : False := by
    subst hv hm
    have := hcount ⟨_, rfl⟩
    simp only [List.count_append, List.count_cons_self] at this
    omega
  rcases List.append_eq_append_iff.mp hsplit with ⟨g, hp, hg⟩ | ⟨g, hv, hg⟩
  · cases g with
    | nil => exact hlast (by simpa using hp.symm) (List.cons.inj hg).1
    | cons c g => exact hz (by simp [(List.cons.inj hg).2])
  · cases g with
    | nil => exact hlast (by simpa using hv) (List.cons.inj hg).1.symm
    | cons c g =>
      have hletter := hletters m (by simp [(List.cons.inj hg).2])
      revert hletter
      have hall : ∀ m ∈ '/' :: operatorMarks,
          ¬ (CharSet.union (.range 65 90) (.range 97 122)).holds m = true :=
        forall_mem_of_all (by decide)
      exact hall m hm

end

/-! ## Where matches end -/

/-- Patterns that take operators, but do not end with one or behind one. -/
def quietPatterns : List Expr := [number, paramName]

/-- Patterns that may end with an operator. -/
def markPatterns : List Expr := [bar, mark '*', mark '?']

/-- Where the matches of a pattern end that begin in front of the last mark. -/
def insideReach (e : Expr) : List Zone :=
  if ('/' :: operatorMarks).all (!e.mayTake ·) then [.inside]
  else if e ∈ [commentText, Form.blockCommentText, typeOnlyHead, ambientHead] then []
  else if e ∈ regexLiteral :: wordRun :: string :: typeName :: quietPatterns then [.inside]
  else if e = operatorRun then [.inside, .finish]
  else if e ∈ [divisionLead, leadingBar] then [.inside, .start]
  else if e ∈ markPatterns then [.inside, .behind]
  else [.inside, .beyond]

/-- Where the matches of a pattern end, by the zone in which they begin. -/
def patternReach (e : Expr) : Zone → Option (List Zone)
  | .inside => some (insideReach e)
  | .behind => if e = .star true (.chars .space) then some [.start] else some [.beyond]
  | .start =>
    if e = .star true (.chars .space) ∨ e = leadingBar then some [.start]
    else if e ∈ [Form.blockCommentText, regexLiteral] then some []
    else if e = divisionLead then some [.halved]
    else if e.takes && e.skips '/' && e.skips ';' then some [] else none
  | .finish => if e.takes && e.skips ';' then some [] else none
  | .halved =>
    if e ∈ [Form.blockCommentText, regexLiteral] then some []
    else if e.takes && e.skips '/' then some [] else none
  | .beyond => if e = string then some [] else some [.beyond]

/-- Where the matches of a literal end. Either an angle bracket may be closed by the last mark, or none
is opened. -/
def literalReach (closes : Bool) (text : List Char) : Zone → Option (List Zone)
  | .inside =>
    if text = ['<'] ∧ closes then some []
    else if text = ['>'] ∧ !closes then some [.inside]
    else if ('/' :: operatorMarks).any (text = [·]) then some [.inside, .behind]
    else if ('/' :: operatorMarks).all (· ∉ text) ∨ text = ['=', '>'] then some [.inside] else none
  | .beyond => if text.head?.any (closers.contains ·) then some [] else some [.beyond]
  | _ => if text.head?.any fun d => d ∉ ';' :: '/' :: blankChars then some [] else none

/-- What is known of terminals and claimed of rules. -/
def danglingChart (closes : Bool) : Chart Zone where
  size := 6
  terminal
    | .literal text => literalReach closes text
    | .pattern (.seq (.look .textStart) e) => patternReach e
    | _ => fun _ => none
  rule slot
    | .inside => if slot < 10 then some [.inside] else none
    | .start => if slot < 8 then some [] else none
    | .finish | .halved => if slot < 6 then some [] else none
    | .beyond => if slot < 5 then some [] else if slot < 8 then some [.beyond] else none
    | .behind => if slot = 4 then some [] else none

theorem isQuiet_of_mem (he : e ∈ quietPatterns ++ markPatterns) : isQuiet e = true := by
  have hall : (quietPatterns ++ markPatterns).all isQuiet = true := by decide +kernel
  exact List.all_eq_true.mp hall e he

theorem quietPatterns_mayEnd :
    ∀ e ∈ quietPatterns, ∀ m ∈ '/' :: operatorMarks, e.mayEnd m = false := by
  intro e he
  have hall : quietPatterns.all (fun e => ('/' :: operatorMarks).all
      fun m => decide (e.mayEnd m = false)) = true := by decide
  exact forall_mem_of_all (List.all_eq_true.mp hall e he)

section

variable (H : Dangling (w ++ [m]) z) (hm : m ∈ '/' :: operatorMarks)

include H hm

theorem within_insideReach (hu : Zone.inside.holds w m z u) (h : e.rest? u = some r) :
    Within (Zone.holds w m z) (insideReach e) r := by
  have hbarred (hbars : e.bars (m :: z) = true) : Zone.inside.holds w m z r := by
    obtain ⟨v, hv, rfl⟩ := hu
    obtain ⟨v', hv', rfl⟩ := Expr.exists_of_rest?_bars hbars h
    exact ⟨v', hv'.trans hv, rfl⟩
  rw [insideReach]
  split
  · next htake =>
    refine within_singleton.mpr (hbarred ?_)
    have hm' := List.all_eq_true.mp htake m hm
    rw [Expr.bars, hm']
    rfl
  split
  · next he =>
    -- comments and erased declarations do not begin there
    simp only [List.mem_cons, List.not_mem_nil, or_false] at he
    rcases he with rfl | rfl | rfl | rfl
    · cases (comment_failed H hu).symm.trans h
    · cases (blockComment_failed H hu).symm.trans h
    · cases (typeOnly_failed H hm hu).symm.trans h
    · cases (ambient_failed H hm hu).symm.trans h
  split
  · next he =>
    refine within_singleton.mpr ?_
    rcases List.mem_cons.mp he with rfl | he
    · exact regexLiteral_inside H hm hu h
    rcases List.mem_cons.mp he with rfl | he
    · rcases Expr.prefers_rounds (fun _ => wordPiece_inside H hm) hu with hnone | ⟨r', hr', -, hrun⟩
      · cases hnone.rest?.symm.trans h
      · rwa [Option.some.inj (h.symm.trans hrun.rest?)]
    rcases List.mem_cons.mp he with rfl | he
    · -- a string ends with a quotation mark
      refine hbarred (Expr.bars_of_not_mayEnd fun d hd => ?_)
      have hall : ∀ d ∈ '/' :: operatorMarks, d ∉ ['"', '\'', '`'] :=
        forall_mem_of_all (by decide)
      have hquote {k : Char} (hk : k ∈ ['"', '\'', '`']) : d ≠ k := by
        rintro rfl
        rcases List.mem_cons.mp hd with rfl | hd
        · exact hall d hm hk
        · exact H.trailer.not_mem (List.mem_append_left [')', ']', '}', '>'] hk) hd
      simp [string, anyOf, quotedOnLine, quoted, char, Expr.mayEnd, Expr.takes, CharSet.holds_single,
        hquote (k := '"') (by decide), hquote (k := '\'') (by decide), hquote (k := '`') (by decide)]
    rcases List.mem_cons.mp he with rfl | he
    · exact typeName_inside H hm hu h
    · refine hbarred ?_
      rw [Expr.bars, quietPatterns_mayEnd e he m hm,
        H.trailer.bars (isQuiet_of_mem (List.mem_append_left _ he))]
      simp
  split
  · next he =>
    subst he
    rcases Expr.prefers_rounds (fun _ => operatorRound_inside H hm) (.inl hu) with
      hnone | ⟨r', hr', -, hrun⟩
    · cases hnone.rest?.symm.trans h
    · rw [Option.some.inj (h.symm.trans hrun.rest?)]
      exact within_pair.mpr hr'
  split
  · next he =>
    simp only [List.mem_cons, List.not_mem_nil, or_false] at he
    rcases he with rfl | rfl
    · exact within_pair.mpr (divisionLead_inside H hm hu h)
    · obtain ⟨r', hr', hlead⟩ := leadingBar_inside H hm hu
      rw [Option.some.inj (h.symm.trans hlead.rest?)]
      exact within_pair.mpr hr'
  split
  · next he =>
    have hbars := H.trailer.bars (isQuiet_of_mem (List.mem_append_right _ he))
    obtain ⟨v, hv, rfl⟩ := hu
    rw [← List.singleton_append, ← List.append_assoc] at h
    obtain ⟨v', ⟨x, hx⟩, rfl⟩ := Expr.exists_of_rest?_bars hbars h
    rcases List.eq_nil_or_concat v' with rfl | ⟨v', k, rfl⟩
    · exact within_pair.mpr (.inr H.trailer)
    · rw [List.concat_eq_append, ← List.append_assoc] at hx
      obtain ⟨rfl, hk⟩ := List.append_inj' hx rfl
      obtain rfl := List.singleton_inj.mp hk
      exact within_pair.mpr (.inl ⟨v', (List.suffix_append x v').trans hv, by simp⟩)
  · obtain ⟨x, rfl, -⟩ := exists_text_of_rest? h
    exact inside_or_beyond H hu (List.suffix_append x r)

theorem within_patternReach {zone : Zone} {out : List Zone}
    (hout : patternReach e zone = some out) (hu : zone.holds w m z u) (h : e.rest? u = some r) :
    Within (Zone.holds w m z) out r := by
  -- what is skipped has no match
  have hskipped (hnone : e.Prefers u none) : Within (Zone.holds w m z) out r := by
    cases hnone.rest?.symm.trans h
  have hrun (he : e = .star true (.chars .space)) : r = u.dropWhile Unicode.isSpace := by
    subst he
    exact Option.some.inj (h.symm.trans (Expr.rest?_run _ _))
  have hfail (he : e ∈ [Form.blockCommentText, regexLiteral])
      (hblock : Form.blockCommentText.rest? u = none) (hregex : regexLiteral.rest? u = none) :
      Within (Zone.holds w m z) out r := by
    simp only [List.mem_cons, List.not_mem_nil, or_false] at he
    rcases he with rfl | rfl
    · cases hblock.symm.trans h
    · cases hregex.symm.trans h
  obtain ⟨x, hx, htake⟩ := exists_text_of_rest? h
  unfold patternReach at hout
  cases zone with
  | inside =>
    obtain rfl := Option.some.inj hout
    exact within_insideReach H hm hu h
  | behind =>
    dsimp only at hout
    split at hout <;> obtain rfl := Option.some.inj hout
    · next he =>
      rw [hrun he]
      exact within_singleton.mpr hu.dropWhile
    · refine within_singleton.mpr fun d hd hcloser => hu.not_mem hcloser ?_
      rw [hx]
      exact List.mem_append_right x hd
  | start =>
    obtain ⟨htrailer, hhead⟩ := hu
    dsimp only at hout
    split at hout
    · next he =>
      obtain rfl := Option.some.inj hout
      refine within_singleton.mpr ?_
      rcases he with rfl | rfl
      · rw [hrun rfl, dropWhile_of_head hhead]
        exact ⟨htrailer, hhead⟩
      · have hlead : leadingBar.Prefers u (some u) :=
          .right (htrailer.failed hhead (by decide)).seq_failed (Expr.prefers_empty u)
        rw [Option.some.inj (h.symm.trans hlead.rest?)]
        exact ⟨htrailer, hhead⟩
    split at hout
    · next he => exact hfail he (htrailer.blockComment_failed hhead).rest? htrailer.regexLiteral_failed
    split at hout
    · next he =>
      subst he
      obtain rfl := Option.some.inj hout
      refine within_singleton.mpr ?_
      cases u with
      | nil => cases (Expr.prefers_nil_of_takes (e := divisionLead) rfl).rest?.symm.trans h
      | cons d u =>
        by_cases hd : d = '/'
        · subst hd
          obtain ⟨x, y, rfl, -⟩ := htrailer.exists_of_slash
          have hsigns : signRun.Prefers ('/' :: (x ++ y)) (some ('/' :: (x ++ y))) :=
            .stop (Expr.prefers_of_skips (by decide) _)
          have hlead : divisionLead.Prefers ('/' :: '/' :: (x ++ y)) (some ('/' :: (x ++ y))) :=
            .seq (Expr.prefers_chars (by decide) _) (.seq (.right (Expr.prefers_of_skips (by decide) _)
              (Expr.prefers_empty _)) (.seq (Expr.prefers_run .space _) hsigns))
          rw [Option.some.inj (h.symm.trans hlead.rest?)]
          exact ⟨htrailer, rfl⟩
        · have hskips : (char '/').skips d = true := by
            simpa [char, Expr.skips, CharSet.holds_single] using hd
          have hlead : divisionLead.Prefers (d :: u) none :=
            (Expr.prefers_of_skips hskips u).seq_failed
          cases hlead.rest?.symm.trans h
    · split at hout
      · next he => exact hskipped (htrailer.failed hhead he)
      · cases hout
  | finish =>
    dsimp only at hout
    split at hout
    · next he =>
      obtain ⟨htakes, hskips⟩ := Bool.and_eq_true_iff.mp he
      rcases hu with rfl | rfl
      · exact hskipped (Expr.prefers_nil_of_takes htakes)
      · exact hskipped (Expr.prefers_of_skips hskips [])
    · cases hout
  | halved =>
    obtain ⟨htrailer, hhead⟩ := hu
    dsimp only at hout
    split at hout
    · next he =>
      exact hfail he htrailer.blockComment_failed_halved htrailer.regexLiteral_failed_halved
    · split at hout
      · next he =>
        obtain ⟨htakes, hskips⟩ := Bool.and_eq_true_iff.mp he
        obtain ⟨u, rfl⟩ := List.head?_eq_some_iff.mp hhead
        exact hskipped (Expr.prefers_of_skips hskips u)
      · cases hout
  | beyond =>
    dsimp only at hout
    split at hout <;> obtain rfl := Option.some.inj hout
    · next he =>
      -- a string begins with a quotation mark
      subst he
      obtain ⟨d, cs, rfl, hd⟩ := Expr.exists_of_rest? (by decide) h
      have hquote : d ∉ ['"', '\'', '`'] := fun hmem =>
        hu d List.mem_cons_self (List.mem_append_left [')', ']', '}', '>'] hmem)
      simp only [List.mem_cons, List.not_mem_nil, or_false, not_or] at hquote
      rw [string_skips hquote.1 hquote.2.1 hquote.2.2] at hd
      cases hd
    · exact within_singleton.mpr fun d hd => hu d (by rw [hx]; exact List.mem_append_right x hd)

theorem within_literalReach {closes : Bool} (hcloses : m = '>' ↔ closes = true) {text : List Char}
    {zone : Zone} {out : List Zone} (hout : literalReach closes text zone = some out)
    (hu : zone.holds w m z (text ++ r)) :
    Within (Zone.holds w m z) out r := by
  unfold literalReach at hout
  -- no literal begins with a blank, a slash or a semicolon
  have hhead (htext : text.head?.any (fun d => d ∉ ';' :: '/' :: blankChars) = true) :
      ∃ d cs, text ++ r = d :: cs ∧ ¬ (Unicode.isSpace d = true ∨ d = ';' ∨ d = '/') := by
    obtain ⟨d, hd, hnot⟩ := (Option.any_eq_true _ _).mp htext
    obtain ⟨cs, rfl⟩ := List.head?_eq_some_iff.mp hd
    refine ⟨d, cs ++ r, rfl, ?_⟩
    rintro (h | rfl | rfl)
    · have := mem_blankChars h
      simp [this] at hnot
    · simp at hnot
    · simp at hnot
  cases zone with
  | inside =>
    dsimp only at hout
    split at hout
    · next h =>
      -- the angle bracket would be closed
      obtain ⟨rfl, rfl⟩ := h
      obtain rfl := hcloses.mpr rfl
      refine absurd ?_ (H.angle ⟨w, rfl⟩)
      obtain ⟨v, hv, hu⟩ := hu
      cases v with
      | nil => cases hu
      | cons c v =>
        obtain ⟨rfl, -⟩ := List.cons.inj hu
        exact List.mem_append_left _ (hv.mem List.mem_cons_self)
    have hpassed (htext : m ∉ text) : Zone.inside.holds w m z r := by
      obtain ⟨v, hv, hu⟩ := hu
      obtain ⟨g, rfl, rfl⟩ := exists_of_word_append htext hu.symm
      exact ⟨g, (List.suffix_append text g).trans hv, rfl⟩
    split at hout
    · next h =>
      obtain ⟨rfl, hopen⟩ := h
      obtain rfl := Option.some.inj hout
      refine within_singleton.mpr (hpassed fun hmem => ?_)
      rw [hcloses.mp (List.mem_singleton.mp hmem)] at hopen
      cases hopen
    split at hout
    · next h =>
      obtain ⟨k, -, htext⟩ := List.any_eq_true.mp h
      obtain rfl := of_decide_eq_true htext
      obtain rfl := Option.some.inj hout
      refine within_pair.mpr ((near_of_cons hu).imp_right ?_)
      rintro rfl
      exact H.trailer
    split at hout
    · next h =>
      obtain rfl := Option.some.inj hout
      refine within_singleton.mpr ?_
      rcases h with htext | rfl
      · exact hpassed (of_decide_eq_true (List.all_eq_true.mp htext m hm))
      · -- the operator is no arrow
        obtain ⟨v, hv, hu⟩ := hu
        obtain _ | ⟨c, _ | ⟨c', v⟩⟩ := v
        · obtain ⟨rfl, rfl⟩ := List.cons.inj hu
          exact absurd (H.trailer.head (d := '>') rfl) (by decide)
        · obtain ⟨rfl, hnext⟩ := List.cons.inj hu
          obtain ⟨rfl, -⟩ := List.cons.inj hnext
          obtain ⟨front, rfl⟩ := hv
          exact absurd ⟨front, by simp⟩ (H.ending "=>" (by simp))
        · obtain ⟨rfl, hnext⟩ := List.cons.inj hu
          obtain ⟨rfl, rfl⟩ := List.cons.inj hnext
          exact ⟨v, ((List.suffix_cons _ v).trans (List.suffix_cons _ _)).trans hv, rfl⟩
    · cases hout
  | beyond =>
    dsimp only at hout
    split at hout <;> obtain rfl := Option.some.inj hout
    · next htext =>
      obtain ⟨d, hd, hcloser⟩ := (Option.any_eq_true _ _).mp htext
      obtain ⟨cs, rfl⟩ := List.head?_eq_some_iff.mp hd
      exact absurd (List.contains_iff_mem.mp hcloser) (hu d List.mem_cons_self)
    · exact within_singleton.mpr fun d hd => hu d (List.mem_append_right text hd)
  | behind =>
    dsimp only at hout
    split at hout
    · next htext =>
      obtain ⟨d, cs, hcs, hd⟩ := hhead htext
      rw [hcs] at hu
      exact absurd (hu.head rfl) hd
    · cases hout
  | start =>
    dsimp only at hout
    split at hout
    · next htext =>
      obtain ⟨d, cs, hcs, hd⟩ := hhead htext
      rw [hcs] at hu
      exact absurd (hu.1.head rfl) hd
    · cases hout
  | finish =>
    dsimp only at hout
    split at hout
    · next htext =>
      obtain ⟨d, cs, hcs, hd⟩ := hhead htext
      rw [hcs] at hu
      rcases hu with hu | hu
      · cases hu
      · obtain ⟨rfl, -⟩ := List.cons.inj hu
        exact absurd (.inr (.inl rfl)) hd
    · cases hout
  | halved =>
    dsimp only at hout
    split at hout
    · next htext =>
      obtain ⟨d, cs, hcs, hd⟩ := hhead htext
      rw [hcs] at hu
      exact absurd (.inr (.inr (Option.some.inj hu.2))) hd
    · cases hout

theorem danglingChart_terminal {closes : Bool} (hcloses : m = '>' ↔ closes = true) {o : Outline} {outlines : Nat → Option Outline} {zone : Zone}
    {out : List Zone} (hout : (danglingChart closes).terminal o zone = some out)
    (hu : zone.holds w m z u) (h : Leaves outlines o u (some r)) :
    Within (Zone.holds w m z) out r := by
  simp only [danglingChart] at hout
  split at hout
  · obtain rfl := course_literal_iff.mp h
    exact within_literalReach H hm hcloses hout hu
  · exact within_patternReach H hm hout hu (course_anchored_iff.mp h).symm
  · cases hout

end

/-! ## Whole sources -/

/-- The zones of a text. -/
def zones : List Zone := [.inside, .behind, .start, .finish, .halved, .beyond]

/-- The chart is borne out by the rules. -/
theorem danglingChart_compiled : Parsers.compiled.toOption.any (fun parsers =>
    [false, true].all fun closes =>
      (danglingChart closes).borneOut zones parsers.program.rules 10 &&
        programOutline.reach (danglingChart closes) [.inside] == some [.inside]) = true := by
  rw [Parsers.compiled_eq]
  decide +kernel

/-- A source that the program does not match as a whole is refused. -/
theorem Transpiler.error_of_not_leaves {t : Transpiler} (hparsers : Parsers.compiled = .ok t.parsers)
    {source : List Char} (h : ¬ Leaves (outlineOf t.parsers.program.rules) programOutline source
      (some [])) (hall : t.options.matchAll = true) : (t.transform source).error = true := by
  obtain ⟨member, family, hid, hroot, -⟩ := Parsers.exists_family hparsers
  rw [transform]
  split
  · next s hs =>
    refine absurd ?_ h
    rw [← (Parsers.outline_root hparsers).1]
    exact Parser.leaves_of_parse family hid hroot hall hs
  · rfl
  · rfl

/-- A source that ends in an operator and blanks and comments is refused: whatever stands in front of
the operator, as long as nothing takes it. -/
theorem Transpiler.transform_dangling {settings : Settings} {t : Transpiler}
    (ht : Transpiler.ofSettings settings = .ok t) {e op z : List Char} (hop : op ≠ [])
    (hmarks : ∀ d ∈ op, d ∈ '/' :: operatorMarks) (h : Dangling (e ++ op) z) :
    (t.transform (e ++ op ++ z)).error = true := by
  obtain ⟨parsers, hparsers, rfl⟩ := eq_of_ofSettings ht
  obtain ⟨front, m, rfl⟩ := (List.eq_nil_or_concat op).resolve_left hop
  rw [List.concat_eq_append] at hmarks h ⊢
  have hm : m ∈ '/' :: operatorMarks := hmarks m (by simp)
  rw [← List.append_assoc] at h ⊢
  have hcheck := danglingChart_compiled
  rw [hparsers] at hcheck
  have hcheck := List.all_eq_true.mp hcheck (decide (m = '>')) (by cases decide (m = '>') <;> simp)
  obtain ⟨hrules, hprogram⟩ := Bool.and_eq_true_iff.mp hcheck
  have S : (danglingChart (decide (m = '>'))).Sound (Zone.holds (e ++ front) m z) (outlineOf parsers.program.rules) := by
    refine Chart.sound_of_borneOut (fun zone => by cases zone <;> decide) (fun slot zone hslot => ?_)
      (fun hout hu hleaves => danglingChart_terminal h hm (by simp) hout hu hleaves) hrules
    have hslots : ¬ slot < 10 ∧ ¬ slot < 8 ∧ ¬ slot < 6 ∧ ¬ slot < 5 ∧ ¬ slot = 4 := by omega
    cases zone <;> simp [danglingChart, hslots]
  refine error_of_not_leaves hparsers (fun hleaves => ?_) rfl
  have hinside : Zone.inside.holds (e ++ front) m z (e ++ front ++ m :: z) :=
    ⟨e ++ front, List.suffix_refl _, rfl⟩
  have hsource : e ++ front ++ [m] ++ z = e ++ front ++ m :: z := by simp
  rw [hsource] at hleaves
  have hend := S.within hleaves (beq_iff_eq.mp hprogram) (within_singleton.mpr hinside) rfl
  obtain ⟨v, -, hv⟩ := within_singleton.mp hend
  exact absurd hv (by simp)

/-- A conditional expression without its second branch. -/
def branchless : List Char := "x ? f(y) ".toList

/-- What is laid out behind it. -/
def branchlessEnd : List Char := " // z\n ;".toList

/-- Nothing takes the colon of the conditional expression. -/
theorem dangling_branchless : Dangling (branchless ++ [':']) branchlessEnd where
  trailer := .blank rfl (.comment (x := [' ', 'z']) (by simp [IsPlain, commentMarks])
    (.blank rfl .semicolon))
  ending := by decide
  angle := by decide
  slash := .inl (by decide)
  declared := by decide
  typeOnly := by
    intro word hword b _ _ hinfix
    have hall : ∀ word ∈ ["import", "export"], ¬ word.toList <:+: branchless ++ [':'] := by decide
    exact hall word hword (((List.prefix_append _ _).trans (List.prefix_append _ _)).isInfix.trans hinfix)

/-- A conditional expression without its second branch is refused. -/
theorem Transpiler.transform_dangling_colon : ∃ t : Transpiler, Transpiler.ofSettings {} = .ok t ∧
    (t.transform (branchless ++ [':'] ++ branchlessEnd)).error = true := by
  obtain ⟨parsers, hparsers⟩ := Parsers.exists_compiled
  have ht := ofSettings_eq hparsers {}
  exact ⟨_, ht, Transpiler.transform_dangling ht (by simp) (forall_mem_of_all (by decide))
    dangling_branchless⟩

theorem transform_taken_compiled : Parsers.compiled.toOption.any (fun parsers =>
    [("a", "a;\n"), ("a + /* c */;", "a + /* c */;\n"), ("a ++++;", "a ++++;\n"),
      ("a / b + // c", "a / b + // c;\n")].all
        (fun x => parsers.plain.transform x.1.toList = .success x.2)) = true := by
  rw [Parsers.compiled_eq]
  decide +kernel

/-- An operator takes a block comment behind it as its operand, and an operator may itself be taken by
increments or by a regular expression literal that begins in front of it. -/
theorem Transpiler.transform_taken_operator : ∃ t : Transpiler, Transpiler.ofSettings {} = .ok t ∧
    t.transform "a".toList = .success "a;\n" ∧
    t.transform "a + /* c */;".toList = .success "a + /* c */;\n" ∧
    t.transform "a ++++;".toList = .success "a ++++;\n" ∧
    t.transform "a / b + // c".toList = .success "a / b + // c;\n" := by
  obtain ⟨parsers, hparsers⟩ := Parsers.exists_compiled
  have hcheck := transform_taken_compiled
  rw [hparsers] at hcheck
  simp only [Except.toOption, Option.any_some, List.all_cons, List.all_nil, Bool.and_true,
    Bool.and_eq_true, decide_eq_true_eq] at hcheck
  obtain ⟨hletter, hcomment, hincrements, hquotient⟩ := hcheck
  exact ⟨_, ofSettings_eq hparsers {}, Parsers.transform_eq_of_plain hparsers hletter,
    Parsers.transform_eq_of_plain hparsers hcomment,
    Parsers.transform_eq_of_plain hparsers hincrements,
    Parsers.transform_eq_of_plain hparsers hquotient⟩

end Typestrip.TypeScript
