import Mathlib.Data.Bool.AllAny
import Typestrip.Proofs.Regex.Locality
import Typestrip.Proofs.TypeScript.Outlines

/-!
# Types in front of other text

The rules for types are greedy and take what they can. What they take of a text is nevertheless taken
of every longer one, if what follows cannot be the continuation of a type: it does not begin with a
bar, an arrow, a bracket and so on (`Bounds`). The rules stop exactly in front of it
(`TypeRules.type_append`).

Groups and strings have an end of their own, so nothing is asked of what follows them. Everything else
in a type is ended by what cannot go on, and behind each part of a type comes either a further part or
the end of the type, which is not the beginning of a further part.
-/

namespace Typestrip.TypeScript

open Grammar Regex

/-! ## Patterns -/

/-- A character. -/
def char (c : Char) : Expr := .chars (.single c)

/-- Some characters in a row. -/
def chars : List Char → Expr
  | [] => .empty
  | [c] => char c
  | c :: cs => .seq (char c) (chars cs)

/-- Something once or more. -/
def plus (e : Expr) : Expr := .seq e (.star true e)

/-- One of some characters. -/
def oneOf : List Char → CharSet
  | [] => .nothing
  | [c] => .single c
  | c :: cs => .union (.single c) (oneOf cs)

/-- One of some expressions. -/
def anyOf : List Expr → Expr
  | [] => .empty
  | [e] => e
  | e :: es => .alt e (anyOf es)

/-- Between two quotation marks: characters of a set, and pairs of a backslash and a character of
another set. -/
def quoted (mark : Char) (plain escaped : CharSet) : Expr :=
  .seq (char mark) (.seq (.star true (.alt (.chars plain) (.seq (char '\\') (.chars escaped))))
    (char mark))

/-- A string in single or double quotes ends on its line. -/
def quotedOnLine (mark : Char) : Expr :=
  quoted mark (.complement (oneOf [mark, '\\', '\n'])) (.complement (.single '\n'))

def string : Expr :=
  anyOf [quotedOnLine '"', quotedOnLine '\'',
    quoted '`' (.complement (oneOf ['`', '\\'])) (.union .space (.complement .space))]

def brackets : List Char := ['(', ')', '[', ']', '{', '}']

def chunkSet : CharSet := .complement (oneOf (brackets ++ ['"', '\'', '`']))

def chunk : Expr := plus (.chars chunkSet)

def angleChunkSet : CharSet := .complement (oneOf ['<', '>'])

def angleChunk : Expr := plus (.chars angleChunkSet)

def digits : Expr := plus (.chars (.range 48 57))

def number : Expr :=
  .seq (.alt (char '-') .empty) (.seq digits (.alt (.seq (char '.') digits) .empty))

def letter : CharSet := .union (.range 65 90) (.union (.range 97 122) (oneOf ['_', '$']))

def typeWord : Expr :=
  .seq (.chars letter) (.star true (.chars (.union .word (.single '$'))))

def operators : Expr :=
  anyOf (["keyof", "typeof", "readonly", "unique", "infer"].map fun s => chars s.toList)

def typeName : Expr :=
  .seq (.star true (.seq operators (plus (.chars .space))))
    (.seq (.chars letter) (.seq (.star true (.chars (.union .word (.single '$'))))
      (.star true (.seq (char '.') typeWord))))

def arraySuffix : Expr := .star true (.seq (.star true (.chars .space)) (chars ['[', ']']))

def leadingBar : Expr := .alt (.seq (char '|') (.star true (.chars .space))) .empty

def bar : Expr := .chars (oneOf ['|', '&'])

/-! ## Outlines -/

def scan (e : Expr) : Outline := .pattern (.anchored e)

/-- What stands between brackets. -/
def innerOutline : Outline := .choice [scan string, .rule (some 3), scan chunk]

/-- What stands between angle brackets. -/
def angleInnerOutline : Outline := .choice [scan angleChunk, .rule (some 4)]

/-- Any number of `inner` between two characters. -/
def enclosed (opening closing : Char) (inner : Outline) : Outline :=
  .sequence [.literal [opening], .repetition inner, .literal [closing]]

def groupOutline : Outline := .choice [.rule (some 0), .rule (some 1), .rule (some 2)]

def namedOutline : Outline :=
  .sequence [scan typeName, .optional (.sequence [blanksOutline, .rule (some 4)])]

def primaryOutline : Outline :=
  .choice [.rule (some 3), scan string, scan number, namedOutline]

def arrowOutline : Outline :=
  .sequence [blanksOutline, .literal ['=', '>'], blanksOutline, .rule (some 6)]

def termOutline : Outline :=
  .sequence [.rule (some 5), scan arraySuffix, .optional arrowOutline]

def furtherOutline : Outline :=
  .sequence [blanksOutline, scan bar, blanksOutline, termOutline]

def typeOutline : Outline :=
  .sequence [scan leadingBar, termOutline, .repetition furtherOutline]

/-- The bodies of the rules for types, by slot. -/
def typeOutlines : List Outline :=
  [enclosed '(' ')' innerOutline, enclosed '[' ']' innerOutline, enclosed '{' '}' innerOutline,
    groupOutline, enclosed '<' '>' angleInnerOutline, primaryOutline, typeOutline]

/-- The bodies of the rules for types. -/
structure TypeRules (bodies : Nat → Option Outline) : Prop where
  parens : bodies 0 = some (enclosed '(' ')' innerOutline)
  brackets : bodies 1 = some (enclosed '[' ']' innerOutline)
  braces : bodies 2 = some (enclosed '{' '}' innerOutline)
  group : bodies 3 = some groupOutline
  angles : bodies 4 = some (enclosed '<' '>' angleInnerOutline)
  primary : bodies 5 = some primaryOutline
  type : bodies 6 = some typeOutline

/-! ## Groups -/

/-- The places of a text from which more than `n` characters are left. -/
def Above (n : Nat) (cs : List Char) : Prop := n < cs.length

variable {bodies bodies' : Nat → Option Outline} {place : List Char → Prop} {n : Nat}
  {c cs r : List Char}

theorem Above.append (hc : Above n c) (cs : List Char) : Above n (cs ++ c) := by
  rw [Above, List.length_append]
  exact Nat.lt_of_lt_of_le hc (Nat.le_add_left _ _)

theorem course_scan_iff {e : Expr} {r : Option (List Char)} :
    Course bodies place (scan e) cs r ↔ r = e.rest? cs :=
  course_anchored_iff

theorem quoted_single {mark : Char} {plain escaped : CharSet} (hmark : mark ≠ '\\')
    (hplain : ∀ d, plain.holds d = true → d ≠ mark ∧ d ≠ '\\') :
    (quoted mark plain escaped).Single := by
  have hround : (Expr.alt (.chars plain) (.seq (char '\\') (.chars escaped))).Single := by
    refine .alt (Expr.single_chars _) (.seq (Expr.single_chars _) (Expr.single_chars _)) rfl ?_
    intro d
    by_cases hd : plain.holds d = true
    · refine .inr ?_
      simpa [Expr.skips, char, CharSet.holds_single] using .inl (hplain d hd).2
    · exact .inl (by simpa [Expr.skips] using hd)
  refine .seq (Expr.single_chars _) (hround.until rfl fun d hd => ?_)
  obtain rfl : d = mark := by simpa [CharSet.holds_single] using hd
  have hnot : plain.holds d = false := by
    by_contra hd
    exact (hplain d (Bool.of_not_eq_false hd)).1 rfl
  simpa [Expr.skips, char, CharSet.holds_single, hnot] using .inl hmark

theorem quoted_skips {d mark : Char} (hd : d ≠ mark) (plain escaped : CharSet) :
    (quoted mark plain escaped).skips d = true := by
  simpa [quoted, Expr.skips, char, CharSet.holds_single] using .inl hd

theorem string_skips {d : Char} (hdouble : d ≠ '"') (hsingle : d ≠ '\'') (htick : d ≠ '`') :
    string.skips d = true := by
  refine Bool.and_eq_true_iff.mpr ⟨?_, Bool.and_eq_true_iff.mpr ⟨?_, ?_⟩⟩
  · exact quoted_skips hdouble _ _
  · exact quoted_skips hsingle _ _
  · exact quoted_skips htick _ _

/-- A string ends at the first mark that ends it. -/
theorem string_single : string.Single := by
  have hline {mark : Char} (hmark : mark ≠ '\\') : (quotedOnLine mark).Single := by
    refine quoted_single hmark fun d hd => ?_
    simp only [oneOf, CharSet.holds_complement, CharSet.holds_union, CharSet.holds_single,
      Bool.not_eq_true', Bool.or_eq_false_iff, beq_eq_false_iff_ne] at hd
    exact ⟨hd.1, hd.2.1⟩
  refine .alt (hline (by decide)) (.alt (hline (by decide)) (quoted_single (by decide) ?_) rfl ?_)
    rfl ?_
  · intro d hd
    simpa [oneOf, CharSet.holds_single] using hd
  · intro d
    by_cases hd : d = '`'
    · exact .inl (quoted_skips (by rw [hd]; decide) _ _)
    · exact .inr (quoted_skips hd _ _)
  · intro d
    by_cases hd : d = '"'
    · exact .inr (by rw [hd]; decide)
    · exact .inl (quoted_skips hd _ _)

/-- Rounds that end in front of the closing character end there in a longer text. -/
theorem rounds_append {closing : Char} {inner : Outline} {N : Nat} (hc : Above n c)
    (hclosing : ∀ cs, Leaves bodies inner (closing :: cs) none)
    (hclosing' : ∀ cs, Course bodies' (Above n) inner (closing :: cs) none)
    (hinner : ∀ {cs r}, cs.length < N → Leaves bodies inner cs (some r) → r ≠ [] →
      Course bodies' (Above n) inner (cs ++ c) (some (r ++ c)))
    (hcs : cs.length < N) (h : Leaves bodies (.repetition inner) cs (some (closing :: r))) :
    Course bodies' (Above n) (.repetition inner) (cs ++ c) (some (closing :: r ++ c)) := by
  generalize hr : some (closing :: r) = r' at h
  generalize ho : Outline.repetition inner = o at h
  induction h with
  | @round o cs mid r' h hlt _ hs _ ih =>
    obtain rfl := Outline.repetition.inj ho
    have hmid : mid ≠ [] := by
      rintro rfl
      have := hs.length_le hr.symm
      simp at this
    refine .round (hinner hcs h hmid) ?_ (hc.append mid) (ih (Nat.lt_trans hlt hcs) hr ho)
    simpa using hlt
  | idle h =>
    obtain rfl := Outline.repetition.inj ho
    obtain rfl := Option.some.inj hr
    cases h.unique (hclosing r)
  | stop =>
    obtain rfl := Outline.repetition.inj ho
    obtain rfl := Option.some.inj hr
    exact .stop (hclosing' (r ++ c))
  | _ => cases ho

/-- What is enclosed is so in a longer text. -/
theorem enclosed_append {opening closing : Char} {inner : Outline} (hc : Above n c)
    (hclosing : ∀ cs, Leaves bodies inner (closing :: cs) none)
    (hclosing' : ∀ cs, Course bodies' (Above n) inner (closing :: cs) none)
    (hinner : ∀ {cs' r}, cs'.length < cs.length → Leaves bodies inner cs' (some r) → r ≠ [] →
      Course bodies' (Above n) inner (cs' ++ c) (some (r ++ c)))
    (h : Leaves bodies (enclosed opening closing inner) cs (some r)) :
    Course bodies' (Above n) (enclosed opening closing inner) (cs ++ c) (some (r ++ c)) := by
  obtain ⟨cs', hopen, -, h⟩ := course_part_iff.mp h
  obtain ⟨mid, hrounds, -, h⟩ := course_part_iff.mp h
  obtain ⟨mid', hclose, -, h⟩ := course_part_iff.mp h
  obtain rfl := Option.some.inj (course_done_iff.mp h)
  obtain rfl := course_literal_iff.mp hopen
  obtain rfl := course_literal_iff.mp hclose
  have hrounds' := rounds_append hc hclosing hclosing' hinner (by simp) hrounds
  refine .part (course_literal_iff.mpr rfl) (hc.append cs') (.part hrounds' ?_ ?_)
  · exact hc.append (closing :: r)
  · exact .part (course_literal_iff.mpr rfl) (hc.append r) .done

/-- Blanks in front of something. -/
theorem blanks_append {mid : List Char} (hmid : mid ≠ [])
    (h : Leaves bodies blanksOutline cs (some mid)) :
    Course bodies' place blanksOutline (cs ++ c) (some (mid ++ c)) := by
  obtain rfl := Option.some.inj (course_blanks_iff.mp h)
  rw [course_blanks_iff, List.dropWhile_append, if_neg (by simpa using hmid)]

theorem enclosed_failed {opening closing d : Char} {inner : Outline} (hd : d ≠ opening) :
    Course bodies place (enclosed opening closing inner) (d :: cs) none := by
  refine .partFailed (.literalFailed fun hprefix => hd ?_)
  exact (List.cons_prefix_cons.mp hprefix).1.symm

/-- What is enclosed begins with the opening character. -/
theorem exists_of_enclosed {opening closing : Char} {inner : Outline}
    (h : Course bodies place (enclosed opening closing inner) cs (some r)) :
    ∃ cs', cs = opening :: cs' := by
  obtain ⟨cs', hopen, -⟩ := course_part_iff.mp h
  exact ⟨cs', course_literal_iff.mp hopen⟩

/-! ## What does not go on -/

/-- Behind its blanks a text does not begin with any of some beginnings. -/
def Closed (heads : List (List Char)) (cs : List Char) : Prop :=
  ∀ t ∈ heads, ¬ t <+: cs.dropWhile Unicode.isSpace

/-- With what a type goes on: its arguments, what it returns, further alternatives or parts. -/
def heads : List (List Char) := [['<'], ['=', '>'], ['|'], ['&']]

/-- With what a type goes on in front of further alternatives or parts. -/
def termHeads : List (List Char) := [['<'], ['=', '>']]

theorem Closed.mono {ts ts' : List (List Char)} (h : Closed ts cs) (hts : ts' ⊆ ts) :
    Closed ts' cs :=
  fun t ht => h t (hts ht)

/-- A text with which no type goes on, and of which more than `n` characters stand behind the blanks. -/
structure Bounds (n : Nat) (c : List Char) : Prop where
  name : typeName.bars c = true
  number : number.bars c = true
  suffix : arraySuffix.bars c = true
  arrow : ¬ ['>'] <+: c
  closed : Closed heads c
  above : Above n (c.dropWhile Unicode.isSpace)

theorem dropWhile_append_of_ne_nil {p : Char → Bool} {cs : List Char} (h : cs.dropWhile p ≠ [])
    (c : List Char) : (cs ++ c).dropWhile p = cs.dropWhile p ++ c := by
  rw [List.dropWhile_append, if_neg (by simpa using h)]

theorem dropWhile_append_of_eq_nil {p : Char → Bool} {cs : List Char} (h : cs.dropWhile p = [])
    (c : List Char) : (cs ++ c).dropWhile p = c.dropWhile p := by
  rw [List.dropWhile_append, if_pos (by simpa using h)]

namespace Bounds

variable (hc : Bounds n c)

include hc

theorem above_self : Above n c :=
  Nat.lt_of_lt_of_le hc.above (List.dropWhile_suffix _).length_le

theorem above_blanks (cs : List Char) : Above n ((cs ++ c).dropWhile Unicode.isSpace) := by
  by_cases h : cs.dropWhile Unicode.isSpace = []
  · rw [dropWhile_append_of_eq_nil h]
    exact hc.above
  · rw [dropWhile_append_of_ne_nil h]
    exact hc.above_self.append _

/-- What a text does not go on with it does not go on with in front of `c`. -/
theorem closed_append {ts : List (List Char)} (hts : ts ⊆ heads) (hr : Closed ts r) :
    Closed ts (r ++ c) := by
  intro t ht hprefix
  have hnot := hr t ht
  match h : r.dropWhile Unicode.isSpace with
  | [] =>
    rw [dropWhile_append_of_eq_nil h] at hprefix
    exact hc.closed t (hts ht) hprefix
  | d :: cs =>
    rw [dropWhile_append_of_ne_nil (by simp [h]), h] at hprefix
    rw [h] at hnot
    have ht := hts ht
    simp only [heads, List.mem_cons, List.not_mem_nil, or_false] at ht
    rcases ht with rfl | rfl | rfl | rfl
    · exact hnot (by simpa using hprefix)
    · obtain ⟨rfl, htail⟩ := List.cons_prefix_cons.mp hprefix
      cases cs with
      | nil => exact hc.arrow htail
      | cons d cs => exact hnot (by simpa using htail)
    · exact hnot (by simpa using hprefix)
    · exact hnot (by simpa using hprefix)

end Bounds

/-- A further part begins with a bar. -/
theorem exists_of_further (h : Leaves bodies furtherOutline cs (some r)) :
    ∃ d cs', cs.dropWhile Unicode.isSpace = d :: cs' ∧ d ∈ ['|', '&'] := by
  obtain ⟨mid, hblanks, -, h⟩ := course_part_iff.mp h
  obtain ⟨mid', hbar, -, h⟩ := course_part_iff.mp h
  obtain rfl := Option.some.inj (course_blanks_iff.mp hblanks)
  obtain ⟨d, cs', hcs, hd⟩ := Expr.exists_of_rest? rfl (course_scan_iff.mp hbar).symm
  refine ⟨d, cs', hcs, ?_⟩
  simpa [bar, Expr.skips, oneOf, CharSet.holds_single, or_iff_not_imp_left] using hd

theorem further_failed (h : Closed heads cs) (hplace : place (cs.dropWhile Unicode.isSpace)) :
    Course bodies' place furtherOutline cs none := by
  refine .part (course_blanks_iff.mpr rfl) hplace (.partFailed (course_scan_iff.mpr ?_))
  have hbar := h ['|'] (by decide)
  have hand := h ['&'] (by decide)
  cases hcs : cs.dropWhile Unicode.isSpace with
  | nil => rfl
  | cons d cs' =>
    rw [hcs, List.cons_prefix_cons] at hbar hand
    have hskips : bar.skips d = true := by
      have hne : d ≠ '|' ∧ d ≠ '&' := by
        constructor <;> rintro rfl <;> simp at hbar hand
      simpa [bar, Expr.skips, oneOf, CharSet.holds_single] using hne
    exact (Expr.rest?_of_skips hskips cs').symm

theorem arrow_failed (h : ¬ ['=', '>'] <+: cs.dropWhile Unicode.isSpace)
    (hplace : place (cs.dropWhile Unicode.isSpace)) : Course bodies' place arrowOutline cs none :=
  .part (course_blanks_iff.mpr rfl) hplace (.partFailed (.literalFailed h))

/-- Brackets behind a type are taken where they come next. -/
theorem arraySuffix_of_angle (h : ['<'] <+: cs.dropWhile Unicode.isSpace) :
    arraySuffix.rest? cs = some cs := by
  obtain ⟨cs', hcs⟩ := h
  refine Expr.rest?_star_of_ends (Expr.ends_behind_run rfl (fun d hd => ?_) ?_)
  · have hopen : CharSet.space.holds '[' = false := by decide
    have hne : d ≠ '[' := by
      rintro rfl
      rw [hopen] at hd
      cases hd
    simpa [chars, char, Expr.skips, CharSet.holds_single] using .inl hne
  · intro d hd
    have hhead : cs.dropWhile CharSet.space.holds = '<' :: cs' := hcs.symm
    rw [hhead] at hd
    obtain rfl := Option.some.inj hd
    rfl

/-- A bar in front of something. -/
theorem leadingBar_append (hr : r ≠ []) (h : leadingBar.rest? cs = some r) :
    leadingBar.rest? (cs ++ c) = some (r ++ c) := by
  rw [leadingBar, Expr.rest?_or_empty] at h ⊢
  cases cs with
  | nil =>
    obtain rfl := Option.some.inj h
    exact absurd rfl hr
  | cons d cs =>
    rw [List.cons_append]
    by_cases hd : (CharSet.single '|').holds d = true
    · rw [char, Expr.rest?_chars_seq hd, Expr.head?_ends_run] at h ⊢
      obtain rfl := Option.some.inj h
      rw [Option.getD_some, Option.getD_some, dropWhile_append_of_ne_nil hr]
    · rw [char, Expr.rest?_chars_seq_of_not (Bool.eq_false_iff.mpr hd)] at h ⊢
      obtain rfl := Option.some.inj h
      rfl

/-- What follows a part of a type: nothing that goes on with it, or a further part. -/
def Follows (bodies : Nat → Option Outline) (r : List Char) : Prop :=
  Closed heads r ∨ ∃ mid, Leaves bodies furtherOutline r (some mid)

theorem Follows.closed (h : Follows bodies r) : Closed termHeads r := by
  rcases h with h | ⟨mid, h⟩
  · exact h.mono (by decide)
  · obtain ⟨d, cs', hcs, hd⟩ := exists_of_further h
    rintro t ht hprefix
    rw [hcs] at hprefix
    simp only [termHeads, List.mem_cons, List.not_mem_nil, or_false] at ht hd
    rcases ht with rfl | rfl <;> rcases hd with rfl | rfl <;> simp at hprefix


namespace TypeRules

variable (B : TypeRules bodies)

include B

theorem group_failed {d : Char} (hd : d ∉ ['(', '[', '{']) :
    Course bodies place (.rule (some 3)) (d :: cs) none := by
  simp only [List.mem_cons, List.not_mem_nil, or_false, not_or] at hd
  refine .rule B.group (.otherwise (.rule B.parens ?_) (.otherwise (.rule B.brackets ?_)
    (.otherwise (.rule B.braces ?_) .exhausted)))
  · exact enclosed_failed hd.1
  · exact enclosed_failed hd.2.1
  · exact enclosed_failed hd.2.2

/-- A group is enclosed in one of three ways. -/
theorem exists_of_group (h : Course bodies place (.rule (some 3)) cs (some r)) :
    ∃ opening closing, (opening, closing) ∈ [('(', ')'), ('[', ']'), ('{', '}')] ∧
      Course bodies place (enclosed opening closing innerOutline) cs (some r) := by
  have hgroup := (course_rule_iff B.group).mp h
  rcases course_alternative_iff.mp hgroup with h | ⟨-, hgroup⟩
  · exact ⟨'(', ')', by decide, (course_rule_iff B.parens).mp h⟩
  rcases course_alternative_iff.mp hgroup with h | ⟨-, hgroup⟩
  · exact ⟨'[', ']', by decide, (course_rule_iff B.brackets).mp h⟩
  rcases course_alternative_iff.mp hgroup with h | ⟨-, hgroup⟩
  · exact ⟨'{', '}', by decide, (course_rule_iff B.braces).mp h⟩
  · exact absurd hgroup not_course_exhausted

theorem group_of_enclosed {opening closing : Char}
    (hmem : (opening, closing) ∈ [('(', ')'), ('[', ']'), ('{', '}')])
    (h : Course bodies place (enclosed opening closing innerOutline) cs (some r)) :
    Course bodies place (.rule (some 3)) cs (some r) := by
  obtain ⟨cs', rfl⟩ := exists_of_enclosed h
  refine .rule B.group ?_
  simp only [List.mem_cons, Prod.mk.injEq, List.not_mem_nil, or_false] at hmem
  rcases hmem with ⟨rfl, rfl⟩ | ⟨rfl, rfl⟩ | ⟨rfl, rfl⟩
  · exact .alternative (.rule B.parens h)
  · exact .otherwise (.rule B.parens (enclosed_failed (by decide)))
      (.alternative (.rule B.brackets h))
  · exact .otherwise (.rule B.parens (enclosed_failed (by decide)))
      (.otherwise (.rule B.brackets (enclosed_failed (by decide)))
        (.alternative (.rule B.braces h)))

theorem inner_failed {d : Char} (hd : d ∈ [')', ']', '}']) :
    Course bodies place innerOutline (d :: cs) none := by
  have hskips : ∀ d ∈ [')', ']', '}'], string.skips d = true ∧ chunk.skips d = true :=
    List.all_iff_forall_prop.mp rfl
  have hopening : ∀ d ∈ [')', ']', '}'], d ∉ ['(', '[', '{'] := List.all_iff_forall_prop.mp rfl
  obtain ⟨hstring, hchunk⟩ := hskips d hd
  refine .otherwise ?_ (.otherwise (B.group_failed fun hopen => ?_) (.otherwise ?_ .exhausted))
  · exact course_scan_iff.mpr (Expr.rest?_of_skips hstring cs).symm
  · exact hopening d hd hopen
  · exact course_scan_iff.mpr (Expr.rest?_of_skips hchunk cs).symm

variable (B' : TypeRules bodies')

include B'

/-- What stands between brackets, other than at the end of the text. -/
theorem inner_append (hgroup : Leaves bodies (.rule (some 3)) cs (some r) →
      Course bodies' (Above n) (.rule (some 3)) (cs ++ c) (some (r ++ c)))
    (h : Leaves bodies innerOutline cs (some r)) (hr : r ≠ []) :
    Course bodies' (Above n) innerOutline (cs ++ c) (some (r ++ c)) := by
  rcases course_alternative_iff.mp h with h | ⟨-, h⟩
  · have hstring := string_single.rest?_append rfl (course_scan_iff.mp h).symm c
    exact .alternative (course_scan_iff.mpr hstring.symm)
  rcases course_alternative_iff.mp h with h | ⟨-, h⟩
  · obtain ⟨opening, closing, hmem, henclosed⟩ := B.exists_of_group h
    obtain ⟨cs', rfl⟩ := exists_of_enclosed henclosed
    refine .otherwise (course_scan_iff.mpr ?_) (.alternative (hgroup h))
    have hskips : ∀ pair ∈ [('(', ')'), ('[', ']'), ('{', '}')], string.skips pair.1 = true := by
      decide
    exact (Expr.rest?_of_skips (hskips _ hmem) _).symm
  rcases course_alternative_iff.mp h with h | ⟨-, h⟩
  · have hchunk := (course_scan_iff.mp h).symm
    obtain ⟨d, cs', rfl, hd⟩ := Expr.exists_of_rest? rfl hchunk
    have hd : chunkSet.holds d = true := by simpa [chunk, plus, Expr.skips, Expr.shuns] using hd
    rw [chunk, plus, Expr.rest?_run_cons hd] at hchunk
    obtain rfl := Option.some.inj hchunk
    have hnot : ∀ d ∈ ['(', '[', '{', '"', '\'', '`'], chunkSet.holds d = false :=
      List.all_iff_forall_prop.mp rfl
    have hstring : string.skips d = true := by
      have hmark : ∀ mark ∈ ['"', '\'', '`'], d ≠ mark := by
        rintro mark hmark rfl
        rw [hnot d (List.mem_append_right ['(', '[', '{'] hmark)] at hd
        cases hd
      simp only [List.forall_mem_cons] at hmark
      exact string_skips hmark.1 hmark.2.1 hmark.2.2.1
    refine .otherwise (course_scan_iff.mpr (Expr.rest?_of_skips hstring _).symm)
      (.otherwise (B'.group_failed fun hopen => ?_) (.alternative (course_scan_iff.mpr ?_)))
    · rw [hnot d (List.mem_append_left _ hopen)] at hd
      cases hd
    · rw [List.cons_append, chunk, plus, Expr.rest?_run_cons hd, List.dropWhile_append]
      simp [hr]
  · exact absurd h not_course_exhausted

/-- A group is one in a longer text. -/
theorem group_append (hc : Above n c) {cs r : List Char}
    (h : Leaves bodies (.rule (some 3)) cs (some r)) :
    Course bodies' (Above n) (.rule (some 3)) (cs ++ c) (some (r ++ c)) := by
  obtain ⟨opening, closing, hmem, henclosed⟩ := B.exists_of_group h
  have hclosing : ∀ pair ∈ [('(', ')'), ('[', ']'), ('{', '}')], pair.2 ∈ [')', ']', '}'] := by
    decide
  refine B'.group_of_enclosed hmem (enclosed_append hc (fun cs => B.inner_failed ?_)
    (fun cs => B'.inner_failed ?_) ?_ henclosed)
  · exact hclosing _ hmem
  · exact hclosing _ hmem
  · intro cs' r' hlt hinner hr
    exact B.inner_append B' (fun h => group_append hc h) hinner hr
termination_by cs.length

/-- Angle brackets that are closed are closed in a longer text. -/
theorem angles_append (hc : Above n c) {cs r : List Char}
    (h : Leaves bodies (.rule (some 4)) cs (some r)) :
    Course bodies' (Above n) (.rule (some 4)) (cs ++ c) (some (r ++ c)) := by
  have hclosing {bodies : Nat → Option Outline} {place : List Char → Prop} (B : TypeRules bodies)
      (cs : List Char) : Course bodies place angleInnerOutline ('>' :: cs) none :=
    .otherwise (course_scan_iff.mpr (Expr.rest?_of_skips rfl cs).symm)
      (.otherwise (.rule B.angles (enclosed_failed (by decide))) .exhausted)
  refine .rule B'.angles (enclosed_append hc (hclosing B) (hclosing B') ?_
    ((course_rule_iff B.angles).mp h))
  intro cs' r' hlt h hr
  rcases course_alternative_iff.mp h with h | ⟨-, h⟩
  · have hchunk := (course_scan_iff.mp h).symm
    obtain ⟨d, cs', rfl, hd⟩ := Expr.exists_of_rest? rfl hchunk
    have hd : angleChunkSet.holds d = true := by
      simpa [angleChunk, plus, Expr.skips, Expr.shuns] using hd
    rw [angleChunk, plus, Expr.rest?_run_cons hd] at hchunk
    obtain rfl := Option.some.inj hchunk
    refine .alternative (course_scan_iff.mpr ?_)
    rw [List.cons_append, angleChunk, plus, Expr.rest?_run_cons hd, List.dropWhile_append]
    simp [hr]
  rcases course_alternative_iff.mp h with h | ⟨-, h⟩
  · obtain ⟨cs'', rfl⟩ := exists_of_enclosed ((course_rule_iff B.angles).mp h)
    exact .otherwise (course_scan_iff.mpr (Expr.rest?_of_skips rfl _).symm)
      (.alternative (angles_append hc h))
  · exact absurd h not_course_exhausted
termination_by cs.length

/-! ## Types -/

omit B' in
/-- The rules for types have no other bodies. -/
theorem mem {slot : Nat} {o : Outline} (hslot : slot ≤ 6) (hbody : bodies slot = some o) :
    o ∈ typeOutlines := by
  have hgiven {o' : Outline} (h : bodies slot = some o') (ho' : o' ∈ typeOutlines) :
      o ∈ typeOutlines := by
    obtain rfl := Option.some.inj (hbody.symm.trans h)
    exact ho'
  match slot, hslot with
  | 0, _ => exact hgiven B.parens (by simp [typeOutlines])
  | 1, _ => exact hgiven B.brackets (by simp [typeOutlines])
  | 2, _ => exact hgiven B.braces (by simp [typeOutlines])
  | 3, _ => exact hgiven B.group (by simp [typeOutlines])
  | 4, _ => exact hgiven B.angles (by simp [typeOutlines])
  | 5, _ => exact hgiven B.primary (by simp [typeOutlines])
  | 6, _ => exact hgiven B.type (by simp [typeOutlines])

omit B' in
/-- The rules for types take something. -/
theorem takes {slot : Nat} {o : Outline} (hslot : decide (slot ≤ 6) = true)
    (hbody : bodies slot = some o) : o.takes (fun slot => decide (slot ≤ 6)) = true :=
  List.all_eq_true.mp (rfl : typeOutlines.all (·.takes fun slot => decide (slot ≤ 6)) = true) o
    (B.mem (of_decide_eq_true hslot) hbody)

omit B' in
/-- A match that takes something begins with something. -/
theorem ne_nil {o : Outline} (ho : o.takes (fun slot => decide (slot ≤ 6)) = true)
    (h : Leaves bodies o cs (some r)) : cs ≠ [] := by
  rintro rfl
  exact Nat.not_lt_zero _ (h.length_lt B.takes rfl ho)

omit B' in
theorem angles_failed (h : ¬ ['<'] <+: cs) : Course bodies place (.rule (some 4)) cs none :=
  .rule B.angles (.partFailed (.literalFailed h))

/-- A name, with its arguments if it has some. -/
theorem named_append (hc : Bounds n c) (h : Leaves bodies namedOutline cs (some r))
    (hr : Closed [['<']] r) : Course bodies' (Above n) namedOutline (cs ++ c) (some (r ++ c)) := by
  obtain ⟨mid, hname, -, h⟩ := course_part_iff.mp h
  obtain ⟨mid', hangles, -, h⟩ := course_part_iff.mp h
  obtain rfl := Option.some.inj (course_done_iff.mp h)
  have hname' : Course bodies' (Above n) (scan typeName) (cs ++ c) (some (mid ++ c)) := by
    rw [course_scan_iff, Expr.rest?_append rfl hc.name, ← course_scan_iff.mp hname]
    rfl
  refine .part hname' (hc.above_self.append mid) (.part ?_ (hc.above_self.append r) .done)
  rcases course_optional_iff.mp hangles with hangles | ⟨-, rfl⟩
  · obtain ⟨mid', hblanks, -, h⟩ := course_part_iff.mp hangles
    obtain ⟨mid'', hangles, -, h⟩ := course_part_iff.mp h
    obtain rfl := Option.some.inj (course_done_iff.mp h)
    refine .optional (.part (blanks_append ?_ hblanks) (hc.above_self.append mid')
      (.part (B.angles_append B' hc.above_self hangles) (hc.above_self.append r) .done))
    exact B.ne_nil rfl hangles
  · refine .skipped (.part (course_blanks_iff.mpr rfl) (hc.above_blanks r)
      (.partFailed (B'.angles_failed ?_)))
    exact hc.closed_append (by decide) hr ['<'] (by decide)

/-- A type without suffixes. -/
theorem primary_append (hc : Bounds n c) (h : Leaves bodies (.rule (some 5)) cs (some r))
    (hr : Closed [['<']] r) :
    Course bodies' (Above n) (.rule (some 5)) (cs ++ c) (some (r ++ c)) := by
  have hprimary := (course_rule_iff B.primary).mp h
  refine .rule B'.primary ?_
  rcases course_alternative_iff.mp hprimary with h | ⟨-, hprimary⟩
  · exact .alternative (B.group_append B' hc.above_self h)
  rcases course_alternative_iff.mp hprimary with h | ⟨-, hprimary⟩
  · have hstring := (course_scan_iff.mp h).symm
    obtain ⟨d, cs', rfl, hd⟩ := Expr.exists_of_rest? rfl hstring
    refine .otherwise (B'.group_failed fun hopen => ?_)
      (.alternative (course_scan_iff.mpr (string_single.rest?_append rfl hstring c).symm))
    have hskips : ∀ d ∈ ['(', '[', '{'], string.skips d = true := List.all_iff_forall_prop.mp rfl
    rw [hskips d hopen] at hd
    cases hd
  -- numbers and names begin with neither brackets nor marks
  have hskips : ∀ d ∈ ['(', '[', '{', '"', '\'', '`'],
      number.skips d = true ∧ typeName.skips d = true := List.all_iff_forall_prop.mp rfl
  have hlater {d : Char} {cs' : List Char} (hd : d ∉ ['(', '[', '{', '"', '\'', '`'])
      {os : List Outline} {rest : List Char}
      (h : Course bodies' (Above n) (.choice os) (d :: cs') (some rest)) :
      Course bodies' (Above n) (.choice (.rule (some 3) :: scan string :: os)) (d :: cs')
        (some rest) := by
    simp only [List.mem_cons, List.not_mem_nil, or_false, not_or] at hd
    refine .otherwise (B'.group_failed (by simp [hd])) (.otherwise (course_scan_iff.mpr ?_) h)
    exact (Expr.rest?_of_skips (string_skips hd.2.2.2.1 hd.2.2.2.2.1 hd.2.2.2.2.2) cs').symm
  rcases course_alternative_iff.mp hprimary with h | ⟨hnumber, hprimary⟩
  · have hnumber := (course_scan_iff.mp h).symm
    obtain ⟨d, cs', rfl, hd⟩ := Expr.exists_of_rest? rfl hnumber
    refine hlater (fun hmem => ?_) (.alternative (course_scan_iff.mpr ?_))
    · rw [(hskips d hmem).1] at hd
      cases hd
    · have happend := Expr.rest?_append (e := Typestrip.TypeScript.number) rfl hc.number (d :: cs')
      rw [hnumber] at happend
      exact happend.symm
  rcases course_alternative_iff.mp hprimary with h | ⟨-, hprimary⟩
  · obtain ⟨mid, hname, -⟩ := course_part_iff.mp h
    obtain ⟨d, cs', rfl, hd⟩ := Expr.exists_of_rest? rfl (course_scan_iff.mp hname).symm
    refine hlater (fun hmem => ?_)
      (.otherwise (course_scan_iff.mpr ?_) (.alternative (B.named_append B' hc h hr)))
    · rw [(hskips d hmem).2] at hd
      cases hd
    · have happend := Expr.rest?_append (e := Typestrip.TypeScript.number) rfl hc.number (d :: cs')
      rw [← course_scan_iff.mp hnumber] at happend
      exact happend.symm
  · exact absurd hprimary not_course_exhausted

/-- A part of a type, provided that types in shorter texts are as they should be. -/
theorem term_append (hc : Bounds n c)
    (ih : ∀ {cs' r'}, cs'.length < cs.length → Leaves bodies (.rule (some 6)) cs' (some r') →
      Closed heads r' → Course bodies' (Above n) (.rule (some 6)) (cs' ++ c) (some (r' ++ c)))
    (h : Leaves bodies termOutline cs (some r)) (hr : Follows bodies r) :
    Course bodies' (Above n) termOutline (cs ++ c) (some (r ++ c)) := by
  obtain ⟨mid, hprimary, -, h⟩ := course_part_iff.mp h
  obtain ⟨mid', hsuffix, -, h⟩ := course_part_iff.mp h
  obtain ⟨mid'', harrow, -, h⟩ := course_part_iff.mp h
  obtain rfl := Option.some.inj (course_done_iff.mp h)
  have hmid : Closed [['<']] mid := by
    intro t ht hangle
    obtain rfl := List.mem_singleton.mp ht
    -- no suffix is taken and no arrow, so that the angle bracket is left
    obtain rfl : mid' = mid := by
      have := course_scan_iff.mp hsuffix
      rw [arraySuffix_of_angle hangle] at this
      exact Option.some.inj this
    rcases course_optional_iff.mp harrow with harrow | ⟨-, rfl⟩
    · obtain ⟨cs₁, hblanks, -, h⟩ := course_part_iff.mp harrow
      obtain ⟨cs₂, hliteral, -⟩ := course_part_iff.mp h
      rw [← Option.some.inj (course_blanks_iff.mp hblanks), course_literal_iff.mp hliteral] at hangle
      simp at hangle
    · exact hr.closed ['<'] (by decide) hangle
  have hsuffix' : Course bodies' (Above n) (scan arraySuffix) (mid ++ c) (some (mid' ++ c)) := by
    rw [course_scan_iff, Expr.rest?_append rfl hc.suffix, ← course_scan_iff.mp hsuffix]
    rfl
  refine .part (B.primary_append B' hc hprimary hmid) (hc.above_self.append mid)
    (.part hsuffix' (hc.above_self.append mid') (.part ?_ (hc.above_self.append r) .done))
  rcases course_optional_iff.mp harrow with harrow | ⟨-, rfl⟩
  · obtain ⟨cs₁, hblanks₁, -, h⟩ := course_part_iff.mp harrow
    obtain ⟨cs₂, hliteral, -, h⟩ := course_part_iff.mp h
    obtain ⟨cs₃, hblanks₂, -, h⟩ := course_part_iff.mp h
    obtain ⟨cs₄, htype, -, h⟩ := course_part_iff.mp h
    obtain rfl := Option.some.inj (course_done_iff.mp h)
    obtain rfl := course_literal_iff.mp hliteral
    have hlt : cs₃.length < cs.length := by
      have h₁ := hprimary.length_le rfl
      have h₂ := hsuffix.length_le rfl
      have h₃ := hblanks₁.length_le rfl
      have h₄ := hblanks₂.length_le rfl
      rw [List.length_append, List.length_cons] at h₃
      omega
    -- behind the type that is returned no further part comes
    have hclosed : Closed heads r := hr.resolve_right fun ⟨mid, hfurther⟩ => by
      obtain ⟨_, -, -, h⟩ := course_part_iff.mp ((course_rule_iff B.type).mp htype)
      obtain ⟨_, -, -, h⟩ := course_part_iff.mp h
      obtain ⟨_, hrounds, -, h⟩ := course_part_iff.mp h
      obtain rfl := Option.some.inj (course_done_iff.mp h)
      rcases hrounds.repetition_end with hstop | hidle
      · cases hstop.unique hfurther
      · exact Nat.lt_irrefl _ (hidle.length_lt B.takes rfl rfl)
    refine .optional (.part (blanks_append (by simp) hblanks₁) (hc.above_self.append _)
      (.part (course_literal_iff.mpr rfl) (hc.above_self.append cs₂)
        (.part (blanks_append (B.ne_nil rfl htype) hblanks₂) (hc.above_self.append cs₃)
          (.part (ih hlt htype hclosed) (hc.above_self.append r) .done))))
  · refine .skipped (arrow_failed ?_ (hc.above_blanks r))
    exact hc.closed_append (by decide) hr.closed ['=', '>'] (by decide)

/-- Further parts of a type. -/
theorem rounds_append (hc : Bounds n c) {N : Nat}
    (ih : ∀ {cs' r'}, cs'.length < N → Leaves bodies (.rule (some 6)) cs' (some r') →
      Closed heads r' → Course bodies' (Above n) (.rule (some 6)) (cs' ++ c) (some (r' ++ c)))
    (h : Leaves bodies (.repetition furtherOutline) cs (some r)) (hr : Closed heads r)
    (hcs : cs.length ≤ N) :
    Follows bodies cs ∧
      Course bodies' (Above n) (.repetition furtherOutline) (cs ++ c) (some (r ++ c)) := by
  generalize hr' : some r = r' at h
  generalize ho : Outline.repetition furtherOutline = o at h
  have hstop : Closed heads cs → Course bodies' (Above n) furtherOutline (cs ++ c) none := fun hcs =>
    further_failed (hc.closed_append (List.Subset.refl _) hcs) (hc.above_blanks cs)
  induction h with
  | @round o cs mid r' h hlt _ _ _ ihs =>
    obtain rfl := Outline.repetition.inj ho
    obtain ⟨hfollows, hrounds⟩ := ihs (by omega) hr' ho fun hmid =>
      further_failed (hc.closed_append (List.Subset.refl _) hmid) (hc.above_blanks mid)
    refine ⟨.inr ⟨mid, h⟩, .round ?_ (by simpa using hlt) (hc.above_self.append mid) hrounds⟩
    obtain ⟨cs₁, hblanks₁, -, h⟩ := course_part_iff.mp h
    obtain ⟨cs₂, hbar, -, h⟩ := course_part_iff.mp h
    obtain ⟨cs₃, hblanks₂, -, h⟩ := course_part_iff.mp h
    obtain ⟨cs₄, hterm, -, h⟩ := course_part_iff.mp h
    obtain rfl := Option.some.inj (course_done_iff.mp h)
    have h₁ := hblanks₁.length_le rfl
    have h₂ := hbar.length_le rfl
    have h₃ := hblanks₂.length_le rfl
    have hbar' := (Expr.single_chars _).rest?_append rfl (course_scan_iff.mp hbar).symm c
    exact .part (blanks_append (B.ne_nil rfl hbar) hblanks₁) (hc.above_self.append cs₁)
      (.part (course_scan_iff.mpr hbar'.symm) (hc.above_self.append cs₂)
        (.part (blanks_append (B.ne_nil rfl hterm) hblanks₂) (hc.above_self.append cs₃)
          (.part (B.term_append B' hc (fun hlt => ih (by omega)) hterm hfollows)
            (hc.above_self.append mid) .done)))
  | idle h =>
    obtain rfl := Outline.repetition.inj ho
    obtain rfl := Option.some.inj hr'
    exact ⟨.inl hr, .stop (hstop hr)⟩
  | stop =>
    obtain rfl := Outline.repetition.inj ho
    obtain rfl := Option.some.inj hr'
    exact ⟨.inl hr, .stop (hstop hr)⟩
  | _ => cases ho

/-- A type is one in front of a text with which it does not go on. -/
theorem type_append (hc : Bounds n c) {cs r : List Char}
    (h : Leaves bodies (.rule (some 6)) cs (some r)) (hr : Closed heads r) :
    Course bodies' (Above n) (.rule (some 6)) (cs ++ c) (some (r ++ c)) := by
  have ih {cs' r' : List Char} (hlt : cs'.length < cs.length)
      (h : Leaves bodies (.rule (some 6)) cs' (some r')) (hr : Closed heads r') :=
    type_append hc h hr
  obtain ⟨mid, hleading, -, h⟩ := course_part_iff.mp ((course_rule_iff B.type).mp h)
  obtain ⟨mid', hterm, -, h⟩ := course_part_iff.mp h
  obtain ⟨mid'', hrounds, -, h⟩ := course_part_iff.mp h
  obtain rfl := Option.some.inj (course_done_iff.mp h)
  have hmid := hleading.length_le rfl
  have hmid' := hterm.length_le rfl
  obtain ⟨hfollows, hrounds'⟩ := B.rounds_append B' hc ih hrounds hr (by omega)
  refine .rule B'.type (.part ?_ (hc.above_self.append mid)
    (.part (B.term_append B' hc (fun hlt => ih (by omega)) hterm hfollows)
      (hc.above_self.append mid') (.part hrounds' (hc.above_self.append r) .done)))
  exact course_scan_iff.mpr (leadingBar_append (B.ne_nil rfl hterm) (course_scan_iff.mp hleading).symm).symm
termination_by cs.length

end TypeRules

end Typestrip.TypeScript
