import Typestrip.Proofs.TypeScript.Brackets
import Typestrip.Proofs.TypeScript.Declarators
import Typestrip.Proofs.TypeScript.Nesting

/-!
# Calls are kept

A statement that calls a function is emitted as it is (`Transpiler.transform_call`). Interfaces, type
aliases, types that are imported or exported and variables begin with a word and blanks behind it,
and a call has none there. Conditionals and loops begin with words of their own, function declarations
have a body behind their parameters, and the head of an arrow function has an arrow there. So all that
is left is an expression: the name and the group behind it.

Two words are told from names by a boundary only, and a dollar sign behind them is one:
`declare$(x);` is taken for an ambient declaration and erased, and so is `declare(x);`
(`Transpiler.transform_erased_call`).
-/

namespace Typestrip.Regex.Expr

variable {a b e : Expr} {before : Option Char} {word cs r rest : List Char} {y : Spot}

/-- Rounds of one character each, up to where no further round begins. -/
theorem head?_ends_rounds {a : Expr} {w : List Char}
    (hround : ∀ c ∈ w, ∀ before cs, a.ends (before, c :: cs) = [(some c, cs)])
    (hend : ∀ before, a.ends (before, r) = []) (before : Option Char) :
    ((star true a).ends (before, w ++ r)).head?.map (·.2) = some r := by
  induction w generalizing before with
  | nil =>
    rw [List.nil_append, ends_star, hend]
    rfl
  | cons c w ih =>
    obtain ⟨hc, hw⟩ := List.forall_mem_cons.mp hround
    rw [List.cons_append, ends_star, hc]
    simp only [List.flatMap_singleton, List.length_cons, Nat.lt_succ_self, if_true]
    rw [List.head?_append, Option.map_or, ih hw, Option.some_or]

end Typestrip.Regex.Expr

namespace Typestrip.TypeScript

open Grammar Grammar.Tree Regex

variable {outlines : Nat → Option Outline} {place : List Char → Prop} {o : Outline}
  {f A cs r rest : List Char} {c d : Char}

/-! ## Names -/

def wordMarks : List Char :=
  ['-', '+', '*', '%', '&', '|', '^', '<', '>', '=', '?', ':', ',', '.', ';', '{', '}', '(', ')', '[',
    ']', '"', '\'', '`', '\n', '/']

def wordSet : CharSet := .complement (oneOf wordMarks)

def wordPiece : Expr := .alt (.chars wordSet) (.alt (chars ['+', '+']) (chars ['-', '-']))

def wordRun : Expr := plus wordPiece

theorem wordSet_holds (d : Char) : wordSet.holds d = decide (d ∉ wordMarks) := by
  rw [wordSet, CharSet.holds_complement, holds_oneOf, decide_not]

/-- Characters without blanks, operators, brackets, quotation marks and slashes among them.
Identifiers are such names. -/
def isName (f : List Char) : Bool :=
  !f.isEmpty && f.all fun c => decide (c ∉ wordMarks) && !Unicode.isSpace c

theorem isName_iff : isName f = true ↔
    f ≠ [] ∧ ∀ c ∈ f, c ∉ wordMarks ∧ Unicode.isSpace c = false := by
  simp [isName]

/-- A name goes on with parentheses. -/
def callText (f A : List Char) : List Char := f ++ '(' :: (A ++ [')', ';'])

section Words

variable {word : List Char}

/-- A word without a mark in front of which it begins ends in front of the mark. -/
theorem exists_of_word_append {m : Char} (hword : m ∉ word) (h : f ++ m :: r = word ++ rest) :
    ∃ g, f = word ++ g ∧ rest = g ++ m :: r := by
  rcases List.append_eq_append_iff.mp h with ⟨mid, rfl, hmid⟩ | ⟨mid, rfl, hmid⟩
  · cases mid with
    | nil => exact ⟨[], by simp, by simpa using hmid.symm⟩
    | cons d mid =>
      obtain ⟨rfl, -⟩ := List.cons.inj hmid
      exact absurd (List.mem_append_right f List.mem_cons_self) hword
  · exact ⟨mid, rfl, hmid⟩

/-- What an expression that takes no parenthesis takes of a call stands in its name. -/
theorem exists_behind_name {e : Expr} (he : e.mayTake '(' = false)
    (h : e.rest? (f ++ '(' :: r) = some rest) : ∃ front g, f = front ++ g ∧ rest = g ++ '(' :: r := by
  obtain ⟨x, hx, htake⟩ := exists_text_of_rest? h
  obtain ⟨g, hf, hrest⟩ := exists_of_word_append (fun hmem => by simp [htake _ hmem] at he) hx
  exact ⟨x, g, hf, hrest⟩

/-- The rest of a name with a parenthesis behind it does not begin with a blank. -/
theorem exists_cons_of_name (hf : isName f = true) {front g : List Char} (hg : f = front ++ g)
    (r : List Char) : ∃ d cs, g ++ '(' :: r = d :: cs ∧ Unicode.isSpace d = false := by
  cases g with
  | nil => exact ⟨'(', r, rfl, rfl⟩
  | cons d g =>
    refine ⟨d, g ++ '(' :: r, rfl, ((isName_iff.mp hf).2 d ?_).2⟩
    rw [hg]
    exact List.mem_append_right front List.mem_cons_self

/-! ## Words -/

/-- A text begins with a word: no character of a word comes behind it. -/
def beginsWith (word cs : List Char) : Bool :=
  word.isPrefixOf cs && (cs.drop word.length).head?.all (!Unicode.isWord ·)

/-- The end of a word, and then something else. -/
def boundary : Expr := .look (.wordBoundary false)

variable {x y z : Spot}

/-- What is spelled stands in front of the match of the rest. -/
theorem exists_of_spelled {e : Expr} (h : y ∈ (spelled word e).ends x) :
    ∃ z, x.Leads word z ∧ y ∈ e.ends z := by
  induction word generalizing x with
  | nil => exact ⟨x, x.leads_refl, h⟩
  | cons c word ih =>
    obtain ⟨mid, hmid, hy⟩ := List.mem_flatMap.mp h
    obtain ⟨front, hfront⟩ := Expr.exists_leads hmid
    obtain ⟨d, rfl, hd⟩ := Expr.exists_of_chars_leads hmid hfront
    rw [CharSet.holds_single, beq_iff_eq] at hd
    subst hd
    obtain ⟨z, hz, hy⟩ := ih hy
    exact ⟨z, hfront.trans hz, hy⟩

theorem leads_of_chars (h : y ∈ (chars word).ends x) : x.Leads word y := by
  induction word generalizing x with
  | nil =>
    obtain rfl := List.mem_singleton.mp h
    exact y.leads_refl
  | cons c word ih =>
    have hsingle {z : Spot} (hz : z ∈ (char c).ends x) : x.Leads [c] z := by
      obtain ⟨front, hfront⟩ := Expr.exists_leads hz
      obtain ⟨d, rfl, hd⟩ := Expr.exists_of_chars_leads hz hfront
      rw [CharSet.holds_single, beq_iff_eq] at hd
      rwa [← hd]
    cases word with
    | nil => exact hsingle h
    | cons c' word =>
      obtain ⟨z, hz, hy⟩ := List.mem_flatMap.mp h
      exact (hsingle hz).trans (ih hy)

/-- At a boundary nothing is taken. -/
theorem eq_of_boundary (h : y ∈ boundary.ends x) :
    y = x ∧ (Look.wordBoundary false).holds x.place = true := by
  rw [boundary, Expr.ends] at h
  split at h
  · next hholds => exact ⟨List.mem_singleton.mp h, hholds⟩
  · cases h

/-- Where a word ends in front of a boundary, the name of a call begins with the word. -/
theorem beginsWith_of_boundary (hword : '(' ∉ word) (hlast : word.getLast?.any Unicode.isWord = true)
    (hx : Spot.Leads (none, f ++ '(' :: r) word z) (h : y ∈ boundary.ends z) :
    ∃ g, f = word ++ g ∧ z.2 = g ++ '(' :: r ∧ beginsWith word f = true := by
  obtain ⟨hcs, hbefore⟩ := hx
  obtain ⟨g, rfl, hg⟩ := exists_of_word_append hword hcs
  refine ⟨g, rfl, hg, ?_⟩
  obtain ⟨c, hc, hisWord⟩ := (Option.any_eq_true _ _).mp hlast
  have hends := (eq_of_boundary h).2
  rw [hc, Option.some_or] at hbefore
  rw [Look.holds, Spot.place, hbefore, hg] at hends
  have hword : isWordAt false (some c) = true := by simpa [isWordAt] using hisWord
  simp only [hword] at hends
  rw [beginsWith, List.drop_left, Bool.and_eq_true, List.isPrefixOf_iff_prefix]
  refine ⟨List.prefix_append word g, ?_⟩
  cases g with
  | nil => rfl
  | cons d g => simpa [isWordAt] using hends

/-! ## The kinds of a statement -/

def declarationHead (word : String) : Expr :=
  .seq (modifier "export") (.seq (modifier "declare") (spelled word.toList boundary))

def typeOnlyHead : Expr :=
  .seq (.alt (chars "import".toList) (chars "export".toList)) (.seq (plus (.chars .space))
    (spelled "type".toList (.seq boundary (.star true (.chars (.complement (oneOf [';', '\n'])))))))

def ambientHead : Expr :=
  .seq (modifier "export") (spelled "declare".toList
    (.seq boundary (.star true (.chars (.complement (oneOf [';', '{', '\n']))))))

def loopHead : Expr := .seq (.alt (chars "while".toList) (chars "for".toList)) boundary

def commentText : Expr :=
  .alt (spelled ['/', '/'] (.star true (.chars (.complement (.single '\n')))))
    (spelled ['/', '*'] (.seq (.star false (.chars (.union .space (.complement .space))))
      (chars ['*', '/'])))

/-- An outline is a sequence that begins with some parts. -/
def opens (parts : List Outline) : Outline → Bool
  | .sequence os => Outline.sameAll parts (os.take parts.length)
  | _ => false

theorem exists_of_opens {parts : List Outline} (h : opens parts o = true) :
    ∃ os, o = .sequence (parts ++ os) := by
  cases o with
  | sequence os =>
    have hparts : parts = os.take parts.length := Outline.eq_of_sameAll h
    exact ⟨os.drop parts.length, by conv_lhs => rw [← List.take_append_drop parts.length os, ← hparts]⟩
  | _ => cases h

/-- What stands at the beginning of some kinds of statements. -/
def kindFronts : List (Node × List Outline) :=
  [(Form.interface, [scan (declarationHead "interface"), scan (plus (.chars .space))]),
    (Form.typeAlias, [scan (declarationHead "type"), scan (plus (.chars .space))]),
    (Form.typeOnly, [scan typeOnlyHead]), (Form.ambient, [scan ambientHead]),
    (Form.function, functionFront ++ .optional (.rule (some 4)) ::
      (signature ++ [.kept (.rule (some 8))])),
    (Form.conditional, [scan (spelled "if".toList boundary), blanksOutline, .kept (.rule (some 0))]),
    (Form.loop, [.kept (scan loopHead), blanksOutline, .kept (.rule (some 0))]),
    (Form.binding, [.kept (scan bindingHead), scan (plus (.chars .space))]),
    (Form.returned, [scan (spelled "return".toList boundary)])]

theorem kindFronts_opens :
    (kindFronts.all fun x => opens x.2 (x.1.outline slots)) = true := by
  rw [Node.outline_eq_by]
  decide +kernel

theorem opens_of_mem {x : Node × List Outline} (h : x ∈ kindFronts) :
    ∃ os, x.1.outline slots = .sequence (x.2 ++ os) :=
  exists_of_opens (List.all_eq_true.mp kindFronts_opens x h)

section

variable (hf : isName f = true)

include hf

/-- No blanks stand behind a part of the name. -/
theorem not_blanks {front g : List Char} {os : List Outline} (hg : f = front ++ g)
    (h : Leaves outlines (.sequence (scan (plus (.chars .space)) :: os)) (g ++ '(' :: r) (some rest)) :
    False := by
  obtain ⟨mid, hblanks, -⟩ := course_part_iff.mp h
  obtain ⟨d, cs, hcs, hd⟩ := exists_cons_of_name hf hg r
  rw [hcs, course_scan_iff, Expr.rest?_of_skips] at hblanks
  · cases hblanks
  · simp [plus, Expr.skips, CharSet.holds, hd]

/-- A word that takes no parenthesis, and blanks. -/
theorem not_spaced {e : Expr} (he : e.mayTake '(' = false) {os : List Outline} :
    ¬ Leaves outlines (.sequence (scan e :: scan (plus (.chars .space)) :: os)) (f ++ '(' :: r)
      (some rest) := by
  intro h
  obtain ⟨mid, hword, -, h⟩ := course_part_iff.mp h
  obtain ⟨front, g, hg, rfl⟩ := exists_behind_name he (course_scan_iff.mp hword).symm
  exact not_blanks hf hg h

/-- The same for a word that is kept. -/
theorem not_keptSpaced {e : Expr} (he : e.mayTake '(' = false) {os : List Outline} :
    ¬ Leaves outlines (.sequence (.kept (scan e) :: scan (plus (.chars .space)) :: os)) (f ++ '(' :: r)
      (some rest) := by
  intro h
  obtain ⟨mid, hword, -, h⟩ := course_part_iff.mp h
  exact not_spaced hf he (.part (course_kept_iff.mp hword) trivial h)

/-- Blanks that an expression asks for behind a part of the name. -/
theorem ends_blanks {front g : List Char} (hg : f = front ++ g) {z : Spot}
    (hz : z.2 = g ++ '(' :: r) : (plus (.chars .space)).ends z = [] := by
  obtain ⟨before, cs⟩ := z
  obtain ⟨d, cs', hcs, hd⟩ := exists_cons_of_name hf hg r
  obtain rfl : cs = d :: cs' := hz.trans hcs
  exact Expr.ends_of_skips (by simp [plus, Expr.skips, CharSet.holds, hd]) before cs'

/-- The first character of a name, of which none stands at the beginning of a group, a string or a
comment. -/
theorem exists_head (r : List Char) : ∃ d cs, f ++ '(' :: r = d :: cs ∧ d ∉ wordMarks ∧
    Unicode.isSpace d = false := by
  obtain ⟨hne, hall⟩ := isName_iff.mp hf
  obtain ⟨d, f, rfl⟩ := List.exists_cons_of_ne_nil hne
  exact ⟨d, f ++ '(' :: r, rfl, hall d List.mem_cons_self⟩

theorem not_typeOnly {os : List Outline} :
    ¬ Leaves outlines (.sequence (scan typeOnlyHead :: os)) (f ++ '(' :: r) (some rest) := by
  intro h
  obtain ⟨mid, hhead, -⟩ := course_part_iff.mp h
  obtain ⟨y, hy, -⟩ := Option.map_eq_some_iff.mp (course_scan_iff.mp hhead).symm
  obtain ⟨z, hz, hy⟩ := List.mem_flatMap.mp (List.mem_of_mem_head? hy)
  obtain ⟨front, hfront⟩ := Expr.exists_leads hz
  have htake := Expr.mayTake_of_mem_ends hz hfront
  have hparen : '(' ∉ front := by
    intro hmem
    have := htake _ hmem
    simp [Expr.mayTake, chars, char, CharSet.holds_single] at this
  obtain ⟨g, hg, hz⟩ := exists_of_word_append hparen hfront.1
  rw [Expr.ends, ends_blanks hf hg hz] at hy
  cases hy

/-- A declaration that is declared begins with the word. -/
theorem not_ambient (hdeclare : beginsWith "declare".toList f = false) {os : List Outline} :
    ¬ Leaves outlines (.sequence (scan ambientHead :: os)) (f ++ '(' :: r) (some rest) := by
  intro h
  obtain ⟨mid, hhead, -⟩ := course_part_iff.mp h
  obtain ⟨y, hy, -⟩ := Option.map_eq_some_iff.mp (course_scan_iff.mp hhead).symm
  obtain ⟨x, hx, hy⟩ := List.mem_flatMap.mp (List.mem_of_mem_head? hy)
  rcases List.mem_append.mp hx with hx | hx
  · -- no blanks stand behind the first word
    obtain ⟨z, hz, hx⟩ := exists_of_spelled hx
    obtain ⟨g, hg, hzg⟩ := exists_of_word_append (by decide) hz.1
    rw [ends_blanks hf hg hzg] at hx
    cases hx
  · obtain rfl := List.mem_singleton.mp hx
    obtain ⟨z, hz, hy⟩ := exists_of_spelled hy
    obtain ⟨w, hw, -⟩ := List.mem_flatMap.mp hy
    obtain ⟨-, -, -, hbegins⟩ := beginsWith_of_boundary (by decide) (by decide) hz hw
    rw [hdeclare] at hbegins
    cases hbegins

end

theorem not_returned (hreturn : beginsWith "return".toList f = false) {os : List Outline} :
    ¬ Leaves outlines (.sequence (scan (spelled "return".toList boundary) :: os)) (f ++ '(' :: r)
      (some rest) := by
  intro h
  obtain ⟨mid, hhead, -⟩ := course_part_iff.mp h
  obtain ⟨y, hy, -⟩ := Option.map_eq_some_iff.mp (course_scan_iff.mp hhead).symm
  obtain ⟨z, hz, hy⟩ := exists_of_spelled (List.mem_of_mem_head? hy)
  obtain ⟨-, -, -, hbegins⟩ := beginsWith_of_boundary (by decide) (by decide) hz hy
  rw [hreturn] at hbegins
  cases hbegins

/-- The words that a group in parentheses belongs to. -/
def controlWords : List (List Char) := ["if", "while", "for"].map String.toList

section

variable (B : TypeRules outlines) (hf : isName f = true) (hcontrol : f ∉ controlWords)

include B hf hcontrol

/-- A control word with parentheses behind it is the whole name. -/
theorem not_parens {g : List Char} (hword : word ∈ controlWords) (hg : f = word ++ g)
    {os : List Outline} : ¬ Leaves outlines (.sequence (blanksOutline :: .kept (.rule (some 0)) :: os))
      (g ++ '(' :: r) (some rest) := by
  intro h
  obtain ⟨mid, hblanks, -, h⟩ := course_part_iff.mp h
  obtain ⟨mid', hparens, -⟩ := course_part_iff.mp h
  obtain ⟨d, cs, hcs, hd⟩ := exists_cons_of_name hf hg r
  rw [hcs] at hblanks
  have hnone : Leaves outlines blanksOutline (d :: cs) (some (d :: cs)) := blanks_of_not hd
  obtain rfl := Option.some.inj (hblanks.unique hnone)
  obtain ⟨cs', hopen⟩ := exists_of_enclosed ((course_rule_iff B.parens).mp (course_kept_iff.mp hparens))
  obtain ⟨rfl, -⟩ := List.cons.inj hopen
  cases g with
  | nil => exact hcontrol (by rwa [hg, List.append_nil])
  | cons c g =>
    obtain ⟨rfl, -⟩ := List.cons.inj hcs
    have hnot := ((isName_iff.mp hf).2 '(' (by rw [hg]; simp)).1
    exact hnot (by decide)

theorem not_conditional {os : List Outline} : ¬ Leaves outlines (.sequence
      (scan (spelled "if".toList boundary) :: blanksOutline :: .kept (.rule (some 0)) :: os))
      (f ++ '(' :: r) (some rest) := by
  intro h
  obtain ⟨mid, hhead, -, h⟩ := course_part_iff.mp h
  obtain ⟨y, hy, rfl⟩ := Option.map_eq_some_iff.mp (course_scan_iff.mp hhead).symm
  obtain ⟨z, hz, hy⟩ := exists_of_spelled (List.mem_of_mem_head? hy)
  obtain ⟨g, hg, hzg, -⟩ := beginsWith_of_boundary (by decide) (by decide) hz hy
  rw [(eq_of_boundary hy).1, hzg] at h
  exact not_parens B hf hcontrol (by decide) hg h

theorem not_loop {os : List Outline} : ¬ Leaves outlines (.sequence
      (.kept (scan loopHead) :: blanksOutline :: .kept (.rule (some 0)) :: os))
      (f ++ '(' :: r) (some rest) := by
  intro h
  obtain ⟨mid, hhead, -, h⟩ := course_part_iff.mp h
  obtain ⟨y, hy, rfl⟩ :=
    Option.map_eq_some_iff.mp (course_scan_iff.mp (course_kept_iff.mp hhead)).symm
  obtain ⟨z, hz, hy⟩ := List.mem_flatMap.mp (List.mem_of_mem_head? hy)
  rw [(eq_of_boundary hy).1] at h
  rcases List.mem_append.mp hz with hz | hz
  · obtain ⟨g, hg, hzg⟩ := exists_of_word_append (by decide) (leads_of_chars hz).1
    rw [hzg] at h
    exact not_parens B hf hcontrol (by decide) hg h
  · obtain ⟨g, hg, hzg⟩ := exists_of_word_append (by decide) (leads_of_chars hz).1
    rw [hzg] at h
    exact not_parens B hf hcontrol (by decide) hg h

end

end Words

/-! ## Parameters -/

def arrowHeadOutline : Outline :=
  .sequence [.literal ['('], blanksOutline, paramsOutline, blanksOutline, .literal [')'],
    .optional (.sequence [blanksOutline, .literal [':'], blanksOutline, .rule (some 7)]),
    blanksOutline, .literal ['=', '>']]

theorem outline_arrowHead : Form.arrowHead.outline slots = arrowHeadOutline :=
  Outline.eq_of_same (by decide +kernel)

theorem leaves_append_iff {os ps : List Outline} :
    Leaves outlines (.sequence (os ++ ps)) cs (some rest) ↔
      ∃ mid, Leaves outlines (.sequence os) cs (some mid) ∧
        Leaves outlines (.sequence ps) mid (some rest) := by
  induction os generalizing cs with
  | nil => simp [course_done_iff]
  | cons o os ih =>
    constructor
    · intro h
      obtain ⟨mid, ho, -, h⟩ := course_part_iff.mp h
      obtain ⟨mid', hos, hps⟩ := ih.mp h
      exact ⟨mid', .part ho trivial hos, hps⟩
    · rintro ⟨mid', h, hps⟩
      obtain ⟨mid, ho, -, hos⟩ := course_part_iff.mp h
      exact .part ho trivial (ih.mpr ⟨mid', hos, hps⟩)

/-- A regular expression whose matches hold no opening parenthesis. -/
def isUnopened : Outline → Bool
  | .pattern (.seq (.look .textStart) e) => !e.mayTake '('
  | _ => false

/-- In front of the semicolon no colon comes. -/
theorem colon_failed {os : List Outline} :
    Leaves outlines (.sequence (blanksOutline :: .literal [':'] :: os)) [';'] none :=
  behindBlanks_failed (by decide) trivial

section

variable (B : TypeRules outlines) (hA : Balanced A)
  (hangle : ∀ front back, A = front ++ ':' :: back → Balanced front → ¬ Swallows back)

include B hA hangle

/-- Behind the parentheses of a call no arrow comes. -/
theorem not_arrowHead :
    ¬ Leaves outlines arrowHeadOutline ('(' :: (A ++ [')', ';'])) (some rest) := by
  intro h
  have hbehind := B.leaves_behind_list hA hangle (c := [';']) (by decide) h
  have hreturn := leaves_behind (.skipped colon_failed) hbehind
  have hblanks := leaves_behind (blanks_of_not rfl) hreturn
  obtain ⟨mid, harrow, -⟩ := course_part_iff.mp hblanks
  have harrow := course_literal_iff.mp harrow
  cases harrow

/-- Behind the parentheses of a call no body comes. -/
theorem not_function (hf : isName f = true) (hblock : outlines 8 = some blockOutline)
    {os : List Outline} :
    ¬ Leaves outlines (.sequence (functionFront ++ .optional (.rule (some 4)) ::
      (signature ++ [.kept (.rule (some 8))]) ++ os)) (callText f A) (some rest) := by
  intro h
  rw [List.append_assoc] at h
  obtain ⟨mid, hfront, h⟩ := leaves_append_iff.mp h
  -- what stands in front of the type parameters takes no parenthesis
  obtain ⟨x, hx, hparen⟩ : Takes (fun x => '(' ∉ x) (callText f A) mid := by
    refine Course.exists_text isUnopened (fun _ => false) (by simp)
      (fun hx hy => by simp [hx, hy]) (fun {o cs rest} hleaf _ hpart => ?_) nofun hfront rfl le_rfl rfl
    unfold isUnopened at hleaf
    split at hleaf
    · obtain ⟨x, hx, htake⟩ := exists_text_of_rest? (course_scan_iff.mp hpart).symm
      refine ⟨x, hx, fun hmem => ?_⟩
      rw [htake _ hmem] at hleaf
      cases hleaf
    · cases hleaf
  obtain ⟨g, hg, rfl⟩ := exists_of_word_append hparen hx
  obtain ⟨d, cs, hcs, hd⟩ := exists_cons_of_name hf hg (A ++ [')', ';'])
  have hmark {c : Char} (hc : c ∈ wordMarks) (hparen : c ≠ '(') : d ≠ c := by
    rintro rfl
    cases g with
    | nil => exact hparen (List.cons.inj hcs).1.symm
    | cons c' g =>
      obtain ⟨rfl, -⟩ := List.cons.inj hcs
      exact ((isName_iff.mp hf).2 _ (by rw [hg]; simp)).1 hc
  rw [hcs] at h
  have hangles : Leaves outlines (.rule (some 4)) (d :: cs) none :=
    .rule B.angles (enclosed_failed (hmark (by decide) (by decide)))
  have hblanks := leaves_behind (blanks_of_not hd) (leaves_behind (.skipped hangles) h)
  rw [← hcs] at hblanks
  obtain ⟨mid', hopen, -⟩ := course_part_iff.mp hblanks
  obtain rfl : g = [] := by
    cases g with
    | nil => rfl
    | cons c g =>
      obtain ⟨rfl, -⟩ := List.cons.inj (course_literal_iff.mp hopen)
      exact absurd (by decide) ((isName_iff.mp hf).2 '(' (by rw [hg]; simp)).1
  have hbehind := B.leaves_behind_list hA hangle (c := [';']) (by decide) hblanks
  have hbody := leaves_behind (blanks_of_not rfl) (leaves_behind (.skipped colon_failed) hbehind)
  obtain ⟨mid, hrule, -⟩ := course_part_iff.mp hbody
  obtain ⟨mid', hbrace, -⟩ :=
    course_part_iff.mp ((course_rule_iff hblock).mp (course_kept_iff.mp hrule))
  cases course_literal_iff.mp hbrace

end

/-! ## The expression of a call -/

namespace Form

open Grammar.Form

/-- Which of some nodes matches first. -/
theorem leaves_choice {n : Node} (front back : List Node)
    (hfront : ∀ m ∈ front, Leaves outlines (m.outline slots) cs none)
    (hn : Leaves outlines (n.outline slots) cs (some rest)) :
    Leaves outlines (.choice (Node.outlineAll slots (front ++ n :: back))) cs (some rest) := by
  rw [Node.outlineAll_eq_map, List.map_append, List.map_cons]
  refine Course.behind (.alternative hn) fun p hp => ?_
  obtain ⟨m, hm, rfl⟩ := List.mem_map.mp hp
  exact hfront m hm

/-- The pieces of an expression that are tried before a group. -/
def beforeGroup : List Node := [string, blockComment, arrowHead]

/-- The pieces of an expression that are tried after a word. -/
def behindWord : List Node := [regexLiteral, division, operation, nextLine]

theorem pieces_eq : pieces = (beforeGroup ++ [reference "group"]) ++ word :: behindWord := rfl

def blockCommentText : Expr :=
  spelled ['/', '*'] (.seq (.star false (.chars (.union .space (.complement .space))))
    (chars ['*', '/']))

theorem outline_pieces : string.outline slots = scan TypeScript.string ∧
    blockComment.outline slots = scan blockCommentText ∧
    (reference "group").outline slots = .rule (some 3) ∧ word.outline slots = scan wordRun ∧
    comment.outline slots = scan commentText ∧
    (reference "block").outline slots = .rule (some 8) :=
  ⟨Outline.eq_of_same (by decide +kernel), Outline.eq_of_same (by decide +kernel),
    Outline.eq_of_same (by decide +kernel), Outline.eq_of_same (by decide +kernel),
    Outline.eq_of_same (by decide +kernel), Outline.eq_of_same (by decide +kernel)⟩

/-- No piece of an expression begins with a semicolon. -/
theorem refuses_semicolon : (Node.outlineAll slots (beforeGroup ++ word :: behindWord)).all
    (·.refuses ';') = true := by
  rw [Node.outlineAll_eq_by]
  decide +kernel

theorem outline_standing : standing.outline slots =
    .sequence [.kept (.sequence [.kept (.choice (Node.outlineAll slots pieces)),
      .kept (.repetition (.choice (Node.outlineAll slots pieces)))]),
      .optional (scan TypeScript.terminator)] := by
  rw [← outline_terminator]
  rfl

section

variable (B : TypeRules outlines) (hf : isName f = true)

include B

theorem semicolon_failed :
    Leaves outlines (.choice (Node.outlineAll slots pieces)) [';'] none := by
  rw [← List.append_nil (Node.outlineAll slots pieces)]
  refine Course.behind .exhausted fun p hp => ?_
  have hrefuses := List.all_eq_true.mp refuses_semicolon
  rw [Node.outlineAll_eq_map] at hp hrefuses
  obtain ⟨n, hn, rfl⟩ := List.mem_map.mp hp
  rw [pieces_eq, List.append_assoc, List.mem_append, List.mem_append, List.mem_singleton] at hn
  rcases hn with hn | rfl | hn
  · exact Outline.course_of_refuses
      (hrefuses _ (List.mem_map_of_mem (List.mem_append_left _ hn))) []
  · rw [outline_pieces.2.2.1]
    exact B.group_failed (by decide)
  · exact Outline.course_of_refuses
      (hrefuses _ (List.mem_map_of_mem (List.mem_append_right _ hn))) []

include hf

/-- What is tried before a word does not begin with a name. -/
theorem name_failed (r : List Char) : ∀ m ∈ beforeGroup ++ [reference "group"],
    Leaves outlines (m.outline slots) (f ++ '(' :: r) none := by
  obtain ⟨d, cs, hcs, hd, -⟩ := exists_head hf r
  have hne {c : Char} (hc : c ∈ wordMarks) : d ≠ c := by
    rintro rfl
    exact hd hc
  have hslash : blockCommentText.skips d = true := by
    simpa [blockCommentText, spelled, char, Expr.skips, CharSet.holds_single] using
      .inl (hne (by decide))
  rw [hcs]
  intro m hm
  simp only [beforeGroup, List.cons_append, List.nil_append, List.mem_cons, List.not_mem_nil,
    or_false] at hm
  rcases hm with rfl | rfl | rfl | rfl
  · rw [outline_pieces.1]
    refine course_scan_iff.mpr (Expr.rest?_of_skips (string_skips ?_ ?_ ?_) cs).symm
    · exact hne (by decide)
    · exact hne (by decide)
    · exact hne (by decide)
  · rw [outline_pieces.2.1]
    exact course_scan_iff.mpr (Expr.rest?_of_skips hslash cs).symm
  · rw [outline_arrowHead]
    refine .partFailed (.literalFailed fun hprefix => hne (c := '(') (by decide) ?_)
    exact (List.cons_prefix_cons.mp hprefix).1.symm
  · rw [outline_pieces.2.2.1]
    refine B.group_failed ?_
    simp only [List.mem_cons, List.not_mem_nil, or_false, not_or]
    exact ⟨hne (by decide), hne (by decide), hne (by decide)⟩

omit B in
/-- A word ends in front of the parenthesis. -/
theorem leaves_name (r : List Char) :
    Leaves outlines (word.outline slots) (f ++ '(' :: r) (some ('(' :: r)) := by
  obtain ⟨hne, hall⟩ := isName_iff.mp hf
  have hround : ∀ c ∈ f, ∀ before cs, wordPiece.ends (before, c :: cs) = [(some c, cs)] := by
    intro c hc before cs
    obtain ⟨hmark, -⟩ := hall c hc
    have hpair (m : Char) (hm : m ∈ wordMarks) : (chars [m, m]).skips c = true := by
      have hcm : c ≠ m := by
        rintro rfl
        exact hmark hm
      simpa [chars, char, Expr.skips, CharSet.holds_single] using .inl hcm
    have hchar : (Expr.chars wordSet).ends (before, c :: cs) = [(some c, cs)] :=
      if_pos (by simpa [wordSet_holds] using hmark)
    have hskips : (Expr.alt (chars ['+', '+']) (chars ['-', '-'])).skips c = true :=
      Bool.and_eq_true_iff.mpr ⟨hpair '+' (by decide), hpair '-' (by decide)⟩
    have hends := Expr.ends_of_skips hskips before cs
    calc wordPiece.ends (before, c :: cs)
        = (Expr.chars wordSet).ends (before, c :: cs) ++ [] := congrArg _ hends
      _ = [(some c, cs)] := by rw [hchar, List.append_nil]
  have hend (before : Option Char) : wordPiece.ends (before, '(' :: r) = [] :=
    Expr.ends_of_skips rfl before r
  obtain ⟨c, w, rfl⟩ := List.exists_cons_of_ne_nil hne
  rw [outline_pieces.2.2.2.1]
  refine course_scan_iff.mpr (Eq.symm ?_)
  rw [Expr.rest?, wordRun, plus, Expr.ends, List.cons_append, hround c List.mem_cons_self,
    List.flatMap_singleton, Expr.head?_ends_rounds (fun c hc => hround c (List.mem_cons_of_mem _ hc))
      hend]

end

/-! ## The statement of a call -/

/-- The kinds of a statement that are tried before an expression. -/
def beforeStanding : List Node := beforeBinding ++ [binding, returned, reference "block", empty]

theorem beforeStanding_eq :
    beforeStanding = comment :: (kindFronts.map (·.1) ++ [reference "block", empty]) := rfl

theorem statement_eq_standing : statement = Grammar.Form.choice (beforeStanding ++ standing :: []) := rfl

/-- The rules that a node may enter are those of the grammar. -/
theorem enters_beforeStanding : (Node.outlineAll slots (arrowHead :: beforeStanding)).all (fun o =>
    o.enters (fun slot => decide (slot < 10)) (fun slot => decide (slot < 10))
      fun slot => decide (slot < 10)) = true := by
  rw [Node.outlineAll_eq_by]
  decide +kernel

theorem flatten_of_group {t : Tree} (h : t.Of bodies (reference "group")) :
    t.value.flatten = String.ofList t.text := by
  obtain ⟨rule, hrule, u, rfl, hu, hvalue⟩ := exists_of_group h
  obtain ⟨-, -, -, -, -, -, hu⟩ := exists_of_enclosed hrule hu
  rw [hvalue, hu, text_branch_singleton, text_branch_singleton]
  rfl

section

variable (B : TypeRules outlines) (F : Founded outlines (fun slot => decide (slot < 10)) rank)
  (hf : isName f = true) (hA : Balanced A)
  (hangle : ∀ front back, A = front ++ ':' :: back → Balanced front → ¬ Swallows back)

include F

/-- A node that no match is possible for fails. -/
theorem failed_of_not {n : Node} (hn : n ∈ arrowHead :: beforeStanding)
    (hnot : ∀ rest, ¬ Leaves outlines (n.outline slots) cs (some rest)) :
    Leaves outlines (n.outline slots) cs none := by
  refine F.leaves_none (List.all_eq_true.mp enters_beforeStanding _ ?_) hnot
  rw [Node.outlineAll_eq_map]
  exact List.mem_map_of_mem hn

include B hA hangle

/-- What is tried before a group does not begin with the parentheses of a call. -/
theorem parens_failed : ∀ m ∈ beforeGroup,
    Leaves outlines (m.outline slots) ('(' :: (A ++ [')', ';'])) none := by
  intro m hm
  simp only [beforeGroup, List.mem_cons, List.not_mem_nil, or_false] at hm
  rcases hm with rfl | rfl | rfl
  · rw [outline_pieces.1]
    exact course_scan_iff.mpr (Expr.rest?_of_skips rfl _).symm
  · rw [outline_pieces.2.1]
    exact course_scan_iff.mpr (Expr.rest?_of_skips rfl _).symm
  · refine failed_of_not F List.mem_cons_self fun rest => ?_
    rw [outline_arrowHead]
    exact not_arrowHead B hA hangle

omit F hangle in
theorem leaves_group : Leaves outlines ((reference "group").outline slots)
    ('(' :: (A ++ [')', ';'])) (some [';']) := by
  rw [outline_pieces.2.2.1]
  exact B.group_of_balanced (by decide) hA [';']

include hf

/-- The expression of a call ends in front of the semicolon. -/
theorem leaves_call : Leaves outlines ((capture "expression" expression).outline slots) (callText f A)
    (some [';']) := by
  have hname := leaves_choice _ behindWord (name_failed B hf (A ++ [')', ';']))
    (leaves_name hf (A ++ [')', ';']))
  have hgroup := leaves_choice _ (word :: behindWord) (parens_failed B F hA hangle)
    (leaves_group B hA)
  exact .kept (.part (.kept hname) trivial (.part (.kept (.round hgroup (by simp) trivial
    (.stop (semicolon_failed B)))) trivial .done))

theorem leaves_standing : Leaves outlines (standing.outline slots) (callText f A) (some []) := by
  rw [outline_standing]
  exact .part (leaves_call B F hf hA hangle) trivial
    (.part (.optional (course_scan_iff.mpr rfl)) trivial .done)

omit F in
/-- No kind of a statement that begins with a word of its own matches a call. -/
theorem not_kind (hblock : outlines 8 = some blockOutline) (hcontrol : f ∉ controlWords)
    (hdeclare : beginsWith "declare".toList f = false)
    (hreturn : beginsWith "return".toList f = false) {x : Node × List Outline} (hx : x ∈ kindFronts)
    (os : List Outline) : ¬ Leaves outlines (.sequence (x.2 ++ os)) (callText f A) (some rest) := by
  simp only [kindFronts, List.mem_cons, List.not_mem_nil, or_false] at hx
  rcases hx with rfl | rfl | rfl | rfl | rfl | rfl | rfl | rfl | rfl
  · exact not_spaced hf rfl
  · exact not_spaced hf rfl
  · exact not_typeOnly hf
  · exact not_ambient hf hdeclare
  · exact not_function B hA hangle hf hblock
  · exact not_conditional B hf hcontrol
  · exact not_loop B hf hcontrol
  · exact not_keptSpaced hf rfl
  · exact not_returned hreturn

/-- What is tried before an expression does not match a call. -/
theorem statement_failed (hblock : outlines 8 = some blockOutline) (hcontrol : f ∉ controlWords)
    (hdeclare : beginsWith "declare".toList f = false)
    (hreturn : beginsWith "return".toList f = false) :
    ∀ m ∈ beforeStanding, Leaves outlines (m.outline slots) (callText f A) none := by
  obtain ⟨d, cs, hcs, hd, -⟩ := exists_head hf (A ++ [')', ';'])
  have hne {c : Char} (hc : c ∈ wordMarks) : d ≠ c := by
    rintro rfl
    exact hd hc
  intro m hm
  have hkind := hm
  rw [beforeStanding_eq, List.mem_cons, List.mem_append, List.mem_map] at hkind
  rcases hkind with rfl | ⟨x, hx, rfl⟩ | hlast
  · have hslash : commentText.skips d = true := by
      have hsingle := hne (c := '/') (by decide)
      simp [commentText, spelled, char, Expr.skips, CharSet.holds_single, hsingle]
    rw [outline_pieces.2.2.2.2.1, callText, hcs]
    exact course_scan_iff.mpr (Expr.rest?_of_skips hslash cs).symm
  · obtain ⟨os, hos⟩ := opens_of_mem hx
    refine failed_of_not F (List.mem_cons_of_mem _ hm) fun rest => ?_
    rw [hos]
    exact not_kind B hf hA hangle hblock hcontrol hdeclare hreturn hx os
  · simp only [List.mem_cons, List.not_mem_nil, or_false] at hlast
    rcases hlast with rfl | rfl
    · rw [outline_pieces.2.2.2.2.2, callText, hcs]
      refine .rule hblock (.partFailed (.literalFailed fun hprefix => hne (c := '{') (by decide) ?_))
      exact (List.cons_prefix_cons.mp hprefix).1.symm
    · rw [callText, hcs]
      refine .literalFailed fun hprefix => hne (c := ';') (by decide) ?_
      exact (List.cons_prefix_cons.mp hprefix).1.symm

/-- The tree of the expression has two pieces: the name and the group. -/
theorem flatten_of_call {e : Tree} {mid : List Char} (hd : Depicts slots outlines bodies)
    (h : e.Reads bodies (capture "expression" expression) (callText f A) mid) :
    e.value.flatten = String.ofList (f ++ '(' :: (A ++ [')'])) := by
  obtain rfl := Option.some.inj ((h.leaves hd).unique (leaves_call B F hf hA hangle))
  obtain ⟨u, hu, hrecast, hvalue⟩ := h.of.exists_of_capture
  obtain ⟨v, hv, rfl, htrimmed⟩ := hu.exists_of_map rfl
  obtain ⟨head, tail, rfl, -, hflatten⟩ := exists_of_run hv
  obtain ⟨ts, rfl, hts⟩ | ⟨hnull, -⟩ := h.exists_parts
  · obtain _ | ⟨hhead, _ | ⟨htail, _ | _⟩⟩ := hts
    -- the first piece is the name
    have hname : Leaves outlines (word.outline slots) (f ++ '(' :: (A ++ [')', ';'])) _ :=
      leaves_name hf (A ++ [')', ';'])
    obtain ⟨w, rfl, hw⟩ := exists_of_alternative hd rfl pieces_eq (name_failed B hf _) hname hhead
    obtain rfl := Option.some.inj ((hw.leaves hd).unique hname)
    -- the second one is the group
    obtain ⟨us, rfl, hus, hsome⟩ := htail.exists_rounds rfl
    obtain _ | ⟨first, us⟩ := us
    · cases hus
    obtain _ | ⟨hfirst, hus⟩ := hus
    have hgroup := leaves_group B hA
    have hpieces : pieces = beforeGroup ++ reference "group" :: word :: behindWord := rfl
    obtain ⟨g, rfl, hg⟩ := exists_of_alternative hd rfl hpieces (parens_failed B F hA hangle) hgroup
      hfirst
    obtain rfl := Option.some.inj ((hg.leaves hd).unique hgroup)
    obtain rfl : us = [] := by
      obtain _ | ⟨next, us⟩ := us
      · rfl
      · obtain _ | ⟨hnext, -⟩ := hus
        cases (hnext.leaves hd).unique (semicolon_failed B)
    -- so these are the pieces that the value is made of
    obtain ⟨hfst, hsnd⟩ := List.cons.inj (Tree.branch.inj hrecast).2
    obtain rfl : w = head := (List.cons.inj (Tree.branch.inj hfst).2).1
    have htail : [Tree.branch (choice pieces) [g]] = tail.map fun u => .branch (choice pieces) [u] :=
      (Tree.branch.inj (List.cons.inj hsnd).1).2
    obtain ⟨g', tail, rfl, hsame, htail⟩ := List.map_eq_cons_iff.mp htail.symm
    obtain rfl := List.map_eq_nil_iff.mp htail
    obtain rfl : g' = g := (List.cons.inj (Tree.branch.inj hsame).2).1
    obtain ⟨text, rfl, hword⟩ := value_of_regex hw.of
    obtain rfl : f = text := List.append_cancel_right hw.eq_append
    have hA' : '(' :: (A ++ [')']) = g'.text := by
      have htext := hg.eq_append
      refine (List.append_left_inj [';']).mp ?_
      rw [← htext]
      simp
    have hflat := hflatten
    rw [List.flatMap_cons, List.flatMap_singleton, flatten_of_group hg.of, ← hA', hword,
      Value.flatten, String.toList_ofList, String.toList_ofList] at hflat
    rw [hvalue, htrimmed, trimmed, hflat, Value.flatten, Text.trimEnd]
    have hend : f ++ '(' :: (A ++ [')']) = (f ++ '(' :: A) ++ [')'] := by simp
    rw [hend, List.reverse_append, List.reverse_singleton, List.singleton_append,
      List.dropWhile_cons_of_neg (by decide), List.reverse_cons, List.reverse_reverse]
  · cases hnull

theorem flatten_of_standing {u : Tree} (hd : Depicts slots outlines bodies)
    (h : u.Reads bodies standing (callText f A) []) :
    u.value.flatten = String.ofList (callText f A) := by
  obtain ⟨e, s, rfl, -, hvalue⟩ := exists_of_standing h.of
  obtain ⟨ts, hts, hparts⟩ | ⟨hnull, -⟩ := h.exists_parts
  · obtain rfl := (Tree.branch.inj hts).2
    obtain _ | ⟨he, -⟩ := hparts
    rw [hvalue, Value.flatten, flatten_of_call B F hf hA hangle hd he, ← String.toList_inj]
    simp [callText]
  · cases hnull

end

end Form

/-! ## Calls as sources -/

theorem lookup_group : (grammar.run {}).2.registry.lookup "group" = some 3 := by
  decide +kernel

theorem Parsers.outline_group {parsers : Parsers} (B : TypeRules (outlineOf parsers.program.rules))
    {m : Matcher} (h : parsers.body? "group" = some m) : m.outline = groupOutline := by
  rw [body?, lookup_group, Option.bind_some] at h
  have hbody := B.group
  rw [outlineOf, h] at hbody
  exact Option.some.inj hbody

open Form Grammar.Form in
/-- A statement that calls a function by its name is emitted as it is, unless rules nest too deeply:
whatever the name, as long as it is no control word and does not begin with one of two words and a
boundary, and whatever group the arguments are, as long as no bracket or quotation mark stands between
angle brackets behind a colon among them. -/
theorem Transpiler.transform_call {settings : Settings} {t : Transpiler}
    (ht : Transpiler.ofSettings settings = .ok t) {f A : List Char} (hf : isName f = true)
    (hcontrol : f ∉ controlWords) (hdeclare : beginsWith "declare".toList f = false)
    (hreturn : beginsWith "return".toList f = false)
    (hgroup : t.parsers.Accepts (t.parsers.body? "group") ('(' :: (A ++ [')'])))
    (hangle : ∀ front back, A = front ++ ':' :: back → Balanced front → ¬ Swallows back)
    (hdeep : ¬ (t.transform (callText f A)).TooDeep) :
    t.transform (callText f A) = .success (String.ofList (callText f A) ++ "\n") := by
  obtain ⟨parsers, hparsers, rfl⟩ := eq_of_ofSettings ht
  obtain ⟨member, family, hid, hroot, -⟩ := Parsers.exists_family hparsers
  have hdepicts := Parsers.depicts hparsers
  have houtlined := Parsers.outlined hparsers
  have B := houtlined.types
  have F := Parsers.founded hparsers
  have hA : Balanced A := by
    have hleaves := hgroup.leaves family hid fun hm =>
      ⟨Parsers.member_body family hm, Parsers.outline_group B hm⟩
    obtain ⟨opening, closing, x, -, hx, hsame⟩ := B.exists_balanced (.rule B.group hleaves)
    obtain ⟨-, hsame⟩ := List.cons.inj hsame
    rwa [(List.append_inj' hsame rfl).1]
  have hfailed := statement_failed B F hf hA hangle houtlined.block hcontrol hdeclare hreturn
  have hstanding := leaves_standing B F hf hA hangle
  obtain ⟨d, cs, hcs, -, hspace⟩ := exists_head hf (A ++ [')', ';'])
  obtain ⟨code, hcode⟩ : ∃ code, Transpiler.transform ⟨parsers, optionsOf settings⟩ (callText f A) =
      .success code := by
    obtain ⟨i, hi, hrule⟩ := hdepicts (rfl : bodies "statement" = some statement)
    obtain rfl : 9 = i := Option.some.inj (lookup_grammar.2.symm.trans hi)
    have hstatement : Leaves (outlineOf parsers.program.rules) (.rule (some 9)) (callText f A)
        (some []) :=
      .rule hrule (leaves_choice beforeStanding [] hfailed hstanding)
    have hprogram : Leaves (outlineOf parsers.program.rules) programOutline (callText f A)
        (some []) := by
      rw [callText, hcs] at hstatement ⊢
      exact leaves_program_of_statement hspace houtlined.empty hstatement
    rw [← (Parsers.outline_root hparsers).1] at hprogram
    obtain ⟨code, hcode, -⟩ := exists_code hparsers
      ((Parser.parse_of_leaves family hid hroot hprogram).imp_right fun ⟨s, hs⟩ =>
        ⟨s, s, hs, hs, rfl⟩) hdeep
    exact ⟨code, hcode⟩
  obtain ⟨k, tree, htree, htext, hflatten⟩ := Transpiler.exists_grows ht hcode
  have hreads : tree.Reads Form.bodies program (callText f A) [] :=
    htree.reads (Text.fromBoundary?_zero _) (by rw [htext, List.append_nil])
  obtain ⟨u, hu, -, hemitted⟩ : ∃ u : Tree, u.Reads bodies standing (callText f A) [] ∧
      u.Within tree ∧ emitted tree = [u.value.flatten].filter (!·.isEmpty) := by
    rw [callText, hcs] at hreads hfailed hstanding ⊢
    exact exists_of_only_statement hdepicts hspace statement_eq_standing hfailed hstanding hreads
  have hline := flatten_of_standing B F hf hA hangle hdepicts hu
  have hne : (String.ofList (callText f A)).isEmpty = false := by
    rw [← Bool.not_eq_true, String.isEmpty_iff, ← String.toList_inj, String.toList_ofList, callText]
    simp
  rw [hline, List.filter_cons_of_pos (by rw [hne]; rfl), List.filter_nil] at hemitted
  rw [hcode, ← hflatten, value_of_emitted htree.of, hemitted]
  rfl

/-- Two arguments, with brackets and colons in them. -/
def bracketed : List Char := "{ x: [1] }, \")\"".toList

/-- An arrow function between the parentheses of a call, with a bracket between angle brackets. -/
def swallowed : List Char := "a: X<(>, b) => c".toList

theorem transform_call_compiled : Parsers.compiled.toOption.any (fun parsers =>
    ([bracketed, ['x'], swallowed].all fun A =>
      parsers.accepts (parsers.body? "group") ('(' :: (A ++ [')']))) &&
      (parsers.plain.transform (callText "type".toList bracketed)).diagnostic.isNone &&
      ([("declare", ""), ("declare$", ""), ("return$", "return $(x);\n")].all fun x =>
        parsers.plain.transform (callText x.1.toList ['x']) = .success x.2) &&
      ((⟨parsers, Transpiler.optionsOf {}⟩ : Transpiler).transform
        (callText "f".toList swallowed)).error) = true := by
  rw [Parsers.compiled_eq]
  decide +kernel

/-- A call of a function of the name `type`. -/
theorem Transpiler.transform_call_type : ∃ t : Transpiler, Transpiler.ofSettings {} = .ok t ∧
    t.transform (callText "type".toList bracketed) =
      .success (String.ofList (callText "type".toList bracketed) ++ "\n") := by
  obtain ⟨parsers, hparsers⟩ := Parsers.exists_compiled
  have hcheck := transform_call_compiled
  rw [hparsers] at hcheck
  simp only [Except.toOption, Option.any_some, Bool.and_eq_true] at hcheck
  obtain ⟨⟨⟨hgroups, hnone⟩, -⟩, -⟩ := hcheck
  have hgroup := List.all_eq_true.mp hgroups bracketed List.mem_cons_self
  have hdeep := Parsers.not_tooDeep_of_plain hparsers hnone
  have hangle : '<' ∉ bracketed := by decide
  have ht := ofSettings_eq hparsers {}
  exact ⟨_, ht, Transpiler.transform_call ht (by decide +kernel) (by decide) (by decide +kernel)
    (by decide +kernel) (Parsers.accepts_of_check hgroup)
    (by rintro front back h - ⟨x, y, z, hback, -⟩; exact hangle (by rw [h, hback]; simp)) hdeep⟩

/-- A call of a function of the name `declare` or `declare$` is erased, and one of a function of the name
`return$` is taken apart. Where a bracket stands between angle brackets, a call may not be read at
all. -/
theorem Transpiler.transform_erased_call : ∃ t : Transpiler, Transpiler.ofSettings {} = .ok t ∧
    (∀ A ∈ [['x'], swallowed], t.parsers.Accepts (t.parsers.body? "group") ('(' :: (A ++ [')']))) ∧
    (∀ f ∈ ["declare", "declare$", "return$", "f"], isName f.toList = true ∧ f.toList ∉ controlWords) ∧
    t.transform (callText "declare".toList ['x']) = .success "" ∧
    t.transform (callText "declare$".toList ['x']) = .success "" ∧
    t.transform (callText "return$".toList ['x']) = .success "return $(x);\n" ∧
    (t.transform (callText "f".toList swallowed)).error = true := by
  obtain ⟨parsers, hparsers⟩ := Parsers.exists_compiled
  have hcheck := transform_call_compiled
  rw [hparsers] at hcheck
  simp only [Except.toOption, Option.any_some, Bool.and_eq_true] at hcheck
  obtain ⟨⟨⟨hgroups, -⟩, hcodes⟩, herror⟩ := hcheck
  rw [List.all_eq_true] at hgroups
  simp only [List.all_cons, List.all_nil, Bool.and_true, Bool.and_eq_true, decide_eq_true_eq] at hcodes
  obtain ⟨hdeclare, hdollar, hreturn⟩ := hcodes
  exact ⟨_, ofSettings_eq hparsers {},
    fun A hA => Parsers.accepts_of_check (hgroups A (List.mem_cons_of_mem _ hA)), by decide +kernel,
    Parsers.transform_eq_of_plain hparsers hdeclare, Parsers.transform_eq_of_plain hparsers hdollar,
    Parsers.transform_eq_of_plain hparsers hreturn, herror⟩

end Typestrip.TypeScript
