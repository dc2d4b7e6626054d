import Typestrip.Proofs.TypeScript.Declarations
import Typestrip.Proofs.TypeScript.Memoization

/-!
# Declarations with and without annotations

What stands in front of the value of a variable declaration and of the body of a function declaration
is matched part by part, whatever the annotations in it are. A type ends in front of the mark behind
it, because nothing that begins with the mark goes on with a name, with a type or with an annotation
(`Closes`). The parts that are kept are names and lists of parameters, and an annotation is none of
them. So the version with annotations and the one without meet in the value (`binding_meets`) and in
the body (`function_meets`).
-/

namespace Typestrip.TypeScript

open Grammar Regex

/-! ## Texts -/

/-- A letter, an underscore or a dollar sign. -/
def isLetter (c : Char) : Bool := c.isAlpha || c == '_' || c == '$'

/-- Letters, underscores, dollar signs and digits, of which the first is no digit. -/
def isIdentifier : List Char → Bool
  | [] => false
  | c :: cs => isLetter c && cs.all fun d => isLetter d || d.isDigit

/-- A type behind a colon, or nothing. -/
def annotationText : Option (List Char) → List Char
  | none => []
  | some type => ':' :: ' ' :: type

variable {bodies : Nat → Option Outline} {place : List Char → Prop} {n : Nat}
  {x c cs r r' : List Char} {d : Char} {t : Option (List Char)} {rules : Rules}

theorem isLetter_iff (c : Char) : isLetter c = true ↔
    (65 ≤ c.toNat ∧ c.toNat ≤ 90) ∨ (97 ≤ c.toNat ∧ c.toNat ≤ 122) ∨ c = '_' ∨ c = '$' := by
  have hupper : c.isUpper = decide (65 ≤ c.toNat ∧ c.toNat ≤ 90) :=
    decide_eq_decide.mpr (by simp [UInt32.le_iff_toNat_le])
  have hlower : c.isLower = decide (97 ≤ c.toNat ∧ c.toNat ≤ 122) := by
    rw [Bool.decide_and]
    exact congrArg₂ and (decide_eq_decide.mpr (by simp [UInt32.le_iff_toNat_le]))
      (decide_eq_decide.mpr (by simp [UInt32.le_iff_toNat_le]))
  have halpha : c.isAlpha = (c.isUpper || c.isLower) := rfl
  simp [isLetter, halpha, hupper, hlower, or_assoc]

theorem letter_holds (c : Char) : letter.holds c = isLetter c := by
  rw [Bool.eq_iff_iff, isLetter_iff]
  simp [letter, oneOf, CharSet.holds_single]

theorem alphanumeric_holds (c : Char) : alphanumeric.holds c = (isLetter c || c.isDigit) := by
  rw [Bool.eq_iff_iff, Bool.or_eq_true, isLetter_iff]
  simp [alphanumeric, oneOf, CharSet.holds_single, Char.isDigit, UInt32.le_iff_toNat_le]
  tauto

theorem exists_of_isIdentifier (hx : isIdentifier x = true) :
    ∃ d cs, x = d :: cs ∧ isLetter d = true ∧ ∀ d ∈ cs, alphanumeric.holds d = true := by
  cases x with
  | nil => cases hx
  | cons d cs =>
    obtain ⟨hd, hcs⟩ := Bool.and_eq_true_iff.mp hx
    refine ⟨d, cs, rfl, hd, fun c hc => ?_⟩
    rw [alphanumeric_holds]
    exact List.all_eq_true.mp hcs c hc

/-! ## Blanks -/

theorem single_holds_of_isSpace (hd : Unicode.isSpace d = true) {c : Char}
    (hc : Unicode.isSpace c = false) : (CharSet.single c).holds d = false := by
  rw [CharSet.holds_single, beq_eq_false_iff_ne]
  rintro rfl
  rw [hd] at hc
  cases hc

theorem range_holds_of_isSpace (hd : Unicode.isSpace d = true) {lo hi : Nat} (hlo : 32 < lo)
    (hhi : hi < 128) : (CharSet.range lo hi).holds d = false := by
  by_contra hrange
  simp only [CharSet.holds_range, Bool.and_eq_true, decide_eq_true_eq, Bool.not_eq_false] at hrange
  have hascii : d.toNat < 128 := by omega
  simp only [Unicode.isSpace, hascii, if_true, Bool.or_eq_true, Bool.and_eq_true, beq_iff_eq,
    decide_eq_true_eq] at hd
  omega

theorem letter_holds_of_isSpace (hd : Unicode.isSpace d = true) : letter.holds d = false := by
  simp [letter, -CharSet.holds_range, oneOf, range_holds_of_isSpace hd,
    single_holds_of_isSpace hd (rfl : Unicode.isSpace '_' = false),
    single_holds_of_isSpace hd (rfl : Unicode.isSpace '$' = false)]

/-- A letter is no blank. -/
theorem isSpace_of_isLetter (hd : isLetter d = true) : Unicode.isSpace d = false := by
  by_contra hspace
  have hletter := letter_holds_of_isSpace (Bool.of_not_eq_false hspace)
  rw [letter_holds, hd] at hletter
  cases hletter

/-- No type begins with a blank. -/
theorem TypeRules.not_blank (B : TypeRules bodies) (hd : Unicode.isSpace d = true) :
    Leaves bodies (.rule (some 6)) (d :: cs) none := by
  have hne {c : Char} (hc : Unicode.isSpace c = false) : d ≠ c := by
    rintro rfl
    rw [hd] at hc
    cases hc
  have hsingle (c : Char) (hc : Unicode.isSpace c = false) := single_holds_of_isSpace hd hc
  have hleading : leadingBar.rest? (d :: cs) = some (d :: cs) := by
    rw [leadingBar, Expr.rest?_or_empty, char, Expr.rest?_chars_seq_of_not (hsingle '|' rfl)]
    rfl
  have hnumber : number.skips d = true := by
    simp [number, digits, plus, char, Expr.skips, Expr.shuns, -CharSet.holds_range,
      range_holds_of_isSpace hd, hsingle '-' rfl]
  have hname : typeName.skips d = true := by
    simp [typeName, operators, anyOf, chars, char, Expr.skips, Expr.shuns, Expr.takes,
      hsingle 'k' rfl, hsingle 't' rfl, hsingle 'r' rfl, hsingle 'u' rfl, hsingle 'i' rfl,
      letter_holds_of_isSpace hd]
  have hgroup : d ∉ ['(', '[', '{'] := by
    simp only [List.mem_cons, List.not_mem_nil, or_false, not_or]
    exact ⟨hne rfl, hne rfl, hne rfl⟩
  have hprimary : Leaves bodies primaryOutline (d :: cs) none :=
    .otherwise (B.group_failed hgroup) (.otherwise
      (course_scan_iff.mpr (Expr.rest?_of_skips (string_skips (hne rfl) (hne rfl) (hne rfl)) cs).symm)
      (.otherwise (course_scan_iff.mpr (Expr.rest?_of_skips hnumber cs).symm)
        (.otherwise (.partFailed (course_scan_iff.mpr (Expr.rest?_of_skips hname cs).symm))
          .exhausted)))
  exact .rule B.type (.part (course_scan_iff.mpr hleading.symm) trivial
    (.partFailed (.partFailed (.rule B.primary hprimary))))

/-! ## Names and marks -/

/-- Where identifiers end. -/
def Ends (c : List Char) : Prop := ∀ d ∈ c.head?, alphanumeric.holds d = false

theorem dropWhile_of_head {p : Char → Bool} (h : ∀ d ∈ c.head?, p d = false) : c.dropWhile p = c := by
  cases c with
  | nil => rfl
  | cons d cs => exact List.dropWhile_cons_of_neg (by simp [h d rfl])

theorem rest?_identifier (hx : isIdentifier x = true) (hc : Ends c) :
    identifier.rest? (x ++ c) = some c := by
  obtain ⟨d, cs, rfl, hd, hcs⟩ := exists_of_isIdentifier hx
  rw [List.cons_append, identifier, Expr.rest?_chars_seq (by rw [letter_holds, hd]),
    Expr.head?_ends_run, List.dropWhile_append_of_pos hcs, dropWhile_of_head hc]

theorem rest?_paramName (hx : isIdentifier x = true) (hc : Ends c) :
    paramName.rest? (x ++ c) = some c := by
  have hname := rest?_identifier hx hc
  obtain ⟨d, cs, rfl, hd, -⟩ := exists_of_isIdentifier hx
  have hskips : (chars ['.', '.', '.']).skips d = true := by
    have hne : d ≠ '.' := by
      rintro rfl
      cases hd
    simpa [chars, char, Expr.skips, CharSet.holds_single] using .inl hne
  have hdots : (chars ['.', '.', '.']).ends (none, d :: cs ++ c) = [] :=
    Expr.ends_of_skips hskips none (cs ++ c)
  rw [Expr.rest?] at hname ⊢
  rw [paramName, Expr.ends, Expr.ends, hdots, List.nil_append, Expr.ends, List.flatMap_singleton,
    hname]

/-- A character that does not come next behind characters of a set. -/
theorem rest?_behind {s : CharSet} {m : Char} (hm : s.holds m = false)
    (hc : ∀ d ∈ (c.dropWhile s.holds).head?, d ≠ m) :
    (Expr.seq (.star true (.chars s)) (char m)).rest? c = none := by
  have hskips {d : Char} (hd : d ≠ m) : (char m).skips d = true := by
    simpa [char, Expr.skips, CharSet.holds_single] using hd
  rw [Expr.rest?, Expr.ends_behind_run rfl (fun d hd => hskips ?_) fun d hd => hskips (hc d hd)]
  · rfl
  · rintro rfl
    rw [hm] at hd
    cases hd

/-! ## What stands in front of a text -/

theorem blanks_of_not (hd : Unicode.isSpace d = false) :
    Course bodies place blanksOutline (d :: cs) (some (d :: cs)) :=
  course_blanks_iff.mpr (by rw [List.dropWhile_cons_of_neg (by simp [hd])])

theorem blanks_one (hd : Unicode.isSpace d = false) :
    Course bodies place blanksOutline (' ' :: d :: cs) (some (d :: cs)) :=
  course_blanks_iff.mpr (by
    rw [List.dropWhile_cons_of_pos rfl, List.dropWhile_cons_of_neg (by simp [hd])])

/-- Blanks and a text that does not come next. -/
theorem behindBlanks_failed {text : List Char} {os : List Outline}
    (hc : ¬ text <+: c.dropWhile Unicode.isSpace) (hplace : place (c.dropWhile Unicode.isSpace)) :
    Course bodies place (.sequence (blanksOutline :: .literal text :: os)) c none :=
  .part (course_blanks_iff.mpr rfl) hplace (.partFailed (.literalFailed hc))

/-- What is left for the parts behind one that is known. -/
theorem leaves_behind {o : Outline} {os : List Outline} (ho : Leaves bodies o cs (some c))
    (h : Leaves bodies (.sequence (o :: os)) cs (some r)) : Leaves bodies (.sequence os) c (some r) := by
  obtain ⟨mid, hmid, -, hrest⟩ := course_part_iff.mp h
  obtain rfl := Option.some.inj (hmid.unique ho)
  exact hrest

/-- A text in front of which a name with an annotation ends: neither an identifier nor a type goes on
with it, and no mark comes next. -/
structure Closes (n : Nat) (c : List Char) : Prop extends Bounds n c where
  ends : Ends c
  colon : ¬ [':'] <+: c.dropWhile Unicode.isSpace
  question : ∀ d ∈ (c.dropWhile Unicode.isSpace).head?, d ≠ '?'

theorem Closes.of_mark (hname : typeName.bars c = true) (hnumber : number.bars c = true)
    (hsuffix : arraySuffix.bars c = true) (hends : c.head?.all (!alphanumeric.holds ·) = true)
    (harrow : ¬ ['>'] <+: c) (hblanks : c.dropWhile Unicode.isSpace = d :: cs)
    (hd : d ∉ ['<', '|', '&', ':', '?']) (hreturn : ¬ ['=', '>'] <+: d :: cs)
    (habove : Above n (d :: cs)) : Closes n c := by
  simp only [List.mem_cons, List.not_mem_nil, or_false, not_or] at hd
  rw [List.cons_prefix_cons] at hreturn
  refine ⟨⟨hname, hnumber, hsuffix, harrow, ?_, hblanks ▸ habove⟩, ?_, ?_, ?_⟩
  · simp only [Closed, heads, hblanks, List.forall_mem_cons, List.cons_prefix_cons,
      List.nil_prefix, and_true]
    exact ⟨Ne.symm hd.1, hreturn, Ne.symm hd.2.1, Ne.symm hd.2.2.1, fun _ h => absurd h List.not_mem_nil⟩
  · intro d hd
    rw [Option.mem_def.mp hd, Option.all_some, Bool.not_eq_true'] at hends
    exact hends
  · rw [hblanks, List.cons_prefix_cons]
    exact fun h => hd.2.2.2.1 h.1.symm
  · rw [hblanks]
    rintro d' hd'
    obtain rfl := Option.some.inj hd'
    exact hd.2.2.2.2

/-- The annotation is a type, or there is none. The rules for types are among those to be entered. -/
def Annotates (rules : Rules) (bodies : Nat → Option Outline) (t : Option (List Char)) : Prop :=
  ∀ T ∈ t, TypeRules (outlineOf rules) ∧ TypeRules bodies ∧
    Leaves (outlineOf rules) (.rule (some 6)) T (some [])

theorem annotates_none : Annotates rules bodies none := nofun

theorem Annotates.all (h : Annotates rules bodies t) : Annotates rules (outlineOf rules) t :=
  fun T hT => ⟨(h T hT).1, (h T hT).1, (h T hT).2.2⟩

section

variable (hc : Closes n c) (ht : Annotates rules bodies t)

include hc

theorem Closes.ends_annotated (t : Option (List Char)) : Ends (annotationText t ++ c) := by
  cases t with
  | none => exact hc.ends
  | some T =>
    intro d hd
    obtain rfl := Option.some.inj hd
    rfl

theorem Closes.question_annotated (t : Option (List Char)) :
    ∀ d ∈ ((annotationText t ++ c).dropWhile Unicode.isSpace).head?, d ≠ '?' := by
  cases t with
  | none => exact hc.question
  | some T =>
    intro d hd
    obtain rfl := Option.some.inj hd
    decide

include ht

/-- An annotation, or nothing. -/
theorem annotation_course :
    Course bodies (Above n) annotationOutline (annotationText t ++ c) (some c) := by
  cases t with
  | none => exact .skipped (behindBlanks_failed hc.colon hc.above)
  | some T =>
    obtain ⟨B, B', hT⟩ := ht T rfl
    have hcourse : Course bodies (Above n) (.rule (some 6)) (T ++ c) (some c) :=
      B.type_append B' hc.toBounds hT (by simp [Closed, heads])
    obtain ⟨d, cs, rfl⟩ := List.exists_cons_of_ne_nil (B.ne_nil rfl hT)
    have hd : Unicode.isSpace d = false := by
      by_contra hd
      cases hT.unique (B.not_blank (Bool.of_not_eq_false hd))
    have hwhole (front : List Char) := hc.above_self.append front
    refine .optional (.part (blanks_of_not rfl) (hwhole (':' :: ' ' :: d :: cs)) ?_)
    refine .part (course_literal_iff.mpr rfl) (hwhole (' ' :: d :: cs)) ?_
    exact .part (blanks_one hd) (hwhole (d :: cs)) (.part hcourse hc.above_self .done)

end

/-! ## Parameters -/

theorem not_prefix_paren (hd : d ≠ ')') : ¬ [d] <+: (')' :: r).dropWhile Unicode.isSpace := by
  intro hprefix
  have hprefix : [d] <+: ')' :: r := hprefix
  exact hd (List.cons_prefix_cons.mp hprefix).1

section

variable (hr : Above n (')' :: r))

include hr

theorem closes_paren : Closes n (')' :: r) :=
  .of_mark rfl rfl rfl rfl (by simp) rfl (by decide) (by simp) hr

theorem default_failed (value : Outline) :
    Course bodies (Above n) (.sequence (initParts value)) (')' :: r) none :=
  behindBlanks_failed (not_prefix_paren (by decide)) hr

theorem default_course (value : Outline) :
    Course bodies (Above n) (initOutline value) (')' :: r) (some (')' :: r)) :=
  .kept (.skipped (default_failed hr value))

theorem further_course : Course bodies (Above n) furtherParamOutline (')' :: r) none :=
  behindBlanks_failed (not_prefix_paren (by decide)) hr

end

section

variable (hx : isIdentifier x = true) (hr : Above n (')' :: r)) (ht : Annotates rules bodies t)

/-- A name that is the first alternative. -/
theorem name_course {e : Expr} {os : List Outline} (he : e.rest? (x ++ c) = some c) :
    Course bodies place (.kept (.choice (scan e :: os))) (x ++ c) (some c) :=
  .kept (.alternative (course_scan_iff.mpr he.symm))

theorem name_same {e : Expr} {os : List Outline} (he : e.rest? (x ++ c) = some c)
    (he' : e.rest? (x ++ cs) = some cs) :
    Same rules (.kept (.choice (scan e :: os))) (x ++ c) (x ++ cs) := by
  have hname {c : List Char} (he : e.rest? (x ++ c) = some c) :
      Leaves (outlineOf rules) (scan e) (x ++ c) (some c) := course_scan_iff.mpr he.symm
  exact .alternative rfl (hname he) (hname he') (.pattern rfl (hname he) (hname he'))

theorem question_course {t : Option (List Char)} (hc : Closes n c) :
    Course bodies place (.optional (scan (mark '?'))) (annotationText t ++ c)
      (some (annotationText t ++ c)) :=
  .skipped (course_scan_iff.mpr (rest?_behind (s := .space) rfl (hc.question_annotated t)).symm)

include hx hr ht

/-- A parameter with an annotation, or with none. -/
theorem param_parts : Course bodies (Above n) (.sequence paramParts)
    (x ++ (annotationText t ++ ')' :: r)) (some (')' :: r)) := by
  have hparen := closes_paren hr
  have habove := hparen.above_self.append (annotationText t)
  exact .part (name_course (rest?_paramName hx (hparen.ends_annotated t))) habove
    (.part (question_course hparen) habove
      (.part (annotation_course hparen ht) hr (.part (default_course hr _) hr .done)))

/-- The only parameter. -/
theorem params_parts : Course bodies (Above n) (.sequence paramsParts)
    (x ++ (annotationText t ++ ')' :: r)) (some (')' :: r)) :=
  .part (.kept (param_parts hx hr ht)) hr (.part (.kept (.stop (further_course hr))) hr
    (.part (.skipped (behindBlanks_failed (not_prefix_paren (by decide)) hr)) hr .done))

end

/-- The value of a parameter says nothing about its annotation. -/
theorem params_same (hx : isIdentifier x = true) {t' : Option (List Char)}
    (ht : Annotates rules (outlineOf rules) t) (ht' : Annotates rules (outlineOf rules) t')
    (r r' : List Char) :
    Same rules paramsOutline (x ++ (annotationText t ++ ')' :: r))
      (x ++ (annotationText t' ++ ')' :: r')) := by
  have hr (r : List Char) : Above 0 (')' :: r) := Nat.succ_pos _
  have hparen (r : List Char) := closes_paren (hr r)
  have hparam : Same rules paramOutline (x ++ (annotationText t ++ ')' :: r))
      (x ++ (annotationText t' ++ ')' :: r')) := by
    refine .sequence rfl rfl (param_parts hx (hr r) ht).leaves (param_parts hx (hr r') ht').leaves ?_
    have hname (t : Option (List Char)) (r : List Char) :=
      rest?_paramName hx ((hparen r).ends_annotated t)
    refine .cons (name_course (hname t r)) (name_course (hname t' r'))
      (fun _ => name_same (hname t r) (hname t' r')) ?_
    refine .cons (question_course (hparen r)) (question_course (hparen r')) nofun ?_
    refine .cons (annotation_course (hparen r) ht).leaves (annotation_course (hparen r') ht').leaves
      nofun ?_
    exact .cons (default_course (hr r) _).leaves (default_course (hr r') _).leaves
      (fun _ => .skipped (default_failed (hr r) _).leaves (default_failed (hr r') _).leaves) .nil
  refine .sequence rfl rfl (params_parts hx (hr r) ht).leaves (params_parts hx (hr r') ht').leaves ?_
  refine .cons (Course.kept (param_parts hx (hr r) ht)).leaves
    (Course.kept (param_parts hx (hr r') ht')).leaves (fun _ => hparam) ?_
  have hfurther (r : List Char) : Leaves (outlineOf rules) furtherParamOutline (')' :: r) none :=
    (further_course (hr r)).leaves
  refine .cons (.kept (.stop (hfurther r))) (.kept (.stop (hfurther r')))
    (fun _ => .stop rfl (hfurther r) (hfurther r')) ?_
  have htrailing (r : List Char) : Leaves (outlineOf rules) (.sequence [blanksOutline, .literal [',']])
      (')' :: r) none := behindBlanks_failed (not_prefix_paren (by decide)) trivial
  exact .cons (.skipped (htrailing r)) (.skipped (htrailing r')) nofun .nil

/-! ## Variable declarations -/

/-- A word with a boundary behind it. -/
theorem someBlanks_course (hx : isIdentifier x = true) :
    Course bodies place (scan (plus (.chars .space))) (' ' :: (x ++ c)) (some (x ++ c)) := by
  obtain ⟨d, cs, rfl, hd, -⟩ := exists_of_isIdentifier hx
  have hspace := isSpace_of_isLetter hd
  rw [course_scan_iff, plus, Expr.rest?_run_cons rfl, dropWhile_of_head]
  intro d' hd'
  obtain rfl := Option.some.inj hd'
  exact hspace

theorem bang_course (t : Option (List Char)) (hd : d ≠ '!') :
    Course bodies place (.optional (scan (char '!'))) (annotationText t ++ d :: r)
      (some (annotationText t ++ d :: r)) := by
  have hskips {d : Char} (hd : d ≠ '!') : (char '!').skips d = true := by
    simpa [char, Expr.skips, CharSet.holds_single] using hd
  cases t with
  | none => exact .skipped (course_scan_iff.mpr (Expr.rest?_of_skips (hskips hd) _).symm)
  | some type => exact .skipped (course_scan_iff.mpr (Expr.rest?_of_skips (hskips (by decide)) _).symm)

section Binding

variable {V : Versions} {ahead : List Outline}

theorem closes_equals (hc : c = ' ' :: cs) : Closes c.length (' ' :: '=' :: c) :=
  .of_mark rfl rfl rfl rfl (by simp) rfl (by decide) (by simp [hc]) (Nat.lt_succ_self _)

/-- Up to the value, a variable declaration with an annotation is kept as the one without. -/
theorem binding_passes (hx : isIdentifier x = true) (hcommon : V.common = ' ' :: cs)
    (ht : Annotates V.rules V.bodies t) (value : Outline) :
    V.Passes [initOutline value] bindingFront
      ("let".toList ++ ' ' :: (x ++ (annotationText t ++ ' ' :: '=' :: V.common)))
      ("let".toList ++ ' ' :: (x ++ (annotationText none ++ ' ' :: '=' :: V.common)))
      (' ' :: '=' :: V.common) (' ' :: '=' :: V.common) := by
  have hcloses := closes_equals hcommon
  have hnone {bodies : Nat → Option Outline} : Annotates V.rules bodies none := annotates_none
  have hlet {bodies : Nat → Option Outline} {place : List Char → Prop} (cs : List Char) :
      Course bodies place (scan bindingHead) ("let".toList ++ ' ' :: cs) (some (' ' :: cs)) :=
    course_scan_iff.mpr rfl
  have hname (t : Option (List Char)) := rest?_identifier hx (hcloses.ends_annotated t)
  exact .part rfl (.kept (hlet _)) (.kept (hlet _)) (fun _ => .pattern rfl (hlet _) (hlet _))
    (.part rfl (someBlanks_course hx) (someBlanks_course hx) nofun
    (.part rfl (name_course (hname t)) (name_course (hname none))
      (fun _ => name_same (hname t) (hname none))
    (.part rfl (bang_course t (by decide)) (bang_course none (by decide)) nofun
    (.part rfl (annotation_course hcloses ht) (annotation_course hcloses hnone) nofun
    (.nil hcloses.above_self hcloses.above_self)))))

/-- A value begins with an equals sign, so that it is not left to the end of a declaration. -/
theorem leaves_value {value : Outline}
    (h : Leaves bodies (.sequence [initOutline value, .optional (scan terminator)])
      (' ' :: '=' :: c) (some [])) :
    ∃ r, Leaves bodies (.sequence [blanksOutline, .kept value]) c (some r) := by
  obtain ⟨mid, hinit, -, hend⟩ := course_part_iff.mp h
  rcases course_optional_iff.mp (course_kept_iff.mp hinit) with hinit | ⟨-, rfl⟩
  · have hequals := leaves_behind (blanks_one rfl) hinit
    exact ⟨mid, leaves_behind (course_literal_iff.mpr rfl) hequals⟩
  · obtain ⟨mid, hend, -, hdone⟩ := course_part_iff.mp hend
    obtain rfl := Option.some.inj (course_done_iff.mp hdone)
    have hnone : terminator.rest? (' ' :: '=' :: c) = none := by
      refine rest?_behind rfl fun d hd => ?_
      obtain rfl := Option.some.inj hd
      decide
    rcases course_optional_iff.mp hend with hend | ⟨-, hend⟩
    · rw [course_scan_iff, hnone] at hend
      cases hend
    · cases hend

/-- Both versions of a variable declaration meet in front of its value. -/
theorem binding_meets {value : Outline} (hx : isIdentifier x = true)
    (hcommon : V.common = ' ' :: cs) (henters : V.Enters [initOutline value])
    (ht : Annotates V.rules V.bodies t)
    (hleaves : Leaves (outlineOf V.rules) (bindingOutline value)
      ("let".toList ++ ' ' :: (x ++ (annotationText none ++ ' ' :: '=' :: V.common))) (some [])) :
    V.Meets 0 [initOutline value] (bindingOutline value)
      ("let".toList ++ ' ' :: (x ++ (annotationText t ++ ' ' :: '=' :: V.common)))
      ("let".toList ++ ' ' :: (x ++ (annotationText none ++ ' ' :: '=' :: V.common))) := by
  have hpasses := binding_passes hx hcommon ht value
  have hrest := hpasses.leaves hleaves
  obtain ⟨r, hvalue⟩ := leaves_value hrest
  have hinit : V.Before (' ' :: '=' :: V.common) := (closes_equals hcommon).above_self
  have hequals {bodies : Nat → Option Outline} : Course bodies V.Before (.literal ['='])
      ('=' :: V.common) (some V.common) := course_literal_iff.mpr rfl
  refine .sequence (hpasses.parts henters ?_) rfl rfl hpasses.before.1 hpasses.before.2
  have hmeets : V.Meets 0 [] (initOutline value) (' ' :: '=' :: V.common) (' ' :: '=' :: V.common) :=
    .sequence (.passed (.passed (.start hvalue []) (fun _ => rfl) rfl (Nat.lt_succ_self _)
      (Nat.lt_succ_self _) hequals hequals nofun) (fun _ => rfl) rfl hinit hinit (blanks_one rfl)
      (blanks_one rfl) nofun) rfl rfl hinit hinit
  exact .meet (hmeets.ask hinit hinit) hrest

end Binding

/-! ## Function declarations -/

section Function

variable {V : Versions} {f : List Char} {u : Option (List Char)}

theorem ends_paren : Ends ('(' :: r) := by
  intro d hd
  obtain rfl := Option.some.inj hd
  rfl

theorem closes_brace (c : List Char) : Closes c.length (' ' :: '{' :: c) :=
  .of_mark rfl rfl rfl rfl (by simp) rfl (by decide) (by simp) (Nat.lt_succ_self _)

theorem blanks_identifier (hx : isIdentifier x = true) :
    Course bodies place blanksOutline (x ++ c) (some (x ++ c)) := by
  obtain ⟨d, cs, rfl, hd, -⟩ := exists_of_isIdentifier hx
  exact blanks_of_not (isSpace_of_isLetter hd)

theorem star_failed (hx : isIdentifier x = true) :
    Course bodies place (scan (mark '*')) (' ' :: (x ++ c)) none := by
  obtain ⟨d, cs, rfl, hd, -⟩ := exists_of_isIdentifier hx
  have hspace := isSpace_of_isLetter hd
  have hblanks : (' ' :: (d :: cs ++ c)).dropWhile CharSet.space.holds = d :: cs ++ c := by
    exact (List.dropWhile_cons_of_pos rfl).trans (List.dropWhile_cons_of_neg (by
      rw [CharSet.holds, hspace]
      exact Bool.false_ne_true))
  refine course_scan_iff.mpr (rest?_behind (s := .space) rfl ?_).symm
  rw [hblanks]
  intro d' hd'
  obtain rfl := Option.some.inj hd'
  rintro rfl
  cases hd

/-- Up to its type parameters, a function declaration is the same in both versions. -/
theorem functionFront_passes (hf : isIdentifier f = true) {c c' : List Char}
    (hc : V.Before ('(' :: c)) (hc' : V.Before ('(' :: c')) :
    V.Passes [.kept (.rule (some 8))] functionFront ("function".toList ++ ' ' :: (f ++ '(' :: c))
      ("function".toList ++ ' ' :: (f ++ '(' :: c')) ('(' :: c) ('(' :: c') := by
  have hhead {bodies : Nat → Option Outline} {place : List Char → Prop} (cs : List Char) :
      Course bodies place (scan functionHead) ("function".toList ++ ' ' :: cs) (some (' ' :: cs)) :=
    course_scan_iff.mpr rfl
  have hblank {bodies : Nat → Option Outline} {place : List Char → Prop} (c : List Char) :
      Course bodies place blanksOutline (' ' :: (f ++ c)) (some (f ++ c)) := by
    obtain ⟨d, cs, rfl, hd, -⟩ := exists_of_isIdentifier hf
    exact blanks_one (isSpace_of_isLetter hd)
  have hname {bodies : Nat → Option Outline} {place : List Char → Prop} (c : List Char) :
      Course bodies place (scan identifier) (f ++ '(' :: c) (some ('(' :: c)) :=
    course_scan_iff.mpr (rest?_identifier hf ends_paren).symm
  exact .part rfl (.kept (hhead _)) (.kept (hhead _)) (fun _ => .pattern rfl (hhead _) (hhead _))
    (.part rfl (.kept (.skipped (star_failed hf))) (.kept (.skipped (star_failed hf)))
      (fun _ => .skipped (star_failed hf) (star_failed hf))
    (.part rfl (hblank _) (hblank _) nofun
    (.part rfl (.kept (.optional (hname _))) (.kept (.optional (hname _)))
      (fun _ => .pattern rfl (hname _) (hname _))
    (.part rfl (blanks_of_not rfl) (blanks_of_not rfl) nofun (.nil hc hc')))))

/-- From its parameters up to its body, a function declaration with annotations is kept as the one
without. -/
theorem signature_passes (hx : isIdentifier x = true) (ht : Annotates V.rules V.bodies t)
    (hu : Annotates V.rules V.bodies u) :
    V.Passes [.kept (.rule (some 8))] signature
      ('(' :: (x ++ (annotationText t ++ ')' :: (annotationText u ++ ' ' :: '{' :: V.common))))
      ('(' :: (x ++ (annotationText none ++ ')' ::
        (annotationText none ++ ' ' :: '{' :: V.common))))
      ('{' :: V.common) ('{' :: V.common) := by
  have hcloses := closes_brace V.common
  have hbrace : V.Before ('{' :: V.common) := Nat.lt_succ_self _
  have hnone {bodies : Nat → Option Outline} : Annotates V.rules bodies none := annotates_none
  have hparen (u : Option (List Char)) :
      Above V.common.length (')' :: (annotationText u ++ ' ' :: '{' :: V.common)) :=
    (hcloses.above_self.append (annotationText u)).append [')']
  have hliteral {bodies : Nat → Option Outline} {place : List Char → Prop} (d : Char)
      (cs : List Char) : Course bodies place (.literal [d]) (d :: cs) (some cs) :=
    course_literal_iff.mpr rfl
  exact .part rfl (blanks_of_not rfl) (blanks_of_not rfl) nofun
    (.part rfl (hliteral _ _) (hliteral _ _) nofun
    (.part rfl (blanks_identifier hx) (blanks_identifier hx) nofun
    (.part rfl (.kept (.optional (params_parts hx (hparen u) ht)))
      (.kept (.optional (params_parts hx (hparen none) hnone)))
      (fun _ => params_same hx ht.all hnone _ _)
    (.part rfl (blanks_of_not rfl) (blanks_of_not rfl) nofun
    (.part rfl (hliteral _ _) (hliteral _ _) nofun
    (.part rfl (annotation_course hcloses hu) (annotation_course hcloses hnone) nofun
    (.part rfl (blanks_one rfl) (blanks_one rfl) nofun (.nil hbrace hbrace))))))))

/-- Both versions of a function declaration meet in its body. -/
theorem function_meets (hf : isIdentifier f = true) (hx : isIdentifier x = true)
    (hblock : outlineOf V.rules 8 = some blockOutline) (B : TypeRules V.bodies)
    (henters : V.Enters [.kept (.rule (some 8))]) (ht : Annotates V.rules V.bodies t)
    (hu : Annotates V.rules V.bodies u)
    (hleaves : Leaves (outlineOf V.rules) functionOutline
      ("function".toList ++ ' ' :: (f ++ '(' :: (x ++ (annotationText none ++ ')' ::
        (annotationText none ++ ' ' :: '{' :: V.common))))) (some [])) :
    V.Meets 1 [.kept (.rule (some 8))] functionOutline
      ("function".toList ++ ' ' :: (f ++ '(' :: (x ++ (annotationText t ++ ')' ::
        (annotationText u ++ ' ' :: '{' :: V.common)))))
      ("function".toList ++ ' ' :: (f ++ '(' :: (x ++ (annotationText none ++ ')' ::
        (annotationText none ++ ' ' :: '{' :: V.common))))) := by
  have hsignature := signature_passes hx ht hu
  have hfront := functionFront_passes hf hsignature.before.1 hsignature.before.2
  have hangles {bodies : Nat → Option Outline} (cs : List Char) :
      Course bodies V.Before (enclosed '<' '>' angleInnerOutline) ('(' :: cs) none :=
    enclosed_failed (by decide)
  have hbrace : V.Before ('{' :: V.common) := Nat.lt_succ_self _
  have hopening {bodies : Nat → Option Outline} {place : List Char → Prop} :
      Course bodies place (.literal ['{']) ('{' :: V.common) (some V.common) :=
    course_literal_iff.mpr rfl
  -- what is left for the body in the version without annotations
  have hbody : Leaves (outlineOf V.rules) (.sequence [.kept (.rule (some 8))]) ('{' :: V.common)
      (some []) := by
    have hmissing (cs : List Char) : Leaves (outlineOf V.rules) (.rule (some 4)) ('(' :: cs) none :=
      .rule (V.known B.angles) (hangles cs).leaves
    exact hsignature.leaves (leaves_behind (.skipped (hmissing _)) (hfront.leaves hleaves))
  obtain ⟨mid, hrule, -⟩ := course_part_iff.mp hbody
  have hinside := leaves_behind hopening ((course_rule_iff hblock).mp (course_kept_iff.mp hrule))
  have hmeets : V.Meets 0 [] blockOutline ('{' :: V.common) ('{' :: V.common) :=
    .sequence (.passed (.start hinside []) (fun _ => rfl) rfl hbrace hbrace hopening hopening nofun)
      rfl rfl hbrace hbrace
  have hrule : V.Meets 1 [] (.kept (.rule (some 8))) ('{' :: V.common) ('{' :: V.common) :=
    hmeets.rule hblock rfl rfl
  have hparts := hsignature.parts henters (.meet (hrule.ask hbrace hbrace) hbody)
  exact .sequence (hfront.parts henters (hparts.missing henters B.angles rfl rfl
    hsignature.before.1 hsignature.before.2 (hangles _) (hangles _))) rfl rfl hfront.before.1
    hfront.before.2

end Function

end Typestrip.TypeScript
