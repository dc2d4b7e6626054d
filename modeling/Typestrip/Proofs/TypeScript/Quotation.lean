import Typestrip.Proofs.Text.Blanks
import Typestrip.Proofs.TypeScript.Types

/-!
# Strings in a text

A text is spelled with some strings if it consists of these, in their order, and of characters that are
no quotation marks (`Spelled`). Indenting such a text and trimming it leaves the strings in it as they
are (`Spelled.indent`, `Spelled.trimEnd`): outside of strings no string seems to be open, and inside
of a string no line begins, except in a template literal. What the grammar matches as a string or a
template literal is a string in this sense (`quotation_of_search?`).
-/

namespace Typestrip.TypeScript

/-- The marks between which strings and template literals stand. -/
def marks : List Char := ['"', '\'', '`']

/-- There is no quotation mark in the text. -/
def Unquoted (cs : List Char) : Prop := ∀ c ∈ cs, c ∉ marks

instance (cs : List Char) : Decidable (Unquoted cs) := List.decidableBAll _ cs

/-- What stands between two quotation marks. Only template literals reach over several lines. -/
inductive Inside (mark : Char) : List Char → Prop
  | nil : Inside mark []
  | plain {c cs} : c ≠ mark → c ≠ '\\' → (c = '\n' → mark = '`') → Inside mark cs →
      Inside mark (c :: cs)
  | escaped {c cs} : Inside mark cs → Inside mark ('\\' :: c :: cs)

/-- A string or a template literal. -/
def Quotation (x : List Char) : Prop :=
  ∃ mark ∈ marks, ∃ body, Inside mark body ∧ x = mark :: (body ++ [mark])

/-- A text of some strings, and of other characters around them. -/
inductive Spelled : List (List Char) → List Char → Prop
  | nil : Spelled [] []
  | plain {c xs cs} : c ∉ marks → Spelled xs cs → Spelled xs (c :: cs)
  | quotation {x xs cs} : Quotation x → Spelled xs cs → Spelled (x :: xs) (x ++ cs)

variable {mark : Char} {x cs ds : List Char} {xs ys : List (List Char)}

theorem Inside.append (h : Inside mark cs) (h' : Inside mark ds) : Inside mark (cs ++ ds) := by
  induction h with
  | nil => exact h'
  | plain hmark hslash hline _ ih => exact .plain hmark hslash hline ih
  | escaped _ ih => exact .escaped ih

namespace Spelled

theorem append (h : Spelled xs cs) (h' : Spelled ys ds) : Spelled (xs ++ ys) (cs ++ ds) := by
  induction h with
  | nil => exact h'
  | plain hc _ ih => exact .plain hc ih
  | quotation hx _ ih =>
    rw [List.append_assoc]
    exact .quotation hx ih

/-- There are no strings in nothing. -/
theorem eq_nil (h : Spelled xs []) : xs = [] := by
  generalize hcs : [] = cs at h
  cases h with
  | nil => rfl
  | plain => cases hcs
  | quotation hx =>
    obtain ⟨mark, -, body, -, rfl⟩ := hx
    cases hcs

theorem of_unquoted (h : Unquoted cs) : Spelled [] cs := by
  induction cs with
  | nil => exact .nil
  | cons c cs ih =>
    exact .plain (h c List.mem_cons_self) (ih fun d hd => h d (List.mem_cons_of_mem _ hd))

theorem of_quotation (h : Quotation x) : Spelled [x] x := by
  have hx := Spelled.quotation h .nil
  rwa [List.append_nil] at hx

variable {s s' : String}

theorem append_text (h : Spelled xs s.toList) (h' : Spelled ys s'.toList) :
    Spelled (xs ++ ys) (s ++ s').toList := by
  rw [String.toList_append]
  exact h.append h'

theorem before (hs : Unquoted s.toList) (h : Spelled xs s'.toList) : Spelled xs (s ++ s').toList :=
  (of_unquoted hs).append_text h

theorem after (h : Spelled xs s.toList) (hs : Unquoted s'.toList) : Spelled xs (s ++ s').toList := by
  have happend := h.append_text (of_unquoted hs)
  rwa [List.append_nil] at happend

/-- The strings stand in the text byte for byte. -/
theorem infix_of_mem (h : Spelled xs cs) (hx : x ∈ xs) : x <:+: cs := by
  induction h with
  | nil => cases hx
  | plain _ _ ih => exact (ih hx).trans (List.suffix_cons _ _).isInfix
  | @quotation y xs cs hy _ ih =>
    rcases List.mem_cons.mp hx with rfl | hx
    · exact (List.prefix_append x cs).isInfix
    · exact (ih hx).trans (List.suffix_append y cs).isInfix

/-- Texts with something between them. -/
theorem intercalate {α : Type} {strings : α → List (List Char)} {text : α → String} {sep : String}
    (hsep : Unquoted sep.toList) {as : List α}
    (h : ∀ a ∈ as, Spelled (strings a) (text a).toList) :
    Spelled (as.flatMap strings) (sep.intercalate (as.map text)).toList := by
  induction as with
  | nil => exact .nil
  | cons a as ih =>
    obtain ⟨ha, has⟩ := List.forall_mem_cons.mp h
    rw [List.flatMap_cons]
    by_cases hnil : as = []
    · subst hnil
      rwa [List.flatMap_nil, List.append_nil, List.map_singleton, String.intercalate_singleton]
    · rw [List.map_cons, String.intercalate_cons_of_ne_nil (by simpa using hnil),
        String.toList_append, String.toList_append, List.append_assoc]
      exact ha.append ((of_unquoted hsep).append (ih has))

/-! ## Indenting -/

theorem indentFrom_inside {body : List Char} (hmark : mark ∈ marks) (h : Inside mark body)
    (cs : List Char) :
    indentFrom (some mark) false (body ++ mark :: cs) = body ++ mark :: indentFrom none false cs := by
  induction h with
  | nil =>
    have hslash : mark ≠ '\\' := by
      rintro rfl
      exact absurd hmark (by decide)
    simp [indentFrom, hslash]
  | @plain c body hc hslash hline _ ih =>
    rw [List.cons_append, indentFrom]
    simp only [Bool.false_eq_true, if_false, hslash, hc]
    split
    · next hnewline => rw [if_pos (hline hnewline), ih, List.cons_append]
    · rw [ih, List.cons_append]
  | escaped _ ih => simp [indentFrom, ih]

/-- Indenting leaves the strings of a text as they are. -/
theorem indent (h : Spelled xs cs) : Spelled xs (indentFrom none false cs) := by
  have hspace : ' ' ∉ marks := by decide
  induction h with
  | nil => exact .nil
  | @plain c xs cs hc _ ih =>
    rw [indentFrom]
    have hmark : ¬ (c = '"' ∨ c = '\'' ∨ c = '`') := by simpa [marks] using hc
    simp only [Bool.false_eq_true, if_false, hmark]
    refine .plain hc ?_
    split
    · exact .plain hspace (.plain hspace ih)
    · exact ih
  | @quotation x xs cs hx _ ih =>
    obtain ⟨mark, hmark, body, hbody, rfl⟩ := hx
    have hopen : mark = '"' ∨ mark = '\'' ∨ mark = '`' := by simpa [marks] using hmark
    have hindent : indentFrom none false (mark :: (body ++ [mark]) ++ cs) =
        mark :: (body ++ [mark]) ++ indentFrom none false cs := by
      rw [List.cons_append, List.append_assoc, List.singleton_append, indentFrom]
      simp only [Bool.false_eq_true, if_false, hopen, if_true]
      rw [indentFrom_inside hmark hbody, List.cons_append, List.append_assoc, List.singleton_append]
    rw [hindent]
    exact .quotation ⟨mark, hmark, body, hbody, rfl⟩ ih

/-! ## Trimming -/

theorem trimEnd_append_of_last {c : Char} (hc : Unicode.isSpace c = false) (cs ds : List Char) :
    Text.trimEnd (cs ++ [c] ++ ds) = cs ++ [c] ++ Text.trimEnd ds := by
  simp only [Text.trimEnd, List.reverse_append, List.reverse_singleton]
  rw [List.dropWhile_append]
  split
  · next h =>
    rw [List.isEmpty_iff.mp h]
    simp [hc]
  · simp

theorem trimEnd_cons (c : Char) (cs : List Char) :
    Text.trimEnd (c :: cs) =
      if Text.trimEnd cs = [] then Text.trimEnd [c] else c :: Text.trimEnd cs := by
  simp only [Text.trimEnd, List.reverse_cons, List.dropWhile_append, List.reverse_eq_nil_iff,
    List.isEmpty_iff]
  split
  · rfl
  · rw [List.reverse_append, List.reverse_singleton, List.singleton_append]

/-- Blanks at the end of a text are in none of its strings. -/
theorem trimEnd (h : Spelled xs cs) : Spelled xs (Text.trimEnd cs) := by
  induction h with
  | nil => exact .nil
  | @plain c xs cs hc _ ih =>
    rw [trimEnd_cons]
    split
    · next hnil =>
      rw [hnil] at ih
      rw [ih.eq_nil]
      refine of_unquoted fun d hd => ?_
      obtain rfl := List.mem_singleton.mp ((Text.trimEnd_sublist [c]).mem hd)
      exact hc
    · exact .plain hc ih
  | @quotation x xs cs hx _ ih =>
    obtain ⟨mark, hmark, body, hbody, rfl⟩ := hx
    have hblank : ∀ mark ∈ marks, Unicode.isSpace mark = false :=
      List.all_iff_forall_prop.mp rfl
    rw [← List.cons_append, trimEnd_append_of_last (hblank mark hmark)]
    exact .quotation ⟨mark, hmark, body, hbody, rfl⟩ ih

end Spelled

/-! ## Texts without quotation marks -/

/-- Normalizing the blanks of a text brings no quotation marks into it. -/
theorem spelled_normalizeSpace {s : String} (h : Unquoted s.toList) :
    Spelled [] (Text.normalizeSpace s).toList := by
  have hwords (word cs : List Char) (hword : Unquoted word) (hcs : Unquoted cs) :
      ∀ w ∈ Text.wordsAfter word cs, Unquoted w := by
    induction cs generalizing word with
    | nil =>
      intro w hw
      rw [Text.wordsAfter] at hw
      split at hw
      · cases hw
      · obtain rfl := List.mem_singleton.mp hw
        exact fun c hc => hword c (List.mem_reverse.mp hc)
    | cons c cs ih =>
      obtain ⟨hc, hcs⟩ := List.forall_mem_cons.mp hcs
      have hreverse : Unquoted word.reverse := fun c hc => hword c (List.mem_reverse.mp hc)
      rw [Text.wordsAfter]
      split
      · split
        · exact ih [] (by simp [Unquoted]) hcs
        · exact List.forall_mem_cons.mpr ⟨hreverse, ih [] (by simp [Unquoted]) hcs⟩
      · exact ih (c :: word) (List.forall_mem_cons.mpr ⟨hc, hword⟩) hcs
  have hspelled : Spelled ((Text.wordsAfter [] s.toList).flatMap fun _ => [])
      (" ".intercalate ((Text.wordsAfter [] s.toList).map String.ofList)).toList :=
    Spelled.intercalate (by decide) fun w hw => by
      rw [String.toList_ofList]
      exact .of_unquoted (hwords [] _ (by simp [Unquoted]) h w hw)
  rwa [List.flatMap_eq_nil_iff.mpr fun _ _ => rfl] at hspelled

theorem unquoted_reindentLines {lines : List (List Char)} (h : ∀ line ∈ lines, Unquoted line) :
    Unquoted (reindentLines lines) := by
  have hcontinuation : Unquoted continuation := by decide
  have htrim {line : List Char} (h : Unquoted line) : Unquoted (Text.trim line) := fun c hc =>
    h c ((List.dropWhile_sublist _).mem ((Text.trimEnd_sublist _).mem hc))
  induction lines with
  | nil => exact fun c hc => absurd hc List.not_mem_nil
  | cons line rest ih =>
    obtain ⟨hline, hrest⟩ := List.forall_mem_cons.mp h
    have hline := htrim hline
    cases rest with
    | nil => exact List.forall_mem_append.mpr ⟨hcontinuation, hline⟩
    | cons next rest =>
      refine List.forall_mem_append.mpr ⟨?_, ih hrest⟩
      split
      · exact fun c hc => absurd hc List.not_mem_nil
      · exact List.forall_mem_append.mpr ⟨hcontinuation, hline⟩

/-- Reindenting brings no quotation marks into a text. -/
theorem unquoted_reindent {v : Value} (h : Unquoted v.flatten.toList) :
    Unquoted (reindent v).flatten.toList := by
  have hjoin := Text.split_join '\n' v.flatten.toList
  rw [reindent]
  split
  · exact h
  · next first rest hsplit =>
    rw [Text.splitLines] at hsplit
    rw [hsplit] at hjoin
    rw [← hjoin] at h
    obtain ⟨hfirst, hrest⟩ := List.forall_mem_append.mp h
    rw [Value.flatten, String.toList_ofList]
    refine List.forall_mem_append.mpr ⟨fun c hc => ?_, unquoted_reindentLines fun line hline => ?_⟩
    · exact hfirst c ((Text.trimEnd_sublist _).mem hc)
    · exact fun c hc => hrest c (List.mem_flatMap.mpr ⟨line, hline, List.mem_cons_of_mem _ hc⟩)

/-! ## What the grammar matches as a string -/

open Grammar Regex

theorem inside_of_leads {plain escaped : CharSet}
    (hplain : ∀ d, plain.holds d = true → d ≠ mark ∧ d ≠ '\\' ∧ (d = '\n' → mark = '`'))
    {x y : Spot} {cs : List Char}
    (h : y ∈ (Expr.star true (.alt (.chars plain) (.seq (char '\\') (.chars escaped)))).ends x)
    (hcs : x.Leads cs y) : Inside mark cs := by
  refine Expr.star_leads .nil Inside.append ?_ h hcs
  intro x y cs h hcs
  rcases List.mem_append.mp h with h | h
  · obtain ⟨c, rfl, hc⟩ := Expr.exists_of_chars_leads h hcs
    obtain ⟨hmark, hslash, hline⟩ := hplain c hc
    exact .plain hmark hslash hline .nil
  · obtain ⟨front, z, back, rfl, hz, hfront, hy, hback⟩ := Expr.exists_of_seq_leads h hcs
    obtain ⟨c, rfl, hc⟩ := Expr.exists_of_chars_leads hz hfront
    obtain ⟨d, rfl, -⟩ := Expr.exists_of_chars_leads hy hback
    obtain rfl : c = '\\' := by simpa [CharSet.holds_single] using hc
    exact .escaped .nil

theorem quotation_of_quoted {plain escaped : CharSet} (hmark : mark ∈ marks)
    (hplain : ∀ d, plain.holds d = true → d ≠ mark ∧ d ≠ '\\' ∧ (d = '\n' → mark = '`'))
    {x y : Spot} {cs : List Char} (h : y ∈ (quoted mark plain escaped).ends x)
    (hcs : x.Leads cs y) : Quotation cs := by
  have hsingle {x y : Spot} {cs : List Char} (h : y ∈ (char mark).ends x) (hcs : x.Leads cs y) :
      cs = [mark] := by
    obtain ⟨c, rfl, hc⟩ := Expr.exists_of_chars_leads h hcs
    obtain rfl : c = mark := by simpa [CharSet.holds_single] using hc
    rfl
  obtain ⟨front, z, back, rfl, hz, hfront, hy, hback⟩ := Expr.exists_of_seq_leads h hcs
  obtain ⟨body, z', last, rfl, hz', hbody, hy', hlast⟩ := Expr.exists_of_seq_leads hy hback
  rw [hsingle hz hfront, hsingle hy' hlast]
  exact ⟨mark, hmark, body, inside_of_leads hplain hz' hbody, rfl⟩

theorem quotation_of_leads {x y : Spot} {cs : List Char} (h : y ∈ string.ends x)
    (hcs : x.Leads cs y) : Quotation cs := by
  have hline {mark d : Char}
      (hd : (CharSet.complement (oneOf [mark, '\\', '\n'])).holds d = true) :
      d ≠ mark ∧ d ≠ '\\' ∧ (d = '\n' → mark = '`') := by
    simp only [oneOf, CharSet.holds_complement, CharSet.holds_union, CharSet.holds_single,
      Bool.not_eq_true', Bool.or_eq_false_iff, beq_eq_false_iff_ne] at hd
    exact ⟨hd.1, hd.2.1, fun hnewline => absurd hnewline hd.2.2⟩
  rcases List.mem_append.mp h with h | h
  · exact quotation_of_quoted (by decide) (fun _ => hline) h hcs
  rcases List.mem_append.mp h with h | h
  · exact quotation_of_quoted (by decide) (fun _ => hline) h hcs
  · refine quotation_of_quoted (by decide) (fun d hd => ?_) h hcs
    simpa [oneOf, CharSet.holds_single] using hd

theorem ofSource?_string : (Expr.ofSource? (anchoredSource stringSource)) =
    some (Expr.anchored string) := by
  decide +kernel

/-- What the grammar matches as a string is one. -/
theorem quotation_of_search? {regex : Expr}
    (hregex : Expr.ofSource? (anchoredSource stringSource) = some regex) {cs : List Char} {k : Nat}
    (h : regex.search? cs = some k) : Quotation (cs.take k) := by
  obtain rfl := Option.some.inj (ofSource?_string.symm.trans hregex)
  obtain ⟨y, hy, hleads⟩ := Expr.exists_leads_of_search? h
  exact quotation_of_leads hy hleads

/-- The pattern matches at the beginning of a text only, and nothing with a quotation mark in it. -/
def takesNoMark (source : String) : Bool :=
  match Expr.ofSource? (anchoredSource source) with
  | some (.seq (.look .textStart) e) => marks.all (!e.mayTake ·)
  | _ => false

theorem unquoted_of_search? {source : String} (hsource : takesNoMark source = true) {regex : Expr}
    (hregex : Expr.ofSource? (anchoredSource source) = some regex) {cs : List Char} {k : Nat}
    (h : regex.search? cs = some k) : Unquoted (cs.take k) := by
  rw [takesNoMark, hregex] at hsource
  split at hsource
  · next e heq =>
    obtain rfl := Option.some.inj heq
    obtain ⟨y, hy, hleads⟩ := Expr.exists_leads_of_search? h
    intro c hc hmark
    have hnot := List.all_eq_true.mp hsource c hmark
    rw [Expr.mayTake_of_mem_ends hy hleads c hc] at hnot
    cases hnot
  · cases hsource

end Typestrip.TypeScript
