import Typestrip.Proofs.Regex.Greedy
import Typestrip.Proofs.TypeScript.Calls

/-!
# Operators and what is laid out behind them

An operator is a run of marks with the blanks and line comments behind them, so that its operand may
stand on a later line. Words take increments and decrements with them, and slashes are read in four
ways: as comments, as divisions and as regular expression literals. The patterns for all of these are
written down here, with what their preferred matches leave of blanks and comments (`Trailer`).
-/

namespace Typestrip.TypeScript

open Grammar Regex

/-! ## Patterns -/

/-- The marks that operators consist of, apart from slashes. -/
def operatorMarks : List Char :=
  ['-', '+', '*', '%', '&', '|', '^', '<', '>', '=', '?', ':', ',', '.']

def lineComment : Expr := spelled ['/', '/'] (.star true (.chars (.complement (.single '\n'))))

/-- Blanks and line comments. -/
def layoutRun : Expr := .star true (.alt (.chars .space) lineComment)

def operatorRound : Expr := .seq (plus (.chars (oneOf operatorMarks))) layoutRun

def operatorRun : Expr := plus operatorRound

/-- Signs with blanks behind them. -/
def signRun : Expr :=
  .star true (.seq (.chars (oneOf ['-', '+'])) (.star true (.chars .space)))

/-- A slash that divides, and signs of the operand. -/
def divisionLead : Expr :=
  .seq (char '/') (.seq (.alt (char '=') .empty) (.seq (.star true (.chars .space)) signRun))

/-- A backslash and another character, or a class in brackets. -/
def regexPair : Expr :=
  .alt (.seq (char '\\') (.chars (.complement (.single '\n'))))
    (.seq (char '[') (.seq (.star true (.alt (.chars (.complement (oneOf [']', '\\', '\n'])))
      (.seq (char '\\') (.chars (.complement (.single '\n')))))) (char ']')))

def regexFirst : Expr :=
  .alt (.chars (.complement (oneOf ['/', '*', '\\', '\n', '[', ';']))) regexPair

def regexFurther : Expr :=
  .star true (.alt (.chars (.complement (oneOf ['/', '\\', '\n', '[', ';']))) regexPair)

/-- A slash and letters. -/
def regexEnd : Expr :=
  .seq (char '/') (.star true (.chars (.union (.range 65 90) (.range 97 122))))

def regexLiteral : Expr := .seq (char '/') (.seq regexFirst (.seq regexFurther regexEnd))

/-! ## Blanks -/

/-- All blanks. -/
def blankChars : List Char :=
  ([9, 10, 11, 12, 13, 32, 0x85, 0xA0, 0x1680] ++ (List.range 11).map (0x2000 + ·) ++
    [0x2028, 0x2029, 0x202F, 0x205F, 0x3000]).map Char.ofNat

variable {cs r x z : List Char} {d m : Char} {e : Expr}

theorem mem_blankChars (hd : Unicode.isSpace d = true) : d ∈ blankChars := by
  have hnat : d.toNat ∈ [9, 10, 11, 12, 13, 32, 0x85, 0xA0, 0x1680] ++
      (List.range 11).map (0x2000 + ·) ++ [0x2028, 0x2029, 0x202F, 0x205F, 0x3000] := by
    rw [List.mem_append, List.mem_append, List.mem_map]
    simp only [List.mem_cons, List.not_mem_nil, or_false, List.mem_range]
    simp only [Unicode.isSpace] at hd
    split at hd
    · simp only [Bool.or_eq_true, Bool.and_eq_true, beq_iff_eq, decide_eq_true_eq] at hd
      omega
    · simp only [Bool.or_eq_true, Bool.and_eq_true, beq_iff_eq, decide_eq_true_eq] at hd
      by_cases hrange : 0x2000 ≤ d.toNat ∧ d.toNat ≤ 0x200A
      · exact .inl (.inr ⟨d.toNat - 0x2000, by omega, by omega⟩)
      · omega
  rw [blankChars, List.mem_map]
  exact ⟨d.toNat, hnat, Char.ofNat_toNat d⟩

/-- No match takes a slash or a semicolon, or ends with a blank. -/
def isQuiet (e : Expr) : Bool :=
  !e.mayTake '/' && !e.mayTake ';' && blankChars.all (!e.mayEnd ·)

/-! ## Behind an operator -/

/-- What the text of a comment must not have in it here: slashes, quotation marks and closing
brackets, apart from line breaks. -/
def commentMarks : List Char := ['\n', '/', '"', '\'', '`', ')', ']', '}', '>']

/-- The text of a comment without any of the marks. -/
def IsPlain (x : List Char) : Prop := ∀ d ∈ x, d ∉ commentMarks

/-- Blanks and line comments, and then the end or a semicolon. -/
inductive Trailer : List Char → Prop
  | nil : Trailer []
  | semicolon : Trailer [';']
  | blank {d : Char} {z : List Char} : Unicode.isSpace d = true → Trailer z → Trailer (d :: z)
  | comment {x z : List Char} :
    IsPlain x → Trailer z → Trailer ('/' :: '/' :: (x ++ '\n' :: z))
  | last {x : List Char} : IsPlain x → Trailer ('/' :: '/' :: x)

theorem IsPlain.break_not_mem (hx : IsPlain x) : '\n' ∉ x := fun h => hx '\n' h (by decide)

namespace Trailer

/-- Neither quotation marks nor closing brackets stand in it. -/
theorem not_mem (h : Trailer z) (hm : m ∈ ['"', '\'', '`', ')', ']', '}', '>']) : m ∉ z := by
  have hne {d : Char} (hd : d ∉ ['"', '\'', '`', ')', ']', '}', '>']) : m ≠ d := by
    rintro rfl
    exact hd hm
  have hplain {x : List Char} (hx : IsPlain x) : m ∉ x := fun hmem => hx m hmem (by
    simp only [List.mem_cons, List.not_mem_nil, or_false] at hm
    rcases hm with rfl | rfl | rfl | rfl | rfl | rfl | rfl <;> decide)
  induction h with
  | nil => exact List.not_mem_nil
  | semicolon => simpa using hne (by decide)
  | blank hd _ ih =>
    rw [List.mem_cons, not_or]
    refine ⟨?_, ih⟩
    rintro rfl
    simp only [List.mem_cons, List.not_mem_nil, or_false] at hm
    rcases hm with rfl | rfl | rfl | rfl | rfl | rfl | rfl <;> cases hd
  | comment hx _ ih =>
    simp only [List.mem_cons, List.mem_append, not_or]
    exact ⟨hne (by decide), hne (by decide), hplain hx, hne (by decide), ih⟩
  | last hx =>
    simp only [List.mem_cons, not_or]
    exact ⟨hne (by decide), hne (by decide), hplain hx⟩

/-- It begins with a blank, a semicolon or a slash. -/
theorem head (h : Trailer z) (hd : d ∈ z.head?) :
    Unicode.isSpace d = true ∨ d = ';' ∨ d = '/' := by
  cases h with
  | nil => cases hd
  | semicolon => exact .inr (.inl (Option.some.inj hd).symm)
  | blank hspace =>
    obtain rfl := Option.some.inj hd
    exact .inl hspace
  | comment | last => exact .inr (.inr (Option.some.inj hd).symm)

/-- What is quiet cannot end in it. -/
theorem bars (h : Trailer z) (he : isQuiet e = true) : e.bars z = true := by
  simp only [isQuiet, Bool.and_eq_true, Bool.not_eq_true', List.all_eq_true] at he
  obtain ⟨⟨hslash, hsemicolon⟩, hblank⟩ := he
  induction h with
  | nil => rfl
  | semicolon => simp [Expr.bars, hsemicolon]
  | blank hd _ ih => simp [Expr.bars, hblank _ (mem_blankChars hd), ih]
  | comment | last => simp [Expr.bars, hslash]

/-- Without the blanks in front. -/
theorem dropWhile (h : Trailer z) : Trailer (z.dropWhile Unicode.isSpace) ∧
    ∀ d ∈ (z.dropWhile Unicode.isSpace).head?, Unicode.isSpace d = false := by
  have hstays {z : List Char} (hz : Trailer z) (hhead : ∀ d ∈ z.head?, Unicode.isSpace d = false) :
      Trailer (z.dropWhile Unicode.isSpace) ∧
        ∀ d ∈ (z.dropWhile Unicode.isSpace).head?, Unicode.isSpace d = false := by
    rw [dropWhile_of_head hhead]
    exact ⟨hz, hhead⟩
  induction h with
  | nil => exact hstays .nil nofun
  | semicolon => exact hstays .semicolon (by simp [Unicode.isSpace])
  | blank hd hz ih =>
    rw [List.dropWhile_cons_of_pos hd]
    exact ih
  | comment hx hz => exact hstays (.comment hx hz) (by simp [Unicode.isSpace])
  | last hx => exact hstays (.last hx) (by simp [Unicode.isSpace])

/-- Blanks and comments are taken up to the end or the semicolon. -/
theorem prefers (h : Trailer z) : ∃ n, (n = [] ∨ n = [';']) ∧ layoutRun.Prefers z (some n) := by
  have hcomment (x : List Char) (rest : List Char) (hx : '\n' ∉ x)
      (hrest : ∀ d ∈ rest.head?, d = '\n') :
      (Expr.alt (.chars .space) lineComment).Prefers ('/' :: '/' :: (x ++ rest)) (some rest) := by
    have hrun : (x ++ rest).dropWhile (CharSet.complement (.single '\n')).holds = rest := by
      rw [List.dropWhile_append_of_pos]
      · refine dropWhile_of_head fun d hd => ?_
        rw [hrest d hd]
        rfl
      · intro d hd
        rw [CharSet.holds_complement, CharSet.holds_single, Bool.not_eq_true', beq_eq_false_iff_ne]
        rintro rfl
        exact hx hd
    have htext := Expr.prefers_run (.complement (.single '\n')) (x ++ rest)
    rw [hrun] at htext
    refine .right (Expr.prefers_of_skips (by decide) _) (.seq (Expr.prefers_chars (by decide) _) ?_)
    exact .seq (Expr.prefers_chars (by decide) _) htext
  induction h with
  | nil => exact ⟨[], .inl rfl, .stop (Expr.prefers_nil_of_takes rfl)⟩
  | semicolon => exact ⟨[';'], .inr rfl, .stop (Expr.prefers_of_skips (by decide) _)⟩
  | @blank d z hd _ ih =>
    obtain ⟨n, hn, hz⟩ := ih
    exact ⟨n, hn, .round (.left (Expr.prefers_chars (s := .space) hd z)) (Nat.lt_succ_self _) hz⟩
  | @comment x z hx _ ih =>
    obtain ⟨n, hn, hz⟩ := ih
    refine ⟨n, hn, .round (hcomment x _ hx.break_not_mem (by simp)) ?_
      (.round (.left (Expr.prefers_chars (by decide) z)) (Nat.lt_succ_self _) hz)⟩
    simp
    omega
  | @last x hx =>
    have hround := hcomment x [] hx.break_not_mem nofun
    rw [List.append_nil] at hround
    exact ⟨[], .inl rfl, .round hround (by simp) (.stop (Expr.prefers_nil_of_takes rfl))⟩

/-- No block comment ends in it. -/
theorem not_infix (h : Trailer z) : ¬ ['*', '/'] <:+: z := by
  have happend {x z : List Char} (hx : '/' ∉ x) (hz : '/' ∉ z.head?)
      (hnot : ¬ ['*', '/'] <:+: z) : ¬ ['*', '/'] <:+: x ++ z := by
    induction x with
    | nil => exact hnot
    | cons d x ih =>
      rw [List.mem_cons, not_or] at hx
      rw [List.cons_append, List.infix_cons_iff, not_or]
      refine ⟨fun hprefix => ?_, ih hx.2⟩
      obtain ⟨-, hprefix⟩ := List.cons_prefix_cons.mp hprefix
      cases x with
      | nil =>
        obtain ⟨t, ht⟩ := hprefix
        exact hz (by rw [← List.nil_append z, ← ht]; rfl)
      | cons d' x => exact hx.2 (by rw [(List.cons_prefix_cons.mp hprefix).1]; simp)
  have hslash {x : List Char} (hx : IsPlain x) : '/' ∉ x := fun h => hx '/' h (by decide)
  have hcons {d : Char} {z : List Char} (hd : d ≠ '*') (hz : ¬ ['*', '/'] <:+: z) :
      ¬ ['*', '/'] <:+: d :: z := by
    rw [List.infix_cons_iff, not_or]
    exact ⟨fun hprefix => hd (List.cons_prefix_cons.mp hprefix).1.symm, hz⟩
  induction h with
  | nil => simp
  | semicolon => exact hcons (by decide) (by simp)
  | blank hd _ ih =>
    refine hcons ?_ ih
    rintro rfl
    cases hd
  | comment hx _ ih =>
    refine hcons (by decide) (hcons (by decide) (happend (hslash hx) (by simp) ?_))
    exact hcons (by decide) ih
  | @last x hx =>
    have hx := happend (z := []) (hslash hx) (by simp) (by simp)
    rw [List.append_nil] at hx
    exact hcons (by decide) (hcons (by decide) hx)

end Trailer

end Typestrip.TypeScript
