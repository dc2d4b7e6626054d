import Mathlib.Tactic.IntervalCases
import Typestrip.Json.Document

/-!
# Numbers as they are spelled

`Literal.chars` is the text of a spelled number. The reader reads every well-formed literal back, up to
a character with which the number could not go on (`read_literal`), and what the writer writes for a
number is such a literal, or `null` (`Number.exists_literal`).
-/

namespace Typestrip.Json

/-! ## Digits -/

/-- The digits of a number before the point: not empty, and without a zero in front. -/
structure IsWhole (ds : List Char) : Prop where
  ne_nil : ds ≠ []
  digits : ∀ d ∈ ds, d.isDigit
  lead : ∀ rest, ds = '0' :: rest → rest = []

/-- Digits that are not empty. -/
structure IsDigits (ds : List Char) : Prop where
  ne_nil : ds ≠ []
  digits : ∀ d ∈ ds, d.isDigit

/-- A text that does not begin with a digit. -/
def NoDigit (cs : List Char) : Prop := ∀ c rest, cs = c :: rest → c.isDigit = false

theorem noDigit_cons {c : Char} {cs : List Char} (h : c.isDigit = false) : NoDigit (c :: cs) := by
  rintro c' rest ⟨⟩
  exact h

theorem takeDigits_append {ds rest : List Char} (hd : ∀ d ∈ ds, d.isDigit) (hrest : NoDigit rest) :
    Decimal.takeDigits (ds ++ rest) = (ds, rest) := by
  unfold Decimal.takeDigits
  rw [List.takeWhile_append_of_pos hd, List.dropWhile_append_of_pos hd]
  cases rest with
  | nil => simp
  | cons c rest => simp [hrest c rest rfl]

theorem isDigits_toDigits (n : Nat) : IsDigits (Nat.toDigits 10 n) :=
  ⟨Nat.toDigits_ne_nil, fun _ => Nat.isDigit_of_mem_toDigits (by decide) (by decide)⟩

theorem toDigits_ne_zero_cons {n : Nat} (hn : 0 < n) (rest : List Char) :
    Nat.toDigits 10 n ≠ '0' :: rest := by
  induction n using Nat.base_induction 10 (by decide) generalizing rest with
  | single m hm =>
    rw [Nat.toDigits_of_lt_base hm]
    interval_cases m <;> simp [Nat.digitChar]
  | digit m k hk hm ih =>
    rw [← Nat.toDigits_append_toDigits (by decide) hm hk]
    cases h : Nat.toDigits 10 m with
    | nil => exact absurd h Nat.toDigits_ne_nil
    | cons d ds =>
      rw [List.cons_append]
      rintro ⟨⟩
      exact ih hm ds h

theorem isWhole_toDigits (n : Nat) : IsWhole (Nat.toDigits 10 n) where
  ne_nil := Nat.toDigits_ne_nil
  digits := (isDigits_toDigits n).digits
  lead := by
    intro rest h
    obtain rfl | hn := Nat.eq_zero_or_pos n
    · rw [Nat.toDigits_zero] at h
      exact (List.cons.inj h).2.symm
    · exact absurd h (toDigits_ne_zero_cons hn rest)

/-! ## Literals -/

/-- The digits after the point, as they are written. -/
def fractionChars : Option (List Char) → List Char
  | some ds => '.' :: ds
  | none => []

/-- The exponent, as it is written. -/
def exponentChars : Option (Bool × List Char) → List Char
  | some (negative, ds) => 'e' :: (if negative then '-' else '+') :: ds
  | none => []

namespace Literal

/-- The text of a spelled number without its sign. -/
def unsignedChars (l : Literal) : List Char :=
  l.whole ++ fractionChars l.fraction ++ exponentChars l.exponent

/-- The text of a spelled number. -/
def chars (l : Literal) : List Char :=
  if l.negative then '-' :: l.unsignedChars else l.unsignedChars

/-- The digits are where they have to be. -/
structure WellFormed (l : Literal) : Prop where
  whole : IsWhole l.whole
  fraction : ∀ ds, l.fraction = some ds → IsDigits ds
  exponent : ∀ negative ds, l.exponent = some (negative, ds) → IsDigits ds

end Literal

/-- A text with which the digits of a number do not go on. -/
def EndsDigits (cs : List Char) : Prop := ∀ c rest, cs = c :: rest → c.isDigit = false ∧ c ≠ '.'

/-- A text with which a number does not go on. -/
def EndsNumber (cs : List Char) : Prop :=
  ∀ c rest, cs = c :: rest → c.isDigit = false ∧ c ≠ '.' ∧ c ≠ 'e' ∧ c ≠ 'E'

theorem endsNumber_nil : EndsNumber [] := by
  rintro c rest ⟨⟩

theorem EndsDigits.noDigit {cs : List Char} (h : EndsDigits cs) : NoDigit cs :=
  fun c rest hcs => (h c rest hcs).1

theorem EndsNumber.endsDigits {cs : List Char} (h : EndsNumber cs)
    (exponent : Option (Bool × List Char)) : EndsDigits (exponentChars exponent ++ cs) := by
  intro c rest hcs
  cases exponent with
  | none =>
    obtain ⟨hdigit, hpoint, -⟩ := h c rest hcs
    exact ⟨hdigit, hpoint⟩
  | some e =>
    obtain rfl := (List.cons.inj hcs).1
    exact ⟨rfl, by decide⟩

theorem EndsDigits.noDigit_fraction {cs : List Char} (h : EndsDigits cs)
    (fraction : Option (List Char)) : NoDigit (fractionChars fraction ++ cs) := by
  cases fraction with
  | none => exact h.noDigit
  | some ds => exact noDigit_cons rfl

namespace Document

variable {ds rest : List Char}

theorem readWhole_append (h : IsWhole ds) (hrest : NoDigit rest) :
    readWhole (ds ++ rest) = some (ds, rest) := by
  unfold readWhole
  rw [takeDigits_append h.digits hrest]
  split
  next heq => exact absurd (congrArg Prod.fst heq) h.ne_nil
  next heq =>
    obtain ⟨rfl, -⟩ := Prod.mk.inj heq
    exact absurd (h.lead _ rfl) (List.cons_ne_nil _ _)
  next heq =>
    obtain ⟨rfl, rfl⟩ := Prod.mk.inj heq
    rfl

theorem readFraction_append {fraction : Option (List Char)}
    (h : ∀ ds, fraction = some ds → IsDigits ds) (hrest : EndsDigits rest) :
    readFraction (fractionChars fraction ++ rest) = some (fraction, rest) := by
  cases fraction with
  | none =>
    show readFraction rest = _
    unfold readFraction
    split
    next => exact absurd rfl (hrest _ _ rfl).2
    next => rfl
  | some ds =>
    rw [fractionChars, List.cons_append, readFraction,
      takeDigits_append (h ds rfl).digits hrest.noDigit]
    split
    next heq => exact absurd (congrArg Prod.fst heq) (h ds rfl).ne_nil
    next heq =>
      obtain ⟨rfl, rfl⟩ := Prod.mk.inj heq
      rfl

theorem readExponentDigits_append {negative : Bool} (h : IsDigits ds) (hrest : NoDigit rest) :
    readExponentDigits negative (ds ++ rest) = some (some (negative, ds), rest) := by
  unfold readExponentDigits
  rw [takeDigits_append h.digits hrest]
  split
  next heq => exact absurd (congrArg Prod.fst heq) h.ne_nil
  next heq =>
    obtain ⟨rfl, rfl⟩ := Prod.mk.inj heq
    rfl

theorem readExponent_append {exponent : Option (Bool × List Char)}
    (h : ∀ negative ds, exponent = some (negative, ds) → IsDigits ds) (hrest : EndsNumber rest) :
    readExponent (exponentChars exponent ++ rest) = some (exponent, rest) := by
  cases exponent with
  | none =>
    cases rest with
    | nil => rfl
    | cons c cs =>
      obtain ⟨-, -, he, hE⟩ := hrest c cs rfl
      exact if_neg (not_or.mpr ⟨he, hE⟩)
  | some e =>
    obtain ⟨negative, ds⟩ := e
    have hdigits : readExponentDigits negative (ds ++ rest) = some (some (negative, ds), rest) :=
      readExponentDigits_append (h negative ds rfl) (hrest.endsDigits none).noDigit
    cases negative <;> exact hdigits

/-- The reader reads a spelled number back. -/
theorem readNumber_literal {l : Literal} (h : l.WellFormed) (hrest : EndsNumber rest) :
    readNumber l.negative (l.unsignedChars ++ rest) = some (.number l, rest) := by
  have hexponent := hrest.endsDigits l.exponent
  unfold readNumber Literal.unsignedChars
  rw [List.append_assoc, List.append_assoc,
    readWhole_append h.whole (hexponent.noDigit_fraction l.fraction)]
  simp only [Option.bind_eq_bind, Option.bind_some]
  rw [readFraction_append h.fraction hexponent]
  simp only [Option.bind_some]
  rw [readExponent_append h.exponent hrest]
  rfl

theorem isBlank_of_isDigit {d : Char} (hd : d.isDigit) : isBlank d = false := by
  rw [Bool.eq_false_iff]
  intro hblank
  simp only [isBlank, Bool.or_eq_true, decide_eq_true_eq] at hblank
  obtain ((rfl | rfl) | rfl) | rfl := hblank <;> cases hd

/-- A text that begins with a digit is read as a number. -/
theorem read_digit {fuel : Nat} {d : Char} {cs : List Char} (hd : d.isDigit) :
    read (fuel + 1) (d :: cs) = readNumber false (d :: cs) := by
  have hskip : skipBlanks (d :: cs) = d :: cs := by
    rw [skipBlanks, List.dropWhile_cons, isBlank_of_isDigit hd]
    rfl
  unfold read
  rw [hskip]
  split <;> first | rfl | (next heq => cases heq; cases hd)

theorem read_literal {fuel : Nat} {l : Literal} (h : l.WellFormed) (hrest : EndsNumber rest) :
    read (fuel + 1) (l.chars ++ rest) = some (.number l, rest) := by
  have hread := readNumber_literal h hrest
  unfold Literal.chars
  cases hsign : l.negative with
  | true =>
    rw [hsign] at hread
    exact hread
  | false =>
    rw [hsign] at hread
    cases hwhole : l.whole with
    | nil => exact absurd hwhole h.whole.ne_nil
    | cons d ds =>
      have hd : d.isDigit := h.whole.digits d (hwhole ▸ List.mem_cons_self)
      have hchars : l.unsignedChars ++ rest =
          d :: (ds ++ fractionChars l.fraction ++ exponentChars l.exponent ++ rest) := by
        rw [Literal.unsignedChars, hwhole]
        rfl
      rw [if_neg Bool.false_ne_true, hchars, read_digit hd, ← hchars, hread]

end Document

/-! ## Written numbers -/

theorem isWhole_of_head {d : Char} {ds : List Char} (hd : d ≠ '0') (h : ∀ c ∈ d :: ds, c.isDigit) :
    IsWhole (d :: ds) where
  ne_nil := List.cons_ne_nil _ _
  digits := h
  lead := fun _ heq => absurd (List.cons.inj heq).1 hd

end Typestrip.Json

namespace Typestrip.Decimal

theorem strip_digits_ne_zero {d : Decimal} (h : d.digits ≠ 0) (fuel : Nat) :
    (d.strip fuel).digits ≠ 0 := by
  induction fuel generalizing d with
  | zero => exact h
  | succ fuel ih =>
    unfold Decimal.strip
    split
    next hd => exact ih (by show d.digits / 10 ≠ 0; omega)
    next => exact h

theorem Grid.pos_of_holds {t : Grid} {g : Nat} (hlow : 0 < t.low) (h : t.holds g = true) :
    0 < g := by
  obtain rfl | hg := Nat.eq_zero_or_pos g
  · unfold holds at h
    rw [Nat.zero_mul] at h
    split at h <;> simp only [Bool.and_eq_true, decide_eq_true_eq] at h <;> omega
  · exact hg

theorem Grid.holds_of_nearest? {t : Grid} {g : Nat} (h : t.nearest? = some g) :
    t.holds g = true := by
  unfold nearest? at h
  simp only at h
  split at h
  next hbelow habove =>
    have hg := Option.some.inj h
    split at hg
    · exact hg ▸ hbelow
    split at hg
    · exact hg ▸ habove
    split at hg
    · exact hg ▸ hbelow
    · exact hg ▸ habove
  next hbelow habove => exact Option.some.inj h ▸ hbelow
  next hbelow habove => exact Option.some.inj h ▸ habove
  next => cases h

theorem Interval.grid_low_pos {i : Interval} (h : 0 < i.low) (k : Int) : 0 < (i.grid k).low :=
  Nat.mul_pos h (Nat.mul_pos (Nat.pow_pos (by decide)) (Nat.pow_pos (by decide)))

theorem Interval.search_digits_ne_zero {i : Interval} (h : 0 < i.low) {first : Int}
    {count tries : Nat} {d : Decimal} (hd : i.search first count tries = some d) :
    d.digits ≠ 0 := by
  induction tries generalizing count with
  | zero => cases hd
  | succ tries ih =>
    unfold search at hd
    simp only at hd
    split at hd
    next g hg =>
      have hpos := Grid.pos_of_holds (i.grid_low_pos h _) (Grid.holds_of_nearest? hg)
      exact Option.some.inj hd ▸ strip_digits_ne_zero (Nat.ne_of_gt hpos) _
    next => exact ih hd

/-- Of the decimals with no digits but zeros, the shortest one has no further zeros. -/
theorem shortest_exponent {x : Float} (h : (shortest x).digits = 0) : (shortest x).exponent = 0 := by
  unfold shortest at h ⊢
  simp only at h ⊢
  split at h
  next hzero => rw [if_pos hzero]
  next hzero =>
    rw [if_neg hzero]
    cases hd : (Binary.ofFloat x).interval.search (Binary.ofFloat x).interval.firstDigit 1 17 with
    | none => rfl
    | some d =>
      rw [hd] at h
      refine absurd h (Interval.search_digits_ne_zero ?_ hd)
      show 0 < 4 * (Binary.ofFloat x).significand - _
      split <;> omega

end Typestrip.Decimal

namespace Typestrip.Json

open Decimal

theorem digits_append_zeros {ds : List Char} (h : ∀ d ∈ ds, d.isDigit) (n : Nat) :
    ∀ d ∈ ds ++ zeros n, d.isDigit := by
  intro d hd
  obtain hd | hd := List.mem_append.mp hd
  · exact h d hd
  · rw [List.eq_of_mem_replicate hd]
    rfl

theorem exists_literal_positional {ds : List Char} {e : Int} (hds : IsWhole ds)
    (hlead : e ≠ 0 → ∀ rest, ds ≠ '0' :: rest) (negative : Bool) :
    ∃ l : Literal, l.WellFormed ∧ l.negative = negative ∧
      positionalText ['.', '0'] ds e = l.unsignedChars := by
  obtain ⟨d, rest, rfl⟩ := List.exists_cons_of_ne_nil hds.ne_nil
  unfold positionalText
  simp only
  split
  next he =>
    have hwhole : IsWhole (d :: rest ++ zeros e.toNat) := by
      by_cases hzero : e = 0
      · subst hzero
        exact (List.append_nil (d :: rest)).symm ▸ hds
      · refine isWhole_of_head (fun hd => hlead hzero rest (hd ▸ rfl)) ?_
        exact digits_append_zeros hds.digits _
    refine ⟨⟨negative, d :: rest ++ zeros e.toNat, some ['0'], none⟩, ⟨hwhole, ?_, nofun⟩, rfl, ?_⟩
    · rintro ds ⟨⟩
      exact ⟨List.cons_ne_nil _ _, fun _ hc => List.mem_singleton.mp hc ▸ rfl⟩
    · simp [Literal.unsignedChars, fractionChars, exponentChars]
  next he =>
    have hd : d ≠ '0' := fun hd => hlead (by omega) rest (hd ▸ rfl)
    split
    next hpoint =>
      rw [List.length_cons] at hpoint ⊢
      obtain ⟨k, hk⟩ : ∃ k, (e + ↑(rest.length + 1)).toNat = k + 1 :=
        ⟨(e + ↑(rest.length + 1)).toNat - 1, by omega⟩
      have hlength : k < rest.length := by omega
      rw [hk, List.take_succ_cons, List.drop_succ_cons]
      have hdigits : ∀ c ∈ rest, c.isDigit := fun c hc =>
        hds.digits c (List.mem_cons_of_mem _ hc)
      refine ⟨⟨negative, d :: rest.take k, some (rest.drop k), none⟩, ⟨?_, ?_, nofun⟩, rfl, ?_⟩
      · refine isWhole_of_head hd fun c hc => hds.digits c ?_
        exact List.cons_subset_cons d (List.take_subset k rest) hc
      · rintro ds ⟨⟩
        exact ⟨by simpa using hlength, fun c hc => hdigits c (List.drop_subset k rest hc)⟩
      · simp [Literal.unsignedChars, fractionChars, exponentChars]
    next hpoint =>
      refine ⟨⟨negative, ['0'], some (zeros (-(e + (d :: rest).length)).toNat ++ d :: rest), none⟩,
        ⟨isWhole_toDigits 0, ?_, nofun⟩, rfl, ?_⟩
      · rintro ds ⟨⟩
        refine ⟨by simp, fun c hc => ?_⟩
        obtain hc | hc := List.mem_append.mp hc
        · rw [List.eq_of_mem_replicate hc]
          rfl
        · exact hds.digits c hc
      · simp [Literal.unsignedChars, fractionChars, exponentChars]

theorem exists_literal_exponent {d : Char} {ds : List Char} (e : Int) (hd : d ≠ '0')
    (hds : ∀ c ∈ d :: ds, c.isDigit) (negative : Bool) :
    ∃ l : Literal, l.WellFormed ∧ l.negative = negative ∧
      exponentText floatNotation (d :: ds) e = l.unsignedChars := by
  let fraction : Option (List Char) := if ds.isEmpty then none else some ds
  have hfraction : ∀ fs, fraction = some fs → IsDigits fs := by
    intro fs hfs
    obtain ⟨hne, hfs⟩ := Option.ite_none_left_eq_some.mp hfs
    cases hfs
    exact ⟨fun h => hne (List.isEmpty_iff.mpr h), fun c hc => hds c (List.mem_cons_of_mem _ hc)⟩
  have hchars : (if ds.isEmpty then [] else '.' :: ds) = fractionChars fraction := by
    show _ = fractionChars (if ds.isEmpty then none else some ds)
    split <;> rfl
  have hwhole : IsWhole [d] := isWhole_of_head hd fun c hc =>
    hds c (List.mem_singleton.mp hc ▸ List.mem_cons_self)
  have hexponent (n : Nat) (sign : Bool) : ∀ sign' fs, some (sign, Nat.toDigits 10 n) =
      some (sign', fs) → IsDigits fs := by
    rintro sign' fs ⟨⟩
    exact isDigits_toDigits n
  unfold exponentText
  simp only [List.take_succ_cons, List.take_zero, List.drop_succ_cons, List.drop_zero, hchars]
  split
  next => exact ⟨⟨negative, [d], fraction, some (false, _)⟩,
    ⟨hwhole, hfraction, hexponent _ false⟩, rfl, rfl⟩
  next => exact ⟨⟨negative, [d], fraction, some (true, _)⟩,
    ⟨hwhole, hfraction, hexponent _ true⟩, rfl, rfl⟩

/-- What the writer writes for a decimal, its sign apart, is the text of a literal. -/
theorem exists_literal_write (d : Decimal) (hzero : d.digits = 0 → d.exponent = 0)
    (negative : Bool) :
    ∃ l : Literal, l.WellFormed ∧ l.negative = negative ∧
      floatNotation.write d = l.unsignedChars := by
  unfold Notation.write
  simp only
  split
  next =>
    refine exists_literal_positional (isWhole_toDigits _) (fun he => ?_) negative
    exact toDigits_ne_zero_cons (Nat.pos_of_ne_zero fun h => he (hzero h))
  next h =>
    have hpos : 0 < d.digits := by
      rw [Bool.or_eq_true, not_or, decide_eq_true_eq] at h
      exact Nat.pos_of_ne_zero h.1
    have hdigits := (isDigits_toDigits d.digits).digits
    cases hds : Nat.toDigits 10 d.digits with
    | nil => exact absurd hds Nat.toDigits_ne_nil
    | cons c cs =>
      rw [hds] at hdigits
      exact exists_literal_exponent _ (fun hc => toDigits_ne_zero_cons hpos cs (hc ▸ hds)) hdigits
        negative

/-- The literal of a whole number. -/
def Literal.ofInt (n : Int) : Literal := ⟨decide (n < 0), Nat.toDigits 10 n.natAbs, none, none⟩

theorem Literal.wellFormed_ofInt (n : Int) : (Literal.ofInt n).WellFormed :=
  ⟨isWhole_toDigits _, nofun, nofun⟩

theorem Number.text_int (n : Int) : (Number.int n).text = (Literal.ofInt n).chars := by
  simp [Number.text, Literal.ofInt, Literal.chars, Literal.unsignedChars, fractionChars,
    exponentChars]

/-- What the writer writes for a number is the text of a literal, or `null`. -/
theorem Number.exists_literal (n : Number) :
    (∃ l : Literal, l.WellFormed ∧ n.text = l.chars) ∨ n.text = ['n', 'u', 'l', 'l'] := by
  cases n with
  | int n => exact .inl ⟨.ofInt n, Literal.wellFormed_ofInt n, Number.text_int n⟩
  | float x =>
    rw [Number.text]
    split
    next =>
      obtain ⟨l, hl, hsign, hchars⟩ :=
        exists_literal_write (shortest x) shortest_exponent (isNegative x)
      refine .inl ⟨l, hl, ?_⟩
      unfold Notation.writeFloat Literal.chars
      rw [hsign, hchars]
    next => exact .inr rfl

end Typestrip.Json
