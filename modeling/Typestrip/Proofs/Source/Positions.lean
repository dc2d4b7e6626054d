import Mathlib.Algebra.Group.Nat.Defs
import Mathlib.Data.List.Induction
import Mathlib.Order.Bounds.Defs
import Typestrip.Proofs.Text.Boundary
import Typestrip.Source.Position

/-!
# Lines and columns

An offset into a source names the last character boundary at or before it (`advance_eq`), and the
position of a boundary tells the line feeds and the characters of the last line in front of it
(`walk_eq`). In a source of fewer than `2 ^ 32 - 1` bytes neither count exceeds 32 bits. So positions
are exact and, on the boundaries of a source, ordered like offsets (`ofOffset_exact`).
-/

namespace Typestrip.Text

/-! ## The beginnings of a text -/

variable {front back before after cs : List Char} {m n : Nat}

theorem length_le_width (cs : List Char) : cs.length ≤ width cs := by
  induction cs with
  | nil => exact Nat.le_refl 0
  | cons c cs ih =>
    have hsize := c.utf8Size_pos
    rw [List.length_cons, width_cons]
    omega

theorem width_eq_zero : width cs = 0 ↔ cs = [] := by
  constructor
  · intro h
    have hlength := length_le_width cs
    exact List.length_eq_zero_iff.mp (by omega)
  · rintro rfl
    rfl

/-- Of two beginnings of a text the narrower one begins the other. -/
theorem exists_append_of_width_le (h : front ++ back = before ++ after)
    (hwidth : width front ≤ width before) : ∃ between, before = front ++ between := by
  rcases List.append_eq_append_iff.mp h with ⟨between, hbefore, -⟩ | ⟨between, rfl, -⟩
  · exact ⟨between, hbefore⟩
  · rw [width_append] at hwidth
    have hnil : between = [] := width_eq_zero.mp (by omega)
    exact ⟨[], by rw [hnil, List.append_nil, List.append_nil]⟩

/-- The characters behind the last line feed of a text. -/
def lastLine (cs : List Char) : List Char := (cs.reverse.takeWhile (· ≠ '\n')).reverse

theorem lastLine_concat_newline (cs : List Char) : lastLine (cs ++ ['\n']) = [] := by
  simp [lastLine]

/-- What is appended without a line feed is appended to the last line. -/
theorem lastLine_append (h : '\n' ∉ back) : lastLine (front ++ back) = lastLine front ++ back := by
  have hback : ∀ c ∈ back.reverse, decide (c ≠ '\n') = true := by
    intro c hc
    refine decide_eq_true ?_
    rintro rfl
    exact h (List.mem_reverse.mp hc)
  unfold lastLine
  rw [List.reverse_append, List.takeWhile_append_of_pos hback, List.reverse_append,
    List.reverse_reverse]

theorem length_lastLine_le (cs : List Char) : (lastLine cs).length ≤ cs.length := by
  unfold lastLine
  rw [List.length_reverse, ← cs.length_reverse]
  exact (List.takeWhile_sublist _).length_le

end Typestrip.Text

namespace Typestrip.Source.Position

open Text

variable {source before after : List Char} {offset : Nat}

/-! ## Walking over a text -/

/-- The position behind a text that stands at `p`. -/
def walk (p : Position) (cs : List Char) : Position := cs.foldl Position.after p

/-- Moving on takes the widest beginning for which there is room. -/
theorem advance_eq (p : Position) (room : Nat) (cs : List Char) :
    ∃ before after, cs = before ++ after ∧ p.advance room cs = p.walk before ∧
      width before ≤ room ∧ ∀ c ∈ after.head?, room < width before + c.utf8Size := by
  induction cs generalizing p room with
  | nil => exact ⟨[], [], rfl, rfl, Nat.zero_le _, nofun⟩
  | cons c cs ih =>
    rw [advance]
    split
    · next hfits =>
      obtain ⟨before, after, rfl, hwalk, hroom, hnext⟩ := ih (p.after c) (room - c.utf8Size)
      refine ⟨c :: before, after, rfl, hwalk, ?_, fun d hd => ?_⟩
      · rw [width_cons]
        omega
      · have hd := hnext d hd
        rw [width_cons]
        omega
    · next hfull =>
      refine ⟨[], c :: cs, rfl, rfl, Nat.zero_le _, fun d hd => ?_⟩
      cases hd
      rw [width_nil]
      omega

/-- Moving on over a beginning leads behind it. -/
theorem advance_width (p : Position) (before after : List Char) :
    p.advance (width before) (before ++ after) = p.walk before := by
  induction before generalizing p with
  | nil =>
    cases after with
    | nil => rfl
    | cons c after => exact if_neg (Nat.not_le.mpr c.utf8Size_pos)
  | cons c before ih =>
    rw [width_cons, List.cons_append, advance, if_pos (Nat.le_add_right _ _),
      Nat.add_sub_cancel_left]
    exact ih (p.after c)

/-- The counts that a position holds, as far as its words reach. -/
theorem walk_eq (cs : List Char) :
    start.walk cs = ⟨.ofNat (1 + cs.count '\n'), .ofNat (1 + (lastLine cs).length),
      .ofNat (width cs)⟩ := by
  induction cs using List.reverseRecOn with
  | nil => rfl
  | append_singleton cs c ih =>
    have hwalk : start.walk (cs ++ [c]) = (start.walk cs).after c := List.foldl_append
    have hoffset : UInt64.ofNat (width cs) + c.utf8Size.toUInt64 =
        .ofNat (width (cs ++ [c])) := by
      rw [width_append]
      exact (UInt64.ofNat_add _ _).symm
    rw [hwalk, ih, Position.after, hoffset, List.count_append]
    split
    · next hc =>
      subst hc
      rw [lastLine_concat_newline, List.count_singleton_self, ← Nat.add_assoc]
      exact congrArg (Position.mk · _ _) (UInt32.ofNat_add _ _).symm
    · next hc =>
      have hline : '\n' ∉ [c] := fun h => hc (List.mem_singleton.mp h).symm
      rw [lastLine_append hline, List.count_eq_zero_of_not_mem hline, List.length_append,
        ← Nat.add_assoc]
      exact congrArg (Position.mk _ · _) (UInt32.ofNat_add _ _).symm

/-- In a source that is not too large the counts fit into their words. -/
theorem walk_exact (hsmall : width before < 2 ^ 32 - 1) :
    (start.walk before).line.toNat = 1 + before.count '\n' ∧
      (start.walk before).column.toNat = 1 + (lastLine before).length ∧
      (start.walk before).offset.toNat = width before := by
  have hlength := length_le_width before
  have hline : before.count '\n' ≤ before.length := List.count_le_length
  have hcolumn := length_lastLine_le before
  rw [walk_eq]
  refine ⟨UInt32.toNat_ofNat_of_lt' ?_, UInt32.toNat_ofNat_of_lt' ?_, UInt64.toNat_ofNat_of_lt' ?_⟩
  all_goals
    simp only [UInt32.size, UInt64.size]
    omega

/-! ## The order of positions -/

/-- The line and the column of a position. -/
def place (p : Position) : UInt32 × UInt32 := (p.line, p.column)

/-- The order of places: by lines, and in a line by columns. -/
theorem place_asymm {p q : UInt32 × UInt32} (h : Prod.Lex (· < ·) (· < ·) p q) :
    ¬ Prod.Lex (· < ·) (· < ·) q p := by
  simp only [Prod.lex_def, UInt32.lt_iff_toNat_lt, ← UInt32.toNat_inj] at h ⊢
  omega

/-- Whatever is walked over, the place behind it comes later. -/
theorem place_walk_lt {between : List Char} (hsmall : width (before ++ between) < 2 ^ 32 - 1)
    (hne : between ≠ []) :
    Prod.Lex (· < ·) (· < ·) (start.walk before).place (start.walk (before ++ between)).place := by
  have hbefore : width before < 2 ^ 32 - 1 := by
    rw [width_append] at hsmall
    omega
  obtain ⟨hline, hcolumn, -⟩ := walk_exact hbefore
  obtain ⟨hline', hcolumn', -⟩ := walk_exact hsmall
  rw [List.count_append] at hline'
  by_cases hbreak : '\n' ∈ between
  · -- a line further down
    have hcount := List.count_pos_iff.mpr hbreak
    refine .left _ _ (UInt32.lt_iff_toNat_lt.mpr ?_)
    omega
  · -- further on in the same line
    rw [lastLine_append hbreak, List.length_append] at hcolumn'
    rw [List.count_eq_zero_of_not_mem hbreak] at hline'
    have hlength := List.length_pos_iff.mpr hne
    have hsame : (start.walk before).line = (start.walk (before ++ between)).line :=
      UInt32.toNat_inj.mp (by omega)
    have hless : (start.walk before).column < (start.walk (before ++ between)).column :=
      UInt32.lt_iff_toNat_lt.mpr (by omega)
    unfold place
    rw [hsame]
    exact .right _ hless

/-- Later boundaries of a source have later places. -/
theorem place_lt {a b : Nat} (hsmall : width source < 2 ^ 32 - 1) (ha : IsBoundary source a)
    (hb : IsBoundary source b) (hless : a < b) :
    Prod.Lex (· < ·) (· < ·) (ofOffset source a).place (ofOffset source b).place := by
  obtain ⟨before, after, rfl, rfl⟩ := ha
  obtain ⟨before', after', hsource, rfl⟩ := hb
  obtain ⟨between, rfl⟩ := exists_append_of_width_le hsource (Nat.le_of_lt hless)
  have hne : between ≠ [] := by
    rintro rfl
    rw [List.append_nil] at hless
    exact Nat.lt_irrefl _ hless
  have hplace : ofOffset (before ++ after) (width (before ++ between)) =
      start.walk (before ++ between) := by
    rw [ofOffset, hsource, advance_width]
  rw [hplace, ofOffset, advance_width]
  refine place_walk_lt ?_ hne
  rw [hsource, width_append] at hsmall
  omega

/-- An offset names the last boundary at or before it and before the end of the source. -/
theorem isGreatest_width (hroom : width before ≤ offset)
    (hnext : ∀ c ∈ after.head?, offset < width before + c.utf8Size) :
    IsGreatest {n | IsBoundary (before ++ after) n ∧ n ≤ min offset (width (before ++ after))}
      (width before) := by
  refine ⟨⟨⟨before, after, rfl, rfl⟩, Nat.le_min.mpr ⟨hroom, ?_⟩⟩, ?_⟩
  · rw [width_append]
    exact Nat.le_add_right _ _
  · rintro _ ⟨⟨before', after', hsource, rfl⟩, hle⟩
    by_contra hwider
    obtain ⟨between, rfl⟩ := exists_append_of_width_le hsource (Nat.le_of_not_le hwider)
    -- a wider beginning goes at least one character further, for which there is no room
    cases between with
    | nil => exact hwider (by simp)
    | cons c between =>
      rw [List.append_assoc, List.append_cancel_left_eq] at hsource
      have hroom' := hnext c (by rw [hsource]; rfl)
      rw [width_append, width_cons] at hle
      omega

/-- In a source of fewer than `2 ^ 32 - 1` bytes every offset has a position, that of the last boundary
at or before it: its line and column count the line feeds in front of it and the characters behind the
last of them, without exceeding 32 bits. On boundaries, offsets and positions are ordered alike, so no
two boundaries share a line and a column. -/
theorem ofOffset_exact (hsmall : width source < 2 ^ 32 - 1) :
    (∀ offset : Nat, ∃ before after, source = before ++ after ∧
      IsGreatest {n | IsBoundary source n ∧ n ≤ min offset (width source)} (width before) ∧
      (ofOffset source offset).offset.toNat = width before ∧
      (ofOffset source offset).line.toNat = 1 + before.count '\n' ∧
      (ofOffset source offset).column.toNat = 1 + (lastLine before).length) ∧
    (∀ a b, IsBoundary source a → IsBoundary source b →
      (a < b ↔
        Prod.Lex (· < ·) (· < ·) (ofOffset source a).place (ofOffset source b).place) ∧
      ((ofOffset source a).place = (ofOffset source b).place → a = b)) := by
  refine ⟨fun offset => ?_, fun a b ha hb => ?_⟩
  · obtain ⟨before, after, rfl, hwalk, hroom, hnext⟩ := advance_eq start offset source
    have hbefore : width before < 2 ^ 32 - 1 := by
      rw [width_append] at hsmall
      omega
    obtain ⟨hline, hcolumn, hoffset⟩ := walk_exact hbefore
    rw [← hwalk] at hline hcolumn hoffset
    exact ⟨before, after, rfl, isGreatest_width hroom hnext, hoffset, hline, hcolumn⟩
  · have hforth := place_lt hsmall ha hb
    have hback := place_lt hsmall hb ha
    rcases Nat.lt_trichotomy a b with hless | rfl | hless
    · have hlex := hforth hless
      refine ⟨iff_of_true hless hlex, fun hsame => ?_⟩
      rw [hsame] at hlex
      exact absurd hlex (place_asymm hlex)
    · exact ⟨iff_of_false (Nat.lt_irrefl a) fun h => place_asymm h h, fun _ => rfl⟩
    · have hlex := hback hless
      refine ⟨iff_of_false (Nat.lt_asymm hless) (place_asymm hlex), fun hsame => ?_⟩
      rw [hsame] at hlex
      exact absurd hlex (place_asymm hlex)

/-- Offsets inside of a character, on a line feed and past the end. -/
theorem ofOffset_exact_umlaut :
    width ['ü', '\n', 'x'] < 2 ^ 32 - 1 ∧
    (∃ before after, ['ü', '\n', 'x'] = before ++ after ∧
      IsGreatest {n | IsBoundary ['ü', '\n', 'x'] n ∧ n ≤ min 1 4} (width before) ∧
      (ofOffset ['ü', '\n', 'x'] 1).offset.toNat = width before) ∧
    (∃ before after, ['ü', '\n', 'x'] = before ++ after ∧
      (ofOffset ['ü', '\n', 'x'] 9).line.toNat = 1 + before.count '\n' ∧
      (ofOffset ['ü', '\n', 'x'] 9).column.toNat = 1 + (lastLine before).length) ∧
    IsBoundary ['ü', '\n', 'x'] 2 ∧ IsBoundary ['ü', '\n', 'x'] 3 ∧
    Prod.Lex (· < ·) (· < ·) (ofOffset ['ü', '\n', 'x'] 2).place
      (ofOffset ['ü', '\n', 'x'] 3).place := by
  have hsmall : width ['ü', '\n', 'x'] < 2 ^ 32 - 1 := by decide
  have hfeed : IsBoundary ['ü', '\n', 'x'] 2 := ⟨['ü'], ['\n', 'x'], rfl, rfl⟩
  have hlast : IsBoundary ['ü', '\n', 'x'] 3 := ⟨['ü', '\n'], ['x'], rfl, rfl⟩
  obtain ⟨hexact, horder⟩ := ofOffset_exact hsmall
  obtain ⟨before, after, hsource, hgreatest, hoffset, -⟩ := hexact 1
  obtain ⟨before', after', hsource', -, -, hline, hcolumn⟩ := hexact 9
  exact ⟨hsmall, ⟨before, after, hsource, hgreatest, hoffset⟩,
    ⟨before', after', hsource', hline, hcolumn⟩, hfeed, hlast,
    (horder 2 3 hfeed hlast).1.mp (by decide)⟩

end Typestrip.Source.Position
