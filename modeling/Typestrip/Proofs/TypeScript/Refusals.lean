import Mathlib.Data.List.DropRight
import Typestrip.Proofs.Grammar.Grounding
import Typestrip.Proofs.TypeScript.Nesting
import Typestrip.Proofs.TypeScript.Outlines

/-!
# What is said of a source that is refused

A source that is no program is refused with a report about its syntax: there is a position, and it is
told what would have been accepted there, unless rules nest too deeply. Where a program ends before
the source does, the statement behind it is parsed once more, and that always fails
(`Transpiler.transform_refusal`).
-/

namespace Typestrip.TypeScript

open Grammar Source

/-- All choices of the grammar have alternatives, and all references lead to bodies. -/
theorem filled_grammar : ((grammar.run {}).2.registry.filled (grammar.run {}).1.program &&
    (grammar.run {}).2.registry.filled (grammar.run {}).1.statement) = true := by
  decide +kernel

/-- Where a program ends no statement begins. -/
theorem not_leaves_next {bodies : Nat → Option Outline} {source rest : List Char}
    (hsure : ∀ {cs rest}, Leaves bodies nextOutline cs (some rest) → rest.length < cs.length)
    (h : Leaves bodies programOutline source (some rest)) (rest' : List Char) :
    ¬ Leaves bodies nextOutline rest (some rest') := by
  intro hnext
  obtain ⟨mid, hbody, hend⟩ : ∃ mid, Leaves bodies (.repetition nextOutline) source (some mid) ∧
      Leaves bodies blanksOutline mid (some rest) := by
    cases h with
    | part hbody _ hend =>
      cases hbody with
      | kept hbody =>
        cases hend with
        | part hend _ hdone =>
          cases hdone
          exact ⟨_, hbody, hend⟩
  obtain rfl := Option.some.inj (course_blanks_iff.mp hend)
  rcases hbody.repetition_end with hstop | hidle
  · -- both times it is asked for a statement behind the blanks
    cases hstop with
    | partFailed hblanks => cases course_blanks_iff.mp hblanks
    | part hblanks _ hstop =>
      obtain rfl := Option.some.inj (course_blanks_iff.mp hblanks)
      cases hnext with
      | part hblanks' _ hnext =>
        have hmid := Option.some.inj (course_blanks_iff.mp hblanks')
        rw [List.dropWhile_idempotent] at hmid
        rw [hmid] at hnext
        cases hstop.unique hnext
  · exact Nat.lt_irrefl _ (hsure hidle)

/-- A report on a source that is refused is about its syntax, has the position of a place in the
source at or behind an offset, and tells what would have been accepted there, unless rules nest too
deeply. -/
def Precise (source : List Char) (start : Nat) (d : Diagnostic) : Prop :=
  d.kind = .syntactic ∧
    (∃ pos, start ≤ pos ∧ Text.IsBoundary source pos ∧ d.position = some (.ofOffset source pos) ∧
      (Position.ofOffset source pos).offset = pos.toUInt64) ∧
    (d.expected ≠ [] ∨ ∃ limit, d.message = nestingMessage limit)

/-- A failure in the rest of a source is reported precisely. -/
theorem precise_diagnostic {e : ParseError} {source rest : List Char} {start : Nat}
    (hrest : Text.fromBoundary? source start = some rest) (hgrounded : e.Grounded)
    (hlocated : e.Located rest 0) : Precise source start ((e.shift start).diagnostic source) := by
  obtain ⟨pos, hpos, hkind, hposition, hexpected⟩ :=
    (hgrounded.shift start).diagnostic source
  obtain ⟨leaf, hleaf, heq⟩ := ParseError.exists_of_part_shift (e.shift start).deepest_part.1
  rw [heq, ParseError.position?_shift] at hpos
  obtain ⟨pos', hpos', rfl⟩ := Option.map_eq_some_iff.mp hpos
  have hboundary := ((hlocated leaf (ParseError.part_iff_below.mp hleaf)).1 pos' hpos').2.2
  obtain ⟨after, hafter⟩ := Text.isBoundary_iff.mp hboundary
  have hsource : Text.IsBoundary source (pos' + start) := by
    rw [Nat.add_comm]
    exact Text.isBoundary_iff.mpr ⟨after, (Text.fromBoundary?_add hrest pos').trans hafter⟩
  exact ⟨hkind, ⟨_, Nat.le_add_left _ _, hsource, hposition, Position.offset_ofOffset hsource⟩,
    hexpected⟩

/-- What can be said of the two parsers of the grammar. -/
structure Parsers.Sound (parsers : Parsers) (p : Parser) : Prop where
  grounded : ∀ {options input e}, p.parse options input = .error e → (∀ stop, e ≠ .leftOver stop) →
    e.Grounded
  leaves : ∀ {maxDepth memoize input s}, (p.matchAt maxDepth 0 input (.empty memoize)).1 = .ok s →
    ∃ rest, Text.fromBoundary? input s.consumed = some rest ∧
      Leaves (outlineOf parsers.program.rules) p.root.outline input (some rest)

theorem Parsers.sound {parsers : Parsers} (h : Parsers.compiled = .ok parsers) :
    parsers.Sound parsers.program ∧ parsers.Sound parsers.statement := by
  obtain ⟨member, F, hid, hprogram, hstatement⟩ := Parsers.exists_family h
  obtain ⟨hcompile, hcompile'⟩ := Parsers.eq_of_compiled h
  obtain ⟨hfilled, hfilled'⟩ := Bool.and_eq_true_iff.mp filled_grammar
  have hrules := Parsers.rules_statement h
  have F' : Family parsers.statement.rules member := hrules ▸ F
  refine ⟨⟨?_, ?_⟩, ⟨?_, ?_⟩⟩
  · exact Parser.parse_grounded hfilled hcompile F hid hprogram
  · exact Parser.leaves_of_matchAt F hid hprogram
  · exact Parser.parse_grounded hfilled' hcompile' F' hid hstatement
  · rw [← hrules]
    exact Parser.leaves_of_matchAt F' hid hstatement

/-- The failure of a parse lies in the input. -/
theorem located_of_parse {p : Parser} {options : Options} {input : List Char} {e : ParseError}
    (h : p.parse options input = .error e) (he : ∀ stop, e ≠ .leftOver stop) :
    e.Located input 0 := by
  rcases (insideInput input).parse_failure rfl h with ⟨s, -, rfl⟩ | ⟨-, hlocated⟩
  · exact absurd rfl (he _)
  · exact hlocated

namespace Transpiler

/-- Where a program ends before the source does, no statement can be parsed. -/
theorem exists_error_of_leftOver {t : Transpiler} (h : Parsers.compiled = .ok t.parsers)
    {source : List Char} {stop : Nat}
    (hparse : t.parsers.program.parse t.options source = .error (.leftOver stop)) :
    ∃ rest e, Text.fromBoundary? source stop = some rest ∧
      t.parsers.statement.parse { t.options with matchAll := false } rest = .error e := by
  obtain ⟨hprogram, hstatement⟩ := Parsers.sound h
  obtain ⟨houtline, houtline'⟩ := Parsers.outline_root h
  obtain ⟨s, hmatch, rfl⟩ := Parser.exists_matchAt_of_leftOver hparse
  obtain ⟨rest, hrest, hleaves⟩ := hprogram.leaves hmatch
  rw [houtline] at hleaves
  cases hnext : t.parsers.statement.parse { t.options with matchAll := false } rest with
  | error e => exact ⟨rest, e, hrest, hnext⟩
  | ok s' =>
    obtain ⟨rest', -, hleaves'⟩ := hstatement.leaves (Parser.matchAt_of_parse_ok hnext)
    rw [houtline'] at hleaves'
    have hranked := Parsers.ranked h
    exact absurd hleaves'
      (not_leaves_next (fun hnext => hranked.length_lt hnext rfl) hleaves rest')

/-- Whatever the source and the settings, there is JavaScript or a precise report. Where a program ends
before the source does, the report is about the statement behind it. -/
theorem transform_refusal (s : Settings) (source : List Char) : ∃ t, ofSettings s = .ok t ∧
    ((∃ code, t.transform source = .success code) ∨
      ∃ d, t.transform source = .failure d ∧ Precise source 0 d) ∧
    ∀ stop, t.parsers.program.parse t.options source = .error (.leftOver stop) →
      (∃ rest e, Text.fromBoundary? source stop = some rest ∧
        t.parsers.statement.parse { t.options with matchAll := false } rest = .error e) ∧
      ∃ d, t.transform source = .failure d ∧ Precise source stop d := by
  obtain ⟨parsers, h⟩ := Parsers.exists_compiled
  refine ⟨_, ofSettings_eq h s, ?_⟩
  generalize ht : (⟨parsers, optionsOf s⟩ : Transpiler) = t
  obtain rfl : parsers = t.parsers := congrArg Transpiler.parsers ht
  clear ht
  obtain ⟨hprogram, hstatement⟩ := Parsers.sound h
  have hleftOver {stop : Nat}
      (hparse : t.parsers.program.parse t.options source = .error (.leftOver stop)) :
      ∃ d, t.transform source = .failure d ∧ Precise source stop d := by
    obtain ⟨rest, e, hrest, he⟩ := exists_error_of_leftOver h hparse
    have hnot (stop : Nat) : e ≠ .leftOver stop := by
      rintro rfl
      exact Parser.parse_ne_leftOver rfl rest stop he
    have hexplain : t.explain source stop = (e.shift stop).diagnostic source := by
      rw [explain, hrest]
      dsimp only
      rw [he]
    refine ⟨_, by rw [transform, hparse], ?_⟩
    rw [hexplain]
    exact precise_diagnostic hrest (hstatement.grounded he hnot) (located_of_parse he hnot)
  refine ⟨?_, fun stop hparse => ⟨exists_error_of_leftOver h hparse, hleftOver hparse⟩⟩
  cases hparse : t.parsers.program.parse t.options source with
  | ok success => exact .inl ⟨_, by rw [transform, hparse]⟩
  | error e =>
    by_cases hnot : ∀ stop, e ≠ .leftOver stop
    · have hprecise := precise_diagnostic (Text.fromBoundary?_zero source)
        (hprogram.grounded hparse hnot) (located_of_parse hparse hnot)
      rw [e.shift_zero] at hprecise
      refine .inr ⟨_, ?_, hprecise⟩
      rw [transform, hparse]
      cases e with
      | leftOver stop => exact absurd rfl (hnot stop)
      | _ => rfl
    · simp only [not_forall, not_not] at hnot
      obtain ⟨stop, rfl⟩ := hnot
      obtain ⟨d, hd, hkind, ⟨pos, -, hpos⟩, hexpected⟩ := hleftOver hparse
      exact .inr ⟨d, hd, hkind, ⟨pos, Nat.zero_le pos, hpos⟩, hexpected⟩

/-- A closing brace alone is no program, but an empty one stands in front of it. -/
theorem parse_brace : Parsers.compiled.toOption.any (fun parsers =>
    match parsers.program.parse (optionsOf {}) ['}'] with
    | .error (.leftOver stop) => stop == 0
    | _ => false) = true := by
  rw [Parsers.compiled_eq]
  decide +kernel

theorem transform_refusal_brace : ∃ t, ofSettings {} = .ok t ∧
    t.parsers.program.parse t.options ['}'] = .error (.leftOver 0) ∧
    ∃ d, t.transform ['}'] = .failure d ∧ Precise ['}'] 0 d := by
  obtain ⟨t, ht, -, hleftOver⟩ := transform_refusal {} ['}']
  obtain ⟨parsers, hparsers, rfl⟩ := eq_of_ofSettings ht
  have hbrace := parse_brace
  rw [hparsers, Except.toOption, Option.any_some] at hbrace
  have hparse : parsers.program.parse (optionsOf {}) ['}'] = .error (.leftOver 0) := by
    split at hbrace
    · next stop hstop => rw [hstop, beq_iff_eq.mp hbrace]
    · cases hbrace
  exact ⟨_, ht, hparse, (hleftOver 0 hparse).2⟩

end Transpiler

end Typestrip.TypeScript
