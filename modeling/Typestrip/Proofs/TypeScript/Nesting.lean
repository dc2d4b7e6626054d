import Typestrip.Proofs.Grammar.Ranking
import Typestrip.Proofs.Grammar.Totality
import Typestrip.Proofs.TypeScript.Memoization

/-!
# How deeply the rules of the grammar nest

The rules of the grammar have four ranks, so that no more than four of them are active at one position
of a source, and a nesting limit of four for each position is never reached
(`Transpiler.transform_nesting`).
-/

namespace Typestrip.TypeScript

open Grammar

/-- The ranks of the rules by their slots: groups in parentheses, brackets and braces, groups, angle
brackets, primary types, types, return types in front of arrows, blocks, statements. -/
def ranks : List Nat := [1, 1, 1, 2, 1, 3, 4, 4, 1, 3]

/-- The rank of the rule in a slot. -/
def rank (slot : Nat) : Nat := ranks.getD slot 0

theorem rank_le (slot : Nat) : rank slot ≤ 4 := by
  have hall : ∀ r ∈ ranks, r ≤ 4 := by decide
  rw [rank, List.getD_eq_getElem?_getD]
  cases h : ranks[slot]? with
  | none => exact Nat.zero_le _
  | some r => exact hall r (List.mem_of_getElem? h)

/-- The ranks are in order, and no rule matches nothing. -/
theorem rankedBy_compiled : Parsers.compiled.toOption.any (fun parsers =>
    rankedBy parsers.program.rules (fun _ => true) rank) = true := by
  rw [Parsers.compiled_eq]
  decide +kernel

theorem Parsers.ranked {parsers : Parsers} (h : Parsers.compiled = .ok parsers) :
    Ranked parsers.program.rules (fun _ => true) rank 4 := by
  refine ranked_of_rankedBy ?_ rank_le
  have hcheck := rankedBy_compiled
  rw [h] at hcheck
  exact hcheck

theorem foundedBy_compiled : Parsers.compiled.toOption.any (fun parsers =>
    foundedBy parsers.program.rules 10 rank) = true := by
  rw [Parsers.compiled_eq]
  decide +kernel

/-- Every rule of the grammar has an outcome on every text. -/
theorem Parsers.founded {parsers : Parsers} (h : Parsers.compiled = .ok parsers) :
    Founded (outlineOf parsers.program.rules) (fun slot => decide (slot < 10)) rank := by
  have hcheck := foundedBy_compiled
  rw [h] at hcheck
  exact founded_of_foundedBy hcheck

/-- The rest of a text is no longer than the text. -/
theorem width_le_of_fromBoundary? {input rest : List Char} {pos : Nat}
    (h : Text.fromBoundary? input pos = some rest) : Text.width rest ≤ Text.width input := by
  obtain ⟨front, rfl, -⟩ := Text.fromBoundary?_eq_some_iff.mp h
  rw [Text.width_append]
  exact Nat.le_add_left _ _

theorem Output.not_tooDeep_failure {e : ParseError} (h : e.Shallow) (source : List Char) :
    ¬ (Output.failure (e.diagnostic source)).TooDeep := by
  rintro ⟨d, limit, hd, hmessage⟩
  obtain rfl := Option.some.inj hd
  exact h.message_ne source limit hmessage

namespace Transpiler

/-- Where neither the program nor what is left over behind it fails by depth, no nesting is
reported. -/
theorem not_tooDeep_of_settled {t : Transpiler} {source : List Char}
    (hprogram : Outcome.Settled (t.parsers.program.parse t.options source))
    (hstatement : ∀ pos rest, Text.fromBoundary? source pos = some rest →
      Outcome.Settled (t.parsers.statement.parse { t.options with matchAll := false } rest)) :
    ¬ (t.transform source).TooDeep := by
  rw [transform]
  split
  · exact Output.not_tooDeep rfl
  · next pos hparse =>
    have hleftOver := Parser.parse_shallow hparse id
    rw [explain]
    split
    · exact Output.not_tooDeep_failure hleftOver source
    · next rest hrest =>
      split
      · next e he =>
        have hshallow := Parser.parse_shallow he (hstatement pos rest hrest e he)
        exact Output.not_tooDeep_failure (hshallow.shift pos) source
      · exact Output.not_tooDeep_failure hleftOver source
  · next e _ he =>
    exact Output.not_tooDeep_failure (Parser.parse_shallow he (hprogram e he)) source

/-- A source is not refused for its nesting where the limit allows for four rules at each of its
positions, the end included, because no more than four of the rules that are active at any moment of
a parse have been entered at the same position. -/
theorem transform_nesting (s : Settings) (source : List Char) :
    ∃ t, ofSettings s = .ok t ∧
      (4 * (Text.width source + 1) ≤ s.maxDepth → ¬ (t.transform source).TooDeep) ∧
      ∀ p, p = t.parsers.program ∨ p = t.parsers.statement → ∀ options input frames,
        List.IsChain (Calls p.rules options.maxDepth) (p.start options input :: frames) →
          ∀ q, entriesAt q (p.start options input :: frames) ≤ 4 := by
  obtain ⟨parsers, hparsers⟩ := Parsers.exists_compiled
  obtain ⟨member, F, hid, hprogram, hstatement⟩ := Parsers.exists_family hparsers
  have hranked := Parsers.ranked hparsers
  have hrules := Parsers.rules_statement hparsers
  refine ⟨_, ofSettings_eq hparsers s, fun hlimit => ?_, ?_⟩
  · refine not_tooDeep_of_settled ?_ fun pos rest hrest => ?_
    · exact Parser.parse_not_tooDeep hranked F hid hprogram _ source hlimit
    · refine Parser.parse_not_tooDeep (hrules ▸ hranked) (hrules ▸ F) hid hstatement _ rest ?_
      have := width_le_of_fromBoundary? hrest
      exact Nat.le_trans (Nat.mul_le_mul_left 4 (Nat.succ_le_succ this)) hlimit
  · rintro p (rfl | rfl) options input frames hchain q
    · exact Parser.entriesAt_le hranked F hid hprogram options input hchain q
    · exact Parser.entriesAt_le (hrules ▸ hranked) (hrules ▸ F) hid hstatement options input
        hchain q

theorem transform_nesting_letter : 4 * (Text.width ['a'] + 1) ≤ 8 ∧
    ∃ t, ofSettings { maxDepth := 8 } = .ok t ∧ ¬ (t.transform ['a']).TooDeep := by
  have hlimit : 4 * (Text.width ['a'] + 1) ≤ 8 := by decide
  obtain ⟨t, ht, hnesting, -⟩ := transform_nesting { maxDepth := 8 } ['a']
  exact ⟨hlimit, t, ht, hnesting hlimit⟩

end Transpiler

end Typestrip.TypeScript
