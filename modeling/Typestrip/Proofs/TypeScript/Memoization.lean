import Typestrip.Proofs.Grammar.Diagnostics
import Typestrip.Proofs.Grammar.Nesting
import Typestrip.Proofs.TypeScript.Nodes

/-!
# Transpiling without a memo

Whether matches are remembered shows in what becomes of a source only where the nesting limit is
reached without the memo (`Transpiler.transform_memoize`). There it can show: what is remembered was
found out inside fewer rules than are being matched when it is asked for, so that the limit is not
reached again (`Transpiler.transform_parens`).

So what becomes of a source can be evaluated without a memo (`Parsers.transform_eq_of_plain`).
-/

namespace Typestrip.TypeScript

open Grammar

/-- A source was refused because rules nest too deeply. -/
def Output.TooDeep (o : Output) : Prop :=
  ∃ d limit, o.diagnostic = some d ∧ d.message = nestingMessage limit

theorem Output.tooDeep_of_isTooDeep {e : ParseError} (h : e.IsTooDeep) (source : List Char) :
    (Output.failure (e.diagnostic source)).TooDeep := by
  cases e with
  | tooDeep pos limit => exact ⟨_, limit, rfl, rfl⟩
  | _ => exact h.elim

theorem isTooDeep_shift {e : ParseError} (h : e.IsTooDeep) (offset : Nat) :
    (e.shift offset).IsTooDeep := by
  cases e with
  | tooDeep => trivial
  | _ => exact h.elim

namespace Transpiler

/-- A transpiler is the compiled grammar with the options that the settings ask for. -/
theorem eq_of_ofSettings {s : Settings} {t : Transpiler} (h : ofSettings s = .ok t) :
    ∃ parsers, Parsers.compiled = .ok parsers ∧ t = ⟨parsers, optionsOf s⟩ := by
  obtain ⟨parsers, hparsers, rfl⟩ := exists_of_map_eq_ok h
  exact ⟨parsers, hparsers, rfl⟩

theorem ofSettings_eq {parsers : Parsers} (h : Parsers.compiled = .ok parsers) (s : Settings) :
    ofSettings s = .ok ⟨parsers, optionsOf s⟩ := by
  rw [ofSettings, h]
  rfl

/-- What becomes of a source under a nesting limit is the same with a memo and without one, unless the
source is refused for its nesting without one. -/
theorem transform_plain {parsers : Parsers} (hparsers : Parsers.compiled = .ok parsers)
    (maxDepth : Nat) {source : List Char}
    (h : ¬ ((⟨parsers, ⟨true, false, maxDepth⟩⟩ : Transpiler).transform source).TooDeep) :
    (⟨parsers, ⟨true, true, maxDepth⟩⟩ : Transpiler).transform source =
      (⟨parsers, ⟨true, false, maxDepth⟩⟩ : Transpiler).transform source := by
  obtain ⟨member, F, hid, hprogram, hstatement⟩ := Parsers.exists_family hparsers
  have hrules := Parsers.rules_statement hparsers
  have hwhole := Parser.parse_memo F hid hprogram true maxDepth source
  have hpart := Parser.parse_memo (hrules ▸ F) hid hstatement false maxDepth
  simp only [transform, explain] at h ⊢
  by_cases hset : Outcome.Settled (parsers.program.parse ⟨true, false, maxDepth⟩ source)
  · rw [hwhole hset]
    cases hparse : parsers.program.parse ⟨true, false, maxDepth⟩ source with
    | ok success => rfl
    | error e =>
      cases e with
      | leftOver pos =>
        -- the statement behind the program is parsed once more, which can fail by depth as well
        rw [hparse] at h
        dsimp only at h ⊢
        cases hrest : Text.fromBoundary? source pos with
        | none => rfl
        | some rest =>
          rw [hrest] at h
          dsimp only at h ⊢
          rw [hpart rest]
          intro e he hdeep
          rw [he] at h
          exact h (Output.tooDeep_of_isTooDeep (isTooDeep_shift hdeep pos) source)
      | _ => rfl
  · simp only [Outcome.Settled, not_forall, not_not] at hset
    obtain ⟨e, he, hdeep⟩ := hset
    rw [he] at h
    cases e with
    | tooDeep pos limit => exact absurd (Output.tooDeep_of_isTooDeep hdeep source) h
    | _ => exact hdeep.elim

/-- Remembering matches changes nothing about the output for a source, unless the source is refused
for its nesting when nothing is remembered. -/
theorem transform_memoize {s : Settings} {on off : Transpiler}
    (hon : ofSettings { s with memoize := true } = .ok on)
    (hoff : ofSettings { s with memoize := false } = .ok off) (source : List Char)
    (h : ¬ (off.transform source).TooDeep) : on.transform source = off.transform source := by
  obtain ⟨parsers, hparsers, rfl⟩ := eq_of_ofSettings hon
  obtain ⟨parsers', hparsers', rfl⟩ := eq_of_ofSettings hoff
  obtain rfl := Except.ok.inj (hparsers.symm.trans hparsers')
  exact transform_plain hparsers s.maxDepth h

end Transpiler

/-! ## Evaluating a transpiler -/

/-- A transpiler under the default settings that remembers nothing. The kernel evaluates it faster than
one that does. -/
def Parsers.plain (parsers : Parsers) : Transpiler :=
  ⟨parsers, Transpiler.optionsOf { memoize := false }⟩

theorem Output.not_tooDeep {o : Output} (h : o.diagnostic = none) : ¬ o.TooDeep := by
  rintro ⟨d, limit, hd, -⟩
  cases h.symm.trans hd

section

variable {parsers : Parsers} (hparsers : Parsers.compiled = .ok parsers) {source : List Char}

include hparsers

theorem Parsers.transform_eq_of_plain {code : String}
    (h : parsers.plain.transform source = .success code) :
    (⟨parsers, Transpiler.optionsOf {}⟩ : Transpiler).transform source = .success code := by
  have hdeep : ¬ (parsers.plain.transform source).TooDeep := Output.not_tooDeep (by rw [h]; rfl)
  exact (Transpiler.transform_plain hparsers _ hdeep).trans h

theorem Parsers.not_tooDeep_of_plain
    (h : (parsers.plain.transform source).diagnostic.isNone = true) :
    ¬ ((⟨parsers, Transpiler.optionsOf {}⟩ : Transpiler).transform source).TooDeep := by
  have hdeep := Output.not_tooDeep (Option.isNone_iff_eq_none.mp h)
  have hsame := Transpiler.transform_plain hparsers _ hdeep
  exact fun htooDeep => hdeep (hsame ▸ htooDeep)

end

namespace Transpiler

/-! ## A pair of parentheses -/

/-- What becomes of a pair of parentheses under a nesting limit. -/
def ofParens (parsers : Parsers) (memoize : Bool) (maxDepth : Nat) : Output :=
  (⟨parsers, optionsOf { memoize, maxDepth }⟩ : Transpiler).transform ['(', ')']

theorem ofParens_eq : Parsers.compiled.toOption.any (fun parsers =>
    ofParens parsers true 4 = .success "();\n" &&
      ofParens parsers false 4 = .failure ⟨.syntactic, nestingMessage 4, some ⟨1, 2, 1⟩, []⟩ &&
      ofParens parsers false 5 = .success "();\n") = true := by
  rw [Parsers.compiled_eq]
  decide +kernel

theorem exists_ofParens : ∃ parsers, Parsers.compiled = .ok parsers ∧
    ofParens parsers true 4 = .success "();\n" ∧
    ofParens parsers false 4 = .failure ⟨.syntactic, nestingMessage 4, some ⟨1, 2, 1⟩, []⟩ ∧
    ofParens parsers false 5 = .success "();\n" := by
  have heq := ofParens_eq
  cases hparsers : Parsers.compiled with
  | error e =>
    rw [hparsers] at heq
    cases heq
  | ok parsers =>
    rw [hparsers] at heq
    simp only [Except.toOption, Option.any_some, Bool.and_eq_true, decide_eq_true_eq] at heq
    exact ⟨parsers, rfl, heq.1.1, heq.1.2, heq.2⟩

theorem transform_memoize_parens : ∃ on off : Transpiler,
    ofSettings { memoize := true, maxDepth := 5 } = .ok on ∧
    ofSettings { memoize := false, maxDepth := 5 } = .ok off ∧
    ¬ (off.transform ['(', ')']).TooDeep ∧ on.transform ['(', ')'] = .success "();\n" := by
  obtain ⟨parsers, hparsers, -, -, hfive⟩ := exists_ofParens
  have hoff : ¬ (ofParens parsers false 5).TooDeep := Output.not_tooDeep (by rw [hfive]; rfl)
  have hsame := transform_memoize (s := { maxDepth := 5 }) (ofSettings_eq hparsers _)
    (ofSettings_eq hparsers _) ['(', ')'] hoff
  exact ⟨_, _, ofSettings_eq hparsers _, ofSettings_eq hparsers _, hoff, hsame.trans hfive⟩

/-- The head of an arrow function is tried before a group, and its parameters too may begin with a
group. So where four rules may nest, it is remembered that no group follows the opening parenthesis by
the time that the group around it asks for one inside four rules. -/
theorem transform_parens : ∃ on off : Transpiler,
    ofSettings { memoize := true, maxDepth := 4 } = .ok on ∧
    ofSettings { memoize := false, maxDepth := 4 } = .ok off ∧
    on.transform ['(', ')'] = .success "();\n" ∧
    off.transform ['(', ')'] =
      .failure ⟨.syntactic, nestingMessage 4, some ⟨1, 2, 1⟩, []⟩ := by
  obtain ⟨parsers, hparsers, hon, hoff, -⟩ := exists_ofParens
  exact ⟨_, _, ofSettings_eq hparsers _, ofSettings_eq hparsers _, hon, hoff⟩

end Transpiler

end Typestrip.TypeScript
