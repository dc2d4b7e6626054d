import Typestrip.Proofs.Grammar.Outlines
import Typestrip.Proofs.TypeScript.Nodes

/-!
# Outlines of the grammar

What the entry points of the grammar match, written down and compared with the compiled parsers.
-/

namespace Typestrip.TypeScript

open Grammar

/-- Any number of blanks. -/
def blanksOutline : Outline := .pattern (.anchored (.star true (.chars .space)))

/-- Blanks and a statement. -/
def nextOutline : Outline := .sequence [blanksOutline, .kept (.rule (some 9))]

/-- Statements with blanks around them. -/
def programOutline : Outline := .sequence [.kept (.repetition nextOutline), blanksOutline]

theorem outlines_compiled : Parsers.compiled.toOption.any (fun parsers =>
    parsers.program.root.outline.same programOutline &&
      parsers.statement.root.outline.same nextOutline) = true := by
  rw [Parsers.compiled_eq]
  decide +kernel

theorem Parsers.outline_root {parsers : Parsers} (h : Parsers.compiled = .ok parsers) :
    parsers.program.root.outline = programOutline ∧
      parsers.statement.root.outline = nextOutline := by
  have hcheck := outlines_compiled
  rw [h] at hcheck
  obtain ⟨hprogram, hstatement⟩ := Bool.and_eq_true_iff.mp hcheck
  exact ⟨Outline.eq_of_same hprogram, Outline.eq_of_same hstatement⟩

theorem course_blanks_iff {bodies : Nat → Option Outline} {place : List Char → Prop}
    {cs : List Char} {r : Option (List Char)} : Course bodies place blanksOutline cs r ↔
      r = some (cs.dropWhile Unicode.isSpace) := by
  rw [blanksOutline, course_anchored_iff, Regex.Expr.rest?_run]
  rfl

end Typestrip.TypeScript
