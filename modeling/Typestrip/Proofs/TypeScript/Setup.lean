import Typestrip.Proofs.Grammar.Adequacy
import Typestrip.Proofs.Grammar.Bytes
import Typestrip.TypeScript.Transpiler

/-!
# Setting up

A grammar compiles if no rule was given two bodies and every regular expression in it can be read
(`Builder.exists_compile`). The grammar of the transpiler is in order, so a transpiler can be set up
whatever the settings, and its parsers are the same for all of them (`Transpiler.exists_ofSettings`).
Checks of the compiled grammar are evaluated on `Parsers.compiledFromBytes`, which is the same.
-/

namespace Typestrip.Grammar

/-! ## Regular expressions in a grammar -/

/-- The regular expressions in the rules of a builder. -/
def Builder.patterns (b : Builder) : List String := b.registry.bodies.flatMap Node.patterns

/-- A grammar compiles if no rule was given two bodies and every regular expression can be read. -/
theorem Builder.exists_compile {b : Builder} (root : Node) (hrejected : b.rejected = [])
    (hreadable : ∀ source ∈ b.patterns ++ root.patterns,
      Regex.Expr.ofSource? (anchoredSource source) ≠ none) :
    ∃ p, b.compile root = .ok p := by
  have hcompile : b.compile root = Parser.compile b.registry root := by
    rw [Builder.compile, hrejected]
  rw [hcompile]
  cases h : Parser.compile b.registry root with
  | ok p => exact ⟨p, rfl⟩
  | error e =>
    obtain ⟨before, source, after, hsplit, -, hrejected, -⟩ :=
      (Parser.judged_compile b.registry root).eq_error_iff.mp h
    have hmem : source ∈ b.registry.patterns root :=
      hsplit ▸ List.mem_append_right _ List.mem_cons_self
    rw [Registry.patterns, List.flatMap_append, List.flatMap_singleton] at hmem
    exact absurd hrejected (hreadable source hmem)

end Typestrip.Grammar

namespace Typestrip.TypeScript

open Grammar

/-! ## The grammar of the transpiler -/

/-- A regular expression of ASCII characters that can be read. The characters are taken from the bytes,
which the kernel evaluates faster than `String.toList`. -/
def readable (source : String) : Bool :=
  let bytes := source.toUTF8.data.toList
  bytes.all (· < 0x80) &&
    (Regex.Expr.ofSource? (['\\', 'A', '(', '?', ':'] ++
      bytes.map (fun b => Char.ofNat b.toNat) ++ [')'])).isSome

theorem ofSource?_ne_none_of_readable {source : String} (h : readable source = true) :
    Regex.Expr.ofSource? (anchoredSource source) ≠ none := by
  obtain ⟨hascii, hsome⟩ := Bool.and_eq_true_iff.mp h
  have hascii : ∀ b ∈ source.toUTF8.data.toList, b < 0x80 :=
    fun b hb => of_decide_eq_true (List.all_eq_true.mp hascii b hb)
  rw [anchoredSource, Utf8.toList_of_ascii hascii]
  exact Option.isSome_iff_ne_none.mp hsome

/-- No rule of the grammar is given two bodies. -/
theorem rejected_grammar : (grammar.run {}).2.rejected = [] := by
  have hnone : (grammar.run {}).2.rejected.isEmpty = true := by decide +kernel
  exact List.isEmpty_iff.mp hnone

/-- The compiled grammar, with the rules compiled once and characters taken from the bytes. -/
def Parsers.compiledFromBytes : Except GrammarError Parsers :=
  let (entries, builder) := grammar.run {}
  do
    let bodies ← compileBodiesBy Utf8.charsOf builder.registry builder.registry.rules
    return ⟨⟨← entries.program.compileBy Utf8.charsOf builder.registry, bodies.toArray⟩,
      ⟨← entries.statement.compileBy Utf8.charsOf builder.registry, bodies.toArray⟩⟩

theorem Parsers.compiled_eq : Parsers.compiled = Parsers.compiledFromBytes := by
  have hrejected := rejected_grammar
  unfold Parsers.compiled Parsers.compile Parsers.compiledFromBytes
  generalize grammar.run {} = built at hrejected ⊢
  obtain ⟨entries, builder⟩ := built
  exact Builder.compile_eq_by hrejected entries.program entries.statement Parsers.mk

/-- All regular expressions of the grammar can be read. -/
theorem readable_grammar : ((grammar.run {}).2.patterns ++ (grammar.run {}).1.program.patterns ++
    (grammar.run {}).1.statement.patterns).all readable = true := by
  decide +kernel

/-- The grammar compiles. -/
theorem Parsers.exists_compiled : ∃ parsers, Parsers.compiled = .ok parsers := by
  have hreadable := List.all_eq_true.mp readable_grammar
  obtain ⟨program, hprogram⟩ := Builder.exists_compile (grammar.run {}).1.program
    rejected_grammar fun source h =>
      ofSource?_ne_none_of_readable (hreadable source (List.mem_append_left _ h))
  obtain ⟨statement, hstatement⟩ := Builder.exists_compile (grammar.run {}).1.statement
    rejected_grammar fun source h => by
      refine ofSource?_ne_none_of_readable (hreadable source ?_)
      rcases List.mem_append.mp h with h | h
      · exact List.mem_append_left _ (List.mem_append_left _ h)
      · exact List.mem_append_right _ h
  refine ⟨⟨program, statement⟩, ?_⟩
  unfold Parsers.compiled Parsers.compile
  generalize grammar.run {} = built at hprogram hstatement
  obtain ⟨entries, builder⟩ := built
  simp only [hprogram, hstatement]
  rfl

/-- There is a transpiler for all settings. -/
theorem Transpiler.exists_ofSettings :
    ∃ parsers, ∀ s, Transpiler.ofSettings s = .ok ⟨parsers, Transpiler.optionsOf s⟩ := by
  obtain ⟨parsers, h⟩ := Parsers.exists_compiled
  refine ⟨parsers, fun s => ?_⟩
  rw [ofSettings, h]
  rfl

/-- The number of workers is nothing to a transpiler. -/
theorem Transpiler.ofSettings_poolSize (s : Settings) (poolSize : Option Nat) :
    ofSettings { s with poolSize } = ofSettings s := by
  unfold ofSettings
  rfl

end Typestrip.TypeScript
