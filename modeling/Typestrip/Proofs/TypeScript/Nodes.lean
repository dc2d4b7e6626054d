import Typestrip.Proofs.TypeScript.Setup

/-!
# The nodes of the grammar

The grammar of the transpiler is built from nodes that were built before: `Build.Uses` says this of a
course of building, with one lemma for each of the steps that there are, and the functions that build
the parts of the grammar are such courses. So the nodes of the two parsers, which have their rules in
common, are told apart by their identities (`Parsers.exists_family`), which is what remembering their
matches relies on.
-/

namespace Typestrip.Grammar

/-- Building that uses no nodes but those in `held`: if all of these are known, then so is what it
makes. -/
def Build.Uses {α : Type} (held : List Node) (m : Build α) (made : α → List Node) : Prop :=
  ∀ known : Node → Prop, (∀ n ∈ held, known n) →
    Safe m known fun known' x => ∀ n ∈ made x, known' n

namespace Build.Uses

variable {α β : Type} {held : List Node} {made : α → List Node} {made' : β → List Node}

/-! ## Courses of building -/

theorem pure {x : α} (h : ∀ n ∈ made x, n ∈ held) : Uses held (pure x) made :=
  fun _ hheld => .pure fun n hn => hheld n (h n hn)

theorem bind {m : Build α} {f : α → Build β} (hm : Uses held m made)
    (hf : ∀ x, Uses (made x ++ held) (f x) made') : Uses held (m >>= f) made' := fun known hheld =>
  .bind (hm known hheld) fun x hle hx =>
    hf x _ (List.forall_mem_append.mpr ⟨hx, fun n hn => hle n (hheld n hn)⟩)

/-- More nodes may be at hand. -/
theorem weaken {held' : List Node} {m : Build α} (h : Uses held m made) (hle : held ⊆ held') :
    Uses held' m made := fun known hheld => h known fun n hn => hheld n (hle hn)

/-- What a course of building leaves behind, run from a builder. -/
theorem run {m : Build α} (h : Uses held m made) {known : Node → Prop}
    (hheld : ∀ n ∈ held, known n) {b : Builder} (hb : b.Stocked known) :
    ∃ known', (∀ n, known n → known' n) ∧ (m.run b).2.Stocked known' ∧
      ∀ n ∈ made (m.run b).1, known' n :=
  h known hheld b hb

/-! ## Steps of building -/

theorem of_node {m : Build Node}
    (h : ∀ {known : Node → Prop}, (∀ n ∈ held, known n) → Safe m known fun known' n => known' n) :
    Uses held m fun n => [n] := by
  intro known hheld b hb
  obtain ⟨known', hle, hb', hn⟩ := h hheld b hb
  exact ⟨known', hle, hb', List.forall_mem_singleton.mpr hn⟩

theorem literal (text : String) : Uses held (literal text) fun n => [n] :=
  of_node fun _ => safe_literal text

theorem regex (source : String) : Uses held (regex source) fun n => [n] :=
  of_node fun _ => safe_new (fun _ => rfl) fun _ _ hc => by cases hc

theorem reference (name : String) : Uses held (reference name) fun n => [n] :=
  of_node fun _ => safe_new (fun _ => rfl) fun _ _ hc => by cases hc

theorem sequence {children : List Node} (h : ∀ n ∈ children, n ∈ held) :
    Uses held (sequence children) fun n => [n] :=
  of_node fun hheld => safe_sequence fun n hn => hheld n (h n hn)

theorem choice {alternatives : List Node} (h : ∀ n ∈ alternatives, n ∈ held) :
    Uses held (choice alternatives) fun n => [n] := by
  refine of_node fun hheld => ?_
  exact safe_new (fun _ => rfl) fun _ c (hc : c ∈ alternatives) => hheld c (h c hc)

theorem repetition {child : Node} (h : child ∈ held) : Uses held (repetition child) fun n => [n] :=
  of_node fun hheld => safe_new (fun _ => rfl) fun _ c hc => hheld c (List.mem_singleton.mp hc ▸ h)

theorem derive {n : Node} (h : n ∈ held) (change : Attributes → Attributes) :
    Uses held (derive n change) fun n => [n] :=
  of_node fun hheld => safe_derive (hheld n h) change

theorem nullable {n : Node} (h : n ∈ held) : Uses held (nullable n) fun n => [n] := derive h _

theorem capture {n : Node} (h : n ∈ held) (name : String) :
    Uses held (capture name n) fun n => [n] :=
  derive h _

theorem map {n : Node} (h : n ∈ held) (f : Value → Value) : Uses held (map f n) fun n => [n] :=
  derive h _

theorem declare (name : String) : Uses held (declare name) fun _ => [] := by
  intro known hheld b hb
  refine ⟨known, fun _ hn => hn, ⟨hb.stock, hb.literals, fun n hn => ?_⟩, by simp⟩
  exact hb.bodies n (bodies_declare _ name ▸ hn)

theorem define {body : Node} (h : body ∈ held) (name : String) :
    Uses held (define name body) fun _ => [] := by
  intro known hheld b hb
  refine ⟨known, fun _ hn => hn, ⟨hb.stock, hb.literals, fun n hn => ?_⟩, by simp⟩
  rcases mem_bodies_define hn with rfl | hn
  · exact hheld _ h
  · exact hb.bodies n hn

theorem symbol {body : Build Node} (h : Uses held body fun n => [n]) (name : String) :
    Uses held (symbol name body) fun n => [n] :=
  .bind (.declare name) fun _ => .bind h fun _ =>
    .bind (.define List.mem_cons_self name) fun _ => .reference name

end Build.Uses

end Typestrip.Grammar

namespace Typestrip.TypeScript

open Grammar Build

/-! ## The parts of the grammar -/

/-- The nodes of the common terminals. -/
def Words.nodes (w : Words) : List Node :=
  [w.blanks, w.someBlanks, w.identifier, w.string, w.comment, w.terminator]

/-- The nodes of the groups. -/
def Groups.nodes (g : Groups) : List Node := [g.parens, g.braces, g.any, g.angles]

/-- The nodes of the types. -/
def Types.nodes (t : Types) : List Node := [t.any, t.arrowReturn, t.annotation]

theorem uses_words : Uses [] words Words.nodes :=
  .bind (.regex _) fun _ => .bind (.regex _) fun _ => .bind (.regex _) fun _ =>
    .bind (.regex _) fun _ => .bind (.regex _) fun _ => .bind (.regex _) fun _ =>
    .bind (.nullable (by simp)) fun _ => .pure (by simp [Words.nodes])

section

variable (w : Words) (g : Groups) (t : Types)

theorem uses_delimited (chunk : Node) (name opening closing : String) :
    Uses [w.string, chunk] (delimited w chunk name opening closing) fun n => [n] :=
  .symbol (.bind (.literal _) fun _ => .bind (.reference _) fun _ =>
    .bind (.choice (by simp)) fun _ => .bind (.repetition (by simp)) fun _ =>
    .bind (.literal _) fun _ => .sequence (by simp)) name

theorem uses_groups : Uses w.nodes (groups w) Groups.nodes :=
  .bind (.regex _) fun chunk =>
    .bind ((uses_delimited w chunk _ _ _).weaken (by simp [Words.nodes])) fun _ =>
    .bind ((uses_delimited w chunk _ _ _).weaken (by simp [Words.nodes])) fun _ =>
    .bind ((uses_delimited w chunk _ _ _).weaken (by simp [Words.nodes])) fun _ =>
    .bind (.symbol (.choice (by simp)) _) fun _ =>
    .bind (.symbol (.bind (.literal _) fun _ => .bind (.regex _) fun _ =>
      .bind (.reference _) fun _ => .bind (.choice (by simp)) fun _ =>
      .bind (.repetition (by simp)) fun _ => .bind (.literal _) fun _ =>
      .sequence (by simp)) _) fun _ =>
    .pure (by simp [Groups.nodes])

theorem uses_union (name : String) (term : Node) :
    Uses [w.blanks, term] (union w name term) fun n => [n] :=
  .symbol (.bind (.regex _) fun _ => .bind (.regex _) fun _ => .bind (.sequence (by simp)) fun _ =>
    .bind (.repetition (by simp)) fun _ => .sequence (by simp)) name

theorem uses_types : Uses (w.nodes ++ g.nodes) (types w g) Types.nodes :=
  .bind (.symbol (.bind (.regex _) fun _ => .bind (.regex _) fun _ =>
      .bind (.sequence (by simp [Words.nodes, Groups.nodes])) fun _ =>
      .bind (.nullable (by simp)) fun _ => .bind (.sequence (by simp)) fun _ =>
      .choice (by simp [Words.nodes, Groups.nodes])) _) fun _ =>
    .bind (.regex _) fun _ => .bind (.literal _) fun _ => .bind (.reference _) fun _ =>
    .bind (.sequence (by simp [Words.nodes])) fun _ => .bind (.nullable (by simp)) fun _ =>
    .bind (.sequence (by simp)) fun _ =>
    .bind ((uses_union w _ _).weaken (by simp [Words.nodes])) fun _ =>
    .bind (.sequence (by simp)) fun _ =>
    .bind ((uses_union w _ _).weaken (by simp [Words.nodes])) fun _ => .bind (.literal _) fun _ =>
    .bind (.sequence (by simp [Words.nodes])) fun _ => .bind (.nullable (by simp)) fun _ =>
    .pure (by simp [Types.nodes])

theorem uses_verbatimRun (pieces : List Node) : Uses pieces (verbatimRun pieces) fun n => [n] :=
  .bind (.choice (by simp)) fun _ => .bind (.capture (by simp) _) fun _ =>
    .bind (.repetition (by simp)) fun _ => .bind (.capture (by simp) _) fun _ =>
    .bind (.sequence (by simp)) fun _ => .map (by simp) _

theorem uses_parameters :
    Uses (w.nodes ++ g.nodes ++ t.nodes) (parameters w g t) fun n => [n] :=
  .bind (.regex _) fun _ =>
    .bind ((uses_verbatimRun _).weaken (by simp [Words.nodes, Groups.nodes])) fun _ =>
    .bind (.regex _) fun _ => .bind (.choice (by simp [Groups.nodes])) fun _ =>
    .bind (.regex _) fun _ => .bind (.nullable (by simp)) fun _ => .bind (.literal _) fun _ =>
    .bind (.capture (by simp) _) fun _ => .bind (.sequence (by simp [Words.nodes])) fun _ =>
    .bind (.capture (by simp) _) fun _ => .bind (.nullable (by simp)) fun _ =>
    .bind (.capture (by simp) _) fun _ => .bind (.sequence (by simp [Types.nodes])) fun _ =>
    .bind (.map (by simp) _) fun _ => .bind (.literal _) fun _ =>
    .bind (.capture (by simp) _) fun _ => .bind (.sequence (by simp [Words.nodes])) fun _ =>
    .bind (.map (by simp) _) fun _ => .bind (.literal _) fun _ =>
    .bind (.sequence (by simp [Words.nodes])) fun _ => .bind (.nullable (by simp)) fun _ =>
    .bind (.capture (by simp) _) fun _ => .bind (.repetition (by simp)) fun _ =>
    .bind (.capture (by simp) _) fun _ => .bind (.sequence (by simp)) fun _ =>
    .bind (.map (by simp) _) fun _ => .nullable (by simp)

theorem uses_joined (lead rest : Node) : Uses [lead, rest] (joined lead rest) fun n => [n] :=
  .bind (.map (by simp) _) fun _ => .bind (.capture (by simp) _) fun _ =>
    .bind (.capture (by simp) _) fun _ => .bind (.sequence (by simp)) fun _ => .map (by simp) _

theorem uses_arrowHead (params : Node) :
    Uses (params :: w.nodes ++ t.nodes) (arrowHead w t params) fun n => [n] :=
  .bind (.literal _) fun _ => .bind (.sequence (by simp [Words.nodes, Types.nodes])) fun _ =>
    .bind (.nullable (by simp)) fun _ => .bind (.literal _) fun _ =>
    .bind (.capture (by simp) _) fun _ => .bind (.literal _) fun _ => .bind (.literal _) fun _ =>
    .bind (.sequence (by simp [Words.nodes])) fun _ => .map (by simp) _

theorem uses_expressions (arrow : Node) :
    Uses (arrow :: w.nodes ++ g.nodes) (expressions w g arrow) fun n => [n] :=
  .bind (.regex _) fun _ => .bind (.regex _) fun _ => .bind (.regex _) fun _ =>
    .bind (.choice (by simp [Words.nodes, Groups.nodes])) fun _ => .bind (.regex _) fun _ =>
    .bind ((uses_joined _ _).weaken (by simp)) fun _ => .bind (.regex _) fun _ =>
    .bind ((uses_joined _ _).weaken (by simp)) fun _ => .bind (.regex _) fun _ =>
    .bind ((uses_joined _ _).weaken (by simp)) fun _ =>
    .bind ((uses_verbatimRun _).weaken (by simp [Words.nodes, Groups.nodes])) fun _ =>
    .map (by simp) _

theorem uses_erasedDeclarations :
    Uses (w.nodes ++ g.nodes ++ t.nodes) (erasedDeclarations w g t) id :=
  .bind (.regex _) fun _ => .bind (.nullable (by simp [Groups.nodes])) fun _ =>
    .bind (.regex _) fun _ => .bind (.nullable (by simp)) fun _ =>
    .bind (.sequence (by simp [Words.nodes, Groups.nodes])) fun _ => .bind (.map (by simp) _) fun _ =>
    .bind (.regex _) fun _ => .bind (.nullable (by simp [Groups.nodes])) fun _ =>
    .bind (.literal _) fun _ => .bind (.sequence (by simp [Words.nodes, Types.nodes])) fun _ =>
    .bind (.map (by simp) _) fun _ => .bind (.regex _) fun _ =>
    .bind (.sequence (by simp [Words.nodes])) fun _ => .bind (.map (by simp) _) fun _ =>
    .bind (.regex _) fun _ => .bind (.nullable (by simp [Groups.nodes])) fun _ =>
    .bind (.sequence (by simp [Words.nodes])) fun _ => .bind (.map (by simp) _) fun _ =>
    .pure (by simp)

theorem uses_functionDeclaration (params block : Node) :
    Uses (params :: block :: w.nodes ++ g.nodes ++ t.nodes)
      (functionDeclaration w g t params block) fun n => [n] :=
  .bind (.regex _) fun _ => .bind (.regex _) fun _ => .bind (.nullable (by simp)) fun _ =>
    .bind (.capture (by simp) _) fun _ => .bind (.capture (by simp) _) fun _ =>
    .bind (.nullable (by simp [Words.nodes])) fun _ => .bind (.capture (by simp) _) fun _ =>
    .bind (.nullable (by simp [Groups.nodes])) fun _ => .bind (.literal _) fun _ =>
    .bind (.capture (by simp) _) fun _ => .bind (.literal _) fun _ =>
    .bind (.capture (by simp) _) fun _ =>
    .bind (.sequence (by simp [Words.nodes, Types.nodes])) fun _ => .map (by simp) _

theorem uses_conditional : Uses (w.nodes ++ g.nodes) (conditional w g) fun n => [n] :=
  .bind (.regex _) fun _ => .bind (.reference _) fun _ => .bind (.capture (by simp) _) fun _ =>
    .bind (.sequence (by simp [Words.nodes])) fun _ => .bind (.regex _) fun _ =>
    .bind (.capture (by simp [Groups.nodes]) _) fun _ => .bind (.reference _) fun _ =>
    .bind (.capture (by simp) _) fun _ => .bind (.nullable (by simp)) fun _ =>
    .bind (.capture (by simp) _) fun _ => .bind (.sequence (by simp [Words.nodes])) fun _ =>
    .map (by simp) _

theorem uses_loop : Uses (w.nodes ++ g.nodes) (loop w g) fun n => [n] :=
  .bind (.regex _) fun _ => .bind (.capture (by simp) _) fun _ =>
    .bind (.capture (by simp [Groups.nodes]) _) fun _ => .bind (.reference _) fun _ =>
    .bind (.capture (by simp) _) fun _ => .bind (.sequence (by simp [Words.nodes])) fun _ =>
    .map (by simp) _

theorem uses_variableDeclaration (expression : Node) :
    Uses (expression :: w.nodes ++ g.nodes ++ t.nodes)
      (variableDeclaration w g t expression) fun n => [n] :=
  .bind (.regex _) fun _ => .bind (.choice (by simp [Words.nodes, Groups.nodes])) fun _ =>
    .bind (.literal _) fun _ => .bind (.capture (by simp) _) fun _ =>
    .bind (.sequence (by simp [Words.nodes])) fun _ => .bind (.capture (by simp) _) fun _ =>
    .bind (.capture (by simp) _) fun _ => .bind (.regex _) fun _ =>
    .bind (.nullable (by simp)) fun _ => .bind (.nullable (by simp)) fun _ =>
    .bind (.capture (by simp) _) fun _ =>
    .bind (.sequence (by simp [Words.nodes, Types.nodes])) fun _ => .map (by simp) _

theorem uses_returnStatement (expression : Node) :
    Uses (expression :: w.nodes) (returnStatement w expression) fun n => [n] :=
  .bind (.regex _) fun _ => .bind (.capture (by simp) _) fun _ =>
    .bind (.sequence (by simp)) fun _ => .bind (.regex _) fun _ =>
    .bind (.nullable (by simp)) fun _ => .bind (.capture (by simp) _) fun _ =>
    .bind (.sequence (by simp [Words.nodes])) fun _ => .map (by simp) _

end

/-- The grammar is built from nothing. -/
theorem uses_grammar : Uses [] grammar fun entries => [entries.program, entries.statement] :=
  .bind uses_words fun w => .bind ((uses_groups w).weaken (by simp [Words.nodes])) fun g =>
    .bind ((uses_types w g).weaken (by simp [Words.nodes, Groups.nodes])) fun t =>
    .bind ((uses_parameters w g t).weaken
      (by simp [Words.nodes, Groups.nodes, Types.nodes])) fun params =>
    .bind ((uses_arrowHead w t params).weaken
      (by simp [Words.nodes, Groups.nodes, Types.nodes])) fun arrow =>
    .bind ((uses_expressions w g arrow).weaken
      (by simp [Words.nodes, Groups.nodes, Types.nodes])) fun expression =>
    .bind (.reference _) fun _ => .bind (.capture (by simp) _) fun _ =>
    .bind (.sequence (by simp [Words.nodes])) fun _ => .bind (.map (by simp) _) fun _ =>
    .bind (.repetition (by simp)) fun _ =>
    .bind (.symbol (.bind (.literal _) fun _ => .bind (.capture (by simp) _) fun _ =>
      .bind (.literal _) fun _ => .bind (.sequence (by simp [Words.nodes])) fun _ =>
      .map (by simp) _) _) fun block =>
    .bind ((uses_erasedDeclarations w g t).weaken
      (by simp [Words.nodes, Groups.nodes, Types.nodes])) fun erased =>
    .bind ((uses_functionDeclaration w g t params block).weaken
      (by simp [Words.nodes, Groups.nodes, Types.nodes])) fun _ =>
    .bind ((uses_conditional w g).weaken (by simp [Words.nodes, Groups.nodes, Types.nodes])) fun _ =>
    .bind ((uses_loop w g).weaken (by simp [Words.nodes, Groups.nodes, Types.nodes])) fun _ =>
    .bind ((uses_variableDeclaration w g t expression).weaken
      (by simp [Words.nodes, Groups.nodes, Types.nodes])) fun _ =>
    .bind ((uses_returnStatement w expression).weaken
      (by simp [Words.nodes, Groups.nodes, Types.nodes])) fun _ =>
    .bind (.capture (by simp) _) fun _ => .bind (.sequence (by simp [Words.nodes])) fun _ =>
    .bind (.map (by simp) _) fun _ =>
    .bind (.symbol (.bind (.literal _) fun _ => .bind (.map (by simp) _) fun _ =>
      .choice (by simp +contextual [Words.nodes, or_imp])) _) fun _ =>
    .bind (.capture (by simp) _) fun _ => .bind (.sequence (by simp [Words.nodes])) fun _ =>
    .bind (.map (by simp) _) fun _ => .bind (.capture (by simp) _) fun _ =>
    .bind (.sequence (by simp [Words.nodes])) fun _ => .pure (by simp)


/-! ## The parsers -/

/-- The parsers are the compiled entry points with the rules of one builder. -/
theorem Parsers.eq_of_compiled {parsers : Parsers} (h : Parsers.compiled = .ok parsers) :
    Parser.compile (grammar.run {}).2.registry (grammar.run {}).1.program = .ok parsers.program ∧
      Parser.compile (grammar.run {}).2.registry (grammar.run {}).1.statement =
        .ok parsers.statement := by
  unfold Parsers.compiled Parsers.compile at h
  have hcompile (root : Node) : (grammar.run {}).2.compile root =
      Parser.compile (grammar.run {}).2.registry root := by
    rw [Builder.compile, rejected_grammar]
  rcases hrun : grammar.run {} with ⟨entries, builder⟩
  rw [hrun] at h hcompile
  dsimp only at h hcompile
  rw [hcompile, hcompile] at h
  obtain ⟨program, hprogram, h⟩ := exists_of_bind_eq_ok h
  obtain ⟨statement, hstatement, h⟩ := exists_of_bind_eq_ok h
  obtain rfl := Except.ok.inj h
  exact ⟨hprogram, hstatement⟩

theorem Parsers.rules_statement {parsers : Parsers} (h : Parsers.compiled = .ok parsers) :
    parsers.statement.rules = parsers.program.rules := by
  obtain ⟨hprogram, hstatement⟩ := Parsers.eq_of_compiled h
  obtain ⟨-, bodies, hbodies, hrules⟩ := Parser.compile_eq_ok hprogram
  obtain ⟨-, bodies', hbodies', hrules'⟩ := Parser.compile_eq_ok hstatement
  rw [hrules, hrules', Except.ok.inj (hbodies.symm.trans hbodies')]

/-- The nodes of both parsers: identities are not shared among them. -/
theorem Parsers.exists_family {parsers : Parsers} (h : Parsers.compiled = .ok parsers) :
    ∃ member, Family parsers.program.rules member ∧ Identified member ∧
      member parsers.program.root ∧ member parsers.statement.root := by
  obtain ⟨hprogram, hstatement⟩ := Parsers.eq_of_compiled h
  have hempty : Builder.Stocked {} fun _ => False :=
    ⟨⟨fun h => h.elim, fun h => h.elim, fun h => h.elim⟩, by simp, by simp [Registry.bodies]⟩
  obtain ⟨known, -, hstocked, hentries⟩ := uses_grammar.run (by simp) hempty
  obtain ⟨hp, hs⟩ := List.forall_mem_cons.mp hentries
  exact ⟨compiledFrom _ known, hstocked.stock.family hprogram hstocked.bodies,
    hstocked.stock.identified _, ⟨_, hp, (Parser.compile_eq_ok hprogram).1⟩,
    ⟨_, hs _ List.mem_cons_self, (Parser.compile_eq_ok hstatement).1⟩⟩

end Typestrip.TypeScript
