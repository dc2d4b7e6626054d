import Typestrip.Proofs.Grammar.Compilation

/-!
# Which grammars are accepted

A grammar is refused for its regular expressions alone. `Node.patterns` lists those of a node from left
to right, and `Registry.patterns` those of all bodies by slot and then those of the root, whether or not
anything refers to a rule. Compiling comes to reading that list from the front: it goes through to the
end, or stops at the first source that cannot be read (`Judged`, `Parser.judged_compile`). What was
read before makes no difference (`Parser.compile_refuses`).
-/

namespace Typestrip.Grammar

/-! ## Regular expressions from left to right -/

/-- A regular expression stands somewhere in a node. -/
inductive Node.HasPattern : Node → String → Prop
  | here {a source} : HasPattern (.terminal a (.regex source)) source
  | child {n c source} : c ∈ n.children → HasPattern c source → HasPattern n source

/-- A pattern in a node that cannot be read. -/
def Node.Unreadable (n : Node) (source : String) : Prop :=
  n.HasPattern source ∧ Regex.Expr.ofSource? (anchoredSource source) = none

/-- A source that, tied to the beginning of the text, is no regular expression. -/
def Rejected (source : String) : Prop := Regex.Expr.ofSource? (anchoredSource source) = none

mutual
/-- The regular expressions in a node, depth first and from left to right. -/
def Node.patterns : Node → List String
  | .terminal _ (.literal _) => []
  | .terminal _ (.regex source) => [source]
  | .sequence _ ns => patternsAll ns
  | .choice _ ns => patternsAll ns
  | .repetition _ n => n.patterns
  | .reference _ _ => []

/-- The regular expressions in a list of nodes. -/
def Node.patternsAll : List Node → List String
  | [] => []
  | n :: ns => n.patterns ++ patternsAll ns
end

/-- The regular expressions in all bodies, in the order of their slots, and then those in a root. -/
def Registry.patterns (r : Registry) (root : Node) : List String :=
  (r.bodies ++ [root]).flatMap Node.patterns

theorem Node.mem_patternsAll {n : Node} {source : String} {ns : List Node} (hn : n ∈ ns)
    (h : source ∈ n.patterns) : source ∈ patternsAll ns := by
  induction hn with
  | head => exact List.mem_append_left _ h
  | tail _ _ ih => exact List.mem_append_right _ ih

theorem Node.HasPattern.mem_patterns {n : Node} {source : String} (h : n.HasPattern source) :
    source ∈ n.patterns := by
  induction h with
  | here => exact List.mem_singleton_self _
  | @child n c source hc _ ih =>
    cases n with
    | sequence | choice => exact mem_patternsAll hc ih
    | repetition a n => exact List.mem_singleton.mp hc ▸ ih
    | terminal | reference => cases hc

mutual
theorem Node.hasPattern_of_mem_patterns {source : String} :
    ∀ n : Node, source ∈ n.patterns → n.HasPattern source
  | .terminal a (.literal text), h => by cases h
  | .terminal a (.regex other), h => by
    obtain rfl := List.mem_singleton.mp h
    exact .here
  | .sequence a ns, h | .choice a ns, h => by
    obtain ⟨n, hn, hpattern⟩ := Node.exists_of_mem_patternsAll ns h
    exact .child hn hpattern
  | .repetition a n, h =>
    .child (List.mem_singleton_self n) (Node.hasPattern_of_mem_patterns n h)
  | .reference a name, h => by cases h

theorem Node.exists_of_mem_patternsAll {source : String} :
    ∀ ns : List Node, source ∈ Node.patternsAll ns → ∃ n ∈ ns, n.HasPattern source
  | [], h => by cases h
  | n :: ns, h => by
    rcases List.mem_append.mp h with h | h
    · exact ⟨n, List.mem_cons_self, Node.hasPattern_of_mem_patterns n h⟩
    · obtain ⟨c, hc, hpattern⟩ := Node.exists_of_mem_patternsAll ns h
      exact ⟨c, List.mem_cons_of_mem n hc, hpattern⟩
end

/-- The list of a node has the regular expressions that stand in it. -/
theorem Node.mem_patterns_iff {n : Node} {source : String} :
    source ∈ n.patterns ↔ n.HasPattern source :=
  ⟨Node.hasPattern_of_mem_patterns n, Node.HasPattern.mem_patterns⟩

/-! ## Reading from the front -/

/-- What comes of reading sources from the front: success if all of them can be read, and otherwise
the failure of the first one that cannot. -/
inductive Judged {α : Type} : List String → Except GrammarError α → Prop
  | accepted {sources : List String} {a : α} (h : ∀ s ∈ sources, ¬ Rejected s) :
    Judged sources (.ok a)
  | refused {before : List String} {source : String} {after : List String}
    (hbefore : ∀ s ∈ before, ¬ Rejected s) (hsource : Rejected source) :
    Judged (before ++ source :: after) (.error (.invalidPattern source))

variable {α β : Type} {first rest : List String} {x : Except GrammarError α} {r : Registry}

/-- A failure stops the reading, and the rest is read only after a success. -/
theorem Judged.bind (h : Judged first x) {f : α → Except GrammarError β}
    (hrest : ∀ a, Judged rest (f a)) : Judged (first ++ rest) (x >>= f) := by
  cases h with
  | refused hbefore hsource =>
    rw [List.append_assoc]
    exact .refused hbefore hsource
  | @accepted _ a hfirst =>
    have hnext := hrest a
    show Judged (first ++ rest) (f a)
    -- a failure of the rest comes behind all of the first part
    generalize f a = y at hnext
    cases hnext with
    | accepted h => exact .accepted (List.forall_mem_append.mpr ⟨hfirst, h⟩)
    | refused hbefore hsource =>
      rw [← List.append_assoc]
      exact .refused (List.forall_mem_append.mpr ⟨hfirst, hbefore⟩) hsource

theorem Judged.map (h : Judged first x) (f : α → β) : Judged first (x.map f) := by
  cases h with
  | accepted h => exact .accepted h
  | refused hbefore hsource => exact .refused hbefore hsource

theorem Judged.pure (a : α) : Judged [] (.ok a : Except GrammarError α) :=
  .accepted (List.forall_mem_nil _)

/-- Only one source of a list is the first that cannot be read. -/
theorem eq_of_first_rejected {before before' after after' : List String} {source source' : String}
    (heq : before ++ source :: after = before' ++ source' :: after')
    (hbefore : ∀ s ∈ before, ¬ Rejected s) (hbefore' : ∀ s ∈ before', ¬ Rejected s)
    (hsource : Rejected source) (hsource' : Rejected source') : source = source' := by
  induction before generalizing before' with
  | nil =>
    cases before' with
    | nil => exact (List.cons.inj heq).1
    | cons s before' =>
      -- the second list goes on where the first one stops
      obtain rfl := (List.cons.inj heq).1
      exact absurd hsource (hbefore' _ List.mem_cons_self)
  | cons s before ih =>
    cases before' with
    | nil =>
      obtain rfl := (List.cons.inj heq).1
      exact absurd hsource' (hbefore _ List.mem_cons_self)
    | cons s' before' =>
      exact ih (List.cons.inj heq).2 (fun t ht => hbefore t (List.mem_cons_of_mem _ ht))
        fun t ht => hbefore' t (List.mem_cons_of_mem _ ht)

/-- The failures that come of reading are those for a first source that cannot be read. -/
theorem Judged.eq_error_iff (h : Judged first x) {e : GrammarError} :
    x = .error e ↔ ∃ before source after, first = before ++ source :: after ∧
      (∀ s ∈ before, ¬ Rejected s) ∧ Rejected source ∧ e = .invalidPattern source := by
  constructor
  · rintro rfl
    cases h with
    | refused hbefore hsource => exact ⟨_, _, _, rfl, hbefore, hsource, rfl⟩
  · rintro ⟨before, source, after, hsplit, hbefore, hsource, rfl⟩
    cases h with
    | accepted h =>
      have hmem : source ∈ first := hsplit ▸ List.mem_append_right _ List.mem_cons_self
      exact absurd hsource (h source hmem)
    | refused hbefore' hsource' =>
      rw [eq_of_first_rejected hsplit hbefore' hbefore hsource' hsource]

/-- Reading fails if and only if some source cannot be read. -/
theorem Judged.exists_error_iff (h : Judged first x) :
    (∃ e, x = .error e) ↔ ∃ source ∈ first, Rejected source := by
  cases h with
  | accepted h =>
    constructor
    · rintro ⟨e, he⟩
      cases he
    · rintro ⟨source, hmem, hsource⟩
      exact absurd hsource (h source hmem)
  | refused hbefore hsource =>
    exact ⟨fun _ => ⟨_, List.mem_append_right _ List.mem_cons_self, hsource⟩, fun _ => ⟨_, rfl⟩⟩

/-! ## Compiling -/

mutual
theorem Node.judged_compile : ∀ n : Node, Judged n.patterns (n.compile r)
  | .terminal a (.literal text) => .pure _
  | .terminal a (.regex source) => by
    rw [patterns, compile]
    split
    · next regex hread =>
      refine .accepted (List.forall_mem_singleton.mpr fun hrejected => ?_)
      cases hread.symm.trans hrejected
    · next hread =>
      show Judged ([] ++ [source]) _
      exact .refused (List.forall_mem_nil _) hread
  | .sequence a ns | .choice a ns => by
    rw [patterns, compile]
    exact (Node.judged_compileAll ns).map _
  | .repetition a n => by
    rw [patterns, compile]
    exact (Node.judged_compile n).map _
  | .reference a name => .pure _

theorem Node.judged_compileAll : ∀ ns : List Node,
    Judged (Node.patternsAll ns) (Node.compileAll r ns)
  | [] => .pure _
  | n :: ns => by
    rw [patternsAll, compileAll]
    refine (Node.judged_compile n).bind fun m => ?_
    exact (Node.judged_compileAll ns).map (m :: ·)
end

theorem judged_compileBodies (rules : List (String × Option Node)) :
    Judged ((rules.filterMap (·.2)).flatMap Node.patterns) (compileBodies r rules) := by
  induction rules with
  | nil => exact .pure _
  | cons rule rules ih =>
    obtain ⟨name, body | body⟩ := rule
    · rw [compileBodies]
      exact ih.map (none :: ·)
    · rw [compileBodies]
      exact (Node.judged_compile body).bind fun m => ih.map (some m :: ·)

/-- Compiling a grammar comes to reading its regular expressions. -/
theorem Parser.judged_compile (r : Registry) (root : Node) :
    Judged (r.patterns root) (Parser.compile r root) := by
  rw [compile_eq, Registry.patterns, List.flatMap_append, List.flatMap_singleton]
  exact (judged_compileBodies r.rules).bind fun bodies =>
    (Node.judged_compile root).map fun m => Parser.mk m bodies.toArray

/-- A grammar is refused if and only if a regular expression cannot be read that stands in the root
or in the body of any rule. The failure names the first one, in the bodies by their slots and then in
the root, each depth first and from left to right. Every pattern read by itself gives the same, and so
does any table of patterns that have been read before. -/
theorem Parser.compile_refuses (r : Registry) (root : Node) :
    ((∃ e, Parser.compile r root = .error e) ↔
      ∃ n ∈ r.bodies ++ [root], ∃ source, n.Unreadable source) ∧
    (∀ e, Parser.compile r root = .error e ↔
      ∃ before source after, r.patterns root = before ++ source :: after ∧
        (∀ s ∈ before, ¬ Rejected s) ∧ Rejected source ∧ e = .invalidPattern source) ∧
    (Parser.compile r root = do
      let bodies ← compileBodies r r.rules
      return ⟨← root.compile r, bodies.toArray⟩) ∧
    Compiler.Computes (Compiler.grammar r root) (Parser.compile r root) := by
  have hjudged := judged_compile r root
  refine ⟨hjudged.exists_error_iff.trans ⟨?_, ?_⟩, fun e => hjudged.eq_error_iff, compile_eq r root,
    ?_⟩
  · rintro ⟨source, hmem, hsource⟩
    obtain ⟨n, hn, hsource'⟩ := List.mem_flatMap.mp hmem
    exact ⟨n, hn, source, Node.mem_patterns_iff.mp hsource', hsource⟩
  · rintro ⟨n, hn, source, hpattern, hsource⟩
    exact ⟨source, List.mem_flatMap.mpr ⟨n, hn, Node.mem_patterns_iff.mpr hpattern⟩, hsource⟩
  · rw [compile_eq]
    exact Compiler.computes_grammar r root

/-- A body that nothing refers to is read all the same, and before the root. -/
example : Parser.compile ⟨[("broken", some (.terminal { id := 0 } (.regex "(")))]⟩
    (.terminal { id := 1 } (.regex "[")) = .error (.invalidPattern "(") := rfl

end Typestrip.Grammar
