import Mathlib.Logic.Relation
import Typestrip.Proofs.Grammar.Alike
import Typestrip.Proofs.Grammar.Identity

/-!
# Joined literals

A builder joins the plain literals that stand next to each other in a sequence, two at a time, by
way of its table of literals. `Node.Unjoined` takes any number of sequences of a grammar back to the
children that the builder was given. A literal fails where one of its parts would, if at another
position, and where it matches it takes as much as its parts. So the nodes are alike, and the two
grammars differ only in failures that are not fatal.

Main statement: `Parser.parse_unjoined`.
-/

namespace Typestrip.Grammar

/-! ## Two literals and one -/

/-- Attributes that say nothing but the identity. -/
structure Attributes.Plain (a : Attributes) : Prop where
  capture : a.capture = none
  nullable : a.nullable = false
  reshape : a.reshape = none

theorem Node.plainLiteral?_eq_some {n : Node} {text : String} (h : n.plainLiteral? = some text) :
    ∃ a : Attributes, a.Plain ∧ n = .terminal a (.literal text) := by
  unfold plainLiteral? at h
  split at h
  · next a text' =>
    split at h
    · next hplain =>
      obtain rfl := Option.some.inj h
      simp only [Bool.and_eq_true, Option.isNone_iff_eq_none, Bool.not_eq_true'] at hplain
      exact ⟨a, ⟨hplain.1.1, hplain.1.2, hplain.2⟩, rfl⟩
    · cases h
  · cases h

theorem stripPrefix?_append (a b cs : List Char) :
    stripPrefix? (a ++ b) cs = (stripPrefix? a cs).bind (stripPrefix? b) := by
  induction a generalizing cs with
  | nil => rfl
  | cons d a ih =>
    cases cs with
    | nil => rfl
    | cons c cs =>
      rw [List.cons_append, stripPrefix?, stripPrefix?]
      split
      · exact ih cs
      · rfl

section Plain

variable {rules : Rules} {e : Matcher → Recognizer} {a : Attributes} {text : List Char}
  {expected : String} {ms : List Matcher} {fields : List (String × Value)} {pos : Nat}
  {rest : List Char}

theorem asked_plain (ha : a.Plain) :
    memoized a.id ((Matcher.literal a text expected).evaluate rules e) pos rest .off =
      (matchLiteral a text expected pos rest, .off) := by
  have hrecover (o : Outcome) : a.recover o = o := by
    cases o with
    | ok s => rfl
    | error e =>
      rw [Attributes.recover, ha.nullable]
      rfl
  rw [memoized_of_not_knows (Memo.knows_empty false _ _), Memo.find_off, Matcher.evaluate_literal,
    hrecover, Memo.insert_off]

theorem evaluateAll_plain (ha : a.Plain) {after : List Char}
    (h : stripPrefix? text rest = some after) :
    Matcher.evaluateAll rules e (.literal a text expected :: ms) fields pos rest .off =
      Matcher.evaluateAll rules e ms fields (pos + Text.width text) after .off := by
  have hrest := stripPrefix?_eq_some_iff.mp h
  rw [Matcher.evaluateAll, Matcher.attributes, asked_plain ha, matchLiteral, h]
  dsimp only
  rw [keep, ha.capture, hrest, Text.dropBytes_width]

theorem evaluateAll_plain_none (ha : a.Plain) (h : stripPrefix? text rest = none) :
    Matcher.evaluateAll rules e (.literal a text expected :: ms) fields pos rest .off =
      (.error (.stopped pos (.unmatched pos expected)), .off) := by
  rw [Matcher.evaluateAll, Matcher.attributes, asked_plain ha, matchLiteral, h]
  rfl

end Plain

/-- A literal in place of its two parts. -/
theorem AlikeParts.joined {a a₁ a₂ : Attributes} (ha : a.Plain) (ha₁ : a₁.Plain) (ha₂ : a₂.Plain)
    (text₁ text₂ : List Char) (expected expected₁ expected₂ : String) (ms : List Matcher) :
    AlikeParts (.literal a (text₁ ++ text₂) expected :: ms)
      (.literal a₁ text₁ expected₁ :: .literal a₂ text₂ expected₂ :: ms) where
  captures := by
    simp only [List.any_cons, Matcher.attributes, ha.capture, ha₁.capture, ha₂.capture,
      Option.isSome_none, Bool.false_or]
  evaluateAll hrules fields pos rest := by
    have happend := stripPrefix?_append text₁ text₂ rest
    cases h₁ : stripPrefix? text₁ rest with
    | none =>
      rw [h₁] at happend
      rw [evaluateAll_plain_none ha happend, evaluateAll_plain_none ha₁ h₁]
      exact ⟨.failed rfl rfl⟩
    | some after =>
      rw [h₁, Option.bind_some] at happend
      rw [evaluateAll_plain ha₁ h₁]
      cases h₂ : stripPrefix? text₂ after with
      | none =>
        -- the whole fails where it begins, the second part where the first one ends
        rw [h₂] at happend
        rw [evaluateAll_plain_none ha happend, evaluateAll_plain_none ha₂ h₂]
        exact ⟨.failed rfl rfl⟩
      | some rest' =>
        rw [h₂] at happend
        rw [evaluateAll_plain ha happend, evaluateAll_plain ha₂ h₂, Text.width_append,
          Nat.add_assoc]
        exact (AlikeParts.refl ms).evaluateAll hrules _ _ _

/-! ## What a builder joins -/

/-- Two plain literals in a row are replaced by one. -/
inductive Joins : List Node → List Node → Prop
  | intro {left right joined text text'} (before after : List Node) :
      left.plainLiteral? = some text → right.plainLiteral? = some text' →
      joined.plainLiteral? = some (text ++ text') →
      Joins (before ++ left :: right :: after) (before ++ joined :: after)

/-- A builder that keeps for each text the plain literal of the text. -/
def Builder.Orderly (b : Builder) : Prop :=
  ∀ entry ∈ b.literals, entry.2.plainLiteral? = some entry.1

/-- Building that leaves the table of literals in order, and what can be said of its result then. -/
def Build.Orderly {α : Type} (m : Build α) (good : α → Prop) : Prop :=
  ∀ b : Builder, b.Orderly → (m b).2.Orderly ∧ good (m b).1

namespace Build

theorem Orderly.pure {α : Type} {good : α → Prop} {x : α} (h : good x) :
    Orderly (pure x) good := fun _ hb => ⟨hb, h⟩

theorem Orderly.bind {α β : Type} {good : α → Prop} {good' : β → Prop} {m : Build α}
    {f : α → Build β} (hm : Orderly m good) (hf : ∀ x, good x → Orderly (f x) good') :
    Orderly (m >>= f) good' := by
  intro b hb
  obtain ⟨hb', hx⟩ := hm b hb
  exact hf _ hx _ hb'

theorem Orderly.mono {α : Type} {good good' : α → Prop} {m : Build α} (hm : Orderly m good)
    (h : ∀ x, good x → good' x) : Orderly m good' :=
  fun b hb => (hm b hb).imp_right (h _)

/-- Steps that do not touch the table. -/
theorem Orderly.of_literals {α : Type} {m : Build α} (h : ∀ b, (m b).2.literals = b.literals) :
    Orderly m fun _ => True := fun b hb => ⟨fun entry he => hb entry (h b ▸ he), trivial⟩

theorem literal_orderly (text : String) :
    Orderly (literal text) fun n => n.plainLiteral? = some text := by
  intro b hb
  unfold literal
  cases hfound : b.literals.lookup text with
  | some n => exact ⟨hb, hb _ (mem_of_lookup hfound)⟩
  | none => exact ⟨List.forall_mem_cons.mpr ⟨rfl, hb⟩, rfl⟩

theorem joinChild_orderly (found : List Node) (child : Node) (rest : List Node) :
    Orderly (joinChild found child) fun ns =>
      Relation.ReflTransGen Joins (found.reverse ++ child :: rest) (ns.reverse ++ rest) := by
  have hkeep : Orderly (pure (child :: found)) fun ns =>
      Relation.ReflTransGen Joins (found.reverse ++ child :: rest) (ns.reverse ++ rest) := by
    refine .pure ?_
    rw [List.reverse_cons, List.append_assoc]
    exact .refl
  unfold joinChild
  split
  · next last before next hnext =>
    split
    · next previous hprevious =>
      refine .bind (literal_orderly (previous ++ next)) fun joined hjoined => .pure ?_
      rw [List.reverse_cons, List.reverse_cons, List.append_assoc, List.append_assoc]
      exact .single (.intro before.reverse rest hprevious hnext hjoined)
    · exact hkeep
  · exact hkeep

theorem joinChildren_orderly (found children : List Node) :
    Orderly (joinChildren found children) fun ns =>
      Relation.ReflTransGen Joins (found.reverse ++ children) ns.reverse := by
  induction children generalizing found with
  | nil => exact .pure (by rw [List.append_nil])
  | cons child children ih =>
    exact .bind (joinChild_orderly found child children) fun found hfound =>
      (ih found).mono fun ns hns => hfound.trans hns

theorem sequence_orderly (children : List Node) :
    Orderly (sequence children) fun n => Relation.ReflTransGen Joins children n.children := by
  refine .bind (joinChildren_orderly [] children) fun ns hns => ?_
  intro b hb
  exact ⟨hb, hns⟩

theorem step_orderly {held : List Node} {m : Build (List Node)} (h : Step held m) :
    Orderly m fun _ => True := by
  have hone {good : Node → Prop} {m : Build Node} (hm : Orderly m good) :
      Orderly (do return [← m]) fun _ => True := hm.bind fun _ _ => .pure trivial
  -- only literals are entered in the table, those that a sequence joins among them
  cases h with
  | literal text => exact hone (literal_orderly text)
  | sequence hns => exact hone (sequence_orderly _)
  | _ => exact .of_literals fun _ => rfl

end Build

theorem Workshop.orderly {builders : List Builder} {held : List Node} (h : Workshop builders held) :
    ∀ b ∈ builders, b.Orderly := by
  induction h with
  | empty => simp
  | builder _ ih => exact List.forall_mem_cons.mpr ⟨fun _ he => (by cases he), ih⟩
  | @step before b after held m _ hstep ih =>
    have hb : b.Orderly := ih b (List.mem_append_right _ List.mem_cons_self)
    obtain ⟨hafter, -⟩ := Build.step_orderly hstep
      { b with nextId := nextIdentity (before ++ b :: after) } hb
    have hsub := ((List.sublist_cons_self b after).append_left before).subset
    exact List.forall_mem_cons.mpr ⟨hafter, fun b' hmem => ih b' (hsub hmem)⟩

/-- Given the children `originals`, some builder makes a sequence of the children `joined`. -/
def Joined (originals joined : List Node) : Prop :=
  ∃ builders held b next, Workshop builders held ∧ b ∈ builders ∧
    (Build.sequence originals { b with nextId := next }).1.children = joined

theorem Joined.joins {originals joined : List Node} (h : Joined originals joined) :
    Relation.ReflTransGen Joins originals joined := by
  obtain ⟨builders, held, b, next, hw, hb, rfl⟩ := h
  exact (Build.sequence_orderly originals { b with nextId := next } (hw.orderly b hb)).2

/-! ## Grammars with their literals apart -/

/-- The same node, except that any number of the sequences in it have the children that the builder
was given. -/
inductive Node.Unjoined : Node → Node → Prop
  | terminal (a p) : Unjoined (.terminal a p) (.terminal a p)
  | reference (a name) : Unjoined (.reference a name) (.reference a name)
  | repetition {n n'} (a) : Unjoined n n' → Unjoined (.repetition a n) (.repetition a n')
  | choice {ns ns'} (a) : ns.length = ns'.length →
      (∀ {n n'}, (n, n') ∈ ns.zip ns' → Unjoined n n') → Unjoined (.choice a ns) (.choice a ns')
  | sequence {ns ns'} (a) : ns.length = ns'.length →
      (∀ {n n'}, (n, n') ∈ ns.zip ns' → Unjoined n n') → Unjoined (.sequence a ns) (.sequence a ns')
  /-- The children that the builder was given, which may have changed below in the same way. -/
  | split {originals joined ns} (a) : Joined originals joined → originals.length = ns.length →
      (∀ {n n'}, (n, n') ∈ originals.zip ns → Unjoined n n') →
      Unjoined (.sequence a joined) (.sequence a ns)

/-- The same rules, except that sequences in their bodies have the children that the builder was
given. -/
def Registry.Unjoined (r r' : Registry) : Prop :=
  List.Forall₂ (fun rule rule' => rule.1 = rule'.1 ∧ Option.Rel Node.Unjoined rule.2 rule'.2)
    r.rules r'.rules

/-- Both are refused for the same reason, or both are compiled and the results are related. -/
inductive Corresponds {α β : Type} (R : α → β → Prop) :
    Except GrammarError α → Except GrammarError β → Prop
  | refused (e) : Corresponds R (.error e) (.error e)
  | compiled {a b} : R a b → Corresponds R (.ok a) (.ok b)

namespace Corresponds

variable {α β γ δ : Type} {R : α → β → Prop} {S : γ → δ → Prop}

theorem refl {R : α → α → Prop} (h : ∀ a, R a a) : ∀ x : Except GrammarError α, Corresponds R x x
  | .error e => .refused e
  | .ok a => .compiled (h a)

theorem trans {T : α → γ → Prop} {U : β → γ → Prop} {x : Except GrammarError α}
    {y : Except GrammarError β} {z : Except GrammarError γ} (hxy : Corresponds R x y)
    (hyz : Corresponds U y z) (h : ∀ a b c, R a b → U b c → T a c) : Corresponds T x z := by
  cases hxy with
  | refused e =>
    cases hyz with
    | refused => exact .refused e
  | compiled hab =>
    cases hyz with
    | compiled hbc => exact .compiled (h _ _ _ hab hbc)

theorem bind {x : Except GrammarError α} {y : Except GrammarError β}
    {f : α → Except GrammarError γ} {g : β → Except GrammarError δ} (h : Corresponds R x y)
    (hfg : ∀ a b, R a b → Corresponds S (f a) (g b)) : Corresponds S (x >>= f) (y >>= g) := by
  cases h with
  | refused e => exact .refused e
  | compiled hab => exact hfg _ _ hab

theorem map {x : Except GrammarError α} {y : Except GrammarError β} {f : α → γ} {g : β → δ}
    (h : Corresponds R x y) (hfg : ∀ a b, R a b → S (f a) (g b)) :
    Corresponds S (x.map f) (y.map g) := by
  cases h with
  | refused e => exact .refused e
  | compiled hab => exact .compiled (hfg _ _ hab)

end Corresponds

variable {r r' : Registry}

theorem Joins.compileAll {ns ns' : List Node} (h : Joins ns ns') :
    Corresponds AlikeParts (Node.compileAll r ns') (Node.compileAll r ns) := by
  obtain @⟨left, right, joined, text, text', before, after, hleft, hright, hjoined⟩ := h
  induction before with
  | nil =>
    obtain ⟨a, ha, rfl⟩ := Node.plainLiteral?_eq_some hjoined
    obtain ⟨a₁, ha₁, rfl⟩ := Node.plainLiteral?_eq_some hleft
    obtain ⟨a₂, ha₂, rfl⟩ := Node.plainLiteral?_eq_some hright
    simp only [List.nil_append, Node.compileAll, Node.compile, String.toList_append]
    cases Node.compileAll r after with
    | error e => exact .refused e
    | ok ms => exact .compiled (.joined ha ha₁ ha₂ _ _ _ _ _ ms)
  | cons n before ih =>
    simp only [List.cons_append, Node.compileAll]
    refine .bind (.refl Matcher.Alike.refl _) fun m m' hm => ?_
    exact .bind ih fun ms ms' hms => .compiled (.cons hm hms)

theorem compileAll_joins {ns ns' : List Node} (h : Relation.ReflTransGen Joins ns ns') :
    Corresponds AlikeParts (Node.compileAll r ns') (Node.compileAll r ns) := by
  induction h with
  | refl => exact .refl .refl _
  | tail _ hjoin ih => exact hjoin.compileAll.trans ih fun _ _ _ => .trans

theorem compileAll_corresponds {ns ns' : List Node}
    (h : List.Forall₂ (fun n n' => Corresponds Matcher.Alike (n.compile r) (n'.compile r'))
      ns ns') :
    Corresponds (List.Forall₂ Matcher.Alike) (Node.compileAll r ns) (Node.compileAll r' ns') := by
  induction h with
  | nil => exact .compiled .nil
  | cons hn _ ih =>
    rw [Node.compileAll, Node.compileAll]
    exact hn.bind fun m m' hm => ih.bind fun ms ms' hms => .compiled (.cons hm hms)

theorem Node.Unjoined.compile (hlookup : ∀ name, r.lookup name = r'.lookup name) {n n' : Node}
    (h : n.Unjoined n') : Corresponds Matcher.Alike (n.compile r) (n'.compile r') := by
  induction h with
  | terminal a p =>
    have hsame : (Node.terminal a p).compile r = (Node.terminal a p).compile r' := by
      cases p with
      | literal text => rfl
      | regex source => rw [Node.compile, Node.compile]
    rw [hsame]
    exact .refl .refl _
  | reference a name =>
    rw [Node.compile, Node.compile, hlookup]
    exact .compiled (.refl _)
  | repetition a _ ih =>
    rw [Node.compile, Node.compile]
    exact ih.map fun m m' => .repetition a
  | choice a hlen _ ih =>
    rw [Node.compile, Node.compile]
    have hall := compileAll_corresponds (List.forall₂_iff_zip.mpr ⟨hlen, ih⟩)
    exact hall.map fun ms ms' => .choice a
  | sequence a hlen _ ih =>
    rw [Node.compile, Node.compile]
    have hall := compileAll_corresponds (List.forall₂_iff_zip.mpr ⟨hlen, ih⟩)
    exact hall.map fun ms ms' hms => .sequence a (.ofForall₂ hms)
  | split a hjoined hlen _ ih =>
    rw [Node.compile, Node.compile]
    have hall := compileAll_corresponds (List.forall₂_iff_zip.mpr ⟨hlen, ih⟩)
    -- first the literals are taken apart in the grammar as it is, then the parts are replaced
    have happart := (compileAll_joins hjoined.joins).trans hall fun _ _ _ hms hms' =>
      hms.trans (.ofForall₂ hms')
    exact happart.map fun ms ms' => .sequence a

theorem Registry.Unjoined.lookup (h : r.Unjoined r') (name : String) :
    r.lookup name = r'.lookup name := by
  obtain ⟨rules⟩ := r
  obtain ⟨rules'⟩ := r'
  show rules.findIdx? _ = rules'.findIdx? _
  have hall : List.Forall₂ _ rules rules' := h
  induction hall with
  | nil => rfl
  | cons hrule hrules ih => rw [List.findIdx?_cons, List.findIdx?_cons, hrule.1, ih hrules]

theorem compileBodies_alike (hlookup : ∀ name, r.lookup name = r'.lookup name)
    {rules rules' : List (String × Option Node)}
    (h : List.Forall₂ (fun rule rule' => rule.1 = rule'.1 ∧ Option.Rel Node.Unjoined rule.2 rule'.2)
      rules rules') :
    Corresponds (List.Forall₂ (Option.Rel Matcher.Alike)) (compileBodies r rules)
      (compileBodies r' rules') := by
  induction h with
  | nil => exact .compiled .nil
  | @cons rule rule' _ _ hrule _ ih =>
    obtain ⟨name, body⟩ := rule
    obtain ⟨name', body'⟩ := rule'
    obtain ⟨-, hbody⟩ := hrule
    cases hbody with
    | none =>
      rw [compileBodies, compileBodies]
      exact ih.bind fun ms ms' hms => .compiled (.cons .none hms)
    | some hbody =>
      rw [compileBodies, compileBodies]
      exact (hbody.compile hlookup).bind fun m m' hm =>
        ih.bind fun ms ms' hms => .compiled (.cons (.some hm) hms)

theorem join_getElem?_alike {bodies bodies' : List (Option Matcher)}
    (h : List.Forall₂ (Option.Rel Matcher.Alike) bodies bodies') (slot : Nat) :
    Option.Rel Matcher.Alike (bodies.toArray[slot]?).join (bodies'.toArray[slot]?).join := by
  rw [List.getElem?_toArray, List.getElem?_toArray]
  induction h generalizing slot with
  | nil => exact .none
  | cons hbody _ ih =>
    cases slot with
    | zero => exact hbody
    | succ slot => exact ih slot

/-- Joining literals does not change what a grammar accepts: with any number of sequences taken back
to the children that the builder was given, a grammar is refused for the same reason, or every parse
without a memo has the same match, the same fatal failure, or a failure that is not fatal. -/
theorem Parser.parse_unjoined {root root' : Node} (hr : r.Unjoined r')
    (hroot : root.Unjoined root') :
    Corresponds
      (fun p p' : Parser => ∀ matchAll maxDepth input,
        Alike (p.parse ⟨matchAll, false, maxDepth⟩ input)
          (p'.parse ⟨matchAll, false, maxDepth⟩ input))
      (Parser.compile r root) (Parser.compile r' root') := by
  have hbodies := compileBodies_alike hr.lookup hr
  have hcompile := hroot.compile hr.lookup
  rw [Parser.compile_eq, Parser.compile_eq]
  exact hbodies.bind fun bodies bodies' hbodies => hcompile.bind fun m m' hm =>
    .compiled fun matchAll maxDepth input =>
      Parser.parse_alike hm (join_getElem?_alike hbodies) matchAll maxDepth input

theorem Node.Unjoined.refl (n : Node) : n.Unjoined n :=
  match n with
  | .terminal a p => .terminal a p
  | .reference a name => .reference a name
  | .repetition a n => .repetition a (refl n)
  | .choice a ns =>
    .choice a rfl (List.forall₂_iff_zip.mp (List.forall₂_same.mpr fun c _ => refl c)).2
  | .sequence a ns =>
    .sequence a rfl (List.forall₂_iff_zip.mp (List.forall₂_same.mpr fun c _ => refl c)).2

theorem Joined.unjoined {originals joined : List Node} (h : Joined originals joined)
    (a : Attributes) : (Node.sequence a joined).Unjoined (.sequence a originals) :=
  .split a h rfl (List.forall₂_iff_zip.mp (List.forall₂_same.mpr fun c _ => .refl c)).2

/-- A rule for a word of three letters, which are joined to one literal. -/
def wordRules : Registry where
  rules := [("word", some (.sequence { id := 5 } [.terminal { id := 4 } (.literal "abc")]))]

/-- The rule with its literals apart. -/
def letterRules : Registry where
  rules := [("word", some (.sequence { id := 5 } [.terminal { id := 0 } (.literal "a"),
    .terminal { id := 1 } (.literal "b"), .terminal { id := 2 } (.literal "c")]))]

theorem wordRules_unjoined : wordRules.Unjoined letterRules := by
  have declared := Workshop.empty.builder.work (.declare "word")
  have letters := ((declared.work (.literal "a")).work (.literal "b")).work (.literal "c")
  have hjoined : Joined [.terminal { id := 0 } (.literal "a"), .terminal { id := 1 } (.literal "b"),
      .terminal { id := 2 } (.literal "c")] [.terminal { id := 4 } (.literal "abc")] :=
    ⟨_, _, _, 3, letters, .head _, rfl⟩
  exact .cons ⟨rfl, .some (hjoined.unjoined _)⟩ .nil

/-- The grammar with the rule as it is, compiled. -/
def wordParser : Parser where
  root := .rule { id := 6 } "word" (some 0)
  rules := #[some (.sequence { id := 5 } [.literal { id := 4 } ['a', 'b', 'c'] "\"abc\""])]

/-- The grammar with the literals apart, compiled. -/
def letterParser : Parser where
  root := .rule { id := 6 } "word" (some 0)
  rules := #[some (.sequence { id := 5 } [.literal { id := 0 } ['a'] "\"a\"",
    .literal { id := 1 } ['b'] "\"b\"", .literal { id := 2 } ['c'] "\"c\""])]

theorem parse_unjoined_word : wordRules.Unjoined letterRules ∧
    (Node.reference { id := 6 } "word").Unjoined (.reference { id := 6 } "word") ∧
    Alike (wordParser.parse ⟨true, false, 8⟩ "abd".toList)
      (letterParser.parse ⟨true, false, 8⟩ "abd".toList) ∧
    wordParser.parse ⟨true, false, 8⟩ "abd".toList =
      .error (.stopped 0 (.unmatched 0 "\"abc\"")) ∧
    letterParser.parse ⟨true, false, 8⟩ "abd".toList =
      .error (.stopped 2 (.unmatched 2 "\"c\"")) := by
  have h := Parser.parse_unjoined wordRules_unjoined (.reference { id := 6 } "word")
  have hword : Parser.compile wordRules (.reference { id := 6 } "word") = .ok wordParser := rfl
  have hletters : Parser.compile letterRules (.reference { id := 6 } "word") =
    .ok letterParser := rfl
  rw [hword, hletters] at h
  cases h with
  | compiled halike =>
    exact ⟨wordRules_unjoined, .reference _ _, halike true 8 "abd".toList, rfl, rfl⟩

end Typestrip.Grammar
