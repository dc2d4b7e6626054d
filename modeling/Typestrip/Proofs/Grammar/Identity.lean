import Typestrip.Proofs.Grammar.Compilation

/-!
# Nodes with one identity are one node

Builders draw identities from one supply and give a new one to whatever they change. The only nodes
that are handed out twice are those of literals, and they are the same node each time. So among all
nodes that were ever built no two different ones have the same identity: `Stock` is this invariant,
`Workshop.exists_stock` carries it along every course of building, and `Parser.Built.exists_family`
takes it over to compiled grammars, where the memo relies on it.
-/

namespace Typestrip.Grammar

/-! ## What can be built -/

/-- One step of building with the nodes at hand, and the nodes that it yields. Defining a rule by a
body that is built in between is a run of such steps. -/
inductive Build.Step (held : List Node) : Build (List Node) → Prop
  | literal (text : String) : Step held (return [← Build.literal text])
  | regex (source : String) : Step held (return [← Build.regex source])
  | sequence {children} : (∀ n ∈ children, n ∈ held) →
      Step held (return [← Build.sequence children])
  | choice {alternatives} : (∀ n ∈ alternatives, n ∈ held) →
      Step held (return [← Build.choice alternatives])
  | repetition {child} : child ∈ held → Step held (return [← Build.repetition child])
  | reference (name : String) : Step held (return [← Build.reference name])
  | nullable {n} : n ∈ held → Step held (return [← Build.nullable n])
  | capture {n} (name : String) : n ∈ held → Step held (return [← Build.capture name n])
  | map {n} (f : Value → Value) : n ∈ held → Step held (return [← Build.map f n])
  | declare (name : String) : Step held (do Build.declare name; return [])
  | define {body} (name : String) : body ∈ held → Step held (do Build.define name body; return [])
  | children {n} : n ∈ held → Step held (return n.children)

/-- The next identity of the common supply: the builder that was used last stands first. -/
def nextIdentity : List Builder → NodeId
  | [] => 0
  | b :: _ => b.nextId

/-- The builders and nodes that someone can have at hand. -/
inductive Workshop : List Builder → List Node → Prop
  | empty : Workshop [] []
  | builder {builders held} : Workshop builders held →
      Workshop ({ nextId := nextIdentity builders } :: builders) held
  | step {before b after held m} : Workshop (before ++ b :: after) held → Build.Step held m →
      Workshop ((m { b with nextId := nextIdentity (before ++ b :: after) }).2 :: (before ++ after))
        ((m { b with nextId := nextIdentity (before ++ b :: after) }).1 ++ held)

/-- A step of the builder that was used last. -/
theorem Workshop.work {b : Builder} {builders : List Builder} {held : List Node}
    {m : Build (List Node)} (h : Workshop (b :: builders) held) (hm : Build.Step held m) :
    Workshop ((m b).2 :: builders) ((m b).1 ++ held) :=
  @Workshop.step [] b builders held m h hm

/-- A parser for a grammar that was built: the rules of a builder, or any rules whose bodies were
built, together with a root that was built. -/
inductive Parser.Built (p : Parser) : Prop
  | ofBuilder {builders held b root} : Workshop builders held → b ∈ builders → root ∈ held →
      b.compile root = .ok p → p.Built
  | ofRegistry {builders held root} {r : Registry} : Workshop builders held →
      (∀ n ∈ r.bodies, n ∈ held) → root ∈ held → Parser.compile r root = .ok p → p.Built

/-! ## The invariant -/

/-- Nodes that are known, with the nodes below them: their identities were drawn from the supply,
each for one node. -/
structure Stock (next : NodeId) (known : Node → Prop) : Prop where
  children : ∀ {n}, known n → ∀ c ∈ n.children, known c
  drawn : ∀ {n}, known n → n.id < next
  unique : ∀ {m n}, known m → known n → m.id = n.id → m = n

/-- Everything a builder holds is known. -/
structure Builder.Stocked (b : Builder) (known : Node → Prop) : Prop where
  stock : Stock b.nextId known
  literals : ∀ e ∈ b.literals, known e.2
  bodies : ∀ n ∈ b.registry.bodies, known n

/-- A node under the next identity of the supply can be added. -/
theorem Stock.add {next : NodeId} {known : Node → Prop} (h : Stock next known) {n : Node}
    (hid : n.id = next) (hc : ∀ c ∈ n.children, known c) :
    Stock (next + 1) fun m => m = n ∨ known m where
  children := by
    rintro m (rfl | hm) c hcm
    · exact Or.inr (hc c hcm)
    · exact Or.inr (h.children hm c hcm)
  drawn := by
    rintro m (rfl | hm)
    · exact hid ▸ Nat.lt_succ_self _
    · exact Nat.lt_succ_of_lt (h.drawn hm)
  unique := by
    rintro m m' (rfl | hm) (rfl | hm') hsame
    · rfl
    · exact absurd (h.drawn hm') (hsame ▸ hid ▸ Nat.lt_irrefl _)
    · exact absurd (h.drawn hm) (hsame ▸ hid ▸ Nat.lt_irrefl _)
    · exact h.unique hm hm' hsame

/-- Building that keeps everything known, and what can be said of its result then. -/
def Build.Safe {α : Type} (m : Build α) (known : Node → Prop) (good : (Node → Prop) → α → Prop) :
    Prop :=
  ∀ b : Builder, b.Stocked known →
    ∃ known', (∀ n, known n → known' n) ∧ (m b).2.Stocked known' ∧ good known' (m b).1

namespace Build

variable {known : Node → Prop}

theorem Safe.pure {α : Type} {good : (Node → Prop) → α → Prop} {x : α} (h : good known x) :
    Safe (pure x) known good := fun _ hb => ⟨known, fun _ hn => hn, hb, h⟩

theorem Safe.bind {α β : Type} {good : (Node → Prop) → α → Prop} {good' : (Node → Prop) → β → Prop}
    {m : Build α} {f : α → Build β} (hm : Safe m known good)
    (hf : ∀ {known'} x, (∀ n, known n → known' n) → good known' x → Safe (f x) known' good') :
    Safe (m >>= f) known good' := by
  intro b hb
  obtain ⟨known₁, hle₁, hb₁, hx⟩ := hm b hb
  obtain ⟨known₂, hle₂, hb₂, hy⟩ := hf _ hle₁ hx _ hb₁
  exact ⟨known₂, fun n hn => hle₂ n (hle₁ n hn), hb₂, hy⟩

/-- A node made under a new identity from nodes that are known. -/
theorem safe_new {f : NodeId → Node} (hid : ∀ i, (f i).id = i)
    (hc : ∀ i, ∀ c ∈ (f i).children, known c) :
    Safe (return f (← freshId)) known fun known' n => known' n := by
  intro b hb
  refine ⟨fun m => m = f b.nextId ∨ known m, fun n hn => Or.inr hn, ?_, Or.inl rfl⟩
  exact ⟨hb.stock.add (hid _) (hc _), fun e he => Or.inr (hb.literals e he),
    fun n hn => Or.inr (hb.bodies n hn)⟩

theorem mem_of_lookup {α β : Type} [BEq α] [LawfulBEq α] {l : List (α × β)} {a : α} {b : β}
    (h : l.lookup a = some b) : (a, b) ∈ l := by
  obtain ⟨l₁, l₂, rfl, -⟩ := List.lookup_eq_some_iff.mp h
  exact List.mem_append_right l₁ List.mem_cons_self

theorem safe_literal (text : String) : Safe (literal text) known fun known' n => known' n := by
  intro b hb
  unfold literal
  -- the one kind of node that is handed out again, and it is the same node then
  cases hfound : b.literals.lookup text with
  | some n => exact ⟨known, fun _ hn => hn, hb, hb.literals _ (mem_of_lookup hfound)⟩
  | none =>
    refine ⟨fun m => m = Node.terminal { id := b.nextId } (.literal text) ∨ known m,
      fun n hn => Or.inr hn, ⟨hb.stock.add rfl (by simp [Node.children]), ?_,
        fun n hn => Or.inr (hb.bodies n hn)⟩, Or.inl rfl⟩
    rintro e (_ | ⟨_, he⟩)
    · exact Or.inl rfl
    · exact Or.inr (hb.literals e he)

theorem safe_joinChild {children : List Node} {child : Node} (hcs : ∀ n ∈ children, known n)
    (hc : known child) :
    Safe (joinChild children child) known fun known' ns => ∀ n ∈ ns, known' n := by
  have hkeep : Safe (pure (child :: children)) known fun known' ns => ∀ n ∈ ns, known' n :=
    .pure (List.forall_mem_cons.mpr ⟨hc, hcs⟩)
  unfold joinChild
  split
  · next last before next hnext =>
    split
    · -- two literals in a row are joined to one, which may be new
      exact .bind (safe_literal _) fun n hle hn => .pure (List.forall_mem_cons.mpr
        ⟨hn, fun m hm => hle m (hcs m (List.mem_cons_of_mem _ hm))⟩)
    · exact hkeep
  · exact hkeep

theorem safe_joinChildren {found children : List Node} (hf : ∀ n ∈ found, known n)
    (hcs : ∀ n ∈ children, known n) :
    Safe (joinChildren found children) known fun known' ns => ∀ n ∈ ns, known' n := by
  induction children generalizing found known with
  | nil => exact .pure hf
  | cons child children ih =>
    obtain ⟨hc, hcs⟩ := List.forall_mem_cons.mp hcs
    exact .bind (safe_joinChild hf hc) fun found hle hf => ih hf fun n hn => hle n (hcs n hn)

theorem safe_sequence {children : List Node} (hcs : ∀ n ∈ children, known n) :
    Safe (sequence children) known fun known' n => known' n :=
  .bind (safe_joinChildren (by simp) hcs) fun ns _ hns => safe_new (fun _ => rfl)
    fun _ c hc => hns c (List.mem_reverse.mp hc)

theorem safe_derive {n : Node} (hn : known n) (change : Attributes → Attributes) :
    Safe (derive n change) known fun known' n => known' n := by
  intro b hb
  refine safe_new (fun i => ?_) (fun i c hc => ?_) b hb
  · cases n <;> rfl
  · exact hb.stock.children hn c (by cases n <;> exact hc)

theorem bodies_declare (r : Registry) (name : String) : (r.declare name).bodies = r.bodies := by
  unfold Registry.declare
  split
  · rfl
  · simp [Registry.bodies]

theorem mem_bodies_define {r : Registry} {name : String} {body n : Node}
    (h : n ∈ (r.define name body).1.bodies) : n = body ∨ n ∈ r.bodies := by
  unfold Registry.define at h
  split at h
  · exact Or.inr h
  · rw [← bodies_declare r name]
    simp only [Registry.bodies, Registry.setBody, List.mem_filterMap, List.mem_map] at h ⊢
    obtain ⟨_, ⟨rule, hrule, rfl⟩, hn⟩ := h
    dsimp only at hn
    split at hn
    · exact Or.inl (Option.some.inj hn).symm
    · exact Or.inr ⟨rule, hrule, hn⟩

theorem safe_step {held : List Node} {m : Build (List Node)} (h : Step held m)
    (hheld : ∀ n ∈ held, known n) : Safe m known fun known' ns => ∀ n ∈ ns, known' n := by
  have hone {m : Build Node} (hm : Safe m known fun known' n => known' n) :
      Safe (do return [← m]) known fun known' ns => ∀ n ∈ ns, known' n :=
    .bind hm fun n _ hn => .pure (List.forall_mem_singleton.mpr hn)
  cases h with
  | literal text => exact hone (safe_literal text)
  | regex source => exact hone (safe_new (fun _ => rfl) fun _ _ hc => by cases hc)
  | sequence hns => exact hone (safe_sequence fun n hn => hheld n (hns n hn))
  | choice hns => exact hone (safe_new (fun _ => rfl) fun _ c hc => hheld c (hns c hc))
  | repetition hn =>
    exact hone (safe_new (fun _ => rfl) fun _ c hc => hheld c (List.mem_singleton.mp hc ▸ hn))
  | reference name => exact hone (safe_new (fun _ => rfl) fun _ _ hc => by cases hc)
  | nullable hn => exact hone (safe_derive (hheld _ hn) _)
  | capture name hn => exact hone (safe_derive (hheld _ hn) _)
  | map f hn => exact hone (safe_derive (hheld _ hn) _)
  | declare name =>
    intro b hb
    refine ⟨known, fun _ hn => hn, ⟨hb.stock, hb.literals, ?_⟩, by intro n hn; cases hn⟩
    intro n hn
    exact hb.bodies n (bodies_declare _ name ▸ hn)
  | define name hbody =>
    intro b hb
    refine ⟨known, fun _ hn => hn, ⟨hb.stock, hb.literals, ?_⟩, by intro n hn; cases hn⟩
    intro n hn
    rcases mem_bodies_define hn with rfl | hn
    · exact hheld _ hbody
    · exact hb.bodies n hn
  | children hn =>
    intro b hb
    exact ⟨known, fun _ hn => hn, hb, fun c hc => hb.stock.children (hheld _ hn) c hc⟩

end Build

/-! ## Every course of building -/

/-- However nodes were built, all of them are known with the nodes below them. -/
theorem Workshop.exists_stock {builders : List Builder} {held : List Node}
    (h : Workshop builders held) :
    ∃ known, Stock (nextIdentity builders) known ∧ (∀ n ∈ held, known n) ∧
      ∀ b ∈ builders, (∀ e ∈ b.literals, known e.2) ∧ ∀ n ∈ b.registry.bodies, known n := by
  induction h with
  | empty =>
    exact ⟨fun _ => False, ⟨fun h => h.elim, fun h => h.elim, fun h => h.elim⟩, by simp, by simp⟩
  | builder _ ih =>
    obtain ⟨known, hstock, hheld, hbs⟩ := ih
    refine ⟨known, hstock, hheld, List.forall_mem_cons.mpr ⟨?_, hbs⟩⟩
    exact ⟨fun e he => (by cases he), fun n hn => (by cases hn)⟩
  | @step before b after held m _ hstep ih =>
    obtain ⟨known, hstock, hheld, hbs⟩ := ih
    -- the builder at work draws from the common supply; the others keep what they hold
    have hb := hbs b (List.mem_append_right _ List.mem_cons_self)
    obtain ⟨known', hle, hb', hns⟩ := Build.safe_step hstep hheld
      { b with nextId := nextIdentity (before ++ b :: after) } ⟨hstock, hb.1, hb.2⟩
    refine ⟨known', hb'.stock, List.forall_mem_append.mpr ⟨hns, fun n hn => hle n (hheld n hn)⟩,
      List.forall_mem_cons.mpr ⟨⟨hb'.literals, hb'.bodies⟩, fun b' hmem => ?_⟩⟩
    have hold := hbs b' (((List.sublist_cons_self b after).append_left before).subset hmem)
    exact ⟨fun e he => hle _ (hold.1 e he), fun n hn => hle n (hold.2 n hn)⟩

/-! ## Compiled grammars -/

/-- The compiled forms of known nodes. -/
def compiledFrom (r : Registry) (known : Node → Prop) (m : Matcher) : Prop :=
  ∃ n, known n ∧ Node.compile r n = .ok m

theorem Stock.identified {next : NodeId} {known : Node → Prop} (h : Stock next known)
    (r : Registry) : Identified (compiledFrom r known) := by
  rintro m m' ⟨n, hn, hm⟩ ⟨n', hn', hm'⟩ hsame
  rw [(Node.compile_eq_ok hm).1, (Node.compile_eq_ok hm').1] at hsame
  obtain rfl := h.unique hn hn' hsame
  exact Except.ok.inj (hm.symm.trans hm')

theorem Stock.family {next : NodeId} {known : Node → Prop} (h : Stock next known) {r : Registry}
    {root : Node} {p : Parser} (hp : Parser.compile r root = .ok p)
    (hbodies : ∀ n ∈ r.bodies, known n) : Family p.rules (compiledFrom r known) where
  children := by
    rintro m c ⟨n, hn, hm⟩ hc
    obtain ⟨n', hn', hc'⟩ := exists_of_forall₂ (Node.compile_eq_ok hm).2 hc
    exact ⟨n', h.children hn n' hn', hc'⟩
  bodies := by
    intro body hbody
    obtain ⟨n, hn, hm⟩ := Parser.exists_of_isBody hp hbody
    exact ⟨n, hbodies n hn, hm⟩

/-- The nodes of a parser that was built: identities are not shared among them. -/
theorem Parser.Built.exists_family {p : Parser} (h : p.Built) :
    ∃ member, Family p.rules member ∧ Identified member ∧ member p.root := by
  obtain ⟨r, root, known, next, hstock, hbodies, hroot, hp⟩ :
      ∃ (r : Registry) (root : Node) (known : Node → Prop) (next : NodeId), Stock next known ∧
        (∀ n ∈ r.bodies, known n) ∧ known root ∧ Parser.compile r root = .ok p := by
    cases h with
    | @ofBuilder builders held b root hw hb hroot hp =>
      obtain ⟨known, hstock, hheld, hbs⟩ := hw.exists_stock
      refine ⟨b.registry, root, known, _, hstock, (hbs b hb).2, hheld root hroot, ?_⟩
      unfold Builder.compile at hp
      split at hp
      · cases hp
      · exact hp
    | @ofRegistry builders held root r hw hr hroot hp =>
      obtain ⟨known, hstock, hheld, -⟩ := hw.exists_stock
      exact ⟨r, root, known, _, hstock, fun n hn => hheld n (hr n hn), hheld root hroot, hp⟩
  exact ⟨compiledFrom r known, hstock.family hp hbodies, hstock.identified r,
    root, hroot, (Parser.compile_eq_ok hp).1⟩

end Typestrip.Grammar
