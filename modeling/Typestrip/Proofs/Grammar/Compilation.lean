import Mathlib.Data.List.Forall2
import Typestrip.Proofs.Grammar.Matching
import Typestrip.Proofs.Grammar.Patterns

/-!
# What compiling does

A compiled node has the attributes of the node, and its parts are the compiled parts of the node
(`Node.compile_eq_ok`). Filling the slots of the table one after the other never meets a slot that is
filled already, and comes to compiling all bodies (`computes_installBodies`), each for itself and
without a table of patterns (`Parser.compile_eq`). So the table of rules has a slot for each declared
rule, with the compiled body of the rule if there is one (`compileBodies_forall₂`).
-/

namespace Typestrip.Grammar

/-- The nodes right below a node. -/
def Node.children : Node → List Node
  | .sequence _ ns | .choice _ ns => ns
  | .repetition _ n => [n]
  | .terminal .. | .reference .. => []

/-- The bodies that rules were given. -/
def Registry.bodies (r : Registry) : List Node := r.rules.filterMap (·.2)

/-! ## Steps that succeed or fail -/

theorem exists_of_bind_eq_ok {ε α β : Type} {x : Except ε α} {f : α → Except ε β} {b : β}
    (h : (x >>= f) = .ok b) : ∃ a, x = .ok a ∧ f a = .ok b := by
  cases x with
  | error e => cases h
  | ok a => exact ⟨a, rfl, h⟩

theorem exists_of_map_eq_ok {ε α β : Type} {x : Except ε α} {f : α → β} {b : β}
    (h : x.map f = .ok b) : ∃ a, x = .ok a ∧ f a = b := by
  cases x with
  | error e => cases h
  | ok a => exact ⟨a, rfl, Except.ok.inj h⟩

theorem exists_of_forall₂ {α β : Type} {R : α → β → Prop} {as : List α} {bs : List β}
    (h : List.Forall₂ R as bs) {b : β} (hb : b ∈ bs) : ∃ a ∈ as, R a b := by
  induction h with
  | nil => cases hb
  | cons hab _ ih =>
    rcases List.mem_cons.mp hb with rfl | hb
    · exact ⟨_, List.mem_cons_self, hab⟩
    · obtain ⟨a, ha, hr⟩ := ih hb
      exact ⟨a, List.mem_cons_of_mem _ ha, hr⟩

/-! ## Nodes and tables of rules -/

variable {r : Registry}

theorem Node.compileAll_forall₂ {ns : List Node} {ms : List Matcher}
    (h : Node.compileAll r ns = .ok ms) :
    List.Forall₂ (fun n m => Node.compile r n = .ok m) ns ms := by
  induction ns generalizing ms with
  | nil =>
    obtain rfl : [] = ms := Except.ok.inj h
    exact .nil
  | cons n ns ih =>
    rw [compileAll] at h
    obtain ⟨m, hn, h⟩ := exists_of_bind_eq_ok h
    obtain ⟨ms', hns, h⟩ := exists_of_bind_eq_ok h
    obtain rfl : m :: ms' = ms := Except.ok.inj h
    exact .cons hn (ih hns)

/-- The compiled bodies of rules. -/
def compileBodies (r : Registry) :
    List (String × Option Node) → Except GrammarError (List (Option Matcher))
  | [] => .ok []
  | (_, none) :: rest => return none :: (← compileBodies r rest)
  | (_, some body) :: rest => do
    let m ← body.compile r
    return some m :: (← compileBodies r rest)

/-- The slot after those that are done is empty. -/
theorem Rules.install?_append (done rest : List (Option Matcher)) (m : Matcher) :
    Rules.install? (done ++ none :: rest).toArray done.length m =
      some (done ++ some m :: rest).toArray := by
  have hslot : (done ++ none :: rest).toArray[done.length]? = some none := by
    rw [List.getElem?_toArray, List.getElem?_append_right (Nat.le_refl _), Nat.sub_self]
    rfl
  rw [install?, hslot]
  simp

/-- The slots before those of the rules are `done`, and those of the rules are empty. -/
theorem computes_installBodies (done : List (Option Matcher))
    (rules : List (String × Option Node)) :
    Compiler.Computes
      (installBodies r done.length (done ++ List.replicate rules.length none).toArray rules)
      ((compileBodies r rules).map fun bodies => (done ++ bodies).toArray) := by
  induction rules generalizing done with
  | nil => exact Compiler.computes_pure _
  | cons rule rules ih =>
    have hnext (body : Option Matcher) :
        Compiler.Computes
          (installBodies r (done.length + 1)
            (done ++ body :: List.replicate rules.length none).toArray rules)
          ((compileBodies r rules).map fun bodies => (done ++ body :: bodies).toArray) := by
      have := ih (done ++ [body])
      simpa only [List.length_append, List.length_singleton, List.append_assoc,
        List.singleton_append] using this
    obtain ⟨name, body | body⟩ := rule
    · -- the slot stays empty
      have hbodies : (compileBodies r ((name, none) :: rules)).map
          (fun bodies => (done ++ bodies).toArray) =
          (compileBodies r rules).map fun bodies => (done ++ none :: bodies).toArray := by
        rw [compileBodies]
        cases compileBodies r rules <;> rfl
      rw [hbodies, installBodies, List.length_cons, List.replicate_succ]
      exact hnext none
    · -- the body is compiled before its slot is filled
      have hbodies : (compileBodies r ((name, some body) :: rules)).map
          (fun bodies => (done ++ bodies).toArray) =
          body.compile r >>= fun m =>
            (compileBodies r rules).map fun bodies => (done ++ some m :: bodies).toArray := by
        rw [compileBodies]
        cases body.compile r with
        | error e => rfl
        | ok m => cases compileBodies r rules <;> rfl
      rw [hbodies, installBodies, List.length_cons, List.replicate_succ]
      refine (Compiler.computes_node body).bind fun m => ?_
      rw [Rules.install?_append]
      exact hnext (some m)

/-- Compiling a grammar is compiling all bodies and then the root. -/
theorem Compiler.computes_grammar (r : Registry) (root : Node) :
    Compiler.Computes (Compiler.grammar r root) do
      let bodies ← compileBodies r r.rules
      return ⟨← root.compile r, bodies.toArray⟩ := by
  have hempty : Rules.placeholders r = (List.replicate r.rules.length none).toArray :=
    Array.replicate_eq_toArray_replicate
  have hinstall : Compiler.Computes (installBodies r 0 (.placeholders r) r.rules)
      ((compileBodies r r.rules).map List.toArray) := by
    rw [hempty]
    exact computes_installBodies [] r.rules
  have hplain : ((compileBodies r r.rules).map List.toArray >>= fun rules =>
      (root.compile r).map fun m => Parser.mk m rules) = do
        let bodies ← compileBodies r r.rules
        return ⟨← root.compile r, bodies.toArray⟩ := by
    cases compileBodies r r.rules with
    | error e => rfl
    | ok bodies => cases root.compile r <;> rfl
  rw [← hplain]
  exact hinstall.bind fun rules => (Compiler.computes_node root).map fun m => Parser.mk m rules

/-- The table of patterns does not show in what comes of it. -/
theorem Parser.compile_eq (r : Registry) (root : Node) :
    Parser.compile r root = do
      let bodies ← compileBodies r r.rules
      return ⟨← root.compile r, bodies.toArray⟩ :=
  (Compiler.computes_grammar r root).run'_eq Patterns.sound_nil

theorem compileBodies_forall₂ {rules : List (String × Option Node)} {bodies : List (Option Matcher)}
    (h : compileBodies r rules = .ok bodies) :
    List.Forall₂ (fun rule body => rule.2.map (Node.compile r) = body.map .ok) rules bodies := by
  induction rules generalizing bodies with
  | nil =>
    obtain rfl : [] = bodies := Except.ok.inj h
    exact .nil
  | cons rule rules ih =>
    obtain ⟨name, body | body⟩ := rule
    · rw [compileBodies] at h
      obtain ⟨bodies', hrules, h⟩ := exists_of_bind_eq_ok h
      obtain rfl : none :: bodies' = bodies := Except.ok.inj h
      exact .cons rfl (ih hrules)
    · rw [compileBodies] at h
      obtain ⟨m, hbody, h⟩ := exists_of_bind_eq_ok h
      obtain ⟨bodies', hrules, h⟩ := exists_of_bind_eq_ok h
      obtain rfl : some m :: bodies' = bodies := Except.ok.inj h
      exact .cons (by rw [Option.map_some, hbody]; rfl) (ih hrules)

/-- A compiled node keeps the attributes, and its parts are the compiled parts of the node. -/
theorem Node.compile_eq_ok {n : Node} {m : Matcher} (h : Node.compile r n = .ok m) :
    m.attributes = n.attributes ∧
      List.Forall₂ (fun n m => Node.compile r n = .ok m) n.children m.children := by
  cases n with
  | terminal a p =>
    cases p with
    | literal text =>
      obtain rfl := Except.ok.inj h
      exact ⟨rfl, .nil⟩
    | regex source =>
      rw [compile] at h
      split at h
      · obtain rfl := Except.ok.inj h
        exact ⟨rfl, .nil⟩
      · cases h
  | sequence a ns | choice a ns =>
    rw [compile] at h
    obtain ⟨ms, hns, rfl⟩ := exists_of_map_eq_ok h
    exact ⟨rfl, Node.compileAll_forall₂ hns⟩
  | repetition a n =>
    rw [compile] at h
    obtain ⟨m, hn, rfl⟩ := exists_of_map_eq_ok h
    exact ⟨rfl, .cons hn .nil⟩
  | reference a name =>
    obtain rfl := Except.ok.inj h
    exact ⟨rfl, .nil⟩

/-- A compiled grammar is the compiled root with the compiled bodies. -/
theorem Parser.compile_eq_ok {root : Node} {p : Parser} (h : Parser.compile r root = .ok p) :
    Node.compile r root = .ok p.root ∧
      ∃ bodies, compileBodies r r.rules = .ok bodies ∧ p.rules = bodies.toArray := by
  rw [compile_eq] at h
  obtain ⟨bodies, hbodies, h⟩ := exists_of_bind_eq_ok h
  obtain ⟨m, hroot, h⟩ := exists_of_bind_eq_ok h
  obtain rfl := Except.ok.inj h
  exact ⟨hroot, bodies, hbodies, rfl⟩

/-- A slot of the table holds the compiled body of its rule, if the rule has a body. -/
theorem Parser.compile_slot {root : Node} {p : Parser} (h : Parser.compile r root = .ok p)
    (i : Nat) :
    ((r.rules[i]?).bind (·.2)).map (Node.compile r) = ((p.rules[i]?).join).map .ok := by
  obtain ⟨-, bodies, hbodies, hrules⟩ := Parser.compile_eq_ok h
  have hall := compileBodies_forall₂ hbodies
  rw [hrules, List.getElem?_toArray]
  by_cases hi : i < r.rules.length
  · have hi' : i < bodies.length := hall.length_eq ▸ hi
    rw [List.getElem?_eq_getElem hi, List.getElem?_eq_getElem hi']
    exact hall.get hi hi'
  · rw [List.getElem?_eq_none (Nat.le_of_not_lt hi),
      List.getElem?_eq_none (hall.length_eq ▸ Nat.le_of_not_lt hi)]
    rfl

/-- The table of rules holds compiled bodies of rules. -/
theorem Parser.exists_of_isBody {root : Node} {p : Parser} (h : Parser.compile r root = .ok p)
    {m : Matcher} (hm : IsBody p.rules m) : ∃ n ∈ r.bodies, Node.compile r n = .ok m := by
  obtain ⟨i, hi⟩ := hm
  have hslot := Parser.compile_slot h i
  rw [hi, Option.map_some, Option.map_eq_some_iff] at hslot
  obtain ⟨n, hn, hcompile⟩ := hslot
  obtain ⟨rule, hrule, hbody⟩ := Option.bind_eq_some_iff.mp hn
  exact ⟨n, List.mem_filterMap.mpr ⟨rule, List.mem_of_getElem? hrule, hbody⟩, hcompile⟩

end Typestrip.Grammar
