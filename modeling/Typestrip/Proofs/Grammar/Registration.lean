import Mathlib.Data.List.Induction
import Mathlib.Data.List.Nodup
import Typestrip.Proofs.Grammar.Adequacy

/-!
# Registering rules

A course of building leaves a history of declarations, one for each time that a rule was declared or
given a body, those in the bodies of symbols included (`Build.Logs`). The registry is the outcome of
that history, and so are the refusals: a definition is refused just if its rule was given a body
before. `Builder.Registered` gathers what follows for the builder: names and slots correspond, neither
a slot nor a body that was given first ever changes, and the grammar is refused for the earliest
definition that was refused. `Build.Logs.registration` says that every course of building leads there.
-/

namespace Typestrip.Grammar

/-! ## Histories -/

/-- The rule that a declaration is about. -/
def Declaration.name : Declaration → String
  | .declare name => name
  | .define name _ => name

/-- The name of a rule that has a body and is to be given another one. -/
def Registry.refused? (r : Registry) : Declaration → Option String
  | .declare _ => none
  | .define name _ => if r.isDefined name then some name else none

/-- The names of the rules whose definitions a course of declarations has refused, in order. -/
def Registry.refusals (r : Registry) : List Declaration → List String
  | [] => []
  | d :: history => (r.refused? d).toList ++ (r.apply d).refusals history

theorem Registry.refusals_append (r : Registry) (earlier later : List Declaration) :
    r.refusals (earlier ++ later) =
      r.refusals earlier ++ (earlier.foldl Registry.apply r).refusals later := by
  induction earlier generalizing r with
  | nil => rfl
  | cons d earlier ih =>
    rw [List.cons_append, refusals, refusals, ih, List.foldl_cons, List.append_assoc]

theorem Registry.refusals_concat (history : List Declaration) (d : Declaration) :
    Registry.refusals {} (history ++ [d]) =
      Registry.refusals {} history ++ ((Registry.after history).refused? d).toList := by
  rw [refusals_append, refusals, refusals, List.append_nil]
  rfl

theorem Registry.refused?_eq_some_iff {r : Registry} {d : Declaration} {name : String} :
    r.refused? d = some name ↔ ∃ body, d = .define name body ∧ r.isDefined name = true := by
  cases d with
  | declare n => simp [refused?]
  | define n body =>
    simp only [refused?, Option.ite_none_right_eq_some, Option.some.injEq, Declaration.define.injEq]
    constructor
    · rintro ⟨h, rfl⟩
      exact ⟨body, ⟨rfl, rfl⟩, h⟩
    · rintro ⟨-, ⟨rfl, -⟩, h⟩
      exact ⟨h, rfl⟩

/-- Somewhere in a history a rule is to be given a body although it has one. -/
def Refuses (history : List Declaration) (name : String) : Prop :=
  ∃ before body after, history = before ++ .define name body :: after ∧
    (Registry.after before).isDefined name = true

theorem Refuses.append {history : List Declaration} {name : String} (h : Refuses history name)
    (later : List Declaration) : Refuses (history ++ later) name := by
  obtain ⟨before, body, after, rfl, hdefined⟩ := h
  exact ⟨before, body, after ++ later, by simp, hdefined⟩

theorem mem_refusals_iff (history : List Declaration) (name : String) :
    name ∈ Registry.refusals {} history ↔ Refuses history name := by
  constructor
  · intro h
    induction history using List.reverseRecOn with
    | nil => cases h
    | append_singleton history d ih =>
      rw [Registry.refusals_concat, List.mem_append, Option.mem_toList] at h
      rcases h with h | h
      · exact (ih h).append [d]
      · obtain ⟨body, rfl, hdefined⟩ := Registry.refused?_eq_some_iff.mp h
        exact ⟨history, body, [], rfl, hdefined⟩
  · rintro ⟨before, body, after, rfl, hdefined⟩
    rw [Registry.refusals_append, List.mem_append, Registry.refusals, List.mem_append,
      Option.mem_toList]
    exact .inr (.inl (Registry.refused?_eq_some_iff.mpr ⟨body, rfl, hdefined⟩))

theorem refusals_eq_nil_iff (history : List Declaration) :
    Registry.refusals {} history = [] ↔ ∀ name, ¬ Refuses history name := by
  rw [List.eq_nil_iff_forall_not_mem]
  exact forall_congr' fun name => not_congr (mem_refusals_iff history name)

/-- The definition that was refused first. -/
theorem head?_refusals_iff (history : List Declaration) (name : String) :
    (Registry.refusals {} history).head? = some name ↔
      ∃ before body after, history = before ++ .define name body :: after ∧
        (Registry.after before).isDefined name = true ∧ ∀ n, ¬ Refuses before n := by
  constructor
  · intro h
    induction history using List.reverseRecOn with
    | nil => cases h
    | append_singleton history d ih =>
      rw [Registry.refusals_concat] at h
      cases hrefusals : Registry.refusals {} history with
      | nil =>
        rw [hrefusals, List.nil_append, Option.head?_toList] at h
        obtain ⟨body, rfl, hdefined⟩ := Registry.refused?_eq_some_iff.mp h
        exact ⟨history, body, [], rfl, hdefined, (refusals_eq_nil_iff history).mp hrefusals⟩
      | cons n ns =>
        rw [hrefusals, List.cons_append, List.head?_cons] at h
        obtain ⟨before, body, after, rfl, hfirst⟩ := ih (by rw [hrefusals, List.head?_cons, h])
        exact ⟨before, body, after ++ [d], by simp, hfirst⟩
  · rintro ⟨before, body, after, rfl, hdefined, hnone⟩
    have hrefused : (Registry.after before).refused? (.define name body) = some name :=
      Registry.refused?_eq_some_iff.mpr ⟨body, rfl, hdefined⟩
    rw [Registry.refusals_append, (refusals_eq_nil_iff before).mpr hnone, List.nil_append]
    show (((Registry.after before).refused? (.define name body)).toList ++ _).head? = some name
    rw [hrefused]
    rfl

/-! ## Courses of building -/

namespace Build

/-- Building that leaves the rules alone. -/
def Quiet {α : Type} (m : Build α) : Prop :=
  ∀ b : Builder, (m b).2.registry = b.registry ∧ (m b).2.rejected = b.rejected

/-- A course of building, with the declarations that it makes when it starts from a given builder. It
is put together from the operations of a builder, and may look at the builder in between. -/
inductive Logs : {α : Type} → Build α → (Builder → List Declaration) → Prop
  | pure {α : Type} (x : α) : Logs (pure x) fun _ => []
  | bind {α β : Type} {m : Build α} {f : α → Build β} {log : Builder → List Declaration}
      {log' : α → Builder → List Declaration} : Logs m log → (∀ x, Logs (f x) (log' x)) →
      Logs (m >>= f) fun b => log b ++ log' (m b).1 (m b).2
  | look {α : Type} (f : Builder → α) : Logs (fun b => (f b, b)) fun _ => []
  | literal (text : String) : Logs (literal text) fun _ => []
  | regex (source : String) : Logs (regex source) fun _ => []
  | sequence (children : List Node) : Logs (sequence children) fun _ => []
  | choice (alternatives : List Node) : Logs (choice alternatives) fun _ => []
  | repetition (child : Node) : Logs (repetition child) fun _ => []
  | reference (name : String) : Logs (reference name) fun _ => []
  | nullable (n : Node) : Logs (nullable n) fun _ => []
  | capture (name : String) (n : Node) : Logs (capture name n) fun _ => []
  | map (f : Value → Value) (n : Node) : Logs (map f n) fun _ => []
  | declare (name : String) : Logs (declare name) fun _ => [.declare name]
  | define (name : String) (body : Node) : Logs (define name body) fun _ => [.define name body]

/-- A symbol declares its rule, then does whatever its body does, and only then defines the rule. -/
theorem Logs.symbol {body : Build Node} {log : Builder → List Declaration} (name : String)
    (hbody : Logs body log) :
    Logs (Build.symbol name body) fun b =>
      let declared := ((Build.declare name).run b).2
      .declare name :: log declared ++ [.define name (body.run declared).1] := by
  have h := Logs.bind (.declare name) fun _ => hbody.bind fun n =>
    (Logs.define name n).bind fun _ => .reference name
  simp only [List.append_nil] at h
  exact h

theorem Quiet.bind {α β : Type} {m : Build α} {f : α → Build β} (hm : m.Quiet)
    (hf : ∀ x, (f x).Quiet) : (m >>= f).Quiet := fun b =>
  ⟨((hf _ _).1).trans (hm b).1, ((hf _ _).2).trans (hm b).2⟩

theorem quiet_literal (text : String) : (literal text).Quiet := by
  intro b
  unfold literal
  split <;> exact ⟨rfl, rfl⟩

theorem quiet_joinChild (children : List Node) (child : Node) :
    (joinChild children child).Quiet := by
  unfold joinChild
  split
  · split
    · exact .bind (quiet_literal _) fun _ _ => ⟨rfl, rfl⟩
    · exact fun _ => ⟨rfl, rfl⟩
  · exact fun _ => ⟨rfl, rfl⟩

theorem quiet_joinChildren (found children : List Node) :
    (joinChildren found children).Quiet := by
  induction children generalizing found with
  | nil => exact fun _ => ⟨rfl, rfl⟩
  | cons child children ih => exact .bind (quiet_joinChild found child) ih

theorem quiet_sequence (children : List Node) : (sequence children).Quiet :=
  .bind (quiet_joinChildren [] children) fun _ _ => ⟨rfl, rfl⟩

/-- Definitions that are refused are remembered. -/
theorem rejected_define (name : String) (body : Node) (b : Builder) :
    ((define name body).run b).2.rejected =
      b.rejected ++ (b.registry.refused? (.define name body)).toList := by
  show (if (b.registry.define name body).2 then b.rejected else b.rejected ++ [name]) = _
  rw [Registry.define, Registry.refused?]
  cases b.registry.isDefined name with
  | true => rfl
  | false => exact (List.append_nil _).symm

/-- What a course of building does to the rules is what its declarations do. -/
theorem Logs.run {α : Type} {m : Build α} {log : Builder → List Declaration} (hm : Logs m log)
    (b : Builder) :
    (m b).2.registry = (log b).foldl Registry.apply b.registry ∧
      (m b).2.rejected = b.rejected ++ b.registry.refusals (log b) := by
  have hquiet {α : Type} {m : Build α} (h : m.Quiet) (b : Builder) :
      (m b).2.registry = b.registry ∧ (m b).2.rejected = b.rejected ++ [] := by
    rw [List.append_nil]
    exact h b
  induction hm generalizing b with
  | pure | look | regex | choice | repetition | reference | nullable | capture | map =>
    exact hquiet (fun _ => ⟨rfl, rfl⟩) b
  | literal text => exact hquiet (quiet_literal text) b
  | sequence children => exact hquiet (quiet_sequence children) b
  | declare name => exact ⟨rfl, (List.append_nil _).symm⟩
  | define name body =>
    refine ⟨rfl, (rejected_define name body b).trans ?_⟩
    rw [Registry.refusals, Registry.refusals, List.append_nil]
  | @bind α β m f log log' hm hf ihm ihf =>
    obtain ⟨hregistry, hrejected⟩ := ihm b
    obtain ⟨hregistry', hrejected'⟩ := ihf (m b).1 (m b).2
    rw [hregistry] at hregistry' hrejected'
    rw [hrejected] at hrejected'
    rw [List.foldl_append, Registry.refusals_append, ← List.append_assoc]
    exact ⟨hregistry', hrejected'⟩

end Build

/-! ## Slots -/

namespace Registry

/-- The names of the declared rules, in the order of their slots. -/
def names (r : Registry) : List String := r.rules.map (·.1)

theorem lookup_eq (r : Registry) (name : String) :
    r.lookup name = r.names.findIdx? (· = name) := by
  rw [lookup, names, List.findIdx?_map]
  rfl

theorem names_declare (r : Registry) (name : String) :
    (r.declare name).names = if name ∈ r.names then r.names else r.names ++ [name] := by
  unfold declare
  split
  · next slot h =>
    rw [lookup_eq] at h
    obtain ⟨hlt, hname, -⟩ := List.findIdx?_eq_some_iff_getElem.mp h
    rw [if_pos (of_decide_eq_true hname ▸ List.getElem_mem hlt)]
  · next h =>
    rw [lookup_eq] at h
    have hnot : name ∉ r.names := fun hmem => by
      simpa using List.findIdx?_eq_none_iff.mp h name hmem
    rw [if_neg hnot, names, List.map_append]
    rfl

theorem names_setBody (name : String) (body : Node) (rules : List (String × Option Node)) :
    (⟨setBody name body rules⟩ : Registry).names = (⟨rules⟩ : Registry).names := by
  rw [names, names, setBody, List.map_map]
  rfl

/-- A definition that is refused leaves the names alone; the rule has been declared. -/
theorem mem_names_of_isDefined {r : Registry} {name : String} (h : r.isDefined name = true) :
    name ∈ r.names := by
  rw [isDefined, body?] at h
  cases hlookup : r.rules.lookup name with
  | none =>
    rw [hlookup] at h
    cases h
  | some body =>
    have hmem := List.lookup_isSome_iff.mp (hlookup ▸ rfl : (r.rules.lookup name).isSome = true)
    obtain ⟨rule, hrule, hname⟩ := hmem
    exact List.mem_map.mpr ⟨rule, hrule, (eq_of_beq hname).symm⟩

theorem names_apply (r : Registry) (d : Declaration) :
    (r.apply d).names = if d.name ∈ r.names then r.names else r.names ++ [d.name] := by
  cases d with
  | declare name => exact names_declare r name
  | define name body =>
    rw [apply, define]
    split
    · next h => exact (if_pos (mem_names_of_isDefined h)).symm
    · exact (names_setBody name body _).trans (names_declare r name)

/-- Later declarations add names at the end. -/
theorem names_prefix (r : Registry) (history : List Declaration) :
    r.names <+: (history.foldl apply r).names := by
  induction history generalizing r with
  | nil => exact List.prefix_rfl
  | cons d history ih =>
    refine List.IsPrefix.trans ?_ (ih (r.apply d))
    rw [names_apply]
    split
    · exact List.prefix_rfl
    · exact List.prefix_append _ _

theorem mem_names_after (history : List Declaration) (name : String) :
    name ∈ (Registry.after history).names ↔ ∃ d ∈ history, d.name = name := by
  have hfrom (r : Registry) : name ∈ (history.foldl apply r).names ↔
      name ∈ r.names ∨ ∃ d ∈ history, d.name = name := by
    induction history generalizing r with
    | nil => simp
    | cons d history ih =>
      have hone : name ∈ (r.apply d).names ↔ name ∈ r.names ∨ d.name = name := by
        rw [names_apply]
        split
        · next hmem => exact ⟨.inl, fun h => h.elim id fun heq => heq ▸ hmem⟩
        · simp [eq_comm]
      rw [List.foldl_cons, ih, hone, or_assoc]
      simp
  exact (hfrom {}).trans (by simp [names])

/-- Among names that differ, a name has the slot at which it stands. -/
theorem lookup_eq_some_iff {r : Registry} (h : r.names.Nodup) (name : String) (slot : Nat) :
    r.lookup name = some slot ↔ r.names[slot]? = some name := by
  rw [lookup_eq, List.findIdx?_eq_some_iff_getElem, List.getElem?_eq_some_iff]
  constructor
  · rintro ⟨hlt, hname, -⟩
    exact ⟨hlt, of_decide_eq_true hname⟩
  · rintro ⟨hlt, hname⟩
    refine ⟨hlt, decide_eq_true hname, fun i hi heq => ?_⟩
    have hsame := hname.trans (of_decide_eq_true heq).symm
    exact absurd (h.getElem_inj_iff.mp hsame) (Nat.ne_of_gt hi)

end Registry

/-! ## The builder after a course of building -/

/-- Compiling rules never finds a rule that has a body already. -/
theorem Parser.compile_ne_duplicate (r : Registry) (root : Node) (name : String) :
    Parser.compile r root ≠ .error (.duplicateRule name) := by
  intro h
  obtain ⟨before, source, after, -, -, -, he⟩ := (judged_compile r root).eq_error_iff.mp h
  cases he

namespace Builder

/-- A grammar is refused for a rule just if that is the first one whose definition was refused. -/
theorem compile_eq_duplicate_iff (b : Builder) (root : Node) (name : String) :
    b.compile root = .error (.duplicateRule name) ↔ b.rejected.head? = some name := by
  unfold compile
  cases b.rejected with
  | nil => simp [Parser.compile_ne_duplicate]
  | cons n ns => simp

/-- What is to be said of the rules of a builder with a history of declarations. The registry at any
earlier time is that of an earlier part of the history. -/
structure Registered (history : List Declaration) (b : Builder) : Prop where
  registry_eq : b.registry = Registry.after history
  /-- A name has a slot just if it was declared or given a body. -/
  named : ∀ name, (b.registry.lookup name).isSome = true ↔ ∃ d ∈ history, d.name = name
  /-- The slots are the numbers below the number of rules, -/
  slot_lt : ∀ {name slot}, b.registry.lookup name = some slot → slot < b.registry.size
  /-- each of them for one name, -/
  unique_name : ∀ {slot}, slot < b.registry.size → ∃! name, b.registry.lookup name = some slot
  /-- and the rules stand in their order. -/
  entry : ∀ {name slot}, b.registry.lookup name = some slot →
    b.registry.rules[slot]? = some (name, b.registry.body? name)
  /-- A slot that a name had at any time is still its slot. -/
  slot_stays : ∀ {earlier later name slot}, history = earlier ++ later →
    (Registry.after earlier).lookup name = some slot → b.registry.lookup name = some slot
  /-- A body that a rule had at any time is still its body. -/
  body_stays : ∀ {earlier later name body}, history = earlier ++ later →
    (Registry.after earlier).body? name = some body → b.registry.body? name = some body
  /-- It is the first body that the rule was given. -/
  body_eq : ∀ name, b.registry.body? name = firstBody history name
  /-- The grammar is refused for the earliest definition of a rule that had a body. -/
  refused_iff : ∀ root name, b.compile root = .error (.duplicateRule name) ↔
    ∃ before body after, history = before ++ .define name body :: after ∧
      (Registry.after before).isDefined name = true ∧ ∀ n, ¬ Refuses before n
  /-- It is refused so just if any definition was refused. -/
  refuses_iff : ∀ root, (∃ name, b.compile root = .error (.duplicateRule name)) ↔
    ∃ name, Refuses history name
  /-- Otherwise compiling the rules does not find one that has a body already. -/
  compiled : ∀ root name, Parser.compile b.registry root ≠ .error (.duplicateRule name)

end Builder

section

variable {r : Registry} {earlier later : List Declaration} {name : String} {slot : Nat} {body : Node}

theorem Registry.isSome_lookup_after (history : List Declaration) (name : String) :
    ((Registry.after history).lookup name).isSome = true ↔ ∃ d ∈ history, d.name = name := by
  rw [← mem_names_after, lookup_eq, List.findIdx?_isSome, List.any_eq_true]
  simp

theorem Registry.entry_of_lookup (h : r.lookup name = some slot) :
    r.rules[slot]? = some (name, r.body? name) := by
  have hbody := r.bind_lookup name
  rw [h, Option.bind_some] at hbody
  obtain ⟨hlt, hname, -⟩ := List.findIdx?_eq_some_iff_getElem.mp h
  rw [List.getElem?_eq_getElem hlt, Option.bind_some] at hbody
  rw [List.getElem?_eq_getElem hlt, ← hbody]
  exact congrArg some (Prod.ext (of_decide_eq_true hname) rfl)

theorem Registry.lookup_after_append
    (h : (Registry.after earlier).lookup name = some slot) :
    (Registry.after (earlier ++ later)).lookup name = some slot := by
  rw [lookup_eq_some_iff (nodup_after _)] at h ⊢
  obtain ⟨added, hadded⟩ := names_prefix (Registry.after earlier) later
  have hlt := (List.getElem?_eq_some_iff.mp h).1
  rw [after, List.foldl_append, ← after, ← hadded, List.getElem?_append_left hlt, h]

theorem Registry.body?_after_append
    (h : (Registry.after earlier).body? name = some body) :
    (Registry.after (earlier ++ later)).body? name = some body := by
  rw [body?_after] at h ⊢
  rw [firstBody, List.findSome?_append]
  rw [firstBody] at h
  rw [h, Option.some_or]

end

/-- Whatever a course of building does, starting from an empty builder: declare and define rules,
build symbols whose bodies declare and define rules themselves, even the one that is being built, or
anything else. -/
theorem Build.Logs.registration {α : Type} {m : Build α} {log : Builder → List Declaration}
    (hm : Build.Logs m log) (next : NodeId) :
    Builder.Registered (log { nextId := next }) (m.run { nextId := next }).2 := by
  obtain ⟨hregistry, hrejected⟩ := hm.run { nextId := next }
  generalize log { nextId := next } = history at hregistry hrejected
  change _ = Registry.after history at hregistry
  change _ = Registry.refusals {} history at hrejected
  have hnodup := Registry.nodup_after history
  show Builder.Registered history (m { nextId := next }).2
  generalize (m { nextId := next }).2 = b at hregistry hrejected
  obtain ⟨_, _, registry, _⟩ := b
  dsimp only at hregistry hrejected
  subst hregistry hrejected
  have hslot := Registry.lookup_eq_some_iff hnodup
  refine ⟨rfl, Registry.isSome_lookup_after history, ?_, ?_, ?_, ?_, ?_,
    congrFun (Registry.body?_after history), fun root name => ?_, fun root => ?_,
    Parser.compile_ne_duplicate _⟩
  · intro name slot h
    have hlt := (List.getElem?_eq_some_iff.mp ((hslot name slot).mp h)).1
    rwa [Registry.names, List.length_map] at hlt
  · intro slot hlt
    have hlt : slot < (Registry.after history).names.length := by
      rwa [Registry.names, List.length_map]
    refine ⟨(Registry.after history).names[slot],
      (hslot _ slot).mpr (List.getElem?_eq_getElem hlt), fun name h => ?_⟩
    obtain ⟨_, hname⟩ := List.getElem?_eq_some_iff.mp ((hslot name slot).mp h)
    exact hname.symm
  · exact fun h => Registry.entry_of_lookup h
  · rintro earlier later name slot rfl h
    exact Registry.lookup_after_append h
  · rintro earlier later name body rfl h
    exact Registry.body?_after_append h
  · rw [Builder.compile_eq_duplicate_iff]
    exact head?_refusals_iff history name
  · simp only [Builder.compile_eq_duplicate_iff, ← mem_refusals_iff]
    cases Registry.refusals {} history <;> simp

/-- A symbol whose body defines the rule of the symbol and builds another symbol that refers to it. -/
def reentrant : Build Node :=
  Build.symbol "list" do
    Build.define "list" (← Build.literal "a")
    Build.symbol "item" (Build.reference "list")

/-- The definition of the symbol comes last and is refused. -/
theorem registered_reentrant : ∃ log, Build.Logs reentrant log ∧
    Builder.Registered (log { nextId := 0 }) (reentrant.run { nextId := 0 }).2 ∧
    (log { nextId := 0 }).map Declaration.name = ["list", "list", "item", "item", "list"] ∧
    ((reentrant.run { nextId := 0 }).2.compile (reentrant.run { nextId := 0 }).1).map (fun _ => ()) =
      .error (.duplicateRule "list") := by
  have hlogs := Build.Logs.symbol "list" ((Build.Logs.literal "a").bind fun n =>
    (Build.Logs.define "list" n).bind fun _ => (Build.Logs.reference "list").symbol "item")
  exact ⟨_, hlogs, hlogs.registration 0, rfl, rfl⟩

end Typestrip.Grammar
