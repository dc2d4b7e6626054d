import Typestrip.Proofs.Grammar.Compilation

/-!
# Which body a rule has

A registry is the outcome of a course of declarations, and all that compiled references depend on is
which body was given first to each name: when a rule was declared, whether it was declared at all,
and what it was given later makes no difference (`Registry.body?_after`,
`Parser.compile_reference`).
-/

namespace Typestrip.Grammar

/-- What can be done to a registry. -/
inductive Declaration where
  | declare (name : String)
  | define (name : String) (body : Node)

/-- The registry after one more declaration. -/
def Registry.apply (r : Registry) : Declaration → Registry
  | .declare name => r.declare name
  | .define name body => (r.define name body).1

/-- The registry after a course of declarations. -/
def Registry.after (history : List Declaration) : Registry := history.foldl Registry.apply {}

/-- The body that a declaration gives to a rule. -/
def Declaration.body? (name : String) : Declaration → Option Node
  | .declare _ => none
  | .define n body => if n = name then some body else none

/-- The first body that a rule was given. -/
def firstBody (history : List Declaration) (name : String) : Option Node :=
  history.findSome? (Declaration.body? name)

/-! ## The first body stays -/

theorem lookup_setBody (rules : List (String × Option Node)) (name n : String) (body : Node) :
    (Registry.setBody name body rules).lookup n =
      (rules.lookup n).map fun b => if n = name then some body else b := by
  induction rules with
  | nil => rfl
  | cons rule rules ih =>
    obtain ⟨m, b⟩ := rule
    rw [Registry.setBody, List.map_cons, ← Registry.setBody, List.lookup_cons, List.lookup_cons]
    cases hnm : n == m with
    | true =>
      obtain rfl := eq_of_beq hnm
      rfl
    | false => exact ih

theorem Registry.body?_declare (r : Registry) (name n : String) :
    (r.declare name).body? n = r.body? n := by
  unfold declare
  split
  · rfl
  · rw [body?, body?, List.lookup_append]
    cases r.rules.lookup n with
    | some b => rfl
    | none =>
      rw [List.lookup_cons]
      cases n == name <;> rfl

theorem Registry.isSome_lookup_declare (r : Registry) (name : String) :
    ((r.declare name).rules.lookup name).isSome = true := by
  unfold declare
  split
  · next slot h =>
    rw [List.lookup_isSome_iff]
    obtain ⟨hlt, hname, -⟩ := List.findIdx?_eq_some_iff_getElem.mp h
    exact ⟨_, List.getElem_mem hlt, by simpa using (of_decide_eq_true hname).symm⟩
  · rw [List.lookup_append]
    simp

/-- A rule that has a body keeps it. -/
theorem Registry.body?_define (r : Registry) (name n : String) (body : Node) :
    (r.define name body).1.body? n =
      (r.body? n).or ((Declaration.define name body).body? n) := by
  unfold define
  split
  · next hdefined =>
    rw [Declaration.body?]
    split
    · next h =>
      obtain ⟨first, hfirst⟩ := Option.isSome_iff_exists.mp hdefined
      rw [← h, hfirst, Option.some_or]
    · rw [Option.or_none]
  · next hdefined =>
    have hbody : (⟨setBody name body (r.declare name).rules⟩ : Registry).body? n =
        ((r.declare name).rules.lookup n).bind fun b => if n = name then some body else b := by
      rw [body?, lookup_setBody]
      cases (r.declare name).rules.lookup n <;> rfl
    rw [hbody, Declaration.body?]
    by_cases h : name = n
    · subst h
      obtain ⟨b, hb⟩ := Option.isSome_iff_exists.mp (r.isSome_lookup_declare name)
      rw [hb, Option.bind_some, if_pos rfl, if_pos rfl]
      rw [isDefined, Bool.not_eq_true, Option.isSome_eq_false_iff, Option.isNone_iff_eq_none]
        at hdefined
      rw [hdefined, Option.none_or]
    · rw [if_neg h, Option.or_none, ← r.body?_declare name n]
      simp only [Ne.symm h, if_false]
      rfl

theorem Registry.body?_apply (r : Registry) (d : Declaration) (name : String) :
    (r.apply d).body? name = (r.body? name).or (d.body? name) := by
  cases d with
  | declare n => exact (r.body?_declare n name).trans Option.or_none.symm
  | define n body => exact r.body?_define n name body

/-- After any course of declarations a rule has the first body it was given. -/
theorem Registry.body?_after (history : List Declaration) :
    (Registry.after history).body? = firstBody history := by
  funext name
  -- from any registry on, for the induction
  have hfrom (r : Registry) : (history.foldl apply r).body? name =
      (r.body? name).or (firstBody history name) := by
    induction history generalizing r with
    | nil => exact Option.or_none.symm
    | cons d history ih =>
      rw [List.foldl_cons, ih, body?_apply, Option.or_assoc, firstBody, firstBody,
        List.findSome?_cons]
      cases d.body? name <;> rfl
  exact (hfrom {}).trans Option.none_or

/-! ## Names are declared once -/

theorem Registry.nodup_declare {r : Registry} (h : (r.rules.map (·.1)).Nodup) (name : String) :
    ((r.declare name).rules.map (·.1)).Nodup := by
  unfold declare
  split
  · exact h
  · next hnone =>
    rw [List.map_append, List.nodup_append]
    refine ⟨h, by simp, fun n hn m hm => ?_⟩
    obtain ⟨rule, hrule, rfl⟩ := List.mem_map.mp hn
    rw [List.mem_singleton.mp hm]
    simpa using List.findIdx?_eq_none_iff.mp hnone rule hrule

theorem Registry.nodup_apply {r : Registry} (h : (r.rules.map (·.1)).Nodup) (d : Declaration) :
    ((r.apply d).rules.map (·.1)).Nodup := by
  cases d with
  | declare name => exact nodup_declare h name
  | define name body =>
    rw [apply, define]
    split
    · exact h
    · rw [setBody, List.map_map]
      exact nodup_declare h name

theorem Registry.nodup_after (history : List Declaration) :
    ((Registry.after history).rules.map (·.1)).Nodup := by
  have hfrom {r : Registry} (h : (r.rules.map (·.1)).Nodup) :
      ((history.foldl apply r).rules.map (·.1)).Nodup := by
    induction history generalizing r with
    | nil => exact h
    | cons d history ih => exact ih (nodup_apply h d)
  exact hfrom List.nodup_nil

/-- Looking a body up by way of its slot is looking it up by name. -/
theorem Registry.bind_lookup (r : Registry) (name : String) :
    ((r.lookup name).bind fun i => (r.rules[i]?).bind (·.2)) = r.body? name := by
  rw [lookup, body?]
  generalize r.rules = rules
  induction rules with
  | nil => rfl
  | cons rule rules ih =>
    obtain ⟨n, b⟩ := rule
    rw [List.findIdx?_cons, List.lookup_cons]
    by_cases h : n = name
    · subst h
      simp
    · have hne : (name == n) = false := beq_false_of_ne (Ne.symm h)
      rw [hne, ← ih, if_neg (by simpa using h), Option.bind_map]
      rfl

/-- A compiled reference leads to the compiled body of the rule, if it has one. -/
theorem Parser.compile_reference {r : Registry} {root : Node} {p : Parser}
    (h : Parser.compile r root = .ok p) (name : String) :
    (r.body? name).map (Node.compile r) =
      ((r.lookup name).bind fun i => (p.rules[i]?).join).map .ok := by
  rw [← r.bind_lookup name]
  cases r.lookup name with
  | none => rfl
  | some i => exact Parser.compile_slot h i

end Typestrip.Grammar
