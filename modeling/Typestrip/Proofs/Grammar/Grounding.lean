import Typestrip.Proofs.Grammar.Adequacy
import Typestrip.Proofs.Grammar.Diagnostics
import Typestrip.Proofs.Grammar.Nesting
import Typestrip.Proofs.Grammar.Recursion

/-!
# Where failures come from

In a grammar that has no choice without alternatives and no reference to a rule without a body, all
failures come from terminals that do not match and from rules that nest too deeply
(`Parser.parse_grounded`).
-/

namespace Typestrip.Grammar

mutual
/-- No choice in the node lacks alternatives, and all references name rules that are known. -/
def Node.filled (known : String → Bool) : Node → Bool
  | .terminal _ _ => true
  | .sequence _ ns => Node.filledAll known ns
  | .choice _ ns => !ns.isEmpty && Node.filledAll known ns
  | .repetition _ n => n.filled known
  | .reference _ name => known name

/-- All nodes of a list are filled. -/
def Node.filledAll (known : String → Bool) : List Node → Bool
  | [] => true
  | n :: ns => n.filled known && Node.filledAll known ns
end

theorem Node.filledAll_iff {known : String → Bool} {ns : List Node} :
    Node.filledAll known ns = true ↔ ∀ n ∈ ns, n.filled known = true := by
  induction ns with
  | nil => simp [filledAll]
  | cons n ns ih => rw [filledAll, Bool.and_eq_true, ih, List.forall_mem_cons]

/-- A failure of a node with the attributes is the failure that it was given. -/
theorem Attributes.eq_of_failing {a : Attributes} {e e' : ParseError}
    (h : a.failing e = .error e') : e = e' := by
  rw [failing] at h
  split at h
  · cases h
  · exact Except.error.inj h

namespace ParseError

theorem grounded_unmatched (pos : Nat) (expected : String) : (unmatched pos expected).Grounded := by
  intro part hpart _
  rcases part_iff.mp hpart with rfl | ⟨c, hc, -⟩
  · exact .inl ⟨pos, expected, rfl⟩
  · cases hc

theorem grounded_tooDeep (pos limit : Nat) : (tooDeep pos limit).Grounded := by
  intro part hpart _
  rcases part_iff.mp hpart with rfl | ⟨c, hc, -⟩
  · exact .inr ⟨pos, limit, rfl⟩
  · cases hc

/-- A failure that has causes is grounded in them. -/
theorem grounded_of_causes {e : ParseError} (hne : e.causes ≠ [])
    (h : ∀ c ∈ e.causes, c.Grounded) : e.Grounded := by
  intro part hpart hleaf
  rcases part_iff.mp hpart with rfl | ⟨c, hc, hpart⟩
  · exact absurd hleaf hne
  · exact h c hc part hpart hleaf

end ParseError

variable {bodies : String → Option Node} {known : String → Bool} {limit depth pos : Nat}
  {input : List Char} {n : Node}

/-- Matching a filled node fails only for the two reasons, if the rules are filled as well. -/
theorem Yields.grounded (hknown : ∀ name, known name = true → bodies name ≠ none)
    (hbodies : ∀ name body, bodies name = some body → body.filled known = true) {o : Outcome}
    (h : Yields bodies limit input depth n pos o) (hn : n.filled known = true) :
    ∀ e, o = .error e → e.Grounded := by
  have hmid {n : Node} {front back : List Node}
      (h : Node.filledAll known (front ++ n :: back) = true) : n.filled known = true :=
    Node.filledAll_iff.mp h n (List.mem_append_right front List.mem_cons_self)
  induction h with
  | literal | regex | sequence | choice | repetition | reference =>
    intro e he
    cases he
  | literalFailed | regexFailed =>
    intro e he
    obtain rfl := Attributes.eq_of_failing he
    exact ParseError.grounded_unmatched _ _
  | @sequenceFailed _ a front n back ss cause pos _ _ _ _ _ ih =>
    intro e he
    obtain rfl := Attributes.eq_of_failing he
    exact ParseError.grounded_of_causes (List.cons_ne_nil _ _)
      (List.forall_mem_singleton.mpr (ih (hmid hn) cause rfl))
  | sequenceFatal _ _ _ _ _ ih =>
    intro e he
    obtain rfl := Except.error.inj he
    exact ih (hmid hn) _ rfl
  | @choiceFailed _ a ns pos es hlen _ _ ih =>
    intro e he
    obtain rfl := Attributes.eq_of_failing he
    rw [Node.filled, Bool.and_eq_true, Bool.not_eq_true'] at hn
    have hns : ns ≠ [] := List.isEmpty_eq_false_iff.mp hn.1
    refine ParseError.grounded_of_causes (e := .exhausted pos es) (fun hes => hns ?_)
      fun cause hcause => ?_
    · obtain rfl : es = [] := hes
      exact List.length_eq_zero_iff.mp hlen.symm
    · -- the failure of an alternative
      obtain ⟨i, hi, rfl⟩ := List.mem_iff_getElem.mp hcause
      have hmem : ns[i]? = some ns[i] := List.getElem?_eq_getElem (hlen ▸ hi)
      exact ih i _ _ hmem (List.getElem?_eq_getElem hi)
        (Node.filledAll_iff.mp hn.2 _ (List.mem_of_getElem? hmem)) _ rfl
  | choiceFatal _ _ _ _ _ _ ih =>
    intro e he
    obtain rfl := Except.error.inj he
    rw [Node.filled, Bool.and_eq_true] at hn
    exact ih (hmid hn.2) _ rfl
  | repetitionFatal _ _ _ _ _ ih =>
    intro e he
    obtain rfl := Except.error.inj he
    exact ih hn _ rfl
  | unresolved hnone =>
    intro e he
    exact absurd hnone (hknown _ hn)
  | tooDeep =>
    intro e he
    obtain rfl := Except.error.inj he
    exact ParseError.grounded_tooDeep _ _
  | referenceFailed hbody _ _ ih =>
    intro e he
    obtain rfl := Attributes.eq_of_failing he
    exact ih (hbodies _ _ hbody) _ rfl

/-- The limit makes no difference to an outcome that is not stopped by it. -/
theorem plain_limit {rules : Rules} {m : Matcher} {left : Nat} {rest : List Char}
    (hpos : Text.fromBoundary? input pos = some rest)
    (h : Outcome.Settled (m.plain rules limit left pos rest)) (limit' : Nat) :
    m.plain rules limit' left pos rest = m.plain rules limit left pos rest := by
  have hside : (sameMemo input).SideBySide rules (fun _ => True) (enter rules limit left)
      (enter rules limit' (left + 0)) := sameMemo_sideBySide (Family.all rules) limit limit' 0 left
  have hbounded : Memo.off.Bounded input := by
    intro id pos s hk
    cases hk
  have hagree := Simulation.evaluate_follows (Family.all rules) hside (m := m) trivial hpos
    ⟨rfl, hbounded⟩
  exact (Simulation.Agree.eq_of_settled hagree h).1

/-- A grammar all of whose nodes are filled. -/
def Registry.filled (r : Registry) (root : Node) : Bool :=
  root.filled r.isDefined && r.rules.all fun rule => rule.2.all fun body => body.filled r.isDefined

/-- A parse fails only by terminals that do not match, by rules that nest too deeply and by input that
is left over. -/
theorem Parser.parse_grounded {r : Registry} {root : Node} (hfilled : r.filled root = true)
    {p : Parser} (hcompile : Parser.compile r root = .ok p) {member : Matcher → Prop}
    (F : Family p.rules member) (hid : Identified member) (hroot : member p.root)
    {options : Options} {input : List Char} {e : ParseError}
    (h : p.parse options input = .error e) (he : ∀ stop, e ≠ .leftOver stop) : e.Grounded := by
  rcases (partialBelow input).parse_failure rfl h with ⟨s, -, rfl⟩ | ⟨hmatch, -⟩
  · exact absurd rfl (he _)
  by_cases hset : e.IsTooDeep
  · cases e with
    | tooDeep pos limit => exact ParseError.grounded_tooDeep pos limit
    | _ => exact hset.elim
  · have hpos := Text.fromBoundary?_zero input
    have hsettled : Outcome.Settled (.error e) := fun e' he' => Except.error.inj he' ▸ hset
    obtain ⟨memo, hrun⟩ : ∃ memo, p.matchAt options.maxDepth 0 input (.empty options.memoize) =
      (.error e, memo) := ⟨_, Prod.ext hmatch rfl⟩
    obtain ⟨-, n, hplain⟩ :=
      exists_plain_of_run F hid hroot hpos (Memo.sound_empty _) hrun hsettled
    have hlimit := (plain_limit hpos (hplain ▸ hsettled) n).trans hplain
    have hyields : Yields r.body? n input 0 root 0 (.error e) :=
      (plain_eq_iff_yields (Parser.compile_reference hcompile) (Parser.compile_eq_ok hcompile).1
        hpos).mp hlimit
    rw [Registry.filled, Bool.and_eq_true] at hfilled
    refine hyields.grounded (fun name hname => Option.isSome_iff_ne_none.mp hname)
      (fun name body hbody => ?_) hfilled.1 e rfl
    have hmem := Build.mem_of_lookup (Option.join_eq_some_iff.mp hbody)
    have hrule := List.all_eq_true.mp hfilled.2 _ hmem
    rwa [Option.all_some] at hrule

end Typestrip.Grammar
