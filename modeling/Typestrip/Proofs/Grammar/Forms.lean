import Typestrip.Proofs.Grammar.Sharing
import Typestrip.Proofs.Grammar.Trees

/-!
# Forms of nodes

The form of a node is the node without the identities in it. It has the same matches with the same
values (`Yields.form`), so what a grammar means can be read off its forms. These can be written down
like the grammar itself, and `Build.Makes` compares the two: it tells the form of what is built and
the forms of the bodies that rules are given on the way, with one lemma for each step of building.
-/

namespace Typestrip.Grammar

/-- The attributes without the identity. -/
def Attributes.form (a : Attributes) : Attributes := { a with id := 0 }

mutual
/-- The node without the identities in it. -/
def Node.form : Node → Node
  | .terminal a p => .terminal a.form p
  | .sequence a ns => .sequence a.form (Node.formAll ns)
  | .choice a ns => .choice a.form (Node.formAll ns)
  | .repetition a n => .repetition a.form n.form
  | .reference a name => .reference a.form name

/-- The forms of nodes. -/
def Node.formAll : List Node → List Node
  | [] => []
  | n :: ns => n.form :: Node.formAll ns
end

theorem Node.formAll_eq_map (ns : List Node) : Node.formAll ns = ns.map Node.form := by
  induction ns with
  | nil => rfl
  | cons n ns ih => rw [formAll, ih, List.map_cons]

theorem Node.attributes_form (n : Node) : n.form.attributes = n.attributes.form := by
  cases n <;> rfl

theorem Node.children_form (n : Node) : n.form.children = n.children.map Node.form := by
  cases n <;> simp [Node.form, children, Node.formAll_eq_map]

/-- The parts of a compiled node are the compiled parts, which have the forms of the parts. -/
theorem Node.exists_child {r : Registry} {n c : Node} {m : Matcher} (hn : n.compile r = .ok m)
    {i : Nat} (hc : n.form.children[i]? = some c) :
    ∃ (n' : Node) (m' : Matcher), n'.form = c ∧ n'.compile r = .ok m' ∧
      m.children[i]? = some m' := by
  rw [n.children_form, List.getElem?_map] at hc
  obtain ⟨n', hn', rfl⟩ := Option.map_eq_some_iff.mp hc
  have hall := (Node.compile_eq_ok hn).2
  obtain ⟨hi, rfl⟩ := List.getElem?_eq_some_iff.mp hn'
  have hi' : i < m.children.length := hall.length_eq ▸ hi
  exact ⟨_, _, rfl, hall.get hi hi', List.getElem?_eq_getElem hi'⟩

/-! ## Matches of forms -/

/-- The forms of the bodies of rules. -/
def formsOf (bodies : String → Option Node) (name : String) : Option Node :=
  (bodies name).map Node.form

variable {bodies : String → Option Node} {limit depth pos : Nat} {input : List Char} {n : Node}

theorem partsValue_form (ns : List Node) (ss : List Success) (text : List Char) :
    partsValue (ns.map Node.form) ss text = partsValue ns ss text := by
  have hcapture (n : Node) : n.form.attributes.capture = n.attributes.capture := by
    rw [n.attributes_form, Attributes.form]
  have hany : (ns.map Node.form).any (·.attributes.capture.isSome) =
      ns.any (·.attributes.capture.isSome) := by
    rw [List.any_map]
    exact congrArg (ns.any ·) (funext fun n => by rw [Function.comp_apply, hcapture])
  rw [partsValue, partsValue, hany, List.zip_map_left, List.foldl_map]
  simp only [Prod.map_fst, Prod.map_snd, keep, hcapture, id_eq]

/-- The rows in which parts of a sequence or alternatives stand have forms of the same kind. -/
theorem forall_form_row {α : Type} {P Q : Nat → Node → α → Prop} {ns : List Node} {xs : List α}
    (h : ∀ (i : Nat) n x, ns[i]? = some n → xs[i]? = some x → P i n x)
    (hPQ : ∀ i n x, P i n x → Q i n.form x) :
    ∀ (i : Nat) n x, (ns.map Node.form)[i]? = some n → xs[i]? = some x → Q i n x := by
  intro i form x hform hx
  rw [List.getElem?_map] at hform
  obtain ⟨n, hn, rfl⟩ := Option.map_eq_some_iff.mp hform
  exact hPQ i n x (h i n x hn hx)

/-- The form of a node has the matches that the node has. -/
theorem Yields.form {o : Outcome} (h : Yields bodies limit input depth n pos o) :
    Yields (formsOf bodies) limit input depth n.form pos o := by
  induction h with
  | literal hpos => exact .literal hpos
  | literalFailed hpos hnot => exact .literalFailed hpos hnot
  | regex hregex hpos hmatch => exact .regex hregex hpos hmatch
  | regexFailed hregex hpos hnot => exact .regexFailed hregex hpos hnot
  | @sequence depth a ns ss pos text after hlen _ hpos hwidth ih =>
    rw [Node.form, Node.formAll_eq_map, ← partsValue_form ns]
    exact .sequence (by rw [hlen, List.length_map]) (forall_form_row ih fun _ _ _ h => h) hpos hwidth
  | sequenceFailed hlen _ _ he ih ihn =>
    rw [Node.form, Node.formAll_eq_map, List.map_append, List.map_cons]
    exact .sequenceFailed (by rw [hlen, List.length_map]) (forall_form_row ih fun _ _ _ h => h) ihn he
  | sequenceFatal hlen _ _ he ih ihn =>
    rw [Node.form, Node.formAll_eq_map, List.map_append, List.map_cons]
    exact .sequenceFatal (by rw [hlen, List.length_map]) (forall_form_row ih fun _ _ _ h => h) ihn he
  | choice hlen _ hall _ ih ihn =>
    rw [Node.form, Node.formAll_eq_map, List.map_append, List.map_cons]
    exact .choice (by rw [hlen, List.length_map]) (forall_form_row ih fun _ _ _ h => h) hall ihn
  | choiceFailed hlen _ hall ih =>
    rw [Node.form, Node.formAll_eq_map]
    exact .choiceFailed (by rw [hlen, List.length_map]) (forall_form_row ih fun _ _ _ h => h) hall
  | choiceFatal hlen _ hall _ he ih ihn =>
    rw [Node.form, Node.formAll_eq_map, List.map_append, List.map_cons]
    exact .choiceFatal (by rw [hlen, List.length_map]) (forall_form_row ih fun _ _ _ h => h) hall ihn he
  | repetition _ hsome _ hzero hfatal ih ihn => exact .repetition ih hsome ihn hzero hfatal
  | repetitionFatal _ hsome _ he ih ihn => exact .repetitionFatal ih hsome ihn he
  | unresolved hnone => exact .unresolved (by rw [formsOf, hnone]; rfl)
  | tooDeep hbody hdepth => exact .tooDeep (by rw [formsOf, hbody]; rfl) hdepth
  | reference hbody hdepth _ ih => exact .reference (by rw [formsOf, hbody]; rfl) hdepth ih
  | referenceFailed hbody hdepth _ ih =>
    exact .referenceFailed (by rw [formsOf, hbody]; rfl) hdepth ih

/-! ## Writing down forms -/

namespace Form

/-- The form of a literal. -/
def literal (text : String) : Node := .terminal { id := 0 } (.literal text)

/-- The form of a regular expression. -/
def regex (source : String) : Node := .terminal { id := 0 } (.regex source)

/-- The form of a sequence in which no literals are joined. -/
def sequence (ns : List Node) : Node := .sequence { id := 0 } ns

/-- The form of a choice. -/
def choice (ns : List Node) : Node := .choice { id := 0 } ns

/-- The form of a repetition. -/
def repetition (n : Node) : Node := .repetition { id := 0 } n

/-- The form of a reference. -/
def reference (name : String) : Node := .reference { id := 0 } name

/-- The form with other attributes. -/
def derive (change : Attributes → Attributes) (n : Node) : Node :=
  n.withAttributes (change n.attributes)

/-- The form of a nullable node. -/
def nullable (n : Node) : Node := derive (fun a => { a with nullable := true }) n

/-- The form of a node whose value is kept. -/
def capture (name : String) (n : Node) : Node := derive (fun a => { a with capture := some name }) n

/-- The form of a node that applies a function to the value. -/
def map (f : Value → Value) (n : Node) : Node :=
  derive (fun a => { a with reshape := some (composeReshape f a.reshape) }) n

/-- No two plain literals stand next to each other, so that none are joined. -/
def apart : List Node → Bool
  | m :: n :: ns => (m.plainLiteral?.isNone || n.plainLiteral?.isNone) && apart (n :: ns)
  | _ => true

end Form

/-! ## Trees of forms -/

/-- The tree with another node at its root. -/
def Tree.recast (n : Node) : Tree → Tree
  | .leaf _ text => .leaf n text
  | .skipped _ => .skipped n
  | .branch _ parts => .branch n parts

/-- A node with other attributes is matched in the same way, unless it may match nothing then. -/
theorem Tree.Of.exists_of_derive {t : Tree} {change : Attributes → Attributes}
    (h : t.Of bodies (Form.derive change n)) (hnull : ∀ a, (change a).nullable = a.nullable) :
    ∃ u : Tree, u.Of bodies n ∧ t = u.recast (Form.derive change n) := by
  have hskipped (h : (change n.attributes).nullable = true) : n.attributes.nullable = true :=
    (hnull _).symm.trans h
  cases n with
  | terminal a p =>
    cases p with
    | literal text =>
      cases h with
      | literal => exact ⟨_, .literal, rfl⟩
      | skipped h => exact ⟨_, .skipped (hskipped h), rfl⟩
    | regex source =>
      cases h with
      | regex hregex h => exact ⟨_, .regex hregex h, rfl⟩
      | skipped h => exact ⟨_, .skipped (hskipped h), rfl⟩
  | sequence a ns =>
    cases h with
    | sequence h => exact ⟨_, .sequence h, rfl⟩
    | skipped h => exact ⟨_, .skipped (hskipped h), rfl⟩
  | choice a ns =>
    cases h with
    | choice hn h => exact ⟨_, .choice hn h, rfl⟩
    | skipped h => exact ⟨_, .skipped (hskipped h), rfl⟩
  | repetition a n =>
    cases h with
    | repetition h => exact ⟨_, .repetition h, rfl⟩
    | skipped h => exact ⟨_, .skipped (hskipped h), rfl⟩
  | reference a name =>
    cases h with
    | reference hbody h => exact ⟨_, .reference hbody h, rfl⟩
    | skipped h => exact ⟨_, .skipped (hskipped h), rfl⟩

/-- Keeping the value of a node leaves the value as it is. -/
theorem Tree.Of.exists_of_capture {t : Tree} {name : String}
    (h : t.Of bodies (Form.capture name n)) :
    ∃ u : Tree, u.Of bodies n ∧ t = u.recast (Form.capture name n) ∧ t.value = u.value := by
  obtain ⟨u, hu, rfl⟩ := exists_of_derive h fun _ => rfl
  obtain rfl := hu.node_eq
  refine ⟨u, hu, rfl, ?_⟩
  cases u with
  | skipped => rfl
  | leaf m | branch m => cases m <;> rfl

theorem Attributes.reshaped_map (f : Value → Value) (a : Attributes) (v : Value) :
    ({ a with reshape := some (composeReshape f a.reshape) } : Attributes).reshaped v =
      f (a.reshaped v) := by
  rw [reshaped, reshaped]
  cases a.reshape <;> rfl

/-- A function that is applied to the value of a node is applied to the value of its match. -/
theorem Tree.Of.exists_of_map {t : Tree} {f : Value → Value} (hnull : n.attributes.nullable = false)
    (h : t.Of bodies (Form.map f n)) :
    ∃ u : Tree, u.Of bodies n ∧ t = u.recast (Form.map f n) ∧ t.value = f u.value := by
  obtain ⟨u, hu, rfl⟩ := exists_of_derive h fun _ => rfl
  obtain rfl := hu.node_eq
  refine ⟨u, hu, rfl, ?_⟩
  cases u with
  | skipped m =>
    cases hu with
    | skipped hskipped => exact absurd (hnull.symm.trans hskipped) Bool.false_ne_true
  | leaf m | branch m => cases m <;> exact Attributes.reshaped_map f _ _

@[simp] theorem Tree.text_recast (n : Node) (t : Tree) : (t.recast n).text = t.text := by
  cases t <;> rfl

@[simp] theorem Tree.recast_recast (n m : Node) (t : Tree) :
    (t.recast n).recast m = t.recast m := by
  cases t <;> rfl

theorem Tree.Within.recast {t u : Tree} (n : Node) (h : u.Within t) :
    u = t ∨ u.Within (t.recast n) := by
  cases h with
  | self => exact .inl rfl
  | inside hp h => exact .inr (.inside hp h)

/-! ## What is built -/

/-- What is built is good, and rules are given bodies of these forms, unless they have one already. -/
def Build.Makes {α : Type} (m : Build α) (rules : List (String × Node)) (good : α → Prop) : Prop :=
  ∀ b : Builder, b.Orderly → (m b).2.Orderly ∧ good (m b).1 ∧
    ∀ name, formsOf (m b).2.registry.body? name =
      (formsOf b.registry.body? name).or (rules.lookup name)

namespace Build

variable {α β : Type} {rules rules' : List (String × Node)} {good : α → Prop} {good' : β → Prop}

theorem Makes.pure {x : α} (h : good x) : Makes (pure x) [] good :=
  fun b hb => ⟨hb, h, fun name => by rw [List.lookup_nil, Option.or_none]; rfl⟩

theorem Makes.bind {m : Build α} {f : α → Build β} (hm : Makes m rules good)
    (hf : ∀ x, good x → Makes (f x) rules' good') : Makes (m >>= f) (rules ++ rules') good' := by
  intro b hb
  obtain ⟨hb', hx, hrules⟩ := hm b hb
  obtain ⟨hb'', hy, hrules'⟩ := hf _ hx _ hb'
  refine ⟨hb'', hy, fun name => ?_⟩
  rw [List.lookup_append, ← Option.or_assoc, ← hrules name]
  exact hrules' name

/-- A step that gives no rule a body. -/
theorem Makes.step {m : Build α} {f : α → Build β} (hm : Makes m [] good)
    (hf : ∀ x, good x → Makes (f x) rules' good') : Makes (m >>= f) rules' good' :=
  hm.bind hf

/-- A step that gives one rule a body. -/
theorem Makes.rule {rule : String × Node} {m : Build α} {f : α → Build β}
    (hm : Makes m [rule] good) (hf : ∀ x, good x → Makes (f x) rules' good') :
    Makes (m >>= f) (rule :: rules') good' :=
  hm.bind hf

/-- What is made from nothing. -/
theorem Makes.run {m : Build α} (h : Makes m rules good) :
    good (m.run {}).1 ∧ ∀ name, formsOf (m.run {}).2.registry.body? name = rules.lookup name := by
  obtain ⟨-, hgood, hrules⟩ := h {} (by simp [Builder.Orderly])
  exact ⟨hgood, hrules⟩

/-- A node that is made without rules. -/
theorem makes_new {f : NodeId → Node} {form : Node} (h : ∀ i, (f i).form = form) :
    Makes (return f (← freshId)) [] fun n => n.form = form :=
  fun b hb => ⟨hb, h _, fun name => by rw [List.lookup_nil, Option.or_none]; rfl⟩

theorem makes_literal (text : String) :
    Makes (literal text) [] fun n => n.form = Form.literal text := by
  intro b hb
  obtain ⟨hb', htext⟩ := literal_orderly text b hb
  refine ⟨hb', ?_, fun name => ?_⟩
  · rw [Node.eq_of_plainLiteral? htext]
    rfl
  · rw [List.lookup_nil, Option.or_none]
    unfold literal
    split <;> rfl

theorem makes_regex (source : String) :
    Makes (regex source) [] fun n => n.form = Form.regex source := makes_new fun _ => rfl

theorem map_form_eq {ns forms : List Node} (h : List.Forall₂ (fun n form => n.form = form) ns forms) :
    ns.map Node.form = forms := by
  induction h with
  | nil => rfl
  | cons hn _ ih => rw [List.map_cons, hn, ih]

theorem makes_choice {ns forms : List Node}
    (h : List.Forall₂ (fun n form => n.form = form) ns forms) :
    Makes (choice ns) [] fun n => n.form = Form.choice forms :=
  makes_new fun i => by rw [Node.form, Node.formAll_eq_map, map_form_eq h]; rfl

theorem makes_repetition {n form : Node} (h : n.form = form) :
    Makes (repetition n) [] fun n => n.form = Form.repetition form :=
  makes_new fun i => by rw [Node.form, h]; rfl

theorem makes_reference (name : String) :
    Makes (reference name) [] fun n => n.form = Form.reference name := makes_new fun _ => rfl

theorem makes_derive {n form : Node} (h : n.form = form) {change : Attributes → Attributes}
    (hchange : ∀ a i, ({ change a with id := i } : Attributes).form = change a.form) :
    Makes (derive n change) [] fun n => n.form = Form.derive change form := by
  refine makes_new fun i => ?_
  rw [← h, Form.derive, n.attributes_form, ← hchange n.attributes i]
  cases n <;> rfl

theorem makes_nullable {n form : Node} (h : n.form = form) :
    Makes (nullable n) [] fun n => n.form = Form.nullable form := makes_derive h fun _ _ => rfl

theorem makes_capture {n form : Node} (h : n.form = form) (name : String) :
    Makes (capture name n) [] fun n => n.form = Form.capture name form :=
  makes_derive h fun _ _ => rfl

theorem makes_map {n form : Node} (h : n.form = form) (f : Value → Value) :
    Makes (map f n) [] fun n => n.form = Form.map f form := makes_derive h fun _ _ => rfl

theorem plainLiteral?_form (n : Node) : n.form.plainLiteral? = n.plainLiteral? := by
  cases n with
  | terminal a p => cases p <;> rfl
  | _ => rfl

theorem joinChild_apart {found : List Node} {child : Node} (b : Builder)
    (h : Form.apart ((found.head?.toList ++ [child]).map Node.form) = true) :
    joinChild found child b = (child :: found, b) := by
  obtain _ | ⟨last, before⟩ := found
  · rfl
  · simp only [List.head?_cons, Option.toList_some, List.singleton_append, List.map_cons,
      List.map_nil, Form.apart, plainLiteral?_form, Bool.and_true, Bool.or_eq_true,
      Option.isNone_iff_eq_none] at h
    unfold joinChild
    cases hchild : child.plainLiteral? with
    | none => rfl
    | some next =>
      have hlast : last.plainLiteral? = none := h.resolve_right (by simp [hchild])
      simp only [hlast]
      rfl

/-- Where no literals stand next to each other, the children of a sequence are left alone. -/
theorem joinChildren_apart {found children : List Node} (b : Builder)
    (h : Form.apart ((found.head?.toList ++ children).map Node.form) = true) :
    joinChildren found children b = (children.reverse ++ found, b) := by
  induction children generalizing found with
  | nil => rfl
  | cons child children ih =>
    have hhead : Form.apart ((found.head?.toList ++ [child]).map Node.form) = true := by
      cases found with
      | nil => rfl
      | cons last before =>
        simp only [List.head?_cons, Option.toList_some, List.singleton_append, List.map_cons,
          List.map_nil, Form.apart, Bool.and_eq_true] at h ⊢
        exact ⟨h.1, trivial⟩
    have htail : Form.apart (([child] ++ children).map Node.form) = true := by
      cases found with
      | nil => exact h
      | cons last before =>
        simp only [List.head?_cons, Option.toList_some, List.singleton_append, List.map_cons,
          Form.apart, Bool.and_eq_true] at h ⊢
        exact h.2
    calc joinChildren found (child :: children) b
        = joinChildren (joinChild found child b).1 children (joinChild found child b).2 := rfl
      _ = joinChildren (child :: found) children b := by rw [joinChild_apart b hhead]
      _ = (children.reverse ++ child :: found, b) := ih htail
      _ = ((child :: children).reverse ++ found, b) := by
        rw [List.reverse_cons, List.append_assoc, List.singleton_append]

theorem makes_sequence {ns forms : List Node}
    (h : List.Forall₂ (fun n form => n.form = form) ns forms) (hapart : Form.apart forms = true) :
    Makes (sequence ns) [] fun n => n.form = Form.sequence forms := by
  intro b hb
  have h := map_form_eq h
  have hjoin : joinChildren [] ns b = (ns.reverse, b) := by
    rw [joinChildren_apart b (by rw [← h] at hapart; exact hapart), List.append_nil]
  have hsequence : sequence ns b =
      (.sequence { id := b.nextId } ns, { b with nextId := b.nextId + 1 }) := by
    calc sequence ns b
        = (.sequence { id := (joinChildren [] ns b).2.nextId } (joinChildren [] ns b).1.reverse,
            { (joinChildren [] ns b).2 with nextId := (joinChildren [] ns b).2.nextId + 1 }) := rfl
      _ = _ := by rw [hjoin, List.reverse_reverse]
  rw [hsequence]
  refine ⟨hb, ?_, fun name => by rw [List.lookup_nil, Option.or_none]⟩
  change Node.sequence _ (Node.formAll ns) = _
  rw [Node.formAll_eq_map, h]
  rfl

theorem makes_declare (name : String) : Makes (declare name) [] fun _ => True :=
  fun b hb => ⟨hb, trivial, fun n => by
    rw [List.lookup_nil, Option.or_none, formsOf, formsOf, ← b.registry.body?_declare name n]
    rfl⟩

theorem makes_define (name : String) {body form : Node} (h : body.form = form) :
    Makes (define name body) [(name, form)] fun _ => True := by
  intro b hb
  refine ⟨hb, trivial, fun n => ?_⟩
  have hbody : (define name body b).2.registry.body? n =
      (b.registry.body? n).or ((Declaration.define name body).body? n) :=
    b.registry.body?_define name n body
  rw [formsOf, hbody, formsOf, Option.map_or, Declaration.body?, List.lookup_cons, List.lookup_nil]
  congr 1
  by_cases hn : name = n
  · subst hn
    simp [h]
  · simp [hn, beq_eq_false_iff_ne.mpr (Ne.symm hn)]

theorem makes_symbol {name : String} {body : Build Node} {form : Node}
    (h : Makes body [] fun n => n.form = form) :
    Makes (symbol name body) [(name, form)] fun n => n.form = Form.reference name :=
  .step (makes_declare name) fun _ _ => .step h fun _ hbody =>
    .rule (makes_define name hbody) fun _ _ => makes_reference name

end Build

end Typestrip.Grammar
