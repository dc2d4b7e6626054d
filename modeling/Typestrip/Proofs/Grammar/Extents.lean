import Typestrip.Proofs.Grammar.Bytes
import Typestrip.Proofs.Grammar.Forms

/-!
# How far matches reach

The outline of a node says how much of a text the node matches before anything is compiled
(`Node.outline`). All outcomes that are derived agree with it (`Yields.leaving`), and so does every
tree that records a match (`Tree.Reads.leaves`). Since an outline leaves one thing of a text, a tree
can be taken apart along a text that is known: which alternative was matched, and where each part of a
sequence begins and ends.
-/

namespace Typestrip.Grammar

/-! ## Outlines of nodes -/

/-- What a regular expression matches. One that cannot be read matches nothing. -/
def regexOutline (source : String) : Outline :=
  match Regex.Expr.ofSource? (anchoredSource source) with
  | some regex => .pattern regex
  | none => .choice []

mutual
/-- The outline of a node, where `slot` gives the numbers of the rules. -/
def Node.outline (slot : String → Option Nat) : Node → Outline
  | .terminal a (.literal text) => a.outline (.literal text.toList)
  | .terminal a (.regex source) => a.outline (regexOutline source)
  | .sequence a ns => a.outline (.sequence (Node.outlineAll slot ns))
  | .choice a ns => a.outline (.choice (Node.outlineAll slot ns))
  | .repetition a n => a.outline (.repetition (n.outline slot))
  | .reference a name => a.outline (.rule (slot name))

/-- The outlines of nodes. -/
def Node.outlineAll (slot : String → Option Nat) : List Node → List Outline
  | [] => []
  | n :: ns => n.outline slot :: Node.outlineAll slot ns
end

variable {slot : String → Option Nat} {outlines : Nat → Option Outline}
  {bodies : String → Option Node} {r : Registry} {n : Node} {ns : List Node} {m : Matcher}

theorem Node.outlineAll_eq_map (slot : String → Option Nat) (ns : List Node) :
    Node.outlineAll slot ns = ns.map (Node.outline slot) := by
  induction ns with
  | nil => rfl
  | cons n ns ih => rw [outlineAll, ih, List.map_cons]

/-- Compiling a node leaves its outline as it is. -/
theorem Node.outline_of_compile (h : n.compile r = .ok m) : m.outline = n.outline r.lookup := by
  induction m using Matcher.treeInduction generalizing n with
  | step m ih =>
    have hall : ∀ {ns : List Node} {ms : List Matcher}, (∀ m' ∈ ms, m' ∈ m.children) →
        List.Forall₂ (fun n m => Node.compile r n = .ok m) ns ms →
        ms.map Matcher.outline = ns.map (Node.outline r.lookup) := by
      intro ns ms hms hns
      induction hns with
      | nil => rfl
      | cons hn _ ihs =>
        obtain ⟨hm, hms⟩ := List.forall_mem_cons.mp hms
        rw [List.map_cons, List.map_cons, ih _ hm hn, ihs hms]
    cases n with
    | terminal a p =>
      cases p with
      | literal text =>
        obtain rfl := Except.ok.inj h
        rfl
      | regex source =>
        rw [Node.compile] at h
        split at h
        · next regex hregex =>
          obtain rfl := Except.ok.inj h
          rw [Matcher.outline, Node.outline, regexOutline, hregex]
        · cases h
    | sequence a ns =>
      obtain ⟨ms, hms, rfl⟩ := exists_of_map_eq_ok h
      have hparts := hall (fun m' (hm' : m' ∈ ms) => hm') (Node.compileAll_forall₂ hms)
      rw [Matcher.outline, Node.outline, Matcher.outlineAll_eq_map, Node.outlineAll_eq_map, hparts]
    | choice a ns =>
      obtain ⟨ms, hms, rfl⟩ := exists_of_map_eq_ok h
      have hparts := hall (fun m' (hm' : m' ∈ ms) => hm') (Node.compileAll_forall₂ hms)
      rw [Matcher.outline, Node.outline, Matcher.outlineAll_eq_map, Node.outlineAll_eq_map, hparts]
    | repetition a n =>
      obtain ⟨c, hc, rfl⟩ := exists_of_map_eq_ok h
      rw [Matcher.outline, Node.outline, ih c (List.mem_singleton_self c) hc]
    | reference a name =>
      obtain rfl := Except.ok.inj h
      rfl

mutual
/-- Identities have no part in the outline. -/
theorem Node.outline_form : ∀ n : Node, n.form.outline slot = n.outline slot
  | .terminal _ (.literal _) => rfl
  | .terminal _ (.regex _) => rfl
  | .sequence a ns => congrArg (fun os => a.outline (.sequence os)) (Node.outlineAll_form ns)
  | .choice a ns => congrArg (fun os => a.outline (.choice os)) (Node.outlineAll_form ns)
  | .repetition a n => congrArg (fun o => a.outline (.repetition o)) (Node.outline_form n)
  | .reference _ _ => rfl

theorem Node.outlineAll_form : ∀ ns : List Node,
    Node.outlineAll slot (Node.formAll ns) = Node.outlineAll slot ns
  | [] => rfl
  | n :: ns => congrArg₂ List.cons (Node.outline_form n) (Node.outlineAll_form ns)
end

section

variable (chars : String → List Char) (slot : String → Option Nat)

mutual
/-- The outline of a node, with the characters of texts taken by a given function. -/
def Node.outlineBy : Node → Outline
  | .terminal a (.literal text) => a.outline (.literal (chars text))
  | .terminal a (.regex source) => a.outline
    (match Regex.Expr.ofSource? (['\\', 'A', '(', '?', ':'] ++ chars source ++ [')']) with
      | some regex => .pattern regex
      | none => .choice [])
  | .sequence a ns => a.outline (.sequence (Node.outlineAllBy ns))
  | .choice a ns => a.outline (.choice (Node.outlineAllBy ns))
  | .repetition a n => a.outline (.repetition (Node.outlineBy n))
  | .reference a name => a.outline (.rule (slot name))

/-- The outlines of nodes, with the characters of texts taken by a given function. -/
def Node.outlineAllBy : List Node → List Outline
  | [] => []
  | n :: ns => Node.outlineBy n :: Node.outlineAllBy ns
end

end

mutual
theorem Node.outlineBy_toList : ∀ n : Node, n.outlineBy String.toList slot = n.outline slot
  | .terminal _ (.literal _) => rfl
  | .terminal _ (.regex _) => rfl
  | .sequence _ ns | .choice _ ns => by rw [outlineBy, outline, outlineAllBy_toList ns]
  | .repetition _ n => by rw [outlineBy, outline, outlineBy_toList n]
  | .reference _ _ => rfl

theorem Node.outlineAllBy_toList : ∀ ns : List Node,
    Node.outlineAllBy String.toList slot ns = Node.outlineAll slot ns
  | [] => rfl
  | n :: ns => by rw [outlineAllBy, outlineAll, outlineBy_toList n, outlineAllBy_toList ns]
end

/-- Outlines are evaluated with the characters taken from the bytes. -/
theorem Node.outline_eq_by (slot : String → Option Nat) :
    Node.outline slot = Node.outlineBy Utf8.charsOf slot := by
  funext n
  rw [Utf8.charsOf_eq, outlineBy_toList]

theorem Node.outlineAll_eq_by (slot : String → Option Nat) :
    Node.outlineAll slot = Node.outlineAllBy Utf8.charsOf slot := by
  funext ns
  rw [Utf8.charsOf_eq, outlineAllBy_toList]

/-- The outlines of the rules are those of their bodies. -/
def Depicts (slot : String → Option Nat) (outlines : Nat → Option Outline)
    (bodies : String → Option Node) : Prop :=
  ∀ ⦃name body⦄, bodies name = some body →
    ∃ i, slot name = some i ∧ outlines i = some (body.outline slot)

/-- The compiled rules depict the bodies, and the forms of the bodies. -/
theorem Parser.depicts {root : Node} {p : Parser} (hp : Parser.compile r root = .ok p) :
    Depicts r.lookup (outlineOf p.rules) (formsOf r.body?) := by
  intro name form hform
  obtain ⟨body, hbody, rfl⟩ := Option.map_eq_some_iff.mp hform
  have hlinked := Parser.compile_reference hp name
  rw [hbody, Option.map_some] at hlinked
  obtain ⟨m, hslot, hm⟩ := Option.map_eq_some_iff.mp hlinked.symm
  obtain ⟨i, hi, hrule⟩ := Option.bind_eq_some_iff.mp hslot
  refine ⟨i, hi, ?_⟩
  rw [outlineOf, hrule, Option.map_some, Node.outline_of_compile hm.symm, Node.outline_form]

/-! ## Outcomes that are derived -/

/-- The outcome of a match at the beginning of a text is what the outline leaves. -/
def Outcome.Leaving (outlines : Nat → Option Outline) (o : Outline) (cs : List Char) :
    Outcome → Prop
  | .ok s => ∃ rest, Text.fromBoundary? cs s.consumed = some rest ∧ Leaves outlines o cs (some rest)
  | .error e => e.isFatal = false → Leaves outlines o cs none

variable {o : Outline} {cs rest : List Char}

theorem Attributes.leaves_outline (a : Attributes) (h : Leaves outlines o cs (some rest)) :
    Leaves outlines (a.outline o) cs (some rest) := by
  have hnullable : Leaves outlines (if a.nullable then .optional o else o) cs (some rest) := by
    split
    · exact .optional h
    · exact h
  rw [outline]
  split
  · exact .kept hnullable
  · exact hnullable

theorem Attributes.leaving_failing (a : Attributes) {e : ParseError} (he : e.isFatal = false)
    (h : Leaves outlines o cs none) : (a.failing e).Leaving outlines (a.outline o) cs := by
  have hkept {o' : Outline} {r : Option (List Char)} (h : Leaves outlines o' cs r) :
      Leaves outlines (if a.capture.isSome then .kept o' else o') cs r := by
    split
    · exact .kept h
    · exact h
  rw [outline]
  by_cases hnull : a.nullable = true
  · have hfailing : a.failing e = .ok ⟨.null, 0⟩ := if_pos ⟨hnull, he⟩
    rw [hfailing, if_pos hnull]
    exact ⟨cs, Text.fromBoundary?_zero cs, hkept (.skipped h)⟩
  · have hfailing : a.failing e = .error e := if_neg fun h => hnull h.1
    rw [hfailing, if_neg hnull]
    exact fun _ => hkept h

section Rows

variable {input : List Char} {pos : Nat}

/-- Parts that match in turn are passed. -/
theorem leaves_append {ss : List Success} (hlen : ss.length = ns.length)
    (hpos : Text.fromBoundary? input pos = some cs)
    (h : ∀ i n s, ns[i]? = some n → ss[i]? = some s → ∀ cs,
      Text.fromBoundary? input (pos + taken (ss.take i)) = some cs →
      Outcome.Leaving outlines (n.outline slot) cs (.ok s)) :
    ∃ rest, Text.fromBoundary? input (pos + taken ss) = some rest ∧
      ∀ {os res}, Leaves outlines (.sequence os) rest res →
        Leaves outlines (.sequence (Node.outlineAll slot ns ++ os)) cs res := by
  induction ns generalizing ss pos cs with
  | nil =>
    obtain rfl := List.length_eq_zero_iff.mp hlen
    exact ⟨cs, hpos, id⟩
  | cons n ns ih =>
    obtain _ | ⟨s, ss⟩ := ss
    · cases hlen
    obtain ⟨mid, hmid, hleaves⟩ := h 0 n s rfl rfl cs hpos
    obtain ⟨rest, hrest, hrow⟩ := ih (Nat.succ.inj hlen) ((Text.fromBoundary?_add hpos _).trans hmid)
      fun i n s hn hs => by
        have hi := h (i + 1) n s hn hs
        rwa [List.take_succ_cons, taken_cons, ← Nat.add_assoc] at hi
    rw [taken_cons, ← Nat.add_assoc]
    exact ⟨rest, hrest, fun hs => .part hleaves trivial (hrow hs)⟩

/-- Rounds that take input are passed. -/
theorem leaves_rounds {ss : List Success} (hpos : Text.fromBoundary? input pos = some cs)
    (h : ∀ i s, ss[i]? = some s → ∀ cs,
      Text.fromBoundary? input (pos + taken (ss.take i)) = some cs →
      Outcome.Leaving outlines o cs (.ok s))
    (hsome : ∀ s ∈ ss, 0 < s.consumed) :
    ∃ rest, Text.fromBoundary? input (pos + taken ss) = some rest ∧
      ∀ {res}, Leaves outlines (.repetition o) rest res → Leaves outlines (.repetition o) cs res := by
  induction ss generalizing pos cs with
  | nil => exact ⟨cs, hpos, id⟩
  | cons s ss ih =>
    obtain ⟨hs, hss⟩ := List.forall_mem_cons.mp hsome
    obtain ⟨mid, hmid, hleaves⟩ := h 0 s rfl cs hpos
    obtain ⟨rest, hrest, hrow⟩ := ih ((Text.fromBoundary?_add hpos _).trans hmid)
      (fun i s hs => by
        have hi := h (i + 1) s hs
        rwa [List.take_succ_cons, taken_cons, ← Nat.add_assoc] at hi) hss
    rw [taken_cons, ← Nat.add_assoc]
    exact ⟨rest, hrest, fun hr =>
      .round hleaves (Text.length_lt_of_fromBoundary? hmid hs) trivial (hrow hr)⟩

/-- Alternatives that fail are passed. -/
theorem failed_of_errors {es : List ParseError} (hlen : es.length = ns.length)
    (h : ∀ (i : Nat) n e, ns[i]? = some n → es[i]? = some e →
      Outcome.Leaving outlines (n.outline slot) cs (.error e))
    (hes : ∀ e ∈ es, e.isFatal = false) :
    ∀ p ∈ Node.outlineAll slot ns, Leaves outlines p cs none := by
  rw [Node.outlineAll_eq_map]
  intro p hp
  obtain ⟨n, hn, rfl⟩ := List.mem_map.mp hp
  obtain ⟨i, hi, rfl⟩ := List.getElem_of_mem hn
  have hi' : i < es.length := hlen ▸ hi
  exact h i _ _ (List.getElem?_eq_getElem hi) (List.getElem?_eq_getElem hi')
    (hes _ (List.getElem_mem hi'))

/-- All outcomes that are derived are those of the outline. -/
theorem Yields.leaving (hd : Depicts slot outlines bodies) {limit depth : Nat} {out : Outcome}
    (h : Yields bodies limit input depth n pos out) :
    ∀ {cs}, Text.fromBoundary? input pos = some cs → out.Leaving outlines (n.outline slot) cs := by
  induction h with
  | literal h =>
    intro cs hcs
    obtain rfl := Option.some.inj (hcs.symm.trans h)
    exact ⟨_, Text.fromBoundary?_width _ _, Attributes.leaves_outline _ .literal⟩
  | literalFailed h hnot =>
    intro cs hcs
    obtain rfl := Option.some.inj (hcs.symm.trans h)
    exact Attributes.leaving_failing _ rfl (.literalFailed hnot)
  | @regex depth a source regex pos rest k hregex h hmatch =>
    intro cs hcs
    obtain rfl := Option.some.inj (hcs.symm.trans h)
    have hleaves : Leaves outlines (.pattern regex) cs ((regex.search? cs).map cs.drop) := .pattern
    rw [hmatch] at hleaves
    refine ⟨cs.drop k, ?_, Attributes.leaves_outline a ?_⟩
    · have hcut := Text.fromBoundary?_width (cs.take k) (cs.drop k)
      rwa [List.take_append_drop] at hcut
    · rw [regexOutline, hregex]
      exact hleaves
  | @regexFailed depth a source regex pos rest hregex h hmatch =>
    intro cs hcs
    obtain rfl := Option.some.inj (hcs.symm.trans h)
    have hleaves : Leaves outlines (.pattern regex) cs ((regex.search? cs).map cs.drop) := .pattern
    rw [hmatch] at hleaves
    refine Attributes.leaving_failing a rfl ?_
    rw [regexOutline, hregex]
    exact hleaves
  | @sequence depth a ns ss pos text after hlen _ _ _ ih =>
    intro cs hcs
    obtain ⟨rest, hrest, hrow⟩ := leaves_append hlen hcs ih
    have hparts := hrow .done
    rw [List.append_nil] at hparts
    exact ⟨rest, (Text.fromBoundary?_add hcs _).symm.trans hrest, a.leaves_outline hparts⟩
  | @sequenceFailed depth a front n back ss e pos hlen _ _ he ih ihn =>
    intro cs hcs
    obtain ⟨rest, hrest, hrow⟩ := leaves_append hlen hcs ih
    refine a.leaving_failing rfl ?_
    rw [Node.outlineAll_eq_map, List.map_append, ← Node.outlineAll_eq_map]
    exact hrow (.partFailed (ihn hrest he))
  | @choice depth a front n back s pos es hlen _ hes _ ih ihn =>
    intro cs hcs
    obtain ⟨rest, hrest, hleaves⟩ := ihn hcs
    refine ⟨rest, hrest, a.leaves_outline ?_⟩
    rw [Node.outlineAll_eq_map, List.map_append, ← Node.outlineAll_eq_map]
    exact Course.behind (.alternative hleaves) (failed_of_errors hlen (fun i n e hn he => ih i n e hn he hcs) hes)
  | @choiceFailed depth a ns pos es hlen _ hes ih =>
    intro cs hcs
    refine a.leaving_failing rfl ?_
    rw [← List.append_nil (Node.outlineAll slot ns)]
    exact Course.behind .exhausted (failed_of_errors hlen (fun i n e hn he => ih i n e hn he hcs) hes)
  | @repetition depth a n ss out pos _ hsome _ hzero hfatal ih ihn =>
    intro cs hcs
    obtain ⟨rest, hrest, hrow⟩ := leaves_rounds hcs ih hsome
    have hend := ihn hrest
    refine ⟨rest, (Text.fromBoundary?_add hcs _).symm.trans hrest, a.leaves_outline (hrow ?_)⟩
    cases out with
    | ok s =>
      obtain ⟨rest', hrest', hleaves⟩ := hend
      rw [hzero s rfl, Text.fromBoundary?_zero] at hrest'
      obtain rfl := Option.some.inj hrest'
      exact .idle hleaves
    | error e => exact .stop (hend (hfatal e rfl))
  | @reference depth a name body s pos hbody _ _ ih =>
    intro cs hcs
    obtain ⟨i, hi, hrule⟩ := hd hbody
    obtain ⟨rest, hrest, hleaves⟩ := ih hcs
    refine ⟨rest, hrest, a.leaves_outline ?_⟩
    rw [hi]
    exact .rule hrule hleaves
  | @referenceFailed depth a name body e pos hbody _ _ ih =>
    intro cs hcs
    obtain ⟨i, hi, hrule⟩ := hd hbody
    by_cases he : e.isFatal = true
    · rw [Attributes.failing, if_neg (by simp [he])]
      exact fun hnot => absurd (he.symm.trans hnot) Bool.true_eq_false.mp
    · have he := Bool.eq_false_of_not_eq_true he
      refine a.leaving_failing he ?_
      rw [hi]
      exact .rule hrule (ih hcs he)
  | sequenceFatal _ _ _ he | choiceFatal _ _ _ _ he | repetitionFatal _ _ _ he =>
    exact fun _ hnot => absurd (he.symm.trans hnot) (by simp)
  | unresolved | tooDeep => exact fun _ hnot => absurd hnot (by simp [ParseError.isFatal])

end Rows

/-! ## Trees that record a match -/

variable {limit depth pos : Nat} {input : List Char} {t : Tree}

/-- A nullable node matches nothing where it would fail otherwise. -/
theorem Yields.of_strict {e : ParseError} (hnull : n.attributes.nullable = true)
    (h : Yields bodies limit input depth n.strict pos (.error e)) (he : e.isFatal = false) :
    Yields bodies limit input depth n pos (.ok ⟨.null, 0⟩) := by
  have hfailing {e' : ParseError} {a : Attributes} (ha : n.strict.attributes = a)
      (h : .error e = a.failing e') : n.attributes.failing e' = .ok ⟨.null, 0⟩ := by
    rw [← ha, n.failing_strict] at h
    obtain rfl := Except.error.inj h
    exact if_pos ⟨hnull, he⟩
  generalize ho : (Except.error e : Outcome) = o at h
  generalize hn : n.strict = n' at h
  have hattributes : n.strict.attributes = n'.attributes := congrArg Node.attributes hn
  have hshape : n'.withAttributes n.attributes = n := by
    subst hn
    cases n <;> rfl
  have hkeep {o : Outcome}
      (h : Yields bodies limit input depth (n'.withAttributes n.attributes) pos o) :
      Yields bodies limit input depth n pos o := by rwa [hshape] at h
  cases h with
  | literalFailed hpos hnot =>
    rw [← hfailing hattributes ho]
    exact hkeep (.literalFailed hpos hnot)
  | regexFailed hregex hpos hnot =>
    rw [← hfailing hattributes ho]
    exact hkeep (.regexFailed hregex hpos hnot)
  | sequenceFailed hlen hss h hnot =>
    rw [← hfailing hattributes ho]
    exact hkeep (.sequenceFailed hlen hss h hnot)
  | choiceFailed hlen hes hall =>
    rw [← hfailing hattributes ho]
    exact hkeep (.choiceFailed hlen hes hall)
  | referenceFailed hbody hdepth h =>
    rw [← hfailing hattributes ho]
    exact hkeep (.referenceFailed hbody hdepth h)
  | sequenceFatal _ _ _ hfatal | choiceFatal _ _ _ _ hfatal | repetitionFatal _ _ _ hfatal =>
    obtain rfl := Except.error.inj ho
    exact absurd (he.symm.trans hfatal) Bool.false_ne_true
  | unresolved | tooDeep =>
    obtain rfl := Except.error.inj ho
    cases he
  | _ => cases ho

/-- What a tree records is derived. -/
theorem Grows.yields (h : Grows bodies limit input depth n pos t) :
    Yields bodies limit input depth n pos (.ok t.success) := by
  induction h with
  | literal hpos =>
    rw [Tree.success, Tree.value, String.ofList_toList]
    exact .literal hpos
  | regex hregex hpos hmatch => exact .regex hregex hpos hmatch
  | @sequence depth a ns ts pos after hlen _ hpos ih =>
    have hparts : ∀ i n s, ns[i]? = some n → (ts.map Tree.success)[i]? = some s →
        Yields bodies limit input depth n (pos + taken ((ts.map Tree.success).take i)) (.ok s) := by
      intro i n s hn hs
      rw [List.getElem?_map] at hs
      obtain ⟨t, ht, rfl⟩ := Option.map_eq_some_iff.mp hs
      rw [← List.map_take, Tree.taken_map_success]
      exact ih i n t hn ht
    have hyields := Yields.sequence (a := a) (by rw [List.length_map, hlen]) hparts hpos
      (Tree.taken_map_success ts).symm
    rwa [Tree.partsValue_map_success, Tree.taken_map_success] at hyields
  | choice hlen hes hall _ ih =>
    rw [Tree.success, Tree.text_branch_singleton]
    exact .choice hlen hes hall ih
  | @repetition depth a n ts o pos _ hsome hlast hzero hfatal ih =>
    have hrounds : ∀ i s, (ts.map Tree.success)[i]? = some s →
        Yields bodies limit input depth n (pos + taken ((ts.map Tree.success).take i)) (.ok s) := by
      intro i s hs
      rw [List.getElem?_map] at hs
      obtain ⟨t, ht, rfl⟩ := Option.map_eq_some_iff.mp hs
      rw [← List.map_take, Tree.taken_map_success]
      exact ih i t ht
    have htaken : ∀ s ∈ ts.map Tree.success, 0 < s.consumed := by
      intro s hs
      obtain ⟨t, ht, rfl⟩ := List.mem_map.mp hs
      exact Nat.pos_of_ne_zero fun hzero => hsome t ht (width_eq_zero_iff.mp hzero)
    rw [← Tree.taken_map_success] at hlast
    have hyields := Yields.repetition (a := a) hrounds htaken hlast hzero hfatal
    rw [Tree.taken_map_success, List.map_map] at hyields
    rw [Tree.success, Tree.value, Tree.valueAll_eq_map]
    exact hyields
  | reference hbody hdepth _ ih =>
    rw [Tree.success, Tree.text_branch_singleton]
    exact .reference hbody hdepth ih
  | skipped hnull h he => exact h.of_strict hnull he

/-! ## Trees along a text -/

namespace Tree

/-- The tree records a match of a node at the beginning of a text, which leaves the rest of it. -/
def Reads (bodies : String → Option Node) (n : Node) (cs rest : List Char) (t : Tree) : Prop :=
  ∃ limit input depth pos, Text.fromBoundary? input pos = some cs ∧
    Grows bodies limit input depth n pos t ∧ cs = t.text ++ rest

/-- The trees record matches of nodes in a row. -/
inductive ReadsAll (bodies : String → Option Node) :
    List Node → List Char → List Char → List Tree → Prop
  | nil {cs : List Char} : ReadsAll bodies [] cs cs []
  | cons {n : Node} {ns : List Node} {cs mid rest : List Char} {t : Tree} {ts : List Tree} :
      t.Reads bodies n cs mid → ReadsAll bodies ns mid rest ts →
        ReadsAll bodies (n :: ns) cs rest (t :: ts)

end Tree

theorem Grows.reads {cs rest : List Char} (h : Grows bodies limit input depth n pos t)
    (hpos : Text.fromBoundary? input pos = some cs) (htext : cs = t.text ++ rest) :
    t.Reads bodies n cs rest :=
  ⟨limit, input, depth, pos, hpos, h, htext⟩

namespace Tree

variable {a : Attributes} {cs rest : List Char}

namespace Reads

theorem of (h : t.Reads bodies n cs rest) : t.Of bodies n := by
  obtain ⟨limit, input, depth, pos, -, hgrows, -⟩ := h
  exact hgrows.of

theorem eq_append (h : t.Reads bodies n cs rest) : cs = t.text ++ rest := by
  obtain ⟨limit, input, depth, pos, -, -, htext⟩ := h
  exact htext

/-- What is left behind the tree is what the outline leaves. -/
theorem leaves (hd : Depicts slot outlines bodies) (h : t.Reads bodies n cs rest) :
    Leaves outlines (n.outline slot) cs (some rest) := by
  obtain ⟨limit, input, depth, pos, hpos, hgrows, rfl⟩ := h
  obtain ⟨rest', hrest', hleaves⟩ := hgrows.yields.leaving hd hpos
  rw [success, Text.fromBoundary?_width] at hrest'
  rwa [← Option.some.inj hrest'] at hleaves

end Reads

/-- Where it is known what the first part leaves, it is known where the others begin. -/
theorem ReadsAll.exists_part (hd : Depicts slot outlines bodies) {mid : List Char} {ts : List Tree}
    (h : ReadsAll bodies (n :: ns) cs rest ts)
    (hleaves : Leaves outlines (n.outline slot) cs (some mid)) :
    ∃ t us, ts = t :: us ∧ t.Reads bodies n cs mid ∧ ReadsAll bodies ns mid rest us := by
  cases h with
  | cons ht hus =>
    obtain rfl := Option.some.inj (hleaves.unique (ht.leaves hd))
    exact ⟨_, _, rfl, ht, hus⟩

/-- Trees that grow one behind the other record matches in a row. -/
theorem readsAll_of_row {limit depth pos : Nat} {input : List Char} {ts : List Tree}
    (hlen : ts.length = ns.length)
    (h : ∀ i n t, ns[i]? = some n → ts[i]? = some t →
      Grows bodies limit input depth n (pos + Text.width (textAll (ts.take i))) t)
    (hpos : Text.fromBoundary? input pos = some (textAll ts ++ rest)) :
    ReadsAll bodies ns (textAll ts ++ rest) rest ts := by
  induction ns generalizing ts pos with
  | nil =>
    obtain rfl := List.length_eq_zero_iff.mp hlen
    exact .nil
  | cons n ns ih =>
    obtain _ | ⟨t, ts⟩ := ts
    · cases hlen
    rw [textAll_cons, List.append_assoc] at hpos ⊢
    have hnext : Text.fromBoundary? input (pos + Text.width t.text) = some (textAll ts ++ rest) := by
      rw [Text.fromBoundary?_add hpos, Text.fromBoundary?_width]
    refine .cons ((h 0 n t rfl rfl).reads hpos rfl) (ih (Nat.succ.inj hlen) ?_ hnext)
    intro i n t hn ht
    have hi := h (i + 1) n t hn ht
    rwa [List.take_succ_cons, textAll_cons, Text.width_append, ← Nat.add_assoc] at hi

namespace Reads

theorem exists_parts (h : t.Reads bodies (.sequence a ns) cs rest) :
    (∃ ts, t = .branch (.sequence a ns) ts ∧ ReadsAll bodies ns cs rest ts) ∨
      a.nullable = true ∧ t = .skipped (.sequence a ns) ∧ cs = rest := by
  obtain ⟨limit, input, depth, pos, hpos, hgrows, rfl⟩ := h
  cases hgrows with
  | sequence hlen hparts => exact .inl ⟨_, rfl, readsAll_of_row hlen hparts hpos⟩
  | skipped hnull => exact .inr ⟨hnull, rfl, rfl⟩

/-- The alternatives in front of the one that matched have failed. -/
theorem exists_alternative (hd : Depicts slot outlines bodies)
    (h : t.Reads bodies (.choice a ns) cs rest) (ha : a.nullable = false) :
    ∃ front n back u, ns = front ++ n :: back ∧ t = .branch (.choice a ns) [u] ∧
      u.Reads bodies n cs rest ∧ ∀ p ∈ Node.outlineAll slot front, Leaves outlines p cs none := by
  obtain ⟨limit, input, depth, pos, hpos, hgrows, rfl⟩ := h
  cases hgrows with
  | choice hlen hes hfatal hu =>
    rw [text_branch_singleton] at hpos ⊢
    exact ⟨_, _, _, _, rfl, rfl, hu.reads hpos rfl, failed_of_errors hlen
      (fun i m e hm he => (hes i m e hm he).leaving hd hpos) hfatal⟩
  | skipped hnull => exact absurd (ha.symm.trans hnull) Bool.false_ne_true

/-- The rounds of a repetition take something. -/
theorem exists_rounds (h : t.Reads bodies (.repetition a n) cs rest) (ha : a.nullable = false) :
    ∃ ts, t = .branch (.repetition a n) ts ∧ ReadsAll bodies (ts.map fun _ => n) cs rest ts ∧
      ∀ u ∈ ts, u.text ≠ [] := by
  obtain ⟨limit, input, depth, pos, hpos, hgrows, rfl⟩ := h
  cases hgrows with
  | @repetition _ _ _ ts _ _ hrounds hsome =>
    have hrow : ∀ i m u, (ts.map fun _ => n)[i]? = some m → ts[i]? = some u →
        Grows bodies limit input depth m (pos + Text.width (textAll (ts.take i))) u := by
      intro i m u hm hu
      rw [List.getElem?_map, hu] at hm
      obtain rfl := Option.some.inj hm
      exact hrounds i u hu
    exact ⟨ts, rfl, readsAll_of_row (List.length_map _).symm hrow hpos, hsome⟩
  | skipped hnull => exact absurd (ha.symm.trans hnull) Bool.false_ne_true

theorem exists_body {name : String} {body : Node}
    (h : t.Reads bodies (.reference a name) cs rest) (ha : a.nullable = false)
    (hbody : bodies name = some body) :
    ∃ u, t = .branch (.reference a name) [u] ∧ u.Reads bodies body cs rest := by
  obtain ⟨limit, input, depth, pos, hpos, hgrows, rfl⟩ := h
  cases hgrows with
  | reference hbody' _ hu =>
    obtain rfl := Option.some.inj (hbody.symm.trans hbody')
    rw [text_branch_singleton] at hpos ⊢
    exact ⟨_, rfl, hu.reads hpos rfl⟩
  | skipped hnull => exact absurd (ha.symm.trans hnull) Bool.false_ne_true

end Reads

end Tree

end Typestrip.Grammar
