import Mathlib.Data.Finset.Prod
import Typestrip.Proofs.Grammar.Recursion

/-!
# Nothing is evaluated twice

The memo is told the outcome of a node only when the node has been evaluated. So there is one way to
evaluate a node twice at a position: to ask for it while it is being evaluated there. That is a task
inside itself, and then the parse fails by depth (`not_settled_of_recursion`). In any other parse
all evaluations by way of the memo are of different nodes or at different positions, each is a
question that the memo could not answer, and each leaves one entry behind (`Memo.Learns`).

Main statement: `Parser.parseDetailed_once`.
-/

namespace Typestrip.Grammar

/-! ## What a memo learns -/

/-- A node and a position. -/
abbrev Key := NodeId × Nat

namespace Memo

variable {memo memo' memo'' : Memo} {log log' : List Key} {id : NodeId} {pos : Nat}

/-- What becomes of a memo that is switched on while the keys in `log` are evaluated, and nothing
else: none of them was known, and each is a miss and an entry more. -/
structure Learns (memo : Memo) (log : List Key) (memo' : Memo) : Prop where
  enabled : memo'.enabled = true
  nodup : log.Nodup
  unknown : ∀ key ∈ log, memo.knows key.1 key.2 = none
  knows : ∀ id pos, memo'.knows id pos = none ↔ memo.knows id pos = none ∧ (id, pos) ∉ log
  misses : memo'.misses = memo.misses + log.length
  size : memo'.entries.size = memo.entries.size + log.length

theorem Learns.nothing (h : memo.enabled = true) : memo.Learns [] memo where
  enabled := h
  nodup := .nil
  unknown := by simp
  knows := by simp
  misses := rfl
  size := rfl

/-- A question that has an answer. -/
theorem Learns.answered {o : Outcome} (h : memo.knows id pos = some o) :
    memo.Learns [] (memo.find id pos).2 where
  enabled := (memo.find_snd id pos).1.trans (enabled_of_knows h)
  nodup := .nil
  unknown := by simp
  knows := by simp
  misses := misses_find_of_knows h
  size := by rw [(memo.find_snd id pos).2, List.length_nil, Nat.add_zero]

theorem Learns.trans (h : memo.Learns log memo') (h' : memo'.Learns log' memo'') :
    memo.Learns (log ++ log') memo'' where
  enabled := h'.enabled
  nodup := by
    refine List.nodup_append'.mpr ⟨h.nodup, h'.nodup, fun key hkey hkey' => ?_⟩
    -- what was evaluated first is known by then
    have hunknown := (h.knows _ _).mp (h'.unknown key hkey')
    exact hunknown.2 hkey
  unknown := by
    intro key hkey
    rcases List.mem_append.mp hkey with hkey | hkey
    · exact h.unknown key hkey
    · exact ((h.knows _ _).mp (h'.unknown key hkey)).1
  knows id pos := by rw [h'.knows, h.knows, List.mem_append, not_or, and_assoc]
  misses := by rw [h'.misses, h.misses, List.length_append, Nat.add_assoc]
  size := by rw [h'.size, h.size, List.length_append, Nat.add_assoc]

/-- A question that has no answer, and the evaluation that gives one, if the question does not come
up in its course. -/
theorem Learns.evaluated (henabled : memo.enabled = true) (hk : memo.knows id pos = none)
    (h : (memo.find id pos).2.Learns log memo') (hlog : (id, pos) ∉ log) (o : Outcome) :
    memo.Learns ((id, pos) :: log) (memo'.insert id pos o) where
  enabled := by rw [enabled_insert, h.enabled]
  nodup := List.nodup_cons.mpr ⟨hlog, h.nodup⟩
  unknown := by
    refine List.forall_mem_cons.mpr ⟨hk, fun key hkey => ?_⟩
    rw [← memo.knows_find id pos]
    exact h.unknown key hkey
  knows id' pos' := by
    rw [knows_insert, h.enabled, List.mem_cons]
    split
    · next hkey => simp [hkey.2]
    · next hkey =>
      have hne : (id', pos') ≠ (id, pos) := fun heq => hkey ⟨rfl, heq.symm⟩
      rw [h.knows, knows_find]
      simp only [hne, false_or]
  misses := by
    rw [misses_insert, h.misses, misses_find_of_not_knows henabled hk, List.length_cons]
    omega
  size := by
    have hnew : memo'.knows id pos = none :=
      (h.knows id pos).mpr ⟨by rw [knows_find, hk], hlog⟩
    rw [size_insert h.enabled hnew, h.size, (memo.find_snd id pos).2, List.length_cons,
      Nat.add_assoc]

end Memo

/-! ## The memo along the calls -/

variable {rules : Rules} {limit : Nat} {input : List Char} {member : Matcher → Prop}

/-- The memo with which a frame ends. -/
def Frame.after (rules : Rules) (limit : Nat) (x : Frame) : Memo :=
  let entering := Grammar.enter rules limit x.left
  match x.task with
  | .run m => (m.run rules entering x.pos x.rest x.memo).2
  | .ask m => (memoized m.attributes.id (m.evaluate rules entering) x.pos x.rest x.memo).2
  | .evaluate m => (m.evaluate rules entering x.pos x.rest x.memo).2
  | .parts ms fields => (Matcher.evaluateAll rules entering ms fields x.pos x.rest x.memo).2
  | .alternatives ms failures =>
    (Matcher.evaluateFirst rules entering ms failures x.pos x.rest x.memo).2
  | .rounds child items => (iterate (child.run rules entering) items x.pos x.rest x.memo).2
  | .enter slot =>
    match (rules[slot]?).join with
    | some body => (entering body x.pos x.rest x.memo).2
    | none => x.memo

/-- Calls that hand the memo on from one to the next. -/
inductive Passes (rules : Rules) (limit : Nat) : Memo → List Frame → Memo → Prop
  | nil {memo} : Passes rules limit memo [] memo
  | cons {y ys memo} : Passes rules limit (y.after rules limit) ys memo →
      Passes rules limit y.memo (y :: ys) memo

theorem Passes.one {y : Frame} {memo : Memo} (h : y.after rules limit = memo) :
    Passes rules limit y.memo [y] memo :=
  .cons (h ▸ .nil)

theorem Attributes.finish_snd {α : Type} (a : Attributes) (f : α → Success)
    (x : Except ParseError α × Memo) : (a.finish f x).2 = x.2 := by
  rcases x with ⟨_ | _, _⟩ <;> rfl

theorem passes_evaluate (m : Matcher) (left pos : Nat) (rest : List Char) (memo : Memo) :
    Passes rules limit memo (Frame.calls rules limit ⟨.evaluate m, left, pos, rest, memo⟩)
      (Frame.after rules limit ⟨.evaluate m, left, pos, rest, memo⟩) := by
  cases m with
  | literal a text expected =>
    simp only [Frame.after, Matcher.evaluate_literal]
    exact .nil
  | pattern a regex expected =>
    simp only [Frame.after, Matcher.evaluate_pattern]
    exact .nil
  | sequence a ms =>
    simp only [Frame.after, Matcher.evaluate_sequence, Attributes.finish_snd]
    exact .one (y := ⟨.parts ms [], left, pos, rest, memo⟩) rfl
  | choice a ms =>
    simp only [Frame.after, Matcher.evaluate_choice, Attributes.finish_snd]
    exact .one (y := ⟨.alternatives ms [], left, pos, rest, memo⟩) rfl
  | repetition a child =>
    simp only [Frame.after, Matcher.evaluate_repetition, Attributes.finish_snd]
    exact .one (y := ⟨.rounds child [], left, pos, rest, memo⟩) rfl
  | rule a name slot =>
    cases hbody : slot.bind fun i => (rules[i]?).join with
    | none =>
      simp only [Frame.after, Matcher.evaluate_rule_none _ _ _ _ _ _ _ hbody]
      cases slot with
      | none => exact .nil
      | some i =>
        have hi : (rules[i]?).join = none := hbody
        simp only [Frame.calls, hi, Option.isSome_none, Bool.false_eq_true, if_false]
        exact .nil
    | some body =>
      simp only [Frame.after, Matcher.evaluate_rule _ _ _ _ _ _ _ hbody, Attributes.finish_snd]
      obtain ⟨i, rfl, hi⟩ := Option.bind_eq_some_iff.mp hbody
      simp only [Frame.calls, hi, Option.isSome_some, if_true]
      refine .one (y := ⟨.enter i, left, pos, rest, memo⟩) ?_
      simp only [Frame.after, hi]

/-- Whatever does not ask the memo leaves it to its calls. -/
theorem Frame.passes {x : Frame} (hx : ∀ m, x.task ≠ .ask m) :
    Passes rules limit x.memo (x.calls rules limit) (x.after rules limit) := by
  obtain ⟨task, left, pos, rest, memo⟩ := x
  cases task with
  | ask m => exact absurd rfl (hx m)
  | run m =>
    refine .one (y := ⟨if m.isTerminal then .ask m else .evaluate m, left, pos, rest, memo⟩) ?_
    cases hm : m.isTerminal with
    | true => simp only [Frame.after, Matcher.run, hm, if_true]
    | false => simp only [Frame.after, Matcher.run, hm, Bool.false_eq_true, if_false]
  | evaluate m => exact passes_evaluate m left pos rest memo
  | parts ms fields =>
    cases ms with
    | nil =>
      simp only [Frame.after, Matcher.evaluateAll]
      exact .nil
    | cons m ms =>
      refine .cons (y := ⟨.ask m, left, pos, rest, memo⟩) ?_
      simp only [Frame.after, Matcher.evaluateAll]
      rcases memoized _ _ pos rest memo with ⟨e | s, memo'⟩
      · exact .nil
      · exact .one (y := ⟨.parts ms (keep m.attributes s.value fields), left, pos + s.consumed,
          Text.dropBytes rest s.consumed, memo'⟩) rfl
  | alternatives ms failures =>
    cases ms with
    | nil =>
      simp only [Frame.after, Matcher.evaluateFirst]
      exact .nil
    | cons m ms =>
      refine .cons (y := ⟨.ask m, left, pos, rest, memo⟩) ?_
      simp only [Frame.after, Matcher.evaluateFirst]
      rcases memoized _ _ pos rest memo with ⟨e | s, memo'⟩
      · dsimp only
        split
        · exact .nil
        · exact .one (y := ⟨.alternatives ms (e :: failures), left, pos, rest, memo'⟩) rfl
      · exact .nil
  | rounds child items =>
    refine .cons (y := ⟨.run child, left, pos, rest, memo⟩) ?_
    simp only [Frame.after]
    rw [iterate]
    rcases child.run rules _ pos rest memo with ⟨e | s, memo'⟩
    · exact .nil
    · cases hs : s.consumed with
      | zero =>
        simp only [hs]
        exact .nil
      | succ n =>
        cases rest with
        | nil =>
          simp only [hs]
          exact .nil
        | cons c cs =>
          simp only [hs]
          exact .one (y := ⟨.rounds child (s.value :: items), left, pos + (n + 1),
            Text.dropBytes (c :: cs) (n + 1), memo'⟩) rfl
  | enter slot =>
    cases hbody : (rules[slot]?).join with
    | none =>
      simp only [Frame.after, hbody]
      cases left with
      | zero => exact .nil
      | succ left =>
        simp only [Frame.calls, hbody]
        exact .nil
    | some body =>
      simp only [Frame.after, hbody]
      cases left with
      | zero =>
        rw [Grammar.enter]
        exact .nil
      | succ left =>
        rw [Grammar.enter]
        simp only [Frame.calls, hbody]
        exact .one (y := ⟨.run body, left, pos, rest, memo⟩) rfl

/-! ## The evaluations of a parse -/

/-- The key that a frame asks for if the memo does not know it. -/
def Frame.misses (x : Frame) : List Key :=
  match x.task with
  | .ask m => if (x.memo.knows m.attributes.id x.pos).isNone then [(m.attributes.id, x.pos)] else []
  | _ => []

/-- The keys that are evaluated by way of the memo in the course of a frame, in order. -/
noncomputable def Frame.evaluations (rules : Rules) (limit : Nat) (x : Frame) : List Key :=
  x.misses ++ (x.calls rules limit).attach.flatMap fun y => y.1.evaluations rules limit
termination_by (calls_wellFounded rules limit).wrap x
decreasing_by exact calls_of_mem y.2

theorem Frame.evaluations_eq (x : Frame) : x.evaluations rules limit =
    x.misses ++ (x.calls rules limit).flatMap (Frame.evaluations rules limit) := by
  rw [evaluations]
  simp

/-- The keys that are evaluated by way of the memo in a parse, in order. -/
noncomputable def Parser.evaluations (p : Parser) (options : Options) (input : List Char) :
    List Key :=
  (p.start options input).evaluations p.rules options.maxDepth

theorem Frame.mem_misses {x : Frame} {key : Key} : key ∈ x.misses ↔
    ∃ m, x.task = .ask m ∧ x.memo.knows m.attributes.id x.pos = none ∧
      key = (m.attributes.id, x.pos) := by
  obtain ⟨task, left, pos, rest, memo⟩ := x
  cases task with
  | ask m =>
    simp only [misses]
    split
    · next hk => simp [Option.isNone_iff_eq_none.mp hk]
    · next hk => simpa using fun h => absurd (Option.isNone_iff_eq_none.mpr h) hk
  | _ => simp [misses]

/-- What is evaluated by way of the memo in the course of a frame is what some moment of it asks for
in vain. -/
theorem Frame.mem_evaluations {x : Frame} {key : Key} : key ∈ x.evaluations rules limit ↔
    ∃ y, Relation.ReflTransGen (Calls rules limit) x y ∧ key ∈ y.misses := by
  induction x using (calls_wellFounded rules limit).induction with
  | _ x ih =>
    rw [evaluations_eq, List.mem_append, List.mem_flatMap]
    constructor
    · rintro (hkey | ⟨y, hy, hkey⟩)
      · exact ⟨x, .refl, hkey⟩
      · obtain ⟨z, hyz, hz⟩ := (ih y (calls_of_mem hy)).mp hkey
        exact ⟨z, .head (calls_of_mem hy) hyz, hz⟩
    · rintro ⟨z, hxz, hz⟩
      rcases Relation.ReflTransGen.cases_head hxz with rfl | ⟨y, hcall, hyz⟩
      · exact .inl hz
      · exact .inr ⟨y, hcall.mem_calls, (ih y hcall).mpr ⟨z, hyz, hz⟩⟩

/-! ## No evaluation inside itself -/

theorem exists_plain_of_asked (F : Family rules member) (hid : Identified member) {x : Frame}
    {m : Matcher} (hx : x.Placed rules limit input member) (htask : x.task = .ask m)
    (hset : x.Settled rules limit) : ∃ n, (x.plain n).Settled rules limit := by
  obtain ⟨task, left, pos, rest, memo⟩ := x
  obtain rfl : task = .ask m := htask
  have hm := hx.asked rfl
  rcases hrun : memoized m.attributes.id (m.evaluate rules (enter rules limit left)) pos rest memo
    with ⟨o, memo'⟩
  have ho : Outcome.Settled o := by
    intro e he
    refine hset e ?_
    simp only [Frame.failure, hrun, he, failure?_error]
  obtain ⟨-, n, hplain⟩ := exists_plain_of_ask F hid hm hx.boundary hx.sound hrun ho
  exact ⟨n, Frame.settled_ask_off.mpr (hplain ▸ ho)⟩

/-- What is being evaluated by way of the memo is not evaluated so inside itself. -/
theorem Calls.not_mem_evaluations (F : Family rules member) (hid : Identified member) {x y : Frame}
    (h : Calls rules limit x y) (hx : x.Placed rules limit input member)
    (hset : x.Settled rules limit) {key : Key} (hkey : key ∈ x.misses) :
    key ∉ y.evaluations rules limit := by
  intro hmem
  obtain ⟨z, hyz, hz⟩ := Frame.mem_evaluations.mp hmem
  obtain ⟨m, htask, -, rfl⟩ := Frame.mem_misses.mp hkey
  obtain ⟨m', htask', -, hsame⟩ := Frame.mem_misses.mp hz
  obtain ⟨hids, hpos⟩ := Prod.mk.inj hsame
  -- it would be the same node, as their identities are the same
  have hxz : Relation.TransGen (Calls rules limit) x z := .head' h hyz
  have hplaced := hx.reached F hid hxz.to_reflTransGen
  obtain rfl := hid (hx.asked htask) (hplaced.asked htask') hids
  obtain ⟨n, hn⟩ := exists_plain_of_asked F hid hx htask hset
  exact not_settled_of_recursion F hid hx hxz htask htask' hpos n hn

theorem Passes.learns {memo memo' : Memo} {ys : List Frame} (h : Passes rules limit memo ys memo')
    (hon : memo.enabled = true)
    (hys : ∀ y ∈ ys, y.memo.enabled = true →
      y.memo.Learns (y.evaluations rules limit) (y.after rules limit)) :
    memo.Learns (ys.flatMap (Frame.evaluations rules limit)) memo' := by
  induction h with
  | nil => exact .nothing hon
  | cons _ ih =>
    obtain ⟨hy, hys⟩ := List.forall_mem_cons.mp hys
    have hfirst := hy hon
    exact hfirst.trans (ih hfirst.enabled hys)

section Asked

variable {m : Matcher} {left pos : Nat} {rest : List Char} {memo : Memo}

theorem calls_of_knows {o : Outcome} (h : memo.knows m.attributes.id pos = some o) :
    Frame.calls rules limit ⟨.ask m, left, pos, rest, memo⟩ = [] := by
  rw [Frame.calls, Memo.find_eq_of_knows h]

theorem calls_of_not_knows (h : memo.knows m.attributes.id pos = none) :
    Frame.calls rules limit ⟨.ask m, left, pos, rest, memo⟩ =
      [⟨.evaluate m, left, pos, rest, (memo.find m.attributes.id pos).2⟩] := by
  rw [Frame.calls, Memo.find_eq_of_knows h]

theorem learns_of_ask (F : Family rules member) (hid : Identified member)
    (hx : Frame.Placed rules limit input member ⟨.ask m, left, pos, rest, memo⟩)
    (hset : Frame.Settled rules limit ⟨.ask m, left, pos, rest, memo⟩)
    (hon : memo.enabled = true)
    (hcalls : ∀ y ∈ Frame.calls rules limit ⟨.ask m, left, pos, rest, memo⟩,
      y.memo.enabled = true → y.memo.Learns (y.evaluations rules limit) (y.after rules limit)) :
    memo.Learns (Frame.evaluations rules limit ⟨.ask m, left, pos, rest, memo⟩)
      (Frame.after rules limit ⟨.ask m, left, pos, rest, memo⟩) := by
  rw [Frame.evaluations_eq]
  cases hk : memo.knows m.attributes.id pos with
  | some o =>
    simp only [Frame.misses, hk, calls_of_knows hk, Frame.after, memoized_of_knows hk]
    exact .answered hk
  | none =>
    -- the one call is the evaluation, and what it ends with is remembered
    rw [calls_of_not_knows hk] at hcalls ⊢
    have hcall : Calls rules limit ⟨.ask m, left, pos, rest, memo⟩ _ :=
      .ask (Memo.find_eq_of_knows hk)
    have hinside := hcall.not_mem_evaluations F hid hx hset
      (Frame.mem_misses.mpr ⟨m, rfl, hk, rfl⟩)
    have hlearns := hcalls _ (List.mem_singleton_self _) ((memo.find_snd _ _).1.trans hon)
    simp only [Frame.misses, hk, Frame.after, memoized_of_not_knows hk, Option.isNone_none, if_true,
      List.flatMap_cons, List.flatMap_nil, List.append_nil, List.singleton_append]
    exact hlearns.evaluated hon hk hinside _

end Asked

/-- In the course of a frame that does not fail by depth the memo learns what is evaluated. -/
theorem Frame.Placed.learns (F : Family rules member) (hid : Identified member) {x : Frame}
    (hx : x.Placed rules limit input member) (hset : x.Settled rules limit)
    (hon : x.memo.enabled = true) :
    x.memo.Learns (x.evaluations rules limit) (x.after rules limit) := by
  induction x using (calls_wellFounded rules limit).induction with
  | _ x ih =>
    have hcalls : ∀ y ∈ x.calls rules limit, y.memo.enabled = true →
        y.memo.Learns (y.evaluations rules limit) (y.after rules limit) := by
      intro y hy
      have hcall := calls_of_mem hy
      exact ih y hcall (hcall.placed F hid hx) (hcall.settled hset)
    by_cases hask : ∃ m, x.task = .ask m
    · obtain ⟨m, htask⟩ := hask
      obtain ⟨task, left, pos, rest, memo⟩ := x
      obtain rfl : task = .ask m := htask
      exact learns_of_ask F hid hx hset hon hcalls
    · have hnone : x.misses = [] := List.eq_nil_iff_forall_not_mem.mpr fun key hkey =>
        hask ((mem_misses.mp hkey).imp fun m h => h.1)
      rw [evaluations_eq, hnone]
      exact (Frame.passes fun m h => hask ⟨m, h⟩).learns hon hcalls

/-! ## How many keys there are -/

/-- The identities of a node and of all nodes below it. -/
def Matcher.identities (m : Matcher) : List NodeId :=
  m.attributes.id :: m.children.attach.flatMap fun c => c.1.identities
termination_by m
decreasing_by exact Matcher.sizeOf_lt_of_mem_children c.2

theorem Matcher.identities_eq (m : Matcher) :
    m.identities = m.attributes.id :: m.children.flatMap Matcher.identities := by
  rw [identities]
  simp

/-- The different identities in the root and the rules of a parser. -/
def Parser.identities (p : Parser) : Finset NodeId :=
  ((p.root :: p.rules.toList.filterMap id).flatMap Matcher.identities).toFinset

/-- The nodes of a parser that was built: identities are not shared among them, and all are
counted. -/
theorem Parser.Built.exists_counted {p : Parser} (h : p.Built) :
    ∃ member, Family p.rules member ∧ Identified member ∧ member p.root ∧
      ∀ m, member m → m.attributes.id ∈ p.identities := by
  obtain ⟨member, F, hid, hroot⟩ := h.exists_family
  have hcounted {m : Matcher} (hm : m ∈ p.root :: p.rules.toList.filterMap id) {i : NodeId}
      (hi : i ∈ m.identities) : i ∈ p.identities :=
    List.mem_toFinset.mpr (List.mem_flatMap.mpr ⟨m, hm, hi⟩)
  refine ⟨fun m => member m ∧ ∀ i ∈ m.identities, i ∈ p.identities, ⟨?_, ?_⟩,
    fun m m' hm hm' => hid hm.1 hm'.1, ⟨hroot, fun i => hcounted List.mem_cons_self⟩, ?_⟩
  · rintro m c ⟨hm, hids⟩ hc
    refine ⟨F.children hm hc, fun i hi => hids i ?_⟩
    rw [Matcher.identities_eq]
    exact List.mem_cons_of_mem _ (List.mem_flatMap.mpr ⟨c, hc, hi⟩)
  · rintro body hbody
    refine ⟨F.bodies hbody, fun i => hcounted (List.mem_cons_of_mem _ ?_)⟩
    obtain ⟨slot, hslot⟩ := hbody
    have hmem := Array.mem_toList_iff.mpr (Array.mem_of_getElem? (Option.join_eq_some_iff.mp hslot))
    exact List.mem_filterMap.mpr ⟨some body, hmem, rfl⟩
  · rintro m ⟨-, hids⟩
    refine hids _ ?_
    rw [Matcher.identities_eq]
    exact List.mem_cons_self

theorem Frame.Placed.mem_keys (F : Family rules member) (hid : Identified member) {x : Frame}
    (hx : x.Placed rules limit input member) {identities : Finset NodeId}
    (hmember : ∀ m, member m → m.attributes.id ∈ identities) {key : Key}
    (hkey : key ∈ x.evaluations rules limit) :
    key ∈ identities ×ˢ Finset.range (Text.width input + 1) := by
  obtain ⟨y, hreach, hy⟩ := mem_evaluations.mp hkey
  obtain ⟨m, htask, -, rfl⟩ := mem_misses.mp hy
  have hplaced := hx.reached F hid hreach
  have hpos := (Text.isBoundary_of_fromBoundary? hplaced.boundary).le_width
  exact Finset.mem_product.mpr
    ⟨hmember m (hplaced.asked htask), Finset.mem_range.mpr (Nat.lt_succ_of_le hpos)⟩

theorem Parser.parseDetailed_stats (p : Parser) (options : Options) (input : List Char) :
    (p.parseDetailed options input).stats =
      ((p.start options input).after p.rules options.maxDepth).stats := by
  rw [parseDetailed]
  rfl

/-- A parse that does not fail by depth begins with a frame that does not. -/
theorem Parser.start_settled {p : Parser} {options : Options} {input : List Char}
    (h : ∀ pos limit, (p.parseDetailed options input).result ≠ .error (.tooDeep pos limit)) :
    (p.start options input).Settled p.rules options.maxDepth := by
  intro e he hdeep
  have hroot : (p.matchAt options.maxDepth 0 input (.empty options.memoize)).1 = .error e :=
    failure?_eq_some.mp he
  have hresult : (p.parseDetailed options input).result = .error e := by
    have heq := p.parse_eq options input
    rwa [hroot, Options.complete_error] at heq
  cases e with
  | tooDeep pos limit => exact h pos limit hresult
  | _ => exact hdeep.elim

/-- In a parse that does not fail by depth, nothing is evaluated twice by way of the memo. So the
entries are as many as the questions without an answer, and no more than there are identities times
positions. -/
theorem Parser.parseDetailed_once {p : Parser} (hp : p.Built) (matchAll : Bool) (maxDepth : Nat)
    (input : List Char)
    (h : ∀ pos limit, (p.parseDetailed ⟨matchAll, true, maxDepth⟩ input).result ≠
      .error (.tooDeep pos limit)) :
    (p.evaluations ⟨matchAll, true, maxDepth⟩ input).Nodup ∧
      (p.parseDetailed ⟨matchAll, true, maxDepth⟩ input).stats.misses =
        (p.evaluations ⟨matchAll, true, maxDepth⟩ input).length ∧
      (p.parseDetailed ⟨matchAll, true, maxDepth⟩ input).stats.misses =
        (p.parseDetailed ⟨matchAll, true, maxDepth⟩ input).stats.entries ∧
      (p.parseDetailed ⟨matchAll, true, maxDepth⟩ input).stats.entries ≤
        p.identities.card * (Text.width input + 1) := by
  obtain ⟨member, F, hid, hroot, hcounted⟩ := hp.exists_counted
  have hstart : (p.start ⟨matchAll, true, maxDepth⟩ input).Placed p.rules maxDepth input member :=
    ⟨Text.fromBoundary?_zero input, Memo.sound_empty _, List.forall_mem_singleton.mpr hroot⟩
  have hlearns := hstart.learns F hid (Parser.start_settled h) rfl
  have hmisses : (p.parseDetailed ⟨matchAll, true, maxDepth⟩ input).stats.misses =
      (p.evaluations ⟨matchAll, true, maxDepth⟩ input).length := by
    rw [p.parseDetailed_stats]
    exact hlearns.misses.trans (Nat.zero_add _)
  have hentries : (p.parseDetailed ⟨matchAll, true, maxDepth⟩ input).stats.entries =
      (p.evaluations ⟨matchAll, true, maxDepth⟩ input).length := by
    rw [p.parseDetailed_stats]
    exact hlearns.size.trans (Nat.zero_add _)
  have hnodup : (p.evaluations ⟨matchAll, true, maxDepth⟩ input).Nodup := hlearns.nodup
  refine ⟨hnodup, hmisses, hmisses.trans hentries.symm, ?_⟩
  have hsubset : (p.evaluations ⟨matchAll, true, maxDepth⟩ input).toFinset ⊆
      p.identities ×ˢ Finset.range (Text.width input + 1) := fun key hkey =>
    hstart.mem_keys F hid hcounted (List.mem_toFinset.mp hkey)
  have hcard := Finset.card_le_card hsubset
  rw [Finset.card_product, Finset.card_range] at hcard
  rw [hentries, ← List.toFinset_card_of_nodup hnodup]
  exact hcard

theorem parseDetailed_once_brackets :
    bracketsParser.Built ∧
      (∀ pos limit, (bracketsParser.parseDetailed ⟨true, true, 8⟩ "((1))".toList).result ≠
        .error (.tooDeep pos limit)) ∧
      (bracketsParser.evaluations ⟨true, true, 8⟩ "((1))".toList).Nodup ∧
      (bracketsParser.parseDetailed ⟨true, true, 8⟩ "((1))".toList).stats.misses =
        (bracketsParser.parseDetailed ⟨true, true, 8⟩ "((1))".toList).stats.entries ∧
      (bracketsParser.parseDetailed ⟨true, true, 8⟩ "((1))".toList).stats.entries ≤ 7 * 6 := by
  obtain ⟨member, F, hid, hroot⟩ := bracketsParser_built.exists_family
  have plain : bracketsParser.parse ⟨true, false, 8⟩ "((1))".toList = .ok ⟨.text "((1))", 5⟩ := rfl
  have same := Parser.parse_memo F hid hroot true 8 "((1))".toList (plain ▸ .ok _)
  have settled : ∀ pos limit,
      (bracketsParser.parseDetailed ⟨true, true, 8⟩ "((1))".toList).result ≠
        .error (.tooDeep pos limit) := by
    intro pos limit hdeep
    cases (same.trans plain).symm.trans hdeep
  obtain ⟨hnodup, -, hsame, hle⟩ :=
    Parser.parseDetailed_once bracketsParser_built true 8 "((1))".toList settled
  have hcard : bracketsParser.identities.card = 7 := by
    simp [Parser.identities, bracketsParser, Matcher.identities_eq, Matcher.children,
      Matcher.attributes]
  exact ⟨bracketsParser_built, settled, hnodup, hsame, hcard ▸ hle⟩

end Typestrip.Grammar
