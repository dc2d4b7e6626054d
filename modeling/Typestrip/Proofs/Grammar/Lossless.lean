import Typestrip.Proofs.Grammar.Compilation
import Typestrip.Proofs.Grammar.Positions
import Typestrip.Proofs.Grammar.Recursion

/-!
# Matching that loses nothing

A grammar that gives no names to parts and reshapes no values is verbatim (`Node.Verbatim`). What it
makes of an input is then the input: the texts in the value of a match, one after the other, are what
was matched, no more and no less (`Parser.parse_lossless`). That holds of every match in the course of
a parse, whatever the kind of node, and of those that come out of the memo as well, since all that is
remembered there has been matched before (`Memo.Faithful`).
-/

namespace Typestrip.Value

theorem flattenItems_append (vs ws : List Value) :
    flattenItems (vs ++ ws) = flattenItems vs ++ flattenItems ws := by
  induction vs with
  | nil => exact String.empty_append.symm
  | cons v vs ih => rw [List.cons_append, flattenItems, flattenItems, ih, String.append_assoc]

end Typestrip.Value

namespace Typestrip.Grammar

/-- A node without a name and without a reshaping function, and so is every node below it. -/
inductive Node.Verbatim : Node → Prop
  | intro {n : Node} : n.attributes.capture = none → n.attributes.reshape = none →
      (∀ c ∈ n.children, c.Verbatim) → n.Verbatim

/-- The texts in the value of a match are what it has taken from the rest of the input. -/
structure Copies (rest : List Char) (s : Success) : Prop where
  stands : s.value.flatten.toList <+: rest
  consumed : s.consumed = Text.width s.value.flatten.toList

/-- All matches that are remembered are copied from the input. -/
def Memo.Faithful (input : List Char) (memo : Memo) : Prop :=
  ∀ id pos s rest, memo.knows id pos = some (.ok s) → Text.fromBoundary? input pos = some rest →
    Copies rest s

/-- Matching that ends well if it succeeds, and with a memo as it should be in any case. -/
structure EndsFaithful (input : List Char) {α : Type} (good : α → Prop)
    (x : Except ParseError α × Memo) : Prop where
  good : ∀ a, x.1 = .ok a → good a
  memo : x.2.Faithful input

/-- The recognizer copies what it matches, from whatever boundary of the input on. -/
def Lossless (input : List Char) (r : Recognizer) : Prop :=
  ∀ ⦃pos rest memo⦄, Text.fromBoundary? input pos = some rest → memo.Faithful input →
    EndsFaithful input (Copies rest) (r pos rest memo)

variable {input rest : List Char} {pos : Nat} {memo : Memo} {s : Success}

theorem copies_nothing (rest : List Char) : Copies rest ⟨.null, 0⟩ :=
  ⟨List.nil_prefix, rfl⟩

theorem Copies.exists_eq (h : Copies rest s) : ∃ text back,
    text = s.value.flatten.toList ∧ rest = text ++ back ∧ s.consumed = Text.width text ∧
      Text.dropBytes rest s.consumed = back := by
  obtain ⟨⟨back, hback⟩, hconsumed⟩ := h
  refine ⟨_, back, rfl, hback.symm, hconsumed, ?_⟩
  rw [← hback, hconsumed, Text.dropBytes_width]

/-- What is left behind a copied match stands where the match ends. -/
theorem Copies.fromBoundary? (h : Copies rest s) (hpos : Text.fromBoundary? input pos = some rest) :
    Text.fromBoundary? input (pos + s.consumed) = some (Text.dropBytes rest s.consumed) := by
  obtain ⟨text, back, -, rfl, hconsumed, hdrop⟩ := h.exists_eq
  rw [Text.fromBoundary?_add hpos, hdrop, hconsumed, Text.fromBoundary?_width]

theorem Copies.slice? (h : Copies rest s) (hpos : Text.fromBoundary? input pos = some rest) :
    Text.slice? input pos (pos + s.consumed) = some s.value.flatten.toList := by
  rw [Text.slice?_of_isBoundary hpos (Nat.le_add_right _ _)
    (Text.isBoundary_of_fromBoundary? (h.fromBoundary? hpos)), Nat.add_sub_cancel_left]
  obtain ⟨text, back, htext, rfl, hconsumed, -⟩ := h.exists_eq
  rw [hconsumed, Text.takeBytes_width, htext]

/-! ## What is remembered -/

theorem Memo.faithful_empty (enabled : Bool) : (Memo.empty enabled).Faithful input := by
  intro id pos s rest hk
  rw [Memo.knows_empty] at hk
  cases hk

theorem Memo.Faithful.find (h : memo.Faithful input) (id : NodeId) (pos : Nat) :
    (memo.find id pos).2.Faithful input := by
  intro id' pos' s rest hk
  rw [Memo.knows_find] at hk
  exact h id' pos' s rest hk

theorem Memo.Faithful.insert (h : memo.Faithful input) (id : NodeId) {o : Outcome}
    (hpos : Text.fromBoundary? input pos = some rest) (ho : ∀ s, o = .ok s → Copies rest s) :
    (memo.insert id pos o).Faithful input := by
  intro id' pos' s rest' hk hpos'
  rw [Memo.knows_insert] at hk
  split at hk
  · next hkey =>
    obtain ⟨-, rfl⟩ := Prod.mk.injEq .. ▸ hkey.2
    obtain rfl := Option.some.inj (hpos.symm.trans hpos')
    exact ho s (Option.some.inj hk)
  · exact h id' pos' s rest' hk hpos'

/-- What comes out of the memo is as good as what is matched. -/
theorem Lossless.memoized {r : Recognizer} (h : Lossless input r) (id : NodeId) :
    Lossless input (memoized id r) := by
  intro pos rest memo hpos hm
  cases hk : memo.knows id pos with
  | some o =>
    rw [memoized_of_knows hk]
    exact ⟨fun s hs => hm id pos s rest (hk.trans (congrArg some hs)) hpos, hm.find id pos⟩
  | none =>
    rw [memoized_of_not_knows hk]
    have hend := h hpos (hm.find id pos)
    exact ⟨hend.good, hend.memo.insert id hpos hend.good⟩

/-! ## Nodes -/

theorem EndsFaithful.error {α : Type} {good : α → Prop} (e : ParseError)
    (hm : memo.Faithful input) : EndsFaithful input good (.error e, memo) :=
  ⟨fun _ hx => (nomatch hx), hm⟩

theorem EndsFaithful.recover (a : Attributes) {o : Outcome}
    (h : EndsFaithful input (Copies rest) (o, memo)) :
    EndsFaithful input (Copies rest) (a.recover o, memo) := by
  refine ⟨fun s hs => ?_, h.memo⟩
  cases o with
  | ok s' => exact h.good s hs
  | error e =>
    simp only [Attributes.recover] at hs
    split at hs
    · obtain rfl := Except.ok.inj hs
      exact copies_nothing rest
    · cases hs

theorem EndsFaithful.finish {α : Type} {good : α → Prop} (a : Attributes) {f : α → Success}
    (hf : ∀ x, good x → Copies rest (f x)) {x : Except ParseError α × Memo}
    (h : EndsFaithful input good x) : EndsFaithful input (Copies rest) (a.finish f x) := by
  obtain ⟨o, memo⟩ := x
  cases o with
  | error e => exact .recover a (.error e h.memo)
  | ok x =>
    refine ⟨fun s hs => ?_, h.memo⟩
    obtain rfl := Except.ok.inj hs
    exact hf x (h.good x rfl)

theorem Attributes.reshaped_of_none {a : Attributes} (h : a.reshape = none) (v : Value) :
    a.reshaped v = v := by
  rw [Attributes.reshaped, h]

theorem copies_text (text back : List Char) :
    Copies (text ++ back) ⟨.text (String.ofList text), Text.width text⟩ := by
  have htext : (Value.text (String.ofList text)).flatten.toList = text := by
    rw [Value.flatten, String.toList_ofList]
  exact ⟨htext.symm ▸ List.prefix_append text back, congrArg Text.width htext.symm⟩

theorem matchLiteral_copies {a : Attributes} (ha : a.reshape = none) {text : List Char}
    {expected : String} (h : matchLiteral a text expected pos rest = .ok s) : Copies rest s := by
  rw [matchLiteral] at h
  cases hstrip : stripPrefix? text rest with
  | none =>
    rw [hstrip] at h
    cases h
  | some after =>
    rw [hstrip, Attributes.reshaped_of_none ha] at h
    obtain rfl := Except.ok.inj h
    rw [stripPrefix?_eq_some_iff.mp hstrip]
    exact copies_text text after

theorem matchPattern_copies {a : Attributes} (ha : a.reshape = none) {regex : Regex.Expr}
    {expected : String} (h : matchPattern a regex expected pos rest = .ok s) : Copies rest s := by
  rw [matchPattern] at h
  cases hfound : regex.search? rest with
  | none =>
    rw [hfound] at h
    cases h
  | some n =>
    rw [hfound] at h
    obtain rfl := Except.ok.inj h
    rw [Attributes.reshaped_of_none ha]
    have hcopies := copies_text (rest.take n) (rest.drop n)
    rwa [List.take_append_drop] at hcopies

/-- Parts from `pos` on have taken a text and ended behind it. -/
def Covers (pos : Nat) (rest text : List Char) (stop : Nat) : Prop :=
  text <+: rest ∧ stop = pos + Text.width text

theorem covers_nothing (pos : Nat) (rest : List Char) : Covers pos rest [] pos :=
  ⟨List.nil_prefix, rfl⟩

/-- After a match the parts behind it go on where it has ended. -/
theorem Copies.covers (h : Copies rest s) {text : List Char} {stop : Nat}
    (hnext : Covers (pos + s.consumed) (Text.dropBytes rest s.consumed) text stop) :
    Covers pos rest (s.value.flatten.toList ++ text) stop := by
  obtain ⟨first, back, rfl, rfl, hconsumed, hdrop⟩ := h.exists_eq
  obtain ⟨hstands, rfl⟩ := hnext
  rw [hdrop] at hstands
  refine ⟨(List.prefix_append_right_inj _).mpr hstands, ?_⟩
  rw [hconsumed, Text.width_append, Nat.add_assoc]

theorem Covers.copies {text : List Char} {stop : Nat} (h : Covers pos rest text stop) {v : Value}
    (hv : v.flatten.toList = text) : Copies rest ⟨v, stop - pos⟩ := by
  obtain ⟨hstands, rfl⟩ := h
  exact ⟨hv.symm ▸ hstands, by rw [Nat.add_sub_cancel_left, hv]⟩

variable {rules : Rules} {e : Matcher → Recognizer}

theorem evaluateAll_covers {ms : List Matcher} (h : ∀ m ∈ ms, Lossless input (m.evaluate rules e))
    (fields : List (String × Value)) (hpos : Text.fromBoundary? input pos = some rest)
    (hm : memo.Faithful input) :
    EndsFaithful input (fun x => ∃ text, Covers pos rest text x.2)
      (Matcher.evaluateAll rules e ms fields pos rest memo) := by
  induction ms generalizing fields pos rest memo with
  | nil =>
    refine ⟨fun x hx => ?_, hm⟩
    obtain rfl := Except.ok.inj hx
    exact ⟨[], covers_nothing pos rest⟩
  | cons m ms ih =>
    obtain ⟨hgood, hmemo⟩ := (h m List.mem_cons_self).memoized m.attributes.id hpos hm
    rw [Matcher.evaluateAll]
    revert hgood hmemo
    rcases memoized _ _ pos rest memo with ⟨cause | s, memo'⟩
    · exact fun _ hmemo => .error _ hmemo
    · intro hgood hmemo
      have hs : Copies rest s := hgood s rfl
      have htail := ih (fun m hm => h m (List.mem_cons_of_mem _ hm))
        (keep m.attributes s.value fields) (hs.fromBoundary? hpos) hmemo
      refine ⟨fun x hx => ?_, htail.memo⟩
      obtain ⟨text, hcovers⟩ := htail.good x hx
      exact ⟨_, hs.covers hcovers⟩

theorem evaluateFirst_copies {ms : List Matcher}
    (h : ∀ m ∈ ms, Lossless input (m.evaluate rules e)) (failures : List ParseError)
    (hpos : Text.fromBoundary? input pos = some rest) (hm : memo.Faithful input) :
    EndsFaithful input (Copies rest)
      (Matcher.evaluateFirst rules e ms failures pos rest memo) := by
  induction ms generalizing failures memo with
  | nil => exact .error _ hm
  | cons m ms ih =>
    obtain ⟨hgood, hmemo⟩ := (h m List.mem_cons_self).memoized m.attributes.id hpos hm
    rw [Matcher.evaluateFirst]
    revert hgood hmemo
    rcases memoized _ _ pos rest memo with ⟨cause | s, memo'⟩
    · intro _ hmemo
      dsimp only
      split
      · exact .error _ hmemo
      · exact ih (fun m hm => h m (List.mem_cons_of_mem _ hm)) _ hmemo
    · exact fun hgood hmemo => ⟨hgood, hmemo⟩

/-- The rounds of a repetition have taken what the items of its list stand for. The last round, whose
value is not kept, has taken nothing. -/
theorem iterate_covers {r : Recognizer} (h : Lossless input r) (items : List Value) {pos : Nat}
    {rest : List Char} {memo : Memo} (hpos : Text.fromBoundary? input pos = some rest)
    (hm : memo.Faithful input) :
    EndsFaithful input (fun x => ∃ text, Covers pos rest text x.2 ∧
        (Value.flattenItems x.1).toList = (Value.flattenItems items.reverse).toList ++ text)
      (iterate r items pos rest memo) := by
  have hstop {memo : Memo} (hm : memo.Faithful input) : EndsFaithful input (fun x =>
      ∃ text, Covers pos rest text x.2 ∧
        (Value.flattenItems x.1).toList = (Value.flattenItems items.reverse).toList ++ text)
      (.ok (items.reverse, pos), memo) := by
    refine ⟨fun x hx => ?_, hm⟩
    obtain rfl := Except.ok.inj hx
    exact ⟨[], covers_nothing pos rest, (List.append_nil _).symm⟩
  obtain ⟨hgood, hmemo⟩ := h hpos hm
  rw [iterate]
  revert hgood hmemo
  rcases r pos rest memo with ⟨cause | s, memo'⟩
  · intro _ hmemo
    dsimp only
    split
    · exact .error _ hmemo
    · exact hstop hmemo
  · intro hgood hmemo
    dsimp only
    have hs : Copies rest s := hgood s rfl
    cases hn : s.consumed with
    | zero => exact hstop hmemo
    | succ n =>
      cases hcs : rest with
      | nil =>
        subst hcs
        exact hstop hmemo
      | cons c cs =>
        have hnext := hs.fromBoundary? hpos
        rw [hcs, hn] at hnext
        have htail := iterate_covers h (s.value :: items) hnext hmemo
        refine ⟨fun x hx => ?_, htail.memo⟩
        obtain ⟨text, hcovers, hitems⟩ := htail.good x hx
        rw [← hn, ← hcs] at hcovers
        refine ⟨_, hcs ▸ hs.covers hcovers, ?_⟩
        rw [hitems, List.reverse_cons, Value.flattenItems_append, String.toList_append,
          List.append_assoc]
        simp [Value.flattenItems]
termination_by rest.length
decreasing_by
  rw [hcs]
  exact Text.length_dropBytes_lt _ _ _

theorem Lossless.run {m : Matcher} (h : Lossless input (m.evaluate rules e)) :
    Lossless input (m.run rules e) := by
  rw [Matcher.run]
  split
  · exact h.memoized _
  · exact h

/-- A node of a sequence of which nothing is kept has the value that it matches. -/
theorem Covers.sequence {ms : List Matcher} {kept : List (String × Value)} {text : List Char}
    {stop : Nat} (hms : ∀ m ∈ ms, m.attributes.capture = none) (h : Covers pos rest text stop) :
    Copies rest ⟨sequenceValue ms rest kept (stop - pos), stop - pos⟩ := by
  have hany : ms.any (·.attributes.capture.isSome) = false := by
    rw [List.any_eq_false]
    exact fun m hm => by simp [hms m hm]
  refine h.copies ?_
  obtain ⟨⟨back, rfl⟩, rfl⟩ := h
  rw [sequenceValue, hany, if_neg Bool.false_ne_true, Nat.add_sub_cancel_left, Text.takeBytes_width,
    Value.flatten, String.toList_ofList]

variable {member : Matcher → Prop}

/-- The nodes of a verbatim grammar, as compiled. -/
structure VerbatimFamily (rules : Rules) (member : Matcher → Prop) : Prop
    extends Family rules member where
  capture : ∀ {m}, member m → m.attributes.capture = none
  reshape : ∀ {m}, member m → m.attributes.reshape = none

theorem VerbatimFamily.evaluate (F : VerbatimFamily rules member)
    (h : ∀ {body}, IsBody rules body → Lossless input (e body)) {m : Matcher} (hm : member m) :
    Lossless input (m.evaluate rules e) := by
  induction m using Matcher.treeInduction with
  | step m ih =>
    have hchildren : ∀ c ∈ m.children, Lossless input (c.evaluate rules e) :=
      fun c hc => ih c hc (F.children hm hc)
    intro pos rest memo hpos hmemo
    cases m with
    | literal a text expected =>
      have ha : a.reshape = none := F.reshape hm
      rw [Matcher.evaluate_literal]
      exact .recover a ⟨fun s hs => matchLiteral_copies ha hs, hmemo⟩
    | pattern a regex expected =>
      have ha : a.reshape = none := F.reshape hm
      rw [Matcher.evaluate_pattern]
      exact .recover a ⟨fun s hs => matchPattern_copies ha hs, hmemo⟩
    | sequence a ms =>
      have ha : a.reshape = none := F.reshape hm
      rw [Matcher.evaluate_sequence]
      refine (evaluateAll_covers hchildren [] hpos hmemo).finish a ?_
      rintro ⟨kept, stop⟩ ⟨text, hcovers⟩
      rw [Attributes.reshaped_of_none ha]
      exact hcovers.sequence fun c hc => F.capture (F.children hm hc)
    | choice a ms =>
      have ha : a.reshape = none := F.reshape hm
      rw [Matcher.evaluate_choice]
      refine (evaluateFirst_copies hchildren [] hpos hmemo).finish a fun s hs => ?_
      rwa [Attributes.reshaped_of_none ha]
    | repetition a child =>
      have ha : a.reshape = none := F.reshape hm
      rw [Matcher.evaluate_repetition]
      have hround := (hchildren child (List.mem_singleton_self child)).run
      refine (iterate_covers hround [] hpos hmemo).finish a ?_
      rintro ⟨items, stop⟩ ⟨text, hcovers, hitems⟩
      rw [Attributes.reshaped_of_none ha]
      exact hcovers.copies hitems
    | rule a name slot =>
      have ha : a.reshape = none := F.reshape hm
      cases hbody : slot.bind fun i => (rules[i]?).join with
      | none =>
        rw [Matcher.evaluate_rule_none _ _ _ _ _ _ _ hbody]
        exact .error _ hmemo
      | some body =>
        rw [Matcher.evaluate_rule _ _ _ _ _ _ _ hbody]
        refine (h (isBody_of_slot hbody) hpos hmemo).finish a fun s hs => ?_
        rwa [Attributes.reshaped_of_none ha]

theorem VerbatimFamily.enter (F : VerbatimFamily rules member) (limit left : Nat) {body : Matcher}
    (hbody : member body) : Lossless input (enter rules limit left body) := by
  -- on the entries left: a body is matched with one entry less
  induction left generalizing body with
  | zero => exact fun pos rest memo _ hmemo => .error _ hmemo
  | succ left ih => exact (F.evaluate (fun h => ih (F.bodies h)) hbody).run

/-! ## Moments of a parse -/

/-- A moment at a character boundary, about nodes of the grammar, with a faithful memo. -/
structure Frame.Faithful (input : List Char) (member : Matcher → Prop) (x : Frame) : Prop where
  boundary : Text.fromBoundary? input x.pos = some x.rest
  memo : x.memo.Faithful input
  nodes : ∀ m ∈ x.task.nodes, member m

theorem VerbatimFamily.node (F : VerbatimFamily rules member) (limit left : Nat) {m : Matcher}
    (hm : member m) : Lossless input (m.evaluate rules (Grammar.enter rules limit left)) :=
  F.evaluate (fun h => F.enter limit left (F.bodies h)) hm

variable {limit : Nat}

theorem Frame.Faithful.calls (F : VerbatimFamily rules member) {x y : Frame}
    (hx : x.Faithful input member) (h : Calls rules limit x y) : y.Faithful input member := by
  obtain ⟨hpos, hmemo, hnodes⟩ := hx
  cases h with
  | runTerminal | runOther | round => exact ⟨hpos, hmemo, hnodes⟩
  | ask hfind =>
    obtain rfl := congrArg Prod.snd hfind
    exact ⟨hpos, hmemo.find _ _, hnodes⟩
  | sequence | choice | repetition =>
    exact ⟨hpos, hmemo, fun c hc => F.children (hnodes _ (List.mem_singleton_self _)) hc⟩
  | part | alternative =>
    exact ⟨hpos, hmemo, List.forall_mem_singleton.mpr (hnodes _ List.mem_cons_self)⟩
  | @partMatched m ms fields left pos rest memo s memo' hhead =>
    have hend := (F.node limit left (hnodes m List.mem_cons_self)).memoized m.attributes.id hpos hmemo
    rw [hhead] at hend
    exact ⟨(hend.good s rfl).fromBoundary? hpos, hend.memo,
      fun c hc => hnodes c (List.mem_cons_of_mem _ hc)⟩
  | @alternativeFailed m ms failures left pos rest memo e memo' hhead _ =>
    have hend := (F.node limit left (hnodes m List.mem_cons_self)).memoized m.attributes.id hpos hmemo
    rw [hhead] at hend
    exact ⟨hpos, hend.memo, fun c hc => hnodes c (List.mem_cons_of_mem _ hc)⟩
  | @roundMatched child items left pos c cs memo s n memo' hhead hs =>
    have hend := (F.node limit left (hnodes child (List.mem_singleton_self child))).run hpos hmemo
    rw [hhead] at hend
    have hnext := (hend.good s rfl).fromBoundary? hpos
    rw [hs] at hnext
    exact ⟨hnext, hend.memo, hnodes⟩
  | rule => exact ⟨hpos, hmemo, by simp [Task.nodes]⟩
  | enter hbody => exact ⟨hpos, hmemo, List.forall_mem_singleton.mpr (F.bodies ⟨_, hbody⟩)⟩

theorem Frame.Faithful.reached (F : VerbatimFamily rules member) {x y : Frame}
    (hx : x.Faithful input member) (h : Relation.ReflTransGen (Calls rules limit) x y) :
    y.Faithful input member := by
  induction h with
  | refl => exact hx
  | tail _ hcall ih => exact ih.calls F hcall

theorem Frame.Faithful.copies (F : VerbatimFamily rules member) {x : Frame}
    (hx : x.Faithful input member) (h : x.outcome? rules limit = some (.ok s)) :
    Copies x.rest s := by
  obtain ⟨task, left, pos, rest, memo⟩ := x
  obtain ⟨hpos, hmemo, hnodes⟩ := hx
  cases task with
  | run m =>
    exact ((F.node limit left (hnodes m (List.mem_singleton_self m))).run hpos hmemo).good s
      (Option.some.inj h)
  | ask m =>
    exact ((F.node limit left (hnodes m (List.mem_singleton_self m))).memoized _ hpos hmemo).good s
      (Option.some.inj h)
  | evaluate m =>
    exact ((F.node limit left (hnodes m (List.mem_singleton_self m))) hpos hmemo).good s
      (Option.some.inj h)
  | enter slot =>
    obtain ⟨body, hbody, hs⟩ := Option.map_eq_some_iff.mp h
    exact (F.enter limit left (F.bodies ⟨slot, hbody⟩) hpos hmemo).good s hs
  | parts | alternatives | rounds => cases h

/-! ## Whole parses -/

theorem Options.eq_ok_of_complete {options : Options} {o : Outcome}
    (h : options.complete input o = .ok s) : o = .ok s := by
  cases o with
  | error cause =>
    rw [options.complete_error] at h
    cases h
  | ok s' =>
    rcases options.complete_ok input s' with h' | ⟨-, h'⟩
    · exact h'.symm.trans h
    · cases h'.symm.trans h

/-- The compiled nodes of a verbatim grammar. -/
theorem verbatimFamily {r : Registry} {root : Node} {p : Parser}
    (hp : Parser.compile r root = .ok p) (hbodies : ∀ body ∈ r.bodies, body.Verbatim) :
    VerbatimFamily p.rules fun m => ∃ n : Node, n.Verbatim ∧ Node.compile r n = .ok m where
  children := by
    rintro m c ⟨n, ⟨-, -, hchildren⟩, hm⟩ hc
    obtain ⟨child, hchild, hcompile⟩ := exists_of_forall₂ (Node.compile_eq_ok hm).2 hc
    exact ⟨child, hchildren child hchild, hcompile⟩
  bodies := by
    intro body hbody
    obtain ⟨n, hn, hcompile⟩ := Parser.exists_of_isBody hp hbody
    exact ⟨n, hbodies n hn, hcompile⟩
  capture := by
    rintro m ⟨n, ⟨hcapture, -, -⟩, hm⟩
    rw [(Node.compile_eq_ok hm).1, hcapture]
  reshape := by
    rintro m ⟨n, ⟨-, hreshape, -⟩, hm⟩
    rw [(Node.compile_eq_ok hm).1, hreshape]

/-- In a grammar that has neither names for parts nor reshaping functions, the texts in the value of
a match are the input from where the match begins to where it ends. That holds of the whole parse and
of every node and rule that is matched in its course, with a memo and without one. -/
theorem Parser.parse_lossless {r : Registry} {root : Node} {p : Parser}
    (hp : Parser.compile r root = .ok p) (hroot : root.Verbatim)
    (hbodies : ∀ body ∈ r.bodies, body.Verbatim) (options : Options) (input : List Char) :
    (∀ x s, p.Reaches options input x → x.outcome? p.rules options.maxDepth = some (.ok s) →
      Text.slice? input x.pos (x.pos + s.consumed) = some s.value.flatten.toList) ∧
    ∀ s, p.parse options input = .ok s →
      Text.slice? input 0 s.consumed = some s.value.flatten.toList := by
  have F := verbatimFamily hp hbodies
  have hstart : (p.start options input).Faithful input fun m =>
      ∃ n : Node, n.Verbatim ∧ Node.compile r n = .ok m :=
    ⟨Text.fromBoundary?_zero input, Memo.faithful_empty _,
      List.forall_mem_singleton.mpr ⟨root, hroot, (Parser.compile_eq_ok hp).1⟩⟩
  have hall : ∀ x s, p.Reaches options input x →
      x.outcome? p.rules options.maxDepth = some (.ok s) →
        Text.slice? input x.pos (x.pos + s.consumed) = some s.value.flatten.toList := by
    intro x s hreach hs
    have hx := hstart.reached F hreach
    exact (hx.copies F hs).slice? hx.boundary
  refine ⟨hall, fun s hs => ?_⟩
  -- a parse that succeeds has the outcome of its root
  have hroot : (p.start options input).outcome? p.rules options.maxDepth = some (.ok s) :=
    congrArg some (Options.eq_ok_of_complete (p.parse_eq options input ▸ hs))
  have hslice := hall _ s .refl hroot
  rwa [show (p.start options input).pos = 0 from rfl, Nat.zero_add] at hslice

/-- A rule for a separator that may be missing. -/
def gapRules : Registry :=
  ⟨[("gap", some (.terminal { id := 3, nullable := true } (.literal "·")))]⟩

/-- A letter and a separator. -/
def gapped : Node :=
  .sequence { id := 5 }
    [.choice { id := 2 } [.terminal { id := 0 } (.literal "ü"), .terminal { id := 1 } (.literal "b")],
      .reference { id := 4 } "gap"]

def gappedParser : Parser where
  root := .sequence { id := 5 }
    [.choice { id := 2 } [.literal { id := 0 } ['ü'] (Pattern.literal "ü").describe,
        .literal { id := 1 } ['b'] (Pattern.literal "b").describe],
      .rule { id := 4 } "gap" (some 0)]
  rules := #[some (.literal { id := 3, nullable := true } ['·'] (Pattern.literal "·").describe)]

theorem compile_gapped : Parser.compile gapRules gapped = .ok gappedParser := rfl

theorem gapped_verbatim : gapped.Verbatim ∧ ∀ body ∈ gapRules.bodies, body.Verbatim := by
  have hleaf (a : Attributes) (h : a.capture = none ∧ a.reshape = none) (p : Pattern) :
      (Node.terminal a p).Verbatim := ⟨h.1, h.2, nofun⟩
  refine ⟨⟨rfl, rfl, fun c hc => ?_⟩, List.forall_mem_singleton.mpr (hleaf _ ⟨rfl, rfl⟩ _)⟩
  rcases List.mem_pair.mp hc with rfl | rfl
  · refine ⟨rfl, rfl, fun c hc => ?_⟩
    rcases List.mem_pair.mp hc with rfl | rfl <;> exact hleaf _ ⟨rfl, rfl⟩ _
  · exact ⟨rfl, rfl, nofun⟩

/-- The separator is matched behind a letter of two bytes, and nothing is in its place at the end. -/
theorem parse_lossless_gapped :
    Text.slice? ['ü', '·', 'b'] 2 4 = some (Value.flatten (.text "·")).toList ∧
      Text.slice? ['b'] 0 1 = some (Value.flatten (.text "b")).toList := by
  have hlossless := Parser.parse_lossless compile_gapped gapped_verbatim.1 gapped_verbatim.2
  have hreach : gappedParser.Reaches ⟨false, false, 8⟩ ['ü', '·', 'b']
      ⟨.ask (.rule { id := 4 } "gap" (some 0)), 8, 2, ['·', 'b'], .off⟩ :=
    .tail (.tail (.tail (.single (.runOther rfl)) .sequence) (.partMatched rfl)) .part
  have hgap := (hlossless ⟨false, false, 8⟩ ['ü', '·', 'b']).1 _ ⟨.text "·", 2⟩ hreach rfl
  have hend := (hlossless ⟨true, false, 8⟩ ['b']).2 ⟨.text "b", 1⟩ rfl
  exact ⟨hgap, hend⟩

end Typestrip.Grammar
