import Typestrip.Proofs.Grammar.Grounding
import Typestrip.Proofs.Grammar.Outlines

/-!
# Trees of matches

A match is recorded by a tree: under every node stand the trees of the parts that were matched for it.
The tree tells what was matched (`Tree.text`) and what came of it (`Tree.value`), and everything that
took part in the match can be found in it (`Tree.Within`).

`Grows` tells which tree records the match of a node at an offset. There is one for every match that
is derived (`Yields.exists_grows`), and the matches that a parse finds are derived
(`Parser.exists_yields`, `Parser.exists_yields_of_ask`).
Where only the shape of a tree matters, `Tree.Of` tells it without offsets.
-/

namespace Typestrip.Grammar

/-- How a node was matched. -/
inductive Tree where
  /-- A terminal, with the text that it matched. -/
  | leaf (n : Node) (text : List Char)
  /-- A nullable node that matched nothing where it would have failed. -/
  | skipped (n : Node)
  /-- Any other node, with what was matched for it: the parts of a sequence, the alternative that
  matched, the rounds of a repetition or the body of a rule. -/
  | branch (n : Node) (parts : List Tree)

namespace Tree

/-- The node that was matched. -/
def node : Tree → Node
  | leaf n _ | skipped n | branch n _ => n

mutual
/-- The text that was matched. -/
def text : Tree → List Char
  | leaf _ text => text
  | skipped _ => []
  | branch _ parts => textAll parts

/-- The texts of trees in a row. -/
def textAll : List Tree → List Char
  | [] => []
  | t :: ts => t.text ++ textAll ts
end

/-- The value of a node by the text and the values of what was matched for it. -/
def assemble (text : List Char) (values : List Value) : Node → Value
  | .sequence _ ns =>
    if ns.any (·.attributes.capture.isSome) then
      .object ((ns.zip values).foldl (fun fields x => keep x.1.attributes x.2 fields) [])
    else .text (String.ofList text)
  | .repetition _ _ => .list values
  | _ => values.headD .null

mutual
/-- The value of the match. -/
def value : Tree → Value
  | leaf n text => n.attributes.reshaped (.text (String.ofList text))
  | skipped _ => .null
  | branch n parts => n.attributes.reshaped (assemble (textAll parts) (valueAll parts) n)

/-- The values of trees in a row. -/
def valueAll : List Tree → List Value
  | [] => []
  | t :: ts => t.value :: valueAll ts
end

/-- Everything that took part in a match. -/
inductive Within (u : Tree) : Tree → Prop
  | self : Within u u
  | inside {n p parts} : p ∈ parts → Within u p → Within u (.branch n parts)

theorem valueAll_eq_map (ts : List Tree) : valueAll ts = ts.map value := by
  induction ts with
  | nil => rfl
  | cons t ts ih => rw [valueAll, ih, List.map_cons]

@[simp] theorem textAll_nil : textAll [] = [] := rfl

@[simp] theorem textAll_cons (t : Tree) (ts : List Tree) :
    textAll (t :: ts) = t.text ++ textAll ts := rfl

@[simp] theorem textAll_append (ts us : List Tree) :
    textAll (ts ++ us) = textAll ts ++ textAll us := by
  induction ts with
  | nil => rfl
  | cons t ts ih => rw [List.cons_append, textAll_cons, ih, textAll_cons, List.append_assoc]

theorem textAll_eq_flatMap (ts : List Tree) : textAll ts = ts.flatMap text := by
  induction ts with
  | nil => rfl
  | cons t ts ih => rw [textAll_cons, ih, List.flatMap_cons]

/-- What a tree is worth as a match. -/
def success (t : Tree) : Success := ⟨t.value, Text.width t.text⟩

theorem taken_map_success (ts : List Tree) : taken (ts.map success) = Text.width (textAll ts) := by
  induction ts with
  | nil => rfl
  | cons t ts ih => rw [List.map_cons, taken_cons, ih, textAll_cons, Text.width_append]; rfl

theorem partsValue_map_success (ns : List Node) (ts : List Tree) (text : List Char) (a : Attributes) :
    partsValue ns (ts.map success) text = assemble text (valueAll ts) (.sequence a ns) := by
  rw [partsValue, assemble, valueAll_eq_map, List.zip_map_right, List.zip_map_right]
  simp only [List.foldl_map]
  rfl

end Tree

/-! ## The shape of a tree -/

namespace Tree

/-- The trees that a node can have, whatever stands around what it matched. -/
inductive Of (bodies : String → Option Node) : Node → Tree → Prop
  | literal {a text} : Of bodies (.terminal a (.literal text))
      (.leaf (.terminal a (.literal text)) text.toList)
  | regex {a source regex cs n} : Regex.Expr.ofSource? (anchoredSource source) = some regex →
      regex.search? cs = some n → Of bodies (.terminal a (.regex source))
        (.leaf (.terminal a (.regex source)) (cs.take n))
  | sequence {a ns ts} : List.Forall₂ (Of bodies) ns ts →
      Of bodies (.sequence a ns) (.branch (.sequence a ns) ts)
  | choice {a ns n t} : n ∈ ns → Of bodies n t →
      Of bodies (.choice a ns) (.branch (.choice a ns) [t])
  | repetition {a n ts} : (∀ t ∈ ts, Of bodies n t) →
      Of bodies (.repetition a n) (.branch (.repetition a n) ts)
  | reference {a name body t} : bodies name = some body → Of bodies body t →
      Of bodies (.reference a name) (.branch (.reference a name) [t])
  | skipped {n} : n.attributes.nullable = true → Of bodies n (.skipped n)

variable {bodies : String → Option Node} {a : Attributes} {n : Node} {ns : List Node} {t u : Tree}

namespace Of

theorem node_eq (h : t.Of bodies n) : t.node = n := by
  cases h <;> rfl

theorem exists_parts (h : t.Of bodies (.sequence a ns)) :
    (∃ ts, t = .branch (.sequence a ns) ts ∧ List.Forall₂ (Of bodies) ns ts) ∨
      a.nullable = true ∧ t = .skipped (.sequence a ns) := by
  cases h with
  | sequence h => exact .inl ⟨_, rfl, h⟩
  | skipped h => exact .inr ⟨h, rfl⟩

/-- What was matched for the parts of a sequence. -/
theorem parts {ts : List Tree} (h : (branch (.sequence a ns) ts).Of bodies (.sequence a ns)) :
    List.Forall₂ (Of bodies) ns ts := by
  cases h with
  | sequence h => exact h

theorem exists_alternative (h : t.Of bodies (.choice a ns)) (ha : a.nullable = false) :
    ∃ n ∈ ns, ∃ u, t = .branch (.choice a ns) [u] ∧ u.Of bodies n := by
  cases h with
  | choice hn h => exact ⟨_, hn, _, rfl, h⟩
  | skipped h => exact absurd (ha.symm.trans h) Bool.false_ne_true

theorem exists_rounds (h : t.Of bodies (.repetition a n)) (ha : a.nullable = false) :
    ∃ ts, t = .branch (.repetition a n) ts ∧ ∀ u ∈ ts, u.Of bodies n := by
  cases h with
  | repetition h => exact ⟨_, rfl, h⟩
  | skipped h => exact absurd (ha.symm.trans h) Bool.false_ne_true

theorem exists_body {name : String} {body : Node} (h : t.Of bodies (.reference a name))
    (ha : a.nullable = false) (hbody : bodies name = some body) :
    ∃ u, t = .branch (.reference a name) [u] ∧ u.Of bodies body := by
  cases h with
  | reference hbody' h =>
    obtain rfl := Option.some.inj (hbody.symm.trans hbody')
    exact ⟨_, rfl, h⟩
  | skipped h => exact absurd (ha.symm.trans h) Bool.false_ne_true

theorem exists_text {p : Pattern} (h : t.Of bodies (.terminal a p)) :
    (∃ text, t = .leaf (.terminal a p) text) ∨ a.nullable = true ∧ t = .skipped (.terminal a p) := by
  cases h with
  | literal => exact .inl ⟨_, rfl⟩
  | regex => exact .inl ⟨_, rfl⟩
  | skipped h => exact .inr ⟨h, rfl⟩

end Of

theorem Within.trans {v : Tree} (h : u.Within t) (hv : v.Within u) : v.Within t := by
  induction h with
  | self => exact hv
  | inside hp _ ih => exact .inside hp ih

/-- Everything in a tree of a node is a tree of a node. -/
theorem Of.of_within (h : t.Of bodies n) (hu : u.Within t) : u.Of bodies u.node := by
  induction hu generalizing n with
  | self => rwa [h.node_eq]
  | inside hp _ ih =>
    cases h with
    | sequence h =>
      obtain ⟨i, hi, rfl⟩ := List.getElem_of_mem hp
      exact ih (List.forall₂_iff_get.mp h |>.2 i (h.length_eq ▸ hi) hi)
    | choice _ h | reference _ h =>
      obtain rfl := List.mem_singleton.mp hp
      exact ih h
    | repetition h => exact ih (h _ hp)

theorem text_branch_singleton (n : Node) (u : Tree) : (branch n [u]).text = u.text := by
  rw [text, textAll_cons, textAll_nil, List.append_nil]

theorem Within.of_part {n : Node} {p : Tree} {parts : List Tree} (hp : p ∈ parts) :
    p.Within (.branch n parts) :=
  .inside hp .self

theorem Within.text_infix (h : u.Within t) : u.text <:+: t.text := by
  induction h with
  | self => exact List.infix_rfl
  | inside hp _ ih =>
    obtain ⟨front, back, rfl⟩ := List.append_of_mem hp
    rw [text, textAll_append, textAll_cons]
    exact ih.trans ⟨textAll front, textAll back, List.append_assoc ..⟩

/-! ## What is kept of a sequence -/

/-- What was matched for the part of a sequence that is kept under a name. -/
def captured (name : String) : List Node → List Tree → Option Tree
  | n :: ns, t :: ts =>
    (captured name ns ts).or (if n.attributes.capture = some name then some t else none)
  | _, _ => none

theorem find?_keep (name : String) (ns : List Node) (ts : List Tree)
    (fields : List (String × Value)) :
    Fields.find? name ((ns.zip (valueAll ts)).foldl (fun fields x => keep x.1.attributes x.2 fields)
      fields) = ((captured name ns ts).map value).or (Fields.find? name fields) := by
  induction ns generalizing ts fields with
  | nil => rfl
  | cons n ns ih =>
    cases ts with
    | nil => rfl
    | cons t ts =>
      rw [valueAll, List.zip_cons_cons, List.foldl_cons, ih, captured]
      have hkeep : Fields.find? name (keep n.attributes t.value fields) =
          ((if n.attributes.capture = some name then some t else none).map value).or
            (Fields.find? name fields) := by
        rw [keep]
        cases hcapture : n.attributes.capture with
        | none => rfl
        | some name' =>
          by_cases hname : name = name'
          · subst hname
            simp [Fields.find?_insert_self]
          · simp [Fields.find?_insert_of_ne hname, Ne.symm hname]
      rw [hkeep, Option.map_or, Option.or_assoc]

/-- The fields of a sequence are the values of the parts that are kept. -/
theorem field?_assemble (hcapture : ns.any (·.attributes.capture.isSome) = true) (text : List Char)
    (ts : List Tree) (name : String) :
    (assemble text (valueAll ts) (.sequence a ns)).field? name = (captured name ns ts).map value := by
  rw [assemble, if_pos hcapture, Value.field?, find?_keep, Fields.find?, Option.or_none]

end Tree

/-! ## The tree of a match -/

/-- The same node where it may not match nothing in place of failing. -/
def Node.strict (n : Node) : Node := n.withAttributes { n.attributes with nullable := false }

open Tree in
/-- `Grows bodies limit input depth n pos t`: inside `depth` rules, the tree `t` records the match of
the node `n` at the offset `pos` of the input. -/
inductive Grows (bodies : String → Option Node) (limit : Nat) (input : List Char) :
    Nat → Node → Nat → Tree → Prop
  | literal {depth a text pos after} : Text.fromBoundary? input pos = some (text.toList ++ after) →
      Grows bodies limit input depth (.terminal a (.literal text)) pos
        (.leaf (.terminal a (.literal text)) text.toList)
  | regex {depth a source regex pos rest n} :
      Regex.Expr.ofSource? (anchoredSource source) = some regex →
      Text.fromBoundary? input pos = some rest → regex.search? rest = some n →
      Grows bodies limit input depth (.terminal a (.regex source)) pos
        (.leaf (.terminal a (.regex source)) (rest.take n))
  | sequence {depth a ns ts pos after} : ts.length = ns.length →
      (∀ i n t, ns[i]? = some n → ts[i]? = some t →
        Grows bodies limit input depth n (pos + Text.width (textAll (ts.take i))) t) →
      Text.fromBoundary? input pos = some (textAll ts ++ after) →
      Grows bodies limit input depth (.sequence a ns) pos (.branch (.sequence a ns) ts)
  | choice {depth a front n back t pos} {es : List ParseError} : es.length = front.length →
      (∀ (i : Nat) m e, front[i]? = some m → es[i]? = some e →
        Yields bodies limit input depth m pos (.error e)) →
      (∀ e ∈ es, e.isFatal = false) → Grows bodies limit input depth n pos t →
      Grows bodies limit input depth (.choice a (front ++ n :: back)) pos
        (.branch (.choice a (front ++ n :: back)) [t])
  | repetition {depth a n ts o pos} :
      (∀ i t, ts[i]? = some t →
        Grows bodies limit input depth n (pos + Text.width (textAll (ts.take i))) t) →
      (∀ t ∈ ts, t.text ≠ []) →
      Yields bodies limit input depth n (pos + Text.width (textAll ts)) o →
      (∀ s, o = .ok s → s.consumed = 0) → (∀ e, o = .error e → e.isFatal = false) →
      Grows bodies limit input depth (.repetition a n) pos (.branch (.repetition a n) ts)
  | reference {depth a name body t pos} : bodies name = some body → depth < limit →
      Grows bodies limit input (depth + 1) body pos t →
      Grows bodies limit input depth (.reference a name) pos (.branch (.reference a name) [t])
  | skipped {depth n e pos} : n.attributes.nullable = true →
      Yields bodies limit input depth n.strict pos (.error e) → e.isFatal = false →
      Grows bodies limit input depth n pos (.skipped n)

variable {bodies : String → Option Node} {limit depth pos : Nat} {input rest : List Char} {n : Node}
  {s : Success}

theorem Node.failing_strict (n : Node) (e : ParseError) :
    n.strict.attributes.failing e = .error e := by
  have hstrict : n.strict.attributes.nullable = false := by cases n <;> rfl
  rw [Attributes.failing, hstrict]
  simp

/-- A match in place of a failure. -/
theorem exists_grows_of_failing {e : ParseError} (h : n.attributes.failing e = .ok s)
    (hstrict : Yields bodies limit input depth n.strict pos (n.strict.attributes.failing e)) :
    ∃ t, Grows bodies limit input depth n pos t ∧ s = t.success := by
  rw [n.failing_strict] at hstrict
  rw [Attributes.failing] at h
  split at h
  · next hnull =>
    obtain rfl := Except.ok.inj h
    exact ⟨.skipped n, .skipped hnull.1 hstrict hnull.2, rfl⟩
  · cases h

/-- A row of trees for a row of matches. -/
theorem exists_trees {Q : Nat → Nat → Tree → Prop} {ss : List Success}
    (h : ∀ i s, ss[i]? = some s → ∃ t : Tree, Q i (pos + taken (ss.take i)) t ∧ s = t.success) :
    ∃ ts : List Tree, ss = ts.map Tree.success ∧
      ∀ i t, ts[i]? = some t → Q i (pos + Text.width (Tree.textAll (ts.take i))) t := by
  induction ss generalizing pos Q with
  | nil => exact ⟨[], rfl, by simp⟩
  | cons s ss ih =>
    obtain ⟨t, ht, rfl⟩ := h 0 s rfl
    obtain ⟨ts, rfl, hts⟩ := @ih (pos + Text.width t.text) (fun i => Q (i + 1)) fun i s hs => by
      have hi := h (i + 1) s hs
      rwa [List.take_succ_cons, taken_cons, ← Nat.add_assoc] at hi
    refine ⟨t :: ts, rfl, fun i u hu => ?_⟩
    cases i with
    | zero =>
      obtain rfl := Option.some.inj hu
      exact ht
    | succ i =>
      rw [List.take_succ_cons, Tree.textAll_cons, Text.width_append, ← Nat.add_assoc]
      exact hts i u hu

/-- Trees that stand in a row were matched one after the other. -/
theorem exists_after_row {ts : List Tree} (hpos : Text.fromBoundary? input pos = some rest)
    (h : ∀ i t rest, ts[i]? = some t →
      Text.fromBoundary? input (pos + Text.width (Tree.textAll (ts.take i))) = some rest →
      ∃ after, rest = t.text ++ after) : ∃ after, rest = Tree.textAll ts ++ after := by
  induction ts generalizing pos rest with
  | nil => exact ⟨rest, rfl⟩
  | cons t ts ih =>
    obtain ⟨after, rfl⟩ := h 0 t rest rfl hpos
    have hnext : Text.fromBoundary? input (pos + Text.width t.text) = some after := by
      rw [Text.fromBoundary?_add hpos, Text.fromBoundary?_width]
    obtain ⟨after', rfl⟩ := ih hnext fun i u rest hu hrest => by
      refine h (i + 1) u rest hu ?_
      rwa [List.take_succ_cons, Tree.textAll_cons, Text.width_append, ← Nat.add_assoc]
    exact ⟨after', by rw [Tree.textAll_cons, List.append_assoc]⟩

/-- A tree records a match of what stands at the offset. -/
theorem Grows.exists_after {t : Tree} (h : Grows bodies limit input depth n pos t) {rest : List Char}
    (hpos : Text.fromBoundary? input pos = some rest) : ∃ after, rest = t.text ++ after := by
  induction h generalizing rest with
  | literal h | sequence _ _ h => exact ⟨_, Option.some.inj (hpos.symm.trans h)⟩
  | @regex depth a source regex pos rest' n _ h =>
    obtain rfl := Option.some.inj (hpos.symm.trans h)
    exact ⟨rest.drop n, (List.take_append_drop n rest).symm⟩
  | choice _ _ _ _ ih | reference _ _ _ ih =>
    rw [Tree.text, Tree.textAll_cons, Tree.textAll_nil, List.append_nil]
    exact ih hpos
  | repetition _ _ _ _ _ ih => exact exists_after_row hpos fun i t _ ht => ih i t ht
  | skipped => exact ⟨rest, rfl⟩

/-- Every match that is derived is recorded by a tree. -/
theorem Yields.exists_grows {o : Outcome} (h : Yields bodies limit input depth n pos o) :
    ∀ s, o = .ok s → ∃ t, Grows bodies limit input depth n pos t ∧ s = t.success := by
  induction h with
  | literal hpos =>
    intro s hs
    obtain rfl := Except.ok.inj hs
    exact ⟨_, .literal hpos, by rw [Tree.success, Tree.value, String.ofList_toList]; rfl⟩
  | literalFailed hpos hnot =>
    exact fun s hs => exists_grows_of_failing hs (.literalFailed hpos hnot)
  | regex hregex hpos hmatch =>
    intro s hs
    obtain rfl := Except.ok.inj hs
    exact ⟨_, .regex hregex hpos hmatch, rfl⟩
  | regexFailed hregex hpos hnot =>
    exact fun s hs => exists_grows_of_failing hs (.regexFailed hregex hpos hnot)
  | @sequence depth a ns ss pos text after hlen hss hpos hwidth ih =>
    intro s hs
    obtain rfl := Except.ok.inj hs
    obtain ⟨ts, rfl, hts⟩ := exists_trees (Q := fun i pos t => ∀ n, ns[i]? = some n →
        Grows bodies limit input depth n pos t) fun i s hs => by
      have hi : i < ns.length := hlen ▸ (List.getElem?_eq_some_iff.mp hs).1
      obtain ⟨t, ht, rfl⟩ := ih i _ s (List.getElem?_eq_getElem hi) hs s rfl
      refine ⟨t, fun n hn => ?_, rfl⟩
      rw [List.getElem?_eq_getElem hi] at hn
      exact Option.some.inj hn ▸ ht
    rw [List.length_map] at hlen
    rw [Tree.taken_map_success] at hwidth ⊢
    -- what the sequence matched is what its parts matched
    have hrow : ∀ i t rest, ts[i]? = some t →
        Text.fromBoundary? input (pos + Text.width (Tree.textAll (ts.take i))) = some rest →
        ∃ after, rest = t.text ++ after := fun i t rest ht hrest => by
      have hi : i < ns.length := hlen ▸ (List.getElem?_eq_some_iff.mp ht).1
      exact (hts i t ht _ (List.getElem?_eq_getElem hi)).exists_after hrest
    obtain ⟨after', hafter⟩ := exists_after_row hpos hrow
    obtain rfl : text = Tree.textAll ts := by
      have htake := congrArg (Text.takeBytes · (Text.width text)) hafter
      rwa [Text.takeBytes_width, hwidth, Text.takeBytes_width] at htake
    refine ⟨_, .sequence hlen (fun i n t hn ht => hts i t ht n hn) hpos, ?_⟩
    rw [Tree.partsValue_map_success, Tree.success, Tree.value, Tree.text]
    rfl
  | sequenceFailed hlen hss h he =>
    exact fun s hs => exists_grows_of_failing hs (.sequenceFailed hlen hss h he)
  | choice hlen hes hall _ _ ih =>
    intro s hs
    obtain rfl := Except.ok.inj hs
    obtain ⟨t, ht, rfl⟩ := ih _ rfl
    exact ⟨_, .choice hlen hes hall ht, by simp [Tree.success, Tree.value, Tree.text, Tree.valueAll,
      Tree.assemble, Node.attributes]⟩
  | choiceFailed hlen hes hall =>
    exact fun s hs => exists_grows_of_failing hs (.choiceFailed hlen hes hall)
  | @repetition depth a n ss o pos hss hsome hlast hzero hfatal ih =>
    intro s hs
    obtain rfl := Except.ok.inj hs
    obtain ⟨ts, rfl, hts⟩ := exists_trees (Q := fun _ pos t =>
        Grows bodies limit input depth n pos t) fun i s hs => ih i s hs s rfl
    rw [Tree.taken_map_success] at hlast ⊢
    refine ⟨_, .repetition hts (fun t ht hnil => ?_) hlast hzero hfatal, ?_⟩
    · have hpos := hsome _ (List.mem_map_of_mem ht)
      rw [Tree.success, hnil] at hpos
      exact Nat.lt_irrefl 0 hpos
    · rw [Tree.success, Tree.value, Tree.text, Tree.valueAll_eq_map, List.map_map]
      rfl
  | reference hbody hdepth _ ih =>
    intro s hs
    obtain rfl := Except.ok.inj hs
    obtain ⟨t, ht, rfl⟩ := ih _ rfl
    exact ⟨_, .reference hbody hdepth ht, by simp [Tree.success, Tree.value, Tree.text,
      Tree.valueAll, Tree.assemble, Node.attributes]⟩
  | referenceFailed hbody hdepth h =>
    exact fun s hs => exists_grows_of_failing hs (.referenceFailed hbody hdepth h)
  | sequenceFatal | choiceFatal | repetitionFatal | unresolved | tooDeep =>
    intro s hs
    cases hs

theorem Grows.of {t : Tree} (h : Grows bodies limit input depth n pos t) : t.Of bodies n := by
  induction h with
  | literal => exact .literal
  | regex hregex _ hmatch => exact .regex hregex hmatch
  | @sequence depth a ns ts pos after hlen _ _ ih =>
    refine .sequence (List.forall₂_iff_get.mpr ⟨hlen.symm, fun i hn ht => ?_⟩)
    exact ih i _ _ (List.getElem?_eq_getElem hn) (List.getElem?_eq_getElem ht)
  | choice _ _ _ _ ih => exact .choice (by simp) ih
  | repetition _ _ _ _ _ ih =>
    refine .repetition fun t ht => ?_
    obtain ⟨i, hi⟩ := List.getElem?_of_mem ht
    exact ih i t hi
  | reference hbody _ _ ih => exact .reference hbody ih
  | skipped hnull => exact .skipped hnull

/-- Every match that is found without a memo is derived. -/
theorem yields_of_plain {r : Registry} {root : Node} {p : Parser} {m : Matcher} {left : Nat}
    (hp : Parser.compile r root = .ok p) (hn : Node.compile r n = .ok m)
    (hpos : Text.fromBoundary? input pos = some rest)
    (h : m.plain p.rules limit left pos rest = .ok s) :
    Yields r.body? left input 0 n pos (.ok s) := by
  have hsettled : Outcome.Settled (m.plain p.rules limit left pos rest) := h ▸ .ok s
  have hplain := (plain_limit hpos hsettled left).trans h
  exact (plain_eq_iff_yields (Parser.compile_reference hp) hn hpos).mp hplain

theorem Parser.Reaches.placed {p : Parser} {member : Matcher → Prop} (F : Family p.rules member)
    (hid : Identified member) (hroot : member p.root) {options : Options} {x : Frame}
    (hx : p.Reaches options input x) : x.Placed p.rules options.maxDepth input member := by
  have hstart : (p.start options input).Placed p.rules options.maxDepth input member :=
    ⟨Text.fromBoundary?_zero input, Memo.sound_empty _, List.forall_mem_singleton.mpr hroot⟩
  exact hstart.reached F hid hx

/-- Every match of a node that is asked for in a parse is derived. -/
theorem Parser.exists_yields_of_ask {r : Registry} {root : Node} {p : Parser}
    {member : Matcher → Prop} (hp : Parser.compile r root = .ok p) (F : Family p.rules member)
    (hid : Identified member) (hroot : member p.root) {options : Options} {x : Frame}
    (hx : p.Reaches options input x) {m : Matcher} (htask : x.task = .ask m)
    (hn : Node.compile r n = .ok m) {memo : Memo}
    (h : memoized m.attributes.id (m.evaluate p.rules (enter p.rules options.maxDepth x.left))
      x.pos x.rest x.memo = (.ok s, memo)) :
    Text.fromBoundary? input x.pos = some x.rest ∧
      ∃ k, Yields r.body? k input 0 n x.pos (.ok s) := by
  have hplaced := hx.placed F hid hroot
  obtain ⟨-, k, hplain⟩ :=
    exists_plain_of_ask F hid (hplaced.asked htask) hplaced.boundary hplaced.sound h (.ok s)
  exact ⟨hplaced.boundary, k, yields_of_plain hp hn hplaced.boundary hplain⟩

/-- The match of a parse is derived. -/
theorem Parser.exists_yields {r : Registry} {root : Node} {p : Parser} {member : Matcher → Prop}
    (hp : Parser.compile r root = .ok p) (F : Family p.rules member) (hid : Identified member)
    (hroot : member p.root) {options : Options} (h : p.parse options input = .ok s) :
    ∃ k, Yields r.body? k input 0 root 0 (.ok s) := by
  have hmatch := Parser.matchAt_of_parse_ok h
  have hpos := Text.fromBoundary?_zero input
  obtain ⟨memo', hrun⟩ : ∃ memo', p.matchAt options.maxDepth 0 input (.empty options.memoize) =
    (.ok s, memo') := ⟨_, Prod.ext hmatch rfl⟩
  obtain ⟨-, k, hplain⟩ :=
    exists_plain_of_run F hid hroot hpos (Memo.sound_empty _) hrun (.ok s)
  exact ⟨k, yields_of_plain hp (Parser.compile_eq_ok hp).1 hpos hplain⟩

/-- Where all of the input has to match, nothing is left of it. -/
theorem Parser.not_lt_of_matchAll {p : Parser} {options : Options} (hall : options.matchAll = true)
    (h : p.parse options input = .ok s) : ¬ s.consumed < Text.width input := by
  rw [p.parse_eq, Parser.matchAt_of_parse_ok h, Options.complete, if_pos hall,
    Outcome.requireAll] at h
  split at h
  · cases h
  · next hlt => exact hlt

end Typestrip.Grammar
