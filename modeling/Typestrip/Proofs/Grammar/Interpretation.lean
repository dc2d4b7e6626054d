import Typestrip.Proofs.Grammar.Declarations
import Typestrip.Proofs.Grammar.Memoization

/-!
# What a grammar means

`Yields` says what comes of matching a node of a grammar, kind by kind, on the nodes themselves:
names stand for the bodies that are given by a function, and nothing is compiled or numbered.
Positions are offsets into the whole input.

Main statement: `Yields.comes`, matching the compiled node has every outcome that is derived.
-/

namespace Typestrip.Grammar

/-! ## The rules -/

/-- How much input matches take in turn. -/
def taken : List Success → Nat
  | [] => 0
  | s :: ss => s.consumed + taken ss

/-- A failure of a node: a match of nothing if the node is nullable, unless the failure is fatal. -/
def Attributes.failing (a : Attributes) (e : ParseError) : Outcome :=
  if a.nullable = true ∧ e.isFatal = false then .ok ⟨.null, 0⟩ else .error e

/-- The values of the parts of a sequence that have names, or what was matched if none has. -/
def partsValue (ns : List Node) (ss : List Success) (text : List Char) : Value :=
  if ns.any (·.attributes.capture.isSome) then
    .object ((ns.zip ss).foldl (fun fields x => keep x.1.attributes x.2.value fields) [])
  else .text (String.ofList text)

/-- `Yields bodies limit input depth n pos o`: inside `depth` rules, matching the node `n` at the
offset `pos` of the input has the outcome `o`. -/
inductive Yields (bodies : String → Option Node) (limit : Nat) (input : List Char) :
    Nat → Node → Nat → Outcome → Prop
  | literal {depth a text pos after} : Text.fromBoundary? input pos = some (text.toList ++ after) →
      Yields bodies limit input depth (.terminal a (.literal text)) pos
        (.ok ⟨a.reshaped (.text text), Text.width text.toList⟩)
  | literalFailed {depth a text pos rest} : Text.fromBoundary? input pos = some rest →
      ¬ text.toList <+: rest →
      Yields bodies limit input depth (.terminal a (.literal text)) pos
        (a.failing (.unmatched pos (Pattern.literal text).describe))
  | regex {depth a source regex pos rest n} :
      Regex.Expr.ofSource? (anchoredSource source) = some regex →
      Text.fromBoundary? input pos = some rest → regex.search? rest = some n →
      Yields bodies limit input depth (.terminal a (.regex source)) pos
        (.ok ⟨a.reshaped (.text (String.ofList (rest.take n))), Text.width (rest.take n)⟩)
  | regexFailed {depth a source regex pos rest} :
      Regex.Expr.ofSource? (anchoredSource source) = some regex →
      Text.fromBoundary? input pos = some rest → regex.search? rest = none →
      Yields bodies limit input depth (.terminal a (.regex source)) pos
        (a.failing (.unmatched pos (Pattern.regex source).describe))
  | sequence {depth a ns ss pos text after} : ss.length = ns.length →
      (∀ i n s, ns[i]? = some n → ss[i]? = some s →
        Yields bodies limit input depth n (pos + taken (ss.take i)) (.ok s)) →
      Text.fromBoundary? input pos = some (text ++ after) → Text.width text = taken ss →
      Yields bodies limit input depth (.sequence a ns) pos
        (.ok ⟨a.reshaped (partsValue ns ss text), taken ss⟩)
  | sequenceFailed {depth a front n back ss e pos} : ss.length = front.length →
      (∀ i m s, front[i]? = some m → ss[i]? = some s →
        Yields bodies limit input depth m (pos + taken (ss.take i)) (.ok s)) →
      Yields bodies limit input depth n (pos + taken ss) (.error e) → e.isFatal = false →
      Yields bodies limit input depth (.sequence a (front ++ n :: back)) pos
        (a.failing (.stopped (pos + taken ss) e))
  | sequenceFatal {depth a front n back ss e pos} : ss.length = front.length →
      (∀ i m s, front[i]? = some m → ss[i]? = some s →
        Yields bodies limit input depth m (pos + taken (ss.take i)) (.ok s)) →
      Yields bodies limit input depth n (pos + taken ss) (.error e) → e.isFatal = true →
      Yields bodies limit input depth (.sequence a (front ++ n :: back)) pos (.error e)
  | choice {depth a front n back s pos} {es : List ParseError} : es.length = front.length →
      (∀ (i : Nat) m e, front[i]? = some m → es[i]? = some e →
        Yields bodies limit input depth m pos (.error e)) →
      (∀ e ∈ es, e.isFatal = false) → Yields bodies limit input depth n pos (.ok s) →
      Yields bodies limit input depth (.choice a (front ++ n :: back)) pos
        (.ok ⟨a.reshaped s.value, s.consumed⟩)
  | choiceFailed {depth a ns pos} {es : List ParseError} : es.length = ns.length →
      (∀ (i : Nat) m e, ns[i]? = some m → es[i]? = some e →
        Yields bodies limit input depth m pos (.error e)) →
      (∀ e ∈ es, e.isFatal = false) →
      Yields bodies limit input depth (.choice a ns) pos (a.failing (.exhausted pos es))
  | choiceFatal {depth a front n back e pos} {es : List ParseError} : es.length = front.length →
      (∀ (i : Nat) m e, front[i]? = some m → es[i]? = some e →
        Yields bodies limit input depth m pos (.error e)) →
      (∀ e ∈ es, e.isFatal = false) → Yields bodies limit input depth n pos (.error e) →
      e.isFatal = true →
      Yields bodies limit input depth (.choice a (front ++ n :: back)) pos (.error e)
  | repetition {depth a n ss o pos} :
      (∀ i s, ss[i]? = some s →
        Yields bodies limit input depth n (pos + taken (ss.take i)) (.ok s)) →
      (∀ s ∈ ss, 0 < s.consumed) →
      Yields bodies limit input depth n (pos + taken ss) o →
      (∀ s, o = .ok s → s.consumed = 0) → (∀ e, o = .error e → e.isFatal = false) →
      Yields bodies limit input depth (.repetition a n) pos
        (.ok ⟨a.reshaped (.list (ss.map (·.value))), taken ss⟩)
  | repetitionFatal {depth a n ss e pos} :
      (∀ i s, ss[i]? = some s →
        Yields bodies limit input depth n (pos + taken (ss.take i)) (.ok s)) →
      (∀ s ∈ ss, 0 < s.consumed) →
      Yields bodies limit input depth n (pos + taken ss) (.error e) → e.isFatal = true →
      Yields bodies limit input depth (.repetition a n) pos (.error e)
  | unresolved {depth a name pos} : bodies name = none →
      Yields bodies limit input depth (.reference a name) pos (.error (.unresolved name))
  | tooDeep {depth a name body pos} : bodies name = some body → limit ≤ depth →
      Yields bodies limit input depth (.reference a name) pos (.error (.tooDeep pos limit))
  | reference {depth a name body s pos} : bodies name = some body → depth < limit →
      Yields bodies limit input (depth + 1) body pos (.ok s) →
      Yields bodies limit input depth (.reference a name) pos
        (.ok ⟨a.reshaped s.value, s.consumed⟩)
  | referenceFailed {depth a name body e pos} : bodies name = some body → depth < limit →
      Yields bodies limit input (depth + 1) body pos (.error e) →
      Yields bodies limit input depth (.reference a name) pos (a.failing e)

theorem Attributes.recover_error (a : Attributes) (e : ParseError) :
    a.recover (.error e) = a.failing e := by
  rw [recover, failing]
  simp

/-- The table of rules holds the compiled bodies. -/
def Linked (r : Registry) (rules : Rules) (bodies : String → Option Node) : Prop :=
  ∀ name, (bodies name).map (Node.compile r) =
    ((r.lookup name).bind fun i => (rules[i]?).join).map .ok

variable {bodies : String → Option Node} {r : Registry} {rules : Rules} {limit left : Nat}
  {input : List Char}

/-- Matching the compiled node at an offset of the input has the outcome. -/
def Comes (r : Registry) (rules : Rules) (limit left : Nat) (input : List Char) (n : Node)
    (pos : Nat) (o : Outcome) : Prop :=
  ∀ ⦃m rest⦄, Node.compile r n = .ok m → Text.fromBoundary? input pos = some rest →
    m.plain rules limit left pos rest = o

@[simp] theorem taken_nil : taken [] = 0 := rfl

@[simp] theorem taken_cons (s : Success) (ss : List Success) :
    taken (s :: ss) = s.consumed + taken ss := rfl

/-- Parts that match in turn are passed. -/
theorem evaluateAll_append {ns : List Node} {ms : List Matcher}
    (hms : List.Forall₂ (fun n m => Node.compile r n = .ok m) ns ms) {ss : List Success}
    (hlen : ss.length = ns.length) {pos : Nat} {rest : List Char}
    (hpos : Text.fromBoundary? input pos = some rest)
    (h : ∀ i n s, ns[i]? = some n → ss[i]? = some s →
      Comes r rules limit left input n (pos + taken (ss.take i)) (.ok s))
    (back : List Matcher) (fields : List (String × Value)) :
    ∃ rest', Text.fromBoundary? input (pos + taken ss) = some rest' ∧
      Matcher.evaluateAll rules (enter rules limit left) (ms ++ back) fields pos rest .off =
        Matcher.evaluateAll rules (enter rules limit left) back
          ((ns.zip ss).foldl (fun fields x => keep x.1.attributes x.2.value fields) fields)
          (pos + taken ss) rest' .off := by
  induction hms generalizing ss pos rest fields with
  | nil =>
    obtain rfl := List.length_eq_zero_iff.mp hlen
    exact ⟨rest, hpos, rfl⟩
  | @cons n m ns ms hm hms ih =>
    obtain _ | ⟨s, ss⟩ := ss
    · cases hlen
    have hplain : m.plain rules limit left pos rest = .ok s := h 0 n s rfl rfl hm hpos
    have hend := plain_boundary hpos hplain
    have hset : Outcome.Settled (m.plain rules limit left pos rest) := hplain ▸ .ok s
    -- the offsets of the other parts are counted from the end of the first
    obtain ⟨rest', hrest', hih⟩ := ih (Nat.succ.inj hlen) (Text.fromBoundary?_step hpos hend)
      (fun i n s hn hs => by
        have hi := h (i + 1) n s hn hs
        rwa [List.take_succ_cons, taken_cons, ← Nat.add_assoc] at hi)
      (keep m.attributes s.value fields)
    rw [taken_cons, ← Nat.add_assoc]
    refine ⟨rest', hrest', ?_⟩
    rw [List.cons_append, Matcher.evaluateAll, ask_off_of_settled hpos hset, hplain]
    dsimp only
    rw [hih, (Node.compile_eq_ok hm).1]
    rfl

/-- Alternatives that fail without being fatal are passed. -/
theorem evaluateFirst_append {ns : List Node} {ms : List Matcher}
    (hms : List.Forall₂ (fun n m => Node.compile r n = .ok m) ns ms) {es : List ParseError}
    (hlen : es.length = ns.length) {pos : Nat} {rest : List Char}
    (hpos : Text.fromBoundary? input pos = some rest)
    (h : ∀ (i : Nat) n e, ns[i]? = some n → es[i]? = some e →
      Comes r rules limit left input n pos (.error e))
    (hfatal : ∀ e ∈ es, e.isFatal = false) (back : List Matcher) (failures : List ParseError) :
    Matcher.evaluateFirst rules (enter rules limit left) (ms ++ back) failures pos rest .off =
      Matcher.evaluateFirst rules (enter rules limit left) back (es.reverse ++ failures) pos rest
        .off := by
  induction hms generalizing es failures with
  | nil =>
    obtain rfl := List.length_eq_zero_iff.mp hlen
    rfl
  | @cons n m ns ms hm hms ih =>
    obtain _ | ⟨e, es⟩ := es
    · cases hlen
    obtain ⟨he, hes⟩ := List.forall_mem_cons.mp hfatal
    have hplain : m.plain rules limit left pos rest = .error e := h 0 n e rfl rfl hm hpos
    have hset : Outcome.Settled (m.plain rules limit left pos rest) := hplain ▸ .not_fatal he
    rw [List.cons_append, Matcher.evaluateFirst, ask_off_of_settled hpos hset, hplain]
    dsimp only
    rw [if_neg (by simp [he]), ih (Nat.succ.inj hlen) (fun i n e hn he => h (i + 1) n e hn he) hes,
      List.reverse_cons, List.append_assoc]
    rfl

/-- Rounds that take input are passed. -/
theorem iterate_append {n : Node} {m : Matcher} (hm : Node.compile r n = .ok m) {ss : List Success}
    {pos : Nat} {rest : List Char} (hpos : Text.fromBoundary? input pos = some rest)
    (h : ∀ i s, ss[i]? = some s →
      Comes r rules limit left input n (pos + taken (ss.take i)) (.ok s))
    (hsome : ∀ s ∈ ss, 0 < s.consumed) (items : List Value) :
    ∃ rest', Text.fromBoundary? input (pos + taken ss) = some rest' ∧
      iterate (m.run rules (enter rules limit left)) items pos rest .off =
        iterate (m.run rules (enter rules limit left)) ((ss.map (·.value)).reverse ++ items)
          (pos + taken ss) rest' .off := by
  induction ss generalizing pos rest items with
  | nil => exact ⟨rest, hpos, rfl⟩
  | cons s ss ih =>
    obtain ⟨hs, hss⟩ := List.forall_mem_cons.mp hsome
    have hplain : m.plain rules limit left pos rest = .ok s := h 0 s rfl hm hpos
    have hset : Outcome.Settled (m.plain rules limit left pos rest) := hplain ▸ .ok s
    have hend := plain_boundary hpos hplain
    obtain ⟨rest', hrest', hih⟩ := ih (Text.fromBoundary?_step hpos hend)
      (fun i s hs => by
        have hi := h (i + 1) s hs
        rwa [List.take_succ_cons, taken_cons, ← Nat.add_assoc] at hi)
      hss (s.value :: items)
    rw [taken_cons, ← Nat.add_assoc]
    refine ⟨rest', hrest', ?_⟩
    rw [iterate, run_off_of_settled hpos hset, hplain]
    obtain ⟨n, hn⟩ := Nat.exists_eq_succ_of_ne_zero (Nat.ne_of_gt hs)
    cases rest with
    | nil =>
      -- at the end of the input nothing can be taken
      rw [hn, Text.fromBoundary?_add hpos] at hend
      cases hend
    | cons c cs =>
      dsimp only
      rw [hn] at hih ⊢
      dsimp only
      rw [hih]
      simp

/-! ## Derived outcomes are those of matching -/

theorem exists_of_forall₂_append {α β : Type} {R : α → β → Prop} {front back : List α} {x : α}
    {bs : List β} (h : List.Forall₂ R (front ++ x :: back) bs) :
    ∃ front' y back', List.Forall₂ R front front' ∧ R x y ∧ bs = front' ++ y :: back' := by
  induction front generalizing bs with
  | nil =>
    obtain ⟨y, back', hxy, -, rfl⟩ := List.forall₂_cons_left_iff.mp h
    exact ⟨[], y, back', .nil, hxy, rfl⟩
  | cons a front ih =>
    obtain ⟨b, bs', hab, h', rfl⟩ := List.forall₂_cons_left_iff.mp h
    obtain ⟨front', y, back', hfront, hxy, rfl⟩ := ih h'
    exact ⟨b :: front', y, back', .cons hab hfront, hxy, rfl⟩

theorem any_capture_eq {ns : List Node} {ms : List Matcher}
    (hms : List.Forall₂ (fun n m => Node.compile r n = .ok m) ns ms) :
    ms.any (·.attributes.capture.isSome) = ns.any (·.attributes.capture.isSome) := by
  induction hms with
  | nil => rfl
  | cons hm _ ih => rw [List.any_cons, List.any_cons, ih, (Node.compile_eq_ok hm).1]

theorem comes_sequence {a : Attributes} {ns : List Node} {ss : List Success} {pos : Nat}
    {text after : List Char} (hlen : ss.length = ns.length)
    (h : ∀ i n s, ns[i]? = some n → ss[i]? = some s →
      Comes r rules limit left input n (pos + taken (ss.take i)) (.ok s))
    (hpos : Text.fromBoundary? input pos = some (text ++ after)) (hw : Text.width text = taken ss) :
    Comes r rules limit left input (.sequence a ns) pos
      (.ok ⟨a.reshaped (partsValue ns ss text), taken ss⟩) := by
  intro m rest hm hrest
  obtain rfl := Option.some.inj (hpos.symm.trans hrest)
  rw [Node.compile] at hm
  obtain ⟨ms, hns, rfl⟩ := exists_of_map_eq_ok hm
  have hms := Node.compileAll_forall₂ hns
  obtain ⟨rest', -, hall⟩ := evaluateAll_append hms hlen hpos h [] []
  rw [List.append_nil, Matcher.evaluateAll] at hall
  rw [Matcher.plain, Matcher.evaluate_sequence, hall, Attributes.finish]
  dsimp only
  rw [Nat.add_sub_cancel_left, sequenceValue, partsValue, any_capture_eq hms, ← hw,
    Text.takeBytes_width]

theorem comes_sequence_error (a : Attributes) {front : List Node} (back : List Node) {n : Node}
    {ss : List Success} {e : ParseError} {pos : Nat} (hlen : ss.length = front.length)
    (h : ∀ i m s, front[i]? = some m → ss[i]? = some s →
      Comes r rules limit left input m (pos + taken (ss.take i)) (.ok s))
    (hn : Comes r rules limit left input n (pos + taken ss) (.error e)) :
    Comes r rules limit left input (.sequence a (front ++ n :: back)) pos
      (a.recover (.error (if e.isFatal = true then e else .stopped (pos + taken ss) e))) := by
  intro m rest hm hrest
  rw [Node.compile] at hm
  obtain ⟨ms, hns, rfl⟩ := exists_of_map_eq_ok hm
  obtain ⟨front', m, back', hfront, hnm, rfl⟩ :=
    exists_of_forall₂_append (Node.compileAll_forall₂ hns)
  obtain ⟨rest', hrest', hall⟩ := evaluateAll_append hfront hlen hrest h (m :: back') []
  rw [Matcher.evaluateAll, ask_off, hn hnm hrest'] at hall
  rw [Matcher.plain, Matcher.evaluate_sequence, hall]
  rfl

theorem comes_choice {a : Attributes} {front back : List Node} {n : Node} {es : List ParseError}
    {o : Outcome} {pos : Nat} (hlen : es.length = front.length)
    (h : ∀ (i : Nat) m e, front[i]? = some m → es[i]? = some e →
      Comes r rules limit left input m pos (.error e))
    (hfatal : ∀ e ∈ es, e.isFatal = false) (hn : Comes r rules limit left input n pos o)
    (ho : ∀ e, o = .error e → e.isFatal = true) :
    Comes r rules limit left input (.choice a (front ++ n :: back)) pos
      (o.map fun s => ⟨a.reshaped s.value, s.consumed⟩) := by
  intro m rest hm hrest
  rw [Node.compile] at hm
  obtain ⟨ms, hns, rfl⟩ := exists_of_map_eq_ok hm
  obtain ⟨front', m, back', hfront, hnm, rfl⟩ :=
    exists_of_forall₂_append (Node.compileAll_forall₂ hns)
  have hfirst := evaluateFirst_append hfront hlen hrest h hfatal (m :: back') []
  rw [Matcher.evaluateFirst, ask_off, hn hnm hrest] at hfirst
  rw [Matcher.plain, Matcher.evaluate_choice, hfirst]
  cases o with
  | ok s => rfl
  | error e =>
    dsimp only
    rw [if_pos (ho e rfl)]
    exact a.recover_of_isFatal (ho e rfl)

theorem comes_choice_exhausted {a : Attributes} {ns : List Node} {es : List ParseError} {pos : Nat}
    (hlen : es.length = ns.length)
    (h : ∀ (i : Nat) m e, ns[i]? = some m → es[i]? = some e →
      Comes r rules limit left input m pos (.error e))
    (hfatal : ∀ e ∈ es, e.isFatal = false) :
    Comes r rules limit left input (.choice a ns) pos (a.failing (.exhausted pos es)) := by
  intro m rest hm hrest
  rw [Node.compile] at hm
  obtain ⟨ms, hns, rfl⟩ := exists_of_map_eq_ok hm
  have hfirst := evaluateFirst_append (Node.compileAll_forall₂ hns) hlen hrest h hfatal [] []
  rw [List.append_nil, List.append_nil, Matcher.evaluateFirst, List.reverse_reverse] at hfirst
  rw [Matcher.plain, Matcher.evaluate_choice, hfirst, ← a.recover_error]
  rfl

/-- The rounds of a repetition up to the last one. -/
theorem iterate_last {n : Node} {m : Matcher} (hm : Node.compile r n = .ok m) {ss : List Success}
    {o : Outcome} {pos : Nat} {rest : List Char} (hpos : Text.fromBoundary? input pos = some rest)
    (h : ∀ i s, ss[i]? = some s →
      Comes r rules limit left input n (pos + taken (ss.take i)) (.ok s))
    (hsome : ∀ s ∈ ss, 0 < s.consumed)
    (hn : Comes r rules limit left input n (pos + taken ss) o) :
    ∃ rest' memo,
      m.run rules (enter rules limit left) (pos + taken ss) rest' .off = (o, memo) ∧
      iterate (m.run rules (enter rules limit left)) [] pos rest .off =
        iterate (m.run rules (enter rules limit left)) (ss.map (·.value)).reverse (pos + taken ss)
          rest' .off := by
  obtain ⟨rest', hrest', hrounds⟩ := iterate_append hm hpos h hsome []
  rw [List.append_nil] at hrounds
  exact ⟨rest', _, Prod.ext ((run_off m left _ _).trans (hn hm hrest')) rfl, hrounds⟩

theorem comes_repetition {a : Attributes} {n : Node} {ss : List Success} {o : Outcome} {pos : Nat}
    (h : ∀ i s, ss[i]? = some s →
      Comes r rules limit left input n (pos + taken (ss.take i)) (.ok s))
    (hsome : ∀ s ∈ ss, 0 < s.consumed)
    (hn : Comes r rules limit left input n (pos + taken ss) o)
    (ho : ∀ s, o = .ok s → s.consumed = 0) (hfatal : ∀ e, o = .error e → e.isFatal = false) :
    Comes r rules limit left input (.repetition a n) pos
      (.ok ⟨a.reshaped (.list (ss.map (·.value))), taken ss⟩) := by
  intro m rest hm hrest
  rw [Node.compile] at hm
  obtain ⟨m, hnm, rfl⟩ := exists_of_map_eq_ok hm
  obtain ⟨rest', memo, hlast, hrounds⟩ := iterate_last hnm hrest h hsome hn
  rw [Matcher.plain, Matcher.evaluate_repetition, hrounds, iterate, hlast]
  cases o with
  | ok s => simp [ho s rfl, Attributes.finish]
  | error e => simp [hfatal e rfl, Attributes.finish]

theorem comes_repetition_fatal {a : Attributes} {n : Node} {ss : List Success} {e : ParseError}
    {pos : Nat}
    (h : ∀ i s, ss[i]? = some s →
      Comes r rules limit left input n (pos + taken (ss.take i)) (.ok s))
    (hsome : ∀ s ∈ ss, 0 < s.consumed)
    (hn : Comes r rules limit left input n (pos + taken ss) (.error e)) (he : e.isFatal = true) :
    Comes r rules limit left input (.repetition a n) pos (.error e) := by
  intro m rest hm hrest
  rw [Node.compile] at hm
  obtain ⟨m, hnm, rfl⟩ := exists_of_map_eq_ok hm
  obtain ⟨rest', memo, hlast, hrounds⟩ := iterate_last hnm hrest h hsome hn
  rw [Matcher.plain, Matcher.evaluate_repetition, hrounds, iterate, hlast]
  dsimp only
  rw [if_pos he]
  exact a.recover_of_isFatal he

/-- A reference does with the outcome of the body what nodes with parts do. -/
theorem comes_reference {a : Attributes} {name : String} {body : Node} {o : Outcome} {pos : Nat}
    (hl : Linked r rules bodies) (hbody : bodies name = some body)
    (hn : Comes r rules limit left input body pos o) :
    Comes r rules limit (left + 1) input (.reference a name) pos
      (a.finish (fun s => ⟨a.reshaped s.value, s.consumed⟩) (o, .off)).1 := by
  intro m rest hm hrest
  obtain rfl := Except.ok.inj hm
  have hlink := hl name
  rw [hbody, Option.map_some] at hlink
  obtain ⟨m, hslot, hm⟩ := Option.map_eq_some_iff.mp hlink.symm
  have hrun : (enter rules limit (left + 1) m pos rest .off).1 = o :=
    (run_off m left pos rest).trans (hn hm.symm hrest)
  rw [Matcher.plain, Matcher.evaluate_rule _ _ _ _ _ _ _ hslot, ← hrun]
  rcases enter rules limit (left + 1) m pos rest .off with ⟨_ | s, memo⟩ <;> rfl

theorem comes_tooDeep {a : Attributes} {name : String} {body : Node} {pos : Nat}
    (hl : Linked r rules bodies) (hbody : bodies name = some body) :
    Comes r rules limit 0 input (.reference a name) pos (.error (.tooDeep pos limit)) := by
  intro m rest hm hrest
  obtain rfl := Except.ok.inj hm
  have hlink := hl name
  rw [hbody, Option.map_some] at hlink
  obtain ⟨m, hslot, -⟩ := Option.map_eq_some_iff.mp hlink.symm
  rw [Matcher.plain, Matcher.evaluate_rule _ _ _ _ _ _ _ hslot]
  exact a.recover_of_isFatal rfl

theorem comes_unresolved {a : Attributes} {name : String} {pos : Nat} (hl : Linked r rules bodies)
    (hname : bodies name = none) :
    Comes r rules limit left input (.reference a name) pos (.error (.unresolved name)) := by
  intro m rest hm hrest
  obtain rfl := Except.ok.inj hm
  have hlink := hl name
  rw [hname, Option.map_none] at hlink
  have hslot := Option.map_eq_none_iff.mp hlink.symm
  rw [Matcher.plain, Matcher.evaluate_rule_none _ _ _ _ _ _ _ hslot]

theorem comes_literal {a : Attributes} {text : String} {pos : Nat} {after : List Char}
    (hpos : Text.fromBoundary? input pos = some (text.toList ++ after)) :
    Comes r rules limit left input (.terminal a (.literal text)) pos
      (.ok ⟨a.reshaped (.text text), Text.width text.toList⟩) := by
  intro m rest hm hrest
  obtain rfl := Except.ok.inj hm
  obtain rfl := Option.some.inj (hpos.symm.trans hrest)
  rw [Matcher.plain, Matcher.evaluate_literal, matchLiteral, stripPrefix?_eq_some_iff.mpr rfl]
  dsimp only
  rw [String.ofList_toList]
  rfl

theorem comes_literal_unmatched {a : Attributes} {text : String} {pos : Nat} {rest : List Char}
    (hpos : Text.fromBoundary? input pos = some rest) (htext : ¬ text.toList <+: rest) :
    Comes r rules limit left input (.terminal a (.literal text)) pos
      (a.failing (.unmatched pos (Pattern.literal text).describe)) := by
  intro m rest' hm hrest
  obtain rfl := Except.ok.inj hm
  obtain rfl := Option.some.inj (hpos.symm.trans hrest)
  rw [Matcher.plain, Matcher.evaluate_literal, matchLiteral]
  cases hstrip : stripPrefix? text.toList rest with
  | none => rw [← a.recover_error]
  | some after => exact absurd ⟨after, (stripPrefix?_eq_some_iff.mp hstrip).symm⟩ htext

theorem comes_regex {a : Attributes} {source : String} {regex : Regex.Expr} {pos : Nat}
    {rest : List Char} {n : Nat}
    (hregex : Regex.Expr.ofSource? (anchoredSource source) = some regex)
    (hpos : Text.fromBoundary? input pos = some rest) (hmatch : regex.search? rest = some n) :
    Comes r rules limit left input (.terminal a (.regex source)) pos
      (.ok ⟨a.reshaped (.text (String.ofList (rest.take n))), Text.width (rest.take n)⟩) := by
  intro m rest' hm hrest
  rw [Node.compile, hregex] at hm
  obtain rfl := Except.ok.inj hm
  obtain rfl := Option.some.inj (hpos.symm.trans hrest)
  rw [Matcher.plain, Matcher.evaluate_pattern, matchPattern, hmatch]
  rfl

theorem comes_regex_unmatched {a : Attributes} {source : String} {regex : Regex.Expr} {pos : Nat}
    {rest : List Char} (hregex : Regex.Expr.ofSource? (anchoredSource source) = some regex)
    (hpos : Text.fromBoundary? input pos = some rest) (hmatch : regex.search? rest = none) :
    Comes r rules limit left input (.terminal a (.regex source)) pos
      (a.failing (.unmatched pos (Pattern.regex source).describe)) := by
  intro m rest' hm hrest
  rw [Node.compile, hregex] at hm
  obtain rfl := Except.ok.inj hm
  obtain rfl := Option.some.inj (hpos.symm.trans hrest)
  rw [Matcher.plain, Matcher.evaluate_pattern, matchPattern, hmatch, ← a.recover_error]

/-- Matching compiled nodes has the outcomes that are derived. -/
theorem Yields.comes (hl : Linked r rules bodies) {depth : Nat} {n : Node} {pos : Nat} {o : Outcome}
    (h : Yields bodies limit input depth n pos o) :
    Comes r rules limit (limit - depth) input n pos o := by
  induction h with
  | literal hpos => exact comes_literal hpos
  | literalFailed hpos htext => exact comes_literal_unmatched hpos htext
  | regex hregex hpos hmatch => exact comes_regex hregex hpos hmatch
  | regexFailed hregex hpos hmatch => exact comes_regex_unmatched hregex hpos hmatch
  | sequence hlen _ hpos hw ih => exact comes_sequence hlen ih hpos hw
  | @sequenceFailed depth a front n back ss e pos hlen _ _ he ih ihn =>
    have hcomes := comes_sequence_error a back hlen ih ihn
    rwa [he, if_neg Bool.false_ne_true, a.recover_error] at hcomes
  | @sequenceFatal depth a front n back ss e pos hlen _ _ he ih ihn =>
    have hcomes := comes_sequence_error a back hlen ih ihn
    rwa [if_pos he, a.recover_of_isFatal he] at hcomes
  | choice hlen _ hfatal _ ih ihn => exact comes_choice hlen ih hfatal ihn (by simp)
  | choiceFailed hlen _ hfatal ih => exact comes_choice_exhausted hlen ih hfatal
  | choiceFatal hlen _ hfatal _ he ih ihn =>
    exact comes_choice hlen ih hfatal ihn (fun _ h => by cases h; exact he)
  | repetition _ hsome _ ho hfatal ih ihn => exact comes_repetition ih hsome ihn ho hfatal
  | repetitionFatal _ hsome _ he ih ihn => exact comes_repetition_fatal ih hsome ihn he
  | unresolved hname => exact comes_unresolved hl hname
  -- entries left are what the depth falls short of the limit
  | tooDeep hbody hdepth =>
    rw [Nat.sub_eq_zero_of_le hdepth]
    exact comes_tooDeep hl hbody
  | reference hbody hdepth _ ih =>
    rw [← Nat.sub_add_cancel (Nat.sub_pos_of_lt hdepth), Nat.sub_sub]
    exact comes_reference hl hbody ih
  | @referenceFailed depth a name body e pos hbody hdepth _ ih =>
    rw [← Nat.sub_add_cancel (Nat.sub_pos_of_lt hdepth), Nat.sub_sub, ← a.recover_error]
    exact comes_reference hl hbody ih

end Typestrip.Grammar
