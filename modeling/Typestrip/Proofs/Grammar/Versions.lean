import Typestrip.Proofs.Grammar.Courses
import Typestrip.Proofs.Grammar.Endings
import Typestrip.Proofs.Grammar.Values

/-!
# Two versions of a text

Two inputs that end with the same text are parsed side by side. The nodes that reach into the common
text meet there: what comes before it is passed on courses that are known, and from its first
character on both runs do the same, if neither has learnt anything about it before. So a node that
meets the common text has the same value in both versions (`Versions.Meets`), unless rules nest too
deeply in the first version, whose course may enter rules where that of the second does not.

There is one lemma for each construct and for what may happen to its parts: a part is passed, it is
the one that meets the common text, or the common text begins with it. What lies ahead has not been
asked for before, which is kept by passing nodes only that do not contain it.
-/

namespace Typestrip.Grammar

/-! ## Outlines in outlines -/

mutual
/-- Whether an outline is the same as another one or stands in it. -/
def Outline.contains (p : Outline) : Outline → Bool
  | .literal text => p.same (.literal text)
  | .pattern regex => p.same (.pattern regex)
  | .sequence os => p.same (.sequence os) || Outline.someContains p os
  | .choice os => p.same (.choice os) || Outline.someContains p os
  | .repetition o => p.same (.repetition o) || Outline.contains p o
  | .rule slot => p.same (.rule slot)
  | .optional o => p.same (.optional o) || Outline.contains p o
  | .kept o => p.same (.kept o) || Outline.contains p o

/-- Whether an outline is the same as one of a list or stands in it. -/
def Outline.someContains (p : Outline) : List Outline → Bool
  | [] => false
  | o :: os => Outline.contains p o || Outline.someContains p os
end

/-- Nothing of a list stands in the outline. -/
def Outline.clear (ahead : List Outline) (o : Outline) : Bool := ahead.all (!·.contains o)

variable {p o : Outline} {os ahead : List Outline}

theorem Outline.contains_self (p : Outline) : p.contains p = true := by
  have hsame := p.same_self
  cases p <;> simp only [contains, hsame, Bool.true_or]

theorem Outline.contains_core (h : p.contains o = false) : p.contains o.core = false := by
  induction o using Outline.core.induct with
  | case1 o ih => exact ih (Bool.or_eq_false_iff.mp h).2
  | case2 o ih => exact ih (Bool.or_eq_false_iff.mp h).2
  | case3 o hoptional hkept =>
    rwa [core]
    · exact hoptional
    · exact hkept

theorem Matcher.contains_of_mem {ms : List Matcher} {c : Matcher}
    (h : Outline.someContains p (Matcher.outlineAll ms) = false) (hc : c ∈ ms) :
    p.contains c.outline = false := by
  induction ms with
  | nil => cases hc
  | cons m ms ih =>
    obtain ⟨hm, hms⟩ := Bool.or_eq_false_iff.mp h
    rcases List.mem_cons.mp hc with rfl | hc
    · exact hm
    · exact ih hms hc

theorem Matcher.contains_children {m c : Matcher} (h : p.contains m.outline = false)
    (hc : c ∈ m.children) : p.contains c.outline = false := by
  have hcore := Outline.contains_core h
  cases m with
  | sequence a ms | choice a ms =>
    rw [outline, Attributes.core_outline _ rfl] at hcore
    exact contains_of_mem (Bool.or_eq_false_iff.mp hcore).2 hc
  | repetition a m =>
    obtain rfl := List.mem_singleton.mp hc
    rw [outline, Attributes.core_outline _ rfl] at hcore
    exact (Bool.or_eq_false_iff.mp hcore).2
  | literal | pattern | rule => cases hc

theorem Outline.clear_iff : o.clear ahead = true ↔ ∀ p ∈ ahead, p.contains o = false := by
  simp [clear]

/-! ## Versions -/

/-- Two inputs that end with the same text, of which the first may enter some rules before it comes
to the text. -/
structure Versions where
  rules : Rules
  limit : Nat
  member : Matcher → Prop
  family : Family rules member
  identified : Identified member
  bodies : Nat → Option Outline
  known : ∀ {slot o}, bodies slot = some o → outlineOf rules slot = some o
  first : List Char
  second : List Char
  common : List Char

namespace Versions

variable (V : Versions)

/-- In front of the common text. -/
def Before (cs : List Char) : Prop := V.common.length < cs.length

/-- The nodes in which nothing stands that lies ahead. -/
def near (ahead : List Outline) (m : Matcher) : Prop := m.outline.clear ahead = true

/-- The rules that the first version may enter have nothing ahead in them. -/
def Enters (ahead : List Outline) : Prop :=
  ∀ {slot o}, V.bodies slot = some o → o.clear ahead = true

/-- The memos of two runs before they come to the common text: they know nothing about it and nothing
about what lies ahead. -/
structure Abreast (ahead : List Outline) (memo memo' : Memo) : Prop where
  first : memo.Confined V.rules V.limit (V.first ++ V.common) V.member (near ahead) V.Before
  second : memo'.Confined V.rules V.limit (V.second ++ V.common) V.member (near ahead) V.Before
  enabled : memo'.enabled = memo.enabled

/-- The memos of two runs know the same about the common text. -/
def Share : Memo → Memo → Prop :=
  Memo.Share V.common (Text.width V.first) (Text.width V.second)

/-- The same results with ends at the same place of the common text. -/
def Stops {α : Type} : α × Nat → α × Nat → Prop :=
  SameEnd V.common (Text.width V.first) (Text.width V.second)

/-- The same value from two positions with ends at the same place of the common text. -/
def Matches (pos pos' : Nat) (s t : Success) : Prop :=
  V.Stops (s.value, pos + s.consumed) (t.value, pos' + t.consumed)

/-- From the places of the two versions where `a` and `b` are left, two runs concur, and if they are
not fatal, then `depth` further rules could be entered. -/
def Together (depth left : Nat) (ahead : List Outline) (a b : List Char) {α : Type}
    (same : Nat → Nat → α → α → Prop)
    (run run' : Nat → List Char → Memo → Except ParseError α × Memo) : Prop :=
  ∀ ⦃pos pos' memo memo'⦄, Text.fromBoundary? (V.first ++ V.common) pos = some a →
    Text.fromBoundary? (V.second ++ V.common) pos' = some b → V.Abreast ahead memo memo' →
      Concur V.Share (fun x y => depth ≤ left ∧ same pos pos' x y) (run pos a memo)
        (run' pos' b memo')

/-- The node with the outline meets the common text from both places, inside of `depth` rules. -/
def Meets (depth : Nat) (ahead : List Outline) (o : Outline) (a b : List Char) : Prop :=
  ∀ ⦃m⦄ (left), V.member m → m.outline = o →
    V.Together depth left ahead a b V.Matches (m.evaluate V.rules (enter V.rules V.limit left))
      (m.evaluate V.rules (enter V.rules V.limit left))

/-- The node with the outline, asked for by way of the memo, meets the common text. -/
def Asked (depth : Nat) (ahead : List Outline) (o : Outline) (a b : List Char) : Prop :=
  ∀ ⦃m⦄ (left), V.member m → m.outline = o →
    V.Together depth left ahead a b V.Matches
      (memoized m.attributes.id (m.evaluate V.rules (enter V.rules V.limit left)))
      (memoized m.attributes.id (m.evaluate V.rules (enter V.rules V.limit left)))

/-- The parts with the outlines meet the common text. -/
def Parts (depth : Nat) (ahead : List Outline) (os : List Outline) (a b : List Char) : Prop :=
  ∀ ⦃ms⦄ (left fields), (∀ m ∈ ms, V.member m) → Matcher.outlineAll ms = os →
    V.Together depth left ahead a b (fun _ _ => V.Stops)
      (Matcher.evaluateAll V.rules (enter V.rules V.limit left) ms fields)
      (Matcher.evaluateAll V.rules (enter V.rules V.limit left) ms fields)

/-- The alternatives with the outlines meet the common text. -/
def Alternatives (depth : Nat) (ahead : List Outline) (os : List Outline) (a b : List Char) : Prop :=
  ∀ ⦃ms⦄ (left failures failures'), (∀ m ∈ ms, V.member m) → Matcher.outlineAll ms = os →
    V.Together depth left ahead a b V.Matches
      (Matcher.evaluateFirst V.rules (enter V.rules V.limit left) ms failures)
      (Matcher.evaluateFirst V.rules (enter V.rules V.limit left) ms failures')

variable {V} {a b a' b' : List Char} {depth : Nat}

/-! ## Places -/

theorem lt_width {front common cs : List Char} {pos : Nat}
    (h : Text.fromBoundary? (front ++ common) pos = some cs) (hcs : common.length < cs.length) :
    pos < Text.width front := by
  obtain ⟨before, hsplit, rfl⟩ := Text.fromBoundary?_eq_some_iff.mp h
  rcases List.append_eq_append_iff.mp hsplit with ⟨d, -, hcommon⟩ | ⟨d, hfront, hcs'⟩
  · rw [hcommon, List.length_append] at hcs
    omega
  · have hd : Text.width d ≠ 0 := by
      rw [Ne, width_eq_zero_iff]
      rintro rfl
      rw [hcs', List.nil_append] at hcs
      exact Nat.lt_irrefl _ hcs
    rw [hfront, Text.width_append]
    omega

theorem eq_width {front common : List Char} {pos : Nat}
    (h : Text.fromBoundary? (front ++ common) pos = some common) : pos = Text.width front := by
  obtain ⟨before, hsplit, rfl⟩ := Text.fromBoundary?_eq_some_iff.mp h
  rw [List.append_cancel_right hsplit]

theorem fromBoundary?_behind {common rest : List Char} {k : Nat} (front : List Char)
    (h : Text.fromBoundary? common k = some rest) :
    Text.fromBoundary? (front ++ common) (k + Text.width front) = some rest := by
  rw [Nat.add_comm, Text.fromBoundary?_add (Text.fromBoundary?_width front common), h]

/-- What is left where a match ends in the common text. -/
theorem dropBytes_eq {front common cs rest : List Char} {pos n k : Nat}
    (hpos : Text.fromBoundary? (front ++ common) pos = some cs)
    (hrest : Text.fromBoundary? common k = some rest) (hend : pos + n = k + Text.width front) :
    Text.dropBytes cs n = rest := by
  have hbehind := fromBoundary?_behind front hrest
  rw [← hend] at hbehind
  exact Option.some.inj ((Text.fromBoundary?_step hpos (by rw [hbehind]; rfl)).symm.trans hbehind)

theorem leaves_of_plain {rules : Rules} {limit n pos : Nat} {m : Matcher} {cs : List Char}
    {s : Success} (h : m.plain rules limit n pos cs = .ok s) :
    Leaves (outlineOf rules) m.outline cs (some (Text.dropBytes cs s.consumed)) := by
  obtain ⟨text, rest, rfl, hs, hread⟩ := Matcher.read_of_plain_ok h
  rw [hs, Text.dropBytes_width]
  exact Matcher.leaves_of_read_matched hread

/-! ## Memos -/

theorem vicinity (h : V.Enters ahead) : Vicinity V.rules V.bodies (near ahead) where
  rule := V.known
  children hm hc := Outline.clear_iff.mpr fun p hp =>
    Matcher.contains_children (Outline.clear_iff.mp hm p hp) hc
  body {slot o m} hslot hbody := by
    have hknown := V.known hslot
    rw [outlineOf, hbody] at hknown
    rw [near, Option.some.inj hknown]
    exact h hslot

/-- Courses that enter no rules. -/
theorem vicinity_none (rules : Rules) (ahead : List Outline) :
    Vicinity rules (fun _ => none) (near ahead) where
  rule h := by cases h
  children hm hc := Outline.clear_iff.mpr fun p hp =>
    Matcher.contains_children (Outline.clear_iff.mp hm p hp) hc
  body h := by cases h

theorem Abreast.share {memo memo' : Memo} (h : V.Abreast ahead memo memo') : V.Share memo memo' := by
  refine ⟨.empty memo.enabled, ?_, ?_⟩
  · refine Memo.moved_of_unknown rfl rfl fun hk => ?_
    obtain ⟨_, -, -, -, hplace⟩ := h.first.known hk
    exact hplace
  · rw [← h.enabled]
    refine Memo.moved_of_unknown rfl rfl fun hk => ?_
    obtain ⟨_, -, -, -, hplace⟩ := h.second.known hk
    exact hplace

theorem Abreast.tail {memo memo' : Memo} (h : V.Abreast (o :: ahead) memo memo') :
    V.Abreast ahead memo memo' := by
  have hnear {m : Matcher} (hm : near (o :: ahead) m) : near ahead m :=
    Outline.clear_iff.mpr fun p hp => Outline.clear_iff.mp hm p (List.mem_cons_of_mem _ hp)
  exact ⟨h.first.mono hnear, h.second.mono hnear, h.enabled⟩

theorem Enters.tail (h : V.Enters (o :: ahead)) : V.Enters ahead := fun hbody =>
  Outline.clear_iff.mpr fun p hp => Outline.clear_iff.mp (h hbody) p (List.mem_cons_of_mem _ hp)

theorem Abreast.find {memo memo' : Memo} (h : V.Abreast ahead memo memo') (id : NodeId)
    (pos pos' : Nat) : V.Abreast ahead (memo.find id pos).2 (memo'.find id pos').2 :=
  ⟨h.first.find id pos, h.second.find id pos',
    by rw [(memo'.find_snd _ _).1, (memo.find_snd _ _).1, h.enabled]⟩

/-- What lies ahead is not known. -/
theorem not_knows {input : List Char} {memo : Memo} {m : Matcher} (hm : V.member m)
    (h : memo.Confined V.rules V.limit input V.member (near (m.outline :: ahead)) V.Before)
    (pos : Nat) : memo.knows m.attributes.id pos = none := by
  refine Option.eq_none_iff_forall_ne_some.mpr fun o hk => ?_
  obtain ⟨m', hm', hids, hnear, -⟩ := h.known hk
  obtain rfl := V.identified hm' hm hids
  have hnear := Outline.clear_iff.mp hnear _ List.mem_cons_self
  rw [Outline.contains_self] at hnear
  cases hnear

/-! ## Nodes that meet the common text -/

/-- A node that meets the common text does so by way of the memo, if it was ahead. -/
theorem Meets.ask (h : V.Meets depth ahead o a b) (ha : V.Before a) (hb : V.Before b) : V.Asked depth (o :: ahead) o a b := by
  rintro m left hm rfl pos pos' memo memo' hpos hpos' habreast
  have hrun := h left hm rfl hpos hpos' (habreast.tail.find m.attributes.id pos pos')
  rw [memoized_of_not_knows (not_knows hm habreast.first pos),
    memoized_of_not_knows (not_knows hm habreast.second pos')]
  revert hrun
  generalize m.evaluate V.rules _ pos a _ = x
  generalize m.evaluate V.rules _ pos' b _ = y
  intro hrun
  cases hrun with
  | fatal he => exact .fatal he
  | matched hs hshare =>
    obtain ⟨alone, hmoved, hmoved'⟩ := hshare
    exact .matched hs ⟨alone, hmoved.insert_before _ (lt_width hpos ha) _,
      hmoved'.insert_before _ (lt_width hpos' hb) _⟩

/-- What ends in the common text has taken the way to its end. -/
theorem matches_of_stops {α : Type} {pos pos' : Nat} {x y : α × Nat} {v w : Value}
    (hpos : pos ≤ Text.width V.first) (hpos' : pos' ≤ Text.width V.second) (h : V.Stops x y)
    (hv : v = w) : V.Matches pos pos' ⟨v, x.2 - pos⟩ ⟨w, y.2 - pos'⟩ := by
  obtain ⟨-, k, hk, hx, hy⟩ := h
  refine ⟨hv, k, hk, ?_, ?_⟩
  · show pos + (x.2 - pos) = _
    omega
  · show pos' + (y.2 - pos') = _
    omega

theorem Meets.sequence (h : V.Parts depth ahead os a b) (ho : o.core = .sequence os)
    (hkept : os.any Outline.isKept = true) (ha : V.Before a) (hb : V.Before b) :
    V.Meets depth ahead o a b := by
  rintro m left hm rfl pos pos' memo memo' hpos hpos' habreast
  obtain ⟨attributes, ms, rfl, rfl⟩ := Matcher.exists_of_core_sequence ho
  have hparts := h left [] (fun c hc => V.family.children hm hc) rfl hpos
    hpos' habreast
  rw [Matcher.evaluate_sequence, Matcher.evaluate_sequence]
  refine hparts.finish attributes fun x y ⟨hdepth, hs⟩ => ⟨hdepth, matches_of_stops
    (lt_width hpos ha).le (lt_width hpos' hb).le hs ?_⟩
  rw [Matcher.any_isKept_outlineAll] at hkept
  rw [sequenceValue, sequenceValue, if_pos hkept, if_pos hkept, hs.1]

theorem Meets.choice (h : V.Alternatives depth ahead os a b) (ho : o.core = .choice os) :
    V.Meets depth ahead o a b := by
  rintro m left hm rfl pos pos' memo memo' hpos hpos' habreast
  obtain ⟨attributes, ms, rfl, rfl⟩ := Matcher.exists_of_core_choice ho
  have hfirst := h left [] []
    (fun c hc => V.family.children hm hc) rfl hpos hpos' habreast
  rw [Matcher.evaluate_choice, Matcher.evaluate_choice]
  refine hfirst.finish attributes fun s t hs => ?_
  obtain ⟨hdepth, hvalue, hend⟩ := hs
  exact ⟨hdepth, congrArg attributes.reshaped hvalue, hend⟩

theorem Meets.rule {slot : Nat} {body : Outline} (h : V.Meets depth ahead body a b)
    (hbody : outlineOf V.rules slot = some body) (hterminal : body.isTerminal = false)
    (ho : o.core = .rule (some slot)) : V.Meets (depth + 1) ahead o a b := by
  rintro m left hm rfl pos pos' memo memo' hpos hpos' habreast
  obtain ⟨attributes, name, rfl⟩ := Matcher.exists_of_core_rule ho
  obtain ⟨c, hc, rfl⟩ := Option.map_eq_some_iff.mp hbody
  have hslot : ((some slot).bind fun i => (V.rules[i]?).join) = some c := by
    rw [Option.bind_some, hc]
  rw [← c.isTerminal_eq] at hterminal
  rw [Matcher.evaluate_rule _ _ _ _ _ _ _ hslot, Matcher.evaluate_rule _ _ _ _ _ _ _ hslot]
  have hentered : Concur V.Share (fun s t => depth + 1 ≤ left ∧ V.Matches pos pos' s t)
      (enter V.rules V.limit left c pos a memo) (enter V.rules V.limit left c pos' b memo') := by
    cases left with
    | zero => exact .fatal rfl
    | succ left =>
      rw [enter, Matcher.run, hterminal]
      exact (h left (V.family.bodies ⟨slot, hc⟩) rfl hpos hpos' habreast).imp fun s t hs =>
        ⟨Nat.succ_le_succ hs.1, hs.2⟩
  refine hentered.finish attributes fun s t hs => ?_
  obtain ⟨hdepth, hvalue, hend⟩ := hs
  exact ⟨hdepth, congrArg attributes.reshaped hvalue, hend⟩

/-! ## Rounds -/

theorem iterate_of_ok {step : Recognizer} {items : List Value} {pos : Nat} {cs : List Char}
    {memo memo' : Memo} {s : Success} (h : step pos cs memo = (.ok s, memo')) (hs : s.consumed ≠ 0)
    (hcs : cs ≠ []) : iterate step items pos cs memo =
      iterate step (s.value :: items) (pos + s.consumed) (Text.dropBytes cs s.consumed) memo' := by
  obtain ⟨n, hn⟩ := Nat.exists_eq_succ_of_ne_zero hs
  obtain ⟨c, cs, rfl⟩ := List.exists_cons_of_ne_nil hcs
  rw [iterate, h]
  simp only [hn]

/-- Rounds have no failure but a fatal one. -/
theorem isFatal_of_iterate {step : Recognizer} {items : List Value} {pos : Nat} {cs : List Char}
    {memo : Memo} {e : ParseError} (h : (iterate step items pos cs memo).1 = .error e) :
    e.isFatal = true := by
  induction hlength : cs.length using Nat.strong_induction_on generalizing items pos cs memo with
  | _ n ih =>
    rw [iterate] at h
    split at h
    · split at h
      · next hfatal =>
        obtain rfl := Except.error.inj h
        exact hfatal
      · cases h
    · split at h
      · next k c cs _ =>
        refine ih _ ?_ h rfl
        rw [← hlength]
        exact Text.length_dropBytes_lt _ _ _
      · cases h

/-- A repetition of which the first round meets the common text. -/
theorem Meets.repetition {child : Outline} (h : V.Meets depth ahead child a b)
    (hterminal : child.isTerminal = false) (ho : o.core = .repetition child) (ha : V.Before a)
    (hb : V.Before b) : V.Meets depth ahead o a b := by
  rintro m left hm rfl pos pos' memo memo' hpos hpos' habreast
  obtain ⟨attributes, c, rfl, rfl⟩ := Matcher.exists_of_core_repetition ho
  have hc : V.member c := V.family.children hm (List.mem_singleton_self c)
  have hlt := lt_width hpos ha
  have hlt' := lt_width hpos' hb
  have hround := h left hc rfl hpos hpos' habreast
  rw [← c.isTerminal_eq] at hterminal
  have hrounds : Concur V.Share (fun x y => depth ≤ left ∧ V.Stops x y)
      (iterate (c.run V.rules (enter V.rules V.limit left)) [] pos a memo)
      (iterate (c.run V.rules (enter V.rules V.limit left)) [] pos' b memo') := by
    rw [Matcher.run, hterminal]
    simp only [Bool.false_eq_true, if_false]
    revert hround
    generalize hx : c.evaluate V.rules _ pos a memo = x
    generalize hy : c.evaluate V.rules _ pos' b memo' = y
    intro hround
    cases hround with
    | fatal he =>
      rw [iterate, hx]
      dsimp only
      rw [if_pos he]
      exact .fatal he
    | @matched s t memo₁ memo₁' hs hshare =>
      obtain ⟨hdepth, hvalue, k, hk, hend, hend'⟩ := hs
      dsimp only at hvalue hend hend'
      obtain ⟨rest, hrest⟩ := Option.isSome_iff_exists.mp hk
      have hne {cs : List Char} (hcs : V.Before cs) : cs ≠ [] := by
        rintro rfl
        exact Nat.not_lt_zero _ hcs
      rw [iterate_of_ok hx (by omega) (hne ha), iterate_of_ok hy (by omega) (hne hb), hend, hend',
        dropBytes_eq hpos hrest hend, dropBytes_eq hpos' hrest hend', hvalue]
      -- from here on the rounds are those of the common text by itself
      obtain ⟨alone, hmoved, hmoved'⟩ := hshare
      have hside (offset : Nat) : (moved V.common offset).SideBySide V.rules V.member
          (enter V.rules V.limit left) (enter V.rules V.limit left) :=
        moved_sideBySide V.family offset V.limit left
      have hfollows (offset : Nat) := Simulation.evaluate_follows V.family (hside offset) hc
      exact (Concur.of_agree (Simulation.iterate_follows (hfollows _) [t.value] hrest hmoved)
        (Simulation.iterate_follows (hfollows _) [t.value] hrest hmoved')
        fun e he => isFatal_of_iterate he).imp fun x y hs => ⟨hdepth, hs⟩
  rw [Matcher.evaluate_repetition, Matcher.evaluate_repetition]
  exact hrounds.finish attributes fun x y h =>
    ⟨h.1, matches_of_stops hlt.le hlt'.le h.2 (by rw [h.2.1])⟩

/-! ## Passing a node -/

/-- What comes of asking for a node in both versions on courses that end in front of the common text:
a fatal failure in the first version, or what the courses tell, unless the second version has a fatal
failure. -/
theorem Abreast.ask {m : Matcher} {left pos pos' : Nat} {memo memo₁ memo' memo₁' : Memo}
    {x y : Outcome} {r r' : Option (List Char)} (habreast : V.Abreast ahead memo memo')
    (henters : V.Enters ahead) (hm : V.member m) (ho : m.outline.clear ahead = true)
    (ha : V.Before a) (hb : V.Before b) (hcourse : Course V.bodies V.Before m.outline a r)
    (hcourse' : Course V.bodies V.Before m.outline b r')
    (hpos : Text.fromBoundary? (V.first ++ V.common) pos = some a)
    (hpos' : Text.fromBoundary? (V.second ++ V.common) pos' = some b)
    (hx : memoized m.attributes.id (m.evaluate V.rules (enter V.rules V.limit left)) pos a memo =
      (x, memo₁))
    (hy : memoized m.attributes.id (m.evaluate V.rules (enter V.rules V.limit left)) pos' b memo' =
      (y, memo₁'))
    (hcalm : ∀ e, y = .error e → e.isFatal = false) :
    (∃ e, x = .error e ∧ e.isFatal = true) ∨
      (∀ e, x = .error e → e.isFatal = false) ∧ V.Abreast ahead memo₁ memo₁' ∧
          ((∃ s n, x = .ok s ∧ m.plain V.rules V.limit n pos a = x ∧
              r = some (Text.dropBytes a s.consumed)) ∨ ∃ e, x = .error e ∧ r = none) ∧
          ((∃ s n, y = .ok s ∧ m.plain V.rules V.limit n pos' b = y ∧
              r' = some (Text.dropBytes b s.consumed)) ∨ ∃ e, y = .error e ∧ r' = none) := by
  by_cases hfatal : ∃ e, x = .error e ∧ e.isFatal = true
  · exact .inl hfatal
  have hx' : ∀ e, x = .error e → e.isFatal = false := fun e he =>
    Bool.eq_false_iff.mpr fun h => hfatal ⟨e, he, h⟩
  obtain ⟨hfirst, henabled, hends⟩ :=
    ask_along (vicinity henters) V.family V.identified hm ho ha hpos habreast.first hcourse hx hx'
  obtain ⟨hsecond, henabled', hends'⟩ := ask_along (vicinity henters) V.family
    V.identified hm ho hb hpos' habreast.second hcourse' hy hcalm
  refine .inr ⟨hx', ⟨hfirst, hsecond, ?_⟩, hends, hends'⟩
  rw [henabled', henabled, habreast.enabled]

theorem course_of_none (h : Course (fun _ => none) V.Before o a r) :
    Course V.bodies V.Before o a r :=
  h.mono (fun hnone => by cases hnone) id

/-- An alternative that fails in both versions. -/
theorem Alternatives.otherwise (h : V.Alternatives depth ahead os a b) (henters : V.Enters ahead)
    (ho : o.clear ahead = true) (ha : V.Before a) (hb : V.Before b)
    (hcourse : Course V.bodies V.Before o a none)
    (hcourse' : Course (fun _ => none) V.Before o b none) :
    V.Alternatives depth ahead (o :: os) a b := by
  intro ms left failures failures' hms hos pos pos' memo memo' hpos hpos' habreast
  obtain ⟨m, ms, rfl, rfl, rfl⟩ := Matcher.exists_of_outlineAll hos
  rw [Matcher.evaluateFirst, Matcher.evaluateFirst]
  rcases hx : memoized m.attributes.id (m.evaluate V.rules (enter V.rules V.limit left)) pos a memo
    with ⟨x, memo₁⟩
  rcases hy : memoized m.attributes.id (m.evaluate V.rules (enter V.rules V.limit left)) pos' b
    memo' with ⟨y, memo₁'⟩
  have hm := hms m List.mem_cons_self
  have hcalm : ∀ e, y = .error e → e.isFatal = false := fun _ he =>
    isFatal_of_ask V.family V.identified hm hpos' habreast.second.sound
      (fun _ => plain_without_rules (vicinity_none V.rules ahead) V.family V.identified hm ho hb hpos'
        hcourse') ((congrArg Prod.fst hy).trans he)
  rcases habreast.ask henters (hms m List.mem_cons_self) ho ha hb hcourse (course_of_none hcourse')
    hpos hpos' hx hy hcalm with ⟨e, rfl, he⟩ | ⟨hx', habreast', hends, hends'⟩
  · dsimp only
    rw [if_pos he]
    exact .fatal he
  · obtain ⟨s, -, -, -, hnone⟩ | ⟨e, rfl, -⟩ := hends
    · cases hnone
    obtain ⟨s, -, -, -, hnone⟩ | ⟨e', rfl, -⟩ := hends'
    · cases hnone
    dsimp only
    rw [hx' e rfl, hcalm e' rfl]
    exact h left _ _ (fun m hm => hms m (List.mem_cons_of_mem _ hm)) rfl hpos hpos' habreast'

/-- Alternatives that fail in both versions. -/
theorem Alternatives.behind {front back : List Outline} (h : V.Alternatives depth ahead back a b)
    (henters : V.Enters ahead) (ha : V.Before a) (hb : V.Before b)
    (hfront : ∀ o ∈ front, o.clear ahead = true ∧ ∀ {cs}, cs ∈ [a, b] →
      Course (fun _ => none) V.Before o cs none) :
    V.Alternatives depth ahead (front ++ back) a b := by
  induction front with
  | nil => exact h
  | cons o front ih =>
    obtain ⟨⟨ho, hcourse⟩, hfront⟩ := List.forall_mem_cons.mp hfront
    exact (ih hfront).otherwise henters ho ha hb (course_of_none (hcourse (by simp)))
      (hcourse (by simp))

/-- The alternative that meets the common text. -/
theorem Alternatives.alternative (h : V.Asked depth ahead o a b) (os : List Outline) :
    V.Alternatives depth ahead (o :: os) a b := by
  intro ms left failures failures' hms hos pos pos' memo memo' hpos hpos' habreast
  obtain ⟨m, ms, rfl, rfl, rfl⟩ := Matcher.exists_of_outlineAll hos
  have hm := h left (hms m List.mem_cons_self) rfl hpos hpos' habreast
  rw [Matcher.evaluateFirst, Matcher.evaluateFirst]
  revert hm
  generalize memoized _ _ pos a memo = x
  generalize memoized _ _ pos' b memo' = y
  intro hm
  cases hm with
  | fatal he =>
    dsimp only
    rw [if_pos he]
    exact .fatal he
  | matched hs hshare => exact .matched hs hshare

/-- A part that ends in front of the common text, if it is not fatal in the second version. -/
theorem Parts.pass {m : Matcher} {ms : List Matcher} {left pos pos' : Nat} {memo memo' : Memo}
    (h : V.Parts depth ahead (Matcher.outlineAll ms) a' b') (hms : ∀ c ∈ m :: ms, V.member c)
    (henters : V.Enters ahead) (ho : m.outline.clear ahead = true) (ha : V.Before a)
    (hb : V.Before b) (hcourse : Course V.bodies V.Before m.outline a (some a'))
    (hcourse' : Course V.bodies V.Before m.outline b (some b'))
    (hsame : m.outline.isKept = true → Same V.rules m.outline a b)
    (hpos : Text.fromBoundary? (V.first ++ V.common) pos = some a)
    (hpos' : Text.fromBoundary? (V.second ++ V.common) pos' = some b)
    (habreast : V.Abreast ahead memo memo')
    (hcalm : ∀ e, (memoized m.attributes.id (m.evaluate V.rules (enter V.rules V.limit left)) pos' b
      memo').1 = .error e → e.isFatal = false) (fields : List (String × Value)) :
    Concur V.Share (fun x y => depth ≤ left ∧ V.Stops x y)
      (Matcher.evaluateAll V.rules (enter V.rules V.limit left) (m :: ms) fields pos a memo)
      (Matcher.evaluateAll V.rules (enter V.rules V.limit left) (m :: ms) fields pos' b memo') := by
  rw [Matcher.evaluateAll, Matcher.evaluateAll]
  rcases hx : memoized m.attributes.id (m.evaluate V.rules (enter V.rules V.limit left)) pos a memo
    with ⟨x, memo₁⟩
  rcases hy : memoized m.attributes.id (m.evaluate V.rules (enter V.rules V.limit left)) pos' b
    memo' with ⟨y, memo₁'⟩
  rw [hy] at hcalm
  rcases habreast.ask henters (hms m List.mem_cons_self) ho ha hb hcourse hcourse' hpos hpos' hx hy
    hcalm with ⟨e, rfl, he⟩ | ⟨-, habreast', hends, hends'⟩
  · dsimp only
    rw [if_pos he]
    exact .fatal he
  · obtain ⟨s, n, rfl, hplain, hrest⟩ | ⟨-, -, hnone⟩ := hends
    swap
    · cases hnone
    obtain ⟨t, n', rfl, hplain', hrest'⟩ | ⟨-, -, hnone⟩ := hends'
    swap
    · cases hnone
    obtain rfl := Option.some.inj hrest
    obtain rfl := Option.some.inj hrest'
    obtain ⟨_, _, -, -, hread⟩ := Matcher.read_of_plain_ok hplain
    obtain ⟨_, _, -, -, hread'⟩ := Matcher.read_of_plain_ok hplain'
    dsimp only
    rw [keep_eq (fun hkept => hsame hkept rfl hread hread') fields]
    exact h left _ (fun m hm => hms m (List.mem_cons_of_mem _ hm)) rfl
      (Text.fromBoundary?_step hpos (plain_boundary hpos hplain))
      (Text.fromBoundary?_step hpos' (plain_boundary hpos' hplain')) habreast'

/-- A part that ends in front of the common text and enters no rules in the second version. -/
theorem Parts.passed (h : V.Parts depth ahead os a' b') (henters : V.Enters ahead)
    (ho : o.clear ahead = true) (ha : V.Before a) (hb : V.Before b)
    (hcourse : Course V.bodies V.Before o a (some a'))
    (hcourse' : Course (fun _ => none) V.Before o b (some b'))
    (hsame : o.isKept = true → Same V.rules o a b) : V.Parts depth ahead (o :: os) a b := by
  intro ms left fields hms hos pos pos' memo memo' hpos hpos' habreast
  obtain ⟨m, ms, rfl, rfl, rfl⟩ := Matcher.exists_of_outlineAll hos
  have hm := hms m List.mem_cons_self
  refine h.pass hms henters ho ha hb hcourse (course_of_none hcourse') hsame hpos hpos' habreast
    (fun e he => ?_) fields
  exact isFatal_of_ask V.family V.identified hm hpos' habreast.second.sound
    (fun _ => plain_without_rules (vicinity_none V.rules ahead) V.family V.identified hm ho hb hpos'
      hcourse') he

/-- An optional rule that is not there in either version. The second version may fail by its nesting
here, but then the first one does so as well, here or further on. -/
theorem Parts.missing {slot : Nat} {body : Outline} (h : V.Parts (depth + 1) ahead os a b)
    (henters : V.Enters ahead) (hslot : V.bodies slot = some body)
    (ho : (Outline.optional (.rule (some slot))).clear ahead = true)
    (hterminal : body.isTerminal = false) (ha : V.Before a) (hb : V.Before b)
    (hcourse : Course (fun _ => none) V.Before body a none)
    (hcourse' : Course (fun _ => none) V.Before body b none) :
    V.Parts (depth + 1) ahead (.optional (.rule (some slot)) :: os) a b := by
  intro ms left fields hms hos pos pos' memo memo' hpos hpos' habreast
  obtain ⟨m, ms, rfl, hm, rfl⟩ := Matcher.exists_of_outlineAll hos
  have hcore : m.outline.core = .rule (some slot) := by rw [hm]; rfl
  obtain ⟨attributes, name, rfl⟩ := Matcher.exists_of_core_rule hcore
  have hskipped {cs : List Char} (h : Course (fun _ => none) V.Before body cs none) :
      Course V.bodies V.Before (Matcher.rule attributes name (some slot)).outline cs (some cs) := by
    rw [hm]
    exact .skipped (.rule hslot (course_of_none h))
  rw [← hm] at ho
  have hmember := hms _ List.mem_cons_self
  cases left with
  | succ left =>
    refine h.pass hms henters ho ha hb (hskipped hcourse) (hskipped hcourse') ?_ hpos hpos' habreast
      (fun e he => ?_) fields
    · rw [hm]
      nofun
    · obtain ⟨c, hc, rfl⟩ := Option.map_eq_some_iff.mp (V.known hslot)
      rw [← c.isTerminal_eq] at hterminal
      refine isFatal_of_ask V.family V.identified hmember hpos' habreast.second.sound
        (fun _ => plain_rule attributes name hc hterminal fun _ => ?_) he
      exact plain_without_rules (vicinity_none V.rules ahead) V.family V.identified
        (V.family.bodies ⟨slot, hc⟩) (henters hslot) hb hpos' hcourse'
  | zero =>
    rw [Matcher.evaluateAll]
    rcases hx : memoized _ (Matcher.evaluate V.rules (enter V.rules V.limit 0)
      (.rule attributes name (some slot))) pos a memo with ⟨x, memo₁⟩
    by_cases hfatal : ∃ e, x = .error e ∧ e.isFatal = true
    · obtain ⟨e, rfl, he⟩ := hfatal
      dsimp only
      rw [if_pos he]
      exact .fatal he
    -- the first version goes on, but it comes to a rule that it cannot enter
    obtain ⟨hfirst, henabled, ⟨s, n, rfl, hplain, hrest⟩ | ⟨-, -, hnone⟩⟩ := ask_along
      (vicinity henters) V.family V.identified hmember ho ha hpos habreast.first (hskipped hcourse)
      hx fun e he => Bool.eq_false_iff.mpr fun h => hfatal ⟨e, he, h⟩
    swap
    · cases hnone
    have hnext := Text.fromBoundary?_step hpos (plain_boundary hpos hplain)
    rw [← Option.some.inj hrest] at hnext
    have htail := h 0 (keep (Matcher.rule attributes name (some slot)).attributes s.value fields)
      (fun m hm => hms m (List.mem_cons_of_mem _ hm)) rfl hnext hpos'
      ⟨hfirst, habreast.second, habreast.enabled.trans henabled.symm⟩
    dsimp only
    rw [← Option.some.inj hrest]
    revert htail
    generalize Matcher.evaluateAll _ _ ms _ _ a memo₁ = x
    generalize Matcher.evaluateAll _ _ ms _ pos' b memo' = y
    intro htail
    cases htail with
    | fatal he => exact .fatal he
    | matched hs => exact absurd hs.1 (Nat.not_succ_le_zero depth)

/-! ## The parts in the common text -/

/-- A sequence that is known to match has no failure but a fatal one. -/
theorem isFatal_of_evaluateAll {rules : Rules} {limit left : Nat} {member : Matcher → Prop}
    {input cs : List Char} (F : Family rules member) (hid : Identified member) {ms : List Matcher}
    (hms : ∀ m ∈ ms, member m) {fields : List (String × Value)} {pos : Nat} {memo : Memo}
    (hpos : Text.fromBoundary? input pos = some cs) (hmemo : memo.Sound rules limit input member)
    {r : List Char} (hleaves : Leaves (outlineOf rules) (.sequence (Matcher.outlineAll ms)) cs (some r))
    {e : ParseError}
    (h : (Matcher.evaluateAll rules (enter rules limit left) ms fields pos cs memo).1 = .error e) :
    e.isFatal = true := by
  induction ms generalizing fields pos cs memo with
  | nil =>
    rw [Matcher.evaluateAll] at h
    cases h
  | cons m ms ih =>
    obtain ⟨mid, hhead, -, htail⟩ := course_part_iff.mp hleaves
    rw [Matcher.evaluateAll] at h
    rcases hx : memoized m.attributes.id (m.evaluate rules (enter rules limit left)) pos cs memo
      with ⟨e' | s, memo'⟩
    · rw [hx] at h
      by_cases hfatal : e'.isFatal = true
      · dsimp only at h
        rw [if_pos hfatal] at h
        rw [← Except.error.inj h]
        exact hfatal
      · have hfatal := Bool.eq_false_of_not_eq_true hfatal
        obtain ⟨-, n, hplain⟩ := exists_plain_of_ask F hid (hms m List.mem_cons_self) hpos hmemo hx
          (.not_fatal hfatal)
        cases hhead.unique (Matcher.leaves_of_read_failed (Matcher.read_of_plain_error hplain hfatal))
    · obtain ⟨hmemo', n, hplain⟩ := exists_plain_of_ask F hid (hms m List.mem_cons_self) hpos hmemo
        hx (.ok s)
      obtain rfl := Option.some.inj (hhead.unique (leaves_of_plain hplain))
      rw [hx] at h
      exact ih (fun m hm => hms m (List.mem_cons_of_mem _ hm))
        (Text.fromBoundary?_step hpos (plain_boundary hpos hplain)) hmemo' htail h

/-- Parts in the common text, when both runs know the same about it. -/
theorem concur_of_share {ms : List Matcher} (hms : ∀ m ∈ ms, V.member m) {k : Nat} {rest : List Char}
    (hk : Text.fromBoundary? V.common k = some rest) {memo memo' : Memo}
    (hshare : V.Share memo memo')
    (hmemo : memo'.Sound V.rules V.limit (V.second ++ V.common) V.member) {r : List Char}
    (hleaves : Leaves (outlineOf V.rules) (.sequence (Matcher.outlineAll ms)) rest (some r))
    (left : Nat) (fields : List (String × Value)) :
    Concur V.Share V.Stops
      (Matcher.evaluateAll V.rules (enter V.rules V.limit left) ms fields
        (k + Text.width V.first) rest memo)
      (Matcher.evaluateAll V.rules (enter V.rules V.limit left) ms fields
        (k + Text.width V.second) rest memo') := by
  obtain ⟨alone, hmoved, hmoved'⟩ := hshare
  have hside (offset : Nat) : (moved V.common offset).SideBySide V.rules V.member
      (enter V.rules V.limit left) (enter V.rules V.limit left) :=
    moved_sideBySide V.family offset V.limit left
  have hasked (offset : Nat) (m : Matcher) (hm : m ∈ ms) := (hside offset).ask (hms m hm)
    (Simulation.evaluate_follows V.family (hside offset) (hms m hm))
  exact .of_agree (Simulation.evaluateAll_follows (hasked _) fields hk hmoved)
    (Simulation.evaluateAll_follows (hasked _) fields hk hmoved') fun e he =>
      isFatal_of_evaluateAll V.family V.identified hms (fromBoundary?_behind V.second hk) hmemo
        hleaves he

/-- The common text begins with the parts. -/
theorem Parts.start {r : List Char}
    (hleaves : Leaves (outlineOf V.rules) (.sequence os) V.common (some r)) (ahead : List Outline) :
    V.Parts 0 ahead os V.common V.common := by
  rintro ms left fields hms rfl pos pos' memo memo' hpos hpos' habreast
  obtain rfl := eq_width hpos
  obtain rfl := eq_width hpos'
  have htail := concur_of_share hms (Text.fromBoundary?_zero V.common) habreast.share
    habreast.second.sound hleaves left fields
  rw [Nat.zero_add, Nat.zero_add] at htail
  exact htail.imp fun x y hs => ⟨Nat.zero_le _, hs⟩

/-- The first part meets the common text, and the others lie in it. -/
theorem Parts.meet {r : List Char} (h : V.Asked depth ahead o a b)
    (hleaves : Leaves (outlineOf V.rules) (.sequence (o :: os)) b (some r)) :
    V.Parts depth ahead (o :: os) a b := by
  intro ms left fields hms hos pos pos' memo memo' hpos hpos' habreast
  obtain ⟨m, ms, rfl, rfl, rfl⟩ := Matcher.exists_of_outlineAll hos
  have hm := h left (hms m List.mem_cons_self) rfl hpos hpos' habreast
  rw [Matcher.evaluateAll, Matcher.evaluateAll]
  revert hm
  rcases hx : memoized m.attributes.id (m.evaluate V.rules (enter V.rules V.limit left)) pos a memo
    with ⟨x, memo₁⟩
  rcases hy : memoized m.attributes.id (m.evaluate V.rules (enter V.rules V.limit left)) pos' b
    memo' with ⟨y, memo₁'⟩
  intro hm
  cases hm with
  | fatal he =>
    dsimp only
    rw [if_pos he]
    exact .fatal he
  | @matched s t _ _ hs hshare =>
    obtain ⟨hmemo, n, hplain⟩ := exists_plain_of_ask V.family V.identified
      (hms m List.mem_cons_self) hpos' habreast.second.sound hy (.ok t)
    obtain ⟨mid, hhead, -, htail⟩ := course_part_iff.mp hleaves
    obtain rfl := Option.some.inj (hhead.unique (leaves_of_plain hplain))
    obtain ⟨hdepth, hvalue, k, hk, hend, hend'⟩ := hs
    obtain ⟨rest, hrest⟩ := Option.isSome_iff_exists.mp hk
    dsimp only at hvalue hend hend' ⊢
    have hdrop := dropBytes_eq hpos hrest hend
    have hdrop' := dropBytes_eq hpos' hrest hend'
    rw [hdrop'] at htail
    rw [hdrop, hdrop', hend, hend', hvalue]
    exact (concur_of_share (fun m hm => hms m (List.mem_cons_of_mem _ hm)) hrest hshare hmemo htail
      left _).imp fun x y hs => ⟨hdepth, hs⟩

/-! ## Parts in a row -/

/-- Parts in a row that end in front of the common text, enter no rules in the second version and are
kept with the same values. -/
inductive Passes (V : Versions) (ahead : List Outline) :
    List Outline → List Char → List Char → List Char → List Char → Prop
  | nil {a b : List Char} : V.Before a → V.Before b → Passes V ahead [] a b a b
  | part {o : Outline} {os : List Outline} {a b mid mid' a' b' : List Char} : o.clear ahead = true →
      Course V.bodies V.Before o a (some mid) → Course (fun _ => none) V.Before o b (some mid') →
      (o.isKept = true → Same V.rules o a b) → Passes V ahead os mid mid' a' b' →
      Passes V ahead (o :: os) a b a' b'

theorem Passes.before (h : V.Passes ahead os a b a' b') : V.Before a ∧ V.Before b := by
  induction h with
  | nil ha hb => exact ⟨ha, hb⟩
  | part _ hcourse hcourse' _ _ ih =>
    exact ⟨Nat.lt_of_lt_of_le ih.1 (hcourse.length_le rfl),
      Nat.lt_of_lt_of_le ih.2 (hcourse'.length_le rfl)⟩

/-- What comes behind the parts meets the common text, and so do they together with it. -/
theorem Passes.parts {os' : List Outline} (h : V.Passes ahead os a b a' b')
    (henters : V.Enters ahead) (hrest : V.Parts depth ahead os' a' b') :
    V.Parts depth ahead (os ++ os') a b := by
  induction h with
  | nil => exact hrest
  | part ho hcourse hcourse' hsame hpasses ih =>
    have hbefore := (Passes.part ho hcourse hcourse' hsame hpasses).before
    exact (ih hrest).passed henters ho hbefore.1 hbefore.2 hcourse hcourse' hsame

/-- What is left for what comes behind the parts in the second version. -/
theorem Passes.leaves {os' : List Outline} {r : List Char} (h : V.Passes ahead os a b a' b')
    (hleaves : Leaves (outlineOf V.rules) (.sequence (os ++ os')) b (some r)) :
    Leaves (outlineOf V.rules) (.sequence os') b' (some r) := by
  induction h with
  | nil => exact hleaves
  | part _ _ hcourse' _ _ ih =>
    obtain ⟨mid, hmid, -, hrest⟩ := course_part_iff.mp hleaves
    have hcourse := (course_of_none hcourse').mono V.known fun _ => trivial
    obtain rfl := Option.some.inj (hmid.unique hcourse.leaves)
    exact ih hrest

/-! ## Whole parses -/

theorem complete_of_all {options : Options} {input : List Char} {s : Success}
    (h : s.consumed = Text.width input) : options.complete input (.ok s) = .ok s := by
  rcases options.complete_ok input s with hok | ⟨hlt, -⟩
  · exact hok
  · exact absurd h (Nat.ne_of_lt hlt)

/-- If the root meets the common text and matches all of the second version, then the first version
has a fatal failure, or both versions have the same value. -/
theorem Meets.parse {q : Parser} {options : Options} (hrules : V.rules = q.rules)
    (hlimit : V.limit = options.maxDepth)
    (h : V.Meets depth ahead q.root.outline (V.first ++ V.common) (V.second ++ V.common))
    (hroot : V.member q.root) (hterminal : q.root.outline.isTerminal = false)
    (hleaves : Leaves (outlineOf q.rules) q.root.outline (V.second ++ V.common) (some [])) :
    (∃ e, q.parse options (V.first ++ V.common) = .error e ∧ e.isFatal = true) ∨
      ∃ s t, q.parse options (V.first ++ V.common) = .ok s ∧
        q.parse options (V.second ++ V.common) = .ok t ∧ s.value = t.value := by
  rw [← q.root.isTerminal_eq] at hterminal
  have hmatch (input : List Char) (memo : Memo) : q.matchAt options.maxDepth 0 input memo =
      q.root.evaluate V.rules (enter V.rules V.limit V.limit) 0 input memo := by
    rw [Parser.matchAt, Matcher.run, hterminal, hrules, hlimit]
    rfl
  have habreast : V.Abreast ahead (.empty options.memoize) (.empty options.memoize) :=
    ⟨Memo.confined_empty _, Memo.confined_empty _, rfl⟩
  have hconcur := h V.limit hroot rfl (Text.fromBoundary?_zero _) (Text.fromBoundary?_zero _) habreast
  rw [← hmatch, ← hmatch] at hconcur
  rw [q.parse_eq, q.parse_eq]
  revert hconcur
  generalize q.matchAt options.maxDepth 0 (V.first ++ V.common) _ = x
  rcases hy : q.matchAt options.maxDepth 0 (V.second ++ V.common) (.empty options.memoize) with
    ⟨y, memo'⟩
  intro hconcur
  cases hconcur with
  | @fatal e _ _ he => exact .inl ⟨e, options.complete_error _ e, he⟩
  | @matched s t _ _ hs _ =>
    obtain ⟨-, hvalue, k, hk, hend, hend'⟩ := hs
    dsimp only at hend hend'
    -- the second version is matched to its end, and so the first one is
    obtain ⟨rest, hleft, hleaves'⟩ := Parser.leaves_of_matchAt (p := q) (hrules ▸ V.family)
      V.identified hroot (congrArg Prod.fst hy)
    obtain rfl := Option.some.inj (hleaves.unique hleaves')
    have hend'' : t.consumed = Text.width (V.second ++ V.common) := by
      obtain ⟨before, hsplit, hwidth⟩ := Text.fromBoundary?_eq_some_iff.mp hleft
      rw [← hwidth, hsplit, List.append_nil]
    rw [Text.width_append] at hend''
    refine .inr ⟨s, t, complete_of_all ?_, complete_of_all ?_, hvalue⟩
    · rw [Text.width_append]
      omega
    · rw [Text.width_append]
      omega

end Versions

end Typestrip.Grammar
