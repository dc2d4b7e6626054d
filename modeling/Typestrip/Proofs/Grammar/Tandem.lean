import Typestrip.Proofs.Grammar.Values
import Typestrip.Proofs.Grammar.Zones
import Typestrip.Proofs.Regex.Parallel

/-!
# Two texts in tandem

A text and a longer one that begins with it are read alike, until the end of the shorter one is near:
there a match may go on in the longer text, or only the longer text has one. The pairs of places in the
two texts fall into zones, and for every zone and terminal it is known how the matches are related
(`Joint`). A `Tandem` keeps that, and what is claimed of the rules in the same way. Then it is computed
for every node (`Outline.meet`), and what is computed holds of everything that is read
(`Tandem.Sound.meets`).

Where the first text is at its end, it is known what is read of it: nothing, or the node fails. So only
the second text has to be looked at, which is what charts are for.
-/

namespace Typestrip.Grammar

/-- A node that does not fail, as far as its construct tells. -/
def Outline.free : Outline → Bool
  | .pattern (.seq (.look .textStart) e) => e.free
  | .optional _ | .repetition _ => true
  | .kept o => o.free
  | _ => false

theorem Outline.not_failed_of_free {bodies : Nat → Option Outline} {o : Outline} (ho : o.free = true)
    {cs : List Char} : ¬ Leaves bodies o cs none := by
  induction o using Outline.free.induct with
  | case1 e =>
    intro h
    obtain ⟨rest, hrest⟩ := Regex.Expr.exists_rest?_of_free ho cs
    cases hrest.symm.trans (course_anchored_iff.mp h).symm
  | case2 => nofun
  | case3 o =>
    intro h
    generalize hr : (none : Option (List Char)) = r at h
    generalize hp : Outline.repetition o = p at h
    induction h with
    | round _ _ _ _ _ ih => exact ih hr hp
    | idle | stop => cases hr
    | _ => cases hp
  | case4 o ih => exact fun h => ih ho (course_kept_iff.mp h)
  | case5 =>
    rw [free] at ho
    · cases ho
    all_goals assumption

/-! ## Readings that are related -/

namespace Reading

variable {α β : Type}

/-- What comes of reading two texts: both match, only the second one does, or neither does. If one of
the readings is fatal, nothing is said. -/
inductive Pairs (both : α → List Char → α → List Char → Prop) (alone : α → List Char → Prop) :
    Reading α → Reading α → Prop
  | fatal {x' : Reading α} : Pairs both alone .fatal x'
  | secondFatal {x : Reading α} : Pairs both alone x .fatal
  | failed : Pairs both alone .failed .failed
  | matched {v v' : α} {s s' : List Char} : both v s v' s' →
      Pairs both alone (.matched v s) (.matched v' s')
  | alone {v' : α} {s' : List Char} : alone v' s' → Pairs both alone .failed (.matched v' s')

/-- Reads on behind a match. -/
def andThen (x : Reading α) (f : α → List Char → Reading β) : Reading β :=
  match x with
  | matched v rest => f v rest
  | failed => failed
  | fatal => fatal

variable {both both₁ : α → List Char → α → List Char → Prop} {alone alone₁ : α → List Char → Prop}
  {x x' : Reading α}

theorem Pairs.mono (h : Pairs both alone x x')
    (hboth : ∀ {v s v' s'}, both v s v' s' → both₁ v s v' s')
    (halone : ∀ {v' s'}, alone v' s' → alone₁ v' s') : Pairs both₁ alone₁ x x' := by
  cases h with
  | fatal => exact .fatal
  | secondFatal => exact .secondFatal
  | failed => exact .failed
  | matched h => exact .matched (hboth h)
  | alone h => exact .alone (halone h)

theorem Pairs.andThen {both' : β → List Char → β → List Char → Prop}
    {alone' : β → List Char → Prop} {f f' : α → List Char → Reading β} (h : Pairs both alone x x')
    (hboth : ∀ {v s v' s'}, both v s v' s' → Pairs both' alone' (f v s) (f' v' s'))
    (halone : ∀ {v' s'}, alone v' s' → Pairs both' alone' .failed (f' v' s')) :
    Pairs both' alone' (x.andThen f) (x'.andThen f') := by
  cases h with
  | fatal => exact .fatal
  | secondFatal => exact .secondFatal
  | failed => exact .failed
  | matched h => exact hboth h
  | alone h => exact halone h

theorem andThen_andThen {γ : Type} (x : Reading α) (f : α → List Char → Reading β)
    (g : β → List Char → Reading γ) :
    (x.andThen f).andThen g = x.andThen fun v rest => (f v rest).andThen g := by
  cases x <;> rfl

end Reading

/-! ## Claims about two texts -/

/-- How matches in two texts are related, and the zone in which they end. -/
inductive Joint (Z : Type) where
  /-- There is a match with the same value in both. -/
  | same (z : Z)
  /-- There is a match in both, and that in the first text ends at its end. -/
  | apart (z : Z)
  /-- There is no match in the first text, which is at its end. -/
  | alone (z : Z)
  deriving DecidableEq

namespace Joint

variable {Z : Type}

/-- The zone in which matches end. -/
def zone : Joint Z → Z
  | same z | apart z | alone z => z

/-- Whether only the second text has a match. -/
def isAlone : Joint Z → Bool
  | alone _ => true
  | _ => false

/-- Values that are not kept make no difference. -/
def unkept : Joint Z → Joint Z
  | apart z => same z
  | j => j

end Joint

/-- What is known of pairs of texts, by the zones in which they lie: the second text begins with the
first one in some way. -/
structure Tandem (Z : Type) where
  /-- The number of zones. -/
  size : Nat
  /-- The rules that never match nothing. -/
  sure : Nat → Bool
  /-- The first text is at its end. -/
  ended : Z → Bool
  /-- The second text is the first one with a certain end. -/
  along : Z → Bool
  /-- How matches of terminals are related. -/
  terminal : Outline → Z → Option (List (Joint Z))
  /-- What is claimed of rules. -/
  rule : Nat → Z → Option (List (Joint Z))

variable {Z : Type}

/-- Where the first text is at its end, what is known of the second one is a chart. -/
def Tandem.chart (T : Tandem Z) : Chart Z where
  size := T.size
  terminal o z := if T.ended z then (T.terminal o z).map (·.map Joint.zone) else none
  rule slot z := if T.ended z then (T.rule slot z).map (·.map Joint.zone) else none

section

variable [DecidableEq Z] (T : Tandem Z)

/-- Behind a match, matching goes on with a node that is a part of a sequence. -/
def Tandem.step (o : Outline) (meet : Z → Option (List (Joint Z))) :
    Joint Z → Option (List (Joint Z))
  | .same z => (meet z).map fun js => if o.isKept then js else js.map Joint.unkept
  | .apart z =>
    -- the first text is at its end
    if o.free then (o.reach T.chart [z]).map (·.map Joint.apart)
    else if o.takes T.sure then (o.reach T.chart [z]).map (·.map Joint.alone)
    else none
  | .alone z => (o.reach T.chart [z]).map (·.map Joint.alone)

/-- Where nothing is kept of a sequence, its value is the text. -/
def Tandem.seal (z : Z) : Joint Z → Option (List (Joint Z))
  | .same q =>
    if T.along z && T.along q then some [.same q] else if T.ended q then some [.apart q] else none
  | j => some [j]

/-- Where the first text does without a match, both have one. -/
def Tandem.recover (z : Z) : Joint Z → Option (List (Joint Z))
  | .alone q => if T.ended z then some [.apart q] else none
  | j => some [j]

/-- Another round of a repetition. -/
def Tandem.round (o : Outline) (meet : Z → Option (List (Joint Z))) :
    Joint Z → Option (List (Joint Z))
  | .same z => (meet z).bind (spread (T.recover z))
  | .apart z => (o.reach T.chart [z]).map (·.map Joint.apart)
  | .alone _ => none

/-- The outline of a node, and how its matches are related by the zones in which they begin. -/
abbrev Tandem.Part (Z : Type) := Outline × (Z → Option (List (Joint Z)))

/-- How the matches of some nodes in a row are related that come behind others. -/
def Tandem.inTurn : List (Tandem.Part Z) → List (Joint Z) → Option (List (Joint Z))
  | [], js => some js
  | p :: ps, js => (spread (T.step p.1 p.2) js).bind (Tandem.inTurn ps)

/-- How the matches of a sequence are related. -/
def Tandem.row (ps : List (Tandem.Part Z)) (z : Z) : Option (List (Joint Z)) :=
  (T.inTurn ps [.same z]).bind fun js =>
    if ps.any (·.1.isKept) then some js else spread (T.seal z) js

/-- How the matches of any of some nodes are related. If only the second text has a match, the other
nodes must not match at the end of the first one. -/
def Tandem.oneOf : List (Tandem.Part Z) → Z → Option (List (Joint Z))
  | [], _ => some []
  | p :: ps, z => (p.2 z).bind fun js =>
    if js.any Joint.isAlone && !(T.ended z && Outline.allTake T.sure (ps.map (·.1))) then none
    else (Tandem.oneOf ps z).map (js ∪ ·)

/-- How the rounds of a repetition are related. -/
def Tandem.rounds (p : Tandem.Part Z) (z : Z) : Option (List (Joint Z)) :=
  if p.1.takes T.sure then settle (spread (T.round p.1 p.2)) (3 * T.size + 1) [.same z] else none

/-- The same for a node that may be left out. -/
def Tandem.maybe (meet : Z → Option (List (Joint Z))) (z : Z) : Option (List (Joint Z)) :=
  (meet z).bind fun js => (spread (T.recover z) js).map (.same z :: ·)

/-- How the matches of a node are related, from those of its construct. -/
def Tandem.dress (a : Attributes) (meet : Z → Option (List (Joint Z))) : Z → Option (List (Joint Z)) :=
  if a.nullable then T.maybe meet else meet

mutual
/-- How the matches of a node are related that begin in a zone. -/
def Outline.meet : Outline → Z → Option (List (Joint Z))
  | .literal text => T.terminal (.literal text)
  | .pattern regex => T.terminal (.pattern regex)
  | .sequence os => T.row (Outline.parts os)
  | .choice os => T.oneOf (Outline.parts os)
  | .repetition o => T.rounds (o, o.meet)
  | .rule (some slot) => T.rule slot
  | .rule none => fun _ => some []
  | .optional o => T.maybe o.meet
  | .kept o => o.meet

/-- The outlines of some nodes with how their matches are related. -/
def Outline.parts : List Outline → List (Tandem.Part Z)
  | [] => []
  | o :: os => (o, o.meet) :: Outline.parts os
end

theorem Outline.meet_dress (a : Attributes) (o : Outline) :
    (a.outline o).meet T = T.dress a (o.meet T) := by
  rw [Attributes.outline, Tandem.dress]
  cases a.nullable <;> cases a.capture.isSome <;> rfl

end

/-! ## What the claims say -/

section

variable {α β : Type} (meets : Z → List Char → List Char → Prop)

/-- Two matches are related in this way. -/
def Joint.Holds : Joint Z → α → List Char → α → List Char → Prop
  | .same z, v, s, v', s' => v' = v ∧ meets z s s'
  | .apart z, _, s, _, s' => s = [] ∧ meets z [] s'
  | .alone _, _, _, _, _ => False

/-- What comes of reading two texts is related in one of some ways. -/
def Reading.Meets (js : List (Joint Z)) : Reading α → Reading α → Prop :=
  Pairs (fun v s v' s' => ∃ j ∈ js, j.Holds meets v s v' s') fun _ s' =>
    ∃ z, .alone z ∈ js ∧ meets z [] s'

end

section

variable {α β : Type} {meets : Z → List Char → List Char → Prop} {js js' : List (Joint Z)}
  {x x' : Reading α} {v v' : α} {r r' s s' : List Char}

theorem Joint.Holds.map {j : Joint Z} (h : j.Holds meets v s v' s') (f : α → β) :
    j.Holds meets (f v) s (f v') s' := by
  cases j with
  | same z => exact ⟨congrArg f h.1, h.2⟩
  | apart z => exact h
  | alone z => exact h.elim

theorem Reading.Meets.mono (h : Reading.Meets meets js x x') (hjs : js ⊆ js') :
    Reading.Meets meets js' x x' :=
  Pairs.mono h (fun ⟨j, hj, h⟩ => ⟨j, hjs hj, h⟩) fun ⟨z, hz, h⟩ => ⟨z, hjs hz, h⟩

end

/-! ## Readings of terminals -/

section

variable {v : Unit} {text cs rest : List Char}

theorem readLiteral_append (text cs : List Char) : readLiteral text (text ++ cs) = .matched () cs := by
  rw [readLiteral, stripPrefix?_eq_some_iff.mpr rfl]

theorem readLiteral_failed (h : ¬ text <+: cs) : readLiteral text cs = .failed := by
  rw [readLiteral]
  split
  · next hstrip => exact absurd ⟨_, (stripPrefix?_eq_some_iff.mp hstrip).symm⟩ h
  · rfl

theorem readLiteral_ne_fatal (text cs : List Char) : readLiteral text cs ≠ .fatal := by
  by_cases h : text <+: cs
  · obtain ⟨rest, rfl⟩ := h
    simp [readLiteral_append]
  · simp [readLiteral_failed h]

theorem eq_nil_of_readLiteral (h : readLiteral text [] = .matched v rest) : rest = [] := by
  by_cases hprefix : text <+: []
  · obtain rfl := List.prefix_nil.mp hprefix
    exact (Reading.matched.inj h).2.symm
  · cases (readLiteral_failed hprefix).symm.trans h

end

section

variable {e : Regex.Expr} {cs x s s' r r' : List Char} {z : Z} {js : List (Joint Z)}
  {meets : Z → List Char → List Char → Prop}

theorem readPattern_ne_fatal (regex : Regex.Expr) (cs : List Char) : readPattern regex cs ≠ .fatal := by
  rw [readPattern]
  cases regex.search? cs <;> simp

theorem eq_nil_of_readPattern {regex : Regex.Expr} (h : readPattern regex [] = .matched x s) :
    s = [] := by
  rw [readPattern] at h
  cases hsearch : regex.search? [] with
  | none =>
    rw [hsearch] at h
    cases h
  | some n =>
    rw [hsearch] at h
    obtain rfl := (Reading.matched.inj h).2
    exact List.drop_nil

theorem readPattern_of_rest? (h : e.rest? (x ++ s) = some s) :
    readPattern (.anchored e) (x ++ s) = .matched x s := by
  rw [← e.search?_anchored_drop] at h
  obtain ⟨n, hn, hdrop⟩ := Option.map_eq_some_iff.mp h
  have htake := List.take_append_drop n (x ++ s)
  rw [hdrop] at htake
  rw [readPattern, hn]
  exact congrArg₂ Reading.matched (List.append_cancel_right htake) hdrop

theorem readPattern_of_none (h : e.rest? cs = none) : readPattern (.anchored e) cs = .failed := by
  rw [← e.search?_anchored_drop, Option.map_eq_none_iff] at h
  rw [readPattern, h]

theorem exists_readPattern (h : e.rest? cs = some s) :
    ∃ x, readPattern (.anchored e) cs = .matched x s := by
  obtain ⟨y, hy, rfl⟩ := Option.map_eq_some_iff.mp h
  obtain ⟨x, hx⟩ := Regex.Expr.exists_leads (List.mem_of_mem_head? hy)
  obtain rfl : cs = x ++ y.2 := hx.1
  exact ⟨x, readPattern_of_rest? h⟩

namespace Reading.Meets

theorem pattern_failed (h : e.rest? r = none) (h' : e.rest? r' = none) :
    Reading.Meets meets js (readPattern (.anchored e) r) (readPattern (.anchored e) r') := by
  rw [readPattern_of_none h, readPattern_of_none h']
  exact .failed

theorem pattern_same (h : e.rest? (x ++ s) = some s) (h' : e.rest? (x ++ s') = some s')
    (hz : .same z ∈ js) (hmeets : meets z s s') :
    Reading.Meets meets js (readPattern (.anchored e) (x ++ s)) (readPattern (.anchored e) (x ++ s')) := by
  rw [readPattern_of_rest? h, readPattern_of_rest? h']
  exact .matched ⟨_, hz, rfl, hmeets⟩

theorem pattern_apart (h : e.rest? r = some []) (h' : e.rest? r' = some s') (hz : .apart z ∈ js)
    (hmeets : meets z [] s') :
    Reading.Meets meets js (readPattern (.anchored e) r) (readPattern (.anchored e) r') := by
  obtain ⟨x, hx⟩ := exists_readPattern h
  obtain ⟨x', hx'⟩ := exists_readPattern h'
  rw [hx, hx']
  exact .matched ⟨_, hz, rfl, hmeets⟩

theorem pattern_alone (h : e.rest? r = none) (h' : e.rest? r' = some s') (hz : .alone z ∈ js)
    (hmeets : meets z [] s') :
    Reading.Meets meets js (readPattern (.anchored e) r) (readPattern (.anchored e) r') := by
  obtain ⟨x', hx'⟩ := exists_readPattern h'
  rw [readPattern_of_none h, hx']
  exact .alone ⟨z, hz, hmeets⟩

/-- Where no way is left, neither text has a match. -/
theorem pairs_of_nil {α : Type} {x x' : Reading α} {both : α → List Char → α → List Char → Prop}
    {alone : α → List Char → Prop} (h : Reading.Meets meets [] x x') : Pairs both alone x x' :=
  Pairs.mono h (fun ⟨_, hj, _⟩ => nomatch hj) fun ⟨_, hz, _⟩ => nomatch hz

/-- Ways in which nothing is related may be left out. -/
theorem of_append {α : Type} {spare : List (Joint Z)} {x x' : Reading α}
    (h : Reading.Meets meets (js ++ spare) x x')
    (hboth : ∀ {j v s v' s'}, j ∈ spare → x = .matched v s → x' = .matched v' s' →
      ¬ j.Holds meets v s v' s')
    (halone : ∀ {z v' s'}, .alone z ∈ spare → x = .failed → x' = .matched v' s' → ¬ meets z [] s') :
    Reading.Meets meets js x x' := by
  cases h with
  | fatal => exact .fatal
  | secondFatal => exact .secondFatal
  | failed => exact .failed
  | matched h =>
    obtain ⟨j, hj, h⟩ := h
    exact .matched ⟨j, (List.mem_append.mp hj).resolve_right fun hj => hboth hj rfl rfl h, h⟩
  | alone h =>
    obtain ⟨z, hz, h⟩ := h
    exact .alone ⟨z, (List.mem_append.mp hz).resolve_right fun hz => halone hz rfl rfl h, h⟩

/-- Where the first text is at its end, what is read of the second one is in one of the zones. -/
theorem within {α : Type} {v : α} {x : Reading α}
    (h : Reading.Meets meets js x (.matched v r')) (hx : x ≠ .fatal)
    (hnil : ∀ {v s}, x = .matched v s → s = []) :
    Within (fun z => meets z []) (js.map Joint.zone) r' := by
  cases h with
  | fatal => exact absurd rfl hx
  | matched h =>
    obtain ⟨j, hj, h⟩ := h
    obtain rfl := hnil rfl
    refine ⟨j.zone, List.mem_map_of_mem hj, ?_⟩
    cases j with
    | same | apart => exact h.2
    | alone => exact h.elim
  | alone h =>
    obtain ⟨q, hq, h⟩ := h
    exact ⟨q, List.mem_map_of_mem (f := Joint.zone) hq, h⟩

end Reading.Meets

end

section

variable [DecidableEq Z] (T : Tandem Z) (meets : Z → List Char → List Char → Prop)

/-- What is said of a node holds where it is read with so many entries left. -/
def Matcher.Bears (rules : Rules) (n : Nat) (m : Matcher) (p : Tandem.Part Z) : Prop :=
  m.outline = p.1 ∧ ∀ ⦃z js r r'⦄, p.2 z = some js → meets z r r' →
    Reading.Meets meets js (m.read rules n r) (m.read rules n r')

/-- What is computed of a node holds. -/
def Tandem.Covers (rules : Rules) (n : Nat) (m : Matcher) : Prop :=
  m.Bears meets rules n (m.outline, m.outline.meet T)

/-- The tandem tells how the matches of terminals are related. The second text is the first one with
`tail` at its end, as far as this is said. -/
structure Tandem.Sound (tail : List Char) (rules : Rules) : Prop where
  chart : T.chart.Valid (fun z => meets z []) (outlineOf rules)
  sure : ∀ {slot o}, T.sure slot = true → outlineOf rules slot = some o → o.takes T.sure = true
  ended : ∀ {z r r'}, T.ended z = true → meets z r r' → r = []
  along : ∀ {z r r'}, T.along z = true → meets z r r' → r' = r ++ tail
  literal : ∀ {text z js r r'}, T.terminal (.literal text) z = some js → meets z r r' →
    Reading.Meets meets js (readLiteral text r) (readLiteral text r')
  pattern : ∀ {regex z js r r'}, T.terminal (.pattern regex) z = some js → meets z r r' →
    Reading.Meets meets js (readPattern regex r) (readPattern regex r')

end

/-- What is known of the terminals in both texts tells where they end in the second one. -/
theorem Tandem.within_of_leaves {T : Tandem Z} {meets : Z → List Char → List Char → Prop}
    {bodies : Nat → Option Outline} {o : Outline} {z : Z} {out : List Z} {cs rest : List Char}
    (hterminal : ∀ {js}, T.terminal o z = some js →
      (∃ text, o = .literal text ∧ Reading.Meets meets js (readLiteral text []) (readLiteral text cs)) ∨
      ∃ regex, o = .pattern regex ∧
        Reading.Meets meets js (readPattern regex []) (readPattern regex cs))
    (hout : T.chart.terminal o z = some out) (h : Leaves bodies o cs (some rest)) :
    Within (fun z => meets z []) out rest := by
  dsimp only [Tandem.chart] at hout
  split at hout
  · obtain ⟨js, hjs, rfl⟩ := Option.map_eq_some_iff.mp hout
    obtain ⟨text, rfl, hmeets⟩ | ⟨regex, rfl, hmeets⟩ := hterminal hjs
    · rw [course_literal_iff.mp h, readLiteral_append] at hmeets
      exact hmeets.within (readLiteral_ne_fatal text []) eq_nil_of_readLiteral
    · have hleaves : Leaves bodies (.pattern regex) cs ((regex.search? cs).map cs.drop) := .pattern
      obtain ⟨n, hn, rfl⟩ := Option.map_eq_some_iff.mp (h.unique hleaves).symm
      have hread : readPattern regex cs = .matched (cs.take n) (cs.drop n) := by rw [readPattern, hn]
      rw [hread] at hmeets
      exact hmeets.within (readPattern_ne_fatal regex []) eq_nil_of_readPattern
  · cases hout

section

variable [DecidableEq Z] {T : Tandem Z} {meets : Z → List Char → List Char → Prop} {tail : List Char}
  {rules : Rules} (S : T.Sound meets tail rules) {α : Type} {n : Nat} {m : Matcher} {o : Outline}
  {z : Z} {js : List (Joint Z)} {r r' s s' : List Char}

include S

/-! ## At the end of the first text -/

/-- What is read of the second text where the first one is at its end lies in one of the zones that are
computed. -/
theorem Tandem.Sound.reached {zs out : List Z} {v : Value} (hreach : m.outline.reach T.chart zs = some out)
    (hr : Within (fun z => meets z []) zs r') (h : m.read rules n r' = .matched v s') :
    Within (fun z => meets z []) out s' :=
  S.chart.within (Matcher.leaves_of_read_matched h) hreach hr rfl

theorem Tandem.Sound.length_lt {v : Value} (ho : m.outline.takes T.sure = true)
    (h : m.read rules n r = .matched v s) : s.length < r.length :=
  (Matcher.leaves_of_read_matched h).length_lt S.sure rfl ho

/-- What takes something does not match at the end of a text. -/
theorem Tandem.Sound.not_matched {v : Value} (ho : m.outline.takes T.sure = true) :
    m.read rules n [] ≠ .matched v s :=
  fun h => Nat.not_lt_zero _ (S.length_lt ho h)

omit [DecidableEq Z] S in
theorem Matcher.outlineAll_of_bears {ms : List Matcher} {ps : List (Tandem.Part Z)}
    (H : List.Forall₂ (Matcher.Bears meets rules n) ms ps) :
    Matcher.outlineAll ms = ps.map (·.1) := by
  induction H with
  | nil => rfl
  | cons hm _ ih => rw [Matcher.outlineAll, List.map_cons, hm.1, ih]

/-! ## Parts of a sequence -/

/-- What is kept of a part of a sequence. -/
def Matcher.readPart (rules : Rules) (n : Nat) (m : Matcher) (fields : List (String × Value))
    (cs : List Char) : Reading (List (String × Value)) :=
  (m.read rules n cs).andThen fun v rest => .matched (keep m.attributes v fields) rest

omit S in
theorem Matcher.andThen_readsAll_cons (x : Reading (List (String × Value))) (ms : List Matcher) :
    (x.andThen (Matcher.readsAll rules (entered rules n) (m :: ms))) =
      (x.andThen (m.readPart rules n)).andThen (Matcher.readsAll rules (entered rules n) ms) := by
  rw [Reading.andThen_andThen]
  refine congrArg x.andThen (funext fun fields => funext fun cs => ?_)
  rw [readsAll, readPart, Reading.andThen_andThen, Matcher.read]
  cases m.reads rules (entered rules n) cs <;> rfl

omit [DecidableEq Z] S in
/-- Where nothing is known of the values of a part, it must not be kept. -/
theorem Joint.Holds.kept {j : Joint Z} {v v' : Value} (h : j.Holds meets v s v' s')
    (fields : List (String × Value)) :
    (if m.outline.isKept then j else j.unkept).Holds meets (keep m.attributes v fields) s
      (keep m.attributes v' fields) s' := by
  split
  · exact h.map (keep m.attributes · fields)
  · next hkept =>
    have hsame : keep m.attributes v' fields = keep m.attributes v fields :=
      keep_eq (fun hk => absurd hk hkept) fields
    cases j with
    | same z => exact ⟨hsame, h.2⟩
    | apart z =>
      obtain ⟨rfl, h⟩ := h
      exact ⟨hsame, h⟩
    | alone z => exact h.elim

omit [DecidableEq Z] S in
/-- A part of a sequence that is related in both texts. -/
theorem Reading.Meets.readPart (h : Reading.Meets meets js (m.read rules n r) (m.read rules n r'))
    (fields : List (String × Value)) :
    Reading.Meets meets (if m.outline.isKept then js else js.map Joint.unkept)
      (m.readPart rules n fields r) (m.readPart rules n fields r') := by
  refine Reading.Pairs.andThen h ?_ ?_
  · rintro v t v' t' ⟨j, hj, hjoint⟩
    refine .matched ⟨_, ?_, hjoint.kept fields⟩
    split
    · exact hj
    · exact List.mem_map_of_mem hj
  · rintro v' t' ⟨q, hq, hmeets⟩
    refine .alone ⟨q, ?_, hmeets⟩
    split
    · exact hq
    · exact List.mem_map_of_mem (f := Joint.unkept) hq

section

variable {fields fields' : List (String × Value)} {meet : Z → Option (List (Joint Z))}
  {here : List (Joint Z)}

/-- A part of a sequence where the first text is at its end: either neither text fails, or the first one
always does. -/
theorem Tandem.Sound.readPart_apart (hhere : T.step m.outline meet (.apart z) = some here)
    (hz : meets z [] s') :
    Reading.Meets meets here (m.readPart rules n fields []) (m.readPart rules n fields' s') := by
  have hsecond {v : Value} {t : List Char} {out : List Z} (hreach : m.outline.reach T.chart [z] = some out)
      (h : m.read rules n s' = .matched v t) : Within (fun z => meets z []) out t :=
    S.reached hreach (within_singleton.mpr hz) h
  rw [Matcher.readPart, Matcher.readPart]
  dsimp only [Tandem.step] at hhere
  split at hhere
  · next hfree =>
    -- neither text fails
    obtain ⟨zs, hzs, rfl⟩ := Option.map_eq_some_iff.mp hhere
    have hnot {cs : List Char} : m.read rules n cs ≠ .failed :=
      fun h => Outline.not_failed_of_free hfree (Matcher.leaves_of_read_failed h)
    cases hv : m.read rules n [] with
    | failed => exact absurd hv hnot
    | fatal => exact .fatal
    | matched v t =>
      obtain ⟨text, ht⟩ := Matcher.exists_of_read hv
      cases hv' : m.read rules n s' with
      | failed => exact absurd hv' hnot
      | fatal => exact .secondFatal
      | matched v' t' =>
        obtain ⟨q, hq, hmeets⟩ := hsecond hzs hv'
        exact .matched ⟨.apart q, List.mem_map_of_mem hq, (List.append_eq_nil_iff.mp ht.symm).2, hmeets⟩
  · split at hhere
    · next htakes =>
      -- the first text fails
      obtain ⟨zs, hzs, rfl⟩ := Option.map_eq_some_iff.mp hhere
      cases hv : m.read rules n [] with
      | matched v t => exact absurd hv (S.not_matched htakes)
      | fatal => exact .fatal
      | failed =>
        cases hv' : m.read rules n s' with
        | failed => exact .failed
        | fatal => exact .secondFatal
        | matched v' t' =>
          obtain ⟨q, hq, hmeets⟩ := hsecond hzs hv'
          exact .alone ⟨q, List.mem_map_of_mem hq, hmeets⟩
    · cases hhere

/-- A part of a sequence where the first text has failed. -/
theorem Tandem.Sound.readPart_alone (hhere : T.step m.outline meet (.alone z) = some here)
    (hz : meets z [] s') : Reading.Meets meets here .failed (m.readPart rules n fields' s') := by
  obtain ⟨zs, hzs, rfl⟩ := Option.map_eq_some_iff.mp hhere
  rw [Matcher.readPart]
  cases hv' : m.read rules n s' with
  | failed => exact .failed
  | fatal => exact .secondFatal
  | matched v' t' =>
    obtain ⟨q, hq, hmeets⟩ := S.reached hzs (within_singleton.mpr hz) hv'
    exact .alone ⟨q, List.mem_map_of_mem hq, hmeets⟩

end

/-- Another part of a sequence. -/
theorem Tandem.Sound.step {p : Tandem.Part Z} (H : m.Bears meets rules n p) {out : List (Joint Z)}
    {x x' : Reading (List (String × Value))} (h : Reading.Meets meets js x x')
    (hstep : spread (T.step p.1 p.2) js = some out) :
    Reading.Meets meets out (x.andThen (m.readPart rules n)) (x'.andThen (m.readPart rules n)) := by
  obtain ⟨hp, H⟩ := H
  rw [← hp] at hstep
  refine Reading.Pairs.andThen h ?_ ?_
  · rintro fields s fields' s' ⟨j, hj, hjoint⟩
    obtain ⟨here, hhere, hsub⟩ := exists_of_spread hstep hj
    cases j with
    | same z =>
      obtain ⟨rfl, hz⟩ := hjoint
      obtain ⟨js, hjs, rfl⟩ := Option.map_eq_some_iff.mp hhere
      exact ((H hjs hz).readPart fields').mono hsub
    | apart z =>
      obtain ⟨rfl, hz⟩ := hjoint
      exact (S.readPart_apart hhere hz).mono hsub
    | alone z => exact hjoint.elim
  · rintro fields' s' ⟨z, hz, hmeets⟩
    obtain ⟨here, hhere, hsub⟩ := exists_of_spread hstep hz
    exact (S.readPart_alone hhere hmeets).mono hsub

/-- The parts of a sequence in a row. -/
theorem Tandem.Sound.parts {ms : List Matcher} {ps : List (Tandem.Part Z)}
    (H : List.Forall₂ (Matcher.Bears meets rules n) ms ps)
    {out : List (Joint Z)} {x x' : Reading (List (String × Value))} (h : Reading.Meets meets js x x')
    (hmeet : T.inTurn ps js = some out) :
    Reading.Meets meets out (x.andThen (Matcher.readsAll rules (entered rules n) ms))
      (x'.andThen (Matcher.readsAll rules (entered rules n) ms)) := by
  induction H generalizing js x x' with
  | nil =>
    obtain rfl := Option.some.inj hmeet
    have hnil (x : Reading (List (String × Value))) :
        x.andThen (Matcher.readsAll rules (entered rules n) []) = x := by cases x <;> rfl
    rwa [hnil, hnil]
  | cons hm _ ih =>
    obtain ⟨mid, hmid, hmeet⟩ := Option.bind_eq_some_iff.mp hmeet
    rw [Matcher.andThen_readsAll_cons, Matcher.andThen_readsAll_cons]
    exact ih (S.step hm h hmid) hmeet

/-! ## Alternatives -/

theorem Tandem.Sound.readsFirst_nil {ms : List Matcher} {v : Value}
    (ho : Outline.allTake T.sure (Matcher.outlineAll ms) = true) :
    Matcher.readsFirst rules (entered rules n) ms [] ≠ .matched v s := by
  intro h
  have hleaves : Leaves (outlineOf rules) (.choice (Matcher.outlineAll ms)) [] (some s) :=
    readsFirst_follows (fun m _ cs r hr => Matcher.leaves_of_read hr) [] _ (by rw [h]; rfl)
  exact Nat.not_lt_zero _ (hleaves.length_lt S.sure rfl ho)

theorem Tandem.Sound.alternatives {ms : List Matcher} {ps : List (Tandem.Part Z)}
    (H : List.Forall₂ (Matcher.Bears meets rules n) ms ps) (hmeet : T.oneOf ps z = some js)
    (hz : meets z r r') : Reading.Meets meets js (Matcher.readsFirst rules (entered rules n) ms r)
      (Matcher.readsFirst rules (entered rules n) ms r') := by
  induction H generalizing js with
  | nil => exact .failed
  | @cons m p ms ps hm hms ih =>
    obtain ⟨here, hhere, hmeet⟩ := Option.bind_eq_some_iff.mp hmeet
    split at hmeet
    · cases hmeet
    next hnot =>
    obtain ⟨there, hthere, rfl⟩ := Option.map_eq_some_iff.mp hmeet
    have hleft : here ⊆ here ∪ there := fun j hj => List.mem_union_iff.mpr (.inl hj)
    have hright : there ⊆ here ∪ there := fun j hj => List.mem_union_iff.mpr (.inr hj)
    have hmeets := hm.2 hhere hz
    unfold Matcher.read at hmeets
    rw [Matcher.readsFirst, Matcher.readsFirst]
    generalize m.reads rules (entered rules n) r = x at hmeets
    generalize m.reads rules (entered rules n) r' = x' at hmeets
    cases hmeets with
    | fatal => exact .fatal
    | secondFatal => exact .secondFatal
    | failed => exact (ih hthere).mono hright
    | matched h =>
      obtain ⟨j, hj, h⟩ := h
      exact .matched ⟨j, hleft hj, h⟩
    | alone h =>
      -- the other alternatives do not match at the end of the first text
      obtain ⟨q, hq, h⟩ := h
      have halone : here.any Joint.isAlone = true := List.any_eq_true.mpr ⟨_, hq, rfl⟩
      rw [halone, Bool.true_and, Bool.not_eq_true', Bool.not_eq_false, Bool.and_eq_true,
        ← Matcher.outlineAll_of_bears hms] at hnot
      obtain rfl := S.ended hnot.1 hz
      cases hfirst : Matcher.readsFirst rules (entered rules n) ms [] with
      | matched v t => exact absurd hfirst (S.readsFirst_nil hnot.2)
      | failed => exact .alone ⟨q, hleft hq, h⟩
      | fatal => exact .fatal

/-! ## Rounds -/

section

variable {step : Reader} {items items' : List Value} {v : Value} {cs rest : List Char}

omit S in
theorem readRounds_of_failed (h : step cs = .failed) :
    readRounds step items cs = .matched items.reverse cs := by
  rw [readRounds, h]

omit S in
theorem readRounds_of_fatal (h : step cs = .fatal) : readRounds step items cs = .fatal := by
  rw [readRounds, h]

omit S in
theorem readRounds_of_matched (h : step cs = .matched v rest) (hlt : rest.length < cs.length) :
    readRounds step items cs = readRounds step (v :: items) rest := by
  rw [readRounds, h]
  exact if_pos hlt

omit S in
theorem readRounds_ne_failed (items : List Value) (cs : List Char) :
    readRounds step items cs ≠ .failed := by
  rw [readRounds]
  split
  · split
    · exact readRounds_ne_failed _ _
    · nofun
  · nofun
  · nofun
termination_by cs.length

omit S in
/-- Another round in both texts: what comes of it carries over to the rounds behind it. -/
theorem Reading.Pairs.rounds {both : Value → List Char → Value → List Char → Prop}
    {alone : Value → List Char → Prop} {both₁ : List Value → List Char → List Value → List Char → Prop}
    {alone₁ : List Value → List Char → Prop}
    (htakes : ∀ {v : Value} {cs rest : List Char}, step cs = .matched v rest → rest.length < cs.length)
    (h : Pairs both alone (step r) (step r')) (hfailed : both₁ items.reverse r items'.reverse r')
    (hboth : ∀ {v s v' s'}, s.length < r.length → both v s v' s' →
      Pairs both₁ alone₁ (readRounds step (v :: items) s) (readRounds step (v' :: items') s'))
    (halone : ∀ {v' s'}, step r = .failed → alone v' s' →
      Pairs both₁ alone₁ (.matched items.reverse r) (readRounds step (v' :: items') s')) :
    Pairs both₁ alone₁ (readRounds step items r) (readRounds step items' r') := by
  generalize hx : step r = x at h
  generalize hx' : step r' = x' at h
  cases h with
  | fatal =>
    rw [readRounds_of_fatal hx]
    exact .fatal
  | secondFatal =>
    rw [readRounds_of_fatal hx']
    exact .secondFatal
  | failed =>
    rw [readRounds_of_failed hx, readRounds_of_failed hx']
    exact .matched hfailed
  | matched h =>
    have hlt := htakes hx
    rw [readRounds_of_matched hx hlt, readRounds_of_matched hx' (htakes hx')]
    exact hboth hlt h
  | alone h =>
    rw [readRounds_of_failed hx, readRounds_of_matched hx' (htakes hx')]
    exact halone hx h

end

/-- Behind the end of the first text, the rounds of the second one end in zones that are computed. -/
theorem Tandem.Sound.rounds_alone {out back : List (Joint Z)}
    {meet : Z → Option (List (Joint Z))} (hout : spread (T.round m.outline meet) out = some back)
    (hback : back ⊆ out) {items l : List Value} {z : Z} {r' : List Char} (hz : .apart z ∈ out) (hr : meets z [] r')
    (h : readRounds (m.read rules n) items r' = .matched l s') :
    ∃ q, .apart q ∈ out ∧ meets q [] s' := by
  rw [readRounds] at h
  split at h
  · next v t ht =>
    split at h
    · next hlt =>
      obtain ⟨here, hhere, hsub⟩ := exists_of_spread hout hz
      obtain ⟨zs, hzs, rfl⟩ := Option.map_eq_some_iff.mp hhere
      obtain ⟨q, hq, hmeets⟩ := S.reached hzs (within_singleton.mpr hr) ht
      have hq' : Joint.apart q ∈ zs.map Joint.apart := List.mem_map_of_mem hq
      exact rounds_alone hout hback (hback (hsub hq')) hmeets h
    · obtain ⟨-, rfl⟩ := Reading.matched.inj h
      exact ⟨z, hz, hr⟩
  · obtain ⟨-, rfl⟩ := Reading.matched.inj h
    exact ⟨z, hz, hr⟩
  · cases h
termination_by r'.length

theorem Tandem.Sound.rounds_ended (ho : m.outline.takes T.sure = true) (items : List Value) :
    readRounds (m.read rules n) items [] = .matched items.reverse [] ∨
      readRounds (m.read rules n) items [] = .fatal := by
  rw [readRounds]
  cases hv : m.read rules n [] with
  | matched v t => exact absurd hv (S.not_matched ho)
  | failed => exact .inl rfl
  | fatal => exact .inr rfl

/-- Where the first text is at its end, the second one may have further rounds. -/
theorem Tandem.Sound.rounds_apart {out back : List (Joint Z)}
    {meet : Z → Option (List (Joint Z))} (hout : spread (T.round m.outline meet) out = some back)
    (hback : back ⊆ out) {x : Reading (List Value)} {l items : List Value}
    (hx : x = .matched l [] ∨ x = .fatal) (hz : .apart z ∈ out) (hr : meets z [] r') :
    Reading.Meets meets out x (readRounds (m.read rules n) items r') := by
  rcases hx with rfl | rfl
  · cases h' : readRounds (m.read rules n) items r' with
    | matched l s' =>
      obtain ⟨q, hq, hmeets⟩ := S.rounds_alone hout hback hz hr h'
      exact .matched ⟨.apart q, hq, rfl, hmeets⟩
    | failed => exact absurd h' (readRounds_ne_failed _ _)
    | fatal => exact .secondFatal
  · exact .fatal

/-- Rounds that begin in zones that are computed end in such zones. -/
theorem Tandem.Sound.rounds {meet : Z → Option (List (Joint Z))}
    (H : m.Bears meets rules n (m.outline, meet)) (ho : m.outline.takes T.sure = true)
    {out back : List (Joint Z)}
    (hout : spread (T.round m.outline meet) out = some back) (hback : back ⊆ out)
    (items : List Value) {z : Z} {r r' : List Char} (hz : .same z ∈ out) (hr : meets z r r') :
    Reading.Meets meets out (readRounds (m.read rules n) items r)
      (readRounds (m.read rules n) items r') := by
  obtain ⟨here, hhere, hsub⟩ := exists_of_spread hout hz
  obtain ⟨js, hjs, hrecover⟩ := Option.bind_eq_some_iff.mp hhere
  refine Reading.Pairs.rounds (S.length_lt ho) (H.2 hjs hr) ⟨_, hz, rfl, hr⟩ ?_ ?_
  · rintro v s v' s' hlt ⟨j, hj, h⟩
    obtain ⟨next, hnext, hsub'⟩ := exists_of_spread hrecover hj
    cases j with
    | same q =>
      obtain rfl := Option.some.inj hnext
      obtain ⟨rfl, ht⟩ := h
      exact rounds H ho hout hback _ (hback (hsub (hsub' List.mem_cons_self))) ht
    | apart q =>
      obtain rfl := Option.some.inj hnext
      obtain ⟨rfl, ht⟩ := h
      exact S.rounds_apart hout hback (S.rounds_ended ho _)
        (hback (hsub (hsub' List.mem_cons_self))) ht
    | alone q => exact h.elim
  · rintro v' s' - ⟨q, hq, ht⟩
    obtain ⟨next, hnext, hsub'⟩ := exists_of_spread hrecover hq
    dsimp only [Tandem.recover] at hnext
    split at hnext
    · next hended =>
      obtain rfl := Option.some.inj hnext
      obtain rfl := S.ended hended hr
      exact S.rounds_apart hout hback (.inl rfl) (hback (hsub (hsub' List.mem_cons_self))) ht
    · cases hnext
termination_by r.length

/-! ## Nodes -/

section

variable {a : Attributes} {meet : Z → Option (List (Joint Z))} {x x' : Reading α}
  {f f' : α → List Char → Value}

/-- What a node makes of readings that are related, if it matches nothing where it would fail. -/
theorem Tandem.Sound.settle_maybe (ha : a.nullable = true) (hz : meets z r r')
    (hmeet : T.maybe meet z = some js)
    (h : ∀ {js}, meet z = some js → Reading.Pairs
      (fun v s v' s' => ∃ j ∈ js, j.Holds meets (f v s) s (f' v' s') s')
      (fun _ s' => ∃ q, .alone q ∈ js ∧ meets q [] s') x x') :
    Reading.Meets meets js (a.settle r f x) (a.settle r' f' x') := by
  obtain ⟨here, hhere, hmeet⟩ := Option.bind_eq_some_iff.mp hmeet
  obtain ⟨out, hout, rfl⟩ := Option.map_eq_some_iff.mp hmeet
  have hpairs := h hhere
  cases hpairs with
  | fatal => exact .fatal
  | secondFatal => exact .secondFatal
  | failed =>
    rw [Attributes.settle, Attributes.settle, if_pos ha, if_pos ha]
    exact .matched ⟨.same z, List.mem_cons_self, rfl, hz⟩
  | matched hboth =>
    obtain ⟨j, hj, hboth⟩ := hboth
    obtain ⟨next, hnext, hsub⟩ := exists_of_spread hout hj
    refine .matched ⟨j, List.mem_cons_of_mem _ (hsub ?_), hboth.map a.reshaped⟩
    cases j with
    | same | apart =>
      obtain rfl := Option.some.inj hnext
      exact List.mem_cons_self
    | alone => exact hboth.elim
  | alone halone =>
    -- nothing and a match are only related where the first text is at its end
    obtain ⟨q, hq, halone⟩ := halone
    obtain ⟨next, hnext, hsub⟩ := exists_of_spread hout hq
    dsimp only [Tandem.recover] at hnext
    split at hnext
    · next hended =>
      obtain rfl := Option.some.inj hnext
      obtain rfl := S.ended hended hz
      rw [Attributes.settle, Attributes.settle, if_pos ha]
      exact .matched ⟨.apart q, List.mem_cons_of_mem _ (hsub List.mem_cons_self), rfl, halone⟩
    · cases hnext

/-- What a node makes of readings that are related. -/
theorem Tandem.Sound.settle (hz : meets z r r') (hmeet : T.dress a meet z = some js)
    (h : ∀ {js}, meet z = some js → Reading.Pairs
      (fun v s v' s' => ∃ j ∈ js, j.Holds meets (f v s) s (f' v' s') s')
      (fun _ s' => ∃ q, .alone q ∈ js ∧ meets q [] s') x x') :
    Reading.Meets meets js (a.settle r f x) (a.settle r' f' x') := by
  rw [Tandem.dress] at hmeet
  split at hmeet
  · next ha => exact S.settle_maybe ha hz hmeet h
  · next ha =>
    have hpairs := h hmeet
    cases hpairs with
    | fatal => exact .fatal
    | secondFatal => exact .secondFatal
    | failed =>
      rw [Attributes.settle, Attributes.settle, if_neg ha, if_neg ha]
      exact .failed
    | matched hboth =>
      obtain ⟨j, hj, hboth⟩ := hboth
      exact .matched ⟨j, hj, hboth.map a.reshaped⟩
    | alone halone =>
      rw [Attributes.settle, Attributes.settle, if_neg ha]
      exact .alone halone

end

/-- What a node makes of the values does not depend on the texts. -/
theorem Tandem.Sound.settle_meets {a : Attributes} {meet : Z → Option (List (Joint Z))}
    (hz : meets z r r') {x x' : Reading α} {f : α → Value} (hmeet : T.dress a meet z = some js)
    (h : ∀ {js}, meet z = some js → Reading.Meets meets js x x') :
    Reading.Meets meets js (a.settle r (fun v _ => f v) x) (a.settle r' (fun v _ => f v) x') :=
  S.settle hz hmeet fun hjs => Reading.Pairs.mono (h hjs) (fun ⟨j, hj, h⟩ => ⟨j, hj, h.map f⟩) id

/-- The text of a sequence is the same in both texts where it ends in front of the same end. -/
theorem Tandem.Sound.sealed {ms : List Matcher} {fields : List (String × Value)} {out : List (Joint Z)}
    (hkept : ms.any (·.attributes.capture.isSome) = false) (hz : meets z r r') {j : Joint Z} (hj : j ∈ js)
    (hseal : spread (T.seal z) js = some out) {fields' : List (String × Value)}
    (hr : ∃ x, r = x ++ s) (h : j.Holds meets fields s fields' s') : ∃ j ∈ out, j.Holds meets
      (sequenceValue ms r fields (Text.width r - Text.width s)) s
      (sequenceValue ms r' fields' (Text.width r' - Text.width s')) s' := by
  obtain ⟨next, hnext, hsub⟩ := exists_of_spread hseal hj
  cases j with
  | same q =>
    dsimp only [Tandem.seal] at hnext
    split at hnext
    · next halong =>
      obtain rfl := Option.some.inj hnext
      obtain ⟨halongz, halongq⟩ := Bool.and_eq_true_iff.mp halong
      refine ⟨.same q, hsub List.mem_cons_self, ?_, h.2⟩
      have hr'' := S.along halongz hz
      have hs := S.along halongq h.2
      obtain ⟨x, rfl⟩ := hr
      subst hr'' hs
      rw [sequenceValue, sequenceValue, if_neg (by rw [hkept]; exact Bool.false_ne_true),
        if_neg (by rw [hkept]; exact Bool.false_ne_true), List.append_assoc]
      simp only [Text.width_append x, Nat.add_sub_cancel, Text.takeBytes_width]
    · split at hnext
      · next hended =>
        obtain rfl := Option.some.inj hnext
        obtain rfl := S.ended hended h.2
        exact ⟨.apart q, hsub List.mem_cons_self, rfl, h.2⟩
      · cases hnext
  | apart q =>
    obtain rfl := Option.some.inj hnext
    exact ⟨.apart q, hsub List.mem_cons_self, h⟩
  | alone q => exact h.elim

omit S in
theorem Matcher.exists_of_readsAll {ms : List Matcher} {fields x : List (String × Value)}
    (h : Matcher.readsAll rules (entered rules n) ms fields r = .matched x s) :
    ∃ text, r = text ++ s := by
  induction ms generalizing fields r with
  | nil => exact ⟨[], (Reading.matched.inj h).2⟩
  | cons m ms ih =>
    rw [readsAll] at h
    split at h
    · next hm =>
      obtain ⟨front, rfl⟩ := Matcher.exists_of_read hm
      obtain ⟨back, rfl⟩ := ih h
      exact ⟨front ++ back, (List.append_assoc ..).symm⟩
    · cases h
    · cases h

/-- A sequence of which nothing is kept: its value is the text, wherever its parts end. -/
theorem Tandem.Sound.sequence_sealed {ms : List Matcher} {states : List (Joint Z)}
    (hkept : ms.any (·.attributes.capture.isSome) = false) (hz : meets z r r')
    (hseal : spread (T.seal z) states = some js)
    (hparts : Reading.Meets meets states (Matcher.readsAll rules (entered rules n) ms [] r)
      (Matcher.readsAll rules (entered rules n) ms [] r')) :
    Reading.Pairs
      (fun fields s fields' s' => ∃ j ∈ js, j.Holds meets
        (sequenceValue ms r fields (Text.width r - Text.width s)) s
        (sequenceValue ms r' fields' (Text.width r' - Text.width s')) s')
      (fun _ s' => ∃ q, .alone q ∈ js ∧ meets q [] s')
      (Matcher.readsAll rules (entered rules n) ms [] r)
      (Matcher.readsAll rules (entered rules n) ms [] r') := by
  generalize Matcher.readsAll rules (entered rules n) ms [] r' = x' at hparts ⊢
  cases hread : Matcher.readsAll rules (entered rules n) ms [] r with
  | fatal => exact .fatal
  | failed =>
    rw [hread] at hparts
    cases hparts with
    | secondFatal => exact .secondFatal
    | failed => exact .failed
    | alone h =>
      obtain ⟨q, hq, h⟩ := h
      obtain ⟨next, hnext, hsub⟩ := exists_of_spread hseal hq
      obtain rfl := Option.some.inj hnext
      exact .alone ⟨q, hsub List.mem_cons_self, h⟩
  | matched fields s =>
    rw [hread] at hparts
    cases hparts with
    | secondFatal => exact .secondFatal
    | matched h =>
      obtain ⟨j, hj, h⟩ := h
      exact .matched (S.sealed hkept hz hj hseal (Matcher.exists_of_readsAll hread) h)

theorem Tandem.Sound.bears_sequence {ms : List Matcher} {ps : List (Tandem.Part Z)} (a : Attributes)
    (H : List.Forall₂ (Matcher.Bears meets rules n) ms ps) : (Matcher.sequence a ms).Bears meets rules n
      (a.outline (.sequence (ps.map (·.1))), T.dress a (T.row ps)) := by
  have houtlines : Matcher.outlineAll ms = ps.map (·.1) := Matcher.outlineAll_of_bears H
  refine ⟨by rw [Matcher.outline, houtlines], fun z js r r' hmeet hz => ?_⟩
  rw [Matcher.read, Matcher.reads, Matcher.reads]
  refine S.settle hz hmeet fun {js} hrow => ?_
  obtain ⟨states, hstates, hjs⟩ := Option.bind_eq_some_iff.mp hrow
  have hstart : Reading.Meets meets [.same z] (.matched ([] : List (String × Value)) r)
      (.matched [] r') := .matched ⟨.same z, List.mem_singleton_self _, rfl, hz⟩
  have hparts : Reading.Meets meets states (Matcher.readsAll rules (entered rules n) ms [] r)
      (Matcher.readsAll rules (entered rules n) ms [] r') := S.parts H hstart hstates
  have hany : ps.any (·.1.isKept) = ms.any (·.attributes.capture.isSome) := by
    rw [← Matcher.any_isKept_outlineAll, houtlines, List.any_map]
    rfl
  rw [hany] at hjs
  split at hjs
  · next hkept =>
    obtain rfl := Option.some.inj hjs
    refine Reading.Pairs.mono hparts (fun hjoined => hjoined.imp fun j hj => ⟨hj.1, ?_⟩) id
    simp only [sequenceValue, if_pos hkept]
    exact hj.2.map Value.object
  · next hkept => exact S.sequence_sealed (Bool.eq_false_of_not_eq_true hkept) hz hjs hparts

theorem Tandem.Sound.bears_choice {ms : List Matcher} {ps : List (Tandem.Part Z)} (a : Attributes)
    (H : List.Forall₂ (Matcher.Bears meets rules n) ms ps) : (Matcher.choice a ms).Bears meets rules n
      (a.outline (.choice (ps.map (·.1))), T.dress a (T.oneOf ps)) := by
  refine ⟨by rw [Matcher.outline, Matcher.outlineAll_of_bears H], fun z js r r' hmeet hz => ?_⟩
  rw [Matcher.read, Matcher.reads, Matcher.reads]
  exact S.settle_meets (f := id) hz hmeet fun hjs => S.alternatives H hjs hz

theorem Tandem.Sound.bears_repetition {p : Tandem.Part Z} (a : Attributes) (H : m.Bears meets rules n p) :
    (Matcher.repetition a m).Bears meets rules n
      (a.outline (.repetition p.1), T.dress a (T.rounds p)) := by
  refine ⟨by rw [Matcher.outline, H.1], fun z js r r' hmeet hz => ?_⟩
  rw [Matcher.read, Matcher.reads, Matcher.reads]
  refine S.settle_meets (f := Value.list) hz hmeet fun {js} hjs => ?_
  rw [Tandem.rounds, ← H.1] at hjs
  split at hjs
  · next htakes =>
    obtain ⟨hsub, ⟨back, hout, hback⟩, -⟩ := settled hjs
    have hbears : m.Bears meets rules n (m.outline, p.2) := ⟨rfl, H.2⟩
    exact S.rounds hbears htakes hout hback [] (hsub List.mem_cons_self) hz
  · cases hjs

omit S in
theorem Tandem.bears_parts {ms : List Matcher} (h : ∀ m ∈ ms, T.Covers meets rules n m) :
    List.Forall₂ (Matcher.Bears meets rules n) ms (Outline.parts T (Matcher.outlineAll ms)) := by
  induction ms with
  | nil => exact .nil
  | cons m ms ih =>
    obtain ⟨hm, hms⟩ := List.forall_mem_cons.mp h
    exact .cons hm (ih hms)

/-- What is computed of nodes holds if what is claimed of rules does. -/
theorem Tandem.Sound.covers_of_entered (H : ∀ {slot z js body r r'}, T.rule slot z = some js →
      (rules[slot]?).join = some body → meets z r r' →
        Reading.Meets meets js (entered rules n body r) (entered rules n body r')) (m : Matcher) :
    T.Covers meets rules n m := by
  induction m using Matcher.treeInduction with
  | step m ih =>
    cases m with
    | literal a text expected =>
      refine ⟨rfl, fun z js r r' hmeet hz => ?_⟩
      rw [Matcher.outline, Outline.meet_dress] at hmeet
      rw [Matcher.read, Matcher.reads, Matcher.reads]
      exact S.settle_meets (f := fun _ => .text (String.ofList text)) hz hmeet fun hjs => S.literal hjs hz
    | pattern a regex expected =>
      refine ⟨rfl, fun z js r r' hmeet hz => ?_⟩
      rw [Matcher.outline, Outline.meet_dress] at hmeet
      rw [Matcher.read, Matcher.reads, Matcher.reads]
      exact S.settle_meets (f := fun matched => .text (String.ofList matched)) hz hmeet fun hjs =>
        S.pattern hjs hz
    | sequence a ms =>
      have hms := S.bears_sequence a (Tandem.bears_parts ih)
      refine ⟨rfl, fun z js r r' hmeet => hms.2 ?_⟩
      rwa [Matcher.outline, Outline.meet_dress] at hmeet
    | choice a ms =>
      have hms := S.bears_choice a (Tandem.bears_parts ih)
      refine ⟨rfl, fun z js r r' hmeet => hms.2 ?_⟩
      rwa [Matcher.outline, Outline.meet_dress] at hmeet
    | repetition a m =>
      have hm := S.bears_repetition a (ih m (List.mem_singleton_self m))
      refine ⟨rfl, fun z js r r' hmeet => hm.2 ?_⟩
      rwa [Matcher.outline, Outline.meet_dress] at hmeet
    | rule a name slot =>
      refine ⟨rfl, fun z js r r' hmeet hz => ?_⟩
      rw [Matcher.outline, Outline.meet_dress] at hmeet
      rw [Matcher.read, Matcher.reads, Matcher.reads]
      cases hbody : slot.bind fun i => (rules[i]?).join with
      | none => exact .fatal
      | some body =>
        obtain ⟨i, rfl, hbody⟩ := Option.bind_eq_some_iff.mp hbody
        exact S.settle_meets (f := id) hz hmeet fun hjs => H hjs hbody hz

/-- What is computed of nodes holds of everything that is read, if what is claimed of rules holds
wherever this is so with one entry less. -/
theorem Tandem.Sound.covers (H : ∀ {slot z js body n r r'}, T.rule slot z = some js →
      (rules[slot]?).join = some body → (∀ m, T.Covers meets rules n m) → meets z r r' →
        Reading.Meets meets js (body.read rules n r) (body.read rules n r')) (n : Nat) (m : Matcher) :
    T.Covers meets rules n m := by
  induction n generalizing m with
  | zero => exact S.covers_of_entered (n := 0) (fun _ _ _ => .fatal) m
  | succ n ih =>
    exact S.covers_of_entered (n := n + 1) (fun hrule hbody hz => H hrule hbody ih hz) m

end

end Typestrip.Grammar
