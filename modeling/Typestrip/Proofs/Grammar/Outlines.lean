import Typestrip.Proofs.Grammar.Positions
import Typestrip.Proofs.Grammar.Reading
import Typestrip.Proofs.Grammar.Recursion
import Typestrip.Proofs.Regex.Runs

/-!
# Outlines of grammars

The outline of a node is what decides how much of a text it matches: identities, descriptions and
reshaping functions are left out. `Leaves` tells what a match leaves of a text, construct by construct
and without counting how deeply rules are entered. There is at most one such result (`Course.unique`),
and whatever is read of a text is one (`Matcher.leaves_of_read`). So a question about a particular
grammar is put to its outline, which can be written down and compared.
-/

namespace Typestrip.Grammar

/-- What a node matches. -/
inductive Outline where
  | literal (text : List Char)
  | pattern (regex : Regex.Expr)
  | sequence (parts : List Outline)
  | choice (alternatives : List Outline)
  | repetition (child : Outline)
  | rule (slot : Option Nat)
  /-- A node that matches nothing where it would fail. -/
  | optional (o : Outline)
  /-- A node whose value is kept by the sequence around it. -/
  | kept (o : Outline)

/-- The outline of a node from that of its construct. -/
def Attributes.outline (a : Attributes) (o : Outline) : Outline :=
  let o := if a.nullable then .optional o else o
  if a.capture.isSome then .kept o else o

mutual
/-- The outline of a compiled node. -/
def Matcher.outline : Matcher → Outline
  | .literal a text _ => a.outline (.literal text)
  | .pattern a regex _ => a.outline (.pattern regex)
  | .sequence a ms => a.outline (.sequence (Matcher.outlineAll ms))
  | .choice a ms => a.outline (.choice (Matcher.outlineAll ms))
  | .repetition a m => a.outline (.repetition m.outline)
  | .rule a _ slot => a.outline (.rule slot)

/-- The outlines of a list of nodes. -/
def Matcher.outlineAll : List Matcher → List Outline
  | [] => []
  | m :: ms => m.outline :: Matcher.outlineAll ms
end

theorem Matcher.outlineAll_eq_map (ms : List Matcher) :
    Matcher.outlineAll ms = ms.map Matcher.outline := by
  induction ms with
  | nil => rfl
  | cons m ms ih => rw [outlineAll, ih, List.map_cons]

/-! ## Comparing outlines -/

mutual
/-- Whether two outlines are the same. -/
def Outline.same : Outline → Outline → Bool
  | .literal s, .literal t => s == t
  | .pattern e, .pattern f => e == f
  | .sequence os, .sequence ps => Outline.sameAll os ps
  | .choice os, .choice ps => Outline.sameAll os ps
  | .repetition o, .repetition p => o.same p
  | .rule i, .rule j => i == j
  | .optional o, .optional p => o.same p
  | .kept o, .kept p => o.same p
  | _, _ => false

/-- Whether two lists of outlines are the same. -/
def Outline.sameAll : List Outline → List Outline → Bool
  | [], [] => true
  | o :: os, p :: ps => o.same p && Outline.sameAll os ps
  | _, _ => false
end

mutual
theorem Outline.eq_of_same : ∀ {o p : Outline}, o.same p = true → o = p
  | .literal s, p, h => by
    cases p with
    | literal t => exact congrArg _ (beq_iff_eq.mp h)
    | _ => cases h
  | .pattern e, p, h => by
    cases p with
    | pattern f => exact congrArg _ (beq_iff_eq.mp h)
    | _ => cases h
  | .sequence os, p, h => by
    cases p with
    | sequence ps => exact congrArg _ (Outline.eq_of_sameAll h)
    | _ => cases h
  | .choice os, p, h => by
    cases p with
    | choice ps => exact congrArg _ (Outline.eq_of_sameAll h)
    | _ => cases h
  | .repetition o, p, h => by
    cases p with
    | repetition p => exact congrArg _ (Outline.eq_of_same h)
    | _ => cases h
  | .rule i, p, h => by
    cases p with
    | rule j => exact congrArg _ (beq_iff_eq.mp h)
    | _ => cases h
  | .optional o, p, h => by
    cases p with
    | optional p => exact congrArg _ (Outline.eq_of_same h)
    | _ => cases h
  | .kept o, p, h => by
    cases p with
    | kept p => exact congrArg _ (Outline.eq_of_same h)
    | _ => cases h

theorem Outline.eq_of_sameAll : ∀ {os ps : List Outline}, Outline.sameAll os ps = true → os = ps
  | [], ps, h => by
    cases ps with
    | nil => rfl
    | cons => cases h
  | o :: os, ps, h => by
    cases ps with
    | nil => cases h
    | cons p ps =>
      obtain ⟨hhead, htail⟩ := Bool.and_eq_true_iff.mp h
      rw [Outline.eq_of_same hhead, Outline.eq_of_sameAll htail]
end

mutual
theorem Outline.same_self : ∀ o : Outline, o.same o = true
  | .literal _ | .pattern _ | .rule _ => beq_self_eq_true _
  | .sequence os | .choice os => Outline.sameAll_self os
  | .repetition o | .optional o | .kept o => Outline.same_self o

theorem Outline.sameAll_self : ∀ os : List Outline, Outline.sameAll os os = true
  | [] => rfl
  | o :: os => Bool.and_eq_true_iff.mpr ⟨Outline.same_self o, Outline.sameAll_self os⟩
end

/-! ## What is left -/

/-- The outline of the body of a rule. -/
def outlineOf (rules : Rules) (slot : Nat) : Option Outline := (rules[slot]?).join.map Matcher.outline

/-- `Course bodies place o cs r`: matching `o` at the beginning of a text leaves `rest` of it, where
`r` is `some rest`, or fails, where `r` is `none`. All further places that come up on the way satisfy
`place`. -/
inductive Course (bodies : Nat → Option Outline) (place : List Char → Prop) :
    Outline → List Char → Option (List Char) → Prop
  | literal {text rest} : Course bodies place (.literal text) (text ++ rest) (some rest)
  | literalFailed {text cs} : ¬ text <+: cs → Course bodies place (.literal text) cs none
  | pattern {regex cs} : Course bodies place (.pattern regex) cs ((regex.search? cs).map cs.drop)
  | done {cs} : Course bodies place (.sequence []) cs (some cs)
  | part {o os cs mid r} : Course bodies place o cs (some mid) → place mid →
      Course bodies place (.sequence os) mid r → Course bodies place (.sequence (o :: os)) cs r
  | partFailed {o os cs} : Course bodies place o cs none →
      Course bodies place (.sequence (o :: os)) cs none
  | exhausted {cs} : Course bodies place (.choice []) cs none
  | alternative {o os cs rest} : Course bodies place o cs (some rest) →
      Course bodies place (.choice (o :: os)) cs (some rest)
  | otherwise {o os cs r} : Course bodies place o cs none → Course bodies place (.choice os) cs r →
      Course bodies place (.choice (o :: os)) cs r
  | round {o cs mid r} : Course bodies place o cs (some mid) → mid.length < cs.length → place mid →
      Course bodies place (.repetition o) mid r → Course bodies place (.repetition o) cs r
  | idle {o cs} : Course bodies place o cs (some cs) →
      Course bodies place (.repetition o) cs (some cs)
  | stop {o cs} : Course bodies place o cs none → Course bodies place (.repetition o) cs (some cs)
  | rule {slot o cs r} : bodies slot = some o → Course bodies place o cs r →
      Course bodies place (.rule (some slot)) cs r
  | optional {o cs rest} : Course bodies place o cs (some rest) →
      Course bodies place (.optional o) cs (some rest)
  | skipped {o cs} : Course bodies place o cs none → Course bodies place (.optional o) cs (some cs)
  | kept {o cs r} : Course bodies place o cs r → Course bodies place (.kept o) cs r

/-- What matching at the beginning of a text leaves of it, whatever places come up on the way. -/
abbrev Leaves (bodies : Nat → Option Outline) : Outline → List Char → Option (List Char) → Prop :=
  Course bodies fun _ => True

/-- What becomes of a reading: what it leaves, or that it fails, if it is not fatal. -/
def Reading.leaves? {α : Type} : Reading α → Option (Option (List Char))
  | matched _ rest => some (some rest)
  | failed => some none
  | fatal => none

variable {bodies : Nat → Option Outline} {place place' : List Char → Prop} {o : Outline}
  {cs : List Char} {r r' : Option (List Char)}

/-- A match has one result. -/
theorem Course.unique (h : Course bodies place o cs r) (h' : Course bodies place' o cs r') : r = r' := by
  induction h generalizing r' with
  | @literal text rest =>
    generalize hcs : text ++ rest = cs at h'
    cases h' with
    | @literal _ rest' => rw [List.append_cancel_left hcs]
    | literalFailed hnot => exact absurd ⟨rest, hcs⟩ hnot
  | @literalFailed text cs hnot =>
    cases h' with
    | literal => exact absurd (List.prefix_append text _) hnot
    | literalFailed => rfl
  | pattern =>
    cases h'
    rfl
  | done =>
    cases h'
    rfl
  | part _ _ _ ih ihs =>
    cases h' with
    | part h _ hs =>
      obtain rfl := Option.some.inj (ih h)
      exact ihs hs
    | partFailed h => cases ih h
  | partFailed _ ih =>
    cases h' with
    | part h => cases ih h
    | partFailed => rfl
  | exhausted =>
    cases h'
    rfl
  | alternative _ ih =>
    cases h' with
    | alternative h => exact ih h
    | otherwise h => cases ih h
  | otherwise _ _ ih ihs =>
    cases h' with
    | alternative h => cases ih h
    | otherwise _ hs => exact ihs hs
  | round _ hlt _ _ ih ihs =>
    cases h' with
    | round h _ _ hs =>
      obtain rfl := Option.some.inj (ih h)
      exact ihs hs
    | idle h =>
      obtain rfl := Option.some.inj (ih h)
      exact absurd hlt (Nat.lt_irrefl _)
    | stop h => cases ih h
  | idle _ ih =>
    cases h' with
    | round h hlt =>
      obtain rfl := Option.some.inj (ih h)
      exact absurd hlt (Nat.lt_irrefl _)
    | idle | stop => rfl
  | stop _ ih =>
    cases h' with
    | round h => cases ih h
    | idle | stop => rfl
  | rule hbody _ ih =>
    cases h' with
    | rule hbody' h =>
      obtain rfl := Option.some.inj (hbody.symm.trans hbody')
      exact ih h
  | optional _ ih =>
    cases h' with
    | optional h => exact ih h
    | skipped h => cases ih h
  | skipped _ ih =>
    cases h' with
    | optional h => cases ih h
    | skipped => rfl
  | kept _ ih =>
    cases h' with
    | kept h => exact ih h

/-- More rules and more places make no difference to what is left. -/
theorem Course.mono {bodies' : Nat → Option Outline} (h : Course bodies place o cs r)
    (hbodies : ∀ {slot o}, bodies slot = some o → bodies' slot = some o)
    (hplace : ∀ {cs}, place cs → place' cs) : Course bodies' place' o cs r := by
  induction h with
  | literal => exact .literal
  | literalFailed hnot => exact .literalFailed hnot
  | pattern => exact .pattern
  | done => exact .done
  | part _ hmid _ ih ihs => exact .part ih (hplace hmid) ihs
  | partFailed _ ih => exact .partFailed ih
  | exhausted => exact .exhausted
  | alternative _ ih => exact .alternative ih
  | otherwise _ _ ih ihs => exact .otherwise ih ihs
  | round _ hlt hmid _ ih ihs => exact .round ih hlt (hplace hmid) ihs
  | idle _ ih => exact .idle ih
  | stop _ ih => exact .stop ih
  | rule hbody _ ih => exact .rule (hbodies hbody) ih
  | optional _ ih => exact .optional ih
  | skipped _ ih => exact .skipped ih
  | kept _ ih => exact .kept ih

theorem Course.leaves (h : Course bodies place o cs r) :
    Leaves bodies o cs r :=
  h.mono id fun _ => trivial

theorem course_anchored_iff {e : Regex.Expr} :
    Course bodies place (.pattern (.anchored e)) cs r ↔ r = e.rest? cs := by
  have hpattern : Course bodies place (.pattern (.anchored e)) cs (e.rest? cs) := by
    rw [← e.search?_anchored_drop]
    exact .pattern
  refine ⟨fun h => h.unique hpattern, ?_⟩
  rintro rfl
  exact hpattern

theorem course_literal_iff {text rest : List Char} :
    Course bodies place (.literal text) cs (some rest) ↔ cs = text ++ rest := by
  constructor
  · intro h
    cases h with
    | literal => rfl
  · rintro rfl
    exact .literal

theorem course_done_iff : Course bodies place (.sequence []) cs r ↔ r = some cs := by
  constructor
  · intro h
    cases h
    rfl
  · rintro rfl
    exact .done

theorem course_part_iff {os : List Outline} {rest : List Char} :
    Course bodies place (.sequence (o :: os)) cs (some rest) ↔
      ∃ mid, Course bodies place o cs (some mid) ∧ place mid ∧
        Course bodies place (.sequence os) mid (some rest) := by
  constructor
  · intro h
    cases h with
    | part h hmid hs => exact ⟨_, h, hmid, hs⟩
  · rintro ⟨mid, h, hmid, hs⟩
    exact .part h hmid hs

/-- Alternatives behind some that fail. -/
theorem Course.behind {front os : List Outline} (h : Course bodies place (.choice os) cs r)
    (hfront : ∀ p ∈ front, Course bodies place p cs none) :
    Course bodies place (.choice (front ++ os)) cs r := by
  induction front with
  | nil => exact h
  | cons p front ih =>
    obtain ⟨hp, hfront⟩ := List.forall_mem_cons.mp hfront
    exact .otherwise hp (ih hfront)

theorem course_alternative_iff {os : List Outline} {rest : List Char} :
    Course bodies place (.choice (o :: os)) cs (some rest) ↔
      Course bodies place o cs (some rest) ∨
        Course bodies place o cs none ∧ Course bodies place (.choice os) cs (some rest) := by
  constructor
  · intro h
    cases h with
    | alternative h => exact .inl h
    | otherwise h hs => exact .inr ⟨h, hs⟩
  · rintro (h | ⟨h, hs⟩)
    · exact .alternative h
    · exact .otherwise h hs

theorem not_course_exhausted {rest : List Char} :
    ¬ Course bodies place (.choice []) cs (some rest) := by
  intro h
  cases h

theorem course_rule_iff {slot : Nat} (hbody : bodies slot = some o) :
    Course bodies place (.rule (some slot)) cs r ↔ Course bodies place o cs r := by
  constructor
  · intro h
    cases h with
    | rule hbody' h =>
      obtain rfl := Option.some.inj (hbody.symm.trans hbody')
      exact h
  · exact .rule hbody

theorem course_optional_iff {rest : List Char} :
    Course bodies place (.optional o) cs (some rest) ↔
      Course bodies place o cs (some rest) ∨ Course bodies place o cs none ∧ rest = cs := by
  constructor
  · intro h
    cases h with
    | optional h => exact .inl h
    | skipped h => exact .inr ⟨h, rfl⟩
  · rintro (h | ⟨h, rfl⟩)
    · exact .optional h
    · exact .skipped h

theorem course_kept_iff : Course bodies place (.kept o) cs r ↔ Course bodies place o cs r := by
  constructor
  · intro h
    cases h with
    | kept h => exact h
  · exact .kept

/-- Where the rounds of a repetition end, a further one fails or takes nothing. -/
theorem Course.repetition_end {rest : List Char}
    (h : Course bodies place (.repetition o) cs (some rest)) :
    Course bodies place o rest none ∨ Course bodies place o rest (some rest) := by
  generalize hr : some rest = r at h
  generalize ho : Outline.repetition o = o' at h
  induction h with
  | round _ _ _ _ _ ih => exact ih hr ho
  | idle h =>
    obtain rfl := Option.some.inj hr
    obtain rfl := Outline.repetition.inj ho
    exact .inr h
  | stop h =>
    obtain rfl := Option.some.inj hr
    obtain rfl := Outline.repetition.inj ho
    exact .inl h
  | _ => cases ho

/-! ## Nodes that take something -/

mutual
/-- Every match takes something, as far as the parts of the outline tell. `sure` tells the rules of
which this holds. -/
def Outline.takes (sure : Nat → Bool) : Outline → Bool
  | .literal text => !text.isEmpty
  | .pattern regex => regex.takes
  | .sequence os => Outline.someTakes sure os
  | .choice os => Outline.allTake sure os
  | .repetition _ => false
  | .rule slot => slot.any sure
  | .optional _ => false
  | .kept o => o.takes sure

/-- Some outline of a list takes something. -/
def Outline.someTakes (sure : Nat → Bool) : List Outline → Bool
  | [] => false
  | o :: os => o.takes sure || Outline.someTakes sure os

/-- All outlines of a list take something. -/
def Outline.allTake (sure : Nat → Bool) : List Outline → Bool
  | [] => true
  | o :: os => o.takes sure && Outline.allTake sure os
end

theorem Course.length_le (h : Course bodies place o cs r) {rest : List Char} (hr : r = some rest) :
    rest.length ≤ cs.length := by
  induction h generalizing rest with
  | @literal text rest' =>
    obtain rfl := Option.some.inj hr
    rw [List.length_append]
    exact Nat.le_add_left _ _
  | pattern =>
    obtain ⟨n, -, rfl⟩ := Option.map_eq_some_iff.mp hr
    rw [List.length_drop]
    exact Nat.sub_le _ _
  | done | idle | stop | skipped =>
    obtain rfl := Option.some.inj hr
    exact Nat.le_refl _
  | part _ _ _ ih ihs => exact Nat.le_trans (ihs hr) (ih rfl)
  | alternative _ ih | rule _ _ ih | optional _ ih | kept _ ih => exact ih hr
  | otherwise _ _ _ ihs => exact ihs hr
  | round _ hlt _ _ _ ihs => exact Nat.le_trans (ihs hr) (Nat.le_of_lt hlt)
  | literalFailed | partFailed | exhausted => cases hr

/-- An outline takes something if its parts tell, provided that the rules do of which it is
assumed. -/
theorem Course.length_lt {sure : Nat → Bool}
    (hsure : ∀ {slot o}, sure slot = true → bodies slot = some o → o.takes sure = true)
    (h : Course bodies place o cs r) {rest : List Char} (hr : r = some rest)
    (ho : o.takes sure = true) :
    rest.length < cs.length := by
  induction h generalizing rest with
  | @literal text rest' =>
    obtain rfl := Option.some.inj hr
    rw [Outline.takes, Bool.not_eq_true'] at ho
    have := List.length_pos_iff.mpr (List.isEmpty_eq_false_iff.mp ho)
    rw [List.length_append]
    omega
  | @pattern regex cs =>
    obtain ⟨n, hn, rfl⟩ := Option.map_eq_some_iff.mp hr
    have hpos := Regex.Expr.search?_pos ho hn
    have hle := Regex.Expr.search?_le hn
    rw [List.length_drop]
    omega
  | part h _ hs ih ihs =>
    rcases Bool.or_eq_true_iff.mp ho with hhead | htail
    · exact Nat.lt_of_le_of_lt (hs.length_le hr) (ih rfl hhead)
    · exact Nat.lt_of_lt_of_le (ihs hr htail) (h.length_le rfl)
  | alternative _ ih => exact ih hr (Bool.and_eq_true_iff.mp ho).1
  | otherwise _ _ _ ihs => exact ihs hr (Bool.and_eq_true_iff.mp ho).2
  | rule hbody _ ih => exact ih hr (hsure ho hbody)
  | kept _ ih => exact ih hr ho
  | done | round | idle | stop | optional | skipped => cases ho
  | literalFailed | partFailed | exhausted => cases hr

/-! ## What is read is left -/

variable {rules : Rules} {enter : Matcher → Reader} {left : Nat}

/-- The results of a reader are those of an outline. -/
def Reading.Follows {α : Type} (bodies : Nat → Option Outline) (o : Outline) (cs : List Char)
    (x : Reading α) : Prop :=
  ∀ r, x.leaves? = some r → Leaves bodies o cs r

/-- A node has the results of its construct, but does not fail if it is nullable. -/
theorem Reading.Follows.settle {α : Type} {x : Reading α} (h : x.Follows bodies o cs)
    (a : Attributes) (f : α → List Char → Value) :
    (a.settle cs f x).Follows bodies (a.outline o) cs := by
  have hnullable : (a.settle cs f x).Follows bodies (if a.nullable then .optional o else o) cs := by
    intro r hr
    cases x with
    | matched v rest =>
      obtain rfl := Option.some.inj hr
      split
      · exact .optional (h _ rfl)
      · exact h _ rfl
    | failed =>
      rw [Attributes.settle] at hr
      split at hr <;> obtain rfl := Option.some.inj hr
      · next ha =>
        rw [if_pos ha]
        exact .skipped (h _ rfl)
      · next ha =>
        rw [if_neg ha]
        exact h _ rfl
    | fatal => cases hr
  intro r hr
  rw [Attributes.outline]
  split
  · exact .kept (hnullable r hr)
  · exact hnullable r hr

theorem readLiteral_follows (text cs : List Char) :
    (readLiteral text cs).Follows bodies (.literal text) cs := by
  intro r hr
  rw [readLiteral] at hr
  cases hs : stripPrefix? text cs with
  | some rest =>
    rw [hs] at hr
    obtain rfl := Option.some.inj hr
    rw [stripPrefix?_eq_some_iff.mp hs]
    exact .literal
  | none =>
    rw [hs] at hr
    obtain rfl := Option.some.inj hr
    refine .literalFailed ?_
    rintro ⟨rest, hprefix⟩
    rw [stripPrefix?_eq_some_iff.mpr hprefix.symm] at hs
    cases hs

theorem readPattern_follows (regex : Regex.Expr) (cs : List Char) :
    (readPattern regex cs).Follows bodies (.pattern regex) cs := by
  intro r hr
  have hleaves : Leaves bodies (.pattern regex) cs ((regex.search? cs).map cs.drop) := .pattern
  rw [readPattern] at hr
  cases hs : regex.search? cs with
  | some n =>
    rw [hs] at hr hleaves
    obtain rfl := Option.some.inj hr
    exact hleaves
  | none =>
    rw [hs] at hr hleaves
    obtain rfl := Option.some.inj hr
    exact hleaves

theorem readsAll_follows {ms : List Matcher}
    (h : ∀ m ∈ ms, ∀ cs, (m.reads rules enter cs).Follows bodies m.outline cs)
    (fields : List (String × Value)) (cs : List Char) :
    (Matcher.readsAll rules enter ms fields cs).Follows bodies
      (.sequence (Matcher.outlineAll ms)) cs := by
  induction ms generalizing fields cs with
  | nil =>
    intro r hr
    obtain rfl := Option.some.inj hr
    exact .done
  | cons m ms ih =>
    intro r hr
    have hhead := h m List.mem_cons_self cs
    rw [Matcher.readsAll] at hr
    cases hread : m.reads rules enter cs with
    | matched v mid =>
      rw [hread] at hr hhead
      exact .part (hhead _ rfl) trivial
        (ih (fun m hm => h m (List.mem_cons_of_mem _ hm)) _ mid r hr)
    | failed =>
      rw [hread] at hr hhead
      obtain rfl := Option.some.inj hr
      exact .partFailed (hhead _ rfl)
    | fatal =>
      rw [hread] at hr
      cases hr

theorem readsFirst_follows {ms : List Matcher}
    (h : ∀ m ∈ ms, ∀ cs, (m.reads rules enter cs).Follows bodies m.outline cs) (cs : List Char) :
    (Matcher.readsFirst rules enter ms cs).Follows bodies
      (.choice (Matcher.outlineAll ms)) cs := by
  induction ms with
  | nil =>
    intro r hr
    obtain rfl := Option.some.inj hr
    exact .exhausted
  | cons m ms ih =>
    intro r hr
    have hhead := h m List.mem_cons_self cs
    rw [Matcher.readsFirst] at hr
    cases hread : m.reads rules enter cs with
    | matched v rest =>
      rw [hread] at hr hhead
      obtain rfl := Option.some.inj hr
      exact .alternative (hhead _ rfl)
    | failed =>
      rw [hread] at hr hhead
      exact .otherwise (hhead _ rfl) (ih (fun m hm => h m (List.mem_cons_of_mem _ hm)) r hr)
    | fatal =>
      rw [hread] at hr
      cases hr

theorem readRounds_follows {step : Reader} (h : ∀ cs, (step cs).Follows bodies o cs)
    (hend : ∀ {cs v rest}, step cs = .matched v rest → ∃ text, cs = text ++ rest)
    (items : List Value) (cs : List Char) :
    (readRounds step items cs).Follows bodies (.repetition o) cs := by
  intro r hr
  have hround := h cs
  rw [readRounds] at hr
  cases hread : step cs with
  | matched v mid =>
    rw [hread] at hr hround
    dsimp only at hr
    split at hr
    · next hlt => exact .round (hround _ rfl) hlt trivial (readRounds_follows h hend _ mid r hr)
    · next hlt =>
      obtain rfl := Option.some.inj hr
      -- what is as long as the text is the text
      obtain ⟨text, rfl⟩ := hend hread
      rw [List.length_append] at hlt
      obtain rfl : text = [] := List.length_eq_zero_iff.mp (by omega)
      exact .idle (hround _ rfl)
  | failed =>
    rw [hread] at hr hround
    obtain rfl := Option.some.inj hr
    exact .stop (hround _ rfl)
  | fatal =>
    rw [hread] at hr
    cases hr
termination_by cs.length

theorem read_follows_of_entered
    (hentered : ∀ {slot : Nat} {body : Matcher}, (rules[slot]?).join = some body → ∀ cs,
      (entered rules left body cs).Follows (outlineOf rules) body.outline cs)
    (m : Matcher) (cs : List Char) :
    (m.read rules left cs).Follows (outlineOf rules) m.outline cs := by
  induction m using Matcher.treeInduction generalizing cs with
  | step m ih =>
    rw [Matcher.read]
    cases m with
    | literal a text expected =>
      rw [Matcher.reads, Matcher.outline]
      exact (readLiteral_follows text cs).settle a _
    | pattern a regex expected =>
      rw [Matcher.reads, Matcher.outline]
      exact (readPattern_follows regex cs).settle a _
    | sequence a ms =>
      rw [Matcher.reads, Matcher.outline]
      exact (readsAll_follows ih [] cs).settle a _
    | choice a ms =>
      rw [Matcher.reads, Matcher.outline]
      exact (readsFirst_follows ih cs).settle a _
    | repetition a m =>
      rw [Matcher.reads, Matcher.outline]
      have hchild := ih m (List.mem_singleton_self m)
      exact (readRounds_follows hchild Matcher.exists_of_read [] cs).settle a _
    | rule a name slot =>
      rw [Matcher.reads, Matcher.outline]
      split
      · intro r hr
        cases hr
      · next body hslot =>
        obtain ⟨i, rfl, hbody⟩ := Option.bind_eq_some_iff.mp hslot
        have houtline : outlineOf rules i = some body.outline := congrArg _ hbody
        have hrule : (entered rules left body cs).Follows (outlineOf rules) (.rule (some i)) cs :=
          fun r hr => .rule houtline (hentered hbody cs r hr)
        exact hrule.settle a _

theorem entered_follows (left : Nat) (body : Matcher) (cs : List Char) :
    (entered rules left body cs).Follows (outlineOf rules) body.outline cs := by
  induction left generalizing body cs with
  | zero =>
    intro r hr
    cases hr
  | succ left ih => exact read_follows_of_entered (fun _ => ih _) body cs

/-- What is read of a text is left by the outline. -/
theorem Matcher.leaves_of_read {m : Matcher} {cs : List Char} {r : Option (List Char)}
    (h : (m.read rules left cs).leaves? = some r) :
    Leaves (outlineOf rules) m.outline cs r :=
  read_follows_of_entered (fun _ => entered_follows left _) m cs r h

/-- A match leaves what the outline leaves. -/
theorem Matcher.leaves_of_read_matched {m : Matcher} {cs rest : List Char} {v : Value}
    (h : m.read rules left cs = .matched v rest) :
    Leaves (outlineOf rules) m.outline cs (some rest) :=
  leaves_of_read (by rw [h]; rfl)

theorem Matcher.leaves_of_read_failed {m : Matcher} {cs : List Char}
    (h : m.read rules left cs = .failed) : Leaves (outlineOf rules) m.outline cs none :=
  leaves_of_read (by rw [h]; rfl)

/-! ## Whole parses -/

/-- Input is left over only behind a match of the root. -/
theorem Parser.exists_matchAt_of_leftOver {p : Parser} {options : Options} {input : List Char}
    {stop : Nat} (h : p.parse options input = .error (.leftOver stop)) :
    ∃ s, (p.matchAt options.maxDepth 0 input (.empty options.memoize)).1 = .ok s ∧
      s.consumed = stop := by
  let L := partialBelow input
  -- the root is matched as the body of a rule is
  have hroot : L.Ends 0 (L.Inside 0)
      (p.matchAt options.maxDepth 0 input (.empty options.memoize)) :=
    L.enter_obeys p.rules options.maxDepth (options.maxDepth + 1) p.root
      (Text.fromBoundary?_zero input) (FailureLaw.inOrder_empty _)
  rw [p.parse_eq] at h
  revert h hroot
  rcases p.matchAt options.maxDepth 0 input (.empty options.memoize) with ⟨e | s, memo⟩
  · intro h hroot
    rw [Options.complete_error] at h
    exact absurd (Except.error.inj h) (hroot.holds.1 stop)
  · intro h _
    rcases options.complete_ok input s with hs | ⟨-, hs⟩ <;> rw [hs] at h
    · cases h
    · exact ⟨s, rfl, ParseError.leftOver.inj (Except.error.inj h)⟩

/-- Input may be left over where not all of it has to match. -/
theorem Parser.parse_ne_leftOver {p : Parser} {options : Options} (hall : options.matchAll = false)
    (input : List Char) (stop : Nat) : p.parse options input ≠ .error (.leftOver stop) := by
  intro h
  obtain ⟨s, hmatch, -⟩ := exists_matchAt_of_leftOver h
  rw [p.parse_eq, hmatch, Options.complete, hall] at h
  cases h

/-- A parse that succeeds has matched the root. -/
theorem Parser.matchAt_of_parse_ok {p : Parser} {options : Options} {input : List Char} {s : Success}
    (h : p.parse options input = .ok s) :
    (p.matchAt options.maxDepth 0 input (.empty options.memoize)).1 = .ok s := by
  rw [p.parse_eq] at h
  revert h
  rcases (p.matchAt options.maxDepth 0 input (.empty options.memoize)).1 with e | s'
  · intro h
    rw [Options.complete_error] at h
    cases h
  · intro h
    rcases options.complete_ok input s' with hs | ⟨-, hs⟩ <;> rw [hs] at h
    · exact h
    · cases h

/-- What a parse has matched is left by the outline of the root. -/
theorem Parser.leaves_of_matchAt {p : Parser} {member : Matcher → Prop} (F : Family p.rules member)
    (hid : Identified member) (hroot : member p.root) {maxDepth : Nat} {input : List Char}
    {memoize : Bool} {s : Success}
    (h : (p.matchAt maxDepth 0 input (.empty memoize)).1 = .ok s) :
    ∃ rest, Text.fromBoundary? input s.consumed = some rest ∧
      Leaves (outlineOf p.rules) p.root.outline input (some rest) := by
  obtain ⟨-, n, hplain⟩ := exists_plain_of_run F hid hroot (Text.fromBoundary?_zero input)
    (Memo.sound_empty memoize) (Prod.ext h rfl) (.ok s)
  obtain ⟨text, rest, rfl, hs, hread⟩ := Matcher.read_of_plain_ok hplain
  refine ⟨rest, ?_, Matcher.leaves_of_read_matched hread⟩
  rw [hs, Text.fromBoundary?_width]

/-- Where all of the input has to match, nothing is left. -/
theorem Parser.leaves_of_parse {p : Parser} {member : Matcher → Prop} (F : Family p.rules member)
    (hid : Identified member) (hroot : member p.root) {options : Options}
    (hall : options.matchAll = true) {input : List Char} {s : Success}
    (h : p.parse options input = .ok s) :
    Leaves (outlineOf p.rules) p.root.outline input (some []) := by
  have hmatch := Parser.matchAt_of_parse_ok h
  obtain ⟨rest, hrest, hleaves⟩ := Parser.leaves_of_matchAt F hid hroot hmatch
  obtain ⟨text, rfl, hwidth⟩ := Text.fromBoundary?_eq_some_iff.mp hrest
  have hend : ¬ s.consumed < Text.width (text ++ rest) := by
    intro hlt
    rw [p.parse_eq, hmatch, Options.complete, if_pos hall, Outcome.requireAll, if_pos hlt] at h
    cases h
  obtain rfl : rest = [] := by
    rw [Text.width_append] at hend
    exact width_eq_zero_iff.mp (by omega)
  exact hleaves

/-- Where the outline leaves nothing, all of the input matches, unless there is a fatal failure. -/
theorem Parser.parse_of_leaves {p : Parser} {member : Matcher → Prop} (F : Family p.rules member)
    (hid : Identified member) (hroot : member p.root) {options : Options} {input : List Char}
    (h : Leaves (outlineOf p.rules) p.root.outline input (some [])) :
    (∃ e, p.parse options input = .error e ∧ e.isFatal = true) ∨
      ∃ s, p.parse options input = .ok s := by
  rw [p.parse_eq]
  rcases hmatch : p.matchAt options.maxDepth 0 input (.empty options.memoize) with ⟨e | s, memo⟩
  · refine .inl ⟨e, options.complete_error input e, ?_⟩
    by_contra hfatal
    obtain ⟨-, n, hplain⟩ := exists_plain_of_run F hid hroot (Text.fromBoundary?_zero input)
      (Memo.sound_empty _) hmatch (.not_fatal (Bool.eq_false_of_not_eq_true hfatal))
    have hread := Matcher.read_of_plain_error hplain (Bool.eq_false_of_not_eq_true hfatal)
    cases h.unique (Matcher.leaves_of_read_failed hread)
  · obtain ⟨rest, hrest, hleaves⟩ := Parser.leaves_of_matchAt F hid hroot (congrArg Prod.fst hmatch)
    obtain rfl := Option.some.inj (h.unique hleaves)
    obtain ⟨text, rfl, hwidth⟩ := Text.fromBoundary?_eq_some_iff.mp hrest
    refine .inr ⟨s, ?_⟩
    dsimp only
    rw [Options.complete, Outcome.requireAll, List.append_nil, hwidth, if_neg (Nat.lt_irrefl _),
      ite_self]

end Typestrip.Grammar
