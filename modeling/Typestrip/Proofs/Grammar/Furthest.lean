import Mathlib.Order.WithBot
import Typestrip.Proofs.Grammar.Diagnostics

/-!
# The furthest failure

`ParseError.leaves` lists the failures at the bottom of a tree in the order in which they were tried.
What a diagnostic is made of is told by this list alone: the deepest failure is the first leaf that
lies furthest into the input, and the descriptions expected at a position are those of the terminals
among the leaves that failed there, each where it stands first. The two walk the tree independently
and agree: where the deepest failure is a terminal, its own description is listed first.

Main statement: `ParseError.deepest_expected`.
-/

namespace Typestrip.Grammar.ParseError

mutual
/-- The failures at the bottom of a tree, in the order in which they were tried. -/
def leaves : ParseError → List ParseError
  | stopped _ cause => cause.leaves
  | exhausted p [] => [exhausted p []]
  | exhausted _ alternatives => leavesOf alternatives
  | e => [e]

/-- The failures at the bottom of the trees in a list. -/
def leavesOf : List ParseError → List ParseError
  | [] => []
  | e :: es => e.leaves ++ leavesOf es
end

/-! ## The leaf that lies furthest -/

/-- A failure is the first in a list among those that lie furthest into the input. -/
def Furthest (es : List ParseError) (e : ParseError) : Prop :=
  ∃ front back, es = front ++ e :: back ∧ (∀ x ∈ front, x.reach < e.reach) ∧
    ∀ x ∈ back, x.reach ≤ e.reach

theorem Furthest.reach_le {es : List ParseError} {e x : ParseError} (h : Furthest es e)
    (hx : x ∈ es) : x.reach ≤ e.reach := by
  obtain ⟨front, back, rfl, hfront, hback⟩ := h
  rcases List.mem_append.mp hx with hx | hx
  · exact (hfront x hx).le
  · rcases List.mem_cons.mp hx with rfl | hx
    · exact le_refl _
    · exact hback x hx

theorem furthest_singleton (e : ParseError) : Furthest [e] e := ⟨[], [], rfl, nofun, nofun⟩

/-- Of the furthest failures of two lists, the further one is that of both together. -/
theorem Furthest.append {es fs : List ParseError} {best e : ParseError} (hbest : Furthest es best)
    (he : Furthest fs e) : Furthest (es ++ fs) (further (some best) e) := by
  rw [further]
  split
  · next hlt =>
    obtain ⟨front, back, rfl, hfront, hback⟩ := he
    refine ⟨es ++ front, back, (List.append_assoc ..).symm, fun x hx => ?_, hback⟩
    rcases List.mem_append.mp hx with hx | hx
    · exact (hbest.reach_le hx).trans_lt hlt
    · exact hfront x hx
  · next hle =>
    have hothers : ∀ x ∈ fs, x.reach ≤ best.reach := fun x hx =>
      (he.reach_le hx).trans (Nat.not_lt.mp hle)
    obtain ⟨front, back, rfl, hfront, hback⟩ := hbest
    refine ⟨front, back ++ fs, List.append_assoc .., hfront, fun x hx => ?_⟩
    rcases List.mem_append.mp hx with hx | hx
    · exact hback x hx
    · exact hothers x hx

mutual
theorem furthest_deepest : ∀ e : ParseError, Furthest e.leaves e.deepest
  | stopped _ cause => furthest_deepest cause
  | exhausted p [] => furthest_singleton _
  | exhausted p (e :: es) => by
    obtain ⟨d, hd, hfurthest⟩ := exists_furthest es (furthest_deepest e)
    rw [deepest, deepestOf, further, hd]
    exact hfurthest
  | unmatched .. | leftOver _ | tooDeep .. | unresolved _ => furthest_singleton _

/-- The fold over alternatives goes on from the furthest leaf of those before them. -/
theorem exists_furthest : ∀ (es : List ParseError) {before : List ParseError} {best : ParseError},
    Furthest before best →
      ∃ d, deepestOf (some best) es = some d ∧ Furthest (before ++ leavesOf es) d
  | [], before, best, hbest => ⟨best, rfl, (List.append_nil before).symm ▸ hbest⟩
  | e :: es, before, best, hbest => by
    obtain ⟨d, hd, hfurthest⟩ := exists_furthest es (hbest.append (furthest_deepest e))
    exact ⟨d, hd, List.append_assoc .. ▸ hfurthest⟩
end

/-! ## The descriptions of the leaves at a position -/

/-- The description of a terminal that failed at a position. -/
def describedAt (at_ : Nat) : ParseError → Option String
  | unmatched p expected => if p = at_ then some expected else none
  | _ => none

mutual
theorem collectExpected_eq (at_ : Nat) : ∀ (e : ParseError) (found : List String),
    collectExpected at_ found e = (e.leaves.filterMap (describedAt at_)).foldl addExpected found
  | unmatched p expected, found => by
    by_cases hp : p = at_
    · simp [collectExpected, leaves, describedAt, hp]
    · simp [collectExpected, leaves, describedAt, hp]
  | stopped _ cause, found => collectExpected_eq at_ cause found
  | exhausted _ [], found => rfl
  | exhausted _ (e :: es), found => collectExpectedOf_eq at_ (e :: es) found
  | leftOver _, found | tooDeep .., found | unresolved _, found => rfl

theorem collectExpectedOf_eq (at_ : Nat) : ∀ (es : List ParseError) (found : List String),
    collectExpectedOf at_ found es =
      ((leavesOf es).filterMap (describedAt at_)).foldl addExpected found
  | [], found => rfl
  | e :: es, found => by
    rw [collectExpectedOf, collectExpectedOf_eq at_ es, collectExpected_eq at_ e, leavesOf,
      List.filterMap_append, List.foldl_append]
end

/-- Adding descriptions one by one keeps each where it stands first. -/
theorem foldl_addExpected (added : List String) :
    added.foldl addExpected [] = added.eraseDups := by
  induction added using List.reverseRecOn with
  | nil => rfl
  | append_singleton added x ih =>
    rw [List.foldl_append, ih, List.eraseDups_append, List.foldl_cons, List.foldl_nil, addExpected]
    by_cases hx : x ∈ added
    · rw [if_pos (List.contains_iff_mem.mpr (List.mem_eraseDups.mpr hx))]
      simp [List.removeAll, hx]
    · rw [if_neg fun h => hx (List.mem_eraseDups.mp (List.contains_iff_mem.mp h))]
      simp [List.removeAll, hx, List.eraseDups_cons]

theorem expectedAt_eq (e : ParseError) (at_ : Nat) :
    e.expectedAt at_ = (e.leaves.filterMap (describedAt at_)).eraseDups := by
  rw [expectedAt, collectExpected_eq, foldl_addExpected]

theorem describedAt_of_reach_lt {e : ParseError} {at_ : Nat} (h : e.reach < at_) :
    describedAt at_ e = none := by
  cases e with
  | unmatched p expected => exact if_neg (Nat.ne_of_lt h)
  | _ => rfl

/-- A terminal that is the furthest leaf gives the first description at its position. -/
theorem Furthest.head?_eraseDups {es : List ParseError} {p : Nat} {expected : String}
    (h : Furthest es (unmatched p expected)) :
    (es.filterMap (describedAt p)).eraseDups.head? = some expected := by
  obtain ⟨front, back, rfl, hfront, -⟩ := h
  have hnone : front.filterMap (describedAt p) = [] :=
    List.filterMap_eq_nil_iff.mpr fun x hx => describedAt_of_reach_lt (hfront x hx)
  have hself : describedAt p (unmatched p expected) = some expected := if_pos rfl
  rw [List.filterMap_append, hnone, List.nil_append, List.filterMap_cons, hself,
    List.eraseDups_cons, List.head?_cons]

/-! ## What is reported -/

/-- The deepest failure is the first leaf that lies furthest into the input, where a rule without a
body lies at the largest offset. What is expected at a position is told by the terminals among the
leaves that failed there, each description once, where it stands first. And where the deepest failure
is a terminal, a diagnostic lists its description first. -/
theorem deepest_expected (e : ParseError) :
    Furthest e.leaves e.deepest ∧
      (∀ p, e.expectedAt p = (e.leaves.filterMap (describedAt p)).eraseDups) ∧
      ∀ p expected, e.deepest = unmatched p expected →
        ∀ source, (e.diagnostic source).expected.head? = some expected := by
  refine ⟨furthest_deepest e, expectedAt_eq e, fun p expected hdeepest source => ?_⟩
  have hfurthest := furthest_deepest e
  rw [hdeepest] at hfurthest
  rw [diagnostic, hdeepest]
  exact (congrArg List.head? (expectedAt_eq e p)).trans hfurthest.head?_eraseDups

/-- Where a failure lies if a rule without a body is beyond every position. -/
def extent (e : ParseError) : WithTop Nat := e.position?

/-- A terminal that failed at the largest offset there is, then a rule without a body. -/
def tied : ParseError := exhausted 0 [unmatched maxOffset "x", unresolved "r"]

/-- At the largest offset the two are taken to lie equally far, so the terminal wins as the first. -/
theorem deepest_tied :
    tied.deepest = unmatched maxOffset "x" ∧ tied.leaves = [tied.deepest, unresolved "r"] ∧
      tied.deepest.extent < (unresolved "r").extent :=
  ⟨rfl, rfl, WithTop.coe_lt_top maxOffset⟩

end Typestrip.Grammar.ParseError
