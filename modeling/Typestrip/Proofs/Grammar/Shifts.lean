import Typestrip.Proofs.Grammar.Furthest

/-!
# Failures in the rest of an input

A failure in the rest of an input, moved by where that rest begins, is a failure in the input. It says
the same there: moving it changes positions and nothing else, so the tree keeps its shape and the kind
of every failure in it, and whoever looks for the deepest failure or for what was expected at a
position may do so before or after the move (`ParseError.analysis_shift`).

The two analyses depend on the leaves alone, so it is enough to see that the leaves of a moved failure
are the moved leaves. A rule without a body counts as lying at the largest offset and is not moved;
that it stays beyond every position is what `ParseError.Fits` is for.
-/

namespace Typestrip.Grammar.ParseError

/-- What failures are told apart by, whatever they say. -/
inductive Kind where
  | unmatched
  | stopped
  | leftOver
  | exhausted
  | tooDeep
  | unresolved
deriving DecidableEq

def kind : ParseError → Kind
  | unmatched .. => .unmatched
  | stopped .. => .stopped
  | leftOver _ => .leftOver
  | exhausted .. => .exhausted
  | tooDeep .. => .tooDeep
  | unresolved _ => .unresolved

/-- The failure in a tree to which a path of numbers leads, each of which picks a cause. -/
def node? (e : ParseError) : List Nat → Option ParseError
  | [] => some e
  | i :: path => e.causes[i]?.bind fun cause => cause.node? path

/-- Every position in the tree can be moved that far and stays in front of the largest offset. -/
def Fits (offset : Nat) (e : ParseError) : Prop :=
  ∀ part, e.Part part → ∀ p, part.position? = some p → p + offset < maxOffset

variable {e : ParseError} {es : List ParseError} {j k p : Nat}

/-! ## The tree -/

@[simp] theorem kind_shift (k : Nat) (e : ParseError) : (e.shift k).kind = e.kind := by
  cases e <;> rfl

theorem node?_shift (k : Nat) (e : ParseError) (path : List Nat) :
    (e.shift k).node? path = (e.node? path).map (shift k) := by
  induction path generalizing e with
  | nil => rfl
  | cons i path ih =>
    rw [node?, node?, causes_shift, List.getElem?_map]
    cases e.causes[i]? with
    | none => rfl
    | some cause => exact ih cause

mutual
/-- Moving twice is moving once by both offsets together. -/
theorem shift_shift (j k : Nat) : ∀ e : ParseError, (e.shift j).shift k = e.shift (j + k)
  | stopped p cause => by
    rw [shift, shift, shift, shift_shift j k cause, Nat.add_assoc]
  | exhausted p es => by
    rw [shift, shift, shift, shiftAll_shiftAll j k es, Nat.add_assoc]
  | unmatched p _ | leftOver p | tooDeep p _ => by rw [shift, shift, shift, Nat.add_assoc]
  | unresolved _ => rfl

theorem shiftAll_shiftAll (j k : Nat) :
    ∀ es : List ParseError, shiftAll k (shiftAll j es) = shiftAll (j + k) es
  | [] => rfl
  | e :: es => by
    rw [shiftAll, shiftAll, shiftAll, shift_shift j k e, shiftAll_shiftAll j k es]
end

theorem Fits.mono (h : e.Fits k) (hle : j ≤ k) : e.Fits j :=
  fun part hpart p hp => (Nat.add_le_add_left hle p).trans_lt (h part hpart p hp)

/-- What can be moved by an offset is a tree whose top and whose causes can. -/
theorem fits_iff : e.Fits k ↔
    (∀ p, e.position? = some p → p + k < maxOffset) ∧ ∀ cause ∈ e.causes, cause.Fits k := by
  constructor
  · exact fun h => ⟨h e e.part_self, fun cause hcause part hpart => h part (part_of_cause hcause hpart)⟩
  · rintro ⟨htop, hcauses⟩ part hpart
    rcases part_iff.mp hpart with rfl | ⟨cause, hcause, hpart⟩
    · exact htop
    · exact hcauses cause hcause part hpart

/-! ## The leaves -/

mutual
theorem leaves_shift (k : Nat) : ∀ e : ParseError, (e.shift k).leaves = e.leaves.map (shift k)
  | stopped _ cause => leaves_shift k cause
  | exhausted _ [] => rfl
  | exhausted _ (e :: es) => leavesOf_shiftAll k (e :: es)
  | unmatched .. | leftOver _ | tooDeep .. | unresolved _ => rfl

theorem leavesOf_shiftAll (k : Nat) :
    ∀ es : List ParseError, leavesOf (shiftAll k es) = (leavesOf es).map (shift k)
  | [] => rfl
  | e :: es => by
    rw [shiftAll, leavesOf, leavesOf, leaves_shift k e, leavesOf_shiftAll k es, List.map_append]
end

mutual
theorem part_of_mem_leaves : ∀ (e : ParseError) {leaf : ParseError}, leaf ∈ e.leaves → e.Part leaf
  | stopped _ cause, _, h => part_of_cause (List.mem_singleton_self cause) (part_of_mem_leaves cause h)
  | exhausted _ (e :: es), _, h => by
    obtain ⟨cause, hcause, hpart⟩ := part_of_mem_leavesOf (e :: es) h
    exact part_of_cause hcause hpart
  | exhausted p [], _, h | unmatched p _, _, h | leftOver p, _, h | tooDeep p _, _, h
  | unresolved _, _, h => List.mem_singleton.mp h ▸ part_self _

theorem part_of_mem_leavesOf : ∀ (es : List ParseError) {leaf : ParseError}, leaf ∈ leavesOf es →
    ∃ e ∈ es, e.Part leaf
  | e :: es, _, h => by
    rcases List.mem_append.mp h with h | h
    · exact ⟨e, List.mem_cons_self, part_of_mem_leaves e h⟩
    · obtain ⟨cause, hcause, hpart⟩ := part_of_mem_leavesOf es h
      exact ⟨cause, List.mem_cons_of_mem e hcause, hpart⟩
end

/-! ## The deepest failure -/

/-- How far a moved failure lies, and that a rule without a body stays beyond it. -/
theorem Fits.reach_shift (h : e.Fits k) :
    (e.shift k).reach = e.reach + k ∧ e.reach + k < maxOffset ∨
      (e.shift k).reach = maxOffset ∧ e.reach = maxOffset := by
  rw [reach, reach, position?_shift]
  cases hp : e.position? with
  | none => exact .inr ⟨rfl, rfl⟩
  | some p => exact .inl ⟨rfl, h e e.part_self p hp⟩

/-- Which of two failures lies further is not changed by moving both. -/
theorem Fits.reach_lt_iff {f : ParseError} (he : e.Fits k) (hf : f.Fits k) :
    (e.shift k).reach < (f.shift k).reach ↔ e.reach < f.reach := by
  rcases he.reach_shift with ⟨he, hbe⟩ | ⟨he, he'⟩ <;>
    rcases hf.reach_shift with ⟨hf, hbf⟩ | ⟨hf, hf'⟩ <;> omega

theorem Furthest.shift {leaf : ParseError} (h : Furthest es leaf) (hfits : ∀ x ∈ es, x.Fits k) :
    Furthest (es.map (shift k)) (leaf.shift k) := by
  obtain ⟨front, back, rfl, hfront, hback⟩ := h
  have hleaf := hfits leaf (List.mem_append_right front List.mem_cons_self)
  refine ⟨front.map (ParseError.shift k), back.map (ParseError.shift k), ?_, ?_, ?_⟩
  · rw [List.map_append, List.map_cons]
  · intro moved hmoved
    obtain ⟨x, hx, rfl⟩ := List.mem_map.mp hmoved
    exact ((hfits x (List.mem_append_left _ hx)).reach_lt_iff hleaf).mpr (hfront x hx)
  · intro moved hmoved
    obtain ⟨x, hx, rfl⟩ := List.mem_map.mp hmoved
    have hx' := hfits x (List.mem_append_right front (List.mem_cons_of_mem leaf hx))
    exact Nat.not_lt.mp fun hlt => (hback x hx).not_gt ((hleaf.reach_lt_iff hx').mp hlt)

/-- A list has one furthest failure. -/
theorem Furthest.unique {e f : ParseError} (he : Furthest es e) (hf : Furthest es f) : e = f := by
  obtain ⟨front, back, rfl, hfront, hback⟩ := he
  obtain ⟨front', back', heq, hfront', hback'⟩ := hf
  rcases List.append_eq_append_iff.mp heq with ⟨between, rfl, hrest⟩ | ⟨between, rfl, hrest⟩
  · cases between with
    | nil => exact (List.cons.inj hrest).1
    | cons x between =>
      -- the first of them would lie further than the second and not as far
      obtain ⟨rfl, rfl⟩ := List.cons.inj hrest
      have hlt := hfront' e (List.mem_append_right front List.mem_cons_self)
      have hle := hback f (List.mem_append_right between List.mem_cons_self)
      exact absurd hlt hle.not_gt
  · cases between with
    | nil => exact (List.cons.inj hrest).1.symm
    | cons x between =>
      obtain ⟨rfl, rfl⟩ := List.cons.inj hrest
      have hlt := hfront f (List.mem_append_right front' List.mem_cons_self)
      have hle := hback' e (List.mem_append_right between List.mem_cons_self)
      exact absurd hlt hle.not_gt

theorem Fits.deepest_shift (h : e.Fits k) : (e.shift k).deepest = e.deepest.shift k := by
  have hfurthest := furthest_deepest (e.shift k)
  rw [leaves_shift] at hfurthest
  refine hfurthest.unique ((furthest_deepest e).shift fun leaf hleaf part hpart => ?_)
  exact h part ((part_of_mem_leaves e hleaf).trans hpart)

/-! ## What was expected -/

theorem describedAt_shift (k p : Nat) (e : ParseError) :
    describedAt (p + k) (e.shift k) = describedAt p e := by
  cases e with
  | unmatched q expected =>
    rw [shift, describedAt, describedAt]
    simp only [Nat.add_right_cancel_iff]
  | _ => rfl

theorem expectedAt_shift (k p : Nat) (e : ParseError) :
    (e.shift k).expectedAt (p + k) = e.expectedAt p := by
  rw [expectedAt_eq, expectedAt_eq, leaves_shift, List.filterMap_map]
  exact congrArg List.eraseDups (List.filterMap_congr fun leaf _ => describedAt_shift k p leaf)

/-! ## The analysis of a moved failure -/

/-- Moving failures is an action of the offsets. It commutes with the analysis of failures as long as
no position is moved to the largest offset: with the deepest one, with what was expected at a
position, and with what stands at any place of the tree, whose kind it keeps and whether it ends the
match. -/
theorem analysis_shift (h : e.Fits (j + k)) :
    (e.shift j).shift k = e.shift (j + k) ∧ e.shift 0 = e ∧
      (e.shift k).deepest = e.deepest.shift k ∧
      (∀ p, (e.shift k).expectedAt (p + k) = e.expectedAt p) ∧
      ∀ path, ((e.shift k).node? path).map (fun part => (part.kind, part.isFatal)) =
        (e.node? path).map (fun part => (part.kind, part.isFatal)) := by
  refine ⟨shift_shift j k e, e.shift_zero, (h.mono (Nat.le_add_left k j)).deepest_shift,
    fun p => expectedAt_shift k p e, fun path => ?_⟩
  rw [node?_shift, Option.map_map]
  refine congrArg (Option.map · (e.node? path)) (funext fun part => ?_)
  rw [Function.comp_apply, kind_shift, isFatal_shift]

/-- A terminal that failed inside a sequence, then a rule without a body. -/
def mixed : ParseError := exhausted 0 [stopped 1 (unmatched 2 "x"), unresolved "r"]

theorem fits_mixed : mixed.Fits (3 + 4) := by
  have hleaf : (unmatched 2 "x").Fits (3 + 4) := fits_iff.mpr ⟨by rintro p ⟨⟩; decide, nofun⟩
  have hfirst : (stopped 1 (unmatched 2 "x")).Fits (3 + 4) :=
    fits_iff.mpr ⟨by rintro p ⟨⟩; decide, List.forall_mem_singleton.mpr hleaf⟩
  have hsecond : (unresolved "r").Fits (3 + 4) := fits_iff.mpr ⟨nofun, nofun⟩
  refine fits_iff.mpr ⟨by rintro p ⟨⟩; decide, fun cause hcause => ?_⟩
  rcases List.mem_pair.mp hcause with rfl | rfl
  · exact hfirst
  · exact hsecond

theorem analysis_shift_mixed : mixed.Fits (3 + 4) ∧
    (mixed.shift 3).shift 4 = exhausted 7 [stopped 8 (unmatched 9 "x"), unresolved "r"] ∧
    (mixed.shift 4).deepest = unresolved "r" ∧ (mixed.shift 4).expectedAt 6 = ["x"] := by
  obtain ⟨hshift, -, hdeepest, hexpected, -⟩ := analysis_shift fits_mixed
  exact ⟨fits_mixed, hshift, hdeepest, hexpected 2⟩

/-- A failure in front of the largest offset that is moved there draws level with a rule without a
body, and wins as the first. -/
theorem deepest_shift_not_fits :
    let e := exhausted 0 [unmatched (maxOffset - 1) "x", unresolved "r"]
    e.deepest.shift 1 = unresolved "r" ∧ (e.shift 1).deepest = unmatched maxOffset "x" :=
  ⟨rfl, rfl⟩

end Typestrip.Grammar.ParseError
