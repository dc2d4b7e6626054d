import Typestrip.Proofs.Grammar.Simulation

/-!
# Matching does not look back

What stands before a position has no part in what is matched there: matching at the end of `a` in
`a ++ b` takes the same course as matching at the beginning of `b`, with all positions moved by the
width of `a`. A failure found in the rest of an input may therefore be reported against the whole
input, moved by where the rest begins.

Main statement: `matchWithin_append`.
-/

namespace Typestrip.Grammar

/-- A memo of which all matches end at character boundaries of the input. -/
def Memo.Bounded (input : List Char) (memo : Memo) : Prop :=
  ∀ ⦃id pos s⦄, memo.knows id pos = some (.ok s) →
    (Text.fromBoundary? input (pos + s.consumed)).isSome = true

theorem Memo.bounded_empty (input : List Char) (enabled : Bool) :
    (Memo.empty enabled).Bounded input := by
  intro id pos s h
  simp at h

theorem Memo.Bounded.insert {input : List Char} {memo : Memo} (h : memo.Bounded input) {id : NodeId}
    {pos : Nat} {o : Outcome}
    (ho : ∀ s, o = .ok s → (Text.fromBoundary? input (pos + s.consumed)).isSome = true) :
    (memo.insert id pos o).Bounded input := by
  intro id' pos' s hk
  rw [Memo.knows_insert] at hk
  split at hk
  · next hkey =>
    obtain ⟨-, rfl⟩ := Prod.mk.injEq .. ▸ hkey.2
    exact ho s (Option.some.inj hk)
  · exact h hk

/-- The second memo knows at moved positions what the first one knows. -/
structure Memo.Moved (input : List Char) (k : Nat) (m₁ m₂ : Memo) : Prop where
  enabled : m₁.enabled = m₂.enabled
  knows : ∀ id pos, m₂.knows id (pos + k) = (m₁.knows id pos).map (Outcome.shift k)
  bounded : m₁.Bounded input

theorem Memo.moved_empty (input : List Char) (k : Nat) (enabled : Bool) :
    Memo.Moved input k (.empty enabled) (.empty enabled) :=
  ⟨rfl, by simp, Memo.bounded_empty input enabled⟩

theorem Memo.Moved.find {input : List Char} {k : Nat} {m₁ m₂ : Memo} (h : Memo.Moved input k m₁ m₂)
    (id : NodeId) (pos : Nat) : Memo.Moved input k (m₁.find id pos).2 (m₂.find id (pos + k)).2 where
  enabled := by rw [(m₁.find_snd _ _).1, (m₂.find_snd _ _).1, h.enabled]
  knows := by simpa using h.knows
  bounded := by
    intro id' pos' s hk
    rw [Memo.knows_find] at hk
    exact h.bounded hk

theorem Memo.Moved.insert {input : List Char} {k : Nat} {m₁ m₂ : Memo}
    (h : Memo.Moved input k m₁ m₂) (id : NodeId) {pos : Nat} {o : Outcome}
    (ho : ∀ s, o = .ok s → (Text.fromBoundary? input (pos + s.consumed)).isSome = true) :
    Memo.Moved input k (m₁.insert id pos o) (m₂.insert id (pos + k) (Outcome.shift k o)) where
  enabled := by
    unfold Memo.insert
    split <;> split <;> exact h.enabled
  knows := by
    intro id' pos'
    rw [Memo.knows_insert, Memo.knows_insert, ← h.enabled, h.knows]
    simp only [Prod.mk.injEq, Nat.add_right_cancel_iff]
    split <;> rfl
  bounded := h.bounded.insert ho

/-- A run on an input and one on a longer input that ends in it. Nothing is excused. -/
def moved (input : List Char) (k : Nat) : Simulation where
  input := input
  offset := k
  excused := fun _ => False
  excused_fatal := fun h => h.elim
  related := Memo.Moved input k

variable {rules : Rules} {member : Matcher → Prop} {input : List Char}

theorem moved_sideBySide (F : Family rules member) (k limit left : Nat) :
    (moved input k).SideBySide rules member (enter rules limit left) (enter rules limit left) := by
  refine Simulation.enter_follows F 0 (fun left m hm h => ?_) (fun hbody => ?_) left
  · intro pos rest m₁ m₂ hpos hrel
    have hknows := hrel.knows m.attributes.id pos
    cases hk : m₁.knows m.attributes.id pos with
    | none =>
      rw [hk] at hknows
      exact Simulation.asked_of_not_known h hpos hk hknows (hrel.find _ _)
        fun _ _ _ hend hm => hm.insert _ hend
    | some o =>
      -- what was kept at `pos` was kept at `pos + k`, moved
      rw [hk] at hknows
      show Simulation.Agree _ _ (memoized _ _ pos rest m₁) (memoized _ _ (pos + k) rest m₂)
      rw [memoized_of_knows hk, memoized_of_knows hknows]
      exact .shifted (fun s hs => hrel.bounded (hs ▸ hk)) (hrel.find _ _)
  · intro pos rest m₁ m₂ hpos hrel
    exact .failed (e := .tooDeep pos limit) hrel

/-- Matches the root of a grammar at a position of an input, which has to be a character
boundary. -/
def Parser.matchWithin (p : Parser) (maxDepth : Nat) (input : List Char) (pos : Nat) (memo : Memo) :
    Option (Outcome × Memo) :=
  (Text.fromBoundary? input pos).map fun rest => p.matchAt maxDepth pos rest memo

/-- Matching inside an input is matching at the beginning of the rest, with failures moved. -/
theorem matchWithin_append (p : Parser) (maxDepth : Nat) (memoize : Bool) (a b : List Char) :
    ∃ o m₁ m₂, p.matchWithin maxDepth b 0 (.empty memoize) = some (o, m₁) ∧
      p.matchWithin maxDepth (a ++ b) (Text.width a) (.empty memoize) =
        some (Outcome.shift (Text.width a) o, m₂) := by
  have F := Family.all p.rules
  have hside : (moved b (Text.width a)).SideBySide p.rules (fun _ => True)
      (enter p.rules maxDepth maxDepth) (enter p.rules maxDepth maxDepth) :=
    moved_sideBySide F _ _ _
  have hroot := Simulation.matchBody_follows F hside (m := p.root) trivial
    (Text.fromBoundary?_zero b) (Memo.moved_empty b (Text.width a) memoize)
  rw [Parser.matchWithin, Parser.matchWithin, Text.fromBoundary?_zero, Text.fromBoundary?_width,
    Option.map_some, Option.map_some, Parser.matchAt]
  revert hroot
  show Simulation.Agree _ _ _ (p.root.run p.rules _ (0 + Text.width a) b _) → _
  rw [Nat.zero_add]
  generalize p.root.run p.rules _ 0 b _ = x
  generalize p.root.run p.rules _ (Text.width a) b _ = y
  intro hroot
  cases hroot with
  | excused he => exact he.elim
  | @failed e m₁ m₂ hm => exact ⟨.error e, m₁, m₂, rfl, rfl⟩
  | @matched s t m₁ m₂ hs hm => exact ⟨.ok s, m₁, m₂, rfl, by rw [← hs.1]; rfl⟩

end Typestrip.Grammar
