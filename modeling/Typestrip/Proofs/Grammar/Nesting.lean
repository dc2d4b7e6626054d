import Typestrip.Proofs.Grammar.Memoization
import Typestrip.Proofs.Grammar.Translation

/-!
# The limit on nesting does nothing but stop

How many rules may be entered inside each other decides whether a parse is stopped, and nothing else.
A parse that was not stopped and the same parse under a higher limit go through the same steps with
the same memo in hand: they agree on what they remember at every moment, so they ask it the same
questions and count the same answers. They can part only where the lower limit is reached, and a
parse in which that happens is lost.

Main statement: `Parser.parseDetailed_deeper`.
-/

namespace Typestrip.Grammar

variable {rules : Rules} {member : Matcher → Prop} {input : List Char}

/-- Two runs on one input with the same memo. -/
def sameMemo (input : List Char) : Simulation :=
  .ofMemos input fun m₁ m₂ => m₂ = m₁ ∧ m₁.Bounded input

theorem Memo.Bounded.find {memo : Memo} (h : memo.Bounded input) (id : NodeId) (pos : Nat) :
    (memo.find id pos).2.Bounded input := by
  intro id' pos' s hk
  rw [Memo.knows_find] at hk
  exact h hk

/-- With more entries left, matching follows matching with fewer, memo included. -/
theorem sameMemo_sideBySide (F : Family rules member) (limit limit' gap left : Nat) :
    (sameMemo input).SideBySide rules member (enter rules limit left)
      (enter rules limit' (left + gap)) := by
  refine Simulation.enter_follows F gap (fun left m hm h => ?_) (fun hbody => ?_) left
  · intro pos rest m₁ m₂ hpos hrel
    obtain ⟨rfl, hbounded⟩ := hrel
    cases hk : m₂.knows m.attributes.id pos with
    | none =>
      refine Simulation.asked_of_not_known h hpos hk hk ⟨rfl, hbounded.find _ _⟩ ?_
      intro o m₁' m₂' _ _ _ hend hm
      obtain ⟨rfl, hbounded'⟩ := hm
      rw [show Outcome.shift (sameMemo input).offset o = o from o.shift_zero]
      exact ⟨rfl, hbounded'.insert hend⟩
    | some o =>
      -- both runs are given the same answer, and both count it
      show Simulation.Agree _ _ (memoized _ _ pos rest m₂) (memoized _ _ pos rest m₂)
      rw [memoized_of_knows hk, memoized_of_knows hk]
      exact .ofMemos_rfl (fun s hs => hbounded (hs ▸ hk)) ⟨rfl, hbounded.find _ _⟩
  · intro pos rest m₁ m₂ hpos hrel
    exact .excused trivial

/-- Matching the root under a higher limit, if it was not stopped by the lower one. -/
theorem Parser.matchAt_deeper (p : Parser) {maxDepth maxDepth' : Nat} (hle : maxDepth ≤ maxDepth')
    {memo : Memo} (hmemo : memo.Bounded input)
    (h : Outcome.Settled (p.matchAt maxDepth 0 input memo).1) :
    p.matchAt maxDepth' 0 input memo = p.matchAt maxDepth 0 input memo := by
  obtain ⟨gap, rfl⟩ := Nat.exists_eq_add_of_le hle
  have F := Family.all p.rules
  have hside : (sameMemo input).SideBySide p.rules (fun _ => True)
      (enter p.rules maxDepth maxDepth) (enter p.rules (maxDepth + gap) (maxDepth + gap)) :=
    sameMemo_sideBySide F _ _ _ _
  have hroot := Simulation.matchBody_follows F hside (m := p.root) trivial
    (Text.fromBoundary?_zero input) ⟨rfl, hmemo⟩
  obtain ⟨houtcome, hmemo', -⟩ := Simulation.Agree.eq_of_settled hroot h
  exact Prod.ext houtcome hmemo'

theorem Parser.parseDetailed_eq (p : Parser) (options : Options) (input : List Char) :
    p.parseDetailed options input =
      ⟨options.complete input (p.matchAt options.maxDepth 0 input (.empty options.memoize)).1,
        (p.matchAt options.maxDepth 0 input (.empty options.memoize)).2.stats⟩ := rfl

/-- A parse that a limit does not stop has the same report under every higher limit: the same
result, and as many questions to the memo, answered and not, and entries in it. -/
theorem Parser.parseDetailed_deeper (p : Parser) (matchAll memoize : Bool) (input : List Char)
    {maxDepth maxDepth' : Nat} (hle : maxDepth ≤ maxDepth')
    (h : ∀ pos limit, (p.parseDetailed ⟨matchAll, memoize, maxDepth⟩ input).result ≠
      .error (.tooDeep pos limit)) :
    p.parseDetailed ⟨matchAll, memoize, maxDepth'⟩ input =
      p.parseDetailed ⟨matchAll, memoize, maxDepth⟩ input := by
  have hsettled : Outcome.Settled (p.parseDetailed ⟨matchAll, memoize, maxDepth⟩ input).result := by
    intro e he hdeep
    cases e with
    | tooDeep pos limit => exact h pos limit he
    | _ => exact hdeep.elim
  rw [p.parseDetailed_eq] at hsettled
  have hroot := p.matchAt_deeper hle (Memo.bounded_empty input memoize) hsettled.of_complete
  rw [p.parseDetailed_eq, p.parseDetailed_eq]
  dsimp only
  rw [hroot]
  rfl

theorem parseDetailed_deeper_brackets :
    3 ≤ 200 ∧
      (∀ pos limit, (bracketsParser.parseDetailed ⟨true, true, 3⟩ "((1))".toList).result ≠
        .error (.tooDeep pos limit)) ∧
      bracketsParser.parseDetailed ⟨true, true, 200⟩ "((1))".toList =
        bracketsParser.parseDetailed ⟨true, true, 3⟩ "((1))".toList := by
  obtain ⟨member, F, hid, hroot⟩ := bracketsParser_built.exists_family
  have plain : bracketsParser.parse ⟨true, false, 3⟩ "((1))".toList = .ok ⟨.text "((1))", 5⟩ := rfl
  have same := Parser.parse_memo F hid hroot true 3 "((1))".toList (plain ▸ .ok _)
  have settled : ∀ pos limit,
      (bracketsParser.parseDetailed ⟨true, true, 3⟩ "((1))".toList).result ≠
        .error (.tooDeep pos limit) := by
    intro pos limit hdeep
    cases (same.trans plain).symm.trans hdeep
  exact ⟨by decide, settled, bracketsParser.parseDetailed_deeper true true _ (by decide) settled⟩

end Typestrip.Grammar
