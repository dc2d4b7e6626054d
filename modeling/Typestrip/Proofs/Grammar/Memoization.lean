import Typestrip.Proofs.Grammar.Identity
import Typestrip.Proofs.Grammar.Simulation

/-!
# Remembering matches changes no outcome

A parse that remembers matches may answer with an outcome that was found inside fewer rules than are
entered now. That is sound because an outcome other than "too deep" does not depend on how many
entries are left (`plain_eq_of_settled`): a memo all of whose entries are outcomes of matching
without a memo, at whatever depth, is as good as matching anew (`Memo.Sound`). The invariant is kept
by every node of a grammar in which an identity belongs to one node only (`Identified`).

Main statements: `matchBody_memo`, matching by way of a sound memo gives the outcome of matching
without one, unless that is "too deep"; `Parser.parseDetailed_memoize`, the same for whole parses
with any grammar that was built.
-/

namespace Typestrip.Grammar

/-- Whether a failure says that rules are nested too deeply. -/
def ParseError.IsTooDeep : ParseError → Prop
  | .tooDeep _ _ => True
  | _ => False

theorem ParseError.IsTooDeep.isFatal {e : ParseError} (h : e.IsTooDeep) : e.isFatal = true := by
  cases e with
  | tooDeep => rfl
  | _ => exact h.elim

/-- An outcome that would be the same if rules could be nested more deeply. -/
def Outcome.Settled (o : Outcome) : Prop := ∀ e, o = .error e → ¬ e.IsTooDeep

theorem Outcome.Settled.ok (s : Success) : Outcome.Settled (.ok s) := by simp [Outcome.Settled]

theorem Outcome.Settled.not_fatal {e : ParseError} (h : e.isFatal = false) :
    Outcome.Settled (.error e) := by
  rintro _ ⟨⟩ hdeep
  rw [hdeep.isFatal] at h
  cases h

theorem Outcome.exists_of_not_settled {o : Outcome} (h : ¬ Outcome.Settled o) :
    ∃ e, o = .error e ∧ e.IsTooDeep := by
  simpa [Outcome.Settled] using h

/-- Two runs on one input at the same positions. The second has to follow unless the first one was
nested too deeply. -/
def Simulation.ofMemos (input : List Char) (related : Memo → Memo → Prop) : Simulation where
  input := input
  offset := 0
  excused := ParseError.IsTooDeep
  excused_fatal := ParseError.IsTooDeep.isFatal
  related := related

variable {rules : Rules} {member : Matcher → Prop} {input : List Char} {limit : Nat}

theorem Simulation.Agree.eq_of_settled {related : Memo → Memo → Prop} {pos : Nat} {o₁ o₂ : Outcome}
    {m₁ m₂ : Memo}
    (h : (Simulation.ofMemos input related).Agree ((Simulation.ofMemos input related).SameMatch pos)
      (o₁, m₁) (o₂, m₂)) (ho : Outcome.Settled o₁) :
    o₂ = o₁ ∧ related m₁ m₂ := by
  cases h with
  | excused he => exact absurd he (ho _ rfl)
  | @failed e m₁ m₂ hm =>
    refine ⟨?_, hm⟩
    show Except.error (e.shift 0) = _
    rw [e.shift_zero]
  | matched hs hm => exact ⟨by rw [hs.1], hm⟩

theorem Simulation.Agree.excused_of_not_settled {related : Memo → Memo → Prop} {pos : Nat}
    {x y : Outcome × Memo} (h : ¬ Outcome.Settled x.1) :
    (Simulation.ofMemos input related).Agree ((Simulation.ofMemos input related).SameMatch pos)
      x y := by
  obtain ⟨e, he, hdeep⟩ := Outcome.exists_of_not_settled h
  obtain ⟨o, memo⟩ := x
  obtain rfl := he
  exact .excused hdeep

/-- An outcome agrees with itself. -/
theorem Simulation.Agree.ofMemos_rfl {related : Memo → Memo → Prop} {pos : Nat} {o : Outcome}
    {m₁ m₂ : Memo}
    (ho : ∀ s, o = .ok s → (Text.fromBoundary? input (pos + s.consumed)).isSome = true)
    (hm : related m₁ m₂) :
    (Simulation.ofMemos input related).Agree ((Simulation.ofMemos input related).SameMatch pos)
      (o, m₁) (o, m₂) := by
  have h := Simulation.Agree.shifted (S := .ofMemos input related) ho hm
  rwa [show Outcome.shift (Simulation.ofMemos input related).offset o = o from o.shift_zero] at h

/-- `Simulation.asked_of_not_known` for two runs at the same positions. -/
theorem Simulation.asked_ofMemos {related : Memo → Memo → Prop} {id : NodeId} {r₁ r₂ : Recognizer}
    (hr : (Simulation.ofMemos input related).Follows r₁ r₂) {pos : Nat} {rest : List Char}
    {m₁ m₂ : Memo} (hpos : Text.fromBoundary? input pos = some rest)
    (h₁ : m₁.knows id pos = none) (h₂ : m₂.knows id pos = none)
    (hfind : related (m₁.find id pos).2 (m₂.find id pos).2)
    (hstore : ∀ {o m₁' m₂'}, r₁ pos rest (m₁.find id pos).2 = (o, m₁') →
      r₂ pos rest (m₂.find id pos).2 = (o, m₂') → Outcome.Settled o → related m₁' m₂' →
      related (m₁'.insert id pos o) (m₂'.insert id pos o)) :
    (Simulation.ofMemos input related).Agree ((Simulation.ofMemos input related).SameMatch pos)
      (memoized id r₁ pos rest m₁) (memoized id r₂ pos rest m₂) := by
  refine Simulation.asked_of_not_known hr hpos h₁ h₂ hfind ?_
  intro o m₁' m₂' hrun₁ hrun₂ hset _ hm
  have hzero : Outcome.shift (Simulation.ofMemos input related).offset o = o := o.shift_zero
  rw [hzero] at hrun₂ ⊢
  exact hstore hrun₁ hrun₂ hset hm

/-! ## Matching without a memo -/

/-- The outcome of matching a node without a memo when `left` more rules may be entered. -/
def Matcher.plain (rules : Rules) (limit left : Nat) (m : Matcher) (pos : Nat) (rest : List Char) :
    Outcome :=
  (m.evaluate rules (enter rules limit left) pos rest .off).1

/-- Two runs without a memo. -/
def plainRuns (input : List Char) : Simulation :=
  .ofMemos input fun m₁ m₂ => m₁ = .off ∧ m₂ = .off

theorem plainRuns_ask {e₁ e₂ : Matcher → Recognizer} {m : Matcher}
    (h : (plainRuns input).Follows (m.evaluate rules e₁) (m.evaluate rules e₂)) :
    (plainRuns input).FollowsAsked rules e₁ e₂ m := by
  intro pos rest m₁ m₂ hpos hrel
  obtain ⟨rfl, rfl⟩ := hrel
  refine Simulation.asked_ofMemos h hpos (by simp) (by simp) ⟨rfl, rfl⟩ ?_
  rintro o m₁ m₂ - - - ⟨rfl, rfl⟩
  exact ⟨rfl, rfl⟩

/-- Without a memo, matching with more entries left follows matching with fewer. -/
theorem plainRuns_sideBySide (limit left gap : Nat) :
    (plainRuns input).SideBySide rules (fun _ => True) (enter rules limit left)
      (enter rules limit (left + gap)) := by
  refine Simulation.enter_follows (Family.all rules) gap (fun left m _ h => plainRuns_ask h)
    (fun hbody => ?_) left
  intro pos rest m₁ m₂ hpos hrel
  exact .excused trivial

theorem plain_eq_of_sideBySide {left left' : Nat}
    (h : (plainRuns input).SideBySide rules (fun _ => True) (enter rules limit left)
      (enter rules limit left'))
    {m : Matcher} {pos : Nat} {rest : List Char} (hpos : Text.fromBoundary? input pos = some rest)
    (hset : Outcome.Settled (m.plain rules limit left pos rest)) :
    m.plain rules limit left' pos rest = m.plain rules limit left pos rest := by
  have hoff : (plainRuns input).related .off .off := ⟨rfl, rfl⟩
  have hagree := Simulation.evaluate_follows (Family.all rules) h (m := m) trivial hpos hoff
  exact (Simulation.Agree.eq_of_settled hagree hset).1

theorem plain_mono {m : Matcher} {pos : Nat} {rest : List Char}
    (hpos : Text.fromBoundary? input pos = some rest) {left left' : Nat}
    (hle : left ≤ left') (h : Outcome.Settled (m.plain rules limit left pos rest)) :
    m.plain rules limit left' pos rest = m.plain rules limit left pos rest := by
  obtain ⟨gap, rfl⟩ := Nat.exists_eq_add_of_le hle
  exact plain_eq_of_sideBySide (plainRuns_sideBySide limit left gap) hpos h

/-- How many entries were left does not matter to an outcome that is settled. -/
theorem plain_eq_of_settled {m : Matcher} {pos : Nat} {rest : List Char}
    (hpos : Text.fromBoundary? input pos = some rest) {left left' : Nat}
    (h : Outcome.Settled (m.plain rules limit left pos rest))
    (h' : Outcome.Settled (m.plain rules limit left' pos rest)) :
    m.plain rules limit left pos rest = m.plain rules limit left' pos rest := by
  rcases Nat.le_total left left' with hle | hle
  · exact (plain_mono hpos hle h).symm
  · exact plain_mono hpos hle h'

theorem plainRuns_self (rules : Rules) (m : Matcher) {pos : Nat} {rest : List Char}
    (hpos : Text.fromBoundary? input pos = some rest) (limit left : Nat) :
    (plainRuns input).Agree ((plainRuns input).SameMatch pos)
      (m.evaluate rules (enter rules limit left) pos rest .off)
      (m.evaluate rules (enter rules limit left) pos rest .off) :=
  Simulation.evaluate_follows (Family.all rules) (plainRuns_sideBySide limit left 0) trivial hpos
    ⟨rfl, rfl⟩

/-- A memo that is switched off stays so. -/
theorem evaluate_off {m : Matcher} {pos : Nat} {rest : List Char}
    (hpos : Text.fromBoundary? input pos = some rest) {left : Nat}
    (h : Outcome.Settled (m.plain rules limit left pos rest)) :
    m.evaluate rules (enter rules limit left) pos rest .off =
      (m.plain rules limit left pos rest, .off) :=
  Prod.ext rfl (Simulation.Agree.eq_of_settled (plainRuns_self rules m hpos limit left) h).2.1

/-- A match ends at a character boundary of the input. -/
theorem plain_boundary {m : Matcher} {pos : Nat} {rest : List Char}
    (hpos : Text.fromBoundary? input pos = some rest) {left : Nat} {s : Success}
    (h : m.plain rules limit left pos rest = .ok s) :
    (Text.fromBoundary? input (pos + s.consumed)).isSome = true := by
  have hself := plainRuns_self rules m hpos limit left
  rw [evaluate_off hpos (h ▸ .ok s), h] at hself
  cases hself with
  | matched hs _ => exact hs.2

theorem ask_off (m : Matcher) (left pos : Nat) (rest : List Char) :
    memoized m.attributes.id (m.evaluate rules (enter rules limit left)) pos rest .off =
      (m.plain rules limit left pos rest,
        (m.evaluate rules (enter rules limit left) pos rest .off).2.insert m.attributes.id pos
          (m.plain rules limit left pos rest)) :=
  memoized_of_not_knows (Memo.knows_empty false _ _) _ _

theorem run_off (m : Matcher) (left pos : Nat) (rest : List Char) :
    (m.run rules (enter rules limit left) pos rest .off).1 = m.plain rules limit left pos rest := by
  unfold Matcher.run
  split
  · rw [ask_off]
  · rfl

theorem ask_off_of_settled {m : Matcher} {left pos : Nat} {rest : List Char}
    (hpos : Text.fromBoundary? input pos = some rest)
    (h : Outcome.Settled (m.plain rules limit left pos rest)) :
    memoized m.attributes.id (m.evaluate rules (enter rules limit left)) pos rest .off =
      (m.plain rules limit left pos rest, .off) := by
  rw [ask_off, evaluate_off hpos h, Memo.insert_off]

theorem run_off_of_settled {m : Matcher} {left pos : Nat} {rest : List Char}
    (hpos : Text.fromBoundary? input pos = some rest)
    (h : Outcome.Settled (m.plain rules limit left pos rest)) :
    m.run rules (enter rules limit left) pos rest .off =
      (m.plain rules limit left pos rest, .off) := by
  unfold Matcher.run
  split
  · exact ask_off_of_settled hpos h
  · exact evaluate_off hpos h

/-! ## Matching with a sound memo -/

/-- Whatever the memo knows about a node is what matching the node without a memo gives, with
sufficiently many entries left. -/
def Memo.Sound (rules : Rules) (limit : Nat) (input : List Char) (member : Matcher → Prop)
    (memo : Memo) : Prop :=
  ∀ {m pos rest o}, member m → Text.fromBoundary? input pos = some rest →
    memo.knows m.attributes.id pos = some o →
      Outcome.Settled o ∧ ∃ left, m.plain rules limit left pos rest = o

theorem Memo.sound_empty (enabled : Bool) :
    (Memo.empty enabled).Sound rules limit input member := by
  intro m pos rest o _ _ h
  simp at h

theorem Memo.Sound.find {memo : Memo} (h : memo.Sound rules limit input member) (id : NodeId)
    (pos : Nat) : (memo.find id pos).2.Sound rules limit input member := by
  intro m p rest o hm hp hk
  rw [Memo.knows_find] at hk
  exact h hm hp hk

theorem Memo.Sound.insert (hid : Identified member) {memo : Memo}
    (h : memo.Sound rules limit input member) {m : Matcher} (hm : member m) {pos : Nat}
    {rest : List Char} (hpos : Text.fromBoundary? input pos = some rest) {o : Outcome}
    (hs : Outcome.Settled o) {left : Nat} (ho : m.plain rules limit left pos rest = o) :
    (memo.insert m.attributes.id pos o).Sound rules limit input member := by
  intro m' pos' rest' o' hm' hpos' hk
  rw [Memo.knows_insert] at hk
  split at hk
  · next hkey =>
    -- the entry is asked for under the same identity, so by the same node
    obtain ⟨hsame, rfl⟩ := Prod.mk.injEq .. ▸ hkey.2
    obtain rfl := hid hm hm' hsame
    obtain rfl := Option.some.inj (hpos.symm.trans hpos')
    obtain rfl := Option.some.inj hk
    exact ⟨hs, left, ho⟩
  · exact h hm' hpos' hk

/-- A run without a memo beside one with a sound memo. -/
def plainAndMemo (rules : Rules) (limit : Nat) (input : List Char) (member : Matcher → Prop) :
    Simulation :=
  .ofMemos input fun m₁ m₂ => m₁ = .off ∧ m₂.Sound rules limit input member

theorem plainAndMemo_sideBySide (F : Family rules member) (hid : Identified member)
    (limit left : Nat) :
    (plainAndMemo rules limit input member).SideBySide rules member (enter rules limit left)
      (enter rules limit left) := by
  refine Simulation.enter_follows F 0 (fun left m hm h => ?_) (fun hbody => ?_) left
  · intro pos rest m₁ m₂ hpos hrel
    obtain ⟨rfl, hsound⟩ := hrel
    cases hk : m₂.knows m.attributes.id pos with
    | none =>
      refine Simulation.asked_ofMemos h hpos (by simp) hk ⟨rfl, hsound.find _ _⟩ ?_
      rintro o m₁ m₂ hrun - hset ⟨rfl, hsound'⟩
      exact ⟨rfl, hsound'.insert hid hm hpos hset (congrArg Prod.fst hrun)⟩
    | some o =>
      -- found out with `left'` entries left, which makes no difference to a settled outcome
      obtain ⟨hset, left', ho⟩ := hsound hm hpos hk
      show Simulation.Agree _ _ (memoized _ _ pos rest .off) (memoized _ _ pos rest m₂)
      rw [memoized_of_knows hk, memoized_of_not_knows (by simp), Memo.find_off]
      by_cases hleft : Outcome.Settled (m.plain rules limit left pos rest)
      · rw [evaluate_off hpos hleft, plain_eq_of_settled hpos hleft (ho ▸ hset), ho]
        exact .ofMemos_rfl (fun s hs => plain_boundary hpos (ho.trans hs))
          ⟨rfl, hsound.find _ _⟩
      · exact .excused_of_not_settled hleft
  · intro pos rest m₁ m₂ hpos hrel
    exact .excused trivial

/-- Matching by way of a sound memo gives the outcome of matching without a memo. -/
theorem matchBody_memo (F : Family rules member) (hid : Identified member) {m : Matcher}
    (hm : member m) {pos : Nat} {rest : List Char}
    (hpos : Text.fromBoundary? input pos = some rest) {memo : Memo}
    (hmemo : memo.Sound rules limit input member) (left : Nat)
    (h : Outcome.Settled (m.run rules (enter rules limit left) pos rest .off).1) :
    (m.run rules (enter rules limit left) pos rest memo).1 =
      (m.run rules (enter rules limit left) pos rest .off).1 := by
  have hrel : (plainAndMemo rules limit input member).related .off memo := ⟨rfl, hmemo⟩
  have hagree := Simulation.matchBody_follows F (plainAndMemo_sideBySide F hid limit left) hm hpos
    hrel
  exact (Simulation.Agree.eq_of_settled hagree h).1

theorem Outcome.Settled.of_complete {options : Options} {o : Outcome}
    (h : Outcome.Settled (options.complete input o)) : Outcome.Settled o := by
  unfold Options.complete at h
  split at h
  · cases o with
    | ok s => exact .ok s
    | error e => exact h
  · exact h

/-- A parse with a memo has the result of the parse without one, unless that is "too deep". -/
theorem Parser.parse_memo {p : Parser} (F : Family p.rules member) (hid : Identified member)
    (hroot : member p.root) (matchAll : Bool) (maxDepth : Nat) (input : List Char)
    (h : Outcome.Settled (p.parse ⟨matchAll, false, maxDepth⟩ input)) :
    p.parse ⟨matchAll, true, maxDepth⟩ input = p.parse ⟨matchAll, false, maxDepth⟩ input := by
  rw [p.parse_eq] at h
  rw [p.parse_eq, p.parse_eq]
  exact congrArg (Options.complete ⟨matchAll, true, maxDepth⟩ input)
    (matchBody_memo F hid hroot (Text.fromBoundary?_zero input) (Memo.sound_empty true) maxDepth
      h.of_complete)

/-! ## Grammars that were built -/

/-- Remembering matches changes no result but "too deep": the value, the length and the whole tree
of failures are the same. -/
theorem Parser.parseDetailed_memoize {p : Parser} (hp : p.Built) (matchAll : Bool) (maxDepth : Nat)
    (input : List Char)
    (h : ∀ pos limit, (p.parseDetailed ⟨matchAll, false, maxDepth⟩ input).result ≠
      .error (.tooDeep pos limit)) :
    (p.parseDetailed ⟨matchAll, true, maxDepth⟩ input).result =
      (p.parseDetailed ⟨matchAll, false, maxDepth⟩ input).result := by
  obtain ⟨member, F, hid, hroot⟩ := hp.exists_family
  refine p.parse_memo F hid hroot matchAll maxDepth input fun e he hdeep => ?_
  cases e with
  | tooDeep pos limit => exact h pos limit he
  | _ => exact hdeep.elim

/-- A one in any number of brackets, as compiled. -/
def bracketsParser : Parser where
  root := .rule { id := 6 } "brackets" (some 0)
  rules := #[some (.choice { id := 5 }
    [.sequence { id := 3 } [.literal { id := 0 } ['('] "\"(\"",
      .rule { id := 1 } "brackets" (some 0), .literal { id := 2 } [')'] "\")\""],
    .literal { id := 4 } ['1'] "\"1\""])]

theorem bracketsParser_built : bracketsParser.Built := by
  have declared := Workshop.empty.builder.work (.declare "brackets")
  have parts := ((declared.work (.literal "(")).work (.reference "brackets")).work (.literal ")")
  have nested := parts.work (.sequence (List.forall_mem_cons.mpr
    ⟨.tail _ (.tail _ (.head _)), List.forall_mem_cons.mpr
      ⟨.tail _ (.head _), List.forall_mem_singleton.mpr (.head _)⟩⟩))
  have body := (nested.work (.literal "1")).work (.choice (List.forall_mem_cons.mpr
    ⟨.tail _ (.head _), List.forall_mem_singleton.mpr (.head _)⟩))
  have defined := (body.work (.define "brackets" (.head _))).work (.reference "brackets")
  exact .ofBuilder defined (.head _) (.head _) rfl

theorem parseDetailed_memoize_brackets :
    bracketsParser.Built ∧
      (∀ pos limit, (bracketsParser.parseDetailed ⟨true, false, 8⟩ "((1))".toList).result ≠
        .error (.tooDeep pos limit)) ∧
      (bracketsParser.parseDetailed ⟨true, true, 8⟩ "((1))".toList).result =
        .ok ⟨.text "((1))", 5⟩ := by
  have plain : (bracketsParser.parseDetailed ⟨true, false, 8⟩ "((1))".toList).result =
      .ok ⟨.text "((1))", 5⟩ := rfl
  have settled : ∀ pos limit,
      (bracketsParser.parseDetailed ⟨true, false, 8⟩ "((1))".toList).result ≠
        .error (.tooDeep pos limit) := by
    intro pos limit h
    cases plain.symm.trans h
  have same := Parser.parseDetailed_memoize bracketsParser_built true 8 "((1))".toList settled
  exact ⟨bracketsParser_built, settled, same.trans plain⟩

end Typestrip.Grammar
