import Typestrip.Proofs.Grammar.Recursion
import Typestrip.Proofs.Grammar.Translation

/-!
# A text at the end of two inputs

What stands at the end of an input is matched as it would be by itself, only that all positions are
further back, if the memo knows nothing about it that matching it by itself would not find out. So what
stands at the end of two inputs is matched alike in both, with the same failures and with equally many
entries left (`Concur.of_agree`).
-/

namespace Typestrip.Grammar

variable {text : List Char} {offset offset' : Nat} {memo memo' : Memo}

/-- What is found out in front of the text. -/
theorem Memo.Moved.insert_before (h : Memo.Moved text offset memo memo') (id : NodeId) {pos : Nat}
    (hpos : pos < offset) (o : Outcome) : Memo.Moved text offset memo (memo'.insert id pos o) where
  enabled := by rw [Memo.enabled_insert, h.enabled]
  knows id' pos' := by
    have hkey : (id, pos) ≠ (id', pos' + offset) := fun heq => by
      have := (Prod.mk.inj heq).2
      omega
    rw [Memo.knows_insert, if_neg fun hkey' => hkey hkey'.2, h.knows]
  bounded := h.bounded

/-- At the beginning nothing is known about the text. -/
theorem Memo.moved_of_unknown {input front : List Char} (hinput : input = front ++ text)
    (hoffset : offset = Text.width front)
    (h : ∀ {id pos o}, memo.knows id pos = some o →
      ∃ rest, Text.fromBoundary? input pos = some rest ∧ text.length < rest.length) :
    Memo.Moved text offset (.empty memo.enabled) memo where
  enabled := rfl
  knows id pos := by
    rw [Memo.knows_empty]
    refine Option.eq_none_iff_forall_ne_some.mpr fun o hk => ?_
    obtain ⟨rest, hrest, hlt⟩ := h hk
    rw [hoffset, Nat.add_comm, hinput, Text.fromBoundary?_add (Text.fromBoundary?_width front text)]
      at hrest
    obtain ⟨before, rfl, -⟩ := Text.fromBoundary?_eq_some_iff.mp hrest
    rw [List.length_append] at hlt
    omega
  bounded := Memo.bounded_empty text memo.enabled

/-! ## The same text at the end of two inputs -/

/-- The memos of two runs know the same about a text that stands at the end of two inputs. -/
def Memo.Share (text : List Char) (offset offset' : Nat) (memo memo' : Memo) : Prop :=
  ∃ alone, Memo.Moved text offset alone memo ∧ Memo.Moved text offset' alone memo'

/-- The same results, with ends at the same place of the text. -/
def SameEnd {α : Type} (text : List Char) (offset offset' : Nat) (x y : α × Nat) : Prop :=
  x.1 = y.1 ∧ ∃ k, (Text.fromBoundary? text k).isSome = true ∧ x.2 = k + offset ∧ y.2 = k + offset'

/-- Two runs concur: the first one has a fatal failure, or both have the same results and
know the same about the text at the end. -/
inductive Concur {α : Type} (share : Memo → Memo → Prop) (same : α → α → Prop) :
    Except ParseError α × Memo → Except ParseError α × Memo → Prop
  | fatal {e memo y} : e.isFatal = true → Concur share same (.error e, memo) y
  | matched {a b memo memo'} : same a b → share memo memo' →
      Concur share same (.ok a, memo) (.ok b, memo')

theorem Concur.imp {α : Type} {share : Memo → Memo → Prop} {same same' : α → α → Prop}
    (h : ∀ x y, same x y → same' x y) {x y : Except ParseError α × Memo}
    (hxy : Concur share same x y) : Concur share same' x y := by
  cases hxy with
  | fatal he => exact .fatal he
  | matched hs hm => exact .matched (h _ _ hs) hm

/-- Two runs that match the text as it would be matched by itself concur, if the second one
has no failure but a fatal one. -/
theorem Concur.of_agree {α : Type} {pos : Nat} {x y z : Except ParseError (α × Nat) × Memo}
    (hx : (moved text offset).Agree ((moved text offset).SameStop pos) z x)
    (hy : (moved text offset').Agree ((moved text offset').SameStop pos) z y)
    (hfatal : ∀ e, y.1 = .error e → e.isFatal = true) :
    Concur (Memo.Share text offset offset') (SameEnd text offset offset') x y := by
  cases hx with
  | excused he => exact he.elim
  | @failed e alone memo hmoved =>
    cases hy with
    | excused he => exact he.elim
    | failed =>
      have he := hfatal _ rfl
      rw [ParseError.isFatal_shift] at he
      exact .fatal (by rw [ParseError.isFatal_shift]; exact he)
  | matched hs hmoved =>
    cases hy with
    | matched hs' hmoved' =>
      obtain ⟨rfl, -, hend⟩ := hs
      obtain ⟨rfl, -, -⟩ := hs'
      exact .matched ⟨rfl, _, hend, rfl, rfl⟩ ⟨_, hmoved, hmoved'⟩

/-- What nodes with parts make of the same results. -/
theorem Concur.finish {α : Type} {share : Memo → Memo → Prop} {same : α → α → Prop}
    {same' : Success → Success → Prop} (a : Attributes) {f g : α → Success}
    (hfg : ∀ x y, same x y → same' (f x) (g y)) {x y : Except ParseError α × Memo}
    (h : Concur share same x y) : Concur share same' (a.finish f x) (a.finish g y) := by
  cases h with
  | fatal he =>
    rw [Attributes.finish, a.recover_of_isFatal he]
    exact .fatal he
  | matched hs hm => exact .matched (hfg _ _ hs) hm

end Typestrip.Grammar
