import Mathlib.Data.List.Nodup
import Typestrip.Rpc.Caller

/-!
# The table and the mailboxes of a caller

What the operations of a caller do to the numbers in its table and to the mailbox of each call.
Resolving a call is two things: its number is taken out of the table (`Pending.remove`), and the
result is put into its mailbox (`Caller.deposit`); likewise closing the table. `Caller.resolve_eq` and
`Caller.close_eq` take the two operations apart.
-/

namespace Typestrip.Rpc

/-! ## The table -/

namespace Pending

variable {p p' : Pending} {id id' : UInt64}

theorem insert?_eq_none : p.insert? id = none ↔ p.closed = true := by
  simp [insert?]

theorem insert?_eq_some :
    p.insert? id = some p' ↔ p.closed = false ∧ p' = { p with ids := id :: p.ids.erase id } := by
  cases h : p.closed <;> simp [insert?, h, eq_comm]

@[simp] theorem remove_fst (p : Pending) (id : UInt64) :
    (p.remove id).1 = true ↔ id ∈ p.ids := by
  simp [remove]

@[simp] theorem ids_remove (p : Pending) (id : UInt64) :
    (p.remove id).2.ids = p.ids.erase id := rfl

theorem remove_eq_true : p.remove id = (true, p') ↔ id ∈ p.ids ∧ p' = (p.remove id).2 := by
  rw [Prod.ext_iff, remove_fst]
  exact and_congr_right' eq_comm

theorem nodup_insert (h : p.ids.Nodup) : (id :: p.ids.erase id).Nodup :=
  List.nodup_cons.mpr ⟨h.not_mem_erase, h.erase id⟩

theorem mem_insert : id' ∈ id :: p.ids.erase id ↔ id' = id ∨ id' ∈ p.ids := by
  rw [List.mem_cons]
  by_cases h : id' = id
  · simp [h]
  · simp [h, List.mem_erase_of_ne h]

end Pending

/-! ## The mailboxes -/

namespace Caller

variable {c : Caller} {id id' : UInt64} {r : CallResult}

theorem lookup_cons (id id' : UInt64) (m : Mailbox) (ms : List (UInt64 × Mailbox)) :
    ((id, m) :: ms).lookup id' = if id' = id then some m else ms.lookup id' := by
  rw [List.lookup_cons]
  by_cases h : id' = id
  · simp [h]
  · rw [beq_false_of_ne h, if_neg h]

theorem lookup_updateMailbox (id id' : UInt64) (f : Mailbox → Mailbox)
    (ms : List (UInt64 × Mailbox)) :
    (updateMailbox id f ms).lookup id' =
      if id' = id then (ms.lookup id').map f else ms.lookup id' := by
  induction ms with
  | nil => simp [updateMailbox]
  | cons entry ms ih =>
    obtain ⟨n, m⟩ := entry
    rw [updateMailbox, List.map_cons, lookup_cons, lookup_cons]
    by_cases hn : id' = n
    · subst hn
      by_cases hid : id' = id <;> simp [hid]
    · rw [if_neg hn, if_neg hn]
      exact ih

/-- Puts a result into the mailbox of a call. -/
def deposit (c : Caller) (id : UInt64) (r : CallResult) : Caller :=
  { c with mailboxes := updateMailbox id (.put r) c.mailboxes }

@[simp] theorem mailbox?_deposit (c : Caller) (id : UInt64) (r : CallResult) (id' : UInt64) :
    (c.deposit id r).mailbox? id' =
      if id' = id then (c.mailbox? id').map (.put r) else c.mailbox? id' :=
  lookup_updateMailbox _ _ _ _

@[simp] theorem pending_deposit (c : Caller) (id : UInt64) (r : CallResult) :
    (c.deposit id r).pending = c.pending := rfl

@[simp] theorem mailbox?_settle (c : Caller) (id : UInt64) (r : CallResult) (id' : UInt64) :
    (c.settle id r).mailbox? id' = if id' = id then some (.holding r) else c.mailbox? id' :=
  lookup_cons _ _ _ _

theorem record?_eq_none : c.record? id = none ↔ c.pending.closed = true := by
  rw [record?, Option.map_eq_none_iff, Pending.insert?_eq_none]

theorem record?_eq_some {c' : Caller} :
    c.record? id = some c' ↔ c.pending.closed = false ∧
      c' = { c with pending := { c.pending with ids := id :: c.pending.ids.erase id },
                    mailboxes := (id, .waiting) :: c.mailboxes } := by
  rw [record?, Option.map_eq_some_iff]
  simp only [Pending.insert?_eq_some]
  constructor
  · rintro ⟨p, ⟨hopen, rfl⟩, rfl⟩
    exact ⟨hopen, rfl⟩
  · rintro ⟨hopen, rfl⟩
    exact ⟨_, ⟨hopen, rfl⟩, rfl⟩

theorem mailbox?_record {c' : Caller} (h : c.record? id = some c') (id' : UInt64) :
    c'.mailbox? id' = if id' = id then some .waiting else c.mailbox? id' := by
  obtain ⟨-, rfl⟩ := record?_eq_some.mp h
  exact lookup_cons _ _ _ _

/-- Looking for the result of a call takes it out, and touches no other call. -/
theorem mailbox?_observe (c : Caller) (id id' : UInt64) :
    (c.observe id).2.mailbox? id' =
      if id' = id then (c.mailbox? id').map fun m => m.observe.2 else c.mailbox? id' := by
  unfold observe
  cases h : c.mailbox? id with
  | none =>
    by_cases hid : id' = id
    · simp [hid, h]
    · simp [hid]
  | some m =>
    show (updateMailbox id (fun _ => m.observe.2) c.mailboxes).lookup id' = _
    rw [lookup_updateMailbox]
    by_cases hid : id' = id
    · subst hid
      rw [if_pos rfl, if_pos rfl]
      show (c.mailbox? id').map _ = _
      rw [h]
      rfl
    · rw [if_neg hid, if_neg hid, mailbox?]

theorem observe_fst (c : Caller) (id : UInt64) :
    (c.observe id).1 = (c.mailbox? id).bind fun m => m.observe.1 := by
  unfold observe
  cases c.mailbox? id <;> rfl

@[simp] theorem pending_observe (c : Caller) (id : UInt64) :
    (c.observe id).2.pending = c.pending := by
  unfold observe
  cases c.mailbox? id <;> rfl

@[simp] theorem nextId_observe (c : Caller) (id : UInt64) :
    (c.observe id).2.nextId = c.nextId := by
  unfold observe
  cases c.mailbox? id <;> rfl

/-! ## Resolving and closing taken apart -/

theorem resolve_eq (c : Caller) (id : UInt64) (r : CallResult) :
    c.resolve id r =
      if id ∈ c.pending.ids then { c with pending := (c.pending.remove id).2 }.deposit id r
      else c := by
  unfold resolve Pending.remove
  by_cases h : id ∈ c.pending.ids
  · rw [if_pos h, List.contains_iff_mem.mpr h]
    rfl
  · rw [if_neg h, Bool.eq_false_iff.mpr (mt List.contains_iff_mem.mp h)]

theorem accept_of_response {e : Envelope} {p : Response} (h : Message.decode e = .ok (.response p)) :
    c.accept e = c.resolve p.id (p.outcome.mapError .remote) := by
  rw [accept, h]

/-- An envelope that holds no response to a waiting call is passed over. -/
theorem accept_of_unknown {e : Envelope}
    (h : ∀ p, Message.decode e = .ok (.response p) → p.id ∉ c.pending.ids) : c.accept e = c := by
  unfold accept
  split
  next p hdecode => rw [resolve_eq, if_neg (h p hdecode)]
  next => rfl

theorem close_eq (c : Caller) :
    c.close = c.pending.close.1.foldl (fun c id => c.deposit id (.error .disconnected))
      { c with pending := c.pending.close.2 } := by
  have hfold : ∀ (ids : List UInt64) (c : Caller),
      ids.foldl (fun c id => c.deposit id (.error .disconnected)) c =
        { c with mailboxes := (ids.foldl
          (fun ms id => updateMailbox id (.put (.error .disconnected)) ms) c.mailboxes) } := by
    intro ids
    induction ids with
    | nil => exact fun _ => rfl
    | cons id ids ih => exact fun c => ih (c.deposit id _)
  rw [hfold]
  rfl

end Caller

end Typestrip.Rpc
