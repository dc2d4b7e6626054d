import Mathlib.Data.List.Basic
import Typestrip.Proofs.Json.Meaning
import Typestrip.Proofs.Rpc.Codec

/-!
# Decoding normalizes

The decoder takes more bodies than the encoder writes: a pair for a command without buffers, further
items of a response or none at all, and anything in the place of a failure. But what it gives is a
message that is read back from what the encoder writes for it (`Message.decode_normalizes`): the values
in it are such as the reader gives, and its canonical body nests no deeper than the one that was taken.
Of floating-point numbers it is assumed that they are read back from what is written for them.
-/

namespace Typestrip.Rpc

open Json

/-! ## What is decoded -/

/-- The floating-point numbers that are written for a message. A failure is written as texts. -/
def Message.floats : Message → List Float
  | request r => r.args.flatMap Json.floats
  | response ⟨_, .ok result⟩ => result.floats
  | response ⟨_, .error _⟩ => []

/-- A message is decoded from the items of an array that was read. -/
theorem Message.exists_items {e : Envelope} {m : Message} (h : Message.decode e = .ok m) :
    ∃ items, Message.ofItems e.transfer items = .ok m ∧ (∀ j ∈ items, j.Meant) ∧
      itemsDepth items + 1 ≤ maxDepth := by
  unfold Message.decode at h
  split at h
  · next items hparse =>
    obtain ⟨hmeant, hdepth⟩ := meant_of_parse? hparse
    exact ⟨items, h, hmeant.items, hdepth⟩
  · cases h
  · cases h

/-- The items are those of a request or of a response. -/
theorem Message.ofItems_eq_ok {transfer : List Buffer} {items : List Json} {m : Message}
    (h : Message.ofItems transfer items = .ok m) :
    ∃ marker number rest, items = marker :: number :: rest ∧ ∃ id : UInt64,
      (∃ r, Message.readRequest id transfer rest = .ok r ∧ m = .request r) ∨
      ∃ r, Message.readResponse id rest = .ok r ∧ m = .response r := by
  unfold Message.ofItems at h
  split at h
  · next marker number rest =>
    refine ⟨marker, number, rest, rfl, ?_⟩
    split at h
    · cases h
    next n _ =>
      refine ⟨.ofNat n, ?_⟩
      split at h
      · cases hread : Message.readRequest (.ofNat n) transfer rest with
        | error e =>
          rw [hread] at h
          cases h
        | ok r =>
          rw [hread] at h
          exact .inl ⟨r, rfl, (Except.ok.inj h).symm⟩
      split at h
      · cases hread : Message.readResponse (.ofNat n) rest with
        | error e =>
          rw [hread] at h
          cases h
        | ok r =>
          rw [hread] at h
          exact .inr ⟨r, rfl, (Except.ok.inj h).symm⟩
      · cases h
  · cases h

/-! ## Requests -/

/-- The command is a text if there are no buffers, or the pair of a text and their number. -/
theorem Message.readRequest_eq_ok {id : UInt64} {transfer : List Buffer} {items : List Json}
    {r : Request} (h : Message.readRequest id transfer items = .ok r) :
    ∃ item args, items = item :: args ∧ r.args = args ∧ r.transfer = transfer ∧
      (transfer = [] ∨ ∃ command count, item = .array [.string command, count] ∧
        count.unsigned? = some transfer.length) := by
  unfold Message.readRequest at h
  split at h
  · next command count args hcommand =>
    split at h
    · next hcount =>
      obtain rfl := Except.ok.inj h
      subst hcount
      unfold Message.readCommand at hcommand
      split at hcommand
      · next command args =>
        obtain ⟨-, hlength, rfl⟩ : _ ∧ _ ∧ _ := by
          simpa only [Except.ok.injEq, Prod.mk.injEq] using hcommand
        exact ⟨_, _, rfl, rfl, rfl, .inl (List.length_eq_zero_iff.mp hlength.symm)⟩
      · next command count args =>
        split at hcommand
        · next n hn =>
          obtain ⟨-, rfl, rfl⟩ : _ ∧ _ ∧ _ := by
            simpa only [Except.ok.injEq, Prod.mk.injEq] using hcommand
          exact ⟨_, _, rfl, rfl, rfl, .inr ⟨command, count, rfl, hn⟩⟩
        · cases hcommand
      · cases hcommand
      · cases hcommand
    · cases h
  · cases h

/-- A number of buffers that was read has 64 bits. -/
theorem lt_of_unsigned? {j : Json} {n : Nat} (hj : j.Meant) (h : j.unsigned? = some n) :
    n < 2 ^ 64 := by
  unfold unsigned? at h
  split at h
  · next i =>
    split at h
    · obtain rfl := Option.some.inj h
      have hbounds := hj.bounds
      omega
    · cases h
  · cases h

theorem Request.depth_commandItem_le (r : Request) : r.commandItem.depth ≤ 1 := by
  unfold Request.commandItem
  split
  · exact Nat.zero_le 1
  · exact Nat.le_refl 1

/-- A request that was decoded is read back. -/
theorem decode_of_readRequest {id : UInt64} {transfer : List Buffer} {items : List Json} {r : Request}
    (h : Message.readRequest id transfer items = .ok r) (hmeant : ∀ j ∈ items, j.Meant)
    (hdepth : itemsDepth items + 1 ≤ maxDepth) (hfloats : ∀ j ∈ r.args, ∀ x ∈ j.floats, Legible x) :
    Message.decode r.encode = .ok (.request r) := by
  obtain ⟨item, args, rfl, rfl, rfl, hcommand⟩ := Message.readRequest_eq_ok h
  obtain ⟨hitem, hargs⟩ := List.forall_mem_cons.mp hmeant
  have hfaithful : r.Faithful := by
    refine ⟨fun j hj => (hargs j hj).faithful (hfloats j hj), ?_⟩
    rcases hcommand with hnone | ⟨command, count, rfl, hcount⟩
    · rw [hnone]
      decide
    · have hpair := hitem.items
      exact lt_of_unsigned? (hpair count (by simp)) hcount
  have hitems : r.commandItem.depth ≤ max item.depth (itemsDepth r.args) := by
    rcases hcommand with hnone | ⟨command, count, rfl, -⟩
    · rw [Request.commandItem, hnone]
      exact Nat.zero_le _
    · exact r.depth_commandItem_le.trans (le_max_of_le_left (Nat.succ_le_succ (Nat.zero_le _)))
  have hwithin : r.depth ≤ maxDepth := by
    refine le_trans (Nat.succ_le_succ ?_) hdepth
    simp only [Request.items, itemsDepth]
    exact Nat.max_le.mpr ⟨Nat.zero_le _, Nat.max_le.mpr ⟨Nat.zero_le _, Nat.max_le.mpr
      ⟨hitems, Nat.le_max_right _ _⟩⟩⟩
  rw [decode_request hfaithful, if_pos hwithin]

/-! ## Responses -/

/-- A response that was decoded is read back. -/
theorem decode_of_readResponse {id : UInt64} {items : List Json} {r : Response}
    (h : Message.readResponse id items = .ok r) (hmeant : ∀ j ∈ items, j.Meant)
    (hdepth : itemsDepth items + 1 ≤ maxDepth)
    (hfloats : ∀ x ∈ (Message.response r).floats, Legible x) :
    Message.decode r.encode = .ok (.response r) := by
  unfold Message.readResponse at h
  split at h
  · next failed rest =>
    obtain rfl := Except.ok.inj h
    cases failed with
    | true => exact decode_failure id _
    | false =>
      -- the result is the first item that is left, or there is none
      have hresult : (rest.headD .null).Meant ∧ (rest.headD .null).depth ≤ itemsDepth rest := by
        cases rest with
        | nil => exact ⟨⟨.null, rfl⟩, Nat.le_refl 0⟩
        | cons j js =>
          exact ⟨hmeant j (List.mem_cons_of_mem _ List.mem_cons_self), Nat.le_max_left _ _⟩
      have hfaithful : (Response.mk id (.ok (rest.headD .null))).Faithful := by
        rintro j ⟨⟩
        exact hresult.1.faithful hfloats
      have hwithin : (Response.mk id (.ok (rest.headD .null))).depth ≤ maxDepth := by
        refine le_trans (Nat.succ_le_succ ?_) hdepth
        simp only [Response.items, itemsDepth]
        exact Nat.max_le.mpr ⟨Nat.zero_le _, Nat.max_le.mpr ⟨Nat.zero_le _, Nat.max_le.mpr
          ⟨Nat.zero_le _, Nat.max_le.mpr ⟨le_max_of_le_right hresult.2, Nat.zero_le _⟩⟩⟩⟩
      exact (decode_response hfaithful).trans (if_pos hwithin)
  · cases h

/-! ## Normal forms -/

/-- Whatever envelope a message was decoded from, decoding what is encoded for it gives the same
message. -/
theorem Message.decode_normalizes {e : Envelope} {m : Message} (h : Message.decode e = .ok m)
    (hfloats : ∀ x ∈ m.floats, Legible x) : Message.decode m.encode = .ok m := by
  obtain ⟨items, hitems, hmeant, hdepth⟩ := Message.exists_items h
  obtain ⟨marker, number, rest, rfl, id, hread⟩ := Message.ofItems_eq_ok hitems
  have hrest : ∀ j ∈ rest, j.Meant := fun j hj =>
    hmeant j (List.mem_cons_of_mem _ (List.mem_cons_of_mem _ hj))
  have hbound : itemsDepth rest + 1 ≤ maxDepth :=
    (Nat.succ_le_succ ((Nat.le_max_right _ _).trans (Nat.le_max_right _ _))).trans hdepth
  rcases hread with ⟨r, hread, rfl⟩ | ⟨r, hread, rfl⟩
  · exact decode_of_readRequest hread hrest hbound fun j hj x hx =>
      hfloats x (List.mem_flatMap_of_mem hj hx)
  · exact decode_of_readResponse hread hrest hbound hfloats

/-- Items of bodies that are not written for any message, with the messages they are taken for: a pair
for a command without buffers, a response without a result and one with an item too many, and failures
that are given by a number and by an array. -/
def lenient : List (List Json × Message) :=
  [([.string requestMarker, .ofNat 1, .array [.string "go", .ofNat 0], .array []],
      .request ⟨1, "go", [.array []], []⟩),
    ([.string responseMarker, .ofNat 2, .bool false], .response ⟨2, .ok .null⟩),
    ([.string responseMarker, .ofNat 3, .bool false, .string "a", .null],
      .response ⟨3, .ok (.string "a")⟩),
    ([.string responseMarker, .ofNat 4, .bool true, .ofNat 7], .response ⟨4, .error ⟨"Error", "7"⟩⟩),
    ([.string responseMarker, .ofNat 5, .bool true, .array [.string "A", .string "b"]],
      .response ⟨5, .error ⟨"A", "b"⟩⟩)]

theorem decode_normalizes_lenient : lenient.Forall fun x =>
    Message.decode ⟨(Json.array x.1).text, []⟩ = .ok x.2 ∧ x.2.floats = [] ∧
      Message.decode x.2.encode = .ok x.2 := by
  have hnumber {n : Nat} (hn : n < 10) : (Json.ofNat n).Faithful :=
    faithful_int (by omega) (by omega)
  have hpair {j k : Json} (hj : j.Faithful) (hk : k.Faithful) : (Json.array [j, k]).Faithful :=
    .array (List.forall_mem_cons.mpr ⟨hj, List.forall_mem_singleton.mpr hk⟩)
  have hitems : ∀ x ∈ lenient, ∀ j ∈ x.1, j.Faithful := by
    simp only [lenient, List.forall_mem_cons, List.not_mem_nil, false_implies, implies_true, and_true]
    exact ⟨⟨.string _, hnumber (by omega), hpair (.string _) (hnumber (by omega)), .array nofun⟩,
      ⟨.string _, hnumber (by omega), .bool _⟩,
      ⟨.string _, hnumber (by omega), .bool _, .string _, .null⟩,
      ⟨.string _, hnumber (by omega), .bool _, hnumber (by omega)⟩,
      ⟨.string _, hnumber (by omega), .bool _, hpair (.string _) (.string _)⟩⟩
  have htaken : ∀ x ∈ lenient, (Json.array x.1).depth ≤ maxDepth ∧ x.2.floats = [] ∧
      Message.ofItems [] x.1 = .ok x.2 := by
    simp only [lenient, List.forall_mem_cons, List.not_mem_nil, false_implies, implies_true, and_true]
    exact ⟨⟨by decide, rfl, rfl⟩, ⟨by decide, rfl, rfl⟩, ⟨by decide, rfl, rfl⟩, ⟨by decide, rfl, rfl⟩,
      ⟨by decide, rfl, rfl⟩⟩
  refine List.forall_iff_forall_mem.mpr fun x hx => ?_
  obtain ⟨hdepth, hfloats, htaken⟩ := htaken x hx
  have hdecode : Message.decode ⟨(Json.array x.1).text, []⟩ = .ok x.2 := by
    rw [Message.decode_faithful (hitems x hx), if_pos hdepth, htaken]
  refine ⟨hdecode, hfloats, Message.decode_normalizes hdecode fun y hy => ?_⟩
  rw [hfloats] at hy
  cases hy

end Typestrip.Rpc
