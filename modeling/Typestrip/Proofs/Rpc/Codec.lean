import Typestrip.Proofs.Json.RoundTrip
import Typestrip.Rpc.Message

/-!
# Messages on the wire

A request or response is read back from its envelope just if its body nests at most 127 arrays and
objects (`decode_request`, `decode_response`; together `Message.decode_encode`). A message that nests
deeper can be sent, but whoever receives it takes it for no JSON.
-/

namespace Typestrip.Rpc

open Json

/-- An array in an envelope is read back just if it does not nest too deeply. -/
theorem Message.decode_array (items : List Json) (transfer : List Buffer) :
    Message.decode ⟨(Json.array items).text, transfer⟩ =
      if (Json.array items).depth ≤ maxDepth then
        match ofDocuments? (toDocuments items) with
        | some items => Message.ofItems transfer items
        | none => .error .notJson
      else .error .notJson := by
  unfold Message.decode Json.text
  rw [String.toList_ofList, parse?_chars]
  by_cases hdepth : (Json.array items).depth ≤ maxDepth
  · rw [if_pos hdepth, if_pos hdepth, toDocument, ofDocument?]
    cases ofDocuments? (toDocuments items) <;> rfl
  · rw [if_neg hdepth, if_neg hdepth]

theorem Message.decode_faithful {items : List Json} (h : ∀ j ∈ items, j.Faithful)
    (transfer : List Buffer) :
    Message.decode ⟨(Json.array items).text, transfer⟩ =
      if (Json.array items).depth ≤ maxDepth then Message.ofItems transfer items
      else .error .notJson := by
  rw [Message.decode_array, ofDocuments?_toDocuments h]

/-! ## Numbers -/

theorem unsigned?_ofNat (n : Nat) : (Json.ofNat n).unsigned? = some n := by
  simp [Json.ofNat, Json.unsigned?]

theorem faithful_id (id : UInt64) : (Json.ofNat id.toNat).Faithful :=
  faithful_int (by omega) (by exact_mod_cast id.toNat_lt)

/-- The number of a message. -/
def Message.id : Message → UInt64
  | request r => r.id
  | response r => r.id

theorem Message.id_of_ofItems {marker : Json} {id : UInt64} {rest : List Json}
    {transfer : List Buffer} {m : Message}
    (h : Message.ofItems transfer (marker :: .ofNat id.toNat :: rest) = .ok m) : m.id = id := by
  simp only [ofItems, unsigned?_ofNat, UInt64.ofNat_toNat] at h
  split at h
  · unfold readRequest at h
    split at h
    · split at h
      · cases h
        rfl
      · cases h
    · cases h
  split at h
  · unfold readResponse at h
    split at h
    · cases h
      rfl
    · cases h
  · cases h

/-- Whatever becomes of the rest of a message, its number is read back. -/
theorem Message.id_of_decode {marker : String} {id : UInt64} {rest : List Json}
    {transfer : List Buffer} {m : Message}
    (h : Message.decode ⟨(Json.array (.string marker :: .ofNat id.toNat :: rest)).text, transfer⟩ =
      .ok m) : m.id = id := by
  rw [Message.decode_array] at h
  obtain ⟨-, h⟩ := (ite_eq_iff.mp h).resolve_right fun h => nomatch h.2
  rw [toDocuments, toDocuments, ofDocuments?, Faithful.ofDocument? (.string marker), ofDocuments?,
    Faithful.ofDocument? (faithful_id id)] at h
  cases hrest : ofDocuments? (toDocuments rest) with
  | none =>
    rw [hrest] at h
    cases h
  | some rest' =>
    rw [hrest] at h
    exact Message.id_of_ofItems h

/-! ## Requests -/

namespace Request

/-- The arguments of a request are such as the reader gives, and its buffers can be counted in 64
bits. -/
structure Faithful (r : Request) : Prop where
  args : ∀ j ∈ r.args, j.Faithful
  transfer : r.transfer.length < 2 ^ 64

/-- How deeply the body of a request nests. -/
def depth (r : Request) : Nat := (Json.array r.items).depth

theorem Faithful.items {r : Request} (h : r.Faithful) : ∀ j ∈ r.items, j.Faithful := by
  have hcount : (Json.ofNat r.transfer.length).Faithful :=
    faithful_int (by omega) (by exact_mod_cast h.transfer)
  have hcommand : r.commandItem.Faithful := by
    unfold commandItem
    split
    · exact .string _
    · refine .array fun j hj => ?_
      obtain rfl | hj := List.mem_cons.mp hj
      · exact .string _
      · exact List.mem_singleton.mp hj ▸ hcount
  intro j hj
  simp only [Request.items, List.mem_cons] at hj
  obtain rfl | rfl | rfl | hj := hj
  · exact .string _
  · exact faithful_id r.id
  · exact hcommand
  · exact h.args j hj

end Request

theorem readCommand_commandItem (r : Request) :
    Message.readCommand (r.commandItem :: r.args) = .ok (r.command, r.transfer.length, r.args) := by
  unfold Request.commandItem
  split
  next h => rw [Message.readCommand, List.isEmpty_iff.mp h, List.length_nil]
  next h => rw [Message.readCommand, unsigned?_ofNat]

/-- The items of a request are taken for that request. -/
theorem ofItems_request (r : Request) : Message.ofItems r.transfer r.items = .ok (.request r) := by
  have hmarker : (Json.string requestMarker).string? = some requestMarker := rfl
  simp only [Request.items, Message.ofItems, unsigned?_ofNat]
  rw [if_pos hmarker, Message.readRequest, readCommand_commandItem]
  simp only [if_pos, UInt64.ofNat_toNat]
  rfl

/-- A request is read back from its envelope just if it does not nest too deeply. -/
theorem decode_request {r : Request} (h : r.Faithful) :
    Message.decode r.encode =
      if r.depth ≤ maxDepth then .ok (.request r) else .error .notJson := by
  rw [← ofItems_request]
  exact Message.decode_faithful h.items r.transfer

/-- Whatever its arguments are, a request that nests too deeply is not read back. -/
theorem decode_request_deep {r : Request} (h : maxDepth < r.depth) :
    Message.decode r.encode = .error .notJson :=
  (Message.decode_array r.items r.transfer).trans (if_neg (Nat.not_le.mpr h))

/-! ## Responses -/

theorem sorted_toJson (f : Failure) :
    f.toJson.sorted = .object [("message", .string f.message), ("name", .string f.name)] := by
  have hlt : "message" < "name" := by decide
  simp [Failure.toJson, Json.sorted, Json.sortedFields, Fields.ofList, Fields.insert, hlt]

/-- A failure is read back from its record. -/
theorem readFailure_sorted (f : Failure) : Message.readFailure f.toJson.sorted = f := by
  have hread : Failure.ofJson? f.toJson.sorted = some f := by
    rw [sorted_toJson, Failure.ofJson?, Failure.ofDocument?]
    simp [toDocument, fieldsToDocuments, Document.record?, Document.fillAll?, Document.fill?,
      Document.required, Document.string?]
  rw [Message.readFailure, hread]
  rfl

namespace Response

/-- The result in a response is such as the reader gives. -/
def Faithful (r : Response) : Prop := ∀ j, r.outcome = .ok j → j.Faithful

/-- How deeply the body of a response nests. -/
def depth (r : Response) : Nat := (Json.array r.items).depth

theorem Faithful.items {r : Response} (h : r.Faithful) : ∀ j ∈ r.items, j.Faithful := by
  have hascending (f : Failure) : Fields.Ascending
      [("message", Json.string f.message), ("name", .string f.name)] := by
    have hlt : "message" < "name" := by decide
    exact List.pairwise_pair.mpr hlt
  intro j hj
  unfold Response.items at hj
  rw [List.mem_cons, List.mem_cons] at hj
  obtain rfl | rfl | hj := hj
  · exact .string _
  · exact faithful_id r.id
  cases houtcome : r.outcome with
  | ok result =>
    rw [houtcome] at hj
    simp only [List.mem_cons, List.not_mem_nil, or_false] at hj
    obtain rfl | rfl := hj
    · exact .bool _
    · exact h _ houtcome
  | error f =>
    rw [houtcome] at hj
    simp only [List.mem_cons, List.not_mem_nil, or_false] at hj
    obtain rfl | rfl := hj
    · exact .bool _
    · rw [sorted_toJson]
      refine .object (hascending f) fun g hg => ?_
      simp only [List.mem_cons, List.not_mem_nil, or_false] at hg
      obtain rfl | rfl := hg <;> exact .string _

end Response

theorem ofItems_response (r : Response) (transfer : List Buffer) :
    Message.ofItems transfer r.items = .ok (.response r) := by
  have hne : (Json.string responseMarker).string? ≠ some requestMarker := by decide
  have hmarker : (Json.string responseMarker).string? = some responseMarker := rfl
  obtain ⟨id, outcome⟩ := r
  unfold Response.items
  simp only [Message.ofItems, unsigned?_ofNat]
  rw [if_neg hne, if_pos hmarker, UInt64.ofNat_toNat]
  cases outcome with
  | ok result => rfl
  | error f =>
    show Except.map Message.response
      (.ok ⟨id, .error (Message.readFailure f.toJson.sorted)⟩) = _
    rw [readFailure_sorted]
    rfl

/-- A response is read back from its envelope just if it does not nest too deeply. -/
theorem decode_response {r : Response} (h : r.Faithful) :
    Message.decode r.encode =
      if r.depth ≤ maxDepth then .ok (.response r) else .error .notJson := by
  rw [← ofItems_response r []]
  exact Message.decode_faithful h.items []

/-- A response without a payload is read back. -/
theorem decode_null (id : UInt64) :
    Message.decode (Response.encode ⟨id, .ok .null⟩) = .ok (.response ⟨id, .ok .null⟩) := by
  have hfaithful : (Response.mk id (.ok .null)).Faithful := by
    rintro j ⟨⟩
    exact .null
  have hdepth : (Response.mk id (.ok .null)).depth = 1 := rfl
  rw [decode_response hfaithful, hdepth, if_pos (by decide)]

theorem decode_response_deep {r : Response} (h : maxDepth < r.depth) :
    Message.decode r.encode = .error .notJson :=
  (Message.decode_array r.items []).trans (if_neg (Nat.not_le.mpr h))

/-- A failure is recorded as an object of texts. -/
theorem Response.depth_failure (id : UInt64) (f : Failure) :
    (Response.mk id (.error f)).depth = 2 := by
  show (Json.array [.string responseMarker, .ofNat id.toNat, .bool true, f.toJson.sorted]).depth = 2
  rw [sorted_toJson]
  rfl

/-- A response with a failure is read back, whatever the failure says. -/
theorem decode_failure (id : UInt64) (f : Failure) :
    Message.decode (Response.encode ⟨id, .error f⟩) = .ok (.response ⟨id, .error f⟩) := by
  have hfaithful : (Response.mk id (.error f)).Faithful := nofun
  rw [decode_response hfaithful, Response.depth_failure, if_pos (by decide)]

/-! ## The round trip -/

theorem ok_within_iff (depth : Nat) (m : Message) :
    (if depth ≤ maxDepth then (.ok m : Except Malformed Message) else .error .notJson) = .ok m ↔
      depth ≤ 127 := by
  constructor
  · intro h
    split at h
    · assumption
    · cases h
  · exact fun h => if_pos h

/-- What has been encoded is decoded to the very same message, with the same buffers, just if its
body nests at most 127 arrays and objects; this a failure never exceeds. -/
theorem Message.decode_encode :
    (∀ r : Request, r.Faithful →
      (Message.decode r.encode = .ok (.request r) ↔ r.depth ≤ 127)) ∧
    (∀ (id : UInt64) (result : Json), result.Faithful →
      (Message.decode (Response.encode ⟨id, .ok result⟩) = .ok (.response ⟨id, .ok result⟩) ↔
        (Response.mk id (.ok result)).depth ≤ 127)) ∧
    ∀ (id : UInt64) (failure : Failure),
      Message.decode (Response.encode ⟨id, .error failure⟩) =
        .ok (.response ⟨id, .error failure⟩) := by
  refine ⟨fun r hr => ?_, fun id result hresult => ?_, decode_failure⟩
  · rw [decode_request hr]
    exact ok_within_iff _ _
  · have hfaithful : (Response.mk id (.ok result)).Faithful := by
      rintro j ⟨⟩
      exact hresult
    rw [decode_response hfaithful]
    exact ok_within_iff _ _

/-- A request with an empty buffer among its buffers, a command that needs escapes and an argument
that looks like a command with a count. -/
def disguised : Request where
  id := 18446744073709551615
  command := "say \"hi\"\n\\"
  args := [.array [.string "rpc:request", .ofNat 7], .object [("a", .ofNat 0), ("b", .null)]]
  transfer := [[], [0, 255]]

/-- The request and a result that looks like a failure are read back. -/
theorem decode_encode_disguised :
    disguised.Faithful ∧ disguised.depth = 2 ∧
    Message.decode disguised.encode = .ok (.request disguised) ∧
    Message.decode (Response.encode ⟨0, .ok (.array [.bool true, .string "Error"])⟩) =
      .ok (.response ⟨0, .ok (.array [.bool true, .string "Error"])⟩) := by
  have hargs : ∀ j ∈ disguised.args, j.Faithful := by
    intro j hj
    simp only [disguised, List.mem_cons, List.not_mem_nil, or_false] at hj
    obtain rfl | rfl := hj
    · refine .array fun j hj => ?_
      simp only [List.mem_cons, List.not_mem_nil, or_false] at hj
      obtain rfl | rfl := hj
      · exact .string _
      · exact faithful_int (by decide) (by decide)
    · refine .object (List.pairwise_pair.mpr (by decide)) fun f hf => ?_
      simp only [List.mem_cons, List.not_mem_nil, or_false] at hf
      obtain rfl | rfl := hf
      · exact faithful_int (by decide) (by decide)
      · exact .null
  have hresult : (Json.array [.bool true, .string "Error"]).Faithful := by
    refine .array fun j hj => ?_
    simp only [List.mem_cons, List.not_mem_nil, or_false] at hj
    obtain rfl | rfl := hj
    · exact .bool _
    · exact .string _
  have hfaithful : disguised.Faithful := ⟨hargs, by decide⟩
  obtain ⟨hrequest, hresponse, -⟩ := Message.decode_encode
  exact ⟨hfaithful, rfl, (hrequest disguised hfaithful).mpr (by decide),
    (hresponse 0 _ hresult).mpr (by decide)⟩

end Typestrip.Rpc
