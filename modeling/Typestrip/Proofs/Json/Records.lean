import Typestrip.Proofs.Json.RoundTrip
import Typestrip.TypeScript.Output

/-!
# Reading back records

A record is written as an object with the fields in the order of the record, and before it travels in a
message the fields are put in ascending order. The reader finds each field wherever it stands, so
records are read back in either order (`Arrangement`, `Output.ofDocument?_arranged`).
-/

namespace Typestrip

/-! ## Fields in ascending order -/

namespace Fields

variable {α β : Type} {name : String} {value : α} {fields found : List (String × α)}
  {f : String × α}

theorem mem_of_mem_insert (h : f ∈ insert name value fields) : f = (name, value) ∨ f ∈ fields := by
  induction fields with
  | nil => exact .inl (List.mem_singleton.mp h)
  | cons g fs ih =>
    rw [insert] at h
    split at h
    · exact List.mem_cons.mp h
    split at h
    · exact (List.mem_cons.mp h).imp_right (List.mem_cons_of_mem _)
    rcases List.mem_cons.mp h with rfl | h
    · exact .inr List.mem_cons_self
    · exact (ih h).imp_right (List.mem_cons_of_mem _)

theorem ascending_insert (h : Ascending fields) (name : String) (value : α) :
    Ascending (insert name value fields) := by
  induction fields with
  | nil => exact List.pairwise_singleton _ _
  | cons g fs ih =>
    obtain ⟨hfirst, hrest⟩ := List.pairwise_cons.mp h
    rw [insert]
    split
    next hless =>
      refine List.pairwise_cons.mpr ⟨?_, h⟩
      intro f hf
      rcases List.mem_cons.mp hf with rfl | hf
      · exact hless
      · exact String.lt_trans hless (hfirst f hf)
    split
    next heq => exact List.pairwise_cons.mpr ⟨heq ▸ hfirst, hrest⟩
    next hnot hne =>
      have hless : g.1 < name := by
        by_contra hnot'
        exact hne (String.le_antisymm (String.not_lt.mp hnot') (String.not_lt.mp hnot))
      refine List.pairwise_cons.mpr ⟨?_, ih hrest⟩
      intro f hf
      rcases mem_of_mem_insert hf with rfl | hf
      · exact hless
      · exact hfirst f hf

/-- What `ofList` does with the fields that are still to be inserted. -/
def insertAll (found fields : List (String × α)) : List (String × α) :=
  fields.foldl (fun fields e => insert e.1 e.2 fields) found

theorem ascending_insertAll (h : Ascending found) (fields : List (String × α)) :
    Ascending (insertAll found fields) := by
  induction fields generalizing found with
  | nil => exact h
  | cons g fs ih => exact ih (ascending_insert h g.1 g.2)

theorem mem_of_mem_insertAll (h : f ∈ insertAll found fields) : f ∈ found ∨ f ∈ fields := by
  induction fields generalizing found with
  | nil => exact .inl h
  | cons g fs ih =>
    rcases ih h with hf | hf
    · rcases mem_of_mem_insert hf with rfl | hf
      · exact .inr List.mem_cons_self
      · exact .inl hf
    · exact .inr (List.mem_cons_of_mem _ hf)

theorem find?_eq_none_of_not_mem (h : name ∉ fields.map Prod.fst) : find? name fields = none := by
  induction fields with
  | nil => rfl
  | cons g fs ih =>
    rw [List.map_cons, List.mem_cons, not_or] at h
    rw [find?, if_neg h.1, ih h.2]

theorem find?_insertAll (h : (fields.map Prod.fst).Nodup) (name : String)
    (found : List (String × α)) :
    find? name (insertAll found fields) = (find? name fields).or (find? name found) := by
  induction fields generalizing found with
  | nil => rfl
  | cons g fs ih =>
    obtain ⟨hg, hfs⟩ := List.nodup_cons.mp h
    show find? name (insertAll (insert g.1 g.2 found) fs) = _
    rw [ih hfs, find?]
    by_cases hname : name = g.1
    · rw [if_pos hname, hname, find?_eq_none_of_not_mem hg, find?_insert_self]
      rfl
    · rw [if_neg hname, find?_insert_of_ne hname]

theorem ascending_ofList (fields : List (String × α)) : Ascending (ofList fields) :=
  ascending_insertAll List.Pairwise.nil fields

theorem mem_of_mem_ofList (h : f ∈ ofList fields) : f ∈ fields :=
  (mem_of_mem_insertAll h).resolve_left List.not_mem_nil

/-- Fields with different names are found wherever they stand. -/
theorem find?_ofList (h : (fields.map Prod.fst).Nodup) (name : String) :
    find? name (ofList fields) = find? name fields :=
  (find?_insertAll h name []).trans Option.or_none

theorem Ascending.nodup (h : Ascending fields) : (fields.map Prod.fst).Nodup := by
  refine List.pairwise_map.mpr (h.imp ?_)
  intro f g hless heq
  exact String.lt_irrefl _ (heq ▸ hless)

theorem find?_map (g : α → β) (name : String) (fields : List (String × α)) :
    find? name (fields.map fun f => (f.1, g f.2)) = (find? name fields).map g := by
  induction fields with
  | nil => rfl
  | cons f fs ih =>
    rw [List.map_cons, find?, find?, ih]
    split <;> rfl

end Fields

namespace Json

open Fields

/-! ## Values in ascending order -/

theorem sortedFields_eq_map (fields : List (String × Json)) :
    sortedFields fields = fields.map fun f => (f.1, f.2.sorted) := by
  induction fields with
  | nil => rfl
  | cons f fs ih =>
    rw [sortedFields, ih]
    rfl

theorem sortedItems_eq_map (items : List Json) : sortedItems items = items.map sorted := by
  induction items with
  | nil => rfl
  | cons j js ih =>
    rw [sortedItems, ih]
    rfl

/-- An object whose fields have been put in ascending order is such as the reader gives. -/
theorem faithful_sorted_object {fields : List (String × Json)}
    (h : ∀ f ∈ fields, f.2.sorted.Faithful) : (Json.object fields).sorted.Faithful := by
  rw [sorted]
  refine .object (ascending_ofList _) ?_
  intro f hf
  have hf := mem_of_mem_ofList hf
  rw [sortedFields_eq_map, List.mem_map] at hf
  obtain ⟨g, hg, rfl⟩ := hf
  exact h g hg

theorem faithful_sorted_array {items : List Json} (h : ∀ j ∈ items, j.sorted.Faithful) :
    (Json.array items).sorted.Faithful := by
  rw [sorted, sortedItems_eq_map]
  exact .array (List.forall_mem_map.mpr h)

theorem fieldsDepth_le_iff {fields : List (String × Json)} {n : Nat} :
    fieldsDepth fields ≤ n ↔ ∀ f ∈ fields, f.2.depth ≤ n := by
  induction fields with
  | nil => exact iff_of_true (Nat.zero_le n) nofun
  | cons f fs ih => rw [fieldsDepth, Nat.max_le, ih, List.forall_mem_cons]

theorem itemsDepth_le_iff {items : List Json} {n : Nat} :
    itemsDepth items ≤ n ↔ ∀ j ∈ items, j.depth ≤ n := by
  induction items with
  | nil => exact iff_of_true (Nat.zero_le n) nofun
  | cons j js ih => rw [itemsDepth, Nat.max_le, ih, List.forall_mem_cons]

mutual
/-- Putting fields in order does not make a value nest more deeply. -/
theorem depth_sorted_le : ∀ j : Json, j.sorted.depth ≤ j.depth
  | .null | .bool _ | .number _ | .string _ => Nat.le_refl _
  | .array items => by
    rw [sorted, depth, depth]
    exact Nat.succ_le_succ (itemsDepth_sortedItems_le items)
  | .object fields => by
    rw [sorted, depth, depth]
    refine Nat.succ_le_succ (fieldsDepth_le_iff.mpr ?_)
    intro f hf
    have hbound := fieldsDepth_sortedFields_le fields
    exact fieldsDepth_le_iff.mp hbound f (mem_of_mem_ofList hf)

theorem itemsDepth_sortedItems_le : ∀ items : List Json,
    itemsDepth (sortedItems items) ≤ itemsDepth items
  | [] => Nat.le_refl _
  | j :: js => by
    have hfirst := depth_sorted_le j
    have hrest := itemsDepth_sortedItems_le js
    rw [sortedItems, itemsDepth, itemsDepth]
    omega

theorem fieldsDepth_sortedFields_le : ∀ fields : List (String × Json),
    fieldsDepth (sortedFields fields) ≤ fieldsDepth fields
  | [] => Nat.le_refl _
  | (name, j) :: fs => by
    have hfirst := depth_sorted_le j
    have hrest := fieldsDepth_sortedFields_le fs
    rw [sortedFields, fieldsDepth, fieldsDepth]
    omega
end

/-! ## Finding the fields of a record -/

namespace Document

variable {names : List String} {name : String} {value : Document} {g : String → Option Document}

theorem fill?_map (hnames : names.Nodup) (hfree : g name = none) :
    fill? name value names (names.map g) =
      some (names.map fun n => if n = name then some value else g n) := by
  induction names with
  | nil => rfl
  | cons n ns ih =>
    obtain ⟨hn, hns⟩ := List.nodup_cons.mp hnames
    rw [List.map_cons, List.map_cons]
    unfold fill?
    by_cases hname : n = name
    · have hrest : ns.map g = ns.map fun m => if m = name then some value else g m := by
        refine List.map_congr_left fun m hm => ?_
        rw [if_neg]
        rintro rfl
        exact hn (hname ▸ hm)
      rw [if_pos hname, if_pos hname, hname, hfree, ← hrest]
    · rw [if_neg hname, if_neg hname, ih hns]
      rfl

theorem fillAll?_map {fields : List (String × Document)} (hnames : names.Nodup)
    (hfields : (fields.map Prod.fst).Nodup) (hfree : ∀ f ∈ fields, g f.1 = none) :
    fillAll? names (names.map g) (fields.map fun f => (some f.1, f.2)) =
      some (names.map fun n => (find? n fields).or (g n)) := by
  induction fields generalizing g with
  | nil => rfl
  | cons f fs ih =>
    obtain ⟨hf, hfs⟩ := List.nodup_cons.mp hfields
    rw [List.map_cons, fillAll?, fill?_map hnames (hfree f List.mem_cons_self)]
    show fillAll? names _ _ = _
    rw [ih hfs]
    · refine congrArg some (List.map_congr_left fun n _ => ?_)
      rw [find?]
      by_cases hn : n = f.1
      · rw [if_pos hn, if_pos hn, hn, find?_eq_none_of_not_mem hf]
        rfl
      · rw [if_neg hn, if_neg hn]
    · intro f' hf'
      rw [if_neg, hfree f' (List.mem_cons_of_mem _ hf')]
      intro heq
      exact hf (heq ▸ List.mem_map_of_mem hf')

/-- The reader finds the fields of a record wherever they stand. -/
theorem record?_fields {fields : List (String × Json)} (hnames : names.Nodup)
    (hfields : (fields.map Prod.fst).Nodup) :
    record? names (Json.object fields).toDocument =
      some (names.map fun n => (find? n fields).map toDocument) := by
  have hdocument : fieldsToDocuments fields =
      (fields.map fun f => (f.1, f.2.toDocument)).map fun f => (some f.1, f.2) := by
    rw [fieldsToDocuments_eq_map, List.map_map]
    rfl
  have hdifferent : ((fields.map fun f => (f.1, f.2.toDocument)).map Prod.fst).Nodup := by
    rw [List.map_map]
    exact hfields
  rw [toDocument, hdocument, record?, fillAll?_map hnames hdifferent fun _ _ => rfl]
  refine congrArg some (List.map_congr_left fun n _ => ?_)
  rw [Option.or_none, find?_map]

end Document

/-! ## Orders of fields -/

/-- An object whose fields have different names. -/
def IsRecord (j : Json) : Prop := ∃ fields, j = .object fields ∧ (fields.map Prod.fst).Nodup

/-- A way to put the fields of objects into an order. -/
structure Arrangement (arrange : Json → Json) : Prop where
  bool : ∀ b, arrange (.bool b) = .bool b
  number : ∀ n, arrange (.number n) = .number n
  string : ∀ s, arrange (.string s) = .string s
  array : ∀ items, arrange (.array items) = .array (items.map arrange)
  object : ∀ fields, (fields.map Prod.fst).Nodup → ∃ fields', arrange (.object fields) = .object fields' ∧
    (fields'.map Prod.fst).Nodup ∧ ∀ name, find? name fields' = (find? name fields).map arrange

/-- The fields as they stand. -/
theorem Arrangement.id : Arrangement fun j => j where
  bool _ := rfl
  number _ := rfl
  string _ := rfl
  array items := by rw [List.map_id']
  object fields hfields := ⟨fields, rfl, hfields, fun name => by rw [Option.map_id']⟩

/-- The fields in ascending order. -/
theorem Arrangement.sorted : Arrangement sorted where
  bool _ := rfl
  number _ := rfl
  string _ := rfl
  array items := by rw [Json.sorted, sortedItems_eq_map]
  object fields hfields := by
    have hsorted : ((sortedFields fields).map Prod.fst).Nodup := by
      rw [sortedFields_eq_map, List.map_map]
      exact hfields
    refine ⟨_, Json.sorted.eq_2 fields, (ascending_ofList _).nodup, fun name => ?_⟩
    rw [find?_ofList hsorted, sortedFields_eq_map, find?_map]

section Arrange

open Document

variable {arrange : Json → Json} {names : List String} (A : Arrangement arrange)

include A

theorem record?_arranged {fields : List (String × Json)} (hnames : names.Nodup)
    (hfields : (fields.map Prod.fst).Nodup) :
    record? names (arrange (.object fields)).toDocument =
      some (names.map fun n => (find? n fields).map fun j => (arrange j).toDocument) := by
  obtain ⟨fields', harrange, hfields', hfind⟩ := A.object fields hfields
  rw [harrange, record?_fields hnames hfields']
  refine congrArg some (List.map_congr_left fun n _ => ?_)
  rw [hfind, Option.map_map]
  rfl

theorem unsigned?_arranged {n max : Nat} (hmax : n ≤ max) (hn : n < 2 ^ 64) :
    Document.unsigned? max (arrange (Json.ofNat n)).toDocument = some n := by
  have hvalue : (Literal.ofInt n).value? = some (.int n) :=
    Literal.value?_ofInt (by omega) (by exact_mod_cast hn)
  rw [Json.ofNat, A.number, toDocument_int, Document.unsigned?, hvalue]
  simp [hmax]

theorem list?_strings (texts : List String) :
    list? Document.string? (arrange (.array (texts.map .string))).toDocument = some texts := by
  rw [A.array, toDocument, toDocuments_eq_map, List.map_map, List.map_map, list?]
  induction texts with
  | nil => rfl
  | cons t ts ih =>
    rw [List.map_cons, List.mapM_cons, ih, Function.comp_apply, Function.comp_apply, A.string]
    rfl

/-- A record is not `null`. -/
theorem nullable?_arranged {α : Type} {read : Document → Option α} {j : Json} {x : α}
    (hrecord : j.IsRecord) (h : read (arrange j).toDocument = some x) :
    nullable? read (arrange j).toDocument = some (some x) := by
  obtain ⟨fields, rfl, hfields⟩ := hrecord
  obtain ⟨fields', harrange, -⟩ := A.object fields hfields
  rw [harrange] at h ⊢
  show (read _).map some = _
  rw [h]
  rfl

end Arrange

end Json

/-! ## Positions, diagnostics and outputs -/

namespace Source

open Json Json.Document

variable {arrange : Json → Json}

theorem Position.ofDocument?_arranged (A : Arrangement arrange) (p : Position) :
    Position.ofDocument? (arrange p.toJson).toDocument = some p := by
  have hsmall {n : Nat} (h : n < 2 ^ 32) :
      Document.unsigned? (Nat.pow 2 32 - 1) (arrange (Json.ofNat n)).toDocument = some n :=
    unsigned?_arranged A (Nat.le_pred_of_lt h) (Nat.lt_trans h (by decide))
  have hline := hsmall p.line.toNat_lt
  have hcolumn := hsmall p.column.toNat_lt
  have hoffset : Document.unsigned? (Nat.pow 2 64 - 1)
      (arrange (Json.ofNat p.offset.toNat)).toDocument = some p.offset.toNat :=
    unsigned?_arranged A (Nat.le_pred_of_lt p.offset.toNat_lt) p.offset.toNat_lt
  rw [Position.ofDocument?, Position.toJson, record?_arranged A (by decide) (by simp)]
  simp [Fields.find?, required, hline, hcolumn, hoffset]

theorem Position.faithful_sorted (p : Position) : p.toJson.sorted.Faithful := by
  have hnumber {n : Nat} (h : n < 2 ^ 64) : (Json.ofNat n).sorted.Faithful :=
    faithful_int (by omega) (by exact_mod_cast h)
  refine faithful_sorted_object ?_
  simp only [List.forall_mem_cons]
  refine ⟨hnumber ?_, hnumber ?_, hnumber p.offset.toNat_lt, nofun⟩
  · exact Nat.lt_trans p.line.toNat_lt (by decide)
  · exact Nat.lt_trans p.column.toNat_lt (by decide)

theorem Diagnostic.isRecord (d : Diagnostic) : d.toJson.IsRecord := by
  obtain ⟨kind, message, position, expected⟩ := d
  refine ⟨_, rfl, ?_⟩
  cases position <;> by_cases hnone : expected = [] <;> simp [hnone]

theorem Diagnostic.ofDocument?_arranged (A : Arrangement arrange) (d : Diagnostic) :
    Diagnostic.ofDocument? (arrange d.toJson).toDocument = some d := by
  obtain ⟨kind, message, position, expected⟩ := d
  have hkind := DiagnosticKind.ofName?_name kind
  have hexpected := list?_strings A expected
  have hposition (p : Position) :
      nullable? Position.ofDocument? (arrange p.toJson).toDocument = some (some p) :=
    nullable?_arranged A ⟨_, rfl, by simp⟩ (p.ofDocument?_arranged A)
  have hstring (s : String) : (arrange (.string s)).toDocument = .string (some s) := by
    rw [A.string]
    rfl
  -- which fields stand in the record depends on what the diagnostic has
  cases position <;> by_cases hnone : expected = []
  all_goals
    rw [Diagnostic.ofDocument?, Diagnostic.toJson,
      record?_arranged A (by decide) (by simp [hnone])]
    simp [Fields.find?, required, withDefault, name?, Document.string?, hnone, hkind,
      hexpected, hposition, hstring]

theorem Diagnostic.faithful_sorted (d : Diagnostic) : d.toJson.sorted.Faithful := by
  refine faithful_sorted_object ?_
  simp only [List.forall_mem_append, List.forall_mem_cons]
  refine ⟨⟨⟨.string _, .string _, nofun⟩, ?_⟩, ?_⟩
  · cases d.position with
    | none => nofun
    | some p => exact List.forall_mem_singleton.mpr p.faithful_sorted
  · split
    · nofun
    · refine List.forall_mem_singleton.mpr (faithful_sorted_array ?_)
      exact List.forall_mem_map.mpr fun text _ => .string text

theorem Diagnostic.depth_toJson_le (d : Diagnostic) : d.toJson.depth ≤ 2 := by
  rw [Diagnostic.toJson, Json.depth]
  refine Nat.succ_le_succ (fieldsDepth_le_iff.mpr ?_)
  simp only [List.forall_mem_append, List.forall_mem_cons]
  refine ⟨⟨⟨Nat.zero_le _, Nat.zero_le _, nofun⟩, ?_⟩, ?_⟩
  · cases d.position with
    | none => nofun
    | some p => exact List.forall_mem_singleton.mpr (Nat.le_refl 1)
  · split
    · nofun
    · refine List.forall_mem_singleton.mpr ?_
      rw [Json.depth]
      refine Nat.succ_le_succ (itemsDepth_le_iff.mpr ?_)
      exact List.forall_mem_map.mpr fun text _ => Nat.le_refl 0

end Source

namespace TypeScript

open Json Json.Document

variable {arrange : Json → Json}

theorem Output.ofDocument?_arranged (A : Arrangement arrange) (o : Output) :
    Output.ofDocument? (arrange o.toJson).toDocument = some o := by
  obtain ⟨error, code, diagnostic⟩ := o
  have herror : Document.bool? (arrange (.bool error)).toDocument = some error := by
    rw [A.bool]
    rfl
  have hcode (code : String) :
      nullable? Document.string? (arrange (.string code)).toDocument = some (some code) := by
    rw [A.string]
    rfl
  have hdiagnostic (d : Source.Diagnostic) :
      nullable? Source.Diagnostic.ofDocument? (arrange d.toJson).toDocument = some (some d) :=
    nullable?_arranged A d.isRecord (d.ofDocument?_arranged A)
  cases code <;> cases diagnostic
  all_goals
    rw [Output.ofDocument?, Output.toJson, record?_arranged A (by decide) (by simp)]
    simp [Fields.find?, required, withDefault, herror, hcode, hdiagnostic]

theorem Output.faithful_sorted (o : Output) : o.toJson.sorted.Faithful := by
  refine faithful_sorted_object ?_
  simp only [List.forall_mem_append, List.forall_mem_cons]
  refine ⟨⟨⟨.bool _, nofun⟩, ?_⟩, ?_⟩
  · cases o.code with
    | none => nofun
    | some code => exact List.forall_mem_singleton.mpr (.string code)
  · cases o.diagnostic with
    | none => nofun
    | some d => exact List.forall_mem_singleton.mpr d.faithful_sorted

theorem Output.depth_toJson_le (o : Output) : o.toJson.depth ≤ 3 := by
  rw [Output.toJson, Json.depth]
  refine Nat.succ_le_succ (fieldsDepth_le_iff.mpr ?_)
  simp only [List.forall_mem_append, List.forall_mem_cons]
  refine ⟨⟨⟨Nat.zero_le _, nofun⟩, ?_⟩, ?_⟩
  · cases o.code with
    | none => nofun
    | some code => exact List.forall_mem_singleton.mpr (Nat.zero_le _)
  · cases o.diagnostic with
    | none => nofun
    | some d => exact List.forall_mem_singleton.mpr d.depth_toJson_le

end TypeScript

end Typestrip
