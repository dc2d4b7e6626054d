import Typestrip.Proofs.Json.RoundTrip
import Typestrip.Value

/-!
# Values without a mark of their kind

A value is written as bare JSON, and the reader finds out of which kind it is by trying one kind after
the other, at every level of the value. Whatever the JSON is, exactly one of the kinds takes it
(`Value.exists_filterMap_kinds`), so the order in which they are tried does not matter. What is read
back is the value that was written, with `null` for each number that JSON has no text for
(`Value.survives_unmarked`).
-/

namespace Typestrip.Value

/-- A value as matching builds it: the names of fields ascend. -/
inductive Ordered : Value → Prop
  | null : Ordered .null
  | bool (b : Bool) : Ordered (.bool b)
  | number (x : Float) : Ordered (.number x)
  | text (s : String) : Ordered (.text s)
  | list {items : List Value} (h : ∀ v ∈ items, Ordered v) : Ordered (.list items)
  | object {fields : List (String × Value)} (hnames : Fields.Ascending fields)
    (h : ∀ f ∈ fields, Ordered f.2) : Ordered (.object fields)

mutual
/-- The value with `null` in place of every number that is not finite. -/
def finite : Value → Value
  | null => null
  | bool b => bool b
  | number x => if x.isFinite then number x else null
  | text s => text s
  | list items => list (finiteItems items)
  | object fields => object (finiteFields fields)

/-- The items with `null` in place of every number that is not finite. -/
def finiteItems : List Value → List Value
  | [] => []
  | v :: vs => finite v :: finiteItems vs

/-- The fields with `null` in place of every number that is not finite. -/
def finiteFields : List (String × Value) → List (String × Value)
  | [] => []
  | (name, v) :: fs => (name, finite v) :: finiteFields fs
end

/-! ## Trying the kinds -/

/-- An array as a value. -/
def ofArray? : Json → Option Value
  | .array items => (itemsOfJson? items).map list
  | _ => none

/-- An object as a value. -/
def ofObject? : Json → Option Value
  | .object fields => (fieldsOfJson? [] fields).map object
  | _ => none

/-- How values of each kind are read, in the order in which the kinds are tried. -/
def kinds : List (Json → Option Value) :=
  [ofNull?, ofBool?, ofNumber?, ofString?, ofArray?, ofObject?]

theorem ofJson?_array (items : List Json) :
    ofJson? (.array items) = (itemsOfJson? items).map list := by
  rw [ofJson?]
  cases itemsOfJson? items <;> rfl

theorem ofJson?_object (fields : List (String × Json)) :
    ofJson? (.object fields) = (fieldsOfJson? [] fields).map object := by
  rw [ofJson?]
  rfl

mutual
/-- Everything is of some kind. -/
theorem exists_ofJson? : ∀ j : Json, ∃ v, ofJson? j = some v
  | .null => ⟨null, rfl⟩
  | .bool b => ⟨bool b, rfl⟩
  | .number n => ⟨number n.toFloat, rfl⟩
  | .string s => ⟨text s, rfl⟩
  | .array items => by
    obtain ⟨vs, hvs⟩ := exists_itemsOfJson? items
    exact ⟨list vs, by rw [ofJson?_array, hvs]; rfl⟩
  | .object fields => by
    obtain ⟨fs, hfs⟩ := exists_fieldsOfJson? [] fields
    exact ⟨object fs, by rw [ofJson?_object, hfs]; rfl⟩

theorem exists_itemsOfJson? : ∀ items : List Json, ∃ vs, itemsOfJson? items = some vs
  | [] => ⟨[], rfl⟩
  | j :: js => by
    obtain ⟨v, hv⟩ := exists_ofJson? j
    obtain ⟨vs, hvs⟩ := exists_itemsOfJson? js
    exact ⟨v :: vs, by rw [itemsOfJson?, hv, hvs]; rfl⟩

theorem exists_fieldsOfJson? (found : List (String × Value)) :
    ∀ fields : List (String × Json), ∃ fs, fieldsOfJson? found fields = some fs
  | [] => ⟨found, rfl⟩
  | (name, j) :: fs => by
    obtain ⟨v, hv⟩ := exists_ofJson? j
    obtain ⟨fs', hfs⟩ := exists_fieldsOfJson? (Fields.insert name v found) fs
    exact ⟨fs', by rw [fieldsOfJson?, hv]; exact hfs⟩
end

/-- Of the kinds exactly one takes a JSON value, and what it makes of it is what is read. -/
theorem exists_filterMap_kinds (j : Json) :
    ∃ v, ofJson? j = some v ∧ kinds.filterMap (fun read => read j) = [v] := by
  obtain ⟨v, hv⟩ := exists_ofJson? j
  refine ⟨v, hv, ?_⟩
  cases j with
  | null | bool b | number n | string s =>
    obtain rfl := Option.some.inj hv
    rfl
  | array items =>
    have htaken : ofArray? (.array items) = some v := (ofJson?_array items).symm.trans hv
    simp only [kinds, List.filterMap_cons, List.filterMap_nil, htaken, ofNull?, ofBool?, ofNumber?,
      ofString?, ofObject?]
  | object fields =>
    have htaken : ofObject? (.object fields) = some v := (ofJson?_object fields).symm.trans hv
    simp only [kinds, List.filterMap_cons, List.filterMap_nil, htaken, ofNull?, ofBool?, ofNumber?,
      ofString?, ofArray?]

/-! ## Reading back what has been written -/

mutual
/-- A value is written as what is left of it with `null` for the numbers that are not finite. -/
theorem toJson_finite : ∀ v : Value, v.finite.toJson = v.toJson
  | .null | .bool _ | .text _ => rfl
  | .number x => by
    rw [finite]
    split
    · rfl
    · next hx => rw [toJson, toJson, if_neg hx]
  | .list items => by rw [finite, toJson, toJson, itemsToJson_finiteItems items]
  | .object fields => by rw [finite, toJson, toJson, fieldsToJson_finiteFields fields]

theorem itemsToJson_finiteItems : ∀ items : List Value,
    itemsToJson (finiteItems items) = itemsToJson items
  | [] => rfl
  | v :: vs => by
    rw [finiteItems, itemsToJson, itemsToJson, toJson_finite v, itemsToJson_finiteItems vs]

theorem fieldsToJson_finiteFields : ∀ fields : List (String × Value),
    fieldsToJson (finiteFields fields) = fieldsToJson fields
  | [] => rfl
  | (name, v) :: fs => by
    rw [finiteFields, fieldsToJson, fieldsToJson, toJson_finite v, fieldsToJson_finiteFields fs]
end

mutual
theorem Ordered.ofJson?_toJson : ∀ {v : Value}, v.Ordered → ofJson? v.toJson = some v.finite
  | .null, _ | .bool _, _ | .text _, _ => rfl
  | .number x, _ => by
    rw [toJson, finite]
    split <;> rfl
  | .list items, .list h => by
    rw [toJson, finite, ofJson?_array, itemsOfJson?_itemsToJson h]
    rfl
  | .object fields, .object hnames h => by
    rw [toJson, finite, ofJson?_object, fieldsOfJson?_fieldsToJson [] hnames nofun h]
    rfl

theorem itemsOfJson?_itemsToJson : ∀ {items : List Value}, (∀ v ∈ items, v.Ordered) →
    itemsOfJson? (itemsToJson items) = some (finiteItems items)
  | [], _ => rfl
  | v :: vs, h => by
    rw [itemsToJson, itemsOfJson?, Ordered.ofJson?_toJson (h v List.mem_cons_self),
      itemsOfJson?_itemsToJson fun w hw => h w (List.mem_cons_of_mem _ hw)]
    rfl

/-- The fields found so far come before those that are still to be read. -/
theorem fieldsOfJson?_fieldsToJson (found : List (String × Value)) :
    ∀ {fields : List (String × Value)}, Fields.Ascending fields →
      (∀ f ∈ found, ∀ g ∈ fields, f.1 < g.1) → (∀ f ∈ fields, f.2.Ordered) →
      fieldsOfJson? found (fieldsToJson fields) = some (found ++ finiteFields fields)
  | [], _, _, _ => by rw [fieldsToJson, fieldsOfJson?, finiteFields, List.append_nil]
  | (name, v) :: fs, hnames, hfound, h => by
    obtain ⟨hfirst, hrest⟩ := List.pairwise_cons.mp hnames
    have hlast : ∀ f ∈ found, f.1 < name := fun f hf => hfound f hf _ List.mem_cons_self
    have hnext : ∀ f ∈ found ++ [(name, v.finite)], ∀ g ∈ fs, f.1 < g.1 := by
      intro f hf g hg
      rcases List.mem_append.mp hf with hf | hf
      · exact hfound f hf g (List.mem_cons_of_mem _ hg)
      · obtain rfl := List.mem_singleton.mp hf
        exact hfirst g hg
    rw [fieldsToJson, fieldsOfJson?, Ordered.ofJson?_toJson (h _ List.mem_cons_self)]
    -- the field is put behind all that were found, so their order does not change
    show fieldsOfJson? (Fields.insert name v.finite found) (fieldsToJson fs) = _
    rw [Json.insert_of_forall_lt hlast, fieldsOfJson?_fieldsToJson _ hrest hnext
      fun f hf => h f (List.mem_cons_of_mem _ hf), List.append_assoc]
    rfl
end

/-- What is read back is the value that was written, with `null` in place of every number that is not
finite. None of the kinds but its own takes what was written, and values that differ in anything else
than such numbers are written differently. -/
theorem survives_unmarked {v : Value} (h : v.Ordered) :
    ofJson? v.toJson = some v.finite ∧
    kinds.filterMap (fun read => read v.toJson) = [v.finite] ∧
    ∀ w : Value, w.Ordered → (w.toJson = v.toJson ↔ w.finite = v.finite) := by
  have hread := h.ofJson?_toJson
  refine ⟨hread, ?_, fun w hw => ⟨fun heq => ?_, fun heq => ?_⟩⟩
  · obtain ⟨u, hu, hkinds⟩ := exists_filterMap_kinds v.toJson
    obtain rfl : v.finite = u := Option.some.inj (hread.symm.trans hu)
    exact hkinds
  · have hother := hw.ofJson?_toJson
    rw [heq, hread] at hother
    exact (Option.some.inj hother).symm
  · rw [← toJson_finite w, ← toJson_finite v, heq]

/-- What is empty or zero in one kind and another, and a number that is not finite. -/
def hollow : Value :=
  object [("", text ""), ("all", list [list [], object [], bool false, number 0, null]),
    ("nan", number (0 / 0))]

/-- A number that is not finite is lost, and nothing else is. -/
theorem survives_unmarked_hollow : hollow.Ordered ∧
    ofJson? hollow.toJson = some (object [("", text ""),
      ("all", list [list [], object [], bool false, number 0, null]), ("nan", null)]) ∧
    kinds.filterMap (fun read => read hollow.toJson) = [hollow.finite] := by
  have hitems : ∀ v ∈ [list [], object [], bool false, number 0, null], v.Ordered := by
    simp only [List.forall_mem_cons]
    exact ⟨.list nofun, .object .nil nofun, .bool false, .number 0, .null, nofun⟩
  have hordered : hollow.Ordered := by
    refine .object (by unfold Fields.Ascending; decide) ?_
    simp only [List.forall_mem_cons]
    exact ⟨.text "", .list hitems, .number (0 / 0), nofun⟩
  obtain ⟨hread, hkinds, -⟩ := survives_unmarked hordered
  exact ⟨hordered, hread.trans rfl, hkinds⟩

end Typestrip.Value
