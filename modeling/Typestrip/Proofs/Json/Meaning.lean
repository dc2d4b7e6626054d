import Typestrip.Proofs.Json.Records

/-!
# What documents mean

Whatever a document means is a value as the reader gives it (`Meant.faithful`): the fields of its
objects ascend, although those of the document may stand in any order and be repeated, and its whole
numbers have 64 bits, although those of the document may have more digits. And it nests no deeper than
the document (`depth_le_of_ofDocument?`). Of a floating-point number it has to be known that it is
read back from what is written for it (`Legible`).
-/

namespace Typestrip.Json

/-! ## Documents -/

/-- What holds of arrays and objects if it holds of everything in them, and of all other documents,
holds of every document. -/
theorem Document.induction {motive : Document → Prop} (null : motive .null)
    (bool : ∀ b, motive (.bool b)) (number : ∀ l, motive (.number l))
    (string : ∀ s, motive (.string s))
    (array : ∀ items, (∀ d ∈ items, motive d) → motive (.array items))
    (object : ∀ fields, (∀ f ∈ fields, motive f.2) → motive (.object fields)) (d : Document) :
    motive d := by
  cases d with
  | null => exact null
  | bool b => exact bool b
  | number l => exact number l
  | string s => exact string s
  | array items =>
    refine array items fun d hd => ?_
    have hlt := List.sizeOf_lt_of_mem hd
    exact Document.induction null bool number string array object d
  | object fields =>
    refine object fields fun f hf => ?_
    have hlt := List.sizeOf_lt_of_mem hf
    have hsnd : sizeOf f.2 < sizeOf f := by
      cases f
      simp only [Prod.mk.sizeOf_spec]
      omega
    exact Document.induction null bool number string array object f.2
termination_by sizeOf d
decreasing_by
  all_goals
    simp only [Document.array.sizeOf_spec, Document.object.sizeOf_spec]
    omega

namespace Document

theorem depth_le_itemsDepth {d : Document} {ds : List Document} (h : d ∈ ds) :
    d.depth ≤ itemsDepth ds := by
  induction ds with
  | nil => cases h
  | cons d' ds ih =>
    rw [itemsDepth]
    rcases List.mem_cons.mp h with rfl | h
    · exact Nat.le_max_left _ _
    · exact (ih h).trans (Nat.le_max_right _ _)

theorem depth_le_fieldsDepth {f : Option String × Document} {fs : List (Option String × Document)}
    (h : f ∈ fs) : f.2.depth ≤ fieldsDepth fs := by
  induction fs with
  | nil => cases h
  | cons f' fs ih =>
    rw [fieldsDepth]
    rcases List.mem_cons.mp h with rfl | h
    · exact Nat.le_max_left _ _
    · exact (ih h).trans (Nat.le_max_right _ _)

end Document

/-- Every item of the meaning is the meaning of an item. -/
theorem exists_of_mem_ofDocuments? {ds : List Document} {js : List Json}
    (h : ofDocuments? ds = some js) {j : Json} (hj : j ∈ js) :
    ∃ d ∈ ds, ofDocument? d = some j := by
  induction ds generalizing js with
  | nil =>
    cases h
    cases hj
  | cons d ds ih =>
    rw [ofDocuments?] at h
    obtain ⟨k, hk, h⟩ := Option.bind_eq_some_iff.mp h
    obtain ⟨ks, hks, h⟩ := Option.bind_eq_some_iff.mp h
    cases h
    rcases List.mem_cons.mp hj with rfl | hj
    · exact ⟨d, List.mem_cons_self, hk⟩
    · obtain ⟨d', hd', h⟩ := ih hks hj
      exact ⟨d', List.mem_cons_of_mem _ hd', h⟩

/-- The fields of the meaning ascend, and each of them is the meaning of a field. -/
theorem ofFields?_eq_some {found fields : List (String × Json)}
    {ds : List (Option String × Document)} (h : ofFields? found ds = some fields)
    (hfound : Fields.Ascending found) :
    Fields.Ascending fields ∧
      ∀ f ∈ fields, f ∈ found ∨ ∃ g ∈ ds, ofDocument? g.2 = some f.2 := by
  induction ds generalizing found with
  | nil =>
    obtain rfl : found = fields := Option.some.inj h
    exact ⟨hfound, fun f hf => .inl hf⟩
  | cons d ds ih =>
    obtain ⟨name, d⟩ := d
    rw [ofFields?] at h
    obtain ⟨n, -, h⟩ := Option.bind_eq_some_iff.mp h
    obtain ⟨j, hj, h⟩ := Option.bind_eq_some_iff.mp h
    obtain ⟨hascending, hmeant⟩ := ih h (Fields.ascending_insert hfound n j)
    refine ⟨hascending, fun f hf => ?_⟩
    rcases hmeant f hf with hf | ⟨g, hg, hmeant⟩
    · rcases Fields.mem_of_mem_insert hf with rfl | hf
      · exact .inr ⟨(name, d), List.mem_cons_self, hj⟩
      · exact .inl hf
    · exact .inr ⟨g, List.mem_cons_of_mem _ hg, hmeant⟩

/-- A value nests no deeper than the document that it is the meaning of. -/
theorem depth_le_of_ofDocument? {d : Document} {j : Json} (h : ofDocument? d = some j) :
    j.depth ≤ d.depth := by
  induction d using Document.induction generalizing j with
  | null | bool =>
    cases h
    exact Nat.le_refl 0
  | number l =>
    obtain ⟨n, -, rfl⟩ := Option.map_eq_some_iff.mp h
    exact Nat.le_refl 0
  | string s =>
    obtain ⟨text, -, rfl⟩ := Option.map_eq_some_iff.mp h
    exact Nat.le_refl 0
  | array ds ih =>
    obtain ⟨items, hitems, rfl⟩ := Option.map_eq_some_iff.mp h
    refine Nat.succ_le_succ (itemsDepth_le_iff.mpr fun j hj => ?_)
    obtain ⟨d, hd, hmeant⟩ := exists_of_mem_ofDocuments? hitems hj
    exact (ih d hd hmeant).trans (Document.depth_le_itemsDepth hd)
  | object ds ih =>
    obtain ⟨fields, hfields, rfl⟩ := Option.map_eq_some_iff.mp h
    refine Nat.succ_le_succ (fieldsDepth_le_iff.mpr fun f hf => ?_)
    obtain ⟨-, hmeant⟩ := ofFields?_eq_some hfields List.Pairwise.nil
    rcases hmeant f hf with hf | ⟨g, hg, hmeant⟩
    · cases hf
    · exact (ih g hg hmeant).trans (Document.depth_le_fieldsDepth hg)

/-! ## Numbers -/

theorem value_foldl_pushWhole_le (ds : List Char) {s : Significand} (hs : s.value ≤ maxUnsigned) :
    (ds.foldl Significand.pushWhole s).value ≤ maxUnsigned := by
  induction ds generalizing s with
  | nil => exact hs
  | cons d ds ih =>
    refine ih ?_
    unfold Significand.pushWhole
    dsimp only
    split
    · exact hs
    · next h => exact Nat.not_lt.mp (not_or.mp h).2

/-- A whole number that is spelled has 64 bits. -/
theorem Literal.bounds_of_value? {l : Literal} {n : Int} (h : l.value? = some (.int n)) :
    -2 ^ 63 ≤ n ∧ n < 2 ^ 64 := by
  have hvalue := value_foldl_pushWhole_le l.whole (s := ⟨0, 0⟩) (Nat.zero_le _)
  have hmax : maxUnsigned = 2 ^ 64 - 1 := rfl
  have hmin : Nat.pow 2 63 = 2 ^ 63 := rfl
  unfold value? at h
  dsimp only at h
  split at h
  · obtain rfl := Number.int.inj (Option.some.inj h)
    omega
  split at h
  · next hsize =>
    obtain rfl := Number.int.inj (Option.some.inj h)
    simp only [Bool.and_eq_true, decide_eq_true_eq] at hsize
    omega
  · obtain ⟨x, -, hx⟩ := Option.map_eq_some_iff.mp h
    cases hx

/-! ## Values that were read -/

/-- The value is the meaning of a document. -/
def Meant (j : Json) : Prop := ∃ d, ofDocument? d = some j

/-- A floating-point number is read back from what is written for it. -/
def Legible (x : Float) : Prop :=
  ofDocument? (toDocument (.number (.float x))) = some (.number (.float x))

mutual
/-- The floating-point numbers in a value. -/
def floats : Json → List Float
  | number (.float x) => [x]
  | array items => itemsFloats items
  | object fields => fieldsFloats fields
  | _ => []

/-- The floating-point numbers in a list of values. -/
def itemsFloats : List Json → List Float
  | [] => []
  | j :: js => floats j ++ itemsFloats js

/-- The floating-point numbers in the values of fields. -/
def fieldsFloats : List (String × Json) → List Float
  | [] => []
  | (_, j) :: fs => floats j ++ fieldsFloats fs
end

theorem itemsFloats_eq_flatMap (items : List Json) : itemsFloats items = items.flatMap floats := by
  induction items with
  | nil => rfl
  | cons j js ih => rw [itemsFloats, ih, List.flatMap_cons]

theorem fieldsFloats_eq_flatMap (fields : List (String × Json)) :
    fieldsFloats fields = fields.flatMap fun f => floats f.2 := by
  induction fields with
  | nil => rfl
  | cons f fs ih => rw [fieldsFloats, ih, List.flatMap_cons]

theorem Meant.items {items : List Json} (h : (Json.array items).Meant) : ∀ j ∈ items, j.Meant := by
  obtain ⟨d, hd⟩ := h
  cases d with
  | array ds =>
    obtain ⟨items', hitems, heq⟩ := Option.map_eq_some_iff.mp hd
    cases heq
    intro j hj
    obtain ⟨d, -, hmeant⟩ := exists_of_mem_ofDocuments? hitems hj
    exact ⟨d, hmeant⟩
  | null | bool => cases hd
  | number | string | object =>
    obtain ⟨_, -, heq⟩ := Option.map_eq_some_iff.mp hd
    cases heq

/-- Whole numbers that were read have 64 bits. -/
theorem Meant.bounds {n : Int} (h : (Json.number (.int n)).Meant) : -2 ^ 63 ≤ n ∧ n < 2 ^ 64 := by
  obtain ⟨d, hd⟩ := h
  cases d with
  | number l =>
    obtain ⟨n', hvalue, heq⟩ := Option.map_eq_some_iff.mp hd
    cases heq
    exact Literal.bounds_of_value? hvalue
  | null | bool => cases hd
  | string | array | object =>
    obtain ⟨_, -, heq⟩ := Option.map_eq_some_iff.mp hd
    cases heq

/-- What a document means is a value as the reader gives it. -/
theorem Meant.faithful {j : Json} (h : j.Meant) (hfloats : ∀ x ∈ j.floats, Legible x) :
    j.Faithful := by
  obtain ⟨d, hd⟩ := h
  induction d using Document.induction generalizing j with
  | null =>
    cases hd
    exact .null
  | bool b =>
    cases hd
    exact .bool b
  | number l =>
    obtain ⟨n, hvalue, rfl⟩ := Option.map_eq_some_iff.mp hd
    cases n with
    | int n =>
      obtain ⟨hlow, hhigh⟩ := Literal.bounds_of_value? hvalue
      exact faithful_int hlow hhigh
    | float x => exact .number (hfloats x (List.mem_singleton_self x))
  | string s =>
    obtain ⟨text, -, rfl⟩ := Option.map_eq_some_iff.mp hd
    exact .string text
  | array ds ih =>
    obtain ⟨items, hitems, rfl⟩ := Option.map_eq_some_iff.mp hd
    rw [floats, itemsFloats_eq_flatMap] at hfloats
    refine .array fun j hj => ?_
    obtain ⟨d, hd, hmeant⟩ := exists_of_mem_ofDocuments? hitems hj
    exact ih d hd (fun x hx => hfloats x (List.mem_flatMap_of_mem hj hx)) hmeant
  | object ds ih =>
    obtain ⟨fields, hfields, rfl⟩ := Option.map_eq_some_iff.mp hd
    rw [floats, fieldsFloats_eq_flatMap] at hfloats
    obtain ⟨hascending, hmeant⟩ := ofFields?_eq_some hfields List.Pairwise.nil
    refine .object hascending fun f hf => ?_
    rcases hmeant f hf with hf' | ⟨g, hg, hmeant⟩
    · cases hf'
    · exact ih g hg (fun x hx => hfloats x (List.mem_flatMap_of_mem hf hx)) hmeant

/-- What is read from a text is what a document means, and nests no deeper than is admitted. -/
theorem meant_of_parse? {cs : List Char} {j : Json} (h : parse? cs = some j) :
    j.Meant ∧ j.depth ≤ maxDepth := by
  unfold parse? at h
  split at h
  · next d _ =>
    split at h
    · next hdepth => exact ⟨⟨d, h⟩, (depth_le_of_ofDocument? h).trans hdepth⟩
    · cases h
  · cases h

end Typestrip.Json
