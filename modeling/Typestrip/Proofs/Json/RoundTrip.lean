import Typestrip.Proofs.Json.Spelling

/-!
# Reading back what has been written

The reader of free-standing values refuses a text that nests more than 127 arrays and objects, and the
writer writes any number of them. So a value is read back from its compact text just if it nests no
more (`parse?_chars`), provided that its numbers and fields are such as the reader gives
(`Faithful`). Whole numbers of 64 bits are (`faithful_int`); of the others nothing is known here, since
nothing is known of floating-point arithmetic.
-/

namespace Typestrip.Json

/-! ## Nesting -/

mutual
/-- How many arrays and objects are nested in each other. -/
def depth : Json → Nat
  | array items => itemsDepth items + 1
  | object fields => fieldsDepth fields + 1
  | _ => 0

/-- The greatest depth of an item. -/
def itemsDepth : List Json → Nat
  | [] => 0
  | j :: js => max (depth j) (itemsDepth js)

/-- The greatest depth of a field. -/
def fieldsDepth : List (String × Json) → Nat
  | [] => 0
  | (_, j) :: fs => max (depth j) (fieldsDepth fs)
end

theorem depth_toDocument_number (n : Number) : (toDocument (.number n)).depth = 0 := by
  obtain ⟨l, hl, htext⟩ | htext := n.exists_literal
  · rw [Document.toDocument_number hl htext]
    rfl
  · rw [toDocument, htext]
    rfl

mutual
/-- A value nests as deeply as it is spelled. -/
theorem depth_toDocument : ∀ j : Json, j.toDocument.depth = j.depth
  | .null | .bool _ | .string _ => rfl
  | .number n => depth_toDocument_number n
  | .array items => by
    rw [toDocument, Document.depth, depth, itemsDepth_toDocuments items]
  | .object fields => by
    rw [toDocument, Document.depth, depth, fieldsDepth_fieldsToDocuments fields]

theorem itemsDepth_toDocuments : ∀ items : List Json,
    Document.itemsDepth (toDocuments items) = itemsDepth items
  | [] => rfl
  | j :: js => by
    rw [toDocuments, Document.itemsDepth, itemsDepth, depth_toDocument j, itemsDepth_toDocuments js]

theorem fieldsDepth_fieldsToDocuments : ∀ fields : List (String × Json),
    Document.fieldsDepth (fieldsToDocuments fields) = fieldsDepth fields
  | [] => rfl
  | (name, j) :: fs => by
    rw [fieldsToDocuments, Document.fieldsDepth, fieldsDepth, depth_toDocument j,
      fieldsDepth_fieldsToDocuments fs]
end

/-! ## Meaning -/

/-- A value as the reader gives it: every number is what its text means, and the names of fields
ascend. -/
inductive Faithful : Json → Prop
  | null : Faithful .null
  | bool (b : Bool) : Faithful (.bool b)
  | string (s : String) : Faithful (.string s)
  | number {n : Number} (h : ofDocument? (toDocument (.number n)) = some (.number n)) :
    Faithful (.number n)
  | array {items : List Json} (h : ∀ j ∈ items, Faithful j) : Faithful (.array items)
  | object {fields : List (String × Json)} (hnames : Fields.Ascending fields)
    (h : ∀ f ∈ fields, Faithful f.2) : Faithful (.object fields)

theorem insert_of_forall_lt {α : Type} {name : String} {value : α} {fields : List (String × α)}
    (h : ∀ f ∈ fields, f.1 < name) : Fields.insert name value fields = fields ++ [(name, value)] := by
  induction fields with
  | nil => rfl
  | cons f fs ih =>
    have hf : f.1 < name := h f List.mem_cons_self
    rw [Fields.insert, if_neg (String.lt_asymm hf), if_neg (String.ne_of_lt hf).symm,
      ih fun g hg => h g (List.mem_cons_of_mem _ hg)]
    rfl

mutual
/-- What is spelled of a value as the reader gives it means that value. -/
theorem Faithful.ofDocument? : ∀ {j : Json}, j.Faithful → ofDocument? j.toDocument = some j
  | .null, _ | .bool _, _ | .string _, _ => rfl
  | .number n, .number h => h
  | .array items, .array h => by
    rw [toDocument, Json.ofDocument?, ofDocuments?_toDocuments h]
    rfl
  | .object fields, .object hnames h => by
    rw [toDocument, Json.ofDocument?, ofFields?_fieldsToDocuments [] hnames nofun h]
    rfl

theorem ofDocuments?_toDocuments : ∀ {items : List Json}, (∀ j ∈ items, j.Faithful) →
    ofDocuments? (toDocuments items) = some items
  | [], _ => rfl
  | j :: js, h => by
    rw [toDocuments, ofDocuments?, Faithful.ofDocument? (h j List.mem_cons_self),
      ofDocuments?_toDocuments fun k hk => h k (List.mem_cons_of_mem _ hk)]
    rfl

theorem ofFields?_fieldsToDocuments : ∀ {fields : List (String × Json)}
    (found : List (String × Json)), Fields.Ascending fields →
    (∀ f ∈ found, ∀ g ∈ fields, f.1 < g.1) → (∀ f ∈ fields, f.2.Faithful) →
    ofFields? found (fieldsToDocuments fields) = some (found ++ fields)
  | [], found, _, _, _ => by
    rw [fieldsToDocuments, ofFields?, List.append_nil]
  | (name, j) :: fs, found, hnames, hfound, h => by
    obtain ⟨hname, hnames⟩ := List.pairwise_cons.mp hnames
    have hlast : ∀ f ∈ found, f.1 < name := fun f hf => hfound f hf _ List.mem_cons_self
    have hnext : ∀ f ∈ found ++ [(name, j)], ∀ g ∈ fs, f.1 < g.1 := by
      intro f hf g hg
      obtain hf | hf := List.mem_append.mp hf
      · exact hfound f hf g (List.mem_cons_of_mem _ hg)
      · exact List.mem_singleton.mp hf ▸ hname g hg
    rw [fieldsToDocuments, ofFields?]
    simp only [Option.bind_eq_bind, Option.bind_some, Faithful.ofDocument? (h _ List.mem_cons_self)]
    rw [insert_of_forall_lt hlast, ofFields?_fieldsToDocuments _ hnames hnext fun f hf =>
      h f (List.mem_cons_of_mem _ hf), List.append_assoc]
    rfl
end

/-! ## Whole numbers -/

theorem le_digitsValue (ds : List Char) (n : Nat) : n ≤ Decimal.digitsValue n ds := by
  induction ds generalizing n with
  | nil => exact Nat.le_refl n
  | cons d ds ih =>
    have hnext := ih (10 * n + (d.toNat - '0'.toNat))
    show n ≤ Decimal.digitsValue (10 * n + (d.toNat - '0'.toNat)) ds
    omega

theorem foldl_pushWhole {ds : List Char} {n : Nat} (h : Decimal.digitsValue n ds ≤ maxUnsigned) :
    ds.foldl Significand.pushWhole ⟨n, 0⟩ = ⟨Decimal.digitsValue n ds, 0⟩ := by
  induction ds generalizing n with
  | nil => rfl
  | cons d ds ih =>
    have hle := le_digitsValue ds (10 * n + (d.toNat - '0'.toNat))
    have hnext : Decimal.digitsValue (10 * n + (d.toNat - '0'.toNat)) ds ≤ maxUnsigned := h
    have hpush : Significand.pushWhole ⟨n, 0⟩ d = ⟨10 * n + (d.toNat - '0'.toNat), 0⟩ := by
      unfold Significand.pushWhole
      simp only
      rw [if_neg (by omega)]
    rw [List.foldl_cons, hpush, ih hnext]
    rfl

theorem digitsValue_toDigits (n : Nat) : Decimal.digitsValue 0 (Nat.toDigits 10 n) = n :=
  Nat.ofDigitChars_ten_toDigits

theorem Literal.value?_ofInt {n : Int} (hlow : -2 ^ 63 ≤ n) (hhigh : n < 2 ^ 64) :
    (Literal.ofInt n).value? = some (.int n) := by
  have hvalue := digitsValue_toDigits n.natAbs
  have hfit : Decimal.digitsValue 0 (Nat.toDigits 10 n.natAbs) ≤ maxUnsigned := by
    have hmax : maxUnsigned = 2 ^ 64 - 1 := rfl
    omega
  have hfold := foldl_pushWhole hfit
  rw [hvalue] at hfold
  unfold value? ofInt
  simp only [hfold, Option.isNone_none, Bool.and_self, decide_true, Bool.true_and]
  obtain hn | hn := Int.lt_or_le n 0
  · have hpow : Nat.pow 2 63 = 2 ^ 63 := rfl
    have hsize : (decide (n.natAbs ≠ 0) && decide (n.natAbs ≤ Nat.pow 2 63)) = true := by
      rw [Bool.and_eq_true, decide_eq_true_eq, decide_eq_true_eq]
      omega
    rw [decide_eq_true hn, Bool.not_true, if_neg Bool.false_ne_true, if_pos hsize,
      Int.ofNat_natAbs_of_nonpos (Int.le_of_lt hn), Int.neg_neg]
  · rw [decide_eq_false (Int.not_lt.mpr hn), Bool.not_false, if_pos rfl,
      Int.natAbs_of_nonneg hn]

theorem toDocument_int (n : Int) : toDocument (.number (.int n)) = .number (.ofInt n) :=
  Document.toDocument_number (Literal.wellFormed_ofInt n) (Number.text_int n)

/-- Whole numbers of 64 bits are read back. -/
theorem faithful_int {n : Int} (hlow : -2 ^ 63 ≤ n) (hhigh : n < 2 ^ 64) :
    Faithful (.number (.int n)) := by
  refine .number ?_
  rw [toDocument_int, Json.ofDocument?, Literal.value?_ofInt hlow hhigh]
  rfl

/-! ## The round trip -/

/-- A value is read back from its compact text just if it nests at most 127 arrays and objects. -/
theorem parse?_chars (j : Json) :
    parse? j.chars = if j.depth ≤ maxDepth then ofDocument? j.toDocument else none := by
  rw [parse?, Document.ofChars?_chars]
  simp only [depth_toDocument]

theorem Faithful.parse? {j : Json} (h : j.Faithful) (hdepth : j.depth ≤ maxDepth) :
    parse? j.chars = some j := by
  rw [parse?_chars, if_pos hdepth, h.ofDocument?]

end Typestrip.Json
