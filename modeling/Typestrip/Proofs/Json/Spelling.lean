import Typestrip.Proofs.Json.Literals

/-!
# Values as they are spelled

The reader reads the compact text of every value back as `Json.toDocument` spells it, up to a
character with which a number could not go on (`Document.read_chars`). So it reads the text of a value
to its end (`Document.ofChars?_chars`).
-/

namespace Typestrip.Json

/-! ## Strings -/

namespace Document

theorem hexDigit?_digitChar {n : Nat} (h : n < 16) : hexDigit? (Nat.digitChar n) = some n := by
  interval_cases n <;> rfl

theorem ofCode_toNat {c : Char} (h : c.toNat < 0x20) : Piece.ofCode c.toNat = .char c := by
  rw [Piece.ofCode, if_neg (by omega), Char.ofNat_toNat]

theorem readPieces_controlEscape {c : Char} (h : c.toNat < 0x20) (found : List Piece)
    (rest : List Char) :
    readPieces found (controlEscape c ++ rest) = readPieces (.char c :: found) rest := by
  have hcode : code? '0' '0' (Nat.digitChar (c.toNat / 16)) (Nat.digitChar (c.toNat % 16)) =
      some c.toNat := by
    have hhigh := @hexDigit?_digitChar (c.toNat / 16) (by omega)
    have hlow := @hexDigit?_digitChar (c.toNat % 16) (by omega)
    have hzero : hexDigit? '0' = some 0 := rfl
    simp only [code?, hhigh, hlow, hzero, Option.bind_eq_bind, Option.bind_some, Option.pure_def,
      Option.some.injEq]
    omega
  show readPieces found ('\\' :: 'u' :: '0' :: '0' :: _ :: _ :: rest) = _
  rw [readPieces, hcode]
  simp only
  rw [ofCode_toNat h]

/-- The reader reads an escaped character back. -/
theorem readPieces_escaped (c : Char) (found : List Piece) (rest : List Char) :
    readPieces found (escaped c ++ rest) = readPieces (.char c :: found) rest := by
  unfold escaped
  split
  next h => rw [h]; rfl
  next hquote =>
  split
  next h => rw [h]; rfl
  next hbackslash =>
  split
  next h => rw [h]; rfl
  split
  next h => rw [h]; rfl
  split
  next h => rw [h]; rfl
  split
  next h => rw [h]; rfl
  split
  next h => rw [h]; rfl
  split
  next h => exact readPieces_controlEscape h found rest
  next h =>
    rw [List.singleton_append, readPieces]
    · rw [if_neg h]
    · exact hquote
    · exact fun _ _ _ _ _ heq _ => hbackslash heq
    · exact fun _ _ heq _ => hbackslash heq

theorem readPieces_text (cs : List Char) (found : List Piece) (rest : List Char) :
    readPieces found (cs.flatMap escaped ++ '"' :: rest) =
      some (found.reverse ++ cs.map .char, rest) := by
  induction cs generalizing found with
  | nil => simp [readPieces]
  | cons c cs ih =>
    rw [List.flatMap_cons, List.append_assoc, readPieces_escaped, ih]
    simp

theorem join_chars (cs : List Char) : join (cs.map .char) = some cs := by
  induction cs with
  | nil => rfl
  | cons c cs ih =>
    rw [List.map_cons, join, ih]
    rfl

/-- The reader reads the text of a string back. -/
theorem readString_text (s : String) (rest : List Char) :
    readString (s.toList.flatMap escaped ++ '"' :: rest) = some (some s, rest) := by
  unfold readString
  rw [readPieces_text]
  show some ((join (s.toList.map .char)).map String.ofList, rest) = _
  rw [join_chars, Option.map_some, String.ofList_toList]

/-! ## Sequences -/

theorem separated_cons_cons (t u : List Char) (us : List (List Char)) :
    separated (t :: u :: us) = t ++ ',' :: separated (u :: us) := rfl

theorem skipBlanks_cons {c : Char} (h : isBlank c = false) (cs : List Char) :
    skipBlanks (c :: cs) = c :: cs := by
  rw [skipBlanks, List.dropWhile_cons, h]
  rfl

section Sequence

variable {α β : Type} {close : Char} {item : List Char → Option (α × List Char)}
  {text : β → List Char} {value : β → α}

/-- The reader of a sequence reads separated items back, if the reader of an item reads each of them
back before a comma and before the closing mark. -/
theorem readItems_separated (hblank : isBlank close = false) (hcomma : ',' ≠ close) {x : β}
    {xs : List β}
    (hitem : ∀ y ∈ x :: xs, ∀ c cs, c = ',' ∨ c = close →
      item (text y ++ c :: cs) = some (value y, c :: cs))
    (found : List α) {fuel : Nat} (hfuel : xs.length < fuel) (rest : List Char) :
    readItems close item found fuel (separated ((x :: xs).map text) ++ close :: rest) =
      some (found.reverse ++ (x :: xs).map value, rest) := by
  induction xs generalizing x found fuel with
  | nil =>
    obtain ⟨fuel, rfl⟩ := Nat.exists_eq_succ_of_ne_zero (Nat.ne_of_gt hfuel)
    have hx := hitem x List.mem_cons_self close rest (.inr rfl)
    simp only [List.map_cons, List.map_nil, separated, readItems, hx, skipBlanks_cons hblank]
    simp
  | cons y ys ih =>
    obtain ⟨fuel, rfl⟩ := Nat.exists_eq_succ_of_ne_zero (Nat.ne_of_gt (Nat.zero_lt_of_lt hfuel))
    have hx := hitem x List.mem_cons_self ','
      (separated ((y :: ys).map text) ++ close :: rest) (.inl rfl)
    have hys := ih (fun z hz => hitem z (List.mem_cons_of_mem _ hz)) (value x :: found)
      (Nat.lt_of_succ_lt_succ hfuel)
    have hblank' : isBlank ',' = false := rfl
    rw [List.map_cons] at hx hys
    simp only [List.map_cons, separated, List.append_assoc, List.cons_append, readItems, hx,
      skipBlanks_cons hblank', if_neg hcomma, if_pos]
    rw [hys]
    simp

theorem readSequence_separated (hblank : isBlank close = false) (hcomma : ',' ≠ close)
    {xs : List β}
    (hitem : ∀ y ∈ xs, ∀ c cs, c = ',' ∨ c = close →
      item (text y ++ c :: cs) = some (value y, c :: cs))
    (hhead : ∀ y ∈ xs, ∃ c cs, text y = c :: cs ∧ isBlank c = false ∧ c ≠ close)
    {fuel : Nat} (hfuel : xs.length ≤ fuel) (rest : List Char) :
    readSequence close item fuel (separated (xs.map text) ++ close :: rest) =
      some (xs.map value, rest) := by
  cases xs with
  | nil =>
    show readSequence close item fuel (close :: rest) = _
    rw [readSequence, skipBlanks_cons hblank]
    exact if_pos rfl
  | cons x xs =>
    obtain ⟨c, cs, hx, hc, hne⟩ := hhead x List.mem_cons_self
    have hread := readItems_separated hblank hcomma hitem [] hfuel rest
    obtain ⟨tail, htail⟩ : ∃ tail, separated ((x :: xs).map text) ++ close :: rest = c :: tail := by
      cases xs with
      | nil => exact ⟨_, by rw [List.map_cons, List.map_nil, separated, hx]; rfl⟩
      | cons y ys => exact ⟨_, by rw [List.map_cons, List.map_cons, separated_cons_cons, hx]; rfl⟩
    rw [htail] at hread ⊢
    rw [readSequence, skipBlanks_cons hc]
    exact (if_neg hne).trans hread

end Sequence

/-! ## Lengths -/

theorem length_le_separated {t : List Char} {ts : List (List Char)} (h : t ∈ ts) :
    t.length ≤ (separated ts).length := by
  induction ts with
  | nil => cases h
  | cons u us ih =>
    cases us with
    | nil =>
      rw [List.mem_singleton.mp h]
      exact Nat.le_refl _
    | cons v vs =>
      rw [separated_cons_cons, List.length_append, List.length_cons]
      obtain rfl | h := List.mem_cons.mp h
      · omega
      · have := ih h
        omega

theorem length_le_separated_add (ts : List (List Char)) : ts.length ≤ (separated ts).length + 1 := by
  induction ts with
  | nil => exact Nat.zero_le _
  | cons u us ih =>
    cases us with
    | nil => simp
    | cons v vs =>
      simp only [separated_cons_cons, List.length_append, List.length_cons] at ih ⊢
      omega

/-! ## Values -/

theorem itemChars_eq_map (items : List Json) : itemChars items = items.map chars := by
  induction items with
  | nil => rfl
  | cons j js ih => rw [itemChars, ih, List.map_cons]

theorem fieldChars_eq_map (fields : List (String × Json)) :
    fieldChars fields = fields.map fun f => stringText f.1 ++ ':' :: f.2.chars := by
  induction fields with
  | nil => rfl
  | cons f fs ih =>
    obtain ⟨name, j⟩ := f
    rw [fieldChars, ih, List.map_cons]

theorem toDocuments_eq_map (items : List Json) : toDocuments items = items.map toDocument := by
  induction items with
  | nil => rfl
  | cons j js ih => rw [toDocuments, ih, List.map_cons]

theorem fieldsToDocuments_eq_map (fields : List (String × Json)) :
    fieldsToDocuments fields = fields.map fun f => (some f.1, f.2.toDocument) := by
  induction fields with
  | nil => rfl
  | cons f fs ih =>
    obtain ⟨name, j⟩ := f
    rw [fieldsToDocuments, ih, List.map_cons]

theorem toDocument_number {n : Number} {l : Literal} (hl : l.WellFormed) (htext : n.text = l.chars) :
    toDocument (.number n) = .number l := by
  have hread : read 1 (l.chars ++ []) = some (.number l, []) := read_literal hl endsNumber_nil
  rw [List.append_nil] at hread
  rw [toDocument, htext, hread]

theorem read_number (n : Number) {fuel : Nat} {rest : List Char} (hrest : EndsNumber rest) :
    read (fuel + 1) (n.text ++ rest) = some (toDocument (.number n), rest) := by
  obtain ⟨l, hl, htext⟩ | htext := n.exists_literal
  · rw [toDocument_number hl htext, htext]
    exact read_literal hl hrest
  · rw [toDocument, htext]
    rfl

/-- The text of a value begins with a character of its own. -/
theorem chars_head (j : Json) :
    ∃ c cs, j.chars = c :: cs ∧ isBlank c = false ∧ c ≠ ']' ∧ c ≠ '\x7d' := by
  cases j with
  | null => exact ⟨_, _, rfl, by decide, by decide, by decide⟩
  | bool b => cases b <;> exact ⟨_, _, rfl, by decide, by decide, by decide⟩
  | string s => exact ⟨_, _, rfl, by decide, by decide, by decide⟩
  | array items => exact ⟨_, _, rfl, by decide, by decide, by decide⟩
  | object fields => exact ⟨_, _, rfl, by decide, by decide, by decide⟩
  | number n =>
    obtain ⟨l, hl, htext⟩ | htext := n.exists_literal
    · obtain ⟨d, ds, hd⟩ := List.exists_cons_of_ne_nil hl.whole.ne_nil
      have hdigit : d.isDigit := hl.whole.digits d (hd ▸ List.mem_cons_self)
      show ∃ c cs, n.text = c :: cs ∧ _
      rw [htext, Literal.chars, Literal.unsignedChars, hd]
      cases l.negative with
      | true => exact ⟨_, _, rfl, by decide, by decide, by decide⟩
      | false =>
        refine ⟨d, _, rfl, isBlank_of_isDigit hdigit, ?_, ?_⟩ <;> rintro rfl <;> cases hdigit
    · exact ⟨_, _, htext, by decide, by decide, by decide⟩

theorem endsNumber_cons {c : Char} (h : c = ',' ∨ c = ']' ∨ c = '\x7d') (rest : List Char) :
    EndsNumber (c :: rest) := by
  rintro c' rest' ⟨⟩
  obtain rfl | rfl | rfl := h <;> decide

/-- The reader of a field reads the text of a field back, if the reader of its value reads that
back. -/
theorem readField_text {value : List Char → Option (Document × List Char)} (name : String)
    {j : Json} {rest : List Char} (h : value (j.chars ++ rest) = some (j.toDocument, rest)) :
    readField value (stringText name ++ ':' :: j.chars ++ rest) =
      some ((some name, j.toDocument), rest) := by
  have hcolon : skipBlanks (':' :: (j.chars ++ rest)) = ':' :: (j.chars ++ rest) :=
    skipBlanks_cons rfl _
  have hname : readString (name.toList.flatMap escaped ++ '"' :: ':' :: (j.chars ++ rest)) =
      some (some name, ':' :: (j.chars ++ rest)) := readString_text name _
  have htext : stringText name ++ ':' :: j.chars ++ rest =
      '"' :: (name.toList.flatMap escaped ++ '"' :: ':' :: (j.chars ++ rest)) := by
    simp [stringText]
  rw [htext, readField, skipBlanks_cons rfl]
  simp only [hname, Option.bind_eq_bind, Option.bind_some]
  rw [hcolon]
  simp only [h, Option.bind_some]
  rfl

/-- The reader reads the text of a value back. -/
theorem read_chars : ∀ (j : Json) {fuel : Nat}, j.chars.length < fuel → ∀ {rest : List Char},
    EndsNumber rest → read fuel (j.chars ++ rest) = some (j.toDocument, rest)
  | .null, fuel + 1, _, _, _ => rfl
  | .bool true, fuel + 1, _, _, _ => rfl
  | .bool false, fuel + 1, _, _, _ => rfl
  | .number n, fuel + 1, _, _, hrest => read_number n hrest
  | .string s, fuel + 1, _, rest, _ => by
    show (readString (s.toList.flatMap escaped ++ ['"'] ++ rest)).map _ = _
    rw [List.append_assoc, List.singleton_append, readString_text]
    rfl
  | .array items, fuel + 1, hfuel, rest, _ => by
    have hlength : (Json.array items).chars.length = (separated (items.map chars)).length + 2 := by
      rw [chars, itemChars_eq_map]
      simp
    have hcount := length_le_separated_add (items.map chars)
    rw [List.length_map] at hcount
    have hitem : ∀ j ∈ items, ∀ c cs, c = ',' ∨ c = ']' →
        read fuel (j.chars ++ c :: cs) = some (j.toDocument, c :: cs) := by
      intro j hj c cs hc
      have hle := length_le_separated (List.mem_map_of_mem (f := chars) hj)
      exact read_chars j (by omega) (endsNumber_cons (hc.imp_right .inl) cs)
    have hhead : ∀ j ∈ items, ∃ c cs, j.chars = c :: cs ∧ isBlank c = false ∧ c ≠ ']' := by
      intro j _
      obtain ⟨c, cs, hcs, hblank, hne, -⟩ := chars_head j
      exact ⟨c, cs, hcs, hblank, hne⟩
    have hread := readSequence_separated (by decide) (by decide) hitem hhead
      (show items.length ≤ fuel by omega) rest
    show (readSequence ']' (read fuel) fuel
      (separated (itemChars items) ++ [']'] ++ rest)).map _ = _
    rw [itemChars_eq_map, List.append_assoc, List.singleton_append, hread, toDocument,
      toDocuments_eq_map]
    rfl
  | .object fields, fuel + 1, hfuel, rest, _ => by
    let text (f : String × Json) : List Char := stringText f.1 ++ ':' :: f.2.chars
    have hlength : (Json.object fields).chars.length = (separated (fields.map text)).length + 2 := by
      rw [chars, fieldChars_eq_map]
      simp [text]
    have hcount := length_le_separated_add (fields.map text)
    rw [List.length_map] at hcount
    have hitem : ∀ f ∈ fields, ∀ c cs, c = ',' ∨ c = '\x7d' →
        readField (read fuel) (text f ++ c :: cs) = some ((some f.1, f.2.toDocument), c :: cs) := by
      intro f hf c cs hc
      have hle := length_le_separated (List.mem_map_of_mem (f := text) hf)
      have htext : f.2.chars.length ≤ (text f).length := by
        simp [text]
        omega
      exact readField_text f.1
        (read_chars f.2 (by omega) (endsNumber_cons (hc.imp_right .inr) cs))
    have hhead : ∀ f ∈ fields, ∃ c cs, text f = c :: cs ∧ isBlank c = false ∧ c ≠ '\x7d' :=
      fun f _ => ⟨'"', _, rfl, rfl, by decide⟩
    have hread := readSequence_separated (by decide) (by decide) hitem hhead
      (show fields.length ≤ fuel by omega) rest
    show (readSequence '\x7d' (readField (read fuel)) fuel
      (separated (fieldChars fields) ++ ['\x7d'] ++ rest)).map _ = _
    rw [fieldChars_eq_map, List.append_assoc, List.singleton_append, hread, toDocument,
      fieldsToDocuments_eq_map]
    rfl
termination_by j => sizeOf j
decreasing_by
  · have := List.sizeOf_lt_of_mem hj
    simp
    omega
  · have := List.sizeOf_lt_of_mem hf
    cases f
    simp at this ⊢
    omega

end Document

/-- The reader reads the text of a value to its end. -/
theorem Document.ofChars?_chars (j : Json) : Document.ofChars? j.chars = some j.toDocument := by
  have hread := read_chars j (Nat.lt_succ_self j.chars.length) endsNumber_nil
  rw [List.append_nil] at hread
  rw [ofChars?, hread]
  rfl

end Typestrip.Json
