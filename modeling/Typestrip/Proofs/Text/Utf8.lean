import Typestrip.Text.Utf8

/-!
# Reading back UTF-8

A text is read back from its UTF-8 form (`decode_toUTF8`), character by character: the reader goes over
the bytes of a character and has then read that character, whatever comes after them
(`decodeFrom_char`).
-/

namespace Typestrip.Utf8

/-! ## Bytes -/

theorem toNat_ofNat {n : Nat} (h : n < 256) : (UInt8.ofNat n).toNat = n := by
  rw [UInt8.toNat_ofNat']
  exact Nat.mod_eq_of_lt h

theorem between_iff {low high b : UInt8} :
    (decide (low ≤ b) && decide (b ≤ high)) = true ↔
      low.toNat ≤ b.toNat ∧ b.toNat ≤ high.toNat := by
  rw [Bool.and_eq_true, decide_eq_true_eq, decide_eq_true_eq]
  rfl

/-- The byte that goes on with a character, for its lowest six bits. -/
def continuation (n : Nat) : UInt8 := .ofNat (n % 64 + 128)

theorem toNat_continuation (n : Nat) : (continuation n).toNat = n % 64 + 128 := by
  refine toNat_ofNat ?_
  omega

theorem payload_continuation (n : Nat) : payload (continuation n) = n % 64 := by
  rw [payload, toNat_continuation]
  omega

theorem isContinuation_continuation (n : Nat) : isContinuation (continuation n) = true := by
  rw [isContinuation, between_iff, toNat_continuation]
  show 128 ≤ n % 64 + 128 ∧ n % 64 + 128 ≤ 191
  omega

/-- The form of a character of three bytes is not overlong, and the character is no surrogate. -/
theorem secondOfThree_continuation {n : Nat} (hlow : 0x800 ≤ n)
    (hscalar : n < 0xD800 ∨ 0xDFFF < n) (hhigh : n < 0x10000) :
    secondOfThree (.ofNat (n / 4096 + 0xE0)) (continuation (n / 64)) = true := by
  have hfirst : (UInt8.ofNat (n / 4096 + 0xE0)).toNat = n / 4096 + 0xE0 := toNat_ofNat (by omega)
  have hsecond := toNat_continuation (n / 64)
  unfold secondOfThree
  split
  next h =>
    have h : n / 4096 + 0xE0 = 0xE0 := hfirst.symm.trans (congrArg UInt8.toNat h)
    rw [between_iff, hsecond]
    show 0xA0 ≤ n / 64 % 64 + 128 ∧ n / 64 % 64 + 128 ≤ 0xBF
    omega
  split
  next h =>
    have h : n / 4096 + 0xE0 = 0xED := hfirst.symm.trans (congrArg UInt8.toNat h)
    rw [between_iff, hsecond]
    show 0x80 ≤ n / 64 % 64 + 128 ∧ n / 64 % 64 + 128 ≤ 0x9F
    omega
  exact isContinuation_continuation _

/-- The form of a character of four bytes is not overlong, and the character is not past the last
one. -/
theorem secondOfFour_continuation {n : Nat} (hlow : 0x10000 ≤ n) (hhigh : n < 0x110000) :
    secondOfFour (.ofNat (n / 262144 + 0xF0)) (continuation (n / 4096)) = true := by
  have hfirst : (UInt8.ofNat (n / 262144 + 0xF0)).toNat = n / 262144 + 0xF0 :=
    toNat_ofNat (by omega)
  have hsecond := toNat_continuation (n / 4096)
  unfold secondOfFour
  split
  next h =>
    have h : n / 262144 + 0xF0 = 0xF0 := hfirst.symm.trans (congrArg UInt8.toNat h)
    rw [between_iff, hsecond]
    show 0x90 ≤ n / 4096 % 64 + 128 ∧ n / 4096 % 64 + 128 ≤ 0xBF
    omega
  split
  next h =>
    have h : n / 262144 + 0xF0 = 0xF4 := hfirst.symm.trans (congrArg UInt8.toNat h)
    rw [between_iff, hsecond]
    show 0x80 ≤ n / 4096 % 64 + 128 ∧ n / 4096 % 64 + 128 ≤ 0x8F
    omega
  exact isContinuation_continuation _

/-! ## Characters -/

section Lead

variable {n : Nat}

theorem not_lt_of_le_toNat {a b : UInt8} (h : b.toNat ≤ a.toNat) : ¬ a < b := by
  rw [UInt8.lt_iff_toNat_lt]
  omega

theorem not_between_of_lt {low high b : UInt8} (h : high.toNat < b.toNat) :
    ¬ (decide (low ≤ b) && decide (b ≤ high)) = true := by
  rw [between_iff]
  omega

variable (index : Nat) (found : List Char) (rest : List UInt8)

theorem decodeFrom_one (h : n < 0x80) :
    decodeFrom index found (.ofNat n :: rest) =
      decodeFrom (index + 1) (Char.ofNat n :: found) rest := by
  have hlead : (UInt8.ofNat n).toNat = n := toNat_ofNat (by omega)
  have hone : UInt8.ofNat n < 0x80 := by
    rw [UInt8.lt_iff_toNat_lt, hlead]
    exact h
  rw [decodeFrom.eq_def]
  simp only
  rw [if_pos hone, hlead]

theorem decodeFrom_two (hlow : 0x80 ≤ n) (hhigh : n < 0x800) :
    decodeFrom index found (.ofNat (n / 64 + 0xC0) :: continuation n :: rest) =
      decodeFrom (index + 2) (Char.ofNat n :: found) rest := by
  have hlead : (UInt8.ofNat (n / 64 + 0xC0)).toNat = n / 64 + 0xC0 := toNat_ofNat (by omega)
  generalize UInt8.ofNat (n / 64 + 0xC0) = a at hlead
  have hone : ¬ a < 0x80 := not_lt_of_le_toNat (show 0x80 ≤ a.toNat by omega)
  have htwo : (decide (0xC2 ≤ a) && decide (a ≤ 0xDF)) = true :=
    between_iff.mpr (show 0xC2 ≤ a.toNat ∧ a.toNat ≤ 0xDF by omega)
  have hcode : (a.toNat - 0xC0) * 64 + n % 64 = n := by omega
  rw [decodeFrom.eq_def]
  simp only
  rw [if_neg hone, if_pos htwo, if_pos (isContinuation_continuation n), payload_continuation, hcode]

theorem decodeFrom_three (hlow : 0x800 ≤ n) (hscalar : n < 0xD800 ∨ 0xDFFF < n)
    (hhigh : n < 0x10000) :
    decodeFrom index found
        (.ofNat (n / 4096 + 0xE0) :: continuation (n / 64) :: continuation n :: rest) =
      decodeFrom (index + 3) (Char.ofNat n :: found) rest := by
  have hsecond := secondOfThree_continuation hlow hscalar hhigh
  have hlead : (UInt8.ofNat (n / 4096 + 0xE0)).toNat = n / 4096 + 0xE0 := toNat_ofNat (by omega)
  generalize UInt8.ofNat (n / 4096 + 0xE0) = a at hlead hsecond
  have hone : ¬ a < 0x80 := not_lt_of_le_toNat (show 0x80 ≤ a.toNat by omega)
  have htwo : ¬ (decide (0xC2 ≤ a) && decide (a ≤ 0xDF)) = true :=
    not_between_of_lt (show 0xDF < a.toNat by omega)
  have hthree : (decide (0xE0 ≤ a) && decide (a ≤ 0xEF)) = true :=
    between_iff.mpr (show 0xE0 ≤ a.toNat ∧ a.toNat ≤ 0xEF by omega)
  have hcode : ((a.toNat - 0xE0) * 64 + n / 64 % 64) * 64 + n % 64 = n := by omega
  rw [decodeFrom.eq_def]
  simp only
  rw [if_neg hone, if_neg htwo, if_pos hthree, if_pos hsecond,
    if_pos (isContinuation_continuation n), payload_continuation, payload_continuation, hcode]

theorem decodeFrom_four (hlow : 0x10000 ≤ n) (hhigh : n < 0x110000) :
    decodeFrom index found (.ofNat (n / 262144 + 0xF0) :: continuation (n / 4096) ::
        continuation (n / 64) :: continuation n :: rest) =
      decodeFrom (index + 4) (Char.ofNat n :: found) rest := by
  have hsecond := secondOfFour_continuation hlow hhigh
  have hlead : (UInt8.ofNat (n / 262144 + 0xF0)).toNat = n / 262144 + 0xF0 :=
    toNat_ofNat (by omega)
  generalize UInt8.ofNat (n / 262144 + 0xF0) = a at hlead hsecond
  have hone : ¬ a < 0x80 := not_lt_of_le_toNat (show 0x80 ≤ a.toNat by omega)
  have htwo : ¬ (decide (0xC2 ≤ a) && decide (a ≤ 0xDF)) = true :=
    not_between_of_lt (show 0xDF < a.toNat by omega)
  have hthree : ¬ (decide (0xE0 ≤ a) && decide (a ≤ 0xEF)) = true :=
    not_between_of_lt (show 0xEF < a.toNat by omega)
  have hfour : (decide (0xF0 ≤ a) && decide (a ≤ 0xF4)) = true :=
    between_iff.mpr (show 0xF0 ≤ a.toNat ∧ a.toNat ≤ 0xF4 by omega)
  have hcode : (((a.toNat - 0xF0) * 64 + n / 4096 % 64) * 64 + n / 64 % 64) * 64 + n % 64 = n := by
    omega
  rw [decodeFrom.eq_def]
  simp only
  rw [if_neg hone, if_neg htwo, if_neg hthree, if_pos hfour, if_pos hsecond,
    if_pos (isContinuation_continuation _), if_pos (isContinuation_continuation n),
    payload_continuation, payload_continuation, payload_continuation, hcode]

end Lead

/-- The reader goes over the bytes of a character. -/
theorem decodeFrom_char (index : Nat) (found : List Char) (c : Char) (rest : List UInt8) :
    decodeFrom index found (String.utf8EncodeChar c ++ rest) =
      decodeFrom (index + c.utf8Size) (c :: found) rest := by
  have hc : Char.ofNat c.val.toNat = c := Char.ofNat_toNat c
  have hvalid : c.val.toNat < 0xD800 ∨ 0xDFFF < c.val.toNat ∧ c.val.toNat < 0x110000 := c.valid
  rw [← String.length_utf8EncodeChar]
  unfold String.utf8EncodeChar
  dsimp only
  split
  next hone =>
    have h := decodeFrom_one index found rest (Nat.lt_succ_of_le hone)
    rwa [hc] at h
  next hone =>
  split
  next htwo =>
    have hlead : c.val.toNat / 64 % 32 = c.val.toNat / 64 := by omega
    have h := decodeFrom_two index found rest (Nat.lt_of_not_le hone) (Nat.lt_succ_of_le htwo)
    rw [hc] at h
    rw [hlead]
    exact h
  next htwo =>
  split
  next hthree =>
    have hlead : c.val.toNat / 4096 % 16 = c.val.toNat / 4096 := by omega
    have h := decodeFrom_three index found rest (Nat.lt_of_not_le htwo) (by omega)
      (Nat.lt_succ_of_le hthree)
    rw [hc] at h
    rw [hlead]
    exact h
  next hthree =>
    have hlead : c.val.toNat / 262144 % 8 = c.val.toNat / 262144 := by omega
    have h := decodeFrom_four index found rest (Nat.lt_of_not_le hthree) (by omega)
    rw [hc] at h
    rw [hlead]
    exact h

/-! ## Texts -/

theorem decodeFrom_chars (index : Nat) (found cs : List Char) :
    decodeFrom index found (cs.flatMap String.utf8EncodeChar) = .ok (found.reverse ++ cs) := by
  induction cs generalizing index found with
  | nil =>
    rw [List.append_nil]
    rfl
  | cons c cs ih =>
    rw [List.flatMap_cons, decodeFrom_char, ih, List.reverse_cons, List.append_assoc]
    rfl

theorem toList_loop (bytes : ByteArray) (i : Nat) (found : List UInt8) :
    ByteArray.toList.loop bytes i found = found.reverse ++ bytes.data.toList.drop i := by
  fun_induction ByteArray.toList.loop bytes i found with
  | case1 i found h ih =>
    have hi : i < bytes.data.toList.length := h
    rw [ih, List.drop_eq_getElem_cons hi]
    simp [ByteArray.get!, h]
  | case2 i found h =>
    have hi : bytes.data.toList.length ≤ i := Nat.le_of_not_lt h
    rw [List.drop_eq_nil_of_le hi, List.append_nil]

theorem encode_eq (s : String) : encode s = s.toUTF8.data.toList := by
  rw [encode, ByteArray.toList, toList_loop]
  rfl

/-- The bytes of a text are those of its characters. -/
theorem encode_eq_flatMap (s : String) : encode s = s.toList.flatMap String.utf8EncodeChar := by
  have hbytes : s.toUTF8 = (s.toList.flatMap String.utf8EncodeChar).toByteArray :=
    String.utf8Encode_toList.symm
  rw [encode_eq, hbytes, List.toList_data_toByteArray]

/-- A text is read back from its UTF-8 form. -/
theorem decode_toUTF8 (s : String) : decode (encode s) = .ok s.toList := by
  rw [encode_eq_flatMap, decode, decodeFrom_chars]
  rfl

/-! ## Texts of ASCII characters -/

theorem decodeFrom_ascii (index : Nat) (found : List Char) {bytes : List UInt8}
    (h : ∀ b ∈ bytes, b < 0x80) :
    decodeFrom index found bytes = .ok (found.reverse ++ bytes.map fun b => Char.ofNat b.toNat) := by
  induction bytes generalizing index found with
  | nil =>
    rw [List.map_nil, List.append_nil]
    rfl
  | cons b bytes ih =>
    obtain ⟨hb, hbytes⟩ := List.forall_mem_cons.mp h
    have hone := decodeFrom_one index found bytes (UInt8.lt_iff_toNat_lt.mp hb)
    rw [UInt8.ofNat_toNat] at hone
    rw [hone, ih _ _ hbytes, List.reverse_cons, List.append_assoc, List.map_cons]
    rfl

/-- In a text of ASCII characters every byte is a character. -/
theorem toList_of_ascii {s : String} (h : ∀ b ∈ s.toUTF8.data.toList, b < 0x80) :
    s.toList = s.toUTF8.data.toList.map fun b => Char.ofNat b.toNat := by
  have hdecode := decode_toUTF8 s
  rw [encode_eq, decode, decodeFrom_ascii 0 [] h] at hdecode
  exact (Except.ok.inj hdecode).symm

end Typestrip.Utf8
