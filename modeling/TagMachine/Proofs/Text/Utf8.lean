import Mathlib.Tactic
import TagMachine.Text.Utf8

set_option autoImplicit false

/-! # Reading back UTF-8

The bytes of a text are read as that text (`ofUtf8_toUtf8`): nothing in them is replaced. The reader
is followed through one character after another; a character has one to four bytes. Bytes below
`0x80` are the ASCII characters themselves, and no part of any other (`mem_toUtf8_iff`).
-/

namespace TagMachine.Text

/-! ## The first bytes of characters -/

theorem toNat_ofNat_of_lt {n : Nat} (h : n < 256) : (UInt8.ofNat n).toNat = n := by
  simp [Nat.mod_eq_of_lt h]

theorem isContinuation_iff (b : UInt8) :
    isContinuation b = true ↔ 0x80 ≤ b.toNat ∧ b.toNat ≤ 0xbf := by
  simp [isContinuation, UInt8.le_iff_toNat_le]

theorem toNat_low (n : Nat) : (UInt8.ofNat (n % 64 + 0x80)).toNat = n % 64 + 0x80 :=
  toNat_ofNat_of_lt (by omega)

theorem isContinuation_low (n : Nat) : isContinuation (UInt8.ofNat (n % 64 + 0x80)) = true := by
  rw [isContinuation_iff, toNat_low]
  omega

theorem decodeHead_one {b : UInt8} (rest : List UInt8) (hb : b.toNat ≤ 0x7f) :
    decodeHead b rest = (Char.ofNat b.toNat, 0) := by
  have hlt : b < 0x80 := by
    rw [UInt8.lt_iff_toNat_lt]
    simp only [UInt8.reduceToNat]
    omega
  simp [decodeHead, hlt]

theorem decodeHead_two {b c : UInt8} (rest : List UInt8)
    (hb : 0xc2 ≤ b.toNat ∧ b.toNat ≤ 0xdf) (hc : isContinuation c = true) :
    decodeHead b (c :: rest) = (assemble (b.toNat % 32) [c], 1) := by
  have hascii : ¬b < 0x80 := by simp [UInt8.lt_iff_toNat_lt]; omega
  have hrange : 0xc2 ≤ b ∧ b ≤ 0xdf := by simpa [UInt8.le_iff_toNat_le] using hb
  simp [decodeHead, hascii, hrange, hc]

theorem decodeHead_three {b c d : UInt8} (rest : List UInt8)
    (hb : 0xe0 ≤ b.toNat ∧ b.toNat ≤ 0xef) (hc : secondAllowed b c = true)
    (hd : isContinuation d = true) :
    decodeHead b (c :: d :: rest) = (assemble (b.toNat % 16) [c, d], 2) := by
  have hascii : ¬b < 0x80 := by simp [UInt8.lt_iff_toNat_lt]; omega
  have htwo : ¬b ≤ 0xdf := by simp [UInt8.le_iff_toNat_le]; omega
  have hrange : 0xe0 ≤ b ∧ b ≤ 0xef := by simpa [UInt8.le_iff_toNat_le] using hb
  simp [decodeHead, hascii, htwo, hrange, hc, hd]

theorem decodeHead_four {b c d e : UInt8} (rest : List UInt8)
    (hb : 0xf0 ≤ b.toNat ∧ b.toNat ≤ 0xf4) (hc : secondAllowed b c = true)
    (hd : isContinuation d = true) (he : isContinuation e = true) :
    decodeHead b (c :: d :: e :: rest) = (assemble (b.toNat % 8) [c, d, e], 3) := by
  have hascii : ¬b < 0x80 := by simp [UInt8.lt_iff_toNat_lt]; omega
  have htwo : ¬b ≤ 0xdf := by simp [UInt8.le_iff_toNat_le]; omega
  have hthree : ¬b ≤ 0xef := by simp [UInt8.le_iff_toNat_le]; omega
  have hrange : 0xf0 ≤ b ∧ b ≤ 0xf4 := by simpa [UInt8.le_iff_toNat_le] using hb
  simp [decodeHead, hascii, htwo, hthree, hrange, hc, hd, he]

/-- What a second byte may be, in numbers. -/
theorem secondAllowed_iff (b c : UInt8) :
    secondAllowed b c = true ↔
      0x80 ≤ c.toNat ∧ c.toNat ≤ 0xbf ∧ (b.toNat = 0xe0 → 0xa0 ≤ c.toNat) ∧
        (b.toNat = 0xed → c.toNat ≤ 0x9f) ∧ (b.toNat = 0xf0 → 0x90 ≤ c.toNat) ∧
        (b.toNat = 0xf4 → c.toNat ≤ 0x8f) := by
  unfold secondAllowed isContinuation
  simp only [beq_iff_eq, ← UInt8.toNat_inj, UInt8.le_iff_toNat_le, UInt8.reduceToNat]
  split_ifs <;> simp only [Bool.and_eq_true, decide_eq_true_eq] <;> omega

/-! ## Whole characters -/

theorem decodeFrom_encodeChar (c : Char) (rest : List UInt8) :
    decodeFrom 0 (String.utf8EncodeChar c ++ rest) = c :: decodeFrom 0 rest := by
  have hvalid : c.toNat < 0xd800 ∨ 0xdfff < c.toNat ∧ c.toNat < 0x110000 := c.valid
  have hofNat : Char.ofNat c.toNat = c := Char.ofNat_toNat c
  unfold String.utf8EncodeChar
  simp only
  generalize hv : c.val.toNat = v
  have hv' : c.toNat = v := hv
  rw [hv'] at hvalid hofNat
  split_ifs with h1 h2 h3
  · have hb : (UInt8.ofNat v).toNat = v := toNat_ofNat_of_lt (by omega)
    simp only [List.cons_append, List.nil_append, decodeFrom]
    rw [decodeHead_one rest (by omega), hb, hofNat]
  · have hb : (UInt8.ofNat (v / 64 % 0x20 + 0xc0)).toNat = v / 64 % 0x20 + 0xc0 :=
      toNat_ofNat_of_lt (by omega)
    have hsum : (v / 64 % 0x20 + 0xc0) % 32 * 64 + (v % 64 + 0x80) % 64 = v := by omega
    simp only [List.cons_append, List.nil_append, decodeFrom]
    rw [decodeHead_two rest (by omega) (isContinuation_low _), assemble]
    simp only [List.foldl, hb, toNat_low]
    rw [hsum, hofNat]
    rfl
  · have hb : (UInt8.ofNat (v / 4096 % 0x10 + 0xe0)).toNat = v / 4096 % 0x10 + 0xe0 :=
      toNat_ofNat_of_lt (by omega)
    -- Neither an overlong form nor a surrogate.
    have hsecond : secondAllowed (UInt8.ofNat (v / 4096 % 0x10 + 0xe0))
        (UInt8.ofNat (v / 64 % 64 + 0x80)) = true := by
      rw [secondAllowed_iff, hb, toNat_low]
      omega
    have hsum : ((v / 4096 % 0x10 + 0xe0) % 16 * 64 + (v / 64 % 64 + 0x80) % 64) * 64 +
        (v % 64 + 0x80) % 64 = v := by omega
    simp only [List.cons_append, List.nil_append, decodeFrom]
    rw [decodeHead_three rest (by omega) hsecond (isContinuation_low _), assemble]
    simp only [List.foldl, hb, toNat_low]
    rw [hsum, hofNat]
    rfl
  · have hb : (UInt8.ofNat (v / 262144 % 0x08 + 0xf0)).toNat = v / 262144 % 0x08 + 0xf0 :=
      toNat_ofNat_of_lt (by omega)
    have hsecond : secondAllowed (UInt8.ofNat (v / 262144 % 0x08 + 0xf0))
        (UInt8.ofNat (v / 4096 % 64 + 0x80)) = true := by
      rw [secondAllowed_iff, hb, toNat_low]
      omega
    have hsum : (((v / 262144 % 0x08 + 0xf0) % 8 * 64 + (v / 4096 % 64 + 0x80) % 64) * 64 +
        (v / 64 % 64 + 0x80) % 64) * 64 + (v % 64 + 0x80) % 64 = v := by omega
    simp only [List.cons_append, List.nil_append, decodeFrom]
    rw [decodeHead_four rest (by omega) hsecond (isContinuation_low _) (isContinuation_low _),
      assemble]
    simp only [List.foldl, hb, toNat_low]
    rw [hsum, hofNat]
    rfl

/-! ## Texts -/

theorem byteArray_toList_loop (b : ByteArray) (i : Nat) (r : List UInt8) :
    ByteArray.toList.loop b i r = r.reverse ++ b.data.toList.drop i := by
  induction h : b.size - i generalizing i r with
  | zero =>
    have hlen : b.data.toList.length ≤ i := by
      simp only [Array.length_toList, ByteArray.size_data]
      omega
    rw [ByteArray.toList.loop, if_neg (by omega), List.drop_eq_nil_of_le hlen, List.append_nil]
  | succ n ih =>
    have hlen : i < b.data.toList.length := by
      simp only [Array.length_toList, ByteArray.size_data]
      omega
    have hget : b.get! i = b.data.toList[i] := by
      rw [ByteArray.get!, getElem!_pos b.data i (by simpa using hlen), Array.getElem_toList]
    rw [ByteArray.toList.loop, if_pos (by omega), ih (i + 1) _ (by omega),
      List.drop_eq_getElem_cons hlen, hget]
    simp

theorem toUtf8_eq_flatMap (s : String) : toUtf8 s = s.toList.flatMap String.utf8EncodeChar := by
  have hbytes : s.toUTF8 = (s.toList.flatMap String.utf8EncodeChar).toByteArray := by
    rw [String.toUTF8_eq_toByteArray, ← String.utf8Encode_toList, List.utf8Encode]
  rw [toUtf8, hbytes, ByteArray.toList, byteArray_toList_loop, List.toList_data_toByteArray]
  rfl

theorem decodeFrom_flatMap (cs : List Char) :
    decodeFrom 0 (cs.flatMap String.utf8EncodeChar) = cs := by
  induction cs with
  | nil => rfl
  | cons c cs ih => rw [List.flatMap_cons, decodeFrom_encodeChar, ih]

/-- The bytes of a text are read as the text. -/
theorem ofUtf8_toUtf8 (s : String) : ofUtf8 (toUtf8 s) = s := by
  rw [ofUtf8, toUtf8_eq_flatMap, decodeFrom_flatMap, String.ofList_toList]

/-! ## Bytes and ASCII characters -/

/-- What holds of the bytes of all numbers holds of all bytes. -/
theorem forall_byte {p : UInt8 → Prop} (h : ∀ n < 256, p (UInt8.ofNat n)) (b : UInt8) : p b := by
  rw [← UInt8.ofNat_toNat (x := b)]
  exact h b.toNat b.toNat_lt

theorem utf8EncodeChar_ascii {c : Char} (h : c.toNat < 0x80) :
    String.utf8EncodeChar c = [UInt8.ofNat c.toNat] :=
  if_pos (Nat.le_of_lt_succ h)

/-- A character that is not ASCII has no byte that is. -/
theorem le_of_mem_utf8EncodeChar {c : Char} (hc : 0x80 ≤ c.toNat) {b : UInt8}
    (hb : b ∈ String.utf8EncodeChar c) : 0x80 ≤ b.toNat := by
  have hlow (n k m : Nat) (hm : m ≠ 0) (hk : 0x80 ≤ k) (hsum : m + k ≤ 256) :
      0x80 ≤ (UInt8.ofNat (n % m + k)).toNat := by
    have hmod : n % m < m := Nat.mod_lt n (Nat.pos_of_ne_zero hm)
    rw [toNat_ofNat_of_lt (by omega)]
    omega
  unfold String.utf8EncodeChar at hb
  simp only at hb
  rw [if_neg (by exact Nat.not_le.2 hc)] at hb
  split_ifs at hb with htwo hthree
  all_goals
    simp only [List.mem_cons, List.not_mem_nil, or_false] at hb
    rcases hb with rfl | rfl | rfl | rfl
  all_goals exact hlow _ _ _ (by decide) (by decide) (by decide)

/-- An ASCII byte in a character is that character. -/
theorem eq_of_mem_utf8EncodeChar {c d : Char} (hc : c.toNat < 0x80)
    (h : UInt8.ofNat c.toNat ∈ String.utf8EncodeChar d) : d = c := by
  have hbyte : (UInt8.ofNat c.toNat).toNat = c.toNat := toNat_ofNat_of_lt (by omega)
  by_cases hd : d.toNat < 0x80
  · rw [utf8EncodeChar_ascii hd, List.mem_singleton] at h
    have hnat := congrArg UInt8.toNat h
    rw [hbyte, toNat_ofNat_of_lt (by omega)] at hnat
    exact Char.toNat_inj.1 hnat.symm
  · have hlarge := le_of_mem_utf8EncodeChar (Nat.not_lt.1 hd) h
    omega

theorem mem_toUtf8_iff {c : Char} (hc : c.toNat < 0x80) (s : String) :
    UInt8.ofNat c.toNat ∈ toUtf8 s ↔ c ∈ s.toList := by
  rw [toUtf8_eq_flatMap, List.mem_flatMap]
  constructor
  · rintro ⟨d, hd, hmem⟩
    exact eq_of_mem_utf8EncodeChar hc hmem ▸ hd
  · intro hmem
    refine ⟨c, hmem, ?_⟩
    rw [utf8EncodeChar_ascii hc]
    exact List.mem_singleton_self _

/-- ASCII bytes are read as the characters with their numbers. -/
theorem ofUtf8_ascii {bs : List UInt8} (h : ∀ b ∈ bs, b.toNat < 0x80) :
    ofUtf8 bs = String.ofList (bs.map fun b => Char.ofNat b.toNat) := by
  have hdecode : decodeFrom 0 bs = bs.map fun b => Char.ofNat b.toNat := by
    induction bs with
    | nil => rfl
    | cons b bs ih =>
      rw [List.forall_mem_cons] at h
      rw [decodeFrom, decodeHead_one bs (by omega), List.map_cons]
      exact congrArg _ (ih h.2)
  rw [ofUtf8, hdecode]

theorem toUtf8_ofList (cs : List Char) :
    toUtf8 (String.ofList cs) = cs.flatMap String.utf8EncodeChar := by
  rw [toUtf8_eq_flatMap, String.toList_ofList]

theorem utf8_ascii : ∀ b : UInt8,
    b.toNat < 0x80 → String.utf8EncodeChar (Char.ofNat b.toNat) = [b] :=
  forall_byte (by decide +kernel)

theorem toUtf8_ofUtf8_ascii {bs : List UInt8} (h : ∀ b ∈ bs, b.toNat < 0x80) :
    toUtf8 (ofUtf8 bs) = bs := by
  rw [ofUtf8_ascii h, toUtf8_ofList, List.flatMap_map, List.flatMap_congr fun b hb =>
    utf8_ascii b (h b hb)]
  exact List.flatMap_singleton' _

end TagMachine.Text
