import Mathlib.Tactic
import TagMachine.Proofs.Text.Utf8
import TagMachine.Codec.Base64

set_option autoImplicit false

/-! # Base64, written and read back

What is written for bytes is read as the bytes (`decode_encode`), and it is their Base64 form
(`writes_encode`): the symbols have the bits of the bytes in their order, then zeros up to a whole
symbol, and padding fills the last group. Three bytes are 24 bits and so are four symbols; both
proofs go from one such group to the next.
-/

namespace TagMachine.Codec.Base64

variable {n w x y z : Nat}

/-! ## The bits of groups -/

/-- The last `width` binary digits of a number, the highest first. -/
def binary : Nat → Nat → List Bool
  | 0, _ => []
  | width + 1, n => binary width (n / 2) ++ [n % 2 == 1]

/-- A number put together from two parts has the digits of both. -/
theorem binary_add (k m high : Nat) {low : Nat} (h : low < 2 ^ m) :
    binary (k + m) (high * 2 ^ m + low) = binary k high ++ binary m low := by
  induction m generalizing low with
  | zero =>
    obtain rfl : low = 0 := by omega
    simp [binary]
  | succ m ih =>
    have hhalf : (high * 2 ^ (m + 1) + low) / 2 = high * 2 ^ m + low / 2 := by
      rw [pow_succ, ← Nat.mul_assoc]
      omega
    have hlast : (high * 2 ^ (m + 1) + low) % 2 = low % 2 := by
      rw [pow_succ, ← Nat.mul_assoc]
      omega
    rw [← Nat.add_assoc, binary, binary, hhalf, hlast, ih (by rw [pow_succ] at h; omega),
      List.append_assoc]

theorem binary_cut (k m n : Nat) :
    binary (k + m) n = binary k (n / 2 ^ m) ++ binary m (n % 2 ^ m) := by
  rw [← binary_add k m (n / 2 ^ m) (Nat.mod_lt n (Nat.two_pow_pos m)), Nat.div_add_mod']

theorem binary_zero (width : Nat) : binary width 0 = List.replicate width false := by
  induction width with
  | zero => rfl
  | succ width ih => rw [binary, Nat.zero_div, ih, List.replicate_succ']; rfl

/-- The digits of a group do not depend on where it is cut. -/
theorem binary_group {a b c : Nat} (hx : x < 64) (hy : y < 64) (hz : z < 64) (hb : b < 256)
    (hc : c < 256) (h : ((w * 64 + x) * 64 + y) * 64 + z = (a * 256 + b) * 256 + c) :
    binary 6 w ++ binary 6 x ++ binary 6 y ++ binary 6 z =
      binary 8 a ++ binary 8 b ++ binary 8 c := by
  rw [← binary_add 6 6 w hx, ← binary_add 12 6 _ hy, ← binary_add 18 6 _ hz, ← binary_add 8 8 a hb,
    ← binary_add 16 8 _ hc]
  exact congrArg (binary 24) h

/-! ## Written forms -/

/-- The symbols in the order of the numbers that they stand for. -/
def alphabet : List Char :=
  "ABCDEFGHIJKLMNOPQRSTUVWXYZabcdefghijklmnopqrstuvwxyz0123456789+/".toList

/-- The number of padding symbols after a number of bytes. -/
def padding (size : Nat) : Nat := (3 - size % 3) % 3

/-- The text is the Base64 form of the bytes: the bits of its symbols are those of the bytes and two
zeros for each padding symbol. -/
def Writes (bytes : List UInt8) (text : List Char) : Prop :=
  ∃ values : List Nat, (∀ n ∈ values, n < 64) ∧
    text = values.map (alphabet.getD · '=') ++ List.replicate (padding bytes.length) '=' ∧
    values.flatMap (binary 6) =
      (bytes.flatMap fun b => binary 8 b.toNat) ++ List.replicate (2 * padding bytes.length) false

/-- Each number has its own symbol of the alphabet, which is not the padding. -/
theorem symbol_spec : ∀ n < 64, Char.ofNat (symbol n).toNat = alphabet.getD n '=' ∧
    (symbol n).toNat < 0x80 ∧ bitsOf? (symbol n) = some n ∧ symbol n ≠ padSymbol := by
  decide +kernel

theorem exists_values (bs : List UInt8) :
    ∃ values : List Nat, (∀ n ∈ values, n < 64) ∧
      encode bs = values.map symbol ++ List.replicate (padding bs.length) padSymbol ∧
      values.flatMap (binary 6) =
        (bs.flatMap fun b => binary 8 b.toNat) ++ List.replicate (2 * padding bs.length) false := by
  fun_induction encode bs with
  | case1 => exact ⟨[], by simp, rfl, rfl⟩
  | case2 a n =>
    -- the second symbol has the last two bits of the byte, and zeros
    have ha : a.toNat < 256 := a.toNat_lt
    have hbits : binary 12 n = binary 6 (n / 64) ++ binary 6 (n % 64) := by
      simpa using binary_cut 6 6 n
    have hzeros : binary 12 n = binary 8 a.toNat ++ binary 4 0 := by
      simpa using binary_add 8 4 a.toNat (by decide : 0 < 2 ^ 4)
    refine ⟨[n / 64, n % 64], by simp; omega, rfl, ?_⟩
    simp only [List.flatMap_cons, List.flatMap_nil, List.append_nil]
    rw [← hbits, hzeros, binary_zero]
    rfl
  | case3 a b n =>
    -- the third symbol has the last four bits, and zeros
    have ha : a.toNat < 256 := a.toNat_lt
    have hb : b.toNat < 256 := b.toNat_lt
    have hbits : binary 18 n = binary 12 (n / 64) ++ binary 6 (n % 64) := by
      simpa using binary_cut 12 6 n
    have hfirst : binary 12 (n / 64) = binary 6 (n / 4096) ++ binary 6 (n / 64 % 64) := by
      simpa [Nat.div_div_eq_div_mul] using binary_cut 6 6 (n / 64)
    have hzeros : binary 18 n = binary 16 (a.toNat * 256 + b.toNat) ++ binary 2 0 := by
      simpa using binary_add 16 2 (a.toNat * 256 + b.toNat) (by decide : 0 < 2 ^ 2)
    have hbytes : binary 16 (a.toNat * 256 + b.toNat) = binary 8 a.toNat ++ binary 8 b.toNat := by
      simpa using binary_add 8 8 a.toNat hb
    refine ⟨[n / 4096, n / 64 % 64, n % 64], by simp; omega, rfl, ?_⟩
    simp only [List.flatMap_cons, List.flatMap_nil, List.append_nil]
    rw [← List.append_assoc, ← hfirst, ← hbits, hzeros, hbytes, binary_zero]
    rfl
  | case4 a b c rest n ih =>
    obtain ⟨values, hlt, hencode, hbits⟩ := ih
    have ha : a.toNat < 256 := a.toNat_lt
    have hb : b.toNat < 256 := b.toNat_lt
    have hc : c.toNat < 256 := c.toNat_lt
    have hpadding : padding (a :: b :: c :: rest).length = padding rest.length := by
      simp only [padding, List.length_cons]
      omega
    have hn : ((n / 262144 * 64 + n / 4096 % 64) * 64 + n / 64 % 64) * 64 + n % 64 = n := by omega
    have hgroup := binary_group (Nat.mod_lt (n / 4096) (by decide))
      (Nat.mod_lt (n / 64) (by decide)) (Nat.mod_lt n (by decide)) hb hc hn
    refine ⟨n / 262144 :: n / 4096 % 64 :: n / 64 % 64 :: n % 64 :: values, ?_, ?_, ?_⟩
    · simp only [List.forall_mem_cons]
      exact ⟨by omega, by omega, by omega, by omega, hlt⟩
    · rw [hencode, hpadding]
      rfl
    · simp only [List.flatMap_cons, hbits, hpadding, ← List.append_assoc]
      rw [hgroup]

theorem lt_of_mem_encode {bs : List UInt8} {b : UInt8} (hb : b ∈ encode bs) : b.toNat < 0x80 := by
  obtain ⟨values, hlt, hencode, -⟩ := exists_values bs
  rw [hencode, List.mem_append, List.mem_map, List.mem_replicate] at hb
  rcases hb with ⟨n, hn, rfl⟩ | ⟨-, rfl⟩
  · exact (symbol_spec n (hlt n hn)).2.1
  · decide

theorem writes_encode (bs : List UInt8) : Writes bs (Text.ofUtf8 (encode bs)).toList := by
  obtain ⟨values, hlt, hencode, hbits⟩ := exists_values bs
  refine ⟨values, hlt, ?_, hbits⟩
  rw [Text.ofUtf8_ascii fun b hb => lt_of_mem_encode hb, String.toList_ofList, hencode,
    List.map_append, List.map_map, List.map_replicate]
  congr 1
  exact List.map_congr_left fun n hn => (symbol_spec n (hlt n hn)).1

/-! ## Reading back -/

theorem bitsAt_symbol (offset : Nat) (h : n < 64) : bitsAt offset (symbol n) = .ok n := by
  rw [bitsAt, (symbol_spec n h).2.2.1]

/-- A last group is read as its symbols and the number of its padding symbols. -/
theorem readTail_group (start i : Nat) (values : List Nat) (pads : Nat) (hlt : ∀ n ∈ values, n < 64)
    (h : pads ≠ 0 → 2 ≤ i + values.length) :
    readTail start i (values.map symbol ++ List.replicate pads padSymbol) = .ok (values, pads) := by
  induction values generalizing i with
  | nil =>
    cases pads with
    | zero => rfl
    | succ pads =>
      have hplace : ¬i < 2 := Nat.not_lt.2 (h (Nat.succ_ne_zero pads))
      simp [List.replicate_succ, readTail, hplace, Nat.add_comm]
  | cons n values ih =>
    rw [List.forall_mem_cons] at hlt
    have hrest := ih (i + 1) hlt.2 (by rw [List.length_cons] at h; omega)
    have hpad : symbol n ≠ padSymbol := (symbol_spec n hlt.1).2.2.2
    rw [List.map_cons, List.cons_append, readTail, if_neg hpad, bitsAt_symbol _ hlt.1, hrest]
    rfl

theorem decodeTail_two (start : Nat) (hw : w < 64) (hx : x < 64) (h : x % 16 = 0) :
    decodeTail start [symbol w, symbol x, padSymbol, padSymbol] =
      .ok [(w * 4 + x / 16).toUInt8] := by
  have hread : readTail start 0 [symbol w, symbol x, padSymbol, padSymbol] = .ok ([w, x], 2) :=
    readTail_group start 0 [w, x] 2 (by simp [hw, hx]) (by simp)
  simp [decodeTail, hread, h, bind, Except.bind, pure, Except.pure]

theorem decodeTail_three (start : Nat) (hw : w < 64) (hx : x < 64) (hy : y < 64) (h : y % 4 = 0) :
    decodeTail start [symbol w, symbol x, symbol y, padSymbol] =
      .ok ((threeBytes w x y 0).take 2) := by
  have hread : readTail start 0 [symbol w, symbol x, symbol y, padSymbol] = .ok ([w, x, y], 1) :=
    readTail_group start 0 [w, x, y] 1 (by simp [hw, hx, hy]) (by simp)
  simp [decodeTail, hread, h, bind, Except.bind, pure, Except.pure]

theorem decodeTail_four (start : Nat) (hw : w < 64) (hx : x < 64) (hy : y < 64) (hz : z < 64) :
    decodeTail start [symbol w, symbol x, symbol y, symbol z] = .ok (threeBytes w x y z) := by
  have hread : readTail start 0 [symbol w, symbol x, symbol y, symbol z] = .ok ([w, x, y, z], 0) :=
    readTail_group start 0 [w, x, y, z] 0 (by simp [hw, hx, hy, hz]) (by simp)
  simp [decodeTail, hread, bind, Except.bind, pure, Except.pure]

/-- A group that others follow. -/
theorem decodeFrom_group (start : Nat) (hw : w < 64) (hx : x < 64) (hy : y < 64) (hz : z < 64)
    {rest : List UInt8} (hrest : rest ≠ []) :
    decodeFrom start (symbol w :: symbol x :: symbol y :: symbol z :: rest) =
      (decodeFrom (start + 4) rest).map (threeBytes w x y z ++ ·) := by
  obtain ⟨e, rest, rfl⟩ := List.exists_cons_of_ne_nil hrest
  rw [decodeFrom, bitsAt_symbol _ hw, bitsAt_symbol _ hx, bitsAt_symbol _ hy, bitsAt_symbol _ hz]
  cases decodeFrom (start + 4) (e :: rest) <;> rfl

theorem toUInt8_eq {b : UInt8} (h : n = b.toNat) : n.toUInt8 = b := by
  subst h
  exact UInt8.ofNat_toNat

theorem threeBytes_eq {a b c : UInt8}
    (h : ((w * 64 + x) * 64 + y) * 64 + z = (a.toNat * 256 + b.toNat) * 256 + c.toNat) :
    threeBytes w x y z = [a, b, c] := by
  have hb : b.toNat < 256 := b.toNat_lt
  have hc : c.toNat < 256 := c.toNat_lt
  simp only [threeBytes, h]
  rw [toUInt8_eq (b := a) (by omega), toUInt8_eq (b := b) (by omega),
    toUInt8_eq (b := c) (by omega)]

theorem encode_ne_nil {bs : List UInt8} (h : bs ≠ []) : encode bs ≠ [] := by
  fun_cases encode bs with
  | case1 => exact absurd rfl h
  | case2 => simp
  | case3 => simp
  | case4 => simp

theorem decodeFrom_encode {bs : List UInt8} (start : Nat) (h : bs ≠ []) :
    decodeFrom start (encode bs) = .ok bs := by
  fun_induction encode bs generalizing start with
  | case1 => exact absurd rfl h
  | case2 a n =>
    have ha : a.toNat < 256 := a.toNat_lt
    refine (decodeTail_two start (by omega) (by omega) (by omega)).trans ?_
    rw [toUInt8_eq (b := a) (by omega)]
  | case3 a b n =>
    have ha : a.toNat < 256 := a.toNat_lt
    have hb : b.toNat < 256 := b.toNat_lt
    refine (decodeTail_three start (by omega) (by omega) (by omega) (by omega)).trans ?_
    rw [threeBytes_eq (a := a) (b := b) (c := 0) (by simp; omega)]
    rfl
  | case4 a b c rest n ih =>
    have ha : a.toNat < 256 := a.toNat_lt
    have hb : b.toNat < 256 := b.toNat_lt
    have hc : c.toNat < 256 := c.toNat_lt
    have hbytes : threeBytes (n / 262144) (n / 4096 % 64) (n / 64 % 64) (n % 64) = [a, b, c] :=
      threeBytes_eq (by omega)
    by_cases hrest : rest = []
    · subst hrest
      refine (decodeTail_four start (by omega) (by omega) (by omega) (by omega)).trans ?_
      rw [hbytes]
    · rw [decodeFrom_group start (by omega) (by omega) (by omega) (by omega) (encode_ne_nil hrest),
        ih (start + 4) hrest, hbytes]
      rfl

theorem length_encode_mod (bs : List UInt8) : (encode bs).length % 4 = 0 := by
  fun_induction encode bs with
  | case1 => rfl
  | case2 => simp
  | case3 => simp
  | case4 a b c rest n ih =>
    simp only [List.length_cons]
    omega

theorem decode_encode (bs : List UInt8) : decode (encode bs) = .ok bs := by
  have hstray : strayEnd? (encode bs) = none := if_neg (by rw [length_encode_mod]; decide)
  by_cases h : bs = []
  · subst h
    rfl
  · obtain ⟨b, rest, hcons⟩ := List.exists_cons_of_ne_nil (encode_ne_nil h)
    have hfrom := decodeFrom_encode 0 h
    rw [hcons] at hstray hfrom ⊢
    unfold decode
    rw [hstray]
    exact hfrom

end TagMachine.Codec.Base64
