import Mathlib.Tactic
import TagMachine.Binary64.Basic

set_option autoImplicit false

/-! # The order of binary64 numbers

The total order of bit patterns is that of `Binary64.orderKey`, which tells all patterns apart
(`totalCompare_eq_eq`). Widening an integer keeps the order, but two integers may become one number
(`orderKey_ofInt_le`); up to `2 ^ 53` none do (`orderKey_ofInt_lt`).
-/

namespace TagMachine.Binary64

variable {x y : Binary64} {n m : Nat}

/-! ## Patterns -/

theorem toNat_bits (x : Binary64) :
    x.bits.toNat = x.magnitude + if x.isNegative then 2 ^ 63 else 0 := by
  have hbits := x.bits.toNat_lt
  unfold magnitude isNegative
  simp only [Nat.pow_eq, decide_eq_true_eq]
  split <;> omega

/-- A pattern is its sign and its magnitude. -/
theorem eq_of_magnitude (hsign : x.isNegative = y.isNegative) (h : x.magnitude = y.magnitude) :
    x = y := by
  have hbits : x.bits = y.bits := UInt64.toNat_inj.1 (by rw [toNat_bits, toNat_bits, hsign, h])
  cases x
  cases y
  exact congrArg mk hbits

theorem orderKey_inj : x.orderKey = y.orderKey ↔ x = y := by
  refine ⟨fun h => ?_, fun h => h ▸ rfl⟩
  have hsign : x.isNegative = y.isNegative := by
    unfold orderKey at h
    cases hx : x.isNegative <;> cases hy : y.isNegative <;> simp [hx, hy] at h ⊢ <;> omega
  refine eq_of_magnitude hsign ?_
  unfold orderKey at h
  rw [hsign] at h
  split at h <;> omega

theorem totalCompare_eq_eq : x.totalCompare y = .eq ↔ x = y := by
  rw [totalCompare, Std.compare_eq_iff_eq, orderKey_inj]

theorem totalCompare_swap (x y : Binary64) : (x.totalCompare y).swap = y.totalCompare x :=
  Std.OrientedOrd.eq_swap.symm

theorem toNat_bits_neg (x : Binary64) : x.neg.bits.toNat = x.bits.toNat ^^^ 2 ^ 63 :=
  UInt64.toNat_xor ..

/-- The other sign, and the same magnitude. -/
theorem magnitude_neg (x : Binary64) : x.neg.magnitude = x.magnitude := by
  rw [magnitude, magnitude, toNat_bits_neg, Nat.pow_eq, Nat.xor_mod_two_pow, Nat.mod_self,
    Nat.xor_zero]

theorem isNegative_neg (x : Binary64) : x.neg.isNegative = !x.isNegative := by
  have hbits := x.bits.toNat_lt
  have hquotient : x.neg.bits.toNat / 2 ^ 63 = (x.bits.toNat / 2 ^ 63) ^^^ 1 := by
    rw [toNat_bits_neg, Nat.xor_div_two_pow, Nat.div_self (by decide)]
  unfold isNegative
  rw [Nat.pow_eq]
  rcases Nat.lt_or_ge x.bits.toNat (2 ^ 63) with hlt | hge
  · rw [Nat.div_eq_of_lt hlt, Nat.zero_xor] at hquotient
    rw [decide_eq_true (show 2 ^ 63 ≤ x.neg.bits.toNat by omega),
      decide_eq_false (Nat.not_le.2 hlt)]
    rfl
  · have hone : x.bits.toNat / 2 ^ 63 = 1 := by omega
    rw [hone, Nat.xor_self] at hquotient
    rw [decide_eq_false (show ¬ 2 ^ 63 ≤ x.neg.bits.toNat by omega), decide_eq_true hge]
    rfl

section

variable (negative : Bool) (h : m < 2 ^ 63)

include h

theorem toNat_ofMagnitude :
    (ofMagnitude negative m).bits.toNat = m + if negative then 2 ^ 63 else 0 := by
  simp only [ofMagnitude, Nat.pow_eq, UInt64.toNat_ofNat']
  split <;> omega

theorem isNegative_ofMagnitude : (ofMagnitude negative m).isNegative = negative := by
  rw [isNegative, toNat_ofMagnitude negative h]
  cases negative
  · simpa [Nat.pow_eq] using h
  · simp [Nat.pow_eq]

theorem magnitude_ofMagnitude : (ofMagnitude negative m).magnitude = m := by
  rw [magnitude, toNat_ofMagnitude negative h]
  cases negative <;> simp [Nat.pow_eq] <;> omega

end

/-! ## Rounding to the nearest integer -/

theorem nearestEven_bounds (num den : Nat) :
    num / den ≤ nearestEven num den ∧ nearestEven num den ≤ num / den + 1 := by
  unfold nearestEven
  dsimp only
  split_ifs <;> omega

theorem nearestEven_one (n : Nat) : nearestEven n 1 = n := by
  unfold nearestEven
  simp [Nat.mod_one]

theorem nearestEven_mono {a b : Nat} (den : Nat) (h : a ≤ b) :
    nearestEven a den ≤ nearestEven b den := by
  have hfloor : a / den ≤ b / den := Nat.div_le_div_right h
  by_cases heq : a / den = b / den
  · have hrest : a % den ≤ b % den := by
      have ha := Nat.div_add_mod a den
      have hb := Nat.div_add_mod b den
      rw [heq] at ha
      omega
    unfold nearestEven
    dsimp only
    rw [heq]
    split_ifs <;> omega
  · have ha := (nearestEven_bounds a den).2
    have hb := (nearestEven_bounds b den).1
    omega

/-! ## Widening natural numbers -/

theorem scaleDown_one (n k l : Nat) :
    scaleDown n 1 ((l : Int) - k) = (n * 2 ^ (k - l), 2 ^ (l - k)) := by
  unfold scaleDown
  split_ifs with hle
  · have hk : k - l = 0 := by omega
    have hl : ((l : Int) - k).toNat = l - k := by omega
    rw [hk, hl, Nat.pow_zero, Nat.mul_one, Nat.shiftLeft_eq, Nat.one_mul]
  · have hl : l - k = 0 := by omega
    have hk : (-((l : Int) - k)).toNat = k - l := by omega
    rw [hl, hk, Nat.pow_zero, Nat.shiftLeft_eq]

/-- The quotient of a number that is scaled to have `k` binary digits behind the first. -/
theorem scaled_bounds (hn : n ≠ 0) (k : Nat) :
    2 ^ k ≤ n * 2 ^ (k - n.log2) / 2 ^ (n.log2 - k) ∧
      n * 2 ^ (k - n.log2) / 2 ^ (n.log2 - k) < 2 ^ (k + 1) := by
  have hlow := Nat.log2_self_le hn
  have hhigh := Nat.lt_log2_self (n := n)
  rw [Nat.le_div_iff_mul_le (by positivity), Nat.div_lt_iff_lt_mul (by positivity)]
  rcases Nat.le_total n.log2 k with hle | hle
  · obtain ⟨j, hj⟩ := Nat.exists_eq_add_of_le hle
    have hzero : n.log2 - k = 0 := by omega
    have hdigits : k - n.log2 = j := by omega
    rw [hzero, hdigits, hj, Nat.pow_zero, Nat.mul_one, Nat.mul_one]
    constructor
    · calc 2 ^ (n.log2 + j) = 2 ^ n.log2 * 2 ^ j := Nat.pow_add ..
        _ ≤ n * 2 ^ j := Nat.mul_le_mul_right _ hlow
    · calc n * 2 ^ j < 2 ^ (n.log2 + 1) * 2 ^ j := Nat.mul_lt_mul_of_pos_right hhigh (by positivity)
        _ = 2 ^ (n.log2 + j + 1) := by ring
  · obtain ⟨j, hj⟩ := Nat.exists_eq_add_of_le hle
    have hzero : k - n.log2 = 0 := by omega
    have hdigits : n.log2 - k = j := by omega
    rw [hzero, hdigits, Nat.pow_zero, Nat.mul_one, ← Nat.pow_add, ← Nat.pow_add]
    rw [hj] at hlow hhigh
    exact ⟨hlow, by rwa [Nat.add_right_comm]⟩

/-- The magnitude of the number nearest to a positive integer, if no number is too large. The
significand has 52 binary digits behind the first. -/
def unbounded (n : Nat) : Nat :=
  (n.log2 + 1022) * 2 ^ 52 + nearestEven (n * 2 ^ (52 - n.log2)) (2 ^ (n.log2 - 52))

/-- The magnitude of the number nearest to a natural number. -/
def widened (n : Nat) : Nat := if n = 0 then 0 else min (unbounded n) infinityMagnitude

theorem roundRatio_one (negative : Bool) (n : Nat) :
    roundRatio negative n 1 = ofMagnitude negative (widened n) := by
  unfold roundRatio widened
  by_cases hn : n = 0
  · rw [if_pos hn, if_pos hn]
    rfl
  · have hlog : Nat.log2 1 = 0 := by decide
    have hlow : max ((n.log2 : Int) - 53) (-1074) = (n.log2 : Int) - (53 : Nat) := by omega
    have hlarge : ¬ n * 2 ^ (53 - n.log2) / 2 ^ (n.log2 - 53) < Nat.pow 2 53 :=
      Nat.not_lt.2 (scaled_bounds hn 53).1
    have hscale : (n.log2 : Int) - (53 : Nat) + 1 = (n.log2 : Int) - (52 : Nat) := by omega
    have hexponent : ((n.log2 : Int) - (52 : Nat) + 1074).toNat = n.log2 + 1022 := by omega
    simp only [if_neg hn, hlog, Nat.cast_zero, sub_zero, hlow, scaleDown_one, if_neg hlarge, hscale,
      hexponent, Nat.pow_eq, unbounded]

theorem unbounded_bounds (hn : n ≠ 0) :
    (n.log2 + 1023) * 2 ^ 52 ≤ unbounded n ∧ unbounded n ≤ (n.log2 + 1024) * 2 ^ 52 := by
  obtain ⟨hlow, hhigh⟩ := scaled_bounds hn 52
  obtain ⟨hfloor, hceil⟩ := nearestEven_bounds (n * 2 ^ (52 - n.log2)) (2 ^ (n.log2 - 52))
  constructor
  · calc (n.log2 + 1023) * 2 ^ 52 = (n.log2 + 1022) * 2 ^ 52 + 2 ^ 52 := Nat.succ_mul ..
      _ ≤ unbounded n := Nat.add_le_add_left (hlow.trans hfloor) _
  · calc unbounded n ≤ (n.log2 + 1022) * 2 ^ 52 + 2 ^ 53 :=
        Nat.add_le_add_left (hceil.trans hhigh) _
      _ = (n.log2 + 1024) * 2 ^ 52 := by ring

theorem log2_le_log2 (hm : m ≠ 0) (h : m ≤ n) : m.log2 ≤ n.log2 :=
  (Nat.le_log2 (by omega)).2 ((Nat.log2_self_le hm).trans h)

theorem unbounded_mono (hm : m ≠ 0) (h : m ≤ n) : unbounded m ≤ unbounded n := by
  rcases Nat.eq_or_lt_of_le (log2_le_log2 hm h) with heq | hlt
  · unfold unbounded
    rw [heq]
    exact Nat.add_le_add_left (nearestEven_mono _ (Nat.mul_le_mul_right _ h)) _
  · calc unbounded m ≤ (m.log2 + 1024) * 2 ^ 52 := (unbounded_bounds hm).2
      _ ≤ (n.log2 + 1023) * 2 ^ 52 := Nat.mul_le_mul_right _ (by omega)
      _ ≤ unbounded n := (unbounded_bounds (by omega)).1

/-- Below `2 ^ 53` all digits fit. -/
theorem log2_sub_eq_zero (hn : n ≠ 0) (h : n < 2 ^ 53) : n.log2 - 52 = 0 := by
  have hdigits := (Nat.log2_lt hn).2 h
  omega

theorem unbounded_of_lt (hn : n ≠ 0) (h : n < 2 ^ 53) :
    unbounded n = (n.log2 + 1022) * 2 ^ 52 + n * 2 ^ (52 - n.log2) := by
  rw [unbounded, log2_sub_eq_zero hn h, Nat.pow_zero, nearestEven_one]

theorem unbounded_lt (hm : m ≠ 0) (hlt : m < n) (h : n ≤ 2 ^ 53) : unbounded m < unbounded n := by
  have hm53 : m < 2 ^ 53 := by omega
  rcases Nat.eq_or_lt_of_le (log2_le_log2 hm hlt.le) with heq | hlog
  · have hn53 : n < 2 ^ 53 := by
      have hdigits := (Nat.log2_lt hm).2 hm53
      rwa [heq, Nat.log2_lt (by omega)] at hdigits
    rw [unbounded_of_lt hm hm53, unbounded_of_lt (by omega) hn53, heq]
    exact Nat.add_lt_add_left (Nat.mul_lt_mul_of_pos_right hlt (by positivity)) _
  · have hfraction : m * 2 ^ (52 - m.log2) < 2 ^ 53 := by
      have hquotient := (scaled_bounds hm 52).2
      rwa [log2_sub_eq_zero hm hm53, Nat.pow_zero, Nat.div_one] at hquotient
    have hnext : (m.log2 + 1024) * 2 ^ 52 ≤ (n.log2 + 1023) * 2 ^ 52 :=
      Nat.mul_le_mul_right _ (by omega)
    have hbound := (unbounded_bounds (n := n) (by omega)).1
    rw [unbounded_of_lt hm hm53]
    omega

theorem widened_le_infinity (n : Nat) : widened n ≤ infinityMagnitude := by
  unfold widened
  split
  · exact Nat.zero_le _
  · exact Nat.min_le_right ..

theorem widened_eq_zero : widened n = 0 ↔ n = 0 := by
  refine ⟨fun h => ?_, fun h => if_pos h⟩
  by_contra hn
  have hbound := (unbounded_bounds hn).1
  rw [widened, if_neg hn, infinityMagnitude] at h
  omega

theorem widened_mono (h : m ≤ n) : widened m ≤ widened n := by
  by_cases hm : m = 0
  · rw [widened_eq_zero.2 hm]
    exact Nat.zero_le _
  · rw [widened, if_neg hm, widened, if_neg (by omega)]
    exact min_le_min_right _ (unbounded_mono hm h)

theorem widened_lt (hlt : m < n) (h : n ≤ 2 ^ 53) : widened m < widened n := by
  by_cases hm : m = 0
  · rw [widened_eq_zero.2 hm, Nat.pos_iff_ne_zero, Ne, widened_eq_zero]
    omega
  · have hlog := (Nat.log2_lt (n := n) (k := 54) (by omega)).2 (by omega)
    have hfinite : unbounded n < infinityMagnitude := by
      have hbound := (unbounded_bounds (n := n) (by omega)).2
      rw [infinityMagnitude]
      omega
    have hless := unbounded_lt hm hlt h
    rw [widened, if_neg hm, widened, if_neg (by omega), Nat.min_eq_left hfinite.le,
      Nat.min_eq_left (by omega)]
    exact hless

/-! ## Widening integers -/

theorem widened_lt_sign (n : Nat) : widened n < 2 ^ 63 :=
  (widened_le_infinity n).trans_lt (by decide)

theorem ofInt_eq (n : Int) : ofInt n = ofMagnitude (n < 0) (widened n.natAbs) :=
  roundRatio_one ..

theorem magnitude_ofInt (n : Int) : (ofInt n).magnitude = widened n.natAbs := by
  rw [ofInt_eq, magnitude_ofMagnitude _ (widened_lt_sign _)]

theorem isNaN_ofInt (n : Int) : (ofInt n).isNaN = false := by
  rw [isNaN, magnitude_ofInt, decide_eq_false_iff_not, Nat.not_lt]
  exact widened_le_infinity _

theorem isZero_ofInt {n : Int} : (ofInt n).isZero = true ↔ n = 0 := by
  rw [isZero, magnitude_ofInt, beq_iff_eq, widened_eq_zero, Int.natAbs_eq_zero]

/-- A zero is one of two. -/
theorem eq_zero_of_isZero (h : x.isZero = true) : x = zero x.isNegative := by
  have hzero : x.magnitude = 0 := by simpa [isZero] using h
  refine eq_of_magnitude ?_ ?_
  · rw [zero, isNegative_ofMagnitude _ (by decide)]
  · rw [zero, magnitude_ofMagnitude _ (by decide), hzero]

/-- An integer is the number it is widened to, and zero is both zeros. -/
theorem numEq_ofInt {n : Int} : (ofInt n).numEq y = true ↔ ofInt n = y ∨ n = 0 ∧ y = zero true := by
  constructor
  · intro h
    simp only [numEq, Bool.and_eq_true, Bool.or_eq_true, beq_iff_eq] at h
    obtain ⟨-, hbits | ⟨hn, hy⟩⟩ := h
    · exact .inl (congrArg mk hbits)
    · obtain rfl := isZero_ofInt.1 hn
      have hzero := eq_zero_of_isZero hy
      cases hsign : y.isNegative with
      | false => exact .inl (by rw [hzero, hsign]; rfl)
      | true => exact .inr ⟨rfl, by rw [hzero, hsign]⟩
  · rintro (rfl | ⟨rfl, rfl⟩)
    · simp [numEq, isNaN_ofInt]
    · decide

theorem orderKey_ofInt (n : Int) :
    (ofInt n).orderKey = if n < 0 then -(widened n.natAbs : Int) - 1 else widened n.natAbs := by
  rw [orderKey, magnitude_ofInt, ofInt_eq, isNegative_ofMagnitude _ (widened_lt_sign _)]
  simp only [decide_eq_true_eq]

/-- Widening keeps the order. -/
theorem orderKey_ofInt_le {m n : Int} (h : m ≤ n) : (ofInt m).orderKey ≤ (ofInt n).orderKey := by
  rw [orderKey_ofInt, orderKey_ofInt]
  split_ifs with hm hn hn
  · have hwide := widened_mono (m := n.natAbs) (n := m.natAbs) (by omega)
    omega
  · omega
  · omega
  · have hwide := widened_mono (m := m.natAbs) (n := n.natAbs) (by omega)
    omega

/-- Integers up to `2 ^ 53` are not confused. -/
theorem orderKey_ofInt_lt {m n : Int} (h : m < n) (hm : m.natAbs ≤ 2 ^ 53)
    (hn : n.natAbs ≤ 2 ^ 53) : (ofInt m).orderKey < (ofInt n).orderKey := by
  rw [orderKey_ofInt, orderKey_ofInt]
  split_ifs with hm' hn' hn'
  · have hwide := widened_lt (m := n.natAbs) (n := m.natAbs) (by omega) hm
    omega
  · omega
  · omega
  · have hwide := widened_lt (m := m.natAbs) (n := n.natAbs) (by omega) hn
    omega

end TagMachine.Binary64
