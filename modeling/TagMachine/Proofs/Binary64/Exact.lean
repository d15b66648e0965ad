import TagMachine.Binary64.Arithmetic
import TagMachine.Proofs.Binary64.Order

set_option autoImplicit false

/-! # What binary64 numbers stand for

A finite pattern stands for a rational number (`Binary64.toRat`). Rounding keeps the first 53 binary
digits of a natural number (`nearestNat`), wherever its point is (`toRat_roundRatio`). A number that
is rounded to an integer and then held as a word is the floor or the ceiling of what it stood for,
at the nearer end of the range when it is outside (`toInt64_roundTo_down`, `toInt64_roundTo_up`).
-/

namespace TagMachine.Binary64

/-- The number that a finite pattern stands for. -/
def toRat (x : Binary64) : ℚ := x.signedSignificand * 2 ^ x.scale

/-- A number or its negative. -/
def signed (negative : Bool) (q : ℚ) : ℚ := if negative then -q else q

theorem toRat_eq (x : Binary64) : x.toRat = signed x.isNegative (x.significand * 2 ^ x.scale) := by
  unfold toRat signedSignificand signed
  cases x.isNegative <;> simp

/-! ## Magnitudes -/

/-- The integer in front of the power of two, by magnitude. -/
def digitsOf (k : Nat) : Nat := if k < 2 ^ 52 then k else 2 ^ 52 + k % 2 ^ 52

/-- The exponent of the power of two, by magnitude. -/
def scaleOf (k : Nat) : Int := (max (k / 2 ^ 52) 1 : Nat) - 1075

/-- The absolute value of the numbers with a given magnitude, as if none was too large. -/
def ladder (k : Nat) : ℚ := digitsOf k * 2 ^ scaleOf k

theorem significand_eq (x : Binary64) : x.significand = digitsOf x.magnitude := rfl

theorem digitsOf_lt (k : Nat) : digitsOf k < 2 ^ 53 := by
  unfold digitsOf
  split_ifs <;> omega

theorem scale_eq (x : Binary64) : x.scale = scaleOf x.magnitude := by
  unfold scale scaleOf
  simp only [Nat.pow_eq]
  split_ifs <;> omega

theorem toRat_eq_ladder (x : Binary64) : x.toRat = signed x.isNegative (ladder x.magnitude) := by
  rw [toRat_eq, significand_eq, scale_eq, ladder]

/-- The step that is `M` units of `2 ^ E` in the smallest binade up. -/
theorem ladder_binade {E M : Nat} (hM : M ≤ 2 ^ 53) (hE : E = 0 ∨ 2 ^ 52 ≤ M) :
    ladder (E * 2 ^ 52 + M) = M * 2 ^ ((E : Int) - 1074) := by
  rcases Nat.eq_or_lt_of_le hM with rfl | hlt
  · have hdigits : digitsOf (E * 2 ^ 52 + 2 ^ 53) = 2 ^ 52 := by
      unfold digitsOf
      split_ifs <;> omega
    have hscale : scaleOf (E * 2 ^ 52 + 2 ^ 53) = (E : Int) - 1074 + 1 := by
      unfold scaleOf
      omega
    rw [ladder, hdigits, hscale, zpow_add_one₀ (by norm_num)]
    push_cast
    ring
  · have hdigits : digitsOf (E * 2 ^ 52 + M) = M := by
      unfold digitsOf
      split_ifs <;> omega
    have hscale : scaleOf (E * 2 ^ 52 + M) = (E : Int) - 1074 := by
      unfold scaleOf
      omega
    rw [ladder, hdigits, hscale]

/-- The pattern with `E` units above the smallest binade and the significand `M`. -/
theorem toRat_ofMagnitude (negative : Bool) {E M : Nat} (hM : M ≤ 2 ^ 53) (hE : E = 0 ∨ 2 ^ 52 ≤ M)
    (hfinite : E * 2 ^ 52 + M < infinityMagnitude) :
    (ofMagnitude negative (E * 2 ^ 52 + M)).toRat =
      signed negative (M * 2 ^ ((E : Int) - 1074)) := by
  have hsign : E * 2 ^ 52 + M < 2 ^ 63 := hfinite.trans (by decide)
  rw [toRat_eq_ladder, isNegative_ofMagnitude _ hsign, magnitude_ofMagnitude _ hsign,
    ladder_binade hM hE]

/-! ## The first 53 digits -/

/-- The distance between the numbers of 53 binary digits around a natural number. -/
def spacing (n : Nat) : Nat := 2 ^ (n.log2 - 52)

/-- The nearest number of 53 binary digits. -/
def nearestNat (n : Nat) : Nat := nearestEven n (spacing n) * spacing n

theorem spacing_pos (n : Nat) : 0 < spacing n := Nat.two_pow_pos _

theorem nearestEven_mul (n : Nat) {d : Nat} (hd : 0 < d) : nearestEven (n * d) d = n := by
  unfold nearestEven
  simp [Nat.mul_div_cancel _ hd, hd]

theorem nearestEven_scale (n d : Nat) {c : Nat} (hc : 0 < c) :
    nearestEven (n * c) (d * c) = nearestEven n d := by
  simp only [nearestEven, Nat.mul_div_mul_right _ _ hc, Nat.mul_mod_mul_right, ← Nat.mul_assoc,
    Nat.mul_lt_mul_right hc]

/-- A number stays where it has no more than 53 digits. -/
theorem nearestNat_eq_self {n : Nat} : nearestNat n = n ↔ spacing n ∣ n := by
  constructor
  · exact fun h => ⟨nearestEven n (spacing n), by rw [Nat.mul_comm]; exact h.symm⟩
  · rintro ⟨k, hk⟩
    have hn : n = k * spacing n := by rw [Nat.mul_comm]; exact hk
    unfold nearestNat
    conv => lhs; arg 1; arg 1; rw [hn]
    rw [nearestEven_mul _ (spacing_pos n), ← hn]

theorem spacing_eq_one {n : Nat} (h : n < 2 ^ 53) : spacing n = 1 := by
  unfold spacing
  by_cases hn : n = 0
  · subst hn
    decide
  · rw [log2_sub_eq_zero hn h, Nat.pow_zero]

theorem nearestNat_of_le {n : Nat} (h : n ≤ 2 ^ 53) : nearestNat n = n := by
  rw [nearestNat_eq_self]
  rcases Nat.eq_or_lt_of_le h with rfl | hlt
  · decide
  · rw [spacing_eq_one hlt]
    exact one_dvd n

theorem nearestNat_two_mul (n : Nat) : nearestNat (2 * n) = 2 * nearestNat n := by
  by_cases hn : n < 2 ^ 52
  · rw [nearestNat_of_le (by omega), nearestNat_of_le (by omega)]
  · have hlog : (2 * n).log2 = n.log2 + 1 := Nat.log2_two_mul (by omega)
    have hlarge : 52 ≤ n.log2 := (Nat.le_log2 (by omega)).2 (by omega)
    have hspacing : spacing (2 * n) = spacing n * 2 := by
      unfold spacing
      rw [hlog, ← Nat.pow_succ]
      congr 1
      omega
    unfold nearestNat
    rw [hspacing, Nat.mul_comm 2 n, nearestEven_scale _ _ (by decide)]
    ring

theorem nearestNat_two_pow_mul (k n : Nat) : nearestNat (2 ^ k * n) = 2 ^ k * nearestNat n := by
  induction k with
  | zero => simp
  | succ k ih => rw [Nat.pow_succ', Nat.mul_assoc, nearestNat_two_mul, ih, Nat.mul_assoc]

/-- The rounded number has as many digits, or is the next power of two. -/
theorem nearestNat_bounds {n : Nat} (hn : n ≠ 0) :
    2 ^ n.log2 ≤ nearestNat n ∧ nearestNat n ≤ 2 ^ (n.log2 + 1) := by
  have hlow := Nat.log2_self_le hn
  have hhigh := Nat.lt_log2_self (n := n)
  by_cases hsmall : n.log2 < 52
  · have hlt : n < 2 ^ 52 := (Nat.log2_lt hn).1 hsmall
    rw [nearestNat_of_le (by omega)]
    exact ⟨hlow, hhigh.le⟩
  · obtain ⟨hquotient, hquotient'⟩ := scaled_bounds hn 52
    obtain ⟨hfloor, hceil⟩ := nearestEven_bounds n (spacing n)
    have hzero : 52 - n.log2 = 0 := by omega
    rw [hzero, Nat.pow_zero, Nat.mul_one] at hquotient hquotient'
    have hsplit : 2 ^ n.log2 = 2 ^ 52 * spacing n := by
      unfold spacing
      rw [← Nat.pow_add]
      congr 1
      omega
    have hsplit' : 2 ^ (n.log2 + 1) = 2 ^ 53 * spacing n := by
      rw [Nat.pow_succ, hsplit]
      ring
    rw [hsplit, hsplit']
    exact ⟨Nat.mul_le_mul_right _ (hquotient.trans hfloor),
      Nat.mul_le_mul_right _ (hceil.trans hquotient')⟩

/-- What was rounded is not rounded again. -/
theorem nearestNat_idem (n : Nat) : nearestNat (nearestNat n) = nearestNat n := by
  by_cases hn : n = 0
  · subst hn
    decide
  · obtain ⟨hlow, hhigh⟩ := nearestNat_bounds hn
    rw [nearestNat_eq_self]
    rcases Nat.eq_or_lt_of_le hhigh with heq | hlt
    · rw [heq, spacing, Nat.log2_two_pow]
      exact pow_dvd_pow 2 (by omega)
    · have hlog : (nearestNat n).log2 = n.log2 :=
        (Nat.log2_eq_iff (by have := Nat.two_pow_pos n.log2; omega)).2 ⟨hlow, hlt⟩
      rw [spacing, hlog]
      exact Dvd.intro_left _ rfl

section Beside

variable {q d : Nat} (hd : 2 < d ∨ d = 2 ∧ q % 2 = 0)
include hd

/-- Next to a multiple, what is rounded goes back to it, at a distance of half the divisor to an
even one. -/
theorem nearestEven_mul_add_one : nearestEven (q * d + 1) d = q := by
  have hdiv : (q * d + 1) / d = q := by
    rw [Nat.add_comm, Nat.add_mul_div_right _ _ (by omega), Nat.div_eq_of_lt (by omega),
      Nat.zero_add]
  have hmod : (q * d + 1) % d = 1 := by
    rw [Nat.add_comm, Nat.add_mul_mod_self_right, Nat.mod_eq_of_lt (by omega)]
  simp only [nearestEven, hdiv, hmod]
  split_ifs <;> omega

theorem nearestEven_mul_sub_one (hq : 0 < q) : nearestEven (q * d - 1) d = q := by
  obtain ⟨k, rfl⟩ : ∃ k, q = k + 1 := ⟨q - 1, by omega⟩
  have hsplit : (k + 1) * d - 1 = d - 1 + k * d := by
    rw [Nat.succ_mul]
    omega
  have hdiv : (d - 1 + k * d) / d = k := by
    rw [Nat.add_mul_div_right _ _ (by omega), Nat.div_eq_of_lt (by omega), Nat.zero_add]
  have hmod : (d - 1 + k * d) % d = d - 1 := by
    rw [Nat.add_mul_mod_self_right, Nat.mod_eq_of_lt (by omega)]
  simp only [nearestEven, hsplit, hdiv, hmod]
  split_ifs <;> omega

end Beside

section Large

variable {n : Nat} (hn : nearestNat n = n) (hlarge : 2 ^ 53 ≤ n)
include hn hlarge

/-- Next to twice a large number of 53 digits the spacing divides it. Below a power of two the
numbers of 53 digits are twice as close, but the quotient is even there. -/
theorem exists_mul_spacing {m : Nat} (hm : m = 2 * n + 1 ∨ m = 2 * n - 1) :
    ∃ q d, spacing m = d ∧ 0 < q ∧ 2 * n = q * d ∧ (2 < d ∨ d = 2 ∧ q % 2 = 0) := by
  have hlog : 53 ≤ m.log2 := (Nat.le_log2 (by omega)).2 (by omega)
  obtain ⟨l, hl⟩ := Nat.exists_eq_add_of_le hlog
  have hlow := Nat.log2_self_le (n := m) (by omega)
  have hhigh := Nat.lt_log2_self (n := m)
  have hpow : 2 ^ m.log2 = 2 ^ 53 * 2 ^ l := by rw [hl, Nat.pow_add]
  have hspacing : spacing m = 2 * 2 ^ l := by
    rw [spacing, hl, ← Nat.pow_succ']
    congr 1
    omega
  rw [Nat.pow_succ, hpow] at hhigh
  rw [hpow] at hlow
  have hpos := Nat.two_pow_pos l
  by_cases hpower : 2 * n = 2 ^ 53 * 2 ^ l * 2
  · exact ⟨2 ^ 53, _, hspacing, by decide, by omega, by omega⟩
  · have heq : (2 * n).log2 = m.log2 := by
      rw [Nat.log2_eq_iff (by omega), Nat.pow_succ, hpow]
      omega
    obtain ⟨q, hq⟩ := nearestNat_eq_self.1 ((nearestNat_two_mul n).trans (congrArg (2 * ·) hn))
    rw [spacing, heq, ← spacing, hspacing, Nat.mul_comm _ q] at hq
    have hwide : l ≠ 0 := by
      rintro rfl
      omega
    have htwo : 2 ^ 1 ≤ 2 ^ l := Nat.pow_le_pow_right (by decide) (by omega)
    refine ⟨q, _, hspacing, Nat.pos_of_ne_zero fun h => ?_, hq, by omega⟩
    rw [h, Nat.zero_mul] at hq
    omega

/-- Next to twice a large number of 53 digits no other number of 53 digits is nearer. -/
theorem nearestNat_two_mul_add_one : nearestNat (2 * n + 1) = 2 * n := by
  obtain ⟨q, d, hd, -, hq, hwide⟩ := exists_mul_spacing hn hlarge (.inl rfl)
  rw [nearestNat, hd, hq, nearestEven_mul_add_one hwide]

theorem nearestNat_two_mul_sub_one : nearestNat (2 * n - 1) = 2 * n := by
  obtain ⟨q, d, hd, hpos, hq, hwide⟩ := exists_mul_spacing hn hlarge (.inr rfl)
  rw [nearestNat, hd, hq, nearestEven_mul_sub_one hwide hpos]

end Large

/-! ## Rounding quotients -/

/-- The quotient by a power of two, scaled to `k` digits behind the first. -/
theorem scaleDown_two_pow (n j k l : Nat) :
    ∃ c, 0 < c ∧ scaleDown n (2 ^ j) ((l : Int) - k - j) = (n * 2 ^ (k - l) * c,
      2 ^ (l - k) * c) := by
  unfold scaleDown
  split_ifs with hle
  · refine ⟨1, one_pos, ?_⟩
    have hk : k - l = 0 := by omega
    have hl : j + ((l : Int) - k - j).toNat = l - k := by omega
    rw [hk, Nat.pow_zero, Nat.mul_one, Nat.mul_one, Nat.mul_one, Nat.shiftLeft_eq,
      ← Nat.pow_add, hl]
  · refine ⟨2 ^ (j - (l - k)), Nat.two_pow_pos _, ?_⟩
    have hk : (-((l : Int) - k - j)).toNat = (k - l) + (j - (l - k)) := by omega
    have hl : (l - k) + (j - (l - k)) = j := by omega
    rw [hk, Nat.shiftLeft_eq, Nat.mul_assoc, ← Nat.pow_add, ← Nat.pow_add, hl]

theorem roundRatio_two_pow (negative : Bool) {n j : Nat} (hn : n ≠ 0) (hj : j ≤ 1000) :
    roundRatio negative n (2 ^ j) = ofMagnitude negative (min ((n.log2 + 1022 - j) * 2 ^ 52 +
      nearestEven (n * 2 ^ (52 - n.log2)) (2 ^ (n.log2 - 52))) infinityMagnitude) := by
  have hlow : max ((n.log2 : Int) - (j : Nat) - 53) (-1074) = (n.log2 : Int) - (53 : Nat) - j := by
    omega
  have hscale : (n.log2 : Int) - (53 : Nat) - j + 1 = (n.log2 : Int) - (52 : Nat) - j := by omega
  have hexponent : ((n.log2 : Int) - (52 : Nat) - j + 1074).toNat = n.log2 + 1022 - j := by omega
  obtain ⟨c, hc, hdown⟩ := scaleDown_two_pow n j 53 n.log2
  obtain ⟨c', hc', hdown'⟩ := scaleDown_two_pow n j 52 n.log2
  have hlarge : ¬ n * 2 ^ (53 - n.log2) * c / (2 ^ (n.log2 - 53) * c) < Nat.pow 2 53 := by
    rw [Nat.mul_div_mul_right _ _ hc]
    exact Nat.not_lt.2 (scaled_bounds hn 53).1
  unfold roundRatio
  simp only [if_neg hn, Nat.log2_two_pow, hlow, hdown, if_neg hlarge, hscale, hdown',
    hexponent, Nat.pow_eq, nearestEven_scale _ _ hc']

theorem nearestEven_scaled (n : Nat) :
    (nearestEven (n * 2 ^ (52 - n.log2)) (2 ^ (n.log2 - 52)) : ℚ) * 2 ^ ((n.log2 : Int) - 52) =
      nearestNat n := by
  rcases Nat.le_total n.log2 52 with hle | hle
  · have hzero : n.log2 - 52 = 0 := by omega
    have hscale : (n.log2 : Int) - 52 = -((52 - n.log2 : Nat) : Int) := by omega
    rw [nearestNat, spacing, hzero, Nat.pow_zero, nearestEven_one, nearestEven_one,
      Nat.mul_one, hscale, zpow_neg, zpow_natCast]
    push_cast
    exact mul_inv_cancel_right₀ (by positivity) _
  · have hzero : 52 - n.log2 = 0 := by omega
    have hscale : (n.log2 : Int) - 52 = ((n.log2 - 52 : Nat) : Int) := by omega
    rw [nearestNat, spacing, hzero, Nat.pow_zero, Nat.mul_one, hscale, zpow_natCast]
    push_cast
    rfl

section RoundRatio

variable (negative : Bool) {n j : Nat} (hn : n.log2 ≤ 1000) (hj : j ≤ 1000)
include hn hj

/-- The digits that are kept, and the pattern that they make. -/
theorem exists_roundRatio (hzero : n ≠ 0) : ∃ M : Nat, 2 ^ 52 ≤ M ∧ M ≤ 2 ^ 53 ∧
    (M : ℚ) * 2 ^ ((n.log2 : Int) - 52) = nearestNat n ∧
    (n.log2 + 1022 - j) * 2 ^ 52 + M < infinityMagnitude ∧
    roundRatio negative n (2 ^ j) = ofMagnitude negative ((n.log2 + 1022 - j) * 2 ^ 52 + M) := by
  obtain ⟨hlow, hhigh⟩ := scaled_bounds hzero 52
  obtain ⟨hfloor, hceil⟩ := nearestEven_bounds (n * 2 ^ (52 - n.log2)) (2 ^ (n.log2 - 52))
  have hfinite : (n.log2 + 1022 - j) * 2 ^ 52 +
      nearestEven (n * 2 ^ (52 - n.log2)) (2 ^ (n.log2 - 52)) < infinityMagnitude := by
    rw [infinityMagnitude]
    omega
  refine ⟨_, hlow.trans hfloor, by omega, nearestEven_scaled n, hfinite, ?_⟩
  rw [roundRatio_two_pow negative hzero hj, Nat.min_eq_left hfinite.le]

theorem isFinite_roundRatio : (roundRatio negative n (2 ^ j)).isFinite = true := by
  by_cases hzero : n = 0
  · subst hzero
    have hpattern : roundRatio negative 0 (2 ^ j) = zero negative := rfl
    rw [hpattern]
    cases negative <;> rfl
  · obtain ⟨M, -, -, -, hfinite, heq⟩ := exists_roundRatio negative hn hj hzero
    rw [heq, isFinite, magnitude_ofMagnitude _ (hfinite.trans (by decide)), decide_eq_true_iff]
    exact hfinite

/-- Rounding keeps the first 53 digits, wherever the point is. -/
theorem toRat_roundRatio :
    (roundRatio negative n (2 ^ j)).toRat = signed negative (nearestNat n / 2 ^ j) := by
  by_cases hzero : n = 0
  · subst hzero
    have hpattern : roundRatio negative 0 (2 ^ j) = ofMagnitude negative (0 * 2 ^ 52 + 0) := rfl
    rw [hpattern, toRat_ofMagnitude negative (by decide) (.inl rfl) (by decide),
      nearestNat_of_le (by decide)]
    simp
  · obtain ⟨M, hlow, hhigh, hM, hfinite, heq⟩ := exists_roundRatio negative hn hj hzero
    have hscale : ((n.log2 + 1022 - j : Nat) : Int) - 1074 = ((n.log2 : Int) - 52) - j := by omega
    rw [heq, toRat_ofMagnitude negative hhigh (.inr hlow) hfinite, hscale,
      zpow_sub₀ (by norm_num), ← hM, zpow_natCast, mul_div_assoc]

end RoundRatio

section Whole

variable (negative : Bool) {n : Nat} (hn : n ≤ 2 ^ 64)
include hn

theorem log2_le_of_le : n.log2 ≤ 1000 := by
  by_cases hzero : n = 0
  · subst hzero
    decide
  · have hlog := (Nat.log2_lt (k := 65) hzero).2 (by omega)
    omega

theorem isFinite_roundRatio_one : (roundRatio negative n 1).isFinite = true :=
  isFinite_roundRatio (j := 0) negative (log2_le_of_le hn) (Nat.zero_le _)

theorem toRat_roundRatio_one :
    (roundRatio negative n 1).toRat = signed negative (nearestNat n) := by
  have hround := toRat_roundRatio (j := 0) negative (log2_le_of_le hn) (Nat.zero_le _)
  simpa only [pow_zero, div_one] using hround

end Whole

theorem isNaN_of_isFinite {x : Binary64} (hx : x.isFinite = true) : x.isNaN = false := by
  simp only [isFinite, isNaN, decide_eq_true_iff, decide_eq_false_iff_not] at hx ⊢
  omega

theorem isInfinite_of_isFinite {x : Binary64} (hx : x.isFinite = true) : x.isInfinite = false := by
  simp only [isFinite, isInfinite, decide_eq_true_iff, beq_eq_false_iff_ne] at hx ⊢
  exact hx.ne

/-! ## Integers -/

theorem wholePart_eq (x : Binary64) :
    (x.wholePart : Int) = ⌊(x.significand : ℚ) * 2 ^ x.scale⌋ := by
  unfold wholePart
  split_ifs with hscale
  · obtain ⟨k, hk⟩ := Int.eq_ofNat_of_zero_le hscale
    rw [hk, Int.toNat_natCast, Nat.shiftLeft_eq, zpow_natCast]
    exact_mod_cast (Int.floor_natCast (R := ℚ) _).symm
  · obtain ⟨k, hk⟩ := Int.exists_eq_neg_ofNat (le_of_not_ge hscale)
    have hfloor := Rat.floor_natCast_div_natCast x.significand (2 ^ k)
    rw [hk, neg_neg, Int.toNat_natCast, Nat.shiftRight_eq_div_pow, zpow_neg, zpow_natCast,
      ← div_eq_mul_inv]
    push_cast at hfloor ⊢
    exact hfloor.symm

/-- A whole number is held as a word, at the nearer end of the range when it is outside. -/
theorem toInt64_of_toRat {x : Binary64} (hx : x.isFinite = true) {z : Int} (h : x.toRat = z) :
    x.toInt64 = clampInt64 z := by
  have hwhole := x.wholePart_eq
  rw [toRat_eq, signed] at h
  rw [toInt64, isNaN_of_isFinite hx, isInfinite_of_isFinite hx]
  cases hsign : x.isNegative with
  | false =>
    rw [hsign] at h
    simp only [Bool.false_eq_true, if_false] at h ⊢
    rw [h, Int.floor_intCast] at hwhole
    rw [hwhole]
  | true =>
    rw [hsign] at h
    simp only [Bool.false_eq_true, if_false, if_true] at h ⊢
    have hneg : (x.significand : ℚ) * 2 ^ x.scale = ((-z : Int) : ℚ) := by
      push_cast
      linarith
    rw [hneg, Int.floor_intCast] at hwhole
    rw [hwhole, neg_neg]

/-- A quotient is its whole part and a fraction. -/
theorem exists_fraction (s : Nat) {one : Nat} (hone : 0 < one) : ∃ f : ℚ, 0 ≤ f ∧ f < 1 ∧
    (f = 0 ↔ s % one = 0) ∧ (s : ℚ) / one = (s / one : Nat) + f := by
  have hpos : (0 : ℚ) < one := by exact_mod_cast hone
  refine ⟨(s % one : Nat) / one, by positivity, ?_, ?_, ?_⟩
  · rw [div_lt_one hpos]
    exact_mod_cast Nat.mod_lt s hone
  · rw [div_eq_zero_iff, or_iff_left hpos.ne', Nat.cast_eq_zero]
  · have hsplit : (s : ℚ) = one * (s / one : Nat) + (s % one : Nat) := by
      exact_mod_cast (Nat.div_add_mod s one).symm
    rw [hsplit, add_div, mul_div_cancel_left₀ _ hpos.ne']

theorem signed_roundAbs_down (negative : Bool) (s : Nat) {one : Nat} (hone : 0 < one) :
    signed negative (Direction.down.roundAbs negative (s / one) (s % one) one) =
      ⌊signed negative (s / one : ℚ)⌋ := by
  obtain ⟨f, hf, hf', hzero, hs⟩ := exists_fraction s hone
  rw [hs]
  generalize s / one = w
  cases negative with
  | false =>
    have hfloor : ⌊(w : ℚ) + f⌋ = w :=
      Int.floor_eq_iff.2 ⟨by push_cast; linarith, by push_cast; linarith⟩
    simp [signed, Direction.roundAbs, hfloor]
  | true =>
    by_cases hrest : s % one = 0
    · have hfloor : ⌊-((w : ℚ) + f)⌋ = -w :=
        Int.floor_eq_iff.2 ⟨by rw [hzero.2 hrest]; push_cast; linarith, by push_cast; linarith⟩
      simp only [signed, Direction.roundAbs, hrest, if_true, hfloor]
      push_cast
      rfl
    · have hpos : 0 < f := hf.lt_of_ne fun h => hrest (hzero.1 h.symm)
      have hfloor : ⌊-((w : ℚ) + f)⌋ = -(w + 1) :=
        Int.floor_eq_iff.2 ⟨by push_cast; linarith, by push_cast; linarith⟩
      simp only [signed, Direction.roundAbs, hrest, if_true, if_false, hfloor]
      push_cast
      rfl

theorem roundAbs_up (negative : Bool) (whole rest one : Nat) :
    Direction.up.roundAbs negative whole rest one =
      Direction.down.roundAbs (!negative) whole rest one := by
  cases negative <;> rfl

theorem signed_not (negative : Bool) (q : ℚ) : signed (!negative) q = -signed negative q := by
  cases negative <;> simp [signed]

/-- Rounding up is rounding the negative down. -/
theorem signed_roundAbs_up (negative : Bool) (s : Nat) {one : Nat} (hone : 0 < one) :
    signed negative (Direction.up.roundAbs negative (s / one) (s % one) one) =
      ⌈signed negative (s / one : ℚ)⌉ := by
  have hdown := signed_roundAbs_down (!negative) s hone
  rw [signed_not, signed_not, Int.floor_neg, Int.cast_neg, neg_inj] at hdown
  rw [roundAbs_up, hdown]

theorem significand_lt (x : Binary64) : x.significand < 2 ^ 53 := digitsOf_lt x.magnitude

theorem roundAbs_le (direction : Direction) (negative : Bool) (whole rest one : Nat) :
    direction.roundAbs negative whole rest one ≤ whole + 1 := by
  cases direction <;> simp only [Direction.roundAbs] <;> split_ifs <;> omega

section RoundTo

variable {x : Binary64} (hx : x.isFinite = true)
include hx

/-- Rounding to an integer is exact. -/
theorem toInt64_roundTo {direction : Direction} {r : ℚ → Int} (hr : ∀ z : Int, r z = z)
    (hround : ∀ negative s one, 0 < one →
      signed negative (direction.roundAbs negative (s / one) (s % one) one) =
        r (signed negative (s / one : ℚ))) :
    (x.roundTo direction).toInt64 = clampInt64 (r x.toRat) := by
  unfold roundTo
  rw [isNaN_of_isFinite hx, isInfinite_of_isFinite hx]
  simp only [Bool.false_eq_true, if_false, Bool.false_or, decide_eq_true_iff]
  split_ifs with hscale
  · -- a number without a fraction stays as it is
    obtain ⟨k, hk⟩ := Int.eq_ofNat_of_zero_le hscale
    have hwhole : x.toRat = ((x.signedSignificand * 2 ^ k : Int) : ℚ) := by
      rw [toRat, hk, zpow_natCast]
      push_cast
      rfl
    rw [toInt64_of_toRat hx hwhole, hwhole, hr]
  · obtain ⟨k, hk⟩ := Int.exists_eq_neg_ofNat (le_of_not_ge hscale)
    have hvalue : x.toRat = signed x.isNegative (x.significand / (2 ^ k : Nat) : ℚ) := by
      rw [toRat_eq, hk, zpow_neg, zpow_natCast, div_eq_mul_inv]
      push_cast
      rfl
    have hsmall : direction.roundAbs x.isNegative (x.significand / 2 ^ k)
      (x.significand % 2 ^ k) (2 ^ k) ≤
        2 ^ 53 := by
      have hdiv := Nat.div_le_self x.significand (2 ^ k)
      have hlt := x.significand_lt
      exact (roundAbs_le ..).trans (by omega)
    have hexact := toRat_roundRatio_one x.isNegative (hsmall.trans (by decide))
    rw [nearestNat_of_le hsmall, hround _ _ _ (Nat.two_pow_pos k), ← hvalue] at hexact
    rw [hk, neg_neg, Int.toNat_natCast, Nat.shiftLeft_eq, Nat.one_mul]
    exact toInt64_of_toRat (isFinite_roundRatio_one _ (hsmall.trans (by decide))) hexact

theorem toInt64_roundTo_down : (x.roundTo .down).toInt64 = clampInt64 ⌊x.toRat⌋ :=
  toInt64_roundTo hx (Int.floor_intCast (R := ℚ)) fun negative s _ =>
    signed_roundAbs_down negative s

theorem toInt64_roundTo_up : (x.roundTo .up).toInt64 = clampInt64 ⌈x.toRat⌉ :=
  toInt64_roundTo hx (Int.ceil_intCast (R := ℚ)) fun negative s _ => signed_roundAbs_up negative s

end RoundTo

/-! ## Integers that were floats -/

/-- The nearest integer of 53 binary digits. -/
def nearestInt (n : Int) : Int :=
  if n < 0 then -(nearestNat n.natAbs : Int) else nearestNat n.natAbs

theorem natAbs_nearestInt (n : Int) : (nearestInt n).natAbs = nearestNat n.natAbs := by
  unfold nearestInt
  split_ifs <;> omega

theorem nearestInt_eq_self {n : Int} : nearestInt n = n ↔ spacing n.natAbs ∣ n.natAbs := by
  rw [← nearestNat_eq_self]
  unfold nearestInt
  split_ifs <;> omega

section OfInt

variable {n : Int} (hn : n.natAbs ≤ 2 ^ 64)
include hn

theorem isFinite_ofInt : (ofInt n).isFinite = true := isFinite_roundRatio_one _ hn

theorem toRat_ofInt : (ofInt n).toRat = nearestInt n := by
  rw [ofInt, toRat_roundRatio_one _ hn, nearestInt, signed]
  simp only [decide_eq_true_iff]
  split_ifs <;> push_cast <;> rfl

theorem toInt64_ofInt : (ofInt n).toInt64 = clampInt64 (nearestInt n) :=
  toInt64_of_toRat (isFinite_ofInt hn) (toRat_ofInt hn)

end OfInt

theorem toInt_clampInt64 (z : Int) : (clampInt64 z).toInt = max (-2 ^ 63) (min z (2 ^ 63 - 1)) := by
  have hmin := Int64.toInt_minValue
  have hmax := Int64.toInt_maxValue
  unfold clampInt64
  simp only [Int.pow_eq]
  split_ifs with hlow hhigh
  · rw [hmin]
    omega
  · rw [hmax]
    omega
  · rw [Int64.toInt_ofInt_of_le (by omega) (by omega)]
    omega

/-- What is left of an integer that was held as a float. -/
def roundTrip (n : Int64) : Int64 := (ofInt64 n).toInt64

theorem natAbs_toInt_le (n : Int64) : n.toInt.natAbs ≤ 2 ^ 63 := by
  have hlow := n.le_toInt
  have hhigh := n.toInt_lt
  omega

theorem roundTrip_eq (n : Int64) : roundTrip n = clampInt64 (nearestInt n.toInt) :=
  toInt64_ofInt ((natAbs_toInt_le n).trans (by decide))

/-- Words become numbers in the same range, and its upper end. -/
theorem natAbs_nearestInt_le (n : Int64) : (nearestInt n.toInt).natAbs ≤ 2 ^ 63 := by
  rw [natAbs_nearestInt]
  rcases Nat.eq_or_lt_of_le (natAbs_toInt_le n) with heq | hlt
  · rw [heq]
    decide
  · by_cases hzero : n.toInt.natAbs = 0
    · rw [hzero]
      decide
    · have hlog := (Nat.log2_lt hzero).2 hlt
      exact (nearestNat_bounds hzero).2.trans (Nat.pow_le_pow_right (by decide) (by omega))

/-- An integer survives if it has at most 53 binary digits, and the largest one does too. -/
theorem roundTrip_eq_self {n : Int64} : roundTrip n = n ↔
    n = Int64.maxValue ∨ spacing n.toInt.natAbs ∣ n.toInt.natAbs := by
  have hbound := natAbs_nearestInt_le n
  rw [← nearestInt_eq_self, roundTrip_eq, ← Int64.toInt_inj, ← Int64.toInt_inj, toInt_clampInt64,
    Int64.toInt_maxValue]
  constructor
  · omega
  · rintro (hmax | hkept)
    · have hround : nearestInt (2 ^ 63 - 1) = 2 ^ 63 := by decide
      rw [hmax, hround]
      decide
    · have hlow := n.le_toInt
      have hhigh := n.toInt_lt
      omega

theorem roundTrip_of_le {n : Int64} (h : n.toInt.natAbs ≤ 2 ^ 53) : roundTrip n = n :=
  roundTrip_eq_self.2 (.inr (nearestNat_eq_self.1 (nearestNat_of_le h)))

end TagMachine.Binary64
