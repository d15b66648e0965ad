import TagMachine.Json.Number
import TagMachine.Proofs.Binary64.Shortest

set_option autoImplicit false

/-! # Floats made from digits and an exponent

The reader of JSON numerals rounds the digits to a float, and the power of ten, and then their
product or quotient. So it can miss the nearest float, but only by two places (`exists_scaleFloat`):
each of the two floats that are combined is off by a factor of at most `slack`. Where both are exact
the result is the nearest float. That is so for digits up to `2 ^ 53` and powers up to `10 ^ 22`.

Below `10 ^ -308` there is one quotient more to be rounded, by `10 ^ 308`. It adds nothing to the
distance: that power of ten is a tenth of `slack` away from its float, and the digits of the
dividend and of the quotient, one of which is large when the other is small, are together less than
the rest of two factors away (`near_quotient`).
-/

namespace TagMachine

open Binary64 (Rounds RoundsTo Near ladder midpoint slack slack_pos digitsOf scaleOf
  infinityMagnitude)

namespace Binary64

theorem midpoint_binade {E M : Nat} (hM : M < 2 ^ 53) (hE : E = 0 ∨ 2 ^ 52 ≤ M) :
    midpoint (E * 2 ^ 52 + M) = (M + 1 / 2) * 2 ^ ((E : Int) - 1074) := by
  have hscale : scaleOf (E * 2 ^ 52 + M) = (E : Int) - 1074 := by
    unfold scaleOf
    omega
  rw [midpoint, ladder_binade hM.le hE, hscale]
  ring

/-- The largest finite number. -/
def largest : Nat := (2 ^ 53 - 1) * 2 ^ 971

theorem ladder_largest : ladder (2045 * 2 ^ 52 + (2 ^ 53 - 1)) = largest := by
  have hscale : ((2045 : Nat) : Int) - 1074 = (971 : Nat) := by norm_num
  rw [ladder_binade (by decide) (.inr (by decide)), hscale, zpow_natCast, largest, Nat.cast_mul,
    Nat.cast_pow _ 971, Nat.cast_ofNat]

/-- A positive finite float that is not among the smallest and that a number was rounded to. -/
structure Holds (x : Binary64) (r : ℚ) : Prop where
  sign : x.isNegative = false
  finite : x.isFinite = true
  normal : 2 ^ 52 < x.magnitude
  rounds : Rounds r x.magnitude

namespace Holds

variable {x : Binary64} {r : ℚ}

theorem near (h : x.Holds r) : Near slack r (ladder x.magnitude) := h.rounds.near h.normal

theorem magnitude_ne (h : x.Holds r) : x.magnitude ≠ 0 := by
  have hnormal := h.normal
  omega

theorem ladder_pos (h : x.Holds r) : 0 < ladder x.magnitude :=
  (ladder_nonneg 0).trans_lt (ladder_strictMono (Nat.pos_of_ne_zero h.magnitude_ne))

theorem isZero_eq (h : x.Holds r) : x.isZero = false := by
  rw [isZero, beq_eq_false_iff_ne]
  exact h.magnitude_ne

theorem lt_infinity (h : x.Holds r) : x.magnitude < infinityMagnitude := by
  simpa [isFinite] using h.finite

/-- Numbers from one up to the largest finite one are neither too small nor too large. -/
theorem of_roundsTo (h : RoundsTo false r x) (hlow : 1 ≤ r) (hhigh : r ≤ largest) : x.Holds r := by
  have hlarge : r < midpoint (2045 * 2 ^ 52 + (2 ^ 53 - 1)) := by
    rw [← ladder_largest] at hhigh
    exact hhigh.trans_lt (ladder_lt_midpoint _)
  have hsmall : midpoint (0 * 2 ^ 52 + 2 ^ 52) < r := by
    rw [midpoint_binade (by decide) (.inl rfl), Nat.cast_zero, zero_sub, zpow_neg, ← div_eq_mul_inv]
    refine lt_of_lt_of_le ?_ hlow
    rw [div_lt_one (by positivity)]
    have hpower : (2 : ℚ) ^ 53 ≤ 2 ^ (1074 : Int) :=
      pow_le_pow_right₀ (by norm_num) (show 53 ≤ 1074 by decide)
    exact lt_of_lt_of_le (by norm_num) hpower
  obtain ⟨hrounds, hfinite⟩ := h.rounds (fun k hk => hk.le_of_lt hlarge) (by decide)
  exact ⟨h.isNegative_eq, hfinite, by simpa using hrounds.lt_of_lt hsmall, hrounds⟩

/-- A float that stands for a number exactly. -/
theorem ladder_eq (h : x.Holds r) {n : Nat} (hn : x.toRat = n) : ladder x.magnitude = n := by
  rw [toRat_eq_ladder, h.sign] at hn
  exact hn

end Holds

/-- A result within two places of a magnitude. -/
structure Beside (y : Binary64) (k : Nat) : Prop where
  sign : y.isNegative = false
  finite : y.isFinite = true
  le : y.magnitude ≤ k + 2
  ge : k ≤ y.magnitude + 2

/-- What is two factors away from a number rounds to within two places of it. -/
theorem RoundsTo.beside {y : Binary64} {t d : ℚ} {k : Nat} (h : RoundsTo false t y)
    (hk : Rounds d k)
    (hnear : Near (slack * slack) d t) (hlt : k + 2 < infinityMagnitude) : y.Beside k := by
  rw [← pow_two] at hnear
  obtain ⟨hrounds, hfinite⟩ := h.rounds (fun j hj => hk.le_add hj hnear.2) hlt
  exact ⟨h.isNegative_eq, hfinite, hk.le_add hrounds hnear.2, hrounds.le_add hk hnear.1⟩

theorem Beside.of_eq {y : Binary64} {k : Nat} (hsign : y.isNegative = false)
    (hfinite : y.isFinite = true)
    (hk : y.magnitude = k) : y.Beside k :=
  ⟨hsign, hfinite, by omega, by omega⟩

end Binary64

namespace Json

/-! ## The floats that are combined -/

section Digits

variable {n : Nat} (hpos : 0 < n)
include hpos

theorem holds_ofInt (hn : n ≤ 2 ^ 64) : (Binary64.ofInt n).Holds n := by
  have hround := Binary64.roundsTo_roundRatio false n one_ne_zero
  rw [Nat.cast_one, div_one] at hround
  have hsign : decide ((n : Int) < 0) = false := decide_eq_false (by omega)
  rw [Binary64.ofInt, hsign, Int.natAbs_natCast]
  refine .of_roundsTo hround (by exact_mod_cast hpos) ?_
  exact_mod_cast hn.trans (show 2 ^ 64 ≤ Binary64.largest by decide +kernel)

theorem ladder_ofInt (hn : n ≤ 2 ^ 53) : ladder (Binary64.ofInt n).magnitude = n := by
  have hword : (n : Int).natAbs ≤ 2 ^ 64 := by omega
  refine (holds_ofInt hpos (by omega)).ladder_eq ?_
  rw [Binary64.toRat_ofInt hword, Binary64.nearestInt, if_neg (by omega), Int.natAbs_natCast,
    Binary64.nearestNat_of_le hn, Int.cast_natCast]

end Digits

theorem holds_powerOfTen {k : Nat} (hk : k ≤ 308) : (powerOfTen k).Holds (10 ^ k) := by
  have hround :=
    Decimal.roundsTo_nearest (d := ⟨false, 1, k⟩) Nat.one_pos (show (-324 : Int) ≤ k by omega)
    (show (k : Int) ≤ 310 by omega)
  have hlarge : 10 ^ k ≤ Binary64.largest :=
    (Nat.pow_le_pow_right (by decide) hk).trans (by decide +kernel)
  rw [Decimal.abs, Nat.cast_one, one_mul, zpow_natCast] at hround
  exact .of_roundsTo hround (one_le_pow₀ (by norm_num)) (by exact_mod_cast hlarge)

/-- Powers of ten up to `10 ^ 22` are floats: their odd factors have at most 53 binary digits. -/
theorem ladder_powerOfTen {k : Nat} (hk : k ≤ 22) : ladder (powerOfTen k).magnitude = 10 ^ k := by
  have hten : 10 ^ k = 2 ^ k * 5 ^ k := by rw [← Nat.mul_pow]
  have hodd : 5 ^ k ≤ 2 ^ 53 := (Nat.pow_le_pow_right (by decide) hk).trans (by decide)
  have hlog : (10 ^ k).log2 ≤ 1000 := by
    have hle : 10 ^ k ≤ 10 ^ 22 := Nat.pow_le_pow_right (by decide) hk
    exact (Binary64.log2_le_log2 (by positivity) hle).trans (by decide)
  have hpower : powerOfTen k = Binary64.roundRatio false (10 ^ k) (2 ^ 0) := by
    have hsmall : ¬ (310 : Int) < k := by omega
    have hlarge : ¬ (k : Int) + (Nat.log2 1 : Int) / 3 + 2 < -400 := by omega
    have hwhole : (0 : Int) ≤ k := by omega
    unfold powerOfTen Decimal.nearest
    dsimp only
    rw [if_neg Nat.one_ne_zero, if_neg hsmall, if_neg hlarge, if_pos hwhole, Nat.one_mul,
      Int.toNat_natCast]
    rfl
  have hexact := Binary64.toRat_roundRatio false hlog (Nat.zero_le 1000)
  rw [← hpower, hten, Binary64.nearestNat_two_pow_mul, Binary64.nearestNat_of_le hodd,
    ← hten, pow_zero, div_one] at hexact
  exact_mod_cast (holds_powerOfTen (hk.trans (by decide))).ladder_eq hexact

/-! ## One product or quotient -/

section OneStep

variable {x p : Binary64} {k : Nat} {r s : ℚ} (hx : x.Holds r) (hp : p.Holds s)
include hx hp

theorem beside_mul (hs : 0 ≤ s) (hk : Rounds (r * s) k) (hlt : k + 2 < infinityMagnitude) :
    (x.mul p).Beside k := by
  have hround := Binary64.roundsTo_mul hx.finite hp.finite
  rw [hx.sign, hp.sign] at hround
  exact hround.beside hk (hx.near.mul hp.near slack_pos.le slack_pos.le hx.ladder_pos.le hs) hlt

theorem beside_div (hs : 0 < s) (hk : Rounds (r / s) k) (hlt : k + 2 < infinityMagnitude) :
    (x.div p).Beside k := by
  have hround := Binary64.roundsTo_div hx.finite hp.finite hp.magnitude_ne
  rw [hx.sign, hp.sign] at hround
  exact hround.beside hk
    (hx.near.div hp.near slack_pos.le slack_pos.le hx.ladder_pos.le hs hp.ladder_pos) hlt

end OneStep

/-! ## A quotient in two steps -/

/-- The factor between `10 ^ 308` and its float. -/
def fine : ℚ := 1 + 989 / (10000 * 2 ^ 53)

theorem fine_pos : 0 < fine := by
  unfold fine
  norm_num

theorem ladder_308 : ladder (powerOfTen 308).magnitude = 5010420900022432 * 2 ^ (971 : Int) := by
  have hmagnitude : (powerOfTen 308).magnitude = 2045 * 2 ^ 52 + 5010420900022432 := by
    decide +kernel
  have hscale : ((2045 : Nat) : Int) - 1074 = 971 := by norm_num
  rw [hmagnitude, Binary64.ladder_binade (by decide) (.inr (by decide)), hscale, Nat.cast_ofNat]

theorem near_fine {t w : Nat} (hlow : t ≤ w)
    (hhigh : w * (10000 * 2 ^ 53) ≤ t * (10000 * 2 ^ 53 + 989)) : Near fine t w := by
  have hlow' : (t : ℚ) ≤ w := by exact_mod_cast hlow
  have hhigh' : (w : ℚ) * (10000 * 2 ^ 53) ≤ t * (10000 * 2 ^ 53 + 989) := by exact_mod_cast hhigh
  have hpos : (0 : ℚ) ≤ w := by positivity
  unfold Near fine
  constructor <;> linarith

theorem near_308 : Near fine (10 ^ 308) (ladder (powerOfTen 308).magnitude) := by
  have hten : (10 : ℚ) ^ 308 = (10 ^ 308 : Nat) := by rw [Nat.cast_pow, Nat.cast_ofNat]
  have hfloat : ladder (powerOfTen 308).magnitude = (5010420900022432 * 2 ^ 971 : Nat) := by
    rw [ladder_308, Nat.cast_mul, Nat.cast_pow, Nat.cast_ofNat, Nat.cast_ofNat]
    rfl
  rw [hten, hfloat]
  exact near_fine (by decide +kernel) (by decide +kernel)

section TwoSteps

variable {n : Nat} (hthree : 3 ≤ n) (hn : n ≤ 10 ^ 17)
include hthree hn

theorem holds_quotient : ((Binary64.ofInt n).div (powerOfTen 308)).Holds
    (ladder (Binary64.ofInt n).magnitude / ladder (powerOfTen 308).magnitude) := by
  have hf := holds_ofInt (n := n) (by omega) (by omega)
  have hp := holds_powerOfTen (le_refl 308)
  have hround := Binary64.roundsTo_div hf.finite hp.finite hp.magnitude_ne
  rw [hf.sign, hp.sign] at hround
  have hone : 1 ≤ ladder (powerOfTen 308).magnitude := by
    rw [ladder_308]
    exact one_le_mul_of_one_le_of_one_le (by norm_num) (one_le_zpow₀ (by norm_num) (by norm_num))
  have hthree' : (3 : ℚ) ≤ n := by exact_mod_cast hthree
  have hlower : midpoint (0 * 2 ^ 52 + 2 ^ 52) <
      ladder (Binary64.ofInt n).magnitude / ladder (powerOfTen 308).magnitude := by
    have hnear := hf.near.1
    rw [slack] at hnear
    have hscale : (2 : ℚ) ^ (((0 : Nat) : Int) - 1074) * 2 ^ (971 : Int) = 2 ^ (-103 : Int) := by
      rw [← zpow_add₀ (by norm_num)]
      norm_num
    rw [lt_div_iff₀ hp.ladder_pos, Binary64.midpoint_binade (by decide) (.inl rfl), ladder_308,
      mul_mul_mul_comm, hscale]
    norm_num at hnear ⊢
    linarith
  obtain ⟨hrounds, hfinite⟩ := hround.rounds
    (fun k hk =>
      hk.le_of_lt ((div_le_self hf.ladder_pos.le hone).trans_lt (Binary64.ladder_lt_midpoint _)))
    hf.lt_infinity
  exact ⟨hround.isNegative_eq, hfinite, by simpa using hrounds.lt_of_lt hlower, hrounds⟩

/-- The digits of the float and of the quotient are not both small. -/
theorem large_digits (hlarge : 2 ^ 53 < n) :
    5000000000000000 ≤ digitsOf (Binary64.ofInt n).magnitude ∨
    8000000000000000 ≤ digitsOf ((Binary64.ofInt n).div (powerOfTen 308)).magnitude := by
  have hf := holds_ofInt (n := n) (by omega) (by omega)
  have hp := holds_powerOfTen (le_refl 308)
  have hg := (holds_quotient hthree hn).rounds
  set k := (Binary64.ofInt n).magnitude
  rcases Nat.lt_or_ge (digitsOf k) 5000000000000000 with hsmall | hlarge
  · -- with the digits of `10 ^ 308` not far above, the quotient starts just below a power of two
    refine .inr ?_
    have hscale : -50 ≤ scaleOf k := by
      have hone : midpoint (1072 * 2 ^ 52 + 2 ^ 52) < n := by
        have hlarge' : (2 : ℚ) ^ 53 < n := by exact_mod_cast hlarge
        rw [Binary64.midpoint_binade (by decide) (.inr le_rfl)]
        norm_num
        linarith
      have hlt := hf.rounds.lt_of_lt hone
      unfold scaleOf
      omega
    obtain ⟨E, hE⟩ := Int.eq_ofNat_of_zero_le (show 0 ≤ scaleOf k + 50 by omega)
    have hvalue : ladder k / ladder (powerOfTen 308).magnitude =
        digitsOf k * 2 ^ 53 / 5010420900022432 * 2 ^ ((E : Int) - 1074) := by
      have hsplit : (2 : ℚ) ^ scaleOf k =
          2 ^ ((E : Int) - 1074) * 2 ^ (53 : Int) * 2 ^ (971 : Int) := by
        rw [← zpow_add₀ (by norm_num), ← zpow_add₀ (by norm_num)]
        congr 1
        omega
      rw [ladder, ladder_308, hsplit]
      field_simp
    have hunit : (0 : ℚ) < 2 ^ ((E : Int) - 1074) := by positivity
    rw [hvalue] at hg
    have hlow : (2 : ℚ) ^ 52 ≤ digitsOf k := by exact_mod_cast Binary64.le_digitsOf hf.normal.le
    have hhigh : (digitsOf k : ℚ) < 5000000000000000 := by exact_mod_cast hsmall
    have habove : E * 2 ^ 52 + 8000000000000000 <
        ((Binary64.ofInt n).div (powerOfTen 308)).magnitude := by
      refine hg.lt_of_lt ?_
      rw [Binary64.midpoint_binade (by decide) (.inr (by decide))]
      refine mul_lt_mul_of_pos_right ?_ hunit
      norm_num
      linarith
    have hbelow : ((Binary64.ofInt n).div (powerOfTen 308)).magnitude ≤
        E * 2 ^ 52 + (2 ^ 53 - 1) := by
      refine hg.le_of_lt ?_
      rw [Binary64.midpoint_binade (by decide) (.inr (by decide))]
      refine mul_lt_mul_of_pos_right ?_ hunit
      norm_num
      linarith
    unfold digitsOf
    split_ifs <;> omega
  · exact .inl hlarge

/-- The quotient of the floats of a number and of `10 ^ 308` is two factors away from that of the
numbers. -/
theorem near_quotient : Near (slack * slack) (n / 10 ^ 308)
    (ladder ((Binary64.ofInt n).div (powerOfTen 308)).magnitude) := by
  have hf := holds_ofInt (n := n) (by omega) (by omega)
  have hp := holds_powerOfTen (le_refl 308)
  have hg := holds_quotient hthree hn
  have hten : (0 : ℚ) < 10 ^ 308 := by positivity
  by_cases hsmall : n ≤ 2 ^ 53
  · -- the number is a float
    have hexact := Near.refl (n : ℚ)
    nth_rewrite 2 [← ladder_ofInt (by omega) hsmall] at hexact
    have hquotient :=
      hexact.div hp.near zero_le_one slack_pos.le hf.ladder_pos.le hten hp.ladder_pos
    rw [one_mul] at hquotient
    exact hquotient.trans slack_pos.le slack_pos.le hg.near
  · -- three roundings, but the power of ten and one of the others move less than `slack`
    rcases large_digits hthree hn (by omega) with hlarge | hlarge
    · have hdigits := hf.rounds.near_of_le (by decide) hlarge
      have hquotient :=
        hdigits.div near_308 (by norm_num) fine_pos.le hf.ladder_pos.le hten hp.ladder_pos
      exact (hquotient.mono (by norm_num [fine, slack]) (by positivity)
        (div_pos hf.ladder_pos hp.ladder_pos).le).trans slack_pos.le slack_pos.le hg.near
    · have hdigits := hg.rounds.near_of_le (by decide) hlarge
      have hquotient :=
        hf.near.div near_308 slack_pos.le fine_pos.le hf.ladder_pos.le hten hp.ladder_pos
      have htwice := hquotient.trans (mul_pos slack_pos fine_pos).le (by norm_num) hdigits
      exact htwice.mono (by norm_num [fine, slack]) (by positivity) hg.ladder_pos.le

end TwoSteps

/-! ## The result -/

section Steps

variable (fuel : Nat) (f : Binary64) {j : Nat} (hj : j ≤ 308)
include hj

theorem scaleFloat_up (hfinite : (f.mul (powerOfTen j)).isFinite = true) :
    scaleFloat fuel f j = some (f.mul (powerOfTen j)) := by
  unfold scaleFloat
  rw [if_pos (by omega), if_pos (by omega), Int.toNat_natCast]
  dsimp only
  rw [Binary64.isInfinite_of_isFinite hfinite]
  rfl

theorem scaleFloat_down (hpos : 0 < j) : scaleFloat fuel f (-j) = some (f.div (powerOfTen j)) := by
  unfold scaleFloat
  rw [if_neg (by omega), if_pos (by omega), neg_neg, Int.toNat_natCast]

theorem scaleFloat_twice (hpos : 0 < j) (hf : f.isZero = false) :
    scaleFloat (fuel + 1) f (-(308 + j)) = some ((f.div (powerOfTen 308)).div (powerOfTen j)) := by
  have hrest : -(308 + (j : Int)) + 308 = -j := by ring
  rw [scaleFloat, if_neg (by omega), if_neg (by omega), hf, hrest]
  exact scaleFloat_down fuel _ hj hpos

end Steps

section Result

variable {n k : Nat} (hpos : 0 < n) (hn : n ≤ 10 ^ 17) (hlt : k + 2 < infinityMagnitude)
include hpos hn hlt

theorem exists_product {j : Nat} (hj : j ≤ 308) (hk : Rounds (n * 10 ^ (j : Int)) k) :
    ∃ y, scaleFloat 3 (Binary64.ofInt n) j = some y ∧ y.Beside k ∧
      (n ≤ 2 ^ 53 → j ≤ 22 → y.magnitude = k) := by
  have hf := holds_ofInt hpos (by omega)
  have hp := holds_powerOfTen hj
  rw [zpow_natCast] at hk
  have hbeside := beside_mul hf hp (by positivity) hk hlt
  refine ⟨_, scaleFloat_up 3 _ hj hbeside.finite, hbeside, fun hexact hpower => ?_⟩
  have hround := Binary64.roundsTo_mul hf.finite hp.finite
  rw [ladder_ofInt hpos hexact, ladder_powerOfTen hpower] at hround
  exact hround.magnitude_eq hk (by omega)

theorem exists_quotient {j : Nat} (hone : 0 < j) (hj : j ≤ 308)
    (hk : Rounds (n * 10 ^ (-j : Int)) k) :
    ∃ y, scaleFloat 3 (Binary64.ofInt n) (-j) = some y ∧ y.Beside k ∧
      (n ≤ 2 ^ 53 → j ≤ 22 → y.magnitude = k) := by
  have hf := holds_ofInt hpos (by omega)
  have hp := holds_powerOfTen hj
  rw [zpow_neg, zpow_natCast, ← div_eq_mul_inv] at hk
  refine ⟨_, scaleFloat_down 3 _ hj hone, beside_div hf hp (by positivity) hk hlt,
    fun hexact hpower => ?_⟩
  have hround := Binary64.roundsTo_div hf.finite hp.finite hp.magnitude_ne
  rw [ladder_ofInt hpos hexact, ladder_powerOfTen hpower] at hround
  exact hround.magnitude_eq hk (by omega)

omit hn in
/-- One and two, divided by `10 ^ 308`, lose digits. What is left is enough. -/
theorem exists_small_quotient (htwo : n ≤ 2) {j : Nat} (hone : 0 < j) (hj : j ≤ 16)
    (hk : Rounds (n * 10 ^ (-(308 + j) : Int)) k) :
    ∃ y, scaleFloat 3 (Binary64.ofInt n) (-(308 + j)) = some y ∧ y.Beside k := by
  -- the quotients are below the normal floats, so no bound on the error is left: compute them
  have htable : ∀ n : Nat, n < 3 → ∀ j : Nat, j < 17 → 0 < n → 0 < j →
      scaleFloat 3 (Binary64.ofInt n) (-(308 + j)) =
        some (Decimal.nearest ⟨false, n, -(308 + j)⟩) := by
    decide +kernel
  have hround := Decimal.roundsTo_nearest (d := ⟨false, n, -(308 + j)⟩) hpos
    (show (-324 : Int) ≤ -(308 + j) by omega) (show -(308 + (j : Int)) ≤ 310 by omega)
  obtain ⟨-, hfinite⟩ := hround.rounds (fun i hi => (hi.unique hk).le) (by omega)
  exact ⟨_, htable n (by omega) j (by omega) hpos hone,
    .of_eq hround.isNegative_eq hfinite (hround.magnitude_eq hk (by omega))⟩

theorem exists_double_quotient (hthree : 3 ≤ n) {j : Nat} (hone : 0 < j) (hj : j ≤ 16)
    (hk : Rounds (n * 10 ^ (-(308 + j) : Int)) k) :
    ∃ y, scaleFloat 3 (Binary64.ofInt n) (-(308 + j)) = some y ∧ y.Beside k := by
  have hf := holds_ofInt hpos (by omega)
  have hg := holds_quotient hthree hn
  have hp := holds_powerOfTen (hj.trans (by decide))
  have hpower : (0 : ℚ) < 10 ^ j := by positivity
  refine ⟨_, scaleFloat_twice 2 _ (by omega) hone hf.isZero_eq, ?_⟩
  have hround := Binary64.roundsTo_div hg.finite hp.finite hp.magnitude_ne
  rw [hg.sign, hp.sign, ladder_powerOfTen (by omega)] at hround
  have hvalue : (n : ℚ) * 10 ^ (-(308 + j) : Int) = n / 10 ^ 308 / 10 ^ j := by
    rw [zpow_neg, zpow_add₀ (by norm_num), zpow_natCast, ← div_eq_mul_inv, div_div]
    rfl
  have hnear :=
    (near_quotient hthree hn).div (Near.refl (10 ^ j)) (mul_pos slack_pos slack_pos).le zero_le_one
    hg.ladder_pos.le hpower hpower
  rw [mul_one] at hnear
  rw [hvalue] at hk
  exact hround.beside hk hnear hlt

/-- The float made from digits and an exponent is at most two places away from the nearest one, and
is the nearest one if neither the digits nor the power of ten had to be rounded. -/
theorem exists_scaleFloat {e : Int} (hlow : -324 ≤ e) (hhigh : e ≤ 308)
    (hk : Rounds (n * 10 ^ e) k) :
    ∃ y, scaleFloat 3 (Binary64.ofInt n) e = some y ∧ y.Beside k ∧
      (n ≤ 2 ^ 53 → e.natAbs ≤ 22 → y.magnitude = k) := by
  rcases lt_or_ge e 0 with hneg | hnonneg
  · rcases lt_or_ge e (-308) with hfar | hnear
    · obtain ⟨j, rfl⟩ : ∃ j : Nat, e = -(308 + j) := ⟨(-e - 308).toNat, by omega⟩
      have htiny : ¬ (-(308 + (j : Int))).natAbs ≤ 22 := by omega
      rcases Nat.lt_or_ge n 3 with htwo | hthree
      · obtain ⟨y, hy, hbeside⟩ :=
          exists_small_quotient hpos hlt (by omega) (by omega) (by omega) hk
        exact ⟨y, hy, hbeside, fun _ h => absurd h htiny⟩
      · obtain ⟨y, hy, hbeside⟩ :=
          exists_double_quotient hpos hn hlt hthree (by omega) (by omega) hk
        exact ⟨y, hy, hbeside, fun _ h => absurd h htiny⟩
    · obtain ⟨j, rfl⟩ : ∃ j : Nat, e = -j := ⟨(-e).toNat, by omega⟩
      rw [Int.natAbs_neg, Int.natAbs_natCast]
      exact exists_quotient hpos hn hlt (by omega) (by omega) hk
  · obtain ⟨j, rfl⟩ := Int.eq_ofNat_of_zero_le hnonneg
    exact exists_product hpos hn hlt (by omega) hk

end Result

end Json

end TagMachine
