import TagMachine.Binary64.Decimal
import TagMachine.Proofs.Binary64.Rounding

set_option autoImplicit false

/-! # Digits that read back

The decimal number that `shortest` finds rounds to the number it is found for
(`Decimal.readsBack_shortest`), so it is a numeral of that number (`Decimal.nearest_shortest`). The
search starts at the leading digit and is over at the seventeenth digit, because there the grid of
decimal numbers is finer than the neighbourhood of any number is wide; and it does not go below
`10 ^ -324`, which is finer than the neighbourhood of the smallest numbers.
-/

namespace TagMachine

namespace Binary64

/-! ## Quotients by powers of ten -/

theorem scaleDecimal_spec (num : Nat) {den : Nat} (hden : 0 < den) (e : Int) :
    ((scaleDecimal num den e).1 : ℚ) / (scaleDecimal num den e).2 = num / den / 10 ^ e ∧
      0 < (scaleDecimal num den e).2 := by
  refine quotient_div_zpow (by decide) num hden e ?_
  rw [scaleDecimal, ← choice_by_sign 10 e fun up down => (num * down, den * up), Nat.mul_one,
    Nat.mul_one]
  rfl

/-- The denominator does not depend on the numerator. -/
theorem scaleDecimal_snd (num num' den : Nat) (e : Int) :
    (scaleDecimal num den e).2 = (scaleDecimal num' den e).2 := by
  unfold scaleDecimal
  split_ifs <;> rfl

section Sides

variable (num : Nat) {den : Nat} (hden : 0 < den) (c : Nat) (e : Int)
include hden

theorem scaleDecimal_le_iff :
    (scaleDecimal num den e).1 ≤ c * (scaleDecimal num den e).2 ↔ (num : ℚ) / den ≤ c * 10 ^ e := by
  obtain ⟨hquotient, hpos⟩ := scaleDecimal_spec num hden e
  have hpos' : (0 : ℚ) < (scaleDecimal num den e).2 := by exact_mod_cast hpos
  rw [← div_le_iff₀ (by positivity), ← hquotient, div_le_iff₀ hpos']
  exact_mod_cast Iff.rfl

theorem le_scaleDecimal_iff :
    c * (scaleDecimal num den e).2 ≤ (scaleDecimal num den e).1 ↔ c * 10 ^ e ≤ (num : ℚ) / den := by
  obtain ⟨hquotient, hpos⟩ := scaleDecimal_spec num hden e
  have hpos' : (0 : ℚ) < (scaleDecimal num den e).2 := by exact_mod_cast hpos
  rw [← le_div_iff₀ (by positivity), ← hquotient, le_div_iff₀ hpos']
  exact_mod_cast Iff.rfl

end Sides

/-! ## The leading digit -/

/-- Powers with exponents of either sign, compared without fractions. -/
theorem zpow_le_zpow_iff {a b : Nat} (ha : 0 < a) (hb : 0 < b) (i j : Int) :
    (a : ℚ) ^ i ≤ b ^ j ↔ a ^ i.toNat * b ^ (-j).toNat ≤ b ^ j.toNat * a ^ (-i).toNat := by
  have ha' : (0 : ℚ) < a := by exact_mod_cast ha
  have hb' : (0 : ℚ) < b := by exact_mod_cast hb
  rw [zpow_eq_div ha, zpow_eq_div hb, div_le_div_iff₀ (by positivity) (by positivity)]
  exact_mod_cast Iff.rfl

/-- The first guess at the exponent of the leading digit of a number with the binary logarithm
`L`. -/
def leadingGuess (L : Int) : Int := (L - 1) * 30102999566398 / 100000000000000

/-- The guess is not too large and at most two too small, without fractions. -/
def GuessFits (L : Int) : Prop :=
  10 ^ (leadingGuess L).toNat * 2 ^ (-(L - 1)).toNat ≤
    2 ^ (L - 1).toNat * 10 ^ (-leadingGuess L).toNat ∧
    2 ^ (L + 1).toNat * 10 ^ (-(leadingGuess L + 3)).toNat ≤
      10 ^ (leadingGuess L + 3).toNat * 2 ^ (-(L + 1)).toNat

instance (L : Int) : Decidable (GuessFits L) := inferInstanceAs (Decidable (_ ∧ _))

/-- The guess is good for all binary exponents that occur. -/
theorem guessFits_all : (List.range 2200).all (fun i => decide (GuessFits (i - 1100))) = true := by
  decide +kernel

theorem leadingGuess_bounds {L : Int} (hlow : -1100 ≤ L) (hhigh : L < 1100) :
    (10 : ℚ) ^ leadingGuess L ≤ 2 ^ (L - 1) ∧ (2 : ℚ) ^ (L + 1) ≤ 10 ^ (leadingGuess L + 3) := by
  have hmem : (L + 1100).toNat ∈ List.range 2200 := List.mem_range.2 (by omega)
  have hfits := of_decide_eq_true (List.all_eq_true.1 guessFits_all _ hmem)
  have hcast : ((L + 1100).toNat : Int) - 1100 = L := by omega
  rw [hcast, GuessFits, ← zpow_le_zpow_iff (by decide) (by decide),
    ← zpow_le_zpow_iff (by decide) (by decide)]
    at hfits
  exact_mod_cast hfits

theorem leadingExponent_spec {num den : Nat} (hnum : num ≠ 0) (hden : den ≠ 0)
    (hlow : (2 : ℚ) ^ (-1080 : Int) < num / den) (hhigh : (num : ℚ) / den < 2 ^ (1080 : Int)) :
    (10 : ℚ) ^ leadingExponent num den ≤ num / den ∧
      (num : ℚ) / den < 10 ^ (leadingExponent num den + 1) := by
  obtain ⟨hbelow, habove⟩ := quotient_bounds hnum hden
  have hL := (zpow_lt_zpow_iff_right₀ (by norm_num)).1 (hlow.trans habove)
  have hL' := (zpow_lt_zpow_iff_right₀ (by norm_num)).1 (hbelow.trans hhigh)
  obtain ⟨hguess, hguess'⟩ :=
    leadingGuess_bounds (L := (num.log2 : Int) - den.log2) (by omega) (by omega)
  have hleast (k : Int) : decide ((scaleDecimal num den k).2 ≤ (scaleDecimal num den k).1) = true ↔
      (10 : ℚ) ^ k ≤ num / den := by
    have hside := le_scaleDecimal_iff num (Nat.pos_of_ne_zero hden) 1 k
    rw [decide_eq_true_iff]
    simpa using hside
  have hexponent : leadingExponent num den =
      if (10 : ℚ) ^ (leadingGuess ((num.log2 : Int) - den.log2) + 2) ≤ num / den then
        leadingGuess ((num.log2 : Int) - den.log2) + 2
      else if (10 : ℚ) ^ (leadingGuess ((num.log2 : Int) - den.log2) + 1) ≤ num / den then
        leadingGuess ((num.log2 : Int) - den.log2) + 1
      else leadingGuess ((num.log2 : Int) - den.log2) := by
    simp only [← hleast]
    rfl
  rw [hexponent]
  generalize leadingGuess ((num.log2 : Int) - den.log2) = guess at *
  split_ifs with htwo hone
  · exact ⟨htwo, by rw [add_assoc]; exact habove.trans_le hguess'⟩
  · exact ⟨hone, by rw [add_assoc]; exact lt_of_not_ge htwo⟩
  · exact ⟨hguess.trans hbelow.le, lt_of_not_ge hone⟩

/-! ## Neighbourhoods -/

namespace Neighbourhood

variable (v : Neighbourhood)

/-- The number lies between the ends, or is one of them if they belong to the neighbourhood. -/
def Contains (r : ℚ) : Prop :=
  if v.closed then (v.low : ℚ) / v.den ≤ r ∧ r ≤ v.high / v.den else (v.low : ℚ) / v.den < r ∧
    r < v.high / v.den

variable {v}

theorem contains_of_lt {r : ℚ} (hlow : (v.low : ℚ) / v.den < r) (hhigh : r < v.high / v.den) :
    v.Contains r := by
  unfold Contains
  split_ifs
  · exact ⟨hlow.le, hhigh.le⟩
  · exact ⟨hlow, hhigh⟩

variable (hden : 0 < v.den)
include hden

theorem holds_iff (c : Nat) (e : Int) : v.holds c e = true ↔ v.Contains (c * 10 ^ e) := by
  have hlow := scaleDecimal_le_iff v.low hden c e
  have hlow' := le_scaleDecimal_iff v.low hden c e
  have hhigh := le_scaleDecimal_iff v.high hden c e
  have hhigh' := scaleDecimal_le_iff v.high hden c e
  have hside : v.holds c e = if v.closed then
      decide ((scaleDecimal v.low v.den e).1 ≤ c * (scaleDecimal v.low v.den e).2) &&
        decide (c * (scaleDecimal v.high v.den e).2 ≤ (scaleDecimal v.high v.den e).1)
      else decide ((scaleDecimal v.low v.den e).1 < c * (scaleDecimal v.low v.den e).2) &&
        decide (c * (scaleDecimal v.high v.den e).2 < (scaleDecimal v.high v.den e).1) := by
    rw [scaleDecimal_snd v.high v.low]
    rfl
  rw [hside, Contains]
  split_ifs
  · rw [Bool.and_eq_true, decide_eq_true_iff, decide_eq_true_iff, hlow, hhigh]
  · rw [Bool.and_eq_true, decide_eq_true_iff, decide_eq_true_iff, ← not_le, ← not_le, hlow', hhigh',
      not_le, not_le]

/-- A point that is found lies in the neighbourhood and is at most one above the value. -/
theorem contains_of_onGrid {c : Nat} {e : Int} (h : v.onGrid e = some c) :
    v.Contains (c * 10 ^ e) ∧ ((c : ℚ) - 1) * 10 ^ e ≤ v.value / v.den := by
  set below := (scaleDecimal v.value v.den e).1 / (scaleDecimal v.value v.den e).2 with hbelow
  have hfound : v.holds c e = true ∧ c ≤ below + 1 := by
    have hnear :=
      nearestEven_bounds (scaleDecimal v.value v.den e).1 (scaleDecimal v.value v.den e).2
    simp only [onGrid, ← hbelow] at h hnear
    split at h
    · rename_i hhere hnext
      rw [← Option.some.inj h]
      refine ⟨?_, hnear.2⟩
      rcases Nat.eq_or_lt_of_le hnear.2 with heq | hlt
      · rwa [heq]
      · rwa [Nat.le_antisymm (Nat.le_of_lt_succ hlt) hnear.1]
    · rw [← Option.some.inj h]
      exact ⟨by assumption, Nat.le_succ _⟩
    · rw [← Option.some.inj h]
      exact ⟨by assumption, le_rfl⟩
    · cases h
  refine ⟨(holds_iff hden c e).1 hfound.1, ?_⟩
  have hfloor := (le_scaleDecimal_iff v.value hden below e).1 (Nat.div_mul_le_self ..)
  have hcast : (c : ℚ) - 1 ≤ below := by
    rw [sub_le_iff_le_add]
    exact_mod_cast hfound.2
  exact (mul_le_mul_of_nonneg_right hcast (by positivity)).trans hfloor

/-- A grid that is finer than the neighbourhood is wide has a point in it. -/
theorem isSome_onGrid {e : Int} (hlow : (v.low : ℚ) / v.den ≤ v.value / v.den)
    (hhigh : (v.value : ℚ) / v.den < v.high / v.den)
    (hwide : (10 : ℚ) ^ e < v.high / v.den - v.low / v.den) : (v.onGrid e).isSome = true := by
  set below := (scaleDecimal v.value v.den e).1 / (scaleDecimal v.value v.den e).2 with hbelow
  obtain ⟨-, hpos⟩ := scaleDecimal_spec v.value hden e
  have hfloor : (below : ℚ) * 10 ^ e ≤ v.value / v.den :=
    (le_scaleDecimal_iff v.value hden below e).1 (Nat.div_mul_le_self ..)
  have hceil : (v.value : ℚ) / v.den < ((below + 1 : Nat) : ℚ) * 10 ^ e := by
    rw [← not_le, ← le_scaleDecimal_iff v.value hden, not_le]
    rw [Nat.mul_comm]
    exact Nat.lt_mul_div_succ _ hpos
  have hsplit : ((below + 1 : Nat) : ℚ) * 10 ^ e = below * 10 ^ e + 10 ^ e := by
    push_cast
    ring
  -- if the point below the value is outside, the next one is not above the upper end
  have hhit : v.holds below e = true ∨ v.holds (below + 1) e = true := by
    rw [holds_iff hden, holds_iff hden]
    rcases lt_or_ge ((v.low : ℚ) / v.den) (below * 10 ^ e) with hin | hout
    · exact .inl (contains_of_lt hin (hfloor.trans_lt hhigh))
    · exact .inr (contains_of_lt (hlow.trans_lt hceil) (by rw [hsplit]; linarith))
  simp only [onGrid, ← hbelow]
  rcases hhit with hhit | hhit <;> rw [hhit] <;> split <;> simp_all

omit hden in
/-- The search stops at the first grid with a point, and goes no further than to one that is
known. -/
theorem exists_search {last : Int} (hlast : (v.onGrid last).isSome = true) (fuel : Nat) {e : Int}
    (hle : last ≤ e) (hfuel : e ≤ last + fuel) :
    ∃ c e', v.search fuel e = (c, e') ∧ last ≤ e' ∧ e' ≤ e ∧ v.onGrid e' = some c := by
  induction fuel generalizing e with
  | zero =>
    obtain rfl : e = last := by omega
    obtain ⟨c, hc⟩ := Option.isSome_iff_exists.1 hlast
    exact ⟨c, e, by rw [search, hc, Option.getD_some], le_rfl, le_rfl, hc⟩
  | succ fuel ih =>
    cases hgrid : v.onGrid e with
    | some c => exact ⟨c, e, by rw [search, hgrid], hle, le_rfl, hgrid⟩
    | none =>
      have hne : last ≠ e := by
        rintro rfl
        rw [hgrid] at hlast
        cases hlast
      obtain ⟨c, e', hsearch, hlow, hhigh, hfound⟩ := ih (e := e - 1) (by omega) (by omega)
      exact ⟨c, e', by rw [search, hgrid, hsearch], hlow, by omega, hfound⟩

end Neighbourhood

theorem neighbourhood_unit (a : Nat) (q : Int) :
    ((a * if 0 ≤ q then 1 <<< q.toNat else 1 : Nat) : ℚ) /
        (4 * if 0 ≤ q then 1 else 1 <<< (-q).toNat : Nat) = a / 4 * 2 ^ q ∧
      0 < 4 * if 0 ≤ q then 1 else 1 <<< (-q).toNat := by
  have hunit := choice_by_sign 2 q fun up _ => up
  have hden := choice_by_sign 2 q fun _ down => down
  have hpower := zpow_eq_div two_pos q
  rw [Nat.one_shiftLeft, Nat.one_shiftLeft, hunit, hden]
  refine ⟨?_, by positivity⟩
  push_cast at hpower ⊢
  rw [hpower]
  field_simp

section Steps

variable (x : Binary64)

theorem neighbourhood_den : 0 < x.neighbourhood.den := (neighbourhood_unit 0 x.scale).2

theorem neighbourhood_value : (x.neighbourhood.value : ℚ) / x.neighbourhood.den =
    ladder x.magnitude := by
  have hvalue := (neighbourhood_unit (4 * x.significand) x.scale).1
  rw [ladder, ← significand_eq, ← scale_eq]
  push_cast at hvalue ⊢
  rw [mul_div_cancel_left₀ _ (by norm_num)] at hvalue
  exact_mod_cast hvalue

theorem neighbourhood_high : (x.neighbourhood.high : ℚ) / x.neighbourhood.den =
    midpoint x.magnitude := by
  have hhigh := (neighbourhood_unit (4 * x.significand + 2) x.scale).1
  have hmiddle : midpoint x.magnitude = ((4 * x.significand + 2 : Nat) : ℚ) / 4 * 2 ^ x.scale := by
    rw [midpoint, ladder, ← significand_eq, ← scale_eq]
    push_cast
    ring
  rw [hmiddle, ← hhigh]
  rfl

theorem neighbourhood_closed : x.neighbourhood.closed = true ↔ x.magnitude % 2 = 0 := by
  have hparity : x.significand % 2 = x.magnitude % 2 := by
    rw [significand_eq, digitsOf]
    split_ifs <;> omega
  rw [← hparity]
  exact decide_eq_true_iff

theorem neighbourhood_low {k : Nat} (hk : x.magnitude = k + 1) :
    (x.neighbourhood.low : ℚ) / x.neighbourhood.den = midpoint k := by
  set below := if x.significand = Nat.pow 2 52 ∧ -1074 < x.scale then 1 else 2 with hbelow
  have hlow := (neighbourhood_unit (4 * x.significand - below) x.scale).1
  have hunit : (2 : ℚ) ^ scaleOf k / 2 = below / 4 * 2 ^ x.scale := by
    have hscale : scaleOf k = if x.significand = Nat.pow 2 52 ∧
        -1074 < x.scale then x.scale - 1 else x.scale := by
      rw [significand_eq, scale_eq, hk, scaleOf, scaleOf, digitsOf]
      simp only [Nat.pow_eq]
      split_ifs <;> omega
    rw [hscale, hbelow]
    split_ifs
    · rw [zpow_sub_one₀ (by norm_num)]
      push_cast
      ring
    · push_cast
      ring
  have hpos : 0 < x.significand := by
    rw [significand_eq, digitsOf]
    split_ifs <;> omega
  have hle : below ≤ 4 * x.significand := by
    rw [hbelow]
    split_ifs <;> omega
  have hmiddle : midpoint k = ((4 * x.significand - below : Nat) : ℚ) / 4 * 2 ^ x.scale := by
    rw [midpoint_eq, ← hk, ladder, ← significand_eq, ← scale_eq, hunit, Nat.cast_sub hle]
    push_cast
    ring
  rw [hmiddle, ← hlow]
  rfl

variable {x}

theorem rounds_of_contains {r : ℚ} (hx : x.magnitude ≠ 0) (h : x.neighbourhood.Contains r) :
    Rounds r x.magnitude := by
  obtain ⟨k, hk⟩ := Nat.exists_eq_add_one_of_ne_zero hx
  have hbelow {j : Nat} (hj : x.magnitude = j + 1) : j = k := by omega
  rw [Neighbourhood.Contains, neighbourhood_low x hk, neighbourhood_high] at h
  split_ifs at h with hclosed
  · have heven := x.neighbourhood_closed.1 hclosed
    exact ⟨h.2, fun j hj => hbelow hj ▸ h.1, fun hodd => by omega, fun j hj hodd => by omega⟩
  · exact ⟨h.2.le, fun j hj => hbelow hj ▸ h.1.le, fun _ => h.2, fun j hj _ => hbelow hj ▸ h.1⟩

end Steps

/-! ## The width of a neighbourhood -/

theorem smallest_le_unit (k : Nat) : (2 : ℚ) ^ (-1074 : Int) ≤ 2 ^ scaleOf k := by
  refine zpow_le_zpow_right₀ (by norm_num) ?_
  unfold scaleOf
  omega

theorem smallest_le_width (k : Nat) : (2 : ℚ) ^ (-1074 : Int) ≤ midpoint (k + 1) - midpoint k := by
  have hbelow := smallest_le_unit k
  have habove := smallest_le_unit (k + 1)
  rw [width_eq]
  linarith

theorem smallest_le_ladder (k : Nat) : (2 : ℚ) ^ (-1074 : Int) ≤ ladder (k + 1) := by
  rw [ladder_succ]
  exact (smallest_le_unit k).trans (le_add_of_nonneg_left (ladder_nonneg k))

/-- A neighbourhood is wider than the unit of 53 binary digits. -/
theorem ladder_lt_width (k : Nat) : ladder (k + 1) < 2 ^ 53 * (midpoint (k + 1) - midpoint k) := by
  have hunit := unit_pos (k + 1)
  rw [width_eq, ladder]
  by_cases hnext : (k + 1) % 2 ^ 52 = 0 ∧ 2 ^ 52 ≤ k
  · have hdigits : digitsOf (k + 1) = 2 ^ 52 := by
      unfold digitsOf
      split_ifs <;> omega
    have hscale : scaleOf k = scaleOf (k + 1) - 1 := by
      unfold scaleOf
      omega
    rw [hdigits, hscale, zpow_sub_one₀ (by norm_num)]
    push_cast
    linarith
  · have hdigits : (digitsOf (k + 1) : ℚ) < 2 ^ 53 := by exact_mod_cast digitsOf_lt (k + 1)
    have hscale : scaleOf k = scaleOf (k + 1) := by
      unfold scaleOf
      omega
    rw [hscale, add_self_div_two]
    exact mul_lt_mul_of_pos_right hdigits hunit

/-- Below `10 ^ -324` there is nothing to tell apart. -/
theorem ten_zpow_lt_smallest : (10 : ℚ) ^ (-324 : Int) < 2 ^ (-1074 : Int) := by
  have hpowers := zpow_le_zpow_iff (a := 2) (b := 10) (by decide) (by decide) (-1074) (-324)
  rw [← not_le]
  exact_mod_cast hpowers.not.2 (by decide +kernel)

theorem ladder_infinity : ladder infinityMagnitude = 2 ^ 1024 := by
  have hdigits : digitsOf infinityMagnitude = 2 ^ 52 := by decide
  have hscale : scaleOf infinityMagnitude = ((972 : Nat) : Int) := by decide
  rw [ladder, hdigits, hscale, zpow_natCast, Nat.cast_pow, Nat.cast_ofNat, ← pow_add]

theorem two_pow_lt_ten_zpow : (2 : ℚ) ^ 1024 < 10 ^ (309 : Int) := by
  have hpowers := zpow_le_zpow_iff (a := 10) (b := 2) (by decide) (by decide) 309 1024
  rw [← not_le]
  exact_mod_cast hpowers.not.2 (by decide +kernel)

section Search

variable {x : Binary64} {k : Nat} (hk : x.magnitude = k + 1)
include hk

theorem isSome_onGrid_of_lt {e : Int} (h : (10 : ℚ) ^ e < midpoint (k + 1) - midpoint k) :
    (x.neighbourhood.onGrid e).isSome = true := by
  have hlow := x.neighbourhood_low hk
  have hvalue := x.neighbourhood_value
  have hhigh := x.neighbourhood_high
  rw [hk] at hvalue hhigh
  refine Neighbourhood.isSome_onGrid x.neighbourhood_den ?_ ?_ ?_
  · rw [hlow, hvalue]
    exact (midpoint_lt_ladder k).le
  · rw [hvalue, hhigh]
    exact ladder_lt_midpoint (k + 1)
  · rwa [hlow, hhigh]

/-- The search starts at the leading digit. -/
theorem leadingExponent_bounds (hx : x.isFinite = true) :
    (10 : ℚ) ^ leadingExponent x.neighbourhood.value x.neighbourhood.den ≤ ladder (k + 1) ∧
      ladder (k + 1) < 10 ^ (leadingExponent x.neighbourhood.value x.neighbourhood.den + 1) := by
  have hfinite : x.magnitude < infinityMagnitude := by simpa [isFinite] using hx
  have hvalue := x.neighbourhood_value
  rw [hk] at hvalue hfinite
  have hsmallest := smallest_le_ladder k
  have hlow : (2 : ℚ) ^ (-1080 : Int) < ladder (k + 1) :=
    (zpow_lt_zpow_right₀ (by norm_num) (by norm_num)).trans_le hsmallest
  have hhigh : ladder (k + 1) < 2 ^ (1080 : Int) := by
    have hinfinity := ladder_strictMono hfinite
    rw [ladder_infinity, ← zpow_natCast] at hinfinity
    exact hinfinity.trans (zpow_lt_zpow_right₀ (by norm_num) (by norm_num))
  have hnonzero : x.neighbourhood.value ≠ 0 := by
    intro h
    rw [h, Nat.cast_zero, zero_div] at hvalue
    exact absurd (hvalue ▸ hlow) (not_lt.2 (by positivity))
  rw [← hvalue] at hlow hhigh ⊢
  exact leadingExponent_spec hnonzero x.neighbourhood_den.ne' hlow hhigh

/-- The search ends after seventeen digits or at `10 ^ -324`. -/
theorem exists_digits (hx : x.isFinite = true) : ∃ c e,
    x.neighbourhood.search 17 (leadingExponent x.neighbourhood.value x.neighbourhood.den) = (c, e) ∧
      -324 ≤ e ∧ c ≤ 10 ^ 17 ∧ Rounds (c * 10 ^ e) x.magnitude := by
  obtain ⟨hlead, hlead'⟩ := leadingExponent_bounds hk hx
  set first := leadingExponent x.neighbourhood.value x.neighbourhood.den
  have hsmallest := smallest_le_ladder k
  have hfirst : -324 ≤ first := by
    have hlt :=
      (zpow_lt_zpow_iff_right₀ (by norm_num)).1
        (ten_zpow_lt_smallest.trans (hsmallest.trans_lt hlead'))
    omega
  have hlast : (x.neighbourhood.onGrid (max (first - 16) (-324))).isSome = true := by
    refine isSome_onGrid_of_lt hk ?_
    rcases max_choice (first - 16) (-324) with heq | heq
    · -- the seventeenth digit
      have hwide := ladder_lt_width k
      have hpos := midpoint_strictMono (Nat.lt_succ_self k)
      rw [heq, zpow_sub₀ (by norm_num), div_lt_iff₀ (by positivity)]
      norm_num at hwide ⊢
      linarith
    · rw [heq]
      exact ten_zpow_lt_smallest.trans_le (smallest_le_width k)
  obtain ⟨c, e, hsearch, hlow, -, hfound⟩ :=
    Neighbourhood.exists_search hlast 17 (e := first) (by omega) (by push_cast; omega)
  obtain ⟨hcontains, hnext⟩ := Neighbourhood.contains_of_onGrid x.neighbourhood_den hfound
  refine ⟨c, e, hsearch, by omega, ?_, rounds_of_contains (by omega) hcontains⟩
  have hlt : ((c : ℚ) - 1) * 10 ^ e < 10 ^ (17 : Int) * 10 ^ e := by
    rw [x.neighbourhood_value, hk] at hnext
    rw [← zpow_add₀ (by norm_num)]
    exact hnext.trans_lt (hlead'.trans_le (zpow_le_zpow_right₀ (by norm_num) (by omega)))
  have hcast := lt_of_mul_lt_mul_right hlt (by positivity)
  rw [sub_lt_iff_lt_add] at hcast
  have hnat : c < 10 ^ 17 + 1 := by exact_mod_cast hcast
  omega

end Search

end Binary64

/-! ## Decimal numbers that read back -/

namespace Decimal

open Binary64 (Rounds RoundsTo ladder midpoint infinityMagnitude)

/-- The absolute value of a decimal number. -/
def abs (d : Decimal) : ℚ := d.significand * 10 ^ d.exponent

/-- A decimal number of at most seventeen digits, or a power of ten, that rounds to a given
number. -/
structure ReadsBack (d : Decimal) (x : Binary64) : Prop where
  sign : d.negative = x.isNegative
  pos : 0 < d.significand
  le : d.significand ≤ 10 ^ 17
  exponent : -324 ≤ d.exponent
  rounds : Rounds d.abs x.magnitude

/-- Dropping zeros at the end keeps the value. -/
theorem trim_spec (fuel c : Nat) (e : Int) :
    ((trim fuel c e).1 : ℚ) * 10 ^ (trim fuel c e).2 = c * 10 ^ e ∧ (trim fuel c e).1 ≤ c ∧
      e ≤ (trim fuel c e).2 := by
  induction fuel generalizing c e with
  | zero => exact ⟨rfl, le_rfl, le_rfl⟩
  | succ fuel ih =>
    unfold trim
    split_ifs with hzero
    · obtain ⟨hvalue, hle, hexponent⟩ := ih (c / 10) (e + 1)
      refine ⟨?_, by omega, by omega⟩
      have hten : (c : ℚ) = (c / 10 : Nat) * 10 := by
        exact_mod_cast (Nat.div_mul_cancel (Nat.dvd_of_mod_eq_zero hzero.2)).symm
      rw [hvalue, zpow_add_one₀ (by norm_num), hten]
      ring
    · exact ⟨rfl, le_rfl, le_rfl⟩

/-- The nearest number to a decimal number of moderate size. -/
theorem roundsTo_nearest {d : Decimal} (hpos : 0 < d.significand) (hlow : -324 ≤ d.exponent)
    (hhigh : d.exponent ≤ 310) : RoundsTo d.negative d.abs d.nearest := by
  have hround := Binary64.roundsTo_roundRatio d.negative (d.significand * 10 ^ d.exponent.toNat)
    (Nat.pow_pos (n := (-d.exponent).toNat) (show 0 < 10 by decide)).ne'
  have hpower := Binary64.zpow_eq_div (show 0 < 10 by decide) d.exponent
  push_cast at hround hpower
  rw [abs, hpower, ← mul_div_assoc, nearest, if_neg hpos.ne', if_neg (by omega), if_neg (by omega)]
  rw [← Binary64.choice_by_sign 10 d.exponent fun up down =>
    Binary64.roundRatio d.negative (d.significand * up) down, Nat.mul_one] at hround
  exact hround

variable {d : Decimal} {x : Binary64} (hx : x.isFinite = true)
include hx

namespace ReadsBack

/-- What is not too large for a number has a moderate exponent. -/
theorem exponent_le (h : d.ReadsBack x) : d.exponent ≤ 308 := by
  have hfinite : x.magnitude < infinityMagnitude := by simpa [Binary64.isFinite] using hx
  have hone : (1 : ℚ) ≤ d.significand := by exact_mod_cast h.pos
  have hlt : (10 : ℚ) ^ d.exponent < 10 ^ (309 : Int) := by
    calc (10 : ℚ) ^ d.exponent ≤ d.significand * 10 ^ d.exponent :=
          le_mul_of_one_le_left (by positivity) hone
      _ ≤ midpoint x.magnitude := h.rounds.above
      _ < ladder (x.magnitude + 1) := Binary64.midpoint_lt_ladder _
      _ ≤ ladder infinityMagnitude := Binary64.ladder_strictMono.monotone hfinite
      _ = 2 ^ 1024 := Binary64.ladder_infinity
      _ < 10 ^ (309 : Int) := Binary64.two_pow_lt_ten_zpow
  have hexponent := (zpow_lt_zpow_iff_right₀ (by norm_num)).1 hlt
  omega

end ReadsBack

/-- The digits that are found for a number read back as it. -/
theorem readsBack_shortest (hzero : x.magnitude ≠ 0) : x.shortest.ReadsBack x := by
  obtain ⟨k, hk⟩ := Nat.exists_eq_add_one_of_ne_zero hzero
  obtain ⟨c, e, hsearch, hlow, hle, hrounds⟩ := Binary64.exists_digits hk hx
  obtain ⟨hvalue, htrim, hexponent⟩ := trim_spec 20 c e
  have hshortest : x.shortest = ⟨x.isNegative, (trim 20 c e).1, (trim 20 c e).2⟩ := by
    have hnonzero : x.isZero = false := by simpa [Binary64.isZero] using hzero
    simp only [Binary64.shortest, hnonzero, hsearch, Bool.false_eq_true, if_false]
  rw [hshortest]
  refine ⟨rfl, ?_, htrim.trans hle, hlow.trans hexponent, by rwa [abs, hvalue]⟩
  rcases Nat.eq_zero_or_pos (trim 20 c e).1 with h | h
  · -- zero is not in the neighbourhood
    rw [← hvalue, h, Nat.cast_zero, zero_mul] at hrounds
    have hpos := (Binary64.ladder_nonneg k).trans_lt (Binary64.ladder_lt_midpoint k)
    exact absurd (hrounds.below k hk) (not_le.2 hpos)
  · exact h

/-- The number nearest to the digits that are found for a finite number is that number. -/
theorem nearest_shortest : x.shortest.nearest = x := by
  by_cases hzero : x.isZero = true
  · have hshortest : x.shortest = ⟨x.isNegative, 0, 0⟩ := if_pos hzero
    rw [hshortest, Binary64.eq_zero_of_isZero hzero]
    cases x.isNegative <;> rfl
  · have hback := readsBack_shortest hx (by simpa [Binary64.isZero] using hzero)
    have hnearest :=
      roundsTo_nearest hback.pos hback.exponent ((hback.exponent_le hx).trans (by decide))
    rw [hback.sign] at hnearest
    exact hnearest.eq_of_rounds hx hback.rounds

end Decimal

end TagMachine
