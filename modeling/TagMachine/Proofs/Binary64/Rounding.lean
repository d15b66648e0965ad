import TagMachine.Proofs.Binary64.Exact

set_option autoImplicit false

/-! # Rounding to the nearest binary64 number

The magnitudes of the numbers count the steps of a ladder (`ladder`): each step is as wide as a unit
in the last place, and no step is narrower than the one below it. A rational number rounds to a step
if it lies between the middles of the gaps around it, and in the middle of a gap it rounds to the
even one (`Rounds`). That determines the step (`Rounds.unique`), and `roundRatio` finds it
(`roundsTo_roundRatio`); so products and quotients are the numbers that the exact ones round to
(`roundsTo_mul`, `roundsTo_div`).

Rounding moves a number that is not too small by a factor of at most `slack`, which is `1 + 2 ^ -53`
(`Rounds.near`). The middles of neighbouring gaps are farther apart than that, so every further
factor of this size moves what a number rounds to by one place at most (`Rounds.le_add`).
-/

namespace TagMachine.Binary64

/-! ## The ladder -/

theorem le_digitsOf {k : Nat} (h : 2 ^ 52 ≤ k) : 2 ^ 52 ≤ digitsOf k := by
  unfold digitsOf
  split_ifs <;> omega

theorem scaleOf_le_succ (k : Nat) : scaleOf k ≤ scaleOf (k + 1) := by
  unfold scaleOf
  omega

theorem unit_pos (k : Nat) : (0 : ℚ) < 2 ^ scaleOf k := by positivity

theorem ladder_nonneg (k : Nat) : 0 ≤ ladder k := by
  unfold ladder
  positivity

/-- Every step is one of `M` units in a binade. -/
theorem exists_binade (k : Nat) : ∃ E M : Nat,
    k = E * 2 ^ 52 + M ∧ M < 2 ^ 53 ∧ (E = 0 ∨ 2 ^ 52 ≤ M) ∧
    scaleOf k = (E : Int) - 1074 := by
  refine ⟨k / 2 ^ 52 - 1, k - (k / 2 ^ 52 - 1) * 2 ^ 52, by omega, by omega, by omega, ?_⟩
  unfold scaleOf
  omega

/-- A step is as wide as the unit in the last place. -/
theorem ladder_succ (k : Nat) : ladder (k + 1) = ladder k + 2 ^ scaleOf k := by
  obtain ⟨E, M, hk, hM, hE, hscale⟩ := exists_binade k
  have hnext : ladder (k + 1) = (M + 1 : Nat) * 2 ^ ((E : Int) - 1074) := by
    rw [hk, Nat.add_assoc]
    exact ladder_binade hM (hE.imp_right Nat.le_succ_of_le)
  rw [hnext, hscale, hk, ladder_binade hM.le hE]
  push_cast
  ring

theorem ladder_strictMono : StrictMono ladder :=
  strictMono_nat_of_lt_succ fun k => by
    rw [ladder_succ]
    exact lt_add_of_pos_right _ (unit_pos k)

/-! ## The middles of the gaps -/

/-- The middle between a step and the next one. -/
def midpoint (k : Nat) : ℚ := ladder k + 2 ^ scaleOf k / 2

theorem midpoint_eq (k : Nat) : midpoint k = ladder (k + 1) - 2 ^ scaleOf k / 2 := by
  rw [ladder_succ, midpoint]
  ring

theorem ladder_lt_midpoint (k : Nat) : ladder k < midpoint k :=
  lt_add_of_pos_right _ (half_pos (unit_pos k))

theorem midpoint_lt_ladder (k : Nat) : midpoint k < ladder (k + 1) := by
  rw [midpoint_eq]
  exact sub_lt_self _ (half_pos (unit_pos k))

theorem midpoint_strictMono : StrictMono midpoint :=
  strictMono_nat_of_lt_succ fun k => (midpoint_lt_ladder k).trans (ladder_lt_midpoint (k + 1))

theorem width_eq (k : Nat) :
    midpoint (k + 1) - midpoint k = (2 ^ scaleOf k + 2 ^ scaleOf (k + 1)) / 2 := by
  rw [midpoint, ladder_succ, midpoint]
  ring

theorem midpoint_nonneg (k : Nat) : 0 ≤ midpoint k :=
  (ladder_nonneg k).trans (ladder_lt_midpoint k).le

/-- The number `r` is nearest to the step `k`: it is not beyond the middles of the gaps above and
below, and in such a middle only if the step is even. -/
structure Rounds (r : ℚ) (k : Nat) : Prop where
  above : r ≤ midpoint k
  below : ∀ j, k = j + 1 → midpoint j ≤ r
  above_odd : k % 2 = 1 → r < midpoint k
  below_odd : ∀ j, k = j + 1 → k % 2 = 1 → midpoint j < r

namespace Rounds

variable {r : ℚ} {j k : Nat}

theorem zero : Rounds 0 0 where
  above := midpoint_nonneg 0
  below := nofun
  above_odd := nofun
  below_odd := nofun

/-- What lies below the middle of a gap does not round to a step above it. -/
theorem le_of_lt (h : Rounds r k) (hr : r < midpoint j) : k ≤ j := by
  by_contra hlt
  obtain ⟨i, rfl⟩ := Nat.exists_eq_add_one_of_ne_zero (Nat.ne_zero_of_lt (Nat.not_le.1 hlt))
  have hmid := midpoint_strictMono.monotone (show j ≤ i by omega)
  exact absurd (h.below i rfl) (not_le.2 (hr.trans_le hmid))

/-- What lies above the middle of a gap does not round to a step below it. -/
theorem lt_of_lt (h : Rounds r k) (hr : midpoint j < r) : j < k := by
  by_contra hle
  have hmid := midpoint_strictMono.monotone (Nat.not_lt.1 hle)
  exact absurd h.above (not_le.2 (hmid.trans_lt hr))

/-- A number rounds to one step only: of two neighbours one is odd. -/
theorem le_of_rounds (h : Rounds r k) (h' : Rounds r j) : k ≤ j := by
  by_contra hlt
  obtain ⟨i, rfl⟩ := Nat.exists_eq_add_one_of_ne_zero (Nat.ne_zero_of_lt (Nat.not_le.1 hlt))
  have hle := (h.below i rfl).trans h'.above
  obtain rfl : i = j := by
    have hij := midpoint_strictMono.le_iff_le.1 hle
    omega
  rcases Nat.mod_two_eq_zero_or_one i with heven | hodd
  · exact absurd (h.below_odd i rfl (by omega)) (not_lt.2 h'.above)
  · exact absurd (h'.above_odd hodd) (not_lt.2 (h.below i rfl))

theorem unique (h : Rounds r k) (h' : Rounds r j) : k = j :=
  Nat.le_antisymm (h.le_of_rounds h') (h'.le_of_rounds h)

end Rounds

/-! ## What rounding finds -/

/-- The number `z` has the given sign and the magnitude that `r` rounds to, or is infinite where
there is none. -/
def RoundsTo (negative : Bool) (r : ℚ) (z : Binary64) : Prop :=
  ∃ k, Rounds r k ∧ z = ofMagnitude negative (min k infinityMagnitude)

/-- The integer nearest to a quotient is at most a half away, and exactly a half only if it is
even. -/
theorem nearestEven_spec (num : Nat) {den : Nat} (hden : 0 < den) {M : Nat}
    (hM : nearestEven num den = M) :
    2 * num ≤ (2 * M + 1) * den ∧ 2 * M * den ≤ 2 * num + den ∧
      (M % 2 = 1 → 2 * num < (2 * M + 1) * den ∧ 2 * M * den < 2 * num + den) := by
  have hsplit := Nat.div_add_mod num den
  have hrest := Nat.mod_lt num hden
  unfold nearestEven at hM
  simp only at hM
  generalize num / den = floor at *
  generalize num % den = rest at *
  have hmul (n : Nat) : (2 * n + 1) * den = 2 * (den * n) + den ∧ 2 * n * den = 2 * (den * n) := by
    constructor <;> ring
  have hsucc : den * (floor + 1) = den * floor + den := by ring
  rw [(hmul M).1, (hmul M).2]
  split_ifs at hM with hlow hhigh
  · subst hM
    omega
  · subst hM
    omega
  · -- a tie goes to the even one
    rcases Nat.mod_two_eq_zero_or_one floor with heven | hodd
    · obtain rfl : floor = M := by omega
      omega
    · obtain rfl : floor + 1 = M := by omega
      omega

/-- Of the powers with an exponent and with its negative one is `1`, so nothing depends on which is
taken. -/
theorem choice_by_sign {α : Type} (base : Nat) (e : Int) (f : Nat → Nat → α) :
    (if 0 ≤ e then f (base ^ e.toNat) 1 else f 1 (base ^ (-e).toNat)) =
      f (base ^ e.toNat) (base ^ (-e).toNat) := by
  split_ifs with he
  · rw [Int.toNat_of_nonpos (neg_nonpos.2 he), pow_zero]
  · rw [Int.toNat_of_nonpos (le_of_not_ge he), pow_zero]

section Powers

variable {base : Nat} (hbase : 0 < base)
include hbase

/-- A power with an exponent of either sign, as a quotient. -/
theorem zpow_eq_div (e : Int) : (base : ℚ) ^ e = base ^ e.toNat / base ^ (-e).toNat := by
  have hbase' : (base : ℚ) ≠ 0 := by exact_mod_cast hbase.ne'
  rw [← zpow_natCast, ← zpow_natCast, ← zpow_sub₀ hbase']
  congr 1
  omega

/-- A quotient divided by a power, again as a quotient. -/
theorem quotient_div_zpow (num : Nat) {den : Nat} (hden : 0 < den) (e : Int) {p : Nat × Nat}
    (hp : p = (num * base ^ (-e).toNat, den * base ^ e.toNat)) :
    (p.1 : ℚ) / p.2 = num / den / base ^ e ∧ 0 < p.2 := by
  subst hp
  refine ⟨?_, by positivity⟩
  rw [zpow_eq_div hbase]
  push_cast
  field_simp

end Powers

theorem scaleDown_spec (num : Nat) {den : Nat} (hden : 0 < den) (q : Int) :
    ((scaleDown num den q).1 : ℚ) / (scaleDown num den q).2 = num / den / 2 ^ q ∧
      0 < (scaleDown num den q).2 := by
  refine quotient_div_zpow two_pos num hden q ?_
  rw [scaleDown, ← choice_by_sign 2 q fun up down => (num * down, den * up), Nat.shiftLeft_eq,
    Nat.shiftLeft_eq, Nat.mul_one, Nat.mul_one]

/-- A quotient lies within a factor of two of what the numbers of binary digits say. -/
theorem quotient_bounds {num den : Nat} (hnum : num ≠ 0) (hden : den ≠ 0) :
    (2 : ℚ) ^ ((num.log2 : Int) - den.log2 - 1) < num / den ∧
      (num : ℚ) / den < 2 ^ ((num.log2 : Int) - den.log2 + 1) := by
  have hden' : (0 : ℚ) < den := by exact_mod_cast Nat.pos_of_ne_zero hden
  have hnumLow : (2 : ℚ) ^ (num.log2 : Int) ≤ num := by exact_mod_cast Nat.log2_self_le hnum
  have hnumHigh : (num : ℚ) < 2 ^ ((num.log2 : Int) + 1) := by
    exact_mod_cast Nat.lt_log2_self (n := num)
  have hdenLow : (2 : ℚ) ^ (den.log2 : Int) ≤ den := by exact_mod_cast Nat.log2_self_le hden
  have hdenHigh : (den : ℚ) < 2 ^ ((den.log2 : Int) + 1) := by
    exact_mod_cast Nat.lt_log2_self (n := den)
  have hlow : (num.log2 : Int) - den.log2 - 1 = num.log2 - (den.log2 + 1) := by ring
  have hhigh : (num.log2 : Int) - den.log2 + 1 = num.log2 + 1 - den.log2 := by ring
  constructor
  · rw [hlow, zpow_sub₀ (by norm_num)]
    calc (2 : ℚ) ^ (num.log2 : Int) / 2 ^ ((den.log2 : Int) + 1) < 2 ^ (num.log2 : Int) / den :=
          div_lt_div_of_pos_left (by positivity) hden' hdenHigh
      _ ≤ num / den := div_le_div_of_nonneg_right hnumLow hden'.le
  · rw [hhigh, zpow_sub₀ (by norm_num)]
    calc (num : ℚ) / den < 2 ^ ((num.log2 : Int) + 1) / den :=
          div_lt_div_of_pos_right hnumHigh hden'
      _ ≤ 2 ^ ((num.log2 : Int) + 1) / 2 ^ (den.log2 : Int) :=
          div_le_div_of_nonneg_left (by positivity) (by positivity) hdenLow

section Significand

variable {r : ℚ} {E M : Nat}

/-- A number that was rounded to `M` units rounds to the step with that significand. -/
theorem rounds_of_significand (hM : M ≤ 2 ^ 53)
    (hE : E = 0 ∨ (2 : ℚ) ^ 52 * 2 ^ ((E : Int) - 1074) ≤ r ∧ 2 ^ 52 ≤ M)
    (habove : r ≤ (M + 1 / 2) * 2 ^ ((E : Int) - 1074))
    (hbelow : (M - 1 / 2) * 2 ^ ((E : Int) - 1074) ≤ r)
    (hodd : M % 2 = 1 → r < (M + 1 / 2) * 2 ^ ((E : Int) - 1074) ∧
      (M - 1 / 2) * 2 ^ ((E : Int) - 1074) < r) :
    Rounds r (E * 2 ^ 52 + M) := by
  have hladder := ladder_binade hM (hE.imp_right And.right)
  have hpos : (0 : ℚ) < 2 ^ ((E : Int) - 1074) := by positivity
  have hmiddle : (M + 1 / 2 : ℚ) * 2 ^ ((E : Int) - 1074) ≤ midpoint (E * 2 ^ 52 + M) := by
    have hscale : (E : Int) - 1074 ≤ scaleOf (E * 2 ^ 52 + M) := by
      unfold scaleOf
      omega
    have hunit : (2 : ℚ) ^ ((E : Int) - 1074) ≤ 2 ^ scaleOf (E * 2 ^ 52 + M) :=
      zpow_le_zpow_right₀ (by norm_num) hscale
    rw [midpoint, hladder, add_mul, one_div_mul_eq_div]
    exact add_le_add_right (div_le_div_of_nonneg_right hunit (by norm_num)) _
  have hlower : ∀ j, E * 2 ^ 52 + M = j + 1 →
      midpoint j = (M - 1 / 2) * 2 ^ ((E : Int) - 1074) ∨ midpoint j < r := by
    intro j hj
    by_cases hbinade : E = 0 ∨ 2 ^ 52 < M
    · have hscale : scaleOf j = (E : Int) - 1074 := by
        unfold scaleOf
        omega
      refine .inl ?_
      rw [midpoint_eq, ← hj, hladder, hscale]
      ring
    · -- below a power of two the steps are narrower, but the number is not below the power
      refine .inr ((midpoint_lt_ladder j).trans_le ?_)
      have hpower : M = 2 ^ 52 := by omega
      rw [← hj, hladder, hpower]
      push_cast
      exact (hE.resolve_left (by omega)).1
  have hparity : (E * 2 ^ 52 + M) % 2 = M % 2 := by omega
  refine ⟨habove.trans hmiddle, fun j hj => ?_, fun h => ?_, fun j hj h => ?_⟩
  · rcases hlower j hj with heq | hlt
    · rwa [heq]
    · exact hlt.le
  · exact (hodd (hparity ▸ h)).1.trans_le hmiddle
  · rcases hlower j hj with heq | hlt
    · rw [heq]
      exact (hodd (hparity ▸ h)).2
    · exact hlt

end Significand

/-- The scale that is chosen leaves a significand of at most 53 digits, and of fewer only for the
smallest scale. -/
theorem exists_scale {num den : Nat} (hnum : num ≠ 0) (hden : den ≠ 0) (negative : Bool) :
    ∃ E : Nat, (num : ℚ) / den < 2 ^ 53 * 2 ^ ((E : Int) - 1074) ∧
      (E = 0 ∨ (2 : ℚ) ^ 52 * 2 ^ ((E : Int) - 1074) ≤ num / den) ∧
      roundRatio negative num den = ofMagnitude negative (min (E * 2 ^ 52 +
        nearestEven (scaleDown num den ((E : Int) - 1074)).1
          (scaleDown num den ((E : Int) - 1074)).2)
        infinityMagnitude) := by
  obtain ⟨hlow, hhigh⟩ := quotient_bounds hnum hden
  have hdenPos := Nat.pos_of_ne_zero hden
  set guess : Int := (num.log2 : Int) - den.log2 with hguess
  set low : Int := max (guess - 53) (-1074) with hlowDef
  obtain ⟨hquotient, hscaled⟩ := scaleDown_spec num hdenPos low
  have hfloor : (scaleDown num den low).1 / (scaleDown num den low).2 < 2 ^ 53 ↔
      (num : ℚ) / den < 2 ^ 53 * 2 ^ low := by
    have hscaled' : (0 : ℚ) < (scaleDown num den low).2 := by exact_mod_cast hscaled
    rw [Nat.div_lt_iff_lt_mul hscaled, ← div_lt_iff₀ (by positivity), ← hquotient,
      div_lt_iff₀ hscaled']
    exact_mod_cast Iff.rfl
  have hround (q : Int) (hq : -1074 ≤ q)
      (hchoice : (if (scaleDown num den low).1 / (scaleDown num den low).2 < Nat.pow 2 53
        then low else low + 1) = q) :
      roundRatio negative num den = ofMagnitude negative (min ((q + 1074).toNat * 2 ^ 52 +
        nearestEven (scaleDown num den (((q + 1074).toNat : Int) - 1074)).1
          (scaleDown num den (((q + 1074).toNat : Int) - 1074)).2) infinityMagnitude) := by
    have hcast : ((q + 1074).toNat : Int) - 1074 = q := by omega
    rw [hcast, roundRatio, if_neg hnum, ← hchoice]
    rfl
  -- the logarithms leave 53 or 54 digits, and the floor tells which
  by_cases hsmall : (num : ℚ) / den < 2 ^ 53 * 2 ^ low
  · have hcast : ((low + 1074).toNat : Int) - 1074 = low := by omega
    refine ⟨(low + 1074).toNat, by rwa [hcast], ?_,
      hround low (by omega) (if_pos (hfloor.2 hsmall))⟩
    rw [hcast]
    rcases le_or_gt (guess - 53) (-1074) with hle | hgt
    · exact .inl (by omega)
    · have heq : (52 : Int) + low = guess - 1 := by omega
      refine .inr ?_
      rw [← zpow_natCast (2 : ℚ) 52, ← zpow_add₀ (by norm_num), Nat.cast_ofNat, heq]
      exact hlow.le
  · have hcast : ((low + 1 + 1074).toNat : Int) - 1074 = low + 1 := by omega
    refine ⟨(low + 1 + 1074).toNat, ?_, .inr ?_,
      hround (low + 1) (by omega) (if_neg fun h => hsmall (hfloor.1 h))⟩
    · rw [hcast, ← zpow_natCast (2 : ℚ) 53, ← zpow_add₀ (by norm_num)]
      exact hhigh.trans_le (zpow_le_zpow_right₀ (by norm_num) (by push_cast; omega))
    · rw [hcast, zpow_add_one₀ (by norm_num)]
      linarith [not_lt.1 hsmall]

/-- Rounding a quotient finds the step that it rounds to. -/
theorem roundsTo_roundRatio (negative : Bool) (num : Nat) {den : Nat} (hden : den ≠ 0) :
    RoundsTo negative (num / den) (roundRatio negative num den) := by
  by_cases hnum : num = 0
  · subst hnum
    rw [Nat.cast_zero, zero_div]
    exact ⟨0, .zero, rfl⟩
  obtain ⟨E, hhigh, hlow, heq⟩ := exists_scale hnum hden negative
  obtain ⟨hquotient, hpos⟩ := scaleDown_spec num (Nat.pos_of_ne_zero hden) ((E : Int) - 1074)
  refine ⟨_, ?_, heq⟩
  generalize scaleDown num den ((E : Int) - 1074) = fraction at hquotient hpos
  obtain ⟨n, d⟩ := fraction
  simp only at hquotient hpos ⊢
  have hd : (0 : ℚ) < d := by exact_mod_cast hpos
  have hunit : (0 : ℚ) < 2 ^ ((E : Int) - 1074) := by positivity
  have hvalue : (num : ℚ) / den = n / d * 2 ^ ((E : Int) - 1074) := by
    rw [hquotient, div_mul_cancel₀ _ hunit.ne']
  rw [hvalue] at hlow hhigh ⊢
  obtain ⟨hbelow, habove⟩ := nearestEven_bounds n d
  obtain ⟨hspecAbove, hspecBelow, hspecOdd⟩ := nearestEven_spec n hpos rfl
  set M := nearestEven n d
  have hfloor : n / d < 2 ^ 53 := by
    rw [Nat.div_lt_iff_lt_mul hpos]
    have hlt := (mul_lt_mul_iff_left₀ hunit).1 hhigh
    rw [div_lt_iff₀ hd] at hlt
    exact_mod_cast hlt
  -- the bounds on the significand, as bounds on the quotient
  have hupper : (n : ℚ) / d ≤ M + 1 / 2 := by
    have hcast : (2 * n : ℚ) ≤ (2 * M + 1) * d := by exact_mod_cast hspecAbove
    rw [div_le_iff₀ hd]
    linarith
  have hlower : (M : ℚ) - 1 / 2 ≤ n / d := by
    have hcast : (2 * M * d : ℚ) ≤ 2 * n + d := by exact_mod_cast hspecBelow
    rw [le_div_iff₀ hd]
    linarith
  refine rounds_of_significand (by omega) ?_ (mul_le_mul_of_nonneg_right hupper hunit.le)
    (mul_le_mul_of_nonneg_right hlower hunit.le) fun hodd => ?_
  · refine hlow.imp_right fun h => ⟨h, ?_⟩
    have hle := (mul_le_mul_iff_left₀ hunit).1 h
    rw [le_div_iff₀ hd] at hle
    have hle' : 2 ^ 52 ≤ n / d := (Nat.le_div_iff_mul_le hpos).2 (by exact_mod_cast hle)
    omega
  · obtain ⟨hltAbove, hltBelow⟩ := hspecOdd hodd
    have hcastAbove : (2 * n : ℚ) < (2 * M + 1) * d := by exact_mod_cast hltAbove
    have hcastBelow : (2 * M * d : ℚ) < 2 * n + d := by exact_mod_cast hltBelow
    constructor
    · refine mul_lt_mul_of_pos_right ?_ hunit
      rw [div_lt_iff₀ hd]
      linarith
    · refine mul_lt_mul_of_pos_right ?_ hunit
      rw [lt_div_iff₀ hd]
      linarith

namespace RoundsTo

variable {negative : Bool} {r : ℚ} {z : Binary64}

theorem isNegative_eq (h : RoundsTo negative r z) : z.isNegative = negative := by
  obtain ⟨k, -, rfl⟩ := h
  exact isNegative_ofMagnitude _ ((Nat.min_le_right ..).trans_lt (by decide))

/-- The magnitude of a number that is not too large is the step that was found. -/
theorem rounds {j : Nat} (h : RoundsTo negative r z) (hr : ∀ k, Rounds r k → k ≤ j)
    (hj : j < infinityMagnitude) : Rounds r z.magnitude ∧ z.isFinite = true := by
  obtain ⟨k, hk, rfl⟩ := h
  have hlt : k < infinityMagnitude := (hr k hk).trans_lt hj
  rw [Nat.min_eq_left hlt.le, isFinite, magnitude_ofMagnitude _ (hlt.trans (by decide)),
    decide_eq_true_iff]
  exact ⟨hk, hlt⟩

theorem magnitude_eq {k : Nat} (h : RoundsTo negative r z) (hk : Rounds r k)
    (hlt : k < infinityMagnitude) : z.magnitude = k :=
  (h.rounds (fun _ hj => (hj.unique hk).le) hlt).1.unique hk

theorem eq_of_rounds {x : Binary64} (h : RoundsTo x.isNegative r z) (hx : x.isFinite = true)
    (hr : Rounds r x.magnitude) : z = x :=
  eq_of_magnitude h.isNegative_eq (h.magnitude_eq hr (by simpa [isFinite] using hx))

end RoundsTo

/-! ## Products and quotients -/

theorem roundsTo_roundScaled (negative : Bool) (m : Nat) (q : Int) :
    RoundsTo negative (m * 2 ^ q) (roundScaled negative m q) := by
  have hround := roundsTo_roundRatio negative (m * 2 ^ q.toNat) (Nat.two_pow_pos (-q).toNat).ne'
  have hpower := zpow_eq_div two_pos q
  push_cast at hround hpower
  rw [hpower, ← mul_div_assoc, roundScaled, Nat.shiftLeft_eq, Nat.one_shiftLeft]
  rw [← choice_by_sign 2 q fun up down => roundRatio negative (m * up) down, Nat.mul_one] at hround
  exact hround

section Operations

variable {x y : Binary64} (hx : x.isFinite = true) (hy : y.isFinite = true)
include hx hy

theorem roundsTo_mul :
    RoundsTo (x.isNegative != y.isNegative) (ladder x.magnitude * ladder y.magnitude)
      (x.mul y) := by
  have hmul : x.mul y =
      roundScaled (x.isNegative != y.isNegative) (x.significand * y.significand)
        (x.scale + y.scale) := by
    simp [mul, unlessNaN, isNaN_of_isFinite hx, isNaN_of_isFinite hy, isInfinite_of_isFinite hx,
      isInfinite_of_isFinite hy]
  have hround := roundsTo_roundScaled (x.isNegative != y.isNegative) (x.significand * y.significand)
    (x.scale + y.scale)
  rw [← hmul, significand_eq, significand_eq, scale_eq, scale_eq, zpow_add₀ (by norm_num)] at hround
  have hvalue : ladder x.magnitude * ladder y.magnitude =
      ((digitsOf x.magnitude * digitsOf y.magnitude : Nat) : ℚ) *
        (2 ^ scaleOf x.magnitude * 2 ^ scaleOf y.magnitude) := by
    unfold ladder
    push_cast
    ring
  rwa [hvalue]

theorem roundsTo_div (hzero : y.magnitude ≠ 0) :
    RoundsTo (x.isNegative != y.isNegative) (ladder x.magnitude / ladder y.magnitude)
      (x.div y) := by
  have hdiv : x.div y = roundRatio (x.isNegative != y.isNegative)
      (scaleDown x.significand y.significand (y.scale - x.scale)).1
      (scaleDown x.significand y.significand (y.scale - x.scale)).2 := by
    simp [div, unlessNaN, isNaN_of_isFinite hx, isNaN_of_isFinite hy, isInfinite_of_isFinite hx,
      isInfinite_of_isFinite hy, isZero, hzero]
  have hpos : 0 < y.significand := by
    rw [significand_eq, digitsOf]
    split_ifs <;> omega
  obtain ⟨hquotient, hden⟩ := scaleDown_spec x.significand hpos (y.scale - x.scale)
  have hround := roundsTo_roundRatio (x.isNegative != y.isNegative)
    (scaleDown x.significand y.significand (y.scale - x.scale)).1 hden.ne'
  have hvalue : ladder x.magnitude / ladder y.magnitude =
      (x.significand : ℚ) / y.significand / 2 ^ (y.scale - x.scale) := by
    rw [ladder, ladder, ← significand_eq, ← significand_eq, ← scale_eq, ← scale_eq,
      zpow_sub₀ (by norm_num)]
    field_simp
  rwa [← hdiv, hquotient, ← hvalue] at hround

end Operations

/-! ## Relative errors -/

/-- Two numbers differ by a factor of at most `f`. -/
def Near (f a b : ℚ) : Prop := a ≤ f * b ∧ b ≤ f * a

namespace Near

variable {a b c d f g : ℚ}

theorem refl (a : ℚ) : Near 1 a a := ⟨(one_mul a).ge, (one_mul a).ge⟩

theorem mono (h : Near f a b) (hfg : f ≤ g) (ha : 0 ≤ a) (hb : 0 ≤ b) : Near g a b :=
  ⟨h.1.trans (mul_le_mul_of_nonneg_right hfg hb), h.2.trans (mul_le_mul_of_nonneg_right hfg ha)⟩

theorem trans (hf : 0 ≤ f) (hg : 0 ≤ g) (h : Near f a b) (h' : Near g b c) : Near (f * g) a c := by
  constructor
  · rw [mul_assoc]
    exact h.1.trans (mul_le_mul_of_nonneg_left h'.1 hf)
  · rw [mul_comm f g, mul_assoc]
    exact h'.2.trans (mul_le_mul_of_nonneg_left h.2 hg)

theorem mul_left (h : Near f a b) (hc : 0 ≤ c) : Near f (c * a) (c * b) := by
  unfold Near
  rw [mul_left_comm f c b, mul_left_comm f c a]
  exact ⟨mul_le_mul_of_nonneg_left h.1 hc, mul_le_mul_of_nonneg_left h.2 hc⟩

theorem inv (h : Near f a b) (ha : 0 < a) (hb : 0 < b) : Near f a⁻¹ b⁻¹ := by
  constructor
  · rw [inv_le_iff_one_le_mul₀ ha, mul_assoc, mul_comm b⁻¹, ← mul_assoc, ← div_eq_mul_inv,
      one_le_div hb]
    exact h.2
  · rw [inv_le_iff_one_le_mul₀ hb, mul_assoc, mul_comm a⁻¹, ← mul_assoc, ← div_eq_mul_inv,
      one_le_div ha]
    exact h.1

theorem mul (h : Near f a b) (h' : Near g c d) (hf : 0 ≤ f) (hg : 0 ≤ g) (hb : 0 ≤ b) (hc : 0 ≤ c) :
    Near (f * g) (a * c) (b * d) := by
  have hleft : Near f (a * c) (b * c) := by
    rw [mul_comm a, mul_comm b]
    exact h.mul_left hc
  exact hleft.trans hf hg (h'.mul_left hb)

theorem div (h : Near f a b) (h' : Near g c d) (hf : 0 ≤ f) (hg : 0 ≤ g) (hb : 0 ≤ b) (hc : 0 < c)
    (hd : 0 < d) : Near (f * g) (a / c) (b / d) := by
  rw [div_eq_mul_inv, div_eq_mul_inv]
  exact h.mul (h'.inv hc hd) hf hg hb (inv_pos.2 hc).le

end Near

/-- The factor by which rounding to the nearest number of 53 binary digits moves a number at
most. -/
def slack : ℚ := 1 + 1 / 2 ^ 53

theorem slack_pos : 0 < slack := by
  unfold slack
  norm_num

/-- The middles of neighbouring gaps are farther apart than rounding goes. -/
theorem slack_mul_midpoint_lt (k : Nat) : slack * midpoint k < midpoint (k + 1) := by
  have hunit := unit_pos k
  have hdigits : (digitsOf k : ℚ) + 1 ≤ 2 ^ 53 := by exact_mod_cast digitsOf_lt k
  have hwider : (2 : ℚ) ^ scaleOf k ≤ 2 ^ scaleOf (k + 1) :=
    zpow_le_zpow_right₀ (by norm_num) (scaleOf_le_succ k)
  have hbound : midpoint k < 2 ^ 53 * 2 ^ scaleOf k := by
    have hmiddle : midpoint k = (digitsOf k + 1 / 2) * 2 ^ scaleOf k := by
      rw [midpoint, ladder]
      ring
    rw [hmiddle]
    exact mul_lt_mul_of_pos_right (by linarith) hunit
  have hstep := width_eq k
  rw [slack]
  linarith

theorem slack_pow_mul_midpoint_lt (k n : Nat) :
    slack ^ (n + 1) * midpoint k < midpoint (k + (n + 1)) := by
  induction n with
  | zero => simpa using slack_mul_midpoint_lt k
  | succ n ih =>
    calc slack ^ (n + 1 + 1) * midpoint k = slack * (slack ^ (n + 1) * midpoint k) := by
          rw [pow_succ']; ring
      _ < slack * midpoint (k + (n + 1)) := mul_lt_mul_of_pos_left ih slack_pos
      _ < midpoint (k + (n + 1 + 1)) := slack_mul_midpoint_lt _

namespace Rounds

variable {r s : ℚ} {j k : Nat}

/-- Numbers that differ by a few factors round to steps that are at most as many places apart. -/
theorem le_add {n : Nat} (h : Rounds r k) (h' : Rounds s j) (hnear : s ≤ slack ^ (n + 1) * r) :
    j ≤ k + (n + 1) :=
  h'.le_of_lt <|
    (hnear.trans (mul_le_mul_of_nonneg_left h.above (pow_nonneg slack_pos.le _))).trans_lt
    (slack_pow_mul_midpoint_lt k n)

/-- Above the smallest binade rounding moves a number by one factor at most. -/
theorem near (h : Rounds r k) (hk : 2 ^ 52 < k) : Near slack r (ladder k) := by
  obtain ⟨i, rfl⟩ := Nat.exists_eq_add_one_of_ne_zero (Nat.ne_zero_of_lt hk)
  have hdigits : (2 : ℚ) ^ 52 ≤ digitsOf i := by exact_mod_cast le_digitsOf (by omega)
  have hdigits' : (2 : ℚ) ^ 52 ≤ digitsOf (i + 1) := by exact_mod_cast le_digitsOf (by omega)
  have hunit := mul_le_mul_of_nonneg_right hdigits (unit_pos i).le
  have hunit' := mul_le_mul_of_nonneg_right hdigits' (unit_pos (i + 1)).le
  have habove := h.above
  have hbelow := h.below i rfl
  have hstep := ladder_succ i
  rw [midpoint] at habove hbelow
  rw [← ladder] at hunit hunit'
  have hi := unit_pos i
  constructor
  · rw [slack]
    linarith
  · calc ladder (i + 1) = ladder i + 2 ^ scaleOf i / 2 + 2 ^ scaleOf i / 2 := by rw [hstep]; ring
      _ ≤ slack * (ladder i + 2 ^ scaleOf i / 2) := by rw [slack]; linarith
      _ ≤ slack * r := mul_le_mul_of_nonneg_left hbelow slack_pos.le

/-- The error is smaller the larger the significand. -/
theorem near_of_le {c : Nat} (hc : 0 < c) (h : Rounds r k) (hk : c ≤ digitsOf k) :
    Near (1 + 1 / (2 * c - 1)) r (ladder k) := by
  have hne : k ≠ 0 := by
    rintro rfl
    exact absurd (hc.trans_le hk) (by decide)
  obtain ⟨i, rfl⟩ := Nat.exists_eq_add_one_of_ne_zero hne
  have hone : (1 : ℚ) ≤ c := by exact_mod_cast hc
  have hdigits : (c : ℚ) ≤ digitsOf (i + 1) := by exact_mod_cast hk
  have hunit := mul_le_mul_of_nonneg_right hdigits (unit_pos (i + 1)).le
  have hwider : (2 : ℚ) ^ scaleOf i ≤ 2 ^ scaleOf (i + 1) :=
    zpow_le_zpow_right₀ (by norm_num) (scaleOf_le_succ i)
  have habove := h.above
  have hbelow := h.below i rfl
  rw [midpoint] at habove
  rw [midpoint_eq] at hbelow
  rw [← ladder] at hunit
  have hpos : (0 : ℚ) < 2 * c - 1 := by linarith
  have hfactor : (1 : ℚ) + 1 / (2 * c - 1) = 2 * c / (2 * c - 1) := by
    field_simp
    ring
  unfold Near
  rw [hfactor, div_mul_eq_mul_div, div_mul_eq_mul_div, le_div_iff₀ hpos, le_div_iff₀ hpos]
  have hl := ladder_nonneg (i + 1)
  generalize (2 : ℚ) ^ scaleOf (i + 1) = unit at *
  generalize ladder (i + 1) = l at *
  constructor
  · have hupper : 2 * c * r ≤ (2 * c + 1) * l := by nlinarith
    refine le_of_mul_le_mul_left ?_ (show (0 : ℚ) < 2 * c by linarith)
    calc 2 * c * (r * (2 * c - 1)) = 2 * c * r * (2 * c - 1) := by ring
      _ ≤ (2 * c + 1) * l * (2 * c - 1) := mul_le_mul_of_nonneg_right hupper hpos.le
      _ ≤ 2 * c * (2 * c * l) := by linarith
  · nlinarith

end Rounds

end TagMachine.Binary64
