import TagMachine.Proofs.Binary64.Exact
import TagMachine.Proofs.Builtin.Calls

set_option autoImplicit false

/-! # Functions on numbers that are given integers

The functions that round and compare numbers do so on floats, and an integer that was a float may be
another one (`Binary64.roundTrip`).
-/

namespace TagMachine.Builtin

open Binary64
open Procedure (argumentsIn)

/-! ## Adding one half -/

section Half

variable {x : Binary64} {n : Int} (hn : x.toRat = n) (hne : n ≠ 0)
include hn hne

/-- A whole number that is not zero has no digits below those of one half. -/
theorem scale_of_whole : -53 ≤ x.scale := by
  by_contra hsmall
  have hsig : (x.significand : ℚ) < 2 ^ 53 := by exact_mod_cast x.significand_lt
  have hscale : (2 : ℚ) ^ x.scale ≤ 2 ^ (-54 : Int) := zpow_le_zpow_right₀ (by norm_num) (by omega)
  have habs : |(n : ℚ)| < 1 := by
    have hpos : (0 : ℚ) < 2 ^ x.scale := by positivity
    have hvalue : |x.toRat| = x.significand * 2 ^ x.scale := by
      rw [toRat_eq, signed]
      split_ifs
      · rw [abs_neg, abs_of_nonneg (by positivity)]
      · rw [abs_of_nonneg (by positivity)]
    rw [← hn, hvalue]
    calc (x.significand : ℚ) * 2 ^ x.scale < 2 ^ 53 * 2 ^ x.scale :=
          mul_lt_mul_of_pos_right hsig hpos
      _ ≤ 2 ^ 53 * 2 ^ (-54 : Int) := by gcongr
      _ ≤ 1 := by norm_num
  exact hne (Int.abs_lt_one_iff.1 (by exact_mod_cast habs))

theorem sum_half : x.signedSignificand * Int.pow 2 (x.scale - (-53)).toNat + 2 ^ 52 =
    2 ^ 52 * (2 * n + 1) := by
  obtain ⟨k, hk⟩ := Int.eq_ofNat_of_zero_le (Int.sub_nonneg.2 (scale_of_whole hn hne))
  have hscale : x.scale = k - 53 := by omega
  have hvalue : (x.signedSignificand : ℚ) * 2 ^ k = n * 2 ^ 53 := by
    rw [← hn, toRat, hscale, zpow_sub₀ (by norm_num), zpow_natCast]
    norm_num
    field_simp
  have hint : x.signedSignificand * 2 ^ k = n * 2 ^ 53 := by exact_mod_cast hvalue
  rw [hk, Int.toNat_natCast, Int.pow_eq, hint]
  ring

/-- One half is added to twice the number and one, of which 53 digits are kept. -/
theorem add_half (hx : x.isFinite = true) (hbound : n.natAbs ≤ 2 ^ 63) :
    (x.add half).isFinite = true ∧
    (x.add half).toRat = signed (n < 0) (nearestNat (2 * n + 1).natAbs / 2) := by
  have hlow := scale_of_whole hn hne
  have hhalf : half.scale = -53 := by decide
  have hsum := sum_half hn hne
  have hadd : x.add half = roundRatio (n < 0) (2 ^ 52 * (2 * n + 1).natAbs) (2 ^ 53) := by
    have hone : half.signedSignificand * Int.pow 2 ((-53 : Int) - -53).toNat = 2 ^ 52 := by decide
    have hneg : decide (2 ^ 52 * (2 * n + 1) < 0) = decide (n < 0) := decide_eq_decide.2 (by omega)
    have habs : (2 ^ 52 * (2 * n + 1)).natAbs = 2 ^ 52 * (2 * n + 1).natAbs := Int.natAbs_mul ..
    have hnanHalf : half.isNaN = false := by decide
    have hinfiniteHalf : half.isInfinite = false := by decide
    rw [add, unlessNaN, isNaN_of_isFinite hx, isInfinite_of_isFinite hx, hnanHalf, hinfiniteHalf]
    simp only [Bool.false_eq_true, if_false, addFinite, hhalf, min_eq_right hlow, hone, hsum]
    rw [if_neg (by omega), hneg, habs, roundScaled, if_neg (by decide), Nat.shiftLeft_eq,
      Nat.one_mul]
    congr 1
  have hlog : (2 ^ 52 * (2 * n + 1).natAbs).log2 ≤ 1000 := by
    have hlt := (Nat.log2_lt (k := 117) (n := 2 ^ 52 * (2 * n + 1).natAbs) (by omega)).2 (by omega)
    omega
  rw [hadd]
  refine ⟨isFinite_roundRatio _ hlog (by decide), ?_⟩
  rw [toRat_roundRatio _ hlog (by decide), nearestNat_two_pow_mul]
  congr 1
  push_cast
  norm_num
  ring

end Half

/-- The numbers to which one half cannot be added and that are left for the even neighbour above. -/
def RoundsUp (n : Int) : Prop := n % 2 = 1 ∧ 2 ^ 52 < n.natAbs ∧ n.natAbs < 2 ^ 53

instance (n : Int) : Decidable (RoundsUp n) := inferInstanceAs (Decidable (_ ∧ _ ∧ _))

theorem floor_signed (n : Int) (m : Nat) (hm : 2 * m = nearestNat (2 * n + 1).natAbs) :
    ⌊signed (n < 0) (nearestNat (2 * n + 1).natAbs / 2 : ℚ)⌋ = if n < 0 then -(m : Int) else m := by
  have hhalf : ((2 * m : Nat) : ℚ) / 2 = m := by push_cast; ring
  rw [← hm, hhalf, signed]
  simp only [decide_eq_true_iff]
  split_ifs
  · exact_mod_cast Int.floor_intCast (R := ℚ) (-(m : Int))
  · exact Int.floor_natCast m

theorem floor_add_half {n : Int} (hkept : nearestNat n.natAbs = n.natAbs) :
    ⌊signed (n < 0) (nearestNat (2 * n + 1).natAbs / 2 : ℚ)⌋ = if RoundsUp n then n + 1 else n := by
  rcases Nat.lt_or_ge (2 ^ 53) (2 * n + 1).natAbs with hlarge | hsmall
  · rcases Nat.lt_or_ge n.natAbs (2 ^ 53) with hn | hn
    · -- of the 54 digits the last is lost
      have hspacing : spacing (2 * n + 1).natAbs = 2 := by
        have hlog : (2 * n + 1).natAbs.log2 = 53 :=
          (Nat.log2_eq_iff (by omega)).2 ⟨by omega, by omega⟩
        rw [spacing, hlog]
        decide
      have hround : 2 * nearestEven (2 * n + 1).natAbs 2 = nearestNat (2 * n + 1).natAbs := by
        rw [nearestNat, hspacing, Nat.mul_comm]
      rw [floor_signed n _ hround]
      simp only [nearestEven, RoundsUp]
      split_ifs <;> omega
    · have hround : 2 * n.natAbs = nearestNat (2 * n + 1).natAbs := by
        rcases lt_or_ge n 0 with hneg | hpos
        · have habs : (2 * n + 1).natAbs = 2 * n.natAbs - 1 := by omega
          rw [habs, nearestNat_two_mul_sub_one hkept hn]
        · have habs : (2 * n + 1).natAbs = 2 * n.natAbs + 1 := by omega
          rw [habs, nearestNat_two_mul_add_one hkept hn]
      have hup : ¬ RoundsUp n := fun h => absurd h.2.2 (by omega)
      rw [floor_signed n _ hround, if_neg hup]
      split_ifs <;> omega
  · have hup : ¬ RoundsUp n := fun h => absurd h.2.1 (by have := h.1; omega)
    have hvalue : signed (n < 0) ((2 * n + 1).natAbs / 2 : ℚ) = n + 1 / 2 := by
      have habs : ((2 * n + 1).natAbs : ℚ) = |2 * (n : ℚ) + 1| := by
        rw [Nat.cast_natAbs]
        push_cast
        rfl
      rw [habs, signed]
      simp only [decide_eq_true_iff]
      split_ifs with hneg
      · have hle : 2 * (n : ℚ) + 1 ≤ 0 := by exact_mod_cast (by omega : 2 * n + 1 ≤ 0)
        rw [abs_of_nonpos hle]
        ring
      · have hle : 0 ≤ 2 * (n : ℚ) + 1 := by exact_mod_cast (by omega : 0 ≤ 2 * n + 1)
        rw [abs_of_nonneg hle]
        ring
    rw [nearestNat_of_le hsmall, hvalue, if_neg hup, Int.floor_eq_iff]
    constructor <;> linarith

/-- Only numbers of 53 digits are left for the neighbour, and those are as they were. -/
theorem roundsUp_nearestInt (n : Int) : RoundsUp (nearestInt n) ↔ RoundsUp n := by
  by_cases hsmall : n.natAbs ≤ 2 ^ 53
  · rw [nearestInt_eq_self.2 (nearestNat_eq_self.1 (nearestNat_of_le hsmall))]
  · have hlog : 53 ≤ n.natAbs.log2 := (Nat.le_log2 (by omega)).2 (by omega)
    have hlow := (nearestNat_bounds (n := n.natAbs) (by omega)).1
    have hpow : 2 ^ 53 ≤ 2 ^ n.natAbs.log2 := Nat.pow_le_pow_right (by decide) hlog
    rw [← natAbs_nearestInt] at hlow
    exact ⟨fun h => absurd h.2.2 (by omega), fun h => absurd h.2.2 (by omega)⟩

theorem toInt_add_one {n : Int64} (h : n.toInt < 2 ^ 63 - 1) : (n + 1).toInt = n.toInt + 1 := by
  have hlow := n.le_toInt
  rw [Int64.toInt_add, Int64.toInt_one, Int.bmod_eq_of_le (by omega) (by omega)]

theorem toInt64_add_half (n : Int64) : (((ofInt64 n).add half).roundTo .down).toInt64 =
    if RoundsUp n.toInt then n + 1 else roundTrip n := by
  have hword : n.toInt.natAbs ≤ 2 ^ 64 := (natAbs_toInt_le n).trans (by decide)
  by_cases hzero : n = 0
  · subst hzero
    decide +kernel
  · have hint : n.toInt ≠ 0 := fun h => hzero (Int64.toInt_inj.1 h)
    have hne : nearestInt n.toInt ≠ 0 := by
      have hpos := (nearestNat_bounds (Int.natAbs_ne_zero.2 hint)).1
      have habs := natAbs_nearestInt n.toInt
      have hpow := Nat.two_pow_pos n.toInt.natAbs.log2
      omega
    have hkept : nearestNat (nearestInt n.toInt).natAbs = (nearestInt n.toInt).natAbs := by
      rw [natAbs_nearestInt, nearestNat_idem]
    obtain ⟨hfinite, hsum⟩ :=
      add_half (toRat_ofInt hword) hne (isFinite_ofInt hword) (natAbs_nearestInt_le n)
    rw [ofInt64, toInt64_roundTo_down hfinite, hsum, floor_add_half hkept, roundTrip_eq,
      if_congr (roundsUp_nearestInt n.toInt) rfl rfl]
    split_ifs with hup
    · have hsmall := hup.2.2
      rw [nearestInt_eq_self.2 (nearestNat_eq_self.1 (nearestNat_of_le hsmall.le)),
        ← Int64.toInt_inj, toInt_clampInt64, toInt_add_one (by omega)]
      omega
    · rfl

/-! ## Comparing -/

theorem numLt_ofInt {m n : Int} : (ofInt m).numLt (ofInt n) = true ↔ m < n ∧ ofInt m ≠ ofInt n := by
  simp only [numLt, isNaN_ofInt, Bool.not_false, Bool.true_and, Bool.and_eq_true, Bool.not_eq_true',
    decide_eq_true_iff]
  constructor
  · rintro ⟨-, hkey⟩
    refine ⟨?_, fun heq => absurd hkey (by rw [heq]; exact lt_irrefl _)⟩
    by_contra hnot
    exact absurd (orderKey_ofInt_le (Int.not_lt.1 hnot)) (not_le.2 hkey)
  · rintro ⟨hlt, hne⟩
    refine ⟨?_, (orderKey_ofInt_le hlt.le).lt_of_ne fun h => hne (orderKey_inj.1 h)⟩
    rw [Bool.eq_false_iff, ne_eq, Bool.and_eq_true, isZero_ofInt, isZero_ofInt]
    omega

theorem numLe_ofInt {m n : Int} : (ofInt m).numLe (ofInt n) = true ↔ m ≤ n ∨ ofInt m = ofInt n := by
  have hzero : ofInt n ≠ zero true := by
    intro h
    have hn : n = 0 := isZero_ofInt.1 (by rw [h]; decide)
    subst hn
    exact absurd h (by decide)
  rw [numLe, Bool.or_eq_true, numLt_ofInt, numEq_ofInt]
  constructor
  · rintro (⟨hlt, -⟩ | heq | ⟨-, hn⟩)
    · exact .inl hlt.le
    · exact .inr heq
    · exact absurd hn hzero
  · rintro (hle | heq)
    · by_cases heq : ofInt m = ofInt n
      · exact .inr (.inl heq)
      · exact .inl ⟨lt_of_le_of_ne hle fun h => heq (congrArg ofInt h), heq⟩
    · exact .inr (.inl heq)

theorem ofInt64_inj_of_le {m n : Int64} (hm : m.toInt.natAbs ≤ 2 ^ 53)
    (hn : n.toInt.natAbs ≤ 2 ^ 53)
    (h : ofInt64 m = ofInt64 n) : m = n := by
  rw [← roundTrip_of_le hm, ← roundTrip_of_le hn, roundTrip, roundTrip, h]

/-! ## Integers as arguments -/

/-- A bound is an integer, under the first of its names that is given. -/
def BoundIs (args : Arguments) (name other : String) (n : Int64) : Prop :=
  args.value name = .integer n ∨ args.value name = .nothing ∧ args.value other = .integer n

/-- The integer in a range that is nearest to a given one. -/
def nearestIn (low high n : Int64) : Int64 :=
  if n < low then low else if high < n then high else n

/-- What is given for an integer and the bounds of a range, compared as floats. -/
def keptIn (low high n : Int64) : Int64 :=
  if n < low ∧ ofInt64 n ≠ ofInt64 low then roundTrip low
  else if high < n ∧ ofInt64 high ≠ ofInt64 n then roundTrip high else n

theorem keptIn_eq_nearestIn {low high n : Int64} (hle : low ≤ high) :
    keptIn low high n = nearestIn low high n ↔
    (n < low → ofInt64 n ≠ ofInt64 low ∧ roundTrip low = low) ∧
    (high < n → ofInt64 high ≠ ofInt64 n ∧ roundTrip high = high) := by
  unfold keptIn nearestIn
  by_cases hlow : n < low
  · have hhigh : ¬ high < n := Int64.not_lt.2 (Int64.le_trans (Int64.le_of_lt hlow) hle)
    by_cases hsame : ofInt64 n = ofInt64 low
    · simp [hlow, hhigh, hsame, Int64.ne_of_lt hlow]
    · simp [hlow, hhigh, hsame]
  · by_cases hhigh : high < n
    · by_cases hsame : ofInt64 high = ofInt64 n
      · simp [hlow, hhigh, hsame, (Int64.ne_of_lt hhigh).symm]
      · simp [hlow, hhigh, hsame]
    · simp [hlow, hhigh]

section Arguments

variable {args : Arguments}

theorem number_eq {name : String} {n : Int64} (h : args.value name = .integer n) :
    args.number name = ofInt64 n := by
  rw [Arguments.number, h]
  rfl

theorem BoundIs.eq {name other : String} {n : Int64} (h : BoundIs args name other n) :
    bound args name other = ofInt64 n := by
  unfold bound
  rcases h with hfirst | ⟨hnothing, hother⟩
  · rw [hfirst, number_eq hfirst]
    exact if_neg Bool.false_ne_true
  · rw [hnothing, number_eq hother]
    exact if_pos rfl

theorem ceil_floor_integer {n : Int64} (h : args.value "value" = .integer n) :
    ceil args = giveInt (roundTrip n) ∧ floor args = giveInt (roundTrip n) := by
  have hword : n.toInt.natAbs ≤ 2 ^ 64 := (natAbs_toInt_le n).trans (by decide)
  rw [ceil, floor, number_eq h, ofInt64, toInt64_roundTo_up (isFinite_ofInt hword),
    toInt64_roundTo_down (isFinite_ofInt hword), toRat_ofInt hword, Int.ceil_intCast,
    Int.floor_intCast, roundTrip_eq]
  exact ⟨rfl, rfl⟩

theorem round_integer {n : Int64} (h : args.value "value" = .integer n) :
    round args = giveInt (if RoundsUp n.toInt then n + 1 else roundTrip n) := by
  rw [round, number_eq h, toInt64_add_half]

section Pair

variable {m n : Int64} (hm : args.value "a" = .integer m) (hn : args.value "b" = .integer n)
include hm hn

theorem min_integer :
    Builtin.min args = giveInt (if m ≤ n ∨ ofInt64 m = ofInt64 n then m else n) := by
  have hle : (ofInt64 m).numLe (ofInt64 n) = true ↔ m ≤ n ∨ ofInt64 m = ofInt64 n := by
    rw [Int64.le_iff_toInt_le]
    exact numLe_ofInt
  rw [Builtin.min, hm, hn]
  simp only [Value.numberOrZero, Value.asNumber?, Option.getD_some, hle]
  split_ifs <;> rfl

theorem max_integer :
    Builtin.max args = giveInt (if n ≤ m ∨ ofInt64 m = ofInt64 n then m else n) := by
  have hle : (ofInt64 n).numLe (ofInt64 m) = true ↔ n ≤ m ∨ ofInt64 m = ofInt64 n := by
    rw [Int64.le_iff_toInt_le, eq_comm (a := ofInt64 m)]
    exact numLe_ofInt
  rw [Builtin.max, hm, hn]
  simp only [Value.numberOrZero, Value.asNumber?, Option.getD_some, hle]
  split_ifs <;> rfl

end Pair

theorem numLt_ofInt64 {m n : Int64} :
    (ofInt64 m).numLt (ofInt64 n) = true ↔ m < n ∧ ofInt64 m ≠ ofInt64 n := by
  rw [Int64.lt_iff_toInt_lt]
  exact numLt_ofInt

theorem clamp_integer {n low high : Int64} (h : args.value "value" = .integer n)
    (hlow : BoundIs args "low" "min" low) (hhigh : BoundIs args "high" "max" high) :
    clamp args = giveInt (keptIn low high n) := by
  rw [clamp, keptIn, h, hlow.eq, hhigh.eq]
  simp only [Value.numberOrZero, Value.asNumber?, Option.getD_some, numLt_ofInt64]
  split_ifs <;> rfl

end Arguments

/-- Integers are rounded and compared as floats. So an integer comes back from rounding if it has 53
binary digits or is the largest, except that an odd one of just 53 digits is rounded to its
neighbour above. The smaller and the larger of two integers are found if they are widened to
different floats or come in that order. A bound is kept to if the value is widened to another float,
and comes back if it has 53 digits. -/
theorem integers_as_floats (context : CallContext) (args : RecordRef) (s : Store) :
    let given := argumentsIn context args s
    let call (id : UInt16) := FunctionTable.standard.call id context args s
    (∀ n, given.value "value" = .integer n →
      call 0x21 = .ok (.integer (roundTrip n), s) ∧
      call 0x22 = .ok (.integer (roundTrip n), s) ∧
      (roundTrip n = n ↔ n = Int64.maxValue ∨ spacing n.toInt.natAbs ∣ n.toInt.natAbs) ∧
      call 0x23 = .ok (.integer (if RoundsUp n.toInt then n + 1 else roundTrip n), s)) ∧
    (∀ a b, given.value "a" = .integer a → given.value "b" = .integer b →
      (∃ c, call 0x24 = .ok (.integer c, s) ∧ (c = a ∨ c = b) ∧
        (c ≤ a ∧ c ≤ b ↔ (b < a → ofInt64 a ≠ ofInt64 b))) ∧
      (∃ c, call 0x25 = .ok (.integer c, s) ∧ (c = a ∨ c = b) ∧
        (a ≤ c ∧ b ≤ c ↔ (a < b → ofInt64 a ≠ ofInt64 b)))) ∧
    (∀ n low high, given.value "value" = .integer n → BoundIs given "low" "min" low →
      BoundIs given "high" "max" high → low ≤ high →
      call 0x26 = .ok (.integer (keptIn low high n), s) ∧
      (keptIn low high n = nearestIn low high n ↔
        (n < low → ofInt64 n ≠ ofInt64 low ∧ roundTrip low = low) ∧
        (high < n → ofInt64 high ≠ ofInt64 n ∧ roundTrip high = high))) ∧
    (∀ m n : Int64, m.toInt.natAbs ≤ 2 ^ 53 → n.toInt.natAbs ≤ 2 ^ 53 →
      roundTrip n = n ∧ (ofInt64 m = ofInt64 n → m = n)) := by
  intro given call
  refine ⟨fun n hn => ⟨?_, ?_, roundTrip_eq_self, ?_⟩, fun a b ha hb => ⟨?_, ?_⟩,
    fun n low high hn hlow hhigh hle => ⟨?_, keptIn_eq_nearestIn hle⟩,
    fun m n hm hn => ⟨roundTrip_of_le hn, ofInt64_inj_of_le hm hn⟩⟩
  · exact call_eq_of_give rfl (ceil_floor_integer hn).1
  · exact call_eq_of_give rfl (ceil_floor_integer hn).2
  · exact call_eq_of_give rfl (round_integer hn)
  · refine ⟨_, call_eq_of_give rfl (min_integer ha hb), ?_, ?_⟩
    · split_ifs
      · exact .inl rfl
      · exact .inr rfl
    · split_ifs with hleast <;> simp only [Int64.le_iff_toInt_le,
        Int64.lt_iff_toInt_lt] at * <;> grind
  · refine ⟨_, call_eq_of_give rfl (max_integer ha hb), ?_, ?_⟩
    · split_ifs
      · exact .inl rfl
      · exact .inr rfl
    · split_ifs with hmost <;> simp only [Int64.le_iff_toInt_le,
        Int64.lt_iff_toInt_lt] at * <;> grind
  · exact call_eq_of_give rfl (clamp_integer hn hlow hhigh)

/-- Has a record of arguments. -/
def withArguments (fields : List (String × Value)) : Store where
  records := #[⟨fields⟩]

/-- Integers with 53 digits, and around the largest there are. -/
theorem integers_as_floats_wide :
    let fields : List (String × Value) := [("a", .integer 4611686018427388928),
      ("b", .integer 4611686018427387904), ("high", .integer 4611686018427388928),
      ("min", .integer (-4611686018427387904)), ("value", .integer Int64.maxValue)]
    let call (id : UInt16) := FunctionTable.standard.call id ⟨"", 0⟩ ⟨0⟩ (withArguments fields)
    call 0x21 = .ok (.integer Int64.maxValue, withArguments fields) ∧
    (∃ c, call 0x24 = .ok (.integer c, withArguments fields) ∧
      c ≤ 4611686018427388928 ∧ c ≤ 4611686018427387904) ∧
    call 0x26 = .ok (.integer 4611686018427388928, withArguments fields) := by
  intro fields call
  obtain ⟨hround, hpair, hclamp, -⟩ := integers_as_floats ⟨"", 0⟩ ⟨0⟩ (withArguments fields)
  obtain ⟨hceil, -, hkept, -⟩ := hround Int64.maxValue rfl
  obtain ⟨⟨c, hmin, -, hleast⟩, -⟩ := hpair 4611686018427388928 4611686018427387904 rfl rfl
  obtain ⟨hcall, hnearest⟩ := hclamp Int64.maxValue (-4611686018427387904) 4611686018427388928 rfl
    (.inr ⟨rfl, rfl⟩) (.inl rfl) (by decide)
  rw [hkept.2 (.inl rfl)] at hceil
  rw [hnearest.2 (by decide)] at hcall
  exact ⟨hceil, ⟨c, hmin, hleast.2 (by decide)⟩, hcall⟩

/-- The first odd integer of 54 digits is lost, and of 53 digits when one half is added. -/
theorem integers_lost_as_floats :
    let call (id : UInt16) (fields : List (String × Value)) :=
      (FunctionTable.standard.call id ⟨"", 0⟩ ⟨0⟩ (withArguments fields)).map Prod.fst
    call 0x21 [("value", .integer 9007199254740993)] = .ok (.integer 9007199254740992) ∧
    call 0x22 [("value", .integer 9007199254740993)] = .ok (.integer 9007199254740992) ∧
    call 0x23 [("value", .integer 4503599627370497)] = .ok (.integer 4503599627370498) ∧
    call 0x24 [("a", .integer 9007199254740993), ("b", .integer 9007199254740992)] =
      .ok (.integer 9007199254740993) ∧
    call 0x25 [("a", .integer 9007199254740992), ("b", .integer 9007199254740993)] =
      .ok (.integer 9007199254740992) ∧
    call 0x26 [("high", .integer 9007199254740993), ("low", .integer 9007199254740993),
        ("value", .integer 0)] = .ok (.integer 9007199254740992) := by
  refine ⟨?_, ?_, ?_, ?_, ?_, ?_⟩ <;> rfl

end TagMachine.Builtin
