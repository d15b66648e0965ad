import TagMachine.Binary64.Basic

set_option autoImplicit false

/-! # Decimal digits of binary64 numbers

`Decimal` is a decimal number `± significand · 10 ^ exponent`. `Decimal.nearest` gives the
binary64 number nearest to it, and `shortest` goes the other way: the fewest significant
digits that read back as the given number, and of those the nearest.
-/

namespace TagMachine

/-- The decimal number `± significand · 10 ^ exponent`. -/
structure Decimal where
  negative : Bool
  significand : Nat
  exponent : Int
deriving DecidableEq, Inhabited

/-- The digits of a natural number in base ten, without leading zeros. -/
def decimalDigits (n : Nat) : String := String.ofList (Nat.toDigits 10 n)

/-- An integer in base ten, with a minus sign when it is negative. -/
def decimalInt (n : Int) : String :=
  if n < 0 then "-" ++ decimalDigits n.natAbs else decimalDigits n.natAbs

namespace Decimal

/-- The binary64 number nearest to a decimal number. A number above `10 ^ 310` is too large and
one below `10 ^ -400` too small to need its digits. -/
def nearest (d : Decimal) : Binary64 :=
  if d.significand = 0 then Binary64.zero d.negative
  else if 310 < d.exponent then Binary64.infinity d.negative
  else if d.exponent + d.significand.log2 / 3 + 2 < -400 then
    Binary64.zero d.negative
  else if 0 ≤ d.exponent then
    Binary64.roundRatio d.negative (d.significand * Nat.pow 10 d.exponent.toNat) 1
  else
    Binary64.roundRatio d.negative d.significand (Nat.pow 10 (-d.exponent).toNat)

/-- The text of the digits. -/
def digits (d : Decimal) : String := decimalDigits d.significand

def magnitude (d : Decimal) : Int := d.exponent + d.digits.length - 1

/-- The same number without trailing zeros in its significand; `fuel` bounds their count. -/
def trim (fuel : Nat) (significand : Nat) (exponent : Int) : Nat × Int :=
  match fuel with
  | 0 => (significand, exponent)
  | fuel + 1 =>
    if significand ≠ 0 ∧ significand % 10 = 0 then trim fuel (significand / 10) (exponent + 1)
    else (significand, exponent)

end Decimal

namespace Binary64

/-- The interval of real numbers that round to a positive finite number, over a common
denominator: `low / den` and `high / den` are its ends, `value / den` is the number itself. -/
structure Neighbourhood where
  low : Nat
  value : Nat
  high : Nat
  den : Nat
  /-- Whether the ends themselves round to the number. -/
  closed : Bool

/-- The neighbourhood of a finite number that is not zero. -/
def neighbourhood (x : Binary64) : Neighbourhood :=
  let m := x.significand
  let q := x.scale
  let below := if m = Nat.pow 2 52 ∧ -1074 < q then 1 else 2
  let unit := if 0 ≤ q then 1 <<< q.toNat else 1
  { low := (4 * m - below) * unit
    value := 4 * m * unit
    high := (4 * m + 2) * unit
    den := 4 * if 0 ≤ q then 1 else 1 <<< (-q).toNat
    closed := m % 2 = 0 }

/-- Numerator and denominator of `num / den / 10 ^ e`. -/
def scaleDecimal (num den : Nat) (e : Int) : Nat × Nat :=
  if 0 ≤ e then (num, den * Nat.pow 10 e.toNat) else (num * Nat.pow 10 (-e).toNat, den)

/-- The integer `k` with `10 ^ k ≤ num / den < 10 ^ (k + 1)`. The logarithm to base two, times
the logarithm of two, is right or one too small. -/
def leadingExponent (num den : Nat) : Int :=
  let guess := ((num.log2 : Int) - den.log2 - 1) * 30102999566398 / 100000000000000
  let atLeast (k : Int) : Bool :=
    let (n, d) := scaleDecimal num den k
    d ≤ n
  if atLeast (guess + 2) then guess + 2 else if atLeast (guess + 1) then guess + 1 else guess

def Neighbourhood.holds (v : Neighbourhood) (c : Nat) (e : Int) : Bool :=
  let side (bound : Nat) : Nat × Nat :=
    let (n, d) := scaleDecimal bound v.den e
    (n, c * d)
  let (low, here) := side v.low
  let (high, _) := side v.high
  if v.closed then low ≤ here && here ≤ high else low < here && here < high

/-- The decimal number on the grid of multiples of `10 ^ e` that lies in the neighbourhood and
is nearest to the value, if one does. -/
def Neighbourhood.onGrid (v : Neighbourhood) (e : Int) : Option Nat :=
  let (n, d) := scaleDecimal v.value v.den e
  let below := n / d
  let above := below + 1
  match v.holds below e, v.holds above e with
  | true, true => some (nearestEven n d)
  | true, false => some below
  | false, true => some above
  | false, false => none

/-- The first grid, from the coarsest, with a point in the neighbourhood. Seventeen digits
always suffice. -/
def Neighbourhood.search (v : Neighbourhood) : Nat → Int → Nat × Int
  | 0, e => ((v.onGrid e).getD 0, e)
  | fuel + 1, e =>
    match v.onGrid e with
    | some c => (c, e)
    | none => v.search fuel (e - 1)

/-- The fewest digits that read back as a finite number, and of those the nearest. -/
def shortest (x : Binary64) : Decimal :=
  if x.isZero then ⟨x.isNegative, 0, 0⟩
  else
    let v := x.neighbourhood
    let (c, e) := v.search 17 (leadingExponent v.value v.den)
    let (c, e) := Decimal.trim 20 c e
    ⟨x.isNegative, c, e⟩

end Binary64

end TagMachine
