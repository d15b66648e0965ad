import TagMachine.Binary64.Basic

set_option autoImplicit false

/-! # Arithmetic on binary64 numbers

Each operation rounds the exact result once. A NaN operand is the result, made quiet, and the
first of two wins; an operation without a meaningful result gives the NaN with the sign set.
-/

namespace TagMachine.Binary64

/-- A NaN with the quiet bit set. -/
def quiet (x : Binary64) : Binary64 := ⟨x.bits ||| 0x0008000000000000⟩

/-- The result of an operation that has none. -/
def invalid : Binary64 := nan true

/-- The result when an operand is a NaN, and `other` when none is. -/
def unlessNaN (x y other : Binary64) : Binary64 :=
  if x.isNaN then x.quiet else if y.isNaN then y.quiet else other

/-- The signed integer `m` of a finite number `m · 2 ^ q`. -/
def signedSignificand (x : Binary64) : Int :=
  if x.isNegative then -(x.significand : Int) else x.significand

/-- The exact sum of two finite numbers, rounded. A sum of zero is positive unless both
operands are negative. -/
def addFinite (x y : Binary64) : Binary64 :=
  let q := min x.scale y.scale
  let sum := x.signedSignificand * Int.pow 2 (x.scale - q).toNat
    + y.signedSignificand * Int.pow 2 (y.scale - q).toNat
  if sum = 0 then zero (x.isNegative && y.isNegative)
  else roundScaled (sum < 0) sum.natAbs q

def add (x y : Binary64) : Binary64 :=
  unlessNaN x y <|
    if x.isInfinite then
      if y.isInfinite && x.isNegative != y.isNegative then invalid else x
    else if y.isInfinite then y
    else addFinite x y

def sub (x y : Binary64) : Binary64 :=
  unlessNaN x y (add x y.neg)

def mul (x y : Binary64) : Binary64 :=
  let negative := x.isNegative != y.isNegative
  unlessNaN x y <|
    if x.isInfinite || y.isInfinite then
      if x.isZero || y.isZero then invalid else infinity negative
    else roundScaled negative (x.significand * y.significand) (x.scale + y.scale)

def div (x y : Binary64) : Binary64 :=
  let negative := x.isNegative != y.isNegative
  unlessNaN x y <|
    if x.isInfinite then
      if y.isInfinite then invalid else infinity negative
    else if y.isInfinite then zero negative
    else if y.isZero then
      if x.isZero then invalid else infinity negative
    else
      let (n, d) := scaleDown x.significand y.significand (y.scale - x.scale)
      roundRatio negative n d

/-- The remainder of division truncated toward zero. It has the sign of the dividend. -/
def rem (x y : Binary64) : Binary64 :=
  unlessNaN x y <|
    if x.isInfinite || y.isZero then invalid
    else if y.isInfinite then x
    else
      let q := min x.scale y.scale
      let rest := (x.significand <<< (x.scale - q).toNat) % (y.significand <<< (y.scale - q).toNat)
      roundScaled x.isNegative rest q

/-! ## Rounding to an integer -/

/-- The integers a fraction can be rounded to. -/
inductive Direction where
  | down
  | up
  /-- To the nearest integer, a half away from zero. -/
  | nearest
deriving DecidableEq

/-- The absolute value of a number `± (whole + rest / one)` after rounding, `rest < one`. -/
def Direction.roundAbs (direction : Direction) (negative : Bool) (whole rest one : Nat) : Nat :=
  if rest = 0 then whole
  else
    match direction with
    | .down => if negative then whole + 1 else whole
    | .up => if negative then whole else whole + 1
    | .nearest => if one ≤ 2 * rest then whole + 1 else whole

/-- Rounding to an integer; infinities and NaNs stay as they are, and so does the sign. -/
def roundTo (direction : Direction) (x : Binary64) : Binary64 :=
  if x.isNaN then x.quiet
  else if x.isInfinite || 0 ≤ x.scale then x
  else
    let one := 1 <<< (-x.scale).toNat
    roundRatio x.isNegative
      (direction.roundAbs x.isNegative (x.significand / one) (x.significand % one) one) 1

/-- The absolute value. -/
def abs (x : Binary64) : Binary64 := ⟨x.bits &&& 0x7fffffffffffffff⟩

end TagMachine.Binary64
