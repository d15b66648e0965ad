set_option autoImplicit false

/-! # Binary64 numbers

A binary64 number is held as its 64-bit pattern, so that the sign of a NaN and the sign of a
zero are never lost. The 63 bits below the sign are the *magnitude*: the magnitudes of the
finite numbers, read as natural numbers, are in the order of their absolute values, the
infinity comes next, and the NaNs last.

A finite number stands for `± m · 2 ^ q`, where `m` is its `significand` and `q` its `scale`.
The one place where a real number becomes a binary64 number is `roundRatio`: the nearest
number, and of two equally near ones the one with the even significand.
-/

namespace TagMachine

/-- A binary64 number, given by its bit pattern. -/
structure Binary64 where
  bits : UInt64
deriving DecidableEq, Hashable, Inhabited

namespace Binary64

/-- The magnitude of the infinities; every larger magnitude is a NaN. -/
def infinityMagnitude : Nat := 0x7ff0000000000000

/-- All bits below the sign bit. -/
def magnitude (x : Binary64) : Nat := x.bits.toNat % Nat.pow 2 63

/-- Whether the sign bit is set. -/
def isNegative (x : Binary64) : Bool := Nat.pow 2 63 ≤ x.bits.toNat

def isNaN (x : Binary64) : Bool := infinityMagnitude < x.magnitude

def isInfinite (x : Binary64) : Bool := x.magnitude == infinityMagnitude

def isFinite (x : Binary64) : Bool := x.magnitude < infinityMagnitude

/-- Whether the number is one of the two zeros. -/
def isZero (x : Binary64) : Bool := x.magnitude == 0

/-- The number with the given sign and magnitude. -/
def ofMagnitude (negative : Bool) (magnitude : Nat) : Binary64 :=
  ⟨UInt64.ofNat (magnitude + if negative then Nat.pow 2 63 else 0)⟩

def zero (negative : Bool) : Binary64 := ofMagnitude negative 0

def infinity (negative : Bool) : Binary64 := ofMagnitude negative infinityMagnitude

/-- The quiet NaN without payload. -/
def nan (negative : Bool) : Binary64 := ofMagnitude negative 0x7ff8000000000000

/-- The integer `m` of a finite number `± m · 2 ^ q`. -/
def significand (x : Binary64) : Nat :=
  if x.magnitude < Nat.pow 2 52 then x.magnitude
  else Nat.pow 2 52 + x.magnitude % Nat.pow 2 52

/-- The exponent `q` of a finite number `± m · 2 ^ q`; it is at least `-1074`. -/
def scale (x : Binary64) : Int :=
  if x.magnitude < Nat.pow 2 52 then -1074 else (x.magnitude / Nat.pow 2 52 : Nat) - 1075

/-- The same number with the other sign; NaNs change their sign too. -/
def neg (x : Binary64) : Binary64 := ⟨x.bits ^^^ 0x8000000000000000⟩

/-! ## Rounding -/

/-- The integer nearest to `num / den`, a half going to the even neighbour. -/
def nearestEven (num den : Nat) : Nat :=
  let floor := num / den
  let rest := 2 * (num % den)
  if rest < den then floor
  else if den < rest then floor + 1
  else floor + floor % 2

/-- Numerator and denominator of `num / den / 2 ^ q`. -/
def scaleDown (num den : Nat) (q : Int) : Nat × Nat :=
  if 0 ≤ q then (num, den <<< q.toNat) else (num <<< (-q).toNat, den)

/-- The number nearest to `± num / den`. Ties go to the even significand, what is too large
becomes an infinity, and a zero keeps the sign. -/
def roundRatio (negative : Bool) (num den : Nat) : Binary64 :=
  if num = 0 then zero negative
  else
    let guess : Int := num.log2 - den.log2
    let low : Int := max (guess - 53) (-1074)
    let (n, d) := scaleDown num den low
    let q := if n / d < Nat.pow 2 53 then low else low + 1
    let (n, d) := scaleDown num den q
    let magnitude := (q + 1074).toNat * Nat.pow 2 52 + nearestEven n d
    ofMagnitude negative (min magnitude infinityMagnitude)

/-- The number nearest to `± m · 2 ^ q`. -/
def roundScaled (negative : Bool) (m : Nat) (q : Int) : Binary64 :=
  if 0 ≤ q then roundRatio negative (m <<< q.toNat) 1
  else roundRatio negative m (1 <<< (-q).toNat)

/-- The number nearest to an integer. -/
def ofInt (n : Int) : Binary64 := roundRatio (n < 0) n.natAbs 1

def ofInt64 (n : Int64) : Binary64 := ofInt n.toInt

/-! ## Order -/

/-- Equality of the numbers meant: the two zeros are equal, a NaN equals nothing. -/
def numEq (x y : Binary64) : Bool :=
  !x.isNaN && !y.isNaN && (x.bits == y.bits || (x.isZero && y.isZero))

/-- The place of a bit pattern in the total order of all patterns: NaNs with a sign, `-∞`, the
negative numbers, `-0`, `+0`, the positive numbers, `+∞`, NaNs without a sign. -/
def orderKey (x : Binary64) : Int :=
  if x.isNegative then -(x.magnitude : Int) - 1 else x.magnitude

def totalCompare (x y : Binary64) : Ordering := compare x.orderKey y.orderKey

/-- Whether `x` lies below `y` as a number: no NaN does, and the zeros are one number. -/
def numLt (x y : Binary64) : Bool :=
  !x.isNaN && !y.isNaN && !(x.isZero && y.isZero) && x.orderKey < y.orderKey

/-- Whether `x` is at most `y` as a number. -/
def numLe (x y : Binary64) : Bool := x.numLt y || x.numEq y

/-! ## Integers -/

/-- Whether a finite number is an integer. -/
def isInteger (x : Binary64) : Bool :=
  0 ≤ x.scale || x.significand % Nat.pow 2 (-x.scale).toNat == 0

/-- The integer part of the absolute value of a finite number. -/
def wholePart (x : Binary64) : Nat :=
  if 0 ≤ x.scale then x.significand <<< x.scale.toNat
  else x.significand >>> (-x.scale).toNat

/-- A word in the range of signed 64-bit integers, at the nearer end when out of range. -/
def clampInt64 (n : Int) : Int64 :=
  if n < -Int.pow 2 63 then Int64.minValue
  else if Int.pow 2 63 ≤ n then Int64.maxValue
  else Int64.ofInt n

/-- Truncation toward zero, clamped to the range; a NaN gives zero. -/
def toInt64 (x : Binary64) : Int64 :=
  if x.isNaN then 0
  else if x.isInfinite then if x.isNegative then Int64.minValue else Int64.maxValue
  else clampInt64 (if x.isNegative then -(x.wholePart : Int) else x.wholePart)

end Binary64

end TagMachine
