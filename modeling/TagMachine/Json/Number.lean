import TagMachine.Binary64.Arithmetic
import TagMachine.Datum.Basic
import TagMachine.Json.Fault
import TagMachine.Text.Numeral

set_option autoImplicit false

/-! # Numbers in JSON texts

A number without fraction and exponent that fits 64 bits is an integer, any other is a float. A
float is made from at most as many leading digits as fit 64 unsigned bits, by one multiplication
or division with a power of ten; so its last bit may differ from that of the nearest float.
-/

namespace TagMachine.Json

/-- A fault, what was left of the text, and how many bytes of it count as read. -/
structure Failure where
  fault : Fault
  rest : List Char
  extra : Nat

/-- What reading a part of a text gives: its meaning and the rest of the text. -/
abbrev Parsed (α : Type) := Except Failure (α × List Char)

def failAt {α : Type} (fault : Fault) (rest : List Char) : Parsed α := .error ⟨fault, rest, 0⟩

/-- Failure at the first byte of the rest, or at the end of the text when there is none. -/
def failOn {α : Type} (fault : Fault) (rest : List Char) : Parsed α := .error ⟨fault, rest, 1⟩

/-- The leading digits, after `n`, as long as they fit 64 bits, and the number of those left. -/
def absorb (n : Nat) : List Char → Nat × Nat
  | [] => (n, 0)
  | c :: rest =>
    let more := 10 * n + Text.digitValue c
    if more < Nat.pow 2 64 then absorb more rest else (n, rest.length + 1)

def powerOfTen (k : Nat) : Binary64 := Decimal.nearest ⟨false, 1, k⟩

/-- The float `f · 10 ^ e`, or `none` when it is too large. Below `10 ^ -308` the division is
done in steps, `fuel` of which are enough. -/
def scaleFloat (fuel : Nat) (f : Binary64) (e : Int) : Option Binary64 :=
  if 0 ≤ e then
    if e ≤ 308 then
      let r := f.mul (powerOfTen e.toNat)
      if r.isInfinite then none else some r
    else if f.isZero then some f else none
  else if -308 ≤ e then some (f.div (powerOfTen (-e).toNat))
  else
    match fuel with
    | 0 => some f
    | fuel + 1 => if f.isZero then some f else scaleFloat fuel (f.div (powerOfTen 308)) (e + 308)

/-- The float with the given sign, digits and exponent, at the end of its numeral. -/
def floatOf (negative : Bool) (significand : Nat) (e : Int) (rest : List Char) : Parsed Datum :=
  match scaleFloat 3 (Binary64.ofInt significand) e with
  | some f => .ok (.float (if negative then f.neg else f), rest)
  | none => failAt .numberOutOfRange rest

/-- The largest exponent that is computed with. -/
def maxExponent : Nat := Nat.pow 2 31 - 1

/-- The value of the digits of an exponent after `n`, or the rest behind the first digit that
makes it too large. -/
def exponentValue (n : Nat) : List Char → Except (List Char) Nat
  | [] => .ok n
  | c :: rest =>
    let more := 10 * n + Text.digitValue c
    if maxExponent < more then .error rest else exponentValue more rest

/-- The end of a numeral after the mark of its exponent. -/
def readExponent (negative : Bool) (significand : Nat) (e : Int) (cs : List Char) :
    Parsed Datum :=
  let (down, cs) :=
    match cs with
    | '+' :: rest => (false, rest)
    | '-' :: rest => (true, rest)
    | _ => (false, cs)
  match cs with
  | [] => failAt .endInValue []
  | c :: _ =>
    let (digits, rest) := Text.spanDigits cs
    if !c.isDigit then failOn .invalidNumber cs
    else
      match exponentValue 0 digits with
      | .ok n => floatOf negative significand (if down then e - n else e + n) rest
      | .error left =>
        if significand ≠ 0 ∧ !down then failAt .numberOutOfRange (left ++ rest)
        else .ok (.float (Binary64.zero negative), rest)

/-- The end of a numeral after its fraction. -/
def readScale (negative : Bool) (significand : Nat) (e : Int) (cs : List Char) : Parsed Datum :=
  match cs with
  | 'e' :: rest => readExponent negative significand e rest
  | 'E' :: rest => readExponent negative significand e rest
  | _ => floatOf negative significand e cs

/-- The end of a numeral after its decimal point. -/
def readFraction (negative : Bool) (significand : Nat) (e : Int) (cs : List Char) :
    Parsed Datum :=
  let (digits, rest) := Text.spanDigits cs
  if digits.isEmpty then
    if rest.isEmpty then failOn .endInValue rest else failOn .invalidNumber rest
  else
    let (significand, left) := absorb significand digits
    readScale negative significand (e - (digits.length - left : Nat)) rest

/-- An integer that is not followed by a fraction or exponent. Minus zero is a float, and so is
what does not fit 64 bits. -/
def wholeNumber (negative : Bool) (n : Nat) : Datum :=
  if negative then
    if n = 0 ∨ Nat.pow 2 63 < n then .float (Binary64.ofInt n).neg else .integer (Int64.ofInt (-n))
  else if n < Nat.pow 2 63 then .integer (Int64.ofNat n)
  else .float (Binary64.ofInt n)

/-- A number whose sign has been read. -/
def readNumber (negative : Bool) (cs : List Char) : Parsed Datum :=
  match cs with
  | [] => failAt .endInValue []
  | c :: _ =>
    let (digits, rest) := Text.spanDigits cs
    if !c.isDigit then failOn .invalidNumber cs
    else if c = '0' ∧ 1 < digits.length then failOn .invalidNumber (digits.drop 1 ++ rest)
    else
      let (significand, left) := absorb 0 digits
      match rest with
      | '.' :: rest => readFraction negative significand left rest
      | 'e' :: rest => readExponent negative significand left rest
      | 'E' :: rest => readExponent negative significand left rest
      | _ =>
        if left = 0 then .ok (wholeNumber negative significand, rest)
        else floatOf negative significand left rest

end TagMachine.Json
