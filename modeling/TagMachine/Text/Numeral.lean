import TagMachine.Binary64.Decimal

set_option autoImplicit false

/-! # Reading numerals

The texts read as integers are an optional sign and decimal digits. The texts read as binary64
numbers are an optional sign followed by `inf`, `infinity` or `nan` in any case, or by a decimal
number with an optional fraction and exponent and at least one digit before the exponent.
-/

namespace TagMachine.Text

def digitValue (c : Char) : Nat := c.toNat - '0'.toNat

/-- The number written by a list of decimal digits, after `start`. -/
def digitsValue (start : Nat) (digits : List Char) : Nat :=
  digits.foldl (fun n c => 10 * n + digitValue c) start

/-- The leading decimal digits and what follows them. -/
def spanDigits (cs : List Char) : List Char × List Char := cs.span Char.isDigit

/-- An optional sign, and what follows it; `true` stands for minus. -/
def readSign : List Char → Bool × List Char
  | '-' :: rest => (true, rest)
  | '+' :: rest => (false, rest)
  | cs => (false, cs)

/-- The integer written by a text of an optional sign and at least one digit. -/
def readInt? (s : String) : Option Int :=
  let (negative, digits) := readSign s.toList
  if digits.isEmpty || !digits.all Char.isDigit then none
  else
    let n : Int := digitsValue 0 digits
    some (if negative then -n else n)

/-- The integer written by a text, when it fits 64 bits. -/
def readInt64? (s : String) : Option Int64 :=
  match readInt? s with
  | some n => if -Int.pow 2 63 ≤ n ∧ n < Int.pow 2 63 then some (Int64.ofInt n) else none
  | none => none

/-- The exponent part of a decimal number, which ends the text. No exponent is zero. -/
def readExponent? : List Char → Option Int
  | [] => some 0
  | c :: rest =>
    if c == 'e' || c == 'E' then
      let (negative, digits) := readSign rest
      if digits.isEmpty || !digits.all Char.isDigit then none
      else
        let n : Int := digitsValue 0 digits
        some (if negative then -n else n)
    else none

/-- A decimal number without its sign. -/
def readDecimal? (negative : Bool) (cs : List Char) : Option Decimal :=
  let (whole, rest) := spanDigits cs
  let (fraction, rest) :=
    match rest with
    | '.' :: more => spanDigits more
    | _ => ([], rest)
  if whole.isEmpty && fraction.isEmpty then none
  else
    (readExponent? rest).map fun e =>
      ⟨negative, digitsValue (digitsValue 0 whole) fraction, e - fraction.length⟩

/-- The binary64 number written by a text. -/
def readBinary64? (s : String) : Option Binary64 :=
  let (negative, cs) := readSign s.toList
  let word := String.ofList (cs.map Char.toLower)
  if word == "inf" || word == "infinity" then some (Binary64.infinity negative)
  else if word == "nan" then some (Binary64.nan negative)
  else (readDecimal? negative cs).map Decimal.nearest

end TagMachine.Text
