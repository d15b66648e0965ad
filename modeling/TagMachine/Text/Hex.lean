set_option autoImplicit false

/-! # Hexadecimal numerals -/

namespace TagMachine.Text

/-- The text padded with zeros on the left to at least `width` characters. -/
def zeroPadded (width : Nat) (digits : List Char) : List Char :=
  List.replicate (width - digits.length) '0' ++ digits

/-- The number in lower-case hexadecimal digits, at least `width` of them. -/
def hexLower (width n : Nat) : String := String.ofList (zeroPadded width (Nat.toDigits 16 n))

/-- The number in upper-case hexadecimal digits, at least `width` of them. -/
def hexUpper (width n : Nat) : String :=
  String.ofList (zeroPadded width ((Nat.toDigits 16 n).map Char.toUpper))

/-- The value of a hexadecimal digit in either case. -/
def hexValue? (c : Char) : Option Nat :=
  if c.isDigit then some (c.toNat - '0'.toNat)
  else if 'a' ≤ c ∧ c ≤ 'f' then some (c.toNat - 'a'.toNat + 10)
  else if 'A' ≤ c ∧ c ≤ 'F' then some (c.toNat - 'A'.toNat + 10)
  else none

end TagMachine.Text
