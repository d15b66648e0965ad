import TagMachine.Text.Hex
import TagMachine.Text.Utf8

set_option autoImplicit false

/-! # URL coding

The bytes of a text other than letters, digits, `*`, `-`, `.` and `_` are written as `%` and two
hexadecimal digits. Reading takes such triples back, reads `+` as a space, and leaves everything
else as it is.
-/

namespace TagMachine.Codec.Form

/-- Whether a byte is written as itself. -/
def isPlain (b : UInt8) : Bool :=
  (48 ≤ b && b ≤ 57) || (65 ≤ b && b ≤ 90) || (97 ≤ b && b ≤ 122)
    || b == 42 || b == 45 || b == 46 || b == 95

/-- The upper-case hexadecimal digit of a number below 16. -/
def upperDigit (n : Nat) : Char := (Nat.digitChar n).toUpper

def encodeByte (b : UInt8) : List Char :=
  if isPlain b then [Char.ofNat b.toNat]
  else ['%', upperDigit (b.toNat / 16), upperDigit (b.toNat % 16)]

/-- The coded form of a text. -/
def encode (s : String) : String := String.ofList ((Text.toUtf8 s).flatMap encodeByte)

/-- The value of a byte that is a hexadecimal digit. -/
def digitOf? (b : UInt8) : Option Nat := Text.hexValue? (Char.ofNat b.toNat)

/-- The bytes of a coded form. -/
def decodeBytes : List UInt8 → List UInt8
  | 37 :: a :: b :: rest =>
    match digitOf? a, digitOf? b with
    | some x, some y => (16 * x + y).toUInt8 :: decodeBytes rest
    | _, _ => 37 :: decodeBytes (a :: b :: rest)
  | 43 :: rest => 32 :: decodeBytes rest
  | b :: rest => b :: decodeBytes rest
  | [] => []

/-- The text of a coded form. -/
def decode (s : String) : String := Text.ofUtf8 (decodeBytes (Text.toUtf8 s))

end TagMachine.Codec.Form
