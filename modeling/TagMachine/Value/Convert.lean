import TagMachine.Error
import TagMachine.Text.Blank
import TagMachine.Text.Numeral

set_option autoImplicit false

/-! # Conversions between kinds -/

namespace TagMachine.Value

/-- The integer a text stands for: a numeral of an integer as it is, else the integer part of a
number between white space. -/
def integerOfText? (s : String) : Option Int64 :=
  match Text.readInt64? s with
  | some n => some n
  | none => (Text.readBinary64? (Text.trim s)).map Binary64.toInt64

def toInteger : Value → Except Error Int64
  | .integer n => .ok n
  | .float x => .ok x.toInt64
  | .boolean b => .ok (if b then 1 else 0)
  | .string s =>
    match integerOfText? s with
    | some n => .ok n
    | none => .error (.domain (.unreadableNumber .integer s))
  | v => .error (.type (.notConvertible v.kind .integer))

def toFloat : Value → Except Error Binary64
  | .float x => .ok x
  | .integer n => .ok (Binary64.ofInt64 n)
  | .string s =>
    match Text.readBinary64? (Text.trim s) with
    | some x => .ok x
    | none => .error (.domain (.unreadableNumber .float s))
  | v => .error (.type (.notConvertible v.kind .float))

end TagMachine.Value
