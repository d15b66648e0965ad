import TagMachine.Binary64.Decimal

set_option autoImplicit false

/-! # Written forms of decimal numbers

A `Layout` says how a decimal number is written: for which magnitudes in plain notation and how
the scientific notation of the others looks.
-/

namespace TagMachine

/-- The decisions of one way to write decimal numbers. -/
structure Layout where
  /-- The least exponent of the leading digit that is written plainly. -/
  plainFrom : Int
  /-- The least exponent of the leading digit above those that is not. -/
  plainBelow : Int
  /-- The mark in front of an exponent. -/
  mark : String
  /-- Whether an exponent that is not negative carries a plus sign. -/
  plus : Bool
  /-- Whether a single digit in front of an exponent is followed by a point and a zero. -/
  pointed : Bool
deriving DecidableEq

namespace Decimal

def sign (d : Decimal) : String := if d.negative then "-" else ""

/-- Plain notation with at least one digit on both sides of the point. -/
def plain (d : Decimal) : String :=
  let digits := d.digits.toList
  let zeros (n : Int) : List Char := List.replicate n.toNat '0'
  let body :=
    if 0 ≤ d.exponent then digits ++ zeros d.exponent ++ ['.', '0']
    else if 0 ≤ d.magnitude then
      let whole := (d.magnitude + 1).toNat
      digits.take whole ++ '.' :: digits.drop whole
    else '0' :: '.' :: zeros (-d.magnitude - 1) ++ digits
  d.sign ++ String.ofList body

/-- Scientific notation with one digit in front of the point. -/
def scientific (layout : Layout) (d : Decimal) : String :=
  let mantissa :=
    match d.digits.toList with
    | [] => []
    | [c] => if layout.pointed then [c, '.', '0'] else [c]
    | c :: rest => c :: '.' :: rest
  let plus := if layout.plus && 0 ≤ d.magnitude then "+" else ""
  d.sign ++ String.ofList mantissa ++ layout.mark ++ plus ++ decimalInt d.magnitude

end Decimal

/-- A decimal number in a given layout. -/
def Layout.write (layout : Layout) (d : Decimal) : String :=
  if layout.plainFrom ≤ d.magnitude ∧ d.magnitude < layout.plainBelow then d.plain
  else d.scientific layout

end TagMachine
