import TagMachine.Binary64.Arithmetic
import TagMachine.Error

set_option autoImplicit false

/-! # Arithmetic on values

Two integers are combined modulo `2 ^ 64`. If a float is among the operands, both are widened to
floats. Division truncates, the remainder has the sign of the dividend, and both fail on a zero
divisor.
-/

namespace TagMachine

/-- The operations of arithmetic with two operands. -/
inductive ArithmeticOp where
  | add
  | sub
  | mul
  | div
  | rem
deriving DecidableEq, Inhabited

namespace ArithmeticOp

/-- Whether the operation divides by its second operand. -/
def divides : ArithmeticOp → Bool
  | div => true
  | rem => true
  | _ => false

/-- The operation on integers; on a zero divisor the result means nothing. -/
def onIntegers : ArithmeticOp → Int64 → Int64 → Int64
  | add, x, y => x + y
  | sub, x, y => x - y
  | mul, x, y => x * y
  | div, x, y => x / y
  | rem, x, y => x % y

/-- The operation on floats. -/
def onFloats : ArithmeticOp → Binary64 → Binary64 → Binary64
  | add, x, y => x.add y
  | sub, x, y => x.sub y
  | mul, x, y => x.mul y
  | div, x, y => x.div y
  | rem, x, y => x.rem y

/-- The operation on values. -/
def apply (op : ArithmeticOp) (a b : Value) : Except Error Value :=
  match a, b with
  | .integer x, .integer y =>
    if op.divides && y == 0 then .error (.domain .divisionByZero)
    else .ok (.integer (op.onIntegers x y))
  | _, _ =>
    match a.asNumber?, b.asNumber? with
    | some x, some y =>
      if op.divides && y.isZero then .error (.domain .divisionByZero)
      else .ok (.float (op.onFloats x y))
    | _, _ => .error (.type (.arithmetic a.kind b.kind))

end ArithmeticOp

/-- The negative of a number. -/
def Value.negate : Value → Except Error Value
  | .integer n => .ok (.integer (-n))
  | .float x => .ok (.float x.neg)
  | v => .error (.type (.negate v.kind))

end TagMachine
