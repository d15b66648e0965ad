import TagMachine.Builtin.Arguments
import TagMachine.Value.Arithmetic

set_option autoImplicit false

/-! # Functions on numbers

Numbers are compared and rounded as floats, so integers beyond 53 bits lose their last bits.
-/

namespace TagMachine.Builtin

def abs : Builtin := fun args =>
  match args.value "value" with
  | .integer n => giveInt (if n < 0 then -n else n)
  | .float x => give (.float x.abs)
  | v => .error (.type (.absOperand v.kind))

def ceil : Builtin := fun args => giveInt ((args.number "value").roundTo .up).toInt64

def floor : Builtin := fun args => giveInt ((args.number "value").roundTo .down).toInt64

def half : Binary64 := ⟨0x3fe0000000000000⟩

/-- The nearest integer, where a half goes up. -/
def round : Builtin := fun args =>
  giveInt (((args.number "value").add half).roundTo .down).toInt64

protected def min : Builtin := fun args =>
  let a := args.value "a"
  let b := args.value "b"
  give (if a.numberOrZero.numLe b.numberOrZero then a else b)

protected def max : Builtin := fun args =>
  let a := args.value "a"
  let b := args.value "b"
  give (if b.numberOrZero.numLe a.numberOrZero then a else b)

/-- A number in the kind of a value: an integer for an integer, else a float. -/
def inKindOf (v : Value) (x : Binary64) : Value :=
  match v with
  | .integer _ => .integer x.toInt64
  | _ => .float x

def bound (args : Arguments) (name other : String) : Binary64 :=
  if (args.value name).isNothing then args.number other else args.number name

/-- The value, or the bound that it lies beyond. -/
def clamp : Builtin := fun args =>
  let v := args.value "value"
  let low := bound args "low" "min"
  let high := bound args "high" "max"
  give (
    if v.numberOrZero.numLt low then inKindOf v low
    else if high.numLt v.numberOrZero then inKindOf v high
    else v)

/-- How `fold` combines what it has with the next element: integers as integers, everything else
as floats. -/
def combine (op : ArithmeticOp) (acc item : Value) : Value :=
  match acc, item with
  | .integer a, .integer b => .integer (op.onIntegers a b)
  | _, _ => .float (op.onFloats acc.numberOrZero item.numberOrZero)

/-- The sum or the product of a list and an initial value. -/
def fold : Builtin := fun args =>
  let run (op : ArithmeticOp) :=
    give ((args.items "list").foldl (combine op) (args.value "initial"))
  match args.text "fn" with
  | "add" => run .add
  | "multiply" => run .mul
  | name => .error (.domain (.unknownFold name))

end TagMachine.Builtin
