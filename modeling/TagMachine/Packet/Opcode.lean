import TagMachine.Value.Arithmetic
import TagMachine.Value.Compare

set_option autoImplicit false

/-! # Operations of the machine

Each operation has a byte in the packet format; the bytes that stand for no operation are many.
-/

namespace TagMachine

/-- The comparisons of two operands. -/
inductive CompareOp where
  | eq
  | ne
  | lt
  | gt
  | le
  | ge
deriving DecidableEq, Inhabited

/-- Whether a comparison holds. All values can be equal, only numbers and strings are ordered. -/
def CompareOp.holds (op : CompareOp) (s : Store) (a b : Value) : Except TypeError Bool :=
  match op with
  | eq => .ok (s.equal a b)
  | ne => .ok (!s.equal a b)
  | lt => (a.compare b).map (· == .lt)
  | gt => (a.compare b).map (· == .gt)
  | le => (a.compare b).map (· != .gt)
  | ge => (a.compare b).map (· != .lt)

/-- The kinds that values are converted to. -/
inductive Conversion where
  | text
  | integer
  | float
  | boolean
deriving DecidableEq, Inhabited

/-- The operations of the machine. -/
inductive Opcode where
  | loadConstant
  | loadField
  | loadNothing
  | copy
  | arithmetic (op : ArithmeticOp)
  | negate
  | compare (op : CompareOp)
  | and
  | or
  | not
  | concat
  | isKind (kind : Kind)
  | convert (target : Conversion)
  | newRecord
  | setField
  | getField
  | hasField
  | newList
  | append
  | getItem
  | listLength
  | jump
  | jumpIf
  | jumpIfNot
  | coalesce
  | iterate
  | collect
  | call
  | setTags
  | checkTags
  /-- As `getField`, with a constant as the key. -/
  | getNamed
  /-- As `setField`, with a constant as the key. -/
  | setNamed
  /-- A new record with one field, whose key is a constant. -/
  | newNamed
  /-- A call with a single argument. -/
  | callValue
  /-- A jump where the comparison does not hold. -/
  | jumpUnless (op : CompareOp)
  | jumpIfNothing
deriving DecidableEq, Inhabited

namespace Opcode

/-- The byte of an operation. -/
def byte : Opcode → UInt8
  | loadConstant => 0x01
  | loadField => 0x02
  | loadNothing => 0x03
  | copy => 0x04
  | arithmetic .add => 0x10
  | arithmetic .sub => 0x11
  | arithmetic .mul => 0x12
  | arithmetic .div => 0x13
  | arithmetic .rem => 0x14
  | negate => 0x15
  | compare .eq => 0x20
  | compare .ne => 0x21
  | compare .lt => 0x22
  | compare .gt => 0x23
  | compare .le => 0x24
  | compare .ge => 0x25
  | and => 0x30
  | or => 0x31
  | not => 0x32
  | concat => 0x40
  | isKind .string => 0x50
  | isKind .integer => 0x51
  | isKind .float => 0x52
  | isKind .boolean => 0x53
  | isKind .nothing => 0x54
  | isKind .list => 0x55
  | isKind .record => 0x56
  | convert .text => 0x58
  | convert .integer => 0x59
  | convert .float => 0x5a
  | convert .boolean => 0x5b
  | newRecord => 0x60
  | setField => 0x61
  | getField => 0x62
  | hasField => 0x63
  | newList => 0x70
  | append => 0x71
  | getItem => 0x72
  | listLength => 0x73
  | jump => 0x80
  | jumpIf => 0x81
  | jumpIfNot => 0x82
  | coalesce => 0x85
  | iterate => 0x90
  | collect => 0x91
  | call => 0xa0
  | setTags => 0xb0
  | checkTags => 0xb1
  | getNamed => 0xc1
  | setNamed => 0xc2
  | newNamed => 0xc3
  | callValue => 0xc4
  | jumpUnless .eq => 0xc5
  | jumpUnless .ne => 0xc6
  | jumpUnless .lt => 0xc7
  | jumpUnless .gt => 0xc8
  | jumpUnless .le => 0xc9
  | jumpUnless .ge => 0xca
  | jumpIfNothing => 0xcb

/-- The operation that a byte stands for. -/
def ofByte? (b : UInt8) : Option Opcode :=
  match b.toNat with
  | 0x01 => some loadConstant
  | 0x02 => some loadField
  | 0x03 => some loadNothing
  | 0x04 => some copy
  | 0x10 => some (arithmetic .add)
  | 0x11 => some (arithmetic .sub)
  | 0x12 => some (arithmetic .mul)
  | 0x13 => some (arithmetic .div)
  | 0x14 => some (arithmetic .rem)
  | 0x15 => some negate
  | 0x20 => some (compare .eq)
  | 0x21 => some (compare .ne)
  | 0x22 => some (compare .lt)
  | 0x23 => some (compare .gt)
  | 0x24 => some (compare .le)
  | 0x25 => some (compare .ge)
  | 0x30 => some and
  | 0x31 => some or
  | 0x32 => some not
  | 0x40 => some concat
  | 0x50 => some (isKind .string)
  | 0x51 => some (isKind .integer)
  | 0x52 => some (isKind .float)
  | 0x53 => some (isKind .boolean)
  | 0x54 => some (isKind .nothing)
  | 0x55 => some (isKind .list)
  | 0x56 => some (isKind .record)
  | 0x58 => some (convert .text)
  | 0x59 => some (convert .integer)
  | 0x5a => some (convert .float)
  | 0x5b => some (convert .boolean)
  | 0x60 => some newRecord
  | 0x61 => some setField
  | 0x62 => some getField
  | 0x63 => some hasField
  | 0x70 => some newList
  | 0x71 => some append
  | 0x72 => some getItem
  | 0x73 => some listLength
  | 0x80 => some jump
  | 0x81 => some jumpIf
  | 0x82 => some jumpIfNot
  | 0x85 => some coalesce
  | 0x90 => some iterate
  | 0x91 => some collect
  | 0xa0 => some call
  | 0xb0 => some setTags
  | 0xb1 => some checkTags
  | 0xc1 => some getNamed
  | 0xc2 => some setNamed
  | 0xc3 => some newNamed
  | 0xc4 => some callValue
  | 0xc5 => some (jumpUnless .eq)
  | 0xc6 => some (jumpUnless .ne)
  | 0xc7 => some (jumpUnless .lt)
  | 0xc8 => some (jumpUnless .gt)
  | 0xc9 => some (jumpUnless .le)
  | 0xca => some (jumpUnless .ge)
  | 0xcb => some jumpIfNothing
  | _ => none

/-- Every operation is what its byte stands for. -/
theorem ofByte?_byte (op : Opcode) : ofByte? op.byte = some op := by
  cases op with
  | arithmetic op => cases op <;> rfl
  | compare op => cases op <;> rfl
  | isKind k => cases k <;> rfl
  | convert t => cases t <;> rfl
  | jumpUnless op => cases op <;> rfl
  | _ => rfl

end Opcode

end TagMachine
