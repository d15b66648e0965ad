import TagMachine.Binary64.Basic

set_option autoImplicit false

/-! # Values

A value is a scalar, or a reference to a list or record that lives in a store
(`TagMachine.Store`). Copying a value that is a reference copies the reference, so two registers
can hold the same list.
-/

namespace TagMachine

/-- The kinds of values a register can hold. -/
inductive Kind where
  | string
  | integer
  | float
  | boolean
  | nothing
  | list
  | record
deriving DecidableEq, Inhabited

namespace Kind

/-- The name of a kind, as messages give it. -/
def name : Kind → String
  | string => "string"
  | integer => "integer"
  | float => "float"
  | boolean => "boolean"
  | nothing => "nothing"
  | list => "list"
  | record => "record"

/-- The number of a kind in the packet format. -/
def id : Kind → UInt8
  | string => 1
  | integer => 2
  | float => 3
  | boolean => 4
  | nothing => 5
  | list => 7
  | record => 8

end Kind

/-- A set of at most 64 tags, one bit each. -/
abbrev TagSet := BitVec 64

/-- A reference to a list of a store. -/
structure ListRef where
  index : Nat
deriving DecidableEq, Inhabited

/-- A reference to a record of a store. -/
structure RecordRef where
  index : Nat
deriving DecidableEq, Inhabited

/-- A value of the machine. -/
inductive Value where
  | string (s : String)
  | integer (n : Int64)
  | float (x : Binary64)
  | boolean (b : Bool)
  | nothing
  | list (ref : ListRef)
  | record (ref : RecordRef)
deriving DecidableEq

namespace Value

instance : Inhabited Value := ⟨nothing⟩

def kind : Value → Kind
  | string _ => .string
  | integer _ => .integer
  | float _ => .float
  | boolean _ => .boolean
  | nothing => .nothing
  | list _ => .list
  | record _ => .record

def isNothing (v : Value) : Bool := v.kind = .nothing

/-- The number a numeric value stands for, integers widened. -/
def asNumber? : Value → Option Binary64
  | integer n => some (Binary64.ofInt64 n)
  | float x => some x
  | _ => none

def isNumeric (v : Value) : Bool := v.asNumber?.isSome

/-- The truth a value stands for: zero, the empty string and nothing are false, every list and
record is true. -/
def truthy : Value → Bool
  | boolean b => b
  | integer n => n != 0
  | float x => !x.isZero
  | string s => !s.isEmpty
  | nothing => false
  | list _ => true
  | record _ => true

end Value

end TagMachine
