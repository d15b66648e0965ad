import TagMachine.Datum.Render
import TagMachine.Error

set_option autoImplicit false

/-! # Arguments of standard functions

A standard function is given a record of arguments. Reading an argument never fails: one that is
missing or of the wrong kind reads as the empty text, zero, or an empty list or record. A function
only reads the store; what it returns is described by a blueprint.
-/

namespace TagMachine

/-- What a call knows besides its arguments. -/
structure CallContext where
  /-- The time of the invocation, as the caller gave it. -/
  timestamp : String
  /-- A number that tells the calls of an invocation apart. -/
  serial : Nat
deriving DecidableEq, Inhabited

/-- The arguments of a call. -/
structure Arguments where
  store : Store
  record : Record
  context : CallContext

/-- A standard function. -/
abbrev Builtin := Arguments → Except Error Blueprint

namespace Arguments

def value (args : Arguments) (name : String) : Value := args.record.get name

/-- An argument as text: strings as they are, nothing as the empty text, else the written
form. -/
def text (args : Arguments) (name : String) : String :=
  match args.value name with
  | .string s => s
  | .nothing => ""
  | v => args.store.text v

def chars (args : Arguments) (name : String) : List Char := (args.text name).toList

/-- The first of two arguments whose text is not empty. -/
def textOr (args : Arguments) (name other : String) : String :=
  let s := args.text name
  if s.isEmpty then args.text other else s

/-- An argument as an integer: floats without their fraction, zero for all but numbers. -/
def integer (args : Arguments) (name : String) : Int64 :=
  match args.value name with
  | .integer n => n
  | .float x => x.toInt64
  | _ => 0

end Arguments

def Value.numberOrZero (v : Value) : Binary64 := v.asNumber?.getD (Binary64.zero false)

namespace Arguments

def number (args : Arguments) (name : String) : Binary64 := (args.value name).numberOrZero

def items (args : Arguments) (name : String) : List Value :=
  match args.value name with
  | .list ref => (args.store.items ref).toList
  | _ => []

def fields (args : Arguments) (name : String) : Record :=
  match args.value name with
  | .record ref => args.store.record ref
  | _ => Record.empty

end Arguments

namespace Builtin

/-- The result that is an existing value. -/
def give (v : Value) : Except Error Blueprint := .ok (.value v)

/-- The result that is a text. -/
def giveText (s : String) : Except Error Blueprint := give (.string s)

def giveChars (cs : List Char) : Except Error Blueprint := giveText (String.ofList cs)

/-- The result that is a truth value. -/
def giveBool (b : Bool) : Except Error Blueprint := give (.boolean b)

/-- The result that is an integer. -/
def giveInt (n : Int64) : Except Error Blueprint := give (.integer n)

/-- The result that is a fresh list. -/
def giveList (items : List Value) : Except Error Blueprint := .ok (.ofValues items)

/-- The result that is a fresh record. -/
def giveRecord (r : Record) : Except Error Blueprint := .ok (.ofRecord r)

end Builtin

end TagMachine
