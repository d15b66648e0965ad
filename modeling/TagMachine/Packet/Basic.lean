import TagMachine.Datum.Render
import TagMachine.Packet.Opcode

set_option autoImplicit false

/-! # Packets

A packet is a compiled program with its contract: the fields it reads and writes, the tags that
mark sensitive values, and the rules on its output.
-/

namespace TagMachine

/-- The declared type of a field. It is not checked when a program runs. -/
inductive FieldType where
  | string
  | integer
  | float
  | boolean
  | nothing
  | maybe
  | list
  | record
  | unknown (id : UInt8)
deriving DecidableEq, Inhabited

namespace FieldType

/-- The type that a number stands for in the packet format. -/
def ofId (id : UInt8) : FieldType :=
  match id.toNat with
  | 1 => string
  | 2 => integer
  | 3 => float
  | 4 => boolean
  | 5 => nothing
  | 6 => maybe
  | 7 => list
  | 8 => record
  | _ => unknown id

/-- The number of a type in the packet format. -/
def id : FieldType → UInt8
  | string => 1
  | integer => 2
  | float => 3
  | boolean => 4
  | nothing => 5
  | maybe => 6
  | list => 7
  | record => 8
  | unknown id => id

end FieldType

/-- A field of the input or the output. -/
structure FieldDef where
  name : String
  type : FieldType
  /-- The tags that the field's value gets on entry. -/
  tags : TagSet
  /-- The register of the field. -/
  register : UInt16
deriving DecidableEq, Inhabited

/-- A tag with its place in tag sets. -/
structure TagDef where
  bit : UInt8
  name : String
  description : String
deriving DecidableEq, Inhabited

/-- A function that is declared to make values harmless. -/
structure SanitizerDef where
  name : String
  function : UInt16
  /-- The tags that it takes off. -/
  strips : TagSet
deriving DecidableEq, Inhabited

/-- A rule of a contract. Only the rules on tags are checked after a run; the compiler turns the
others into code. -/
inductive Rule where
  | forbidField (scope : UInt8) (index : UInt16)
  | forbidTagged (tags : TagSet) (scope : UInt8)
  | require (field message : String)
  | conform (field message : String)
deriving DecidableEq, Inhabited

/-- What a packet declares about itself. -/
structure Contract where
  name : String := ""
  /-- The number of registers. -/
  size : UInt16 := 0
  inputs : List FieldDef := []
  outputs : List FieldDef := []
  tags : List TagDef := []
  sanitizers : List SanitizerDef := []
  rules : List Rule := []
deriving DecidableEq, Inhabited

/-- A constant of a program. -/
inductive Constant where
  | string (s : String)
  | integer (n : Int64)
  | float (x : Binary64)
  | boolean (b : Bool)
  | nothing
deriving DecidableEq, Inhabited

/-- How floats are written in the description of a constant. -/
def Layout.constant : Layout :=
  { plainFrom := -4, plainBelow := 16, mark := "e", plus := false, pointed := false }

namespace Constant

def value : Constant → Value
  | string s => .string s
  | integer n => .integer n
  | float x => .float x
  | boolean b => .boolean b
  | nothing => .nothing

/-- A float in the description of a constant. -/
def floatText (x : Binary64) : String :=
  if x.isNaN then "NaN"
  else if x.isInfinite then if x.isNegative then "-inf" else "inf"
  else Layout.constant.write x.shortest

/-- The description of a constant that is not a string, as messages give it. -/
def description : Constant → String
  | string s => s
  | integer n => "Integer(" ++ integerText n ++ ")"
  | float x => "Float(" ++ floatText x ++ ")"
  | boolean b => "Boolean(" ++ boolText b ++ ")"
  | nothing => "Nothing"

end Constant

/-- What an instruction does to the tags of its destination. -/
inductive TagMode where
  /-- They become those of the operands. -/
  | propagate
  /-- They are taken off. -/
  | clear
  /-- They stay. -/
  | keep
deriving DecidableEq, Inhabited

def TagMode.flags : TagMode → UInt8
  | propagate => 0
  | clear => 8
  | keep => 16

/-- What an iteration makes of the results of its body. -/
inductive IterMode where
  | map
  | filter
  | fold
  | mapFilter
deriving DecidableEq, Inhabited

/-- An instruction. Its operands are registers, constants, fields, functions or distances, as the
operation has it. -/
structure Instruction where
  opcode : UInt8
  flags : UInt8
  dest : UInt16
  op1 : UInt16
  op2 : UInt16
deriving DecidableEq, Inhabited

namespace Instruction

/-- The tag mode, in bits 3 and 4 of the flags. -/
def tagMode (i : Instruction) : TagMode :=
  match i.flags.toNat / 8 % 4 with
  | 0 => .propagate
  | 1 => .clear
  | _ => .keep

/-- The mode of an iteration, in bits 0 and 1 of the flags. -/
def iterMode (i : Instruction) : IterMode :=
  match i.flags.toNat % 4 with
  | 0 => .map
  | 1 => .filter
  | 2 => .fold
  | _ => .mapFilter

end Instruction

/-- A test that a packet carries: an input and the expected output, both as JSON. -/
structure Fixture where
  name : String
  input : String
  output : String
deriving DecidableEq, Inhabited

/-- The header of a packet, which is for information only. -/
structure Header where
  formatVersion : UInt16 := 0
  minSpecVersion : UInt16 := 0
  totalSize : UInt32 := 0
  sectionCount : UInt16 := 0
deriving DecidableEq, Inhabited

/-- A program with its contract. -/
structure Packet where
  header : Header := {}
  contract : Contract := {}
  constants : Array Constant := #[]
  /-- The numbers of the functions that the program calls. -/
  dependencies : List UInt16 := []
  code : Array Instruction := #[]
  fixtures : List Fixture := []
deriving DecidableEq, Inhabited

namespace Packet

/-- The register that holds the finished output, behind those of the fields. -/
def outputRegister (p : Packet) : Nat := p.contract.inputs.length + p.contract.outputs.length

end Packet

namespace Contract

def tagNames (c : Contract) (tags : TagSet) : List String :=
  (c.tags.filter fun t => tags.getLsbD t.bit.toNat).map TagDef.name

/-- The declared sanitizers that take off some tag of a set. -/
def sanitizersFor (c : Contract) (tags : TagSet) : List SanitizerDef :=
  c.sanitizers.filter fun s => s.strips &&& tags != 0

end Contract

end TagMachine
