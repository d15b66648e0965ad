import TagMachine.Builtin.Table
import TagMachine.Packet.Basic

set_option autoImplicit false

/-! # The machine

A machine has registers, each of which holds a value and a set of tags, a store for lists and
records, and a stack of open iterations. Everything that a run reads and does not change is its
`Setting`.
-/

namespace TagMachine

/-- Bounds on a run; an absent bound does not bind. -/
structure Limits where
  /-- The most instructions that may be executed. -/
  instructions : Option UInt64 := none
  /-- The most iterations that may be open at a time. -/
  depth : Option UInt64 := none
deriving DecidableEq, Inhabited

/-- What a run reads. -/
structure Setting where
  packet : Packet
  functions : FunctionTable
  timestamp : String
  limits : Limits := {}

/-- The contents of a register. -/
structure Register where
  value : Value := .nothing
  tags : TagSet := 0
deriving DecidableEq, Inhabited

/-- How far an iteration is. Its numbers of registers are inside the scratchpad. -/
structure Loop where
  mode : IterMode
  /-- The register that gets the elements. -/
  element : Nat
  /-- Where the body starts. -/
  bodyStart : Nat
  /-- Where the instruction stands that ends the body. -/
  collectAt : Nat
  /-- The register that gets the result. -/
  result : Nat
  /-- The register of the mapped value, of the condition or of the accumulator. -/
  first : Nat
  /-- The register of the value that is kept where the condition holds. -/
  second : Nat
  /-- The tags of the list that is iterated. -/
  sourceTags : TagSet
  /-- The elements of the list when the iteration was opened. -/
  items : Array Value
  /-- The number of the current element. -/
  cursor : Nat
deriving DecidableEq

/-- An open iteration, with what was collected so far. -/
structure Frame extends Loop where
  results : Array Value
deriving DecidableEq

/-- The state of a machine. -/
structure Machine where
  store : Store := {}
  registers : Array Register := #[]
  /-- The open iterations, innermost first. -/
  frames : List Frame := []
  /-- The number of instructions executed so far. -/
  executed : Nat := 0

/-- The tags of a destination after a result with the given tags was written to it. -/
def TagMode.apply (mode : TagMode) (old new : TagSet) : TagSet :=
  match mode with
  | .propagate => new
  | .clear => 0
  | .keep => old

namespace Machine

/-- A machine with empty registers for a packet. -/
def start (p : Packet) (store : Store) : Machine :=
  { store, registers := Array.replicate p.contract.size.toNat {} }

/-! ## Registers -/

/-- The place of a register, which must be inside the scratchpad. -/
def slot (m : Machine) (r : UInt16) : Except Error Nat :=
  if r.toNat < m.registers.size then .ok r.toNat
  else .error (.program (.registerOutside r m.registers.size))

/-- The contents of the register in a place. -/
def peek (m : Machine) (slot : Nat) : Register := m.registers.getD slot {}

/-- The machine after the register in a place was written. -/
def put (m : Machine) (slot : Nat) (r : Register) : Machine :=
  { m with registers := m.registers.setIfInBounds slot r }

/-- The contents of a register. -/
def register (m : Machine) (r : UInt16) : Except Error Register := do return m.peek (← m.slot r)

def value (m : Machine) (r : UInt16) : Except Error Value := do return (← m.register r).value

def tags (m : Machine) (r : UInt16) : Except Error TagSet := do return (← m.register r).tags

/-- The machine after a register was written. -/
def setRegister (m : Machine) (r : UInt16) (contents : Register) : Except Error Machine := do
  return m.put (← m.slot r) contents

/-- Writes fields of a record to their registers with their tags, one after another up to the
first whose register is outside the scratchpad. A field that the record lacks is nothing. -/
def loadFields (m : Machine) (input : Record) : List FieldDef → Except Error Unit × Machine
  | [] => (.ok (), m)
  | f :: rest =>
    match m.setRegister f.register ⟨input.get f.name, f.tags⟩ with
    | .ok m => m.loadFields input rest
    | .error e => (.error e, m)

/-- Writes the input fields of a packet to their registers. -/
def loadInputs (m : Machine) (p : Packet) (input : Record) : Except Error Unit × Machine :=
  m.loadFields input p.contract.inputs

/-! ## Operands -/

/-- The error for a register that holds a value of the wrong kind. -/
def wrongKind {α : Type} (expected : Kind) (r : UInt16) (v : Value) : Except Error α :=
  .error (.type (.operand expected r v.kind))

def boolean (m : Machine) (r : UInt16) : Except Error Bool := do
  match ← m.value r with
  | .boolean b => return b
  | v => wrongKind .boolean r v

def text (m : Machine) (r : UInt16) : Except Error String := do
  match ← m.value r with
  | .string s => return s
  | v => wrongKind .string r v

def list (m : Machine) (r : UInt16) : Except Error ListRef := do
  match ← m.value r with
  | .list ref => return ref
  | v => wrongKind .list r v

def record (m : Machine) (r : UInt16) : Except Error RecordRef := do
  match ← m.value r with
  | .record ref => return ref
  | v => wrongKind .record r v

/-! ## Results -/

/-- The machine after the result of an instruction was written to its destination. -/
def write (m : Machine) (i : Instruction) (v : Value) (tags : TagSet) : Except Error Machine := do
  let slot ← m.slot i.dest
  return m.put slot ⟨v, i.tagMode.apply (m.peek slot).tags tags⟩

/-- The machine after the tags of one register were added to those of another. -/
def mergeTags (m : Machine) (dest source : UInt16) : Except Error Machine := do
  let added ← m.tags source
  let slot ← m.slot dest
  let old := m.peek slot
  return m.put slot { old with tags := old.tags ||| added }

end Machine

/-- A constant of the program. -/
def Setting.constant (s : Setting) (index : UInt16) : Except Error Constant :=
  match s.packet.constants[index.toNat]? with
  | some c => .ok c
  | none => .error (.program (.constantOutside index))

/-- A constant of the program that names a field. -/
def Setting.constantKey (s : Setting) (index : UInt16) : Except Error String := do
  match ← s.constant index with
  | .string key => return key
  | c => throw (.type (.constantKey index c.description))

end TagMachine
