import TagMachine.Machine.Iteration

set_option autoImplicit false

/-! # Steps

`Machine.step` executes one instruction and gives the place of the next. A step that fails gives
an error and no machine, so it changes nothing.
-/

namespace TagMachine.Machine

/-- The tags of two operands together. -/
def bothTags (m : Machine) (a b : UInt16) : Except Error TagSet := do
  return (← m.tags a) ||| (← m.tags b)

/-- Whether a comparison of two registers holds. -/
def compares (m : Machine) (op : CompareOp) (a b : UInt16) : Except Error Bool := do
  let x ← m.value a
  let y ← m.value b
  match op.holds m.store x y with
  | .ok result => return result
  | .error e => throw (.type e)

/-- A value converted to another kind. -/
def converted (m : Machine) (target : Conversion) (v : Value) : Except Error Value :=
  match target with
  | .text => .ok (.string (m.store.text v))
  | .integer => v.toInteger.map .integer
  | .float => v.toFloat.map .float
  | .boolean => .ok (.boolean v.truthy)

/-- The machine with a new record written to the destination. -/
def writeRecord (m : Machine) (i : Instruction) (r : Record) (tags : TagSet) :
    Except Error Machine :=
  let (ref, store) := m.store.newRecord r
  { m with store }.write i (.record ref) tags

/-- The machine after a field of the record in the destination was set to the value of a
register. -/
def setFieldOf (m : Machine) (i : Instruction) (key : String) : Except Error Machine := do
  let v ← m.value i.op2
  let ref ← m.record i.dest
  { m with store := m.store.setField ref key v }.mergeTags i.dest i.op2

/-- The number of the function that gives back its argument `value`. -/
def identityFunction : UInt16 := 0

/-- The machine after a call with the arguments in a record. -/
def call (s : Setting) (i : Instruction) (m : Machine) (args : RecordRef) (tags : TagSet) :
    Except Error Machine := do
  if i.op1 = identityFunction then m.write i ((m.store.record args).get "value") tags
  else
    let (v, store) ← s.functions.call i.op1 ⟨s.timestamp, m.executed⟩ args m.store
    { m with store }.write i v tags

/-- The machine after a call with a single argument. -/
def callValue (s : Setting) (i : Instruction) (m : Machine) : Except Error Machine := do
  let arg ← m.value i.op2
  let tags ← m.tags i.op2
  if i.op1 = identityFunction then m.write i arg tags
  else
    let (args, store) := m.store.newRecord (Record.empty.set "value" arg)
    let (v, store) ← s.functions.call i.op1 ⟨s.timestamp, m.executed⟩ args store
    { m with store }.write i v tags

/-- The machine after the contents of an input field's register were written to the destination.
A field that does not exist, or whose register is the destination, changes nothing. -/
def loadField (s : Setting) (i : Instruction) (m : Machine) : Except Error Machine :=
  match s.packet.contract.inputs[i.op1.toNat]? with
  | none => .ok m
  | some f =>
    if f.register = i.dest then .ok m
    else do m.setRegister i.dest (← m.register f.register)

/-- The machine after the tags of the destination were set to those of a constant. A constant
that is not an integer changes nothing. -/
def setTags (s : Setting) (i : Instruction) (m : Machine) : Except Error Machine := do
  match ← s.constant i.op1 with
  | .integer n =>
    let slot ← m.slot i.dest
    return m.put slot { m.peek slot with tags := n.toBitVec }
  | _ => return m

/-- The tags that a constant stands for; none unless it is an integer. -/
def constantTags (c : Constant) : TagSet :=
  match c with
  | .integer n => n.toBitVec
  | _ => 0

/-- The machine after an instruction that is neither a jump nor part of an iteration. -/
def apply (s : Setting) (op : Opcode) (i : Instruction) (m : Machine) : Except Error Machine := do
  match op with
  | .loadConstant => m.write i (← s.constant i.op1).value 0
  | .loadField => m.loadField s i
  | .loadNothing => m.write i .nothing 0
  | .copy => m.setRegister i.dest (← m.register i.op1)
  | .arithmetic op =>
    let x ← m.value i.op1
    let y ← m.value i.op2
    let v ← op.apply x y
    m.write i v (← m.bothTags i.op1 i.op2)
  | .negate =>
    let v ← (← m.value i.op1).negate
    m.write i v (← m.tags i.op1)
  | .compare op =>
    let result ← m.compares op i.op1 i.op2
    m.write i (.boolean result) (← m.bothTags i.op1 i.op2)
  | .and =>
    let a ← m.boolean i.op1
    let b ← m.boolean i.op2
    m.write i (.boolean (a && b)) (← m.bothTags i.op1 i.op2)
  | .or =>
    let a ← m.boolean i.op1
    let b ← m.boolean i.op2
    m.write i (.boolean (a || b)) (← m.bothTags i.op1 i.op2)
  | .not =>
    let a ← m.boolean i.op1
    m.write i (.boolean !a) (← m.tags i.op1)
  | .concat =>
    let x ← m.value i.op1
    let y ← m.value i.op2
    m.write i (.string (m.store.text x ++ m.store.text y)) (← m.bothTags i.op1 i.op2)
  | .isKind kind =>
    let v ← m.value i.op1
    m.write i (.boolean (v.kind = kind)) (← m.tags i.op1)
  | .convert target =>
    let v ← m.converted target (← m.value i.op1)
    m.write i v (← m.tags i.op1)
  | .newRecord => m.writeRecord i Record.empty 0
  | .setField => m.setFieldOf i (← m.text i.op1)
  | .getField =>
    let ref ← m.record i.op1
    let key ← m.text i.op2
    m.write i ((m.store.record ref).get key) (← m.tags i.op1)
  | .hasField =>
    let ref ← m.record i.op1
    let key ← m.text i.op2
    m.write i (.boolean ((m.store.record ref).has key)) (← m.tags i.op1)
  | .newList =>
    let (ref, store) := m.store.newList #[]
    { m with store }.write i (.list ref) 0
  | .append =>
    let v ← m.value i.op1
    let ref ← m.list i.dest
    { m with store := m.store.push ref v }.mergeTags i.dest i.op1
  | .getItem =>
    let ref ← m.list i.op1
    match ← m.value i.op2 with
    | .integer n => m.write i (m.store.itemAt ref n) (← m.tags i.op1)
    | v => throw (.type (.listIndex v.kind))
  | .listLength =>
    let ref ← m.list i.op1
    m.write i (.integer (Int64.ofNat (m.store.items ref).size)) (← m.tags i.op1)
  | .coalesce =>
    let chosen := if (← m.value i.op1).isNothing then i.op2 else i.op1
    let contents ← m.register chosen
    m.write i contents.value contents.tags
  | .call => m.call s i (← m.record i.op2) (← m.tags i.op2)
  | .callValue => m.callValue s i
  | .setTags => m.setTags s i
  | .checkTags =>
    let mask := constantTags (← s.constant i.op2)
    let tags ← m.tags i.op1
    m.write i (.boolean (tags &&& mask == mask)) 0
  | .getNamed =>
    let ref ← m.record i.op1
    let key ← s.constantKey i.op2
    m.write i ((m.store.record ref).get key) (← m.tags i.op1)
  | .setNamed => m.setFieldOf i (← s.constantKey i.op1)
  | .newNamed =>
    let key ← s.constantKey i.op1
    let v ← m.value i.op2
    m.writeRecord i (Record.empty.set key v) (← m.tags i.op2)
  | .jump | .jumpIf | .jumpIfNot | .jumpUnless _ | .jumpIfNothing | .iterate | .collect => return m

/-- Whether a jump is taken; `none` for operations that are no jumps. -/
def jumps? (m : Machine) (op : Opcode) (i : Instruction) : Option (Except Error Bool) :=
  match op with
  | .jump => some (.ok true)
  | .jumpIf => some (m.boolean i.op1)
  | .jumpIfNot => some ((m.boolean i.op1).map not)
  | .jumpUnless op => some ((m.compares op i.op1 i.op2).map not)
  | .jumpIfNothing => some ((m.value i.op1).map Value.isNothing)
  | _ => none

/-- Executes an operation at a place, and gives the next place. -/
def execute (s : Setting) (pc : Nat) (op : Opcode) (i : Instruction) (m : Machine) :
    Except Error (Nat × Machine) := do
  match op, m.jumps? op i with
  | _, some taken => return (if ← taken then i.dest.toNat else pc + 1, m)
  | .iterate, none => m.iterate s pc i
  | .collect, none => m.collect pc
  | op, none => return (pc + 1, ← m.apply s op i)

/-- Executes the instruction at a place, and gives the next place. -/
def step (s : Setting) (pc : Nat) (i : Instruction) (m : Machine) :
    Except Error (Nat × Machine) :=
  match Opcode.ofByte? i.opcode with
  | some op => execute s pc op i m
  | none => .error (.program (.unknownOpcode i.opcode pc))

end TagMachine.Machine
