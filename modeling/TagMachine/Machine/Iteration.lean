import TagMachine.Machine.Basic

set_option autoImplicit false

/-! # Iteration

An iteration runs the instructions between an `iterate` and its `collect` once for each element
that the list had when the iteration was opened. `map` collects the value of a register after
each run of the body, `filter` and `mapFilter` collect it where another register holds true, and
`fold` leaves its result in a register that the body updates.
-/

namespace TagMachine.Machine

/-- The contents of the result register of an iteration that collected a list. -/
def collected (m : Machine) (items : Array Value) (tags : TagSet) : Register × Store :=
  let (ref, store) := m.store.newList items
  (⟨.list ref, tags⟩, store)

/-- The machine after an iteration ended: its result is the accumulator, or the list of what was
collected with the tags of the source. -/
def finish (m : Machine) (mode : IterMode) (result first : Nat) (items : Array Value)
    (tags : TagSet) : Machine :=
  match mode with
  | .fold => m.put result (m.peek first)
  | _ =>
    let (contents, store) := m.collected items tags
    { m with store }.put result contents

/-- The frame of an iteration with its registers checked, for the instruction that opens it and
the one that closes it. -/
def frame (m : Machine) (pc : Nat) (opening close : Instruction) (tags : TagSet)
    (items : Array Value) : Except Error Frame := do
  let element ← m.slot opening.dest
  let result ← m.slot close.dest
  let first ← m.slot close.op1
  let second ← m.slot close.op2
  return { mode := opening.iterMode, element, bodyStart := pc + 1,
           collectAt := pc + 1 + opening.op2.toNat, result, first, second, sourceTags := tags,
           items, cursor := 0, results := #[] }

/-- The instruction at a place, if it closes an iteration. -/
def closing? (code : Array Instruction) (pc : Nat) : Option Instruction :=
  code[pc]?.filter fun i => i.opcode == Opcode.collect.byte

/-- The machine with an iteration opened, if no bound on open iterations is reached. -/
def openFrame (m : Machine) (limits : Limits) (f : Frame) (item : Value) :
    Except Error Machine := do
  match limits.depth with
  | some limit =>
    if limit.toNat ≤ m.frames.length then throw (.program (.iterationTooDeep limit.toNat))
  | none => pure ()
  return { m.put f.element ⟨item, f.sourceTags⟩ with frames := f :: m.frames }

/-- Opens an iteration. An empty list ends it at once. -/
def iterate (s : Setting) (pc : Nat) (i : Instruction) (m : Machine) :
    Except Error (Nat × Machine) := do
  let source ← m.register i.op1
  match source.value with
  | .list ref =>
    let items := m.store.items ref
    let collectAt := pc + 1 + i.op2.toNat
    match closing? s.packet.code collectAt with
    | none => throw (.program (.iterationUnclosed pc collectAt))
    | some close =>
      let f ← m.frame pc i close source.tags items
      match items[0]? with
      | none => return (collectAt + 1, m.finish f.mode f.result f.first #[] f.sourceTags)
      | some item => return (f.bodyStart, ← m.openFrame s.limits f item)
  | v => throw (.program (.iterationSource v.kind))

/-- The results of a frame after a run of its body. -/
def gather (m : Machine) (f : Frame) : Array Value :=
  match f.mode with
  | .map => f.results.push (m.peek f.first).value
  | .fold => f.results
  | _ =>
    if (m.peek f.first).value = .boolean true then f.results.push (m.peek f.second).value
    else f.results

/-- Ends a run of the body of the innermost iteration: goes on with the next element or closes
the iteration. -/
def collect (pc : Nat) (m : Machine) : Except Error (Nat × Machine) :=
  match m.frames with
  | [] => .error (.program (.collectWithoutIteration pc))
  | f :: frames =>
    if f.collectAt ≠ pc then .error (.program (.collectMismatch pc f.collectAt))
    else
      let results := m.gather f
      match f.items[f.cursor + 1]? with
      | some item =>
        let m := m.put f.element ⟨item, f.sourceTags⟩
        .ok (f.bodyStart, { m with frames := { f with cursor := f.cursor + 1, results } :: frames })
      | none =>
        .ok (pc + 1, { m with frames }.finish f.mode f.result f.first results f.sourceTags)

end TagMachine.Machine
