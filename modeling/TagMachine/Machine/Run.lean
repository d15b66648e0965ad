import TagMachine.Machine.Step

set_option autoImplicit false

/-! # Runs

A run executes instructions from the first one on until the place of the next is outside the
code. The registers, the open iterations and the count of instructions stay from one run of a
machine to the next.
-/

namespace TagMachine.Machine

/-- How a run ends. -/
inductive Outcome where
  | finished
  | failed (e : Error)
  /-- The run was cut off from outside. -/
  | unfinished
deriving DecidableEq

/-- How a run ends whose next place is outside the code. -/
def ending (m : Machine) : Outcome :=
  if m.frames.isEmpty then .finished
  else .failed (.program (.openIterations m.frames.length))

/-- Whether the bound on instructions is passed. -/
def overBudget (limits : Limits) (m : Machine) : Bool :=
  match limits.instructions with
  | some limit => limit.toNat < m.executed
  | none => false

/-- Runs from a place for at most `fuel` instructions. -/
def runFrom (s : Setting) : Nat → Nat → Machine → Outcome × Machine
  | 0, _, m => (.unfinished, m)
  | fuel + 1, pc, m =>
    match s.packet.code[pc]? with
    | none => (m.ending, m)
    | some i =>
      let m := { m with executed := m.executed + 1 }
      if m.overBudget s.limits then (.failed (.program .budgetExhausted), m)
      else
        match m.step s pc i with
        | .ok (next, m) => runFrom s fuel next m
        | .error e => (.failed e, m)

/-- A number of rounds that suffices for a run within the bound on instructions, and for the round
that finds the bound passed. Without a bound it is that of the largest one. -/
def fuel (limits : Limits) : Nat :=
  match limits.instructions with
  | some limit => limit.toNat + 2
  | none => UInt64.size + 2

/-- Runs from the first instruction. -/
def run (s : Setting) (m : Machine) : Outcome × Machine := runFrom s (fuel s.limits) 0 m

/-- The error that a run ends in, if any. A run without end has exhausted every budget. -/
def Outcome.toExcept : Outcome → Except Error Unit
  | finished => .ok ()
  | failed e => .error e
  | unfinished => .error (.program .budgetExhausted)

end TagMachine.Machine
