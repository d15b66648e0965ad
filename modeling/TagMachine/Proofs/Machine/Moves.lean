import TagMachine.Proofs.Machine.Run

set_option autoImplicit false

/-! # The instructions of a run

`Machine.moves` lists the instructions that a run executes, each with the machine that it is
executed on and the machine that it leaves. An instruction that fails, or that the budget does not
allow, is not on the list: it changes nothing. What is said of a whole run, how often something is
executed or who changed a container, is said of this list.
-/

namespace TagMachine

/-- An instruction that a run executed. -/
structure Move where
  /-- The place of the instruction. -/
  place : Nat
  instruction : Instruction
  /-- The machine that the instruction was executed on, which has counted it. -/
  before : Machine
  /-- The machine that the instruction left. -/
  after : Machine

def Move.executes (e : Move) (op : Opcode) : Bool := Opcode.ofByte? e.instruction.opcode = some op

@[simp] theorem Move.executes_iff (e : Move) (op : Opcode) :
    e.executes op = true ↔ Opcode.ofByte? e.instruction.opcode = some op :=
  decide_eq_true_iff

namespace Machine

/-- The instructions that a run of at most `fuel` rounds executes. -/
def moves (s : Setting) : Nat → Nat → Machine → List Move
  | 0, _, _ => []
  | fuel + 1, pc, m =>
    match s.packet.code[pc]? with
    | none => []
    | some i =>
      if m.tick.overBudget s.limits then []
      else
        match m.tick.step s pc i with
        | .ok (next, m') => ⟨pc, i, m.tick, m'⟩ :: moves s fuel next m'
        | .error _ => []

section Moves

variable {s : Setting} {pc next n : Nat} {m m' : Machine} {i : Instruction} {e : Error}

theorem moves_out (fetch : s.packet.code[pc]? = none) : moves s (n + 1) pc m = [] := by
  simp [moves, fetch]

theorem moves_spent (fetch : s.packet.code[pc]? = some i)
    (budget : m.tick.overBudget s.limits = true) : moves s (n + 1) pc m = [] := by
  simp [moves, fetch, budget]

theorem moves_fail (fetch : s.packet.code[pc]? = some i)
    (budget : m.tick.overBudget s.limits = false) (step : m.tick.step s pc i = .error e) :
    moves s (n + 1) pc m = [] := by
  simp [moves, fetch, budget, step]

theorem moves_go (h : Dispatch s pc i m next m') :
    moves s (n + 1) pc m = ⟨pc, i, m.tick, m'⟩ :: moves s n next m' := by
  simp [moves, h.fetch, h.budget, h.step]

/-- The rounds of a run one after another: it stops without a move, before or after the instruction
was counted, or makes a move and goes on. -/
theorem moves_induction {C : Machine → List Move → Machine → Prop} (hout : ∀ m, C m [] m)
    (hstop : ∀ m, C m [] m.tick)
    (hgo : ∀ {pc i m next m' trace n}, s.packet.code[pc]? = some i →
      Advance s pc i m.tick next m' → C m' trace n → C m (⟨pc, i, m.tick, m'⟩ :: trace) n)
    (k pc : Nat) (m : Machine) : C m (moves s k pc m) (runFrom s k pc m).2 := by
  induction k generalizing pc m with
  | zero => exact hout m
  | succ k ih =>
    cases round s pc m with
    | out fetch =>
      rw [moves_out fetch, runFrom_out fetch]
      exact hout m
    | spent fetch budget =>
      rw [moves_spent fetch budget, runFrom_spent fetch budget]
      exact hstop m
    | fail fetch budget step =>
      rw [moves_fail fetch budget step, runFrom_fail fetch budget step]
      exact hstop m
    | go dispatch =>
      rw [moves_go dispatch, runFrom_go dispatch]
      exact hgo dispatch.fetch (advance_of_step dispatch.step) (ih _ _)

/-- Every move is a step that succeeds, and what holds at the start and is kept by every step holds
before and after it. -/
theorem forall_mem_moves {P : Machine → Prop} (htick : ∀ m, P m → P m.tick)
    (hstep : ∀ {pc i m next n}, s.packet.code[pc]? = some i → P m → Advance s pc i m next n → P n)
    (k pc : Nat) {m : Machine} (h : P m) : ∀ e ∈ moves s k pc m, P e.before ∧ P e.after ∧
      ∃ next, Advance s e.place e.instruction e.before next e.after := by
  refine moves_induction (C := fun m trace _ => P m → ∀ e ∈ trace, P e.before ∧ P e.after ∧
    ∃ next, Advance s e.place e.instruction e.before next e.after) (fun _ _ => nofun)
    (fun _ _ => nofun) ?_ k pc m h
  intro pc i m next m' trace n hfetch hadvance hrest h
  have hafter := hstep hfetch (htick m h) hadvance
  exact List.forall_mem_cons.2 ⟨⟨htick m h, hafter, next, hadvance⟩, hrest hafter⟩

/-- From each of its moves a run goes on by itself. -/
theorem moves_split {k : Nat} {e : Move} {earlier later : List Move}
    (h : moves s k pc m = earlier ++ e :: later) :
    ∃ j next, Advance s e.place e.instruction e.before next e.after ∧
      later = moves s j next e.after ∧ runFrom s k pc m = runFrom s j next e.after := by
  induction k generalizing pc m earlier with
  | zero =>
    have hempty : [] = earlier ++ e :: later := h
    simp at hempty
  | succ k ih =>
    cases round s pc m with
    | out fetch =>
      rw [moves_out fetch] at h
      simp at h
    | spent fetch budget =>
      rw [moves_spent fetch budget] at h
      simp at h
    | fail fetch budget step =>
      rw [moves_fail fetch budget step] at h
      simp at h
    | @go i next m₁ hgo =>
      rw [moves_go hgo] at h
      cases earlier with
      | nil =>
        obtain ⟨rfl, rfl⟩ := List.cons.inj h
        exact ⟨k, next, advance_of_step hgo.step, rfl, runFrom_go hgo⟩
      | cons x earlier =>
        obtain ⟨j, next, hadvance, hlater, hrun⟩ := ih (List.cons.inj h).2
        exact ⟨j, next, hadvance, hlater, (runFrom_go hgo).trans hrun⟩

end Moves

end Machine

end TagMachine
