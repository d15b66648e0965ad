import TagMachine.Proofs.Machine.Step

set_option autoImplicit false

/-! # Runs without fuel

`Machine.runFrom` is cut off after a number of rounds. `Machine.Ends` says that a run ends by itself
and how, whatever the number of rounds it takes; more rounds than enough change nothing
(`runFrom_of_le`). `Machine.Steps` links the states that a run goes through, and `Machine.visited`
lists them.
-/

namespace TagMachine.Machine

/-- The machine that has counted one more instruction. -/
def tick (m : Machine) : Machine := { m with executed := m.executed + 1 }

/-- A round of a run that goes on: an instruction is counted, is within the budget and
succeeds. -/
structure Dispatch (s : Setting) (pc : Nat) (i : Instruction) (m : Machine) (next : Nat)
    (m' : Machine) : Prop where
  fetch : s.packet.code[pc]? = some i
  budget : m.tick.overBudget s.limits = false
  step : m.tick.step s pc i = .ok (next, m')

/-- What a round of a run can come to. -/
inductive Round (s : Setting) (pc : Nat) (m : Machine) : Prop
  /-- The place is outside the code. -/
  | out (fetch : s.packet.code[pc]? = none)
  /-- The budget is exhausted. -/
  | spent {i : Instruction} (fetch : s.packet.code[pc]? = some i)
      (budget : m.tick.overBudget s.limits = true)
  | fail {i : Instruction} {e : Error} (fetch : s.packet.code[pc]? = some i)
      (budget : m.tick.overBudget s.limits = false) (step : m.tick.step s pc i = .error e)
  /-- The run goes on. -/
  | go {i : Instruction} {next : Nat} {m' : Machine} (h : Dispatch s pc i m next m')

theorem round (s : Setting) (pc : Nat) (m : Machine) : Round s pc m := by
  cases fetch : s.packet.code[pc]? with
  | none => exact .out fetch
  | some i =>
    cases budget : m.tick.overBudget s.limits with
    | true => exact .spent fetch budget
    | false =>
      cases step : m.tick.step s pc i with
      | error e => exact .fail fetch budget step
      | ok r => exact .go ⟨fetch, budget, step⟩

/-! ## Rounds of `runFrom` -/

section Rounds

variable {s : Setting} {pc next n k : Nat} {m m' : Machine} {i : Instruction} {e : Error}

theorem runFrom_out (fetch : s.packet.code[pc]? = none) :
    runFrom s (n + 1) pc m = (m.ending, m) := by
  simp [runFrom, fetch]

theorem runFrom_spent (fetch : s.packet.code[pc]? = some i)
    (budget : m.tick.overBudget s.limits = true) :
    runFrom s (n + 1) pc m = (.failed (.program .budgetExhausted), m.tick) := by
  unfold tick at *
  simp [runFrom, fetch, budget]

theorem runFrom_fail (fetch : s.packet.code[pc]? = some i)
    (budget : m.tick.overBudget s.limits = false) (step : m.tick.step s pc i = .error e) :
    runFrom s (n + 1) pc m = (.failed e, m.tick) := by
  unfold tick at *
  simp [runFrom, fetch, budget, step]

theorem runFrom_go (h : Dispatch s pc i m next m') :
    runFrom s (n + 1) pc m = runFrom s n next m' := by
  obtain ⟨fetch, budget, step⟩ := h
  unfold tick at *
  simp [runFrom, fetch, budget, step]

/-- A run that finishes is at the end of the code, or goes on and finishes from there. -/
theorem finished_cases {s : Setting} {n pc : Nat} {m m' : Machine}
    (h : runFrom s (n + 1) pc m = (.finished, m')) :
    s.packet.code[pc]? = none ∧ m' = m ∨
      ∃ i next m₁, Dispatch s pc i m next m₁ ∧ runFrom s n next m₁ = (.finished, m') := by
  cases round s pc m with
  | out fetch =>
    rw [runFrom_out fetch] at h
    exact .inl ⟨fetch, (Prod.mk.inj h).2.symm⟩
  | spent fetch budget =>
    rw [runFrom_spent fetch budget] at h
    cases h
  | fail fetch budget step =>
    rw [runFrom_fail fetch budget step] at h
    cases h
  | go hgo =>
    rw [runFrom_go hgo] at h
    exact .inr ⟨_, _, _, hgo, h⟩

theorem ending_ne_unfinished (m : Machine) : m.ending ≠ .unfinished := by
  unfold ending
  split <;> simp

/-- More rounds than a run takes change nothing. -/
theorem runFrom_of_le (h : (runFrom s n pc m).1 ≠ .unfinished) (hk : n ≤ k) :
    runFrom s k pc m = runFrom s n pc m := by
  induction n generalizing pc m k with
  | zero => exact absurd rfl h
  | succ n ih =>
    obtain ⟨k, rfl⟩ := Nat.exists_eq_add_of_le hk
    rw [Nat.add_right_comm]
    cases round s pc m with
    | out fetch => rw [runFrom_out fetch, runFrom_out fetch]
    | spent fetch budget => rw [runFrom_spent fetch budget, runFrom_spent fetch budget]
    | fail fetch budget step =>
      rw [runFrom_fail fetch budget step, runFrom_fail fetch budget step]
    | go hgo =>
      rw [runFrom_go hgo] at h ⊢
      rw [runFrom_go hgo]
      exact ih h (Nat.le_add_right n k)

end Rounds

/-- What every step keeps, a run keeps. -/
theorem runFrom_keeps {s : Setting} {P : Machine → Prop} (htick : ∀ m, P m → P m.tick)
    (hstep : ∀ {pc i m next n}, s.packet.code[pc]? = some i → P m → Advance s pc i m next n → P n)
    (k pc : Nat) {m : Machine} (h : P m) : P (runFrom s k pc m).2 := by
  induction k generalizing pc m with
  | zero => exact h
  | succ k ih =>
    cases round s pc m with
    | out fetch =>
      rw [runFrom_out fetch]
      exact h
    | spent fetch budget =>
      rw [runFrom_spent fetch budget]
      exact htick m h
    | fail fetch budget step =>
      rw [runFrom_fail fetch budget step]
      exact htick m h
    | go hgo =>
      rw [runFrom_go hgo]
      exact ih _ (hstep hgo.fetch (htick m h) (advance_of_step hgo.step))

/-! ## Runs that end -/

/-- The run from a place ends by itself, with the given outcome and machine. -/
def Ends (s : Setting) (pc : Nat) (m : Machine) (o : Outcome) (m' : Machine) : Prop :=
  o ≠ .unfinished ∧ ∃ n, runFrom s n pc m = (o, m')

namespace Ends

variable {s : Setting} {pc next : Nat} {m m' m₁ m₂ : Machine} {i : Instruction} {e : Error}
  {o o₁ o₂ : Outcome}

theorem out (fetch : s.packet.code[pc]? = none) : Ends s pc m m.ending m :=
  ⟨ending_ne_unfinished m, 1, runFrom_out fetch⟩

theorem spent (fetch : s.packet.code[pc]? = some i) (budget : m.tick.overBudget s.limits = true) :
    Ends s pc m (.failed (.program .budgetExhausted)) m.tick :=
  ⟨nofun, 1, runFrom_spent fetch budget⟩

theorem fail (fetch : s.packet.code[pc]? = some i)
    (budget : m.tick.overBudget s.limits = false) (step : m.tick.step s pc i = .error e) :
    Ends s pc m (.failed e) m.tick :=
  ⟨nofun, 1, runFrom_fail fetch budget step⟩

theorem go (h : Dispatch s pc i m next m₁) (hend : Ends s next m₁ o m') : Ends s pc m o m' := by
  obtain ⟨ho, n, hn⟩ := hend
  exact ⟨ho, n + 1, (runFrom_go h).trans hn⟩

/-- A run ends in one way only. -/
theorem unique (h₁ : Ends s pc m o₁ m₁) (h₂ : Ends s pc m o₂ m₂) : o₁ = o₂ ∧ m₁ = m₂ := by
  obtain ⟨ho₁, n₁, hn₁⟩ := h₁
  obtain ⟨ho₂, n₂, hn₂⟩ := h₂
  have h₁ := runFrom_of_le (by rw [hn₁]; exact ho₁) (Nat.le_max_left n₁ n₂)
  have h₂ := runFrom_of_le (by rw [hn₂]; exact ho₂) (Nat.le_max_right n₁ n₂)
  rw [h₁, hn₁, hn₂] at h₂
  exact Prod.mk.inj h₂

end Ends

/-! ## States of a run -/

/-- A run goes from one place and machine to another in some number of rounds. -/
inductive Steps (s : Setting) : Nat → Machine → Nat → Machine → Prop
  | refl (pc : Nat) (m : Machine) : Steps s pc m pc m
  | head {pc next last : Nat} {i : Instruction} {m m₁ m' : Machine}
      (h : Dispatch s pc i m next m₁) (rest : Steps s next m₁ last m') : Steps s pc m last m'

namespace Steps

variable {s : Setting} {a b c : Nat} {m m₁ m' : Machine} {i : Instruction} {o : Outcome}

theorem single (h : Dispatch s a i m b m') : Steps s a m b m' := .head h (.refl b m')

theorem trans (h₁ : Steps s a m b m₁) (h₂ : Steps s b m₁ c m') : Steps s a m c m' := by
  induction h₁ with
  | refl => exact h₂
  | head h _ ih => exact .head h (ih h₂)

/-- A run ends as it does from any state that it goes through. -/
theorem ends (h : Steps s a m b m₁) (hend : Ends s b m₁ o m') : Ends s a m o m' := by
  induction h with
  | refl => exact hend
  | head h _ ih => exact .go h (ih hend)

/-- The rounds that a run takes suffice from any state that it goes through. -/
theorem remaining_rounds {n : Nat} (h : Steps s a m b m₁) (hn : (runFrom s n a m).1 ≠ .unfinished) :
    ∃ k ≤ n, (runFrom s k b m₁).1 ≠ .unfinished := by
  induction h generalizing n with
  | refl => exact ⟨n, le_rfl, hn⟩
  | head h _ ih =>
    cases n with
    | zero => exact absurd rfl hn
    | succ n =>
      rw [runFrom_go h] at hn
      obtain ⟨k, hk, hkn⟩ := ih hn
      exact ⟨k, by omega, hkn⟩

end Steps

/-- The places and machines that a run of at most `fuel` rounds goes through, the first and the last
included. -/
def visited (s : Setting) : Nat → Nat → Machine → List (Nat × Machine)
  | 0, _, _ => []
  | fuel + 1, pc, m =>
    (pc, m) ::
      match s.packet.code[pc]? with
      | none => []
      | some i =>
        if m.tick.overBudget s.limits then []
        else
          match m.tick.step s pc i with
          | .ok (next, m') => visited s fuel next m'
          | .error _ => []

theorem visited_go {s : Setting} {pc next n : Nat} {i : Instruction} {m m' : Machine}
    (h : Dispatch s pc i m next m') : visited s (n + 1) pc m = (pc, m) :: visited s n next m' := by
  simp [visited, h.fetch, h.budget, h.step]

end TagMachine.Machine
