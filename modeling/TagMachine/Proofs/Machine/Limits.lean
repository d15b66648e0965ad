import TagMachine.Proofs.Machine.Effects
import TagMachine.Proofs.Machine.Run

set_option autoImplicit false

/-! # Limits

The limits of a setting are guards: they can stop a run, and change nothing else. A run under limits
is the run without limits, or that run cut off at a state that it goes through (`runFrom_cases`),
and the error says which bound was met. A run within a bound on instructions ends, and what succeeds
under some limits succeeds in the same way under looser ones (`runFrom_withLimits`).
-/

namespace TagMachine

def Setting.withLimits (s : Setting) (l : Limits) : Setting := { s with limits := l }

def Setting.unlimited (s : Setting) : Setting := s.withLimits {}

/-- The second limits are at least as loose: where they set a bound, the first set one that is no
greater. -/
structure Limits.Within (l l' : Limits) : Prop where
  instructions : ∀ b ∈ l'.instructions, ∃ a ∈ l.instructions, a ≤ b
  depth : ∀ b ∈ l'.depth, ∃ a ∈ l.depth, a ≤ b

namespace Machine

variable {s : Setting} {pc next n : Nat} {i : Instruction} {m m' : Machine} {l : Limits}

/-! ## Single steps -/

/-- A step can meet the bound on open iterations; in every other respect limits do not matter. -/
theorem step_cases (s : Setting) (pc : Nat) (i : Instruction) (m : Machine) :
    m.step s pc i = m.step s.unlimited pc i ∨
      Opcode.ofByte? i.opcode = some .iterate ∧ ∃ limit ∈ s.limits.depth,
        limit.toNat ≤ m.frames.length ∧
          m.step s pc i = .error (.program (.iterationTooDeep limit.toNat)) := by
  unfold step
  cases hop : Opcode.ofByte? i.opcode with
  | none => exact .inl rfl
  | some op =>
    dsimp only
    by_cases hiterate : op = .iterate
    · subst hiterate
      have hplan : m.plan s.unlimited pc i = m.plan s pc i := rfl
      rw [execute_iterate, execute_iterate, iterate_eq, iterate_eq, hplan]
      cases m.plan s pc i with
      | error e => exact .inl rfl
      | ok f =>
        simp only [bind, Except.bind]
        cases f.items[0]? with
        | none => exact .inl rfl
        | some item =>
          dsimp only
          unfold depthAllowed
          cases hlimit : s.limits.depth with
          | none => exact .inl rfl
          | some limit =>
            by_cases hdepth : limit.toNat ≤ m.frames.length
            · refine .inr ⟨trivial, limit, rfl, hdepth, ?_⟩
              simp only [if_pos hdepth]
              rfl
            · simp only [if_neg hdepth]
              exact .inl rfl
    · left
      cases op with
      | iterate => exact absurd rfl hiterate
      | _ => rfl

theorem overBudget_eq_true_iff (l : Limits) (m : Machine) :
    m.overBudget l = true ↔ ∃ limit ∈ l.instructions, limit.toNat < m.executed := by
  unfold overBudget
  cases l.instructions <;> simp

theorem depthAllowed_eq_ok_iff (l : Limits) (depth : Nat) :
    depthAllowed l depth = .ok () ↔ ∀ limit ∈ l.depth, depth < limit.toNat := by
  unfold depthAllowed
  cases l.depth with
  | none => simp [pure, Except.pure]
  | some limit =>
    by_cases h : limit.toNat ≤ depth
    · simp [h, throw, throwThe, MonadExceptOf.throw]
    · simp [h, pure, Except.pure, Nat.not_le.1 h]

/-- A round that goes on does so under looser limits. -/
theorem Dispatch.withLimits (h : Dispatch s pc i m next m') (hl : s.limits.Within l) :
    Dispatch (s.withLimits l) pc i m next m' := by
  refine ⟨h.fetch, ?_, step_of_advance ?_⟩
  · rw [← Bool.not_eq_true, overBudget_eq_true_iff]
    rintro ⟨b, hb, hlt⟩
    obtain ⟨a, ha, hab⟩ := hl.instructions b hb
    have hover : m.tick.overBudget s.limits = true :=
      (overBudget_eq_true_iff _ _).2 ⟨a, ha, by have := UInt64.le_iff_toNat_le.1 hab; omega⟩
    rw [h.budget] at hover
    cases hover
  · cases advance_of_step h.step with
    | plain hop hplain happly => exact .plain hop hplain happly
    | jump hop hjump => exact .jump hop hjump
    | skip hop hplan hitem => exact .skip hop hplan hitem
    | enter hop hplan hitem hdepth =>
      refine .enter hop hplan hitem ((depthAllowed_eq_ok_iff _ _).2 fun b hb => ?_)
      obtain ⟨a, ha, hab⟩ := hl.depth b hb
      have hlt := (depthAllowed_eq_ok_iff _ _).1 hdepth a ha
      have := UInt64.le_iff_toNat_le.1 hab
      omega
    | again hop hframes hpc hitem => exact .again hop hframes hpc hitem
    | leave hop hframes hpc hitem => exact .leave hop hframes hpc hitem

theorem Dispatch.executed (h : Dispatch s pc i m next m') : m'.executed = m.executed + 1 :=
  (advance_of_step h.step).executed

/-! ## States of a run by number -/

/-- The place and the machine after `n` instructions of a run, if it comes so far. -/
def after (s : Setting) : Nat → Nat → Machine → Option (Nat × Machine)
  | 0, pc, m => some (pc, m)
  | n + 1, pc, m =>
    match s.packet.code[pc]? with
    | none => none
    | some i =>
      if m.tick.overBudget s.limits then none
      else
        match m.tick.step s pc i with
        | .ok (next, m') => after s n next m'
        | .error _ => none

theorem after_go (h : Dispatch s pc i m next m') : after s (n + 1) pc m = after s n next m' := by
  simp [after, h.fetch, h.budget, h.step]

theorem dispatch_of_after {last : Nat × Machine} (h : after s (n + 1) pc m = some last) :
    ∃ i next m', Dispatch s pc i m next m' ∧ after s n next m' = some last := by
  cases round s pc m with
  | out fetch => simp [after, fetch] at h
  | spent fetch budget => simp [after, fetch, budget] at h
  | fail fetch budget step => simp [after, fetch, budget, step] at h
  | go hgo => exact ⟨_, _, _, hgo, after_go hgo ▸ h⟩

theorem executed_after {last : Nat} (h : after s n pc m = some (last, m')) :
    m'.executed = m.executed + n := by
  induction n generalizing pc m with
  | zero =>
    obtain ⟨-, rfl⟩ := Prod.mk.inj (Option.some.inj h)
    rfl
  | succ n ih =>
    obtain ⟨_, _, _, hgo, h⟩ := dispatch_of_after h
    rw [ih h, hgo.executed]
    omega

/-! ## Runs -/

/-- A bound stops the run at a state, with an error. -/
inductive Stops (s : Setting) (pc : Nat) (m : Machine) : Error → Prop
  /-- So many instructions as are allowed have been executed, and there is another. -/
  | budget {i : Instruction} {limit : UInt64} (fetch : s.packet.code[pc]? = some i)
      (hlimit : limit ∈ s.limits.instructions) (hcount : m.executed = limit.toNat) :
      Stops s pc m (.program .budgetExhausted)
  /-- So many iterations as are allowed are open, and another is to be opened. -/
  | depth {i : Instruction} {limit : UInt64} (fetch : s.packet.code[pc]? = some i)
      (hop : Opcode.ofByte? i.opcode = some .iterate) (hlimit : limit ∈ s.limits.depth)
      (hdepth : limit.toNat ≤ m.frames.length) :
      Stops s pc m (.program (.iterationTooDeep limit.toNat))

/-- However long it is followed, a run under limits is the run without limits, or it is stopped at a
state of that run. -/
theorem runFrom_cases (hcount : ∀ limit ∈ s.limits.instructions, m.executed ≤ limit.toNat)
    (n pc : Nat) :
    runFrom s n pc m = runFrom s.unlimited n pc m ∨
      ∃ k e last m₁, after s.unlimited k pc m = some (last, m₁) ∧ Stops s last m₁ e ∧
        ∀ j > k, runFrom s j pc m = (.failed e, m₁.tick) := by
  induction n generalizing pc m with
  | zero => exact .inl rfl
  | succ n ih =>
    cases round s pc m with
    | out fetch =>
      exact .inl ((runFrom_out fetch).trans (runFrom_out (s := s.unlimited) fetch).symm)
    | spent fetch budget =>
      obtain ⟨limit, hlimit, hlt⟩ := (overBudget_eq_true_iff _ _).1 budget
      have hle := hcount limit hlimit
      have hlt' : limit.toNat < m.executed + 1 := hlt
      refine .inr ⟨0, _, pc, m, rfl, .budget fetch hlimit (by omega), fun j hj => ?_⟩
      obtain ⟨j, rfl⟩ : ∃ k, j = k + 1 := ⟨j - 1, by omega⟩
      exact runFrom_spent fetch budget
    | @fail i e fetch budget step =>
      rcases step_cases s pc i m.tick with hsame | ⟨hop, limit, hlimit, hdepth, herror⟩
      · left
        rw [runFrom_fail fetch budget step,
          runFrom_fail (s := s.unlimited) fetch rfl (hsame ▸ step)]
      · obtain rfl : e = _ := Except.error.inj (step.symm.trans herror)
        refine .inr ⟨0, _, pc, m, rfl, .depth fetch hop hlimit hdepth, fun j hj => ?_⟩
        obtain ⟨j, rfl⟩ : ∃ k, j = k + 1 := ⟨j - 1, by omega⟩
        exact runFrom_fail fetch budget step
    | @go i next m₁ hgo =>
      -- the unlimited run takes the same step, and there is one instruction less to count
      have hfree : Dispatch s.unlimited pc i m next m₁ := hgo.withLimits ⟨nofun, nofun⟩
      have hcount' : ∀ limit ∈ s.limits.instructions, m₁.executed ≤ limit.toNat := by
        intro limit hlimit
        rw [hgo.executed]
        by_contra hlt
        have hover : m.tick.overBudget s.limits = true :=
          (overBudget_eq_true_iff _ _).2 ⟨limit, hlimit, Nat.not_le.1 hlt⟩
        rw [hgo.budget] at hover
        cases hover
      rcases ih hcount' next with hsame | ⟨k, e, last, m₂, hafter, hstops, hends⟩
      · left
        rw [runFrom_go hgo, runFrom_go hfree, hsame]
      · refine .inr ⟨k + 1, e, last, m₂, (after_go hfree).trans hafter, hstops, fun j hj => ?_⟩
        obtain ⟨j, rfl⟩ : ∃ k, j = k + 1 := ⟨j - 1, by omega⟩
        rw [runFrom_go hgo]
        exact hends j (by omega)

/-- What succeeds under some limits succeeds in the same way under looser ones. -/
theorem runFrom_withLimits (hl : s.limits.Within l) (h : runFrom s n pc m = (.finished, m')) :
    runFrom (s.withLimits l) n pc m = (.finished, m') := by
  induction n generalizing pc m with
  | zero => cases h
  | succ n ih =>
    rcases finished_cases h with ⟨fetch, rfl⟩ | ⟨i, next, m₁, hgo, hrest⟩
    · rw [runFrom_out fetch] at h
      exact (runFrom_out (s := s.withLimits l) fetch).trans h
    · rw [runFrom_go (hgo.withLimits hl)]
      exact ih hrest

theorem fuel_mono {l' : Limits} (h : l.Within l') : fuel l ≤ fuel l' := by
  unfold fuel
  cases hb : l'.instructions with
  | none =>
    dsimp only
    cases l.instructions with
    | none => exact le_rfl
    | some a =>
      have := a.toNat_lt
      simp only [UInt64.size]
      omega
  | some b =>
    obtain ⟨a, ha, hab⟩ := h.instructions b hb
    have := UInt64.le_iff_toNat_le.1 hab
    rw [Option.mem_def.1 ha]
    dsimp only
    omega

/-- Within a bound on instructions a run ends: each round counts one of them. -/
theorem runFrom_ne_unfinished {limit : UInt64} (hlimit : limit ∈ s.limits.instructions)
    (hpos : 0 < n) (hn : limit.toNat + 1 < n + m.executed) :
    (runFrom s n pc m).1 ≠ .unfinished := by
  induction n generalizing pc m with
  | zero => omega
  | succ n ih =>
    cases round s pc m with
    | out fetch =>
      rw [runFrom_out fetch]
      exact ending_ne_unfinished m
    | spent fetch budget =>
      rw [runFrom_spent fetch budget]
      nofun
    | fail fetch budget step =>
      rw [runFrom_fail fetch budget step]
      nofun
    | go hgo =>
      have hwithin : ¬limit.toNat < m.executed + 1 := by
        intro hlt
        have hover : m.tick.overBudget s.limits = true :=
          (overBudget_eq_true_iff _ _).2 ⟨limit, hlimit, hlt⟩
        rw [hgo.budget] at hover
        cases hover
      rw [runFrom_go hgo]
      refine ih (by omega) ?_
      rw [hgo.executed]
      omega

/-- The limits of a setting only ever stop the run of a machine. -/
structure OnlyStopped (s : Setting) (m : Machine) : Prop where
  /-- The run is that without limits, or it is stopped after as many instructions as the bound says,
  or at an instruction that would open one iteration too many. Where it is stopped, it leaves the
  state that the run without limits has there, with one more instruction counted. -/
  outcome :
    (∀ k, runFrom s k 0 m = runFrom s.unlimited k 0 m) ∨
    (∃ limit ∈ s.limits.instructions, ∃ pc m₁,
      after s.unlimited limit.toNat 0 m = some (pc, m₁) ∧ m₁.tick.executed = limit.toNat + 1 ∧
        ∀ k > limit.toNat, runFrom s k 0 m = (.failed (.program .budgetExhausted), m₁.tick)) ∨
    ∃ limit ∈ s.limits.depth, ∃ n pc m₁ i,
      after s.unlimited n 0 m = some (pc, m₁) ∧ s.packet.code[pc]? = some i ∧
        Opcode.ofByte? i.opcode = some .iterate ∧ limit.toNat ≤ m₁.frames.length ∧
        ∀ k > n, runFrom s k 0 m = (.failed (.program (.iterationTooDeep limit.toNat)), m₁.tick)
  /-- With a bound on instructions the run ends, and more rounds change nothing. -/
  ends : s.limits.instructions.isSome → (m.run s).1 ≠ .unfinished ∧
    ∀ k ≥ fuel s.limits, runFrom s k 0 m = m.run s
  /-- A run that succeeds gives the same under looser limits. -/
  looser : ∀ l n, s.limits.Within l → m.run s = (.finished, n) →
    m.run (s.withLimits l) = (.finished, n)

/-- Limits are guards: they stop a run at a state of the run without limits, or do nothing. -/
theorem limits_only_stop (s : Setting) (m : Machine) (hcount : m.executed = 0) :
    OnlyStopped s m where
  outcome := by
    by_cases hsame : ∀ k, runFrom s k 0 m = runFrom s.unlimited k 0 m
    · exact .inl hsame
    · obtain ⟨n, hn⟩ := not_forall.1 hsame
      have hstart : ∀ limit ∈ s.limits.instructions, m.executed ≤ limit.toNat := by
        intro limit _
        omega
      rcases runFrom_cases hstart n 0 with heq | ⟨k, e, pc, m₁, hafter, hstops, hends⟩
      · exact absurd heq hn
      · have hexecuted := executed_after hafter
        rw [hcount, Nat.zero_add] at hexecuted
        cases hstops with
        | budget fetch hlimit hmet =>
          obtain rfl : k = _ := hexecuted.symm.trans hmet
          exact .inr (.inl ⟨_, hlimit, pc, m₁, hafter, congrArg (· + 1) hmet, hends⟩)
        | depth fetch hop hlimit hdepth =>
          exact .inr (.inr ⟨_, hlimit, k, pc, m₁, _, hafter, fetch, hop, hdepth, hends⟩)
  ends := by
    intro hsome
    obtain ⟨limit, hlimit⟩ := Option.isSome_iff_exists.1 hsome
    have hfuel : fuel s.limits = limit.toNat + 2 := by
      rw [fuel, hlimit]
    have hends : (m.run s).1 ≠ .unfinished :=
      runFrom_ne_unfinished hlimit (by omega) (by omega)
    exact ⟨hends, fun k hk => runFrom_of_le hends hk⟩
  looser := by
    intro l n hl h
    have hrun := runFrom_withLimits hl h
    have hfuel : fuel s.limits ≤ fuel (s.withLimits l).limits := fuel_mono hl
    exact (runFrom_of_le (by rw [hrun]; nofun) hfuel).trans hrun

/-- A program with a loop in a loop, where only one may be open at a time. -/
def nestedTooDeep : Setting where
  packet := {
    contract := { size := 2 }
    code := #[
      Opcode.newList.on 0 0 0 0,
      Opcode.append.on 0 0 1 0,
      Opcode.iterate.on 0 1 0 2,
      Opcode.iterate.on 0 1 0 0,
      Opcode.collect.on 0 1 1 1,
      Opcode.collect.on 0 1 1 1] }
  functions := .none
  timestamp := ""
  limits := { instructions := some 9, depth := some 1 }

/-- Without limits the program finishes after six instructions; with them it stops at the fourth. -/
theorem nestedTooDeep_only_stopped :
    (start nestedTooDeep.packet {}).executed = 0 ∧
      OnlyStopped nestedTooDeep (start nestedTooDeep.packet {}) ∧
      ((start nestedTooDeep.packet {}).run nestedTooDeep.unlimited).1 = .finished ∧
      ((start nestedTooDeep.packet {}).run nestedTooDeep).1 =
        .failed (.program (.iterationTooDeep 1)) ∧
      ((start nestedTooDeep.packet {}).run nestedTooDeep).2.executed = 4 := by
  refine ⟨rfl, limits_only_stop _ _ rfl, ?_, ?_, ?_⟩ <;> decide +kernel

end Machine

end TagMachine
