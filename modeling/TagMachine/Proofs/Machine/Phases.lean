import TagMachine.Proofs.Flow.Origin
import TagMachine.Proofs.Packet.Cursor

set_option autoImplicit false

/-! # Kinds of errors by phase

Every error names what was at fault, and each phase of the use of a packet has its own kinds:
reading the bytes complains of the bytes, filling registers of registers that do not exist, running
of operands, of the program and of functions, checking the output of tags, and reading an input of
the text.

This is said of the machine that is changed in place, where an access that nothing checks could go
wrong in a way that is no error at all (`Fault.outside`, `Scan.Fault`). In every machine that comes
of use it does not.
-/

namespace TagMachine

namespace Action

/-! ## Filling registers in place -/

/-- Writes fields of a record to their registers, one after another. -/
def loadFields (input : Record) : List FieldDef → Action Unit
  | [] => pure ()
  | f :: rest => do
    setRegister f.register ⟨input.get f.name, f.tags⟩
    loadFields input rest

/-- Writes the input fields of a packet to their registers. -/
def loadInputs (p : Packet) (input : Record) : Action Unit := loadFields input p.contract.inputs

theorem setRegister_eq (r : UInt16) (c : Register) (m : Machine) :
    setRegister r c m =
      match m.setRegister r c with
      | .ok n => .ok () n
      | .error e => .error (.error e) m := by
  unfold setRegister Machine.setRegister
  cases hslot : m.slot r with
  | error e =>
    simp only [bind, EStateM.bind, read, hslot, Except.bind]
  | ok k =>
    have hk := Machine.lt_size_of_slot hslot
    have hk' : k < (m.put k { m.peek k with value := c.value }).registers.size := by simpa using hk
    simp only [bind, EStateM.bind, read, hslot, Except.bind, setValue, setTags, update,
      if_pos hk, if_pos hk', Machine.peek_put_self hk, Machine.put_put]
    rfl

/-- Filling registers in place does as the machine's. -/
theorem loadFields_eq (input : Record) (fs : List FieldDef) (m : Machine) :
    loadFields input fs m =
      match m.loadFields input fs with
      | (.ok (), n) => .ok () n
      | (.error e, n) => .error (.error e) n := by
  induction fs generalizing m with
  | nil => rfl
  | cons f fs ih =>
    unfold loadFields Machine.loadFields
    simp only [bind, EStateM.bind, setRegister_eq]
    cases m.setRegister f.register ⟨input.get f.name, f.tags⟩ with
    | error e => rfl
    | ok n => exact ih n

/-! ## Running in place -/

/-- A run in place of a machine that fits its program stops for an error of running only, and never
because it accesses a register that does not exist. -/
theorem runFrom_fault {s : Setting} (hpreserves : s.functions.Preserves)
    (herrors : s.functions.RuntimeErrors) {k pc : Nat} {m m' : Machine} {fault : Fault}
    (hfits : m.Fits s) (h : runFrom s k pc m = .error fault m') :
    ∃ e, fault = .error e ∧ e.isRuntime = true := by
  induction k generalizing pc m with
  | zero => cases h
  | succ k ih =>
    cases hfetch : s.packet.code[pc]? with
    | none =>
      rw [runFrom_of_out hfetch] at h
      split at h
      · cases h
      · cases h
        exact ⟨_, rfl, rfl⟩
    | some i =>
      rw [runFrom_of_fetch hfetch] at h
      split at h
      · cases h
        exact ⟨_, rfl, rfl⟩
      · have hdoes := step_does hpreserves pc i m.tick
        have htick : m.tick.Fits s := ⟨hfits.registers, hfits.frames, hfits.depth⟩
        unfold Does at hdoes
        simp only [bind, EStateM.bind] at h
        cases hstep : step s pc i m.tick with
        | ok next n =>
          rw [hstep] at h hdoes
          exact ih (htick.advance (Machine.advance_of_step hdoes)) h
        | error _ n =>
          rw [hstep] at h hdoes
          cases h
          cases fault with
          | error e => exact ⟨e, rfl, Machine.isRuntime_of_step herrors hdoes.1⟩
          | outside slot =>
            -- the registers of the innermost iteration exist
            have hlt := htick.lt_size_of_innermost hdoes.1
            exact absurd hlt (Nat.not_lt.2 hdoes.2)

end Action

/-! ## A machine in use -/

/-- What a machine can fail with, by what is asked of it. -/
structure Machine.FailsByPhase (s : Setting) (m : Machine) : Prop where
  setRegister : ∀ r c fault m', Action.setRegister r c m = .error fault m' →
    ∃ e, fault = .error (.program e)
  loadInputs : ∀ input fault m', Action.loadInputs s.packet input m = .error fault m' →
    ∃ e, fault = .error (.program e)
  /-- However long the run in place is watched. -/
  runFrom : ∀ k fault m', Action.runFrom s k 0 m = .error fault m' →
    ∃ e, fault = .error e ∧ e.isRuntime = true
  run : ∀ e, (m.run s).1.toExcept = .error e → e.isRuntime = true

theorem Machine.failsByPhase {s : Setting} (hpreserves : s.functions.Preserves)
    (herrors : s.functions.RuntimeErrors) {m : Machine} (h : m.Fits s) : m.FailsByPhase s where
  setRegister := by
    intro r c fault m' hset
    rw [Action.setRegister_eq] at hset
    cases herror : m.setRegister r c with
    | ok n =>
      rw [herror] at hset
      cases hset
    | error e =>
      rw [herror] at hset
      cases hset
      obtain ⟨-, rfl⟩ := setRegister_eq_error herror
      exact ⟨_, rfl⟩
  loadInputs := by
    intro input fault m' hload
    unfold Action.loadInputs at hload
    rw [Action.loadFields_eq] at hload
    split at hload
    · cases hload
    · next e n herror =>
        cases hload
        obtain ⟨_, -, -, rfl⟩ := loadFields_eq_error (congrArg Prod.fst herror)
        exact ⟨_, rfl⟩
  runFrom := fun k fault m' hrun => Action.runFrom_fault hpreserves herrors h hrun
  run := m.runtimeOnly_run herrors

/-! ## Executing a packet -/

/-- What an execution can fail with. -/
structure Config.FailsByPhase (c : Config) (p : Packet) (functions : FunctionTable)
    (timestamp : String) : Prop where
  /-- On a record: as filling registers and running do, or, after the run succeeded, because of
  tags. -/
  execute : ∀ input store e, (c.execute p functions timestamp input store).1 = .error e →
    e.isRuntime = true ∨
      ((p.loaded input store).run (c.setting p functions timestamp)).1.toExcept = .ok () ∧
        ∃ v, e = .policy v
  /-- On a text: because it is not JSON, because it is not an object, or as on the record of its
  fields. -/
  executeJson : ∀ text e, c.executeJson p functions timestamp text = .error e →
    (∃ fault, Json.read text = .error fault ∧ e = .json fault) ∨
      (∃ d, Json.read text = .ok d ∧ d.kind ≠ .record ∧ e = .type (.inputNotRecord d.kind)) ∨
      ∃ fields, Json.readRecord text = .ok fields ∧
        (c.execute p functions timestamp (Store.placeRecord {} fields).1
          (Store.placeRecord {} fields).2).1 = .error e
  notJson : ∀ text fault, Json.read text = .error fault →
    c.executeJson p functions timestamp text = .error (.json fault)
  notObject : ∀ text d, Json.read text = .ok d → d.kind ≠ .record →
    c.executeJson p functions timestamp text = .error (.type (.inputNotRecord d.kind))

theorem Json.readRecord_of_kind {text : String} {d : Datum} (h : read text = .ok d)
    (hkind : d.kind ≠ .record) : readRecord text = .error (.type (.inputNotRecord d.kind)) := by
  unfold readRecord
  rw [h]
  cases d with
  | record fields => exact absurd rfl hkind
  | _ => rfl

theorem Config.failsByPhase (c : Config) (p : Packet) {functions : FunctionTable}
    (herrors : functions.RuntimeErrors) (timestamp : String) :
    c.FailsByPhase p functions timestamp where
  execute := by
    intro input store e h
    cases failure_of_execute h with
    | loading load =>
      obtain ⟨_, -, -, rfl⟩ := Machine.loadFields_eq_error load
      exact .inl rfl
    | running load run =>
      exact .inl (Machine.runtimeOnly_run (s := c.setting p functions timestamp) _ herrors e run)
    | rejected load run check =>
      obtain ⟨-, v, -, rfl⟩ := Contract.validate_eq_error check
      exact .inr ⟨run, v, rfl⟩
  executeJson := by
    intro text e h
    rcases executeJson_eq_error h with hread | hexecute
    · rcases Json.readRecord_eq_error hread with hjson | hkind
      · exact .inl hjson
      · exact .inr (.inl hkind)
    · exact .inr (.inr hexecute)
  notJson := by
    intro text fault h
    unfold Config.executeJson Json.readRecord
    rw [h]
    rfl
  notObject := by
    intro text d h hkind
    unfold Config.executeJson
    rw [Json.readRecord_of_kind h hkind]
    rfl

/-! ## All phases -/

theorem Packet.scan_cases (data : List UInt8) :
    (∃ p, scan data = .ok p ∧ load data = .ok p) ∨
      ∃ e, scan data = .error (.format e) ∧ load data = .error e := by
  rw [scan_eq_load]
  cases load data with
  | ok p => exact .inl ⟨p, rfl, rfl⟩
  | error e => exact .inr ⟨e, rfl, rfl⟩

/-- With the standard functions or with none, reading bytes gives a packet or complains of the
bytes, however a machine has been used it fails by the phase that it is in, and so does an
execution. -/
theorem Packet.errors_by_phase {functions : FunctionTable}
    (htable : functions = .standard ∨ functions = .none) :
    (∀ data, (∃ p, scan data = .ok p ∧ load data = .ok p) ∨
      ∃ e, scan data = .error (.format e) ∧ load data = .error e) ∧
    (∀ s : Setting, s.functions = functions → ∀ m, Machine.Session s m → m.FailsByPhase s) ∧
    ∀ (c : Config) (p : Packet) (timestamp : String), c.FailsByPhase p functions timestamp := by
  have herrors := (FunctionTable.resolves_of_eq htable).runtimeErrors
  have hpreserves := FunctionTable.preserves_of_eq htable
  refine ⟨scan_cases, ?_, fun c p timestamp => c.failsByPhase p herrors timestamp⟩
  rintro s rfl m hm
  exact Machine.failsByPhase hpreserves herrors hm.fits

/-- Bytes that are no packet, a machine that has failed in an iteration before and fails so again,
and a text that is no object. -/
theorem Packet.failingLoop_errors :
    scan [0x41] = .error (.format (.tooSmall 1)) ∧ load [0x41] = .error (.tooSmall 1) ∧
      (∃ m, Machine.Session Machine.failingLoop m ∧ m.frames.length = 1 ∧
        (Machine.runFrom Machine.failingLoop 20 0 m).1 = .failed (.type (.negate .list)) ∧
        m.FailsByPhase Machine.failingLoop) ∧
      Config.executeJson {} Machine.failingLoop.packet .standard "" "[]" =
        .error (.type (.inputNotRecord .list)) := by
  obtain ⟨hload, hmachine, hconfig⟩ := errors_by_phase (.inl rfl)
  refine ⟨rfl, rfl, ?_, ?_⟩
  · have hm : Machine.Session Machine.failingLoop
        (Machine.runFrom Machine.failingLoop 20 0 (.start Machine.failingLoop.packet {})).2 :=
      .run (.start Store.closed_empty) 20
    exact ⟨_, hm, by decide +kernel, by decide +kernel, hmachine _ rfl _ hm⟩
  · exact (hconfig {} Machine.failingLoop.packet "").notObject "[]" (.list []) (by cbv) nofun

end TagMachine
