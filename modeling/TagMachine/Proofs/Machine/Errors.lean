import TagMachine.Proofs.Machine.Effects
import TagMachine.Proofs.Machine.Run

set_option autoImplicit false

/-! # The errors of a run

A run fails because of the kind of an operand, of an operand without result, of the program itself,
or of a function that does not exist. It meets no fault of a packet's bytes and of a JSON text, and
it breaks no rule on tags: those errors come from reading a packet or an input and from checking an
output (`Machine.runtimeOnly_run`).
-/

namespace TagMachine

/-- Whether an error is one of running a program. -/
def Error.isRuntime : Error → Bool
  | type _ => true
  | domain _ => true
  | program _ => true
  | unknownFunction _ => true
  | _ => false

/-- A computation that fails with errors of running only. -/
def RuntimeOnly {α : Type} (x : Except Error α) : Prop := ∀ e, x = .error e → e.isRuntime = true

theorem Error.isRuntime_of_isLocal {e : Error} (h : e.isLocal = true) : e.isRuntime = true := by
  cases e with
  | type _ | domain _ | program _ => rfl
  | _ => cases h

/-- A computation that fails with errors of running only, and never for lack of a function. -/
def LocalOnly {α : Type} (x : Except Error α) : Prop := ∀ e, x = .error e → e.isLocal = true

theorem LocalOnly.runtimeOnly {α : Type} {x : Except Error α} (h : LocalOnly x) : RuntimeOnly x :=
  fun e he => e.isRuntime_of_isLocal (h e he)

section

variable {α β : Type} {x : Except Error α}

theorem localOnly_ok (a : α) : LocalOnly (.ok a) := nofun

theorem localOnly_error {e : Error} (h : e.isLocal = true) :
    LocalOnly (.error e : Except Error α) := by
  rintro _ ⟨⟩
  exact h

theorem LocalOnly.bind {f : α → Except Error β} (hx : LocalOnly x)
    (hf : ∀ a, LocalOnly (f a)) : LocalOnly (x >>= f) := by
  cases x with
  | error e => exact localOnly_error (hx e rfl)
  | ok a => exact hf a

theorem Yields.localOnly {P : α → Prop} (h : Yields P x) : LocalOnly x := fun _ => h.of_eq_error

theorem LocalOnly.map {f : α → β} (hx : LocalOnly x) : LocalOnly (x.map f) := by
  cases x with
  | error e => exact localOnly_error (hx e rfl)
  | ok a => exact localOnly_ok (f a)

end

/-! ## Functions -/

namespace Builtin

variable (a : Arguments)

theorem localOnly_fieldNames (function : String) (items : List Value) :
    LocalOnly (fieldNames function items) := by
  unfold fieldNames
  induction items with
  | nil => exact localOnly_ok _
  | cons v items ih =>
    rw [List.mapM_cons]
    refine .bind ?_ fun _ => .bind ih fun _ => localOnly_ok _
    cases v with
    | string name => exact localOnly_ok _
    | _ => exact localOnly_error rfl

theorem localOnly_readIso (text : String) : LocalOnly (readIso text) := by
  unfold readIso
  split
  · exact localOnly_ok _
  · exact localOnly_error rfl

theorem localOnly_dateDiff : LocalOnly (dateDiff a) := by
  refine .bind (localOnly_readIso _) fun _ => .bind (localOnly_readIso _) fun _ => ?_
  dsimp only
  split
  · exact localOnly_ok _
  · exact localOnly_error rfl

theorem localOnly_dateAdd : LocalOnly (dateAdd a) := by
  refine .bind (localOnly_readIso _) fun _ => ?_
  split
  · exact localOnly_error rfl
  · exact localOnly_error rfl
  · exact localOnly_ok _

theorem localOnly_toInteger : LocalOnly (toInteger a) := by
  unfold toInteger
  split
  · exact localOnly_error rfl
  · exact (Value.yields_toInteger _).localOnly.map

theorem localOnly_of_mem_entries : ∀ e ∈ entries, LocalOnly (e.run a) := by
  simp only [entries, List.forall_mem_cons, List.not_mem_nil, false_implies, implies_true, and_true]
  have hok {b : Blueprint} : LocalOnly (.ok b) := localOnly_ok b
  refine ⟨hok, hok, hok, hok, hok, ?_, hok, hok, hok, hok, hok, ?_, hok, hok, hok, ?_, ?_, ?_, hok,
    hok, hok, hok, hok, hok, hok, hok, hok, hok, hok, hok, ?_, hok, hok, hok, hok,
    .bind (localOnly_fieldNames _ _) fun _ => localOnly_ok _,
    .bind (localOnly_fieldNames _ _) fun _ => localOnly_ok _, ?_, ?_, localOnly_dateDiff a,
    localOnly_dateAdd a, hok, hok, ?_, hok, hok, hok, ?_, hok, hok, hok, hok,
    (Value.yields_toFloat _).localOnly.map, localOnly_toInteger a, ?_⟩
  -- the others give a result or an error of their own in each of their cases
  all_goals
    dsimp only [substring, contains, regexMatch, regexReplace, abs, range, parseDate, formatDate,
      base64Decode, jsonParse, fold]
    repeat' split
  all_goals first | exact localOnly_ok _ | exact localOnly_error rfl

end Builtin

namespace FunctionTable

/-- The functions of a table fail with errors of running only. -/
def RuntimeErrors (functions : FunctionTable) : Prop :=
  ∀ id context args store, RuntimeOnly (functions.call id context args store)

/-- A table tells which functions it has: a function that it has never complains of a missing one,
and every call of another does. -/
structure Resolves (functions : FunctionTable) : Prop where
  found : ∀ id context args store, functions.provides id = true →
    LocalOnly (functions.call id context args store)
  missing : ∀ id context args store, functions.provides id = false →
    functions.call id context args store = .error (.unknownFunction id)

theorem Resolves.runtimeErrors {functions : FunctionTable} (h : functions.Resolves) :
    functions.RuntimeErrors := by
  intro id context args store
  cases hid : functions.provides id with
  | true => exact (h.found id context args store hid).runtimeOnly
  | false =>
    rw [h.missing id context args store hid]
    rintro _ ⟨⟩
    rfl

theorem resolves_standard : standard.Resolves := by
  constructor
  all_goals
    intro id context args store hid
    simp only [standard] at hid ⊢
    split
  · next e he =>
      exact (Builtin.localOnly_of_mem_entries _ e (List.mem_of_find?_eq_some he)).map
  · next he => simp [he] at hid
  · next e he => simp [he] at hid
  · rfl

theorem resolves_none : none.Resolves := ⟨nofun, fun _ _ _ _ _ => rfl⟩

theorem resolves_of_eq {functions : FunctionTable}
    (h : functions = .standard ∨ functions = .none) : functions.Resolves := by
  rcases h with rfl | rfl
  · exact resolves_standard
  · exact resolves_none

theorem runtimeErrors_standard : standard.RuntimeErrors := resolves_standard.runtimeErrors

theorem runtimeErrors_none : none.RuntimeErrors := resolves_none.runtimeErrors

/-- Some call of the table fails with the error. -/
def Raises (functions : FunctionTable) (e : Error) : Prop :=
  ∃ id context args store, functions.call id context args store = .error e

end FunctionTable

/-! ## Calls -/

/-- Whether an instruction calls the function that its first operand names. -/
def Instruction.isCall (i : Instruction) : Bool := (Opcode.ofByte? i.opcode).any Opcode.isCall

namespace Machine

/-- Loading fields fails at a field whose register does not exist. -/
theorem loadFields_eq_error {input : Record} {fs : List FieldDef} {e : Error} {m : Machine}
    (h : (m.loadFields input fs).1 = .error e) :
    ∃ f ∈ fs, m.registers.size ≤ f.register.toNat ∧
      e = .program (.registerOutside f.register m.registers.size) := by
  induction fs generalizing m with
  | nil => cases h
  | cons f fs ih =>
    unfold loadFields at h
    cases hset : m.setRegister f.register ⟨input.get f.name, f.tags⟩ with
    | error e' =>
      rw [hset] at h
      obtain rfl : e' = e := Except.error.inj h
      exact ⟨f, List.mem_cons_self, setRegister_eq_error hset⟩
    | ok n =>
      rw [hset] at h
      obtain ⟨g, hg, herror⟩ := ih h
      obtain ⟨-, rfl⟩ := setRegister_eq_ok hset
      rw [size_put] at herror
      exact ⟨g, List.mem_cons_of_mem f hg, herror⟩

/-! ## Steps -/

section

variable {s : Setting} (m : Machine) (i : Instruction)

theorem localOnly_jumps? {op : Opcode} {taken : Except Error Bool}
    (h : m.jumps? op i = some taken) : LocalOnly taken := by
  cases op with
  | jump =>
    obtain rfl := Option.some.inj h
    exact localOnly_ok _
  | jumpIf =>
    obtain rfl := Option.some.inj h
    exact (m.yields_boolean _).localOnly
  | jumpIfNot =>
    obtain rfl := Option.some.inj h
    exact (m.yields_boolean _).localOnly.map
  | jumpUnless op =>
    obtain rfl := Option.some.inj h
    exact (m.yields_compares op _ _).localOnly.map
  | jumpIfNothing =>
    obtain rfl := Option.some.inj h
    exact (m.yields_value _).localOnly.map
  | _ => cases h

theorem localOnly_openFrame (limits : Limits) (f : Frame) (item : Value) :
    LocalOnly (m.openFrame limits f item) := by
  unfold openFrame
  split
  · split
    · exact localOnly_error rfl
    · exact localOnly_ok _
  · exact localOnly_ok _

theorem localOnly_iterate (pc : Nat) : LocalOnly (m.iterate s pc i) := by
  refine (m.yields_register _).localOnly.bind fun source => ?_
  split
  · dsimp only
    split
    · exact localOnly_error rfl
    · refine .bind ?_ fun f => ?_
      · have hslot r := (m.yields_slot r).localOnly
        exact (hslot _).bind fun _ => (hslot _).bind fun _ => (hslot _).bind fun _ =>
          (hslot _).bind fun _ => localOnly_ok _
      · split
        · exact localOnly_ok _
        · exact (m.localOnly_openFrame _ _ _).bind fun _ => localOnly_ok _
  · exact localOnly_error rfl

theorem localOnly_collect (pc : Nat) : LocalOnly (m.collect pc) := by
  unfold collect
  split
  · exact localOnly_error rfl
  · split
    · exact localOnly_error rfl
    · dsimp only
      split
      · exact localOnly_ok _
      · exact localOnly_ok _

end

/-! ## Errors of functions -/

section

variable {s : Setting} {m : Machine} {i : Instruction} {e : Error}

/-- The function that an instruction names, unless it is the identity, fails with the error on some
arguments. -/
def CallRaises (s : Setting) (i : Instruction) (e : Error) : Prop :=
  i.op1 ≠ identityFunction ∧
    ∃ context args store, s.functions.call i.op1 context args store = .error e

theorem isLocal_or_raises_of_call {args : RecordRef} {t : TagSet}
    (h : m.call s i args t = .error e) : e.isLocal = true ∨ CallRaises s i e := by
  unfold call at h
  split at h
  · exact .inl ((m.yields_write i _ t).of_eq_error h)
  · next hid =>
      rcases bind_eq_error.1 h with hcall | ⟨_, -, hwrite⟩
      · exact .inr ⟨hid, _, _, _, hcall⟩
      · exact .inl ((yields_write _ i _ t).of_eq_error hwrite)

theorem isLocal_or_raises_of_callValue (h : m.callValue s i = .error e) :
    e.isLocal = true ∨ CallRaises s i e := by
  rcases bind_eq_error.1 h with hvalue | ⟨v, -, h⟩
  · exact .inl ((m.yields_value _).of_eq_error hvalue)
  rcases bind_eq_error.1 h with htags | ⟨t, -, h⟩
  · exact .inl ((m.yields_tags _).of_eq_error htags)
  dsimp only at h
  split at h
  · exact .inl ((m.yields_write i v t).of_eq_error h)
  · next hid =>
      rcases bind_eq_error.1 h with hcall | ⟨_, -, hwrite⟩
      · exact .inr ⟨hid, _, _, _, hcall⟩
      · exact .inl ((yields_write _ i _ t).of_eq_error hwrite)

/-- Only calls fail with errors that are not the machine's own. -/
theorem isLocal_or_raises_of_apply {op : Opcode} (h : m.apply s op i = .error e) :
    e.isLocal = true ∨ op.isCall = true ∧ CallRaises s i e := by
  cases hop : op.isCall with
  | false => exact .inl ((yields_apply hop).of_eq_error h)
  | true =>
    cases op with
    | call =>
      rcases bind_eq_error.1 h with hrecord | ⟨args, -, h⟩
      · exact .inl ((m.yields_record _).of_eq_error hrecord)
      rcases bind_eq_error.1 h with htags | ⟨t, -, h⟩
      · exact .inl ((m.yields_tags _).of_eq_error htags)
      exact (isLocal_or_raises_of_call h).imp_right fun hraises => ⟨rfl, hraises⟩
    | callValue => exact (isLocal_or_raises_of_callValue h).imp_right fun hraises => ⟨rfl, hraises⟩
    | _ => cases hop

theorem isLocal_or_raises_of_step {pc : Nat} (h : m.step s pc i = .error e) :
    e.isLocal = true ∨ i.isCall = true ∧ CallRaises s i e := by
  cases hop : Opcode.ofByte? i.opcode with
  | none =>
    unfold step at h
    rw [hop] at h
    obtain rfl := Except.error.inj h
    exact .inl rfl
  | some op =>
    rw [step_of_ofByte? hop] at h
    unfold execute at h
    split at h
    · next hjump =>
        exact .inl ((m.localOnly_jumps? i hjump).bind (fun _ => localOnly_ok _) e h)
    · exact .inl (m.localOnly_iterate i pc e h)
    · exact .inl (m.localOnly_collect pc e h)
    · rcases bind_eq_error.1 h with happly | ⟨_, -, h⟩
      · rcases isLocal_or_raises_of_apply happly with hlocal | ⟨hcall, hraises⟩
        · exact .inl hlocal
        · refine .inr ⟨?_, hraises⟩
          unfold Instruction.isCall
          rw [hop]
          exact hcall
      · cases h

theorem isRuntime_of_step (hs : s.functions.RuntimeErrors) {pc : Nat}
    (h : m.step s pc i = .error e) : e.isRuntime = true := by
  rcases isLocal_or_raises_of_step h with hlocal | ⟨-, -, context, args, store, hcall⟩
  · exact e.isRuntime_of_isLocal hlocal
  · exact hs i.op1 context args store e hcall

end

/-! ## Runs -/

/-- A run fails with an error of its own, or with one that the function of one of its instructions
raised. -/
theorem isLocal_or_raises_of_runFrom {s : Setting} {k pc : Nat} {m n : Machine} {e : Error}
    (h : runFrom s k pc m = (.failed e, n)) :
    e.isLocal = true ∨ ∃ i ∈ s.packet.code, i.isCall = true ∧ CallRaises s i e := by
  induction k generalizing pc m with
  | zero => cases h
  | succ k ih =>
    cases round s pc m with
    | out fetch =>
      rw [runFrom_out fetch] at h
      unfold ending at h
      split at h
      · cases h
      · obtain ⟨⟨⟩, -⟩ := Prod.mk.inj h
        exact .inl rfl
    | spent fetch budget =>
      rw [runFrom_spent fetch budget] at h
      obtain ⟨⟨⟩, -⟩ := Prod.mk.inj h
      exact .inl rfl
    | fail fetch budget step =>
      rw [runFrom_fail fetch budget step] at h
      obtain ⟨⟨⟩, -⟩ := Prod.mk.inj h
      exact (isLocal_or_raises_of_step step).imp_right fun hcall =>
        ⟨_, Array.mem_of_getElem? fetch, hcall⟩
    | go hgo =>
      rw [runFrom_go hgo] at h
      exact ih h

/-- The same of the run from the first instruction. -/
theorem isLocal_or_raises_of_run {s : Setting} {m : Machine} {e : Error}
    (h : (m.run s).1.toExcept = .error e) :
    e.isLocal = true ∨ ∃ i ∈ s.packet.code, i.isCall = true ∧ CallRaises s i e := by
  generalize hrun : m.run s = x at h
  obtain ⟨outcome, n⟩ := x
  cases outcome with
  | finished => cases h
  | failed e' =>
    obtain rfl : e' = e := Except.error.inj h
    exact isLocal_or_raises_of_runFrom hrun
  | unfinished =>
    obtain rfl := Except.error.inj h
    exact .inl rfl

/-- A run fails with an error of running, or with one that a function raised. -/
theorem isRuntime_or_raises_of_run {s : Setting} {m : Machine} {e : Error}
    (h : (m.run s).1.toExcept = .error e) : e.isRuntime = true ∨ s.functions.Raises e := by
  rcases isLocal_or_raises_of_run h with hlocal | ⟨i, -, -, -, hraises⟩
  · exact .inl (e.isRuntime_of_isLocal hlocal)
  · exact .inr ⟨i.op1, hraises⟩

/-- With functions that raise no others, a run fails with errors of running only. -/
theorem runtimeOnly_run {s : Setting} (m : Machine) (hs : s.functions.RuntimeErrors) :
    RuntimeOnly (m.run s).1.toExcept := by
  intro e he
  rcases isRuntime_or_raises_of_run he with hruntime | ⟨id, context, args, store, hcall⟩
  · exact hruntime
  · exact hs id context args store e hcall

end Machine

end TagMachine
