import TagMachine.Proofs.Flow.Origin

set_option autoImplicit false

/-! # Dependencies of a packet

A packet lists the functions that it depends on, and `Packet.checkDependencies` looks them up in a
table before anything runs. The check is about a list and the runs are about the code, so it is
worth something only for a packet that lists what its instructions call (`Packet.ListsCalls`). Of
such a packet it says all: where it succeeds no run lacks a function, and where it fails it names
the first listed function that no arguments help to call.

Both directions rest on the table resolving a number in the same way whether it is asked for it or
called with it (`FunctionTable.Resolves`).
-/

namespace TagMachine

namespace FunctionTable

/-- Every call of the function fails because there is none. -/
def Missing (functions : FunctionTable) (id : UInt16) : Prop :=
  ∀ context args store, functions.call id context args store = .error (.unknownFunction id)

/-- No call of the function fails because there is none, this function or another. -/
def Present (functions : FunctionTable) (id : UInt16) : Prop :=
  ∀ context args store other,
    functions.call id context args store ≠ .error (.unknownFunction other)

theorem Resolves.present {functions : FunctionTable} (h : functions.Resolves) {id : UInt16}
    (hid : functions.provides id = true) : functions.Present id := by
  intro context args store other hcall
  have hlocal := h.found id context args store hid _ hcall
  cases hlocal

theorem Resolves.missing_of_not_provides {functions : FunctionTable} (h : functions.Resolves)
    {id : UInt16} (hid : functions.provides id = false) : functions.Missing id :=
  fun context args store => h.missing id context args store hid

end FunctionTable

/-- The packet lists every function that one of its instructions calls. -/
def Packet.ListsCalls (p : Packet) : Prop := ∀ i ∈ p.code, i.isCall = true → i.op1 ∈ p.dependencies

instance (p : Packet) : Decidable p.ListsCalls :=
  inferInstanceAs (Decidable (∀ i ∈ p.code, i.isCall = true → i.op1 ∈ p.dependencies))

/-- A list of functions starts with some that are there or are the identity, goes on with the given
one, which is missing, and ends somehow. -/
def FunctionTable.FirstMissing (functions : FunctionTable) (listed : List UInt16) (id : UInt16) :
    Prop :=
  ∃ earlier later, listed = earlier ++ id :: later ∧ id ≠ Machine.identityFunction ∧
    functions.Missing id ∧
    ∀ j ∈ earlier, j ≠ Machine.identityFunction → functions.Present j

namespace Packet

variable {p : Packet} {functions : FunctionTable}

/-! ## What the check tells -/

theorem provides_of_checkDependencies (h : p.checkDependencies functions = .ok ()) {id : UInt16}
    (hid : id ∈ p.dependencies) (hne : id ≠ Machine.identityFunction) :
    functions.provides id = true := by
  unfold checkDependencies at h
  split at h
  · cases h
  · next hnone =>
      have hfound := List.find?_eq_none.1 hnone id hid
      simpa [hne] using hfound

theorem firstMissing_of_checkDependencies (hs : functions.Resolves) {e : Error}
    (h : p.checkDependencies functions = .error e) :
    ∃ id, e = .unknownFunction id ∧ functions.FirstMissing p.dependencies id := by
  unfold checkDependencies at h
  split at h
  · next id hid =>
      obtain ⟨hmissing, earlier, later, hlist, hearlier⟩ := List.find?_eq_some_iff_append.1 hid
      simp only [Bool.and_eq_true, bne_iff_ne, ne_eq, Bool.not_eq_true'] at hmissing hearlier
      refine ⟨id, (Except.error.inj h).symm, earlier, later, hlist, hmissing.1,
        hs.missing_of_not_provides hmissing.2, ?_⟩
      intro j hj hne
      have hprovided : functions.provides j = true := by simpa [hne] using hearlier j hj
      exact hs.present hprovided
  · cases h

/-! ## What it means for runs -/

/-- A call of an instruction of a packet that lists its calls and passes the check finds its
function. -/
theorem not_callRaises_unknownFunction (hs : functions.Resolves) (hlists : p.ListsCalls)
    (hcheck : p.checkDependencies functions = .ok ()) {timestamp : String} {limits : Limits}
    {i : Instruction} (hi : i ∈ p.code) (hcall : i.isCall = true) (id : UInt16) :
    ¬Machine.CallRaises ⟨p, functions, timestamp, limits⟩ i (.unknownFunction id) := by
  rintro ⟨hne, context, args, store, hraises⟩
  have hprovided := provides_of_checkDependencies hcheck (hlists i hi hcall) hne
  exact hs.present hprovided context args store id hraises

theorem runFrom_ne_unknownFunction (hs : functions.Resolves) (hlists : p.ListsCalls)
    (hcheck : p.checkDependencies functions = .ok ()) (timestamp : String) (limits : Limits)
    (k pc : Nat) (m : Machine) (id : UInt16) :
    (Machine.runFrom ⟨p, functions, timestamp, limits⟩ k pc m).1 ≠
      .failed (.unknownFunction id) := by
  intro h
  rcases Machine.isLocal_or_raises_of_runFrom (Prod.ext h rfl) with hlocal | ⟨i, hi, hcall, hraises⟩
  · cases hlocal
  · exact not_callRaises_unknownFunction hs hlists hcheck hi hcall id hraises

theorem execute_ne_unknownFunction (hs : functions.Resolves) (hlists : p.ListsCalls)
    (hcheck : p.checkDependencies functions = .ok ()) (c : Config) (timestamp : String)
    (input : RecordRef) (store : Store) (id : UInt16) :
    (c.execute p functions timestamp input store).1 ≠ .error (.unknownFunction id) := by
  intro h
  cases Config.failure_of_execute h with
  | loading load =>
    obtain ⟨f, -, -, he⟩ := Machine.loadFields_eq_error load
    cases he
  | running load run =>
    rcases Machine.isLocal_or_raises_of_run run with hlocal | ⟨i, hi, hcall, hraises⟩
    · cases hlocal
    · exact not_callRaises_unknownFunction hs hlists hcheck hi hcall id hraises
  | rejected load run check =>
    obtain ⟨-, v, -, he⟩ := Contract.validate_eq_error check
    cases he

theorem executeJson_ne_unknownFunction (hs : functions.Resolves) (hlists : p.ListsCalls)
    (hcheck : p.checkDependencies functions = .ok ()) (c : Config) (timestamp text : String)
    (id : UInt16) : c.executeJson p functions timestamp text ≠ .error (.unknownFunction id) := by
  intro h
  rcases Config.executeJson_eq_error h with hread | ⟨fields, -, hexecute⟩
  · rcases Json.readRecord_eq_error hread with ⟨_, -, he⟩ | ⟨_, -, -, he⟩ <;> cases he
  · exact execute_ne_unknownFunction hs hlists hcheck c timestamp _ _ id hexecute

/-- The packet never lacks a function: no run of it fails for lack of one, from whatever place and
machine it starts, within whatever limits, and no execution does, on whatever input. -/
structure NeverLacks (p : Packet) (functions : FunctionTable) : Prop where
  runFrom : ∀ timestamp limits k pc m id,
    (Machine.runFrom ⟨p, functions, timestamp, limits⟩ k pc m).1 ≠ .failed (.unknownFunction id)
  run : ∀ timestamp limits m id,
    (Machine.run ⟨p, functions, timestamp, limits⟩ m).1.toExcept ≠ .error (.unknownFunction id)
  execute : ∀ (c : Config) timestamp input store id,
    (c.execute p functions timestamp input store).1 ≠ .error (.unknownFunction id)
  executeJson : ∀ (c : Config) timestamp text id,
    c.executeJson p functions timestamp text ≠ .error (.unknownFunction id)

theorem neverLacks (hs : functions.Resolves) (hlists : p.ListsCalls)
    (hcheck : p.checkDependencies functions = .ok ()) : p.NeverLacks functions where
  runFrom := runFrom_ne_unknownFunction hs hlists hcheck
  run := by
    intro timestamp limits m id h
    rcases Machine.isLocal_or_raises_of_run h with hlocal | ⟨i, hi, hcall, hraises⟩
    · cases hlocal
    · exact not_callRaises_unknownFunction hs hlists hcheck hi hcall id hraises
  execute := execute_ne_unknownFunction hs hlists hcheck
  executeJson := executeJson_ne_unknownFunction hs hlists hcheck

end Packet

/-- With the standard functions or with none, the check of the dependencies of a packet that lists
its calls is sound: if it succeeds the packet never lacks a function, and if it fails it names the
first listed function that is missing. -/
theorem Packet.dependencies_sound (p : Packet) {functions : FunctionTable}
    (htable : functions = .standard ∨ functions = .none) (hlists : p.ListsCalls) :
    (p.checkDependencies functions = .ok () → p.NeverLacks functions) ∧
      ∀ e, p.checkDependencies functions = .error e →
        ∃ id, e = .unknownFunction id ∧ functions.FirstMissing p.dependencies id := by
  have hs := FunctionTable.resolves_of_eq htable
  exact ⟨neverLacks hs hlists, fun e => firstMissing_of_checkDependencies hs⟩

/-- Calls the identity, a standard function and another function. -/
def Packet.calling (other : UInt16) : Packet where
  contract := { size := 2 }
  dependencies := [0x00, 0x01, other, 0x78]
  code := #[Opcode.callValue.on 0 0 0x00 1, Opcode.callValue.on 0 0 0x01 1,
    Opcode.call.on 0 0 other 1]

/-- The number 0x73 lies between two standard functions and is none. -/
theorem Packet.calling_checked :
    Packet.NeverLacks (.calling 0x72) .standard ∧
      Packet.checkDependencies (.calling 0x73) .standard = .error (.unknownFunction 0x73) ∧
      FunctionTable.standard.FirstMissing [0x00, 0x01, 0x73, 0x78] 0x73 ∧
      Packet.checkDependencies (.calling 0x73) .none = .error (.unknownFunction 0x01) ∧
      FunctionTable.none.FirstMissing [0x00, 0x01, 0x73, 0x78] 0x01 := by
  have hlists (id : UInt16) : (Packet.calling id).ListsCalls := by
    intro i hi hcall
    simp only [calling, List.mem_toArray, List.mem_cons, List.not_mem_nil, or_false] at hi ⊢
    rcases hi with rfl | rfl | rfl <;> simp [Opcode.on]
  have hstandard : Packet.checkDependencies (.calling 0x73) .standard =
      .error (.unknownFunction 0x73) := by decide +kernel
  have hnone : Packet.checkDependencies (.calling 0x73) .none = .error (.unknownFunction 0x01) := by
    decide +kernel
  obtain ⟨id, hid, hfirst⟩ :=
    (dependencies_sound (.calling 0x73) (.inl rfl) (hlists _)).2 _ hstandard
  obtain ⟨⟩ := hid
  obtain ⟨id, hid, hfirst'⟩ := (dependencies_sound (.calling 0x73) (.inr rfl) (hlists _)).2 _ hnone
  obtain ⟨⟩ := hid
  exact ⟨(dependencies_sound (.calling 0x72) (.inl rfl) (hlists _)).1 (by decide +kernel),
    hstandard, hfirst, hnone, hfirst'⟩

end TagMachine
