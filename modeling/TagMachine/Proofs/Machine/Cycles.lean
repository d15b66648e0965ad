import TagMachine.Proofs.Machine.Growth

set_option autoImplicit false

/-! # Where cycles come from

A container that holds itself has no tree, and writing or comparing it would not end. New containers
only hold what was there before them, so cycles come from the operations that change a container:
storing a value closes a cycle exactly if the value is or reaches the container that it is stored to
(`Machine.StoresCycle`). A program that starts with values without cycles and never stores in this
way works on trees, up to sharing (`Machine.cycles_come_from_stores`).
-/

namespace TagMachine

namespace Machine

/-! ## What is alive -/

/-- The values that a machine or its user holds: those of registers, the elements of the lists that
are iterated, the lists of what iterations have collected, and values outside the machine. -/
def Root (outside : Value → Prop) (m : Machine) (v : Value) : Prop :=
  (∃ k, v = (m.peek k).value) ∨ (∃ f ∈ m.frames, v ∈ f.items.toList) ∨
    (∃ k < m.frames.length, v = .list (m.resultsRef k)) ∨ outside v

/-- What a machine or its user can reach. -/
def Live (outside : Value → Prop) (m : Machine) (v : Value) : Prop :=
  ∃ r, m.Root outside r ∧ m.heap.Reaches r v

/-- Nothing that is alive holds itself. -/
def Acyclic (outside : Value → Prop) (m : Machine) : Prop :=
  ∀ v, m.Live outside v → ¬m.heap.OnCycle v

/-- An instruction stores a value to a container that the value is or reaches. -/
def StoresCycle (m : Machine) (i : Instruction) : Prop :=
  ∃ c x, m.Stores i c x ∧ m.store.Reaches x c

instance (m : Machine) (i : Instruction) : Decidable (m.StoresCycle i) :=
  decidable_of_iff (∃ r ∈ (Opcode.ofByte? i.opcode).bind (Opcode.stored? · i),
    m.store.Reaches (m.peek r.toNat).value (m.peek i.dest.toNat).value) <| by
    simp only [Option.mem_def, Option.bind_eq_some_iff]
    constructor
    · rintro ⟨r, ⟨op, hop, hr⟩, hreach⟩
      exact ⟨_, _, ⟨op, r, hop, hr, rfl, rfl⟩, hreach⟩
    · rintro ⟨_, _, ⟨op, r, hop, hr, rfl, rfl⟩, hreach⟩
      exact ⟨r, ⟨op, hop, hr⟩, hreach⟩

/-- All that is alive can be written and compared. -/
def Unfolds (outside : Value → Prop) (m : Machine) : Prop :=
  ∀ v, m.Live outside v → m.store.Has v → m.store.Unfolds v

section

variable {outside : Value → Prop} {s : Setting} {m n : Machine} {i : Instruction} {pc next : Nat}
  {v w : Value}

/-- What the heap has besides the store are the lists of iterations. -/
theorem exists_frame_of_mem_children (hv : ¬m.store.Has v) (hw : w ∈ m.heap.children v) :
    ∃ f ∈ m.frames, w ∈ f.results.toList := by
  have hhas := Store.has_of_mem_children hw
  cases v with
  | list a =>
    have hle : m.store.lists.size ≤ a.index := Nat.not_lt.1 hv
    have hlt : a.index - m.store.lists.size < m.frames.length := by
      have : a.index < m.store.lists.size + m.frames.length := by
        simpa [Store.Has, heap] using hhas
      omega
    have ha : a = m.resultsRef (a.index - m.store.lists.size) := by
      rw [resultsRef, Nat.add_sub_cancel' hle]
    rw [ha, Store.children, items_heap hlt] at hw
    exact ⟨_, List.getElem_mem hlt, hw⟩
  | record a => exact absurd hhas hv
  | _ => cases hw

theorem Held.onCycle_heap (h : m.Held) : m.heap.OnCycle v ↔ m.store.OnCycle v := by
  refine m.extends_heap.onCycle_iff h.store fun v w hv hw => ?_
  obtain ⟨f, hf, hw⟩ := exists_frame_of_mem_children hv hw
  exact h.results f hf w hw

theorem Live.trans (h : m.Live outside v) (hr : m.heap.Reaches v w) : m.Live outside w := by
  obtain ⟨r, hroot, hv⟩ := h
  exact ⟨r, hroot, hv.trans hr⟩

theorem confined_live (outside : Value → Prop) (m : Machine) :
    m.Confined (m.store.Among (m.Live outside)) where
  store := Store.sealed_among fun v w hv hw => by
    rw [← m.extends_heap.children (Store.has_of_mem_children hw)] at hw
    exact hv.trans (Store.reaches_child hw)
  registers k _ _ := ⟨_, .inl ⟨k, rfl⟩, .refl _⟩
  items f hf v hv _ _ := ⟨v, .inr (.inl ⟨f, hf, hv⟩), .refl v⟩
  results f hf v hv _ _ := by
    obtain ⟨k, hk, rfl⟩ := List.getElem_of_mem hf
    refine ⟨.list (m.resultsRef k), .inr (.inr (.inl ⟨k, hk, rfl⟩)), .item ?_ (.refl v)⟩
    rwa [items_heap hk]

/-- What is alive in a machine is of every sort that the machine is confined to. -/
theorem Confined.of_live {P : Value → Prop} (h : m.Confined P) (hm : m.Held)
    (hout : ∀ v, outside v → m.store.Has v ∧ P v) (hlive : m.Live outside v)
    (hv : m.store.Has v) : P v := by
  obtain ⟨r, hroot, hr⟩ := hlive
  have hreach {r : Value} (hhas : m.store.Has r) (hP : P r) (hr : m.heap.Reaches r v) : P v :=
    h.store.reaches ((m.extends_heap.reaches_iff hm.store hhas).1 hr) hP
  rcases hroot with ⟨k, rfl⟩ | ⟨f, hf, hmem⟩ | ⟨k, hk, rfl⟩ | hout'
  · exact hreach (hm.registers k) (h.registers k) hr
  · exact hreach (hm.items f hf r hmem) (h.items f hf r hmem) hr
  · -- the list of an iteration is not in the store, so the way goes on to something in it
    cases hr with
    | refl =>
      have hlt : m.store.lists.size + k < m.store.lists.size := hv
      omega
    | item hmem hr =>
      rw [items_heap hk] at hmem
      have hf := List.getElem_mem hk
      exact hreach (hm.results _ hf _ hmem) (h.results _ hf _ hmem) hr
  · exact hreach (hout r hout').1 (hout r hout').2 hr

/-! ## Steps -/

/-- A container that is alive after a step was alive before it, if it existed. -/
theorem Live.of_advance (hm : m.Held) (hs : s.functions.Builds)
    (hout : ∀ v, outside v → m.store.Has v) (hadvance : Advance s pc i m next n)
    (hlive : n.Live outside v) (hv : m.store.Has v) (hcontainer : v.isContainer = true) :
    m.Live outside v := by
  have hkeep {v : Value} : m.store.Has v → n.store.Has v := hm.has_advance hs hadvance
  have hconfined := (confined_live outside m).advance hm hs hadvance
  refine hconfined.of_live (hm.advance hs.safe hadvance) (fun w hw => ?_) hlive (hkeep hv)
    hcontainer hv
  exact ⟨hkeep (hout w hw), fun _ _ => ⟨w, .inr (.inr (.inr hw)), .refl w⟩⟩

/-- An instruction that stores makes one container hold one more value, at most. -/
theorem Advance.mem_children_of_stores {c x : Value} (h : Advance s pc i m next n)
    (hstores : m.Stores i c x) (hw : w ∈ n.store.children v) :
    w ∈ m.store.children v ∨ (v = c ∧ w = x) := by
  rcases (h.of_stores hstores).2 with ⟨a, rfl, hstore⟩ | ⟨a, key, rfl, hstore⟩
  · rw [hstore] at hw
    exact Store.mem_children_push hw
  · rw [hstore] at hw
    exact Store.mem_children_setField hw

/-- After a step, a cycle is one that was there before, or the instruction has stored a value to a
container that the value reaches. -/
theorem onCycle_of_advance (hm : m.Held) (hs : s.functions.Builds) (h : Advance s pc i m next n)
    (hcycle : n.store.OnCycle v) : m.store.OnCycle v ∨ m.StoresCycle i := by
  by_cases hstores : ∃ c x, m.Stores i c x
  · obtain ⟨c, x, hstores⟩ := hstores
    have hlink := fun v w => h.mem_children_of_stores (v := v) (w := w) hstores
    exact (Store.onCycle_of_link hlink hcycle).imp_right fun hreach => ⟨c, x, hstores, hreach⟩
  · push Not at hstores
    exact .inl ((((h.adds hstores).grows hm hs).onCycle_iff hm.store).1 hcycle)

/-- Storing a value to a container that it reaches closes a cycle through the destination. -/
theorem StoresCycle.onCycle (hm : m.Held) (h : Advance s pc i m next n) (hcycle : m.StoresCycle i) :
    n.store.OnCycle (n.peek i.dest.toNat).value := by
  obtain ⟨c, x, hstores, hreach⟩ := hcycle
  obtain ⟨hdest, hstore⟩ := h.of_stores hstores
  have hhas : m.store.Has c := by
    obtain ⟨op, r, -, -, hc, -⟩ := hstores
    exact hc ▸ hm.registers _
  rcases hstore with ⟨a, rfl, hstore⟩ | ⟨a, key, rfl, hstore⟩
  · rw [hdest, hstore]
    exact Store.onCycle_push hhas hreach
  · rw [hdest, hstore]
    exact Store.onCycle_setField hhas key hreach

theorem Acyclic.advance_iff (h : m.Acyclic outside) (hm : m.Held) (hs : s.functions.Builds)
    (hout : ∀ v, outside v → m.store.Has v) (hadvance : Advance s pc i m next n) :
    n.Acyclic outside ↔ ¬m.StoresCycle i := by
  have hn := hm.advance hs.safe hadvance
  constructor
  · intro hacyclic hcycle
    refine hacyclic _ ⟨_, .inl ⟨i.dest.toNat, rfl⟩, .refl _⟩ (hn.onCycle_heap.2 ?_)
    exact hcycle.onCycle hm hadvance
  · intro hnone v hlive hcycle
    have hbefore :=
      (onCycle_of_advance hm hs hadvance (hn.onCycle_heap.1 hcycle)).resolve_right hnone
    have hlive := hlive.of_advance hm hs hout hadvance hbefore.has hbefore.isContainer
    exact h v hlive (hm.onCycle_heap.2 hbefore)

/-! ## Runs -/

/-- Up to the first instruction that stores a value to a container which it reaches, nothing that is
alive holds itself. -/
theorem Acyclic.moves_iff (hs : s.functions.Builds) (k pc : Nat) (h : m.Acyclic outside)
    (hm : m.Held) (hout : ∀ v, outside v → m.store.Has v) :
    ((∀ e ∈ moves s k pc m, ¬e.before.StoresCycle e.instruction) ↔
      ∀ e ∈ moves s k pc m, e.after.Acyclic outside) ∧
    ((∀ e ∈ moves s k pc m, ¬e.before.StoresCycle e.instruction) →
      (∀ e ∈ moves s k pc m, e.before.Acyclic outside) ∧ (runFrom s k pc m).2.Acyclic outside) := by
  refine moves_induction (C := fun m trace n => m.Acyclic outside → m.Held →
    (∀ v, outside v → m.store.Has v) →
    ((∀ e ∈ trace, ¬e.before.StoresCycle e.instruction) ↔ ∀ e ∈ trace, e.after.Acyclic outside) ∧
      ((∀ e ∈ trace, ¬e.before.StoresCycle e.instruction) →
        (∀ e ∈ trace, e.before.Acyclic outside) ∧ n.Acyclic outside)) ?_ ?_ ?_ k pc m h hm hout
  · exact fun m h _ _ => ⟨by simp, fun _ => ⟨nofun, h⟩⟩
  · exact fun m h _ _ => ⟨by simp, fun _ => ⟨nofun, h⟩⟩
  · intro pc i m next m' trace n _ hadvance hrest h hm hout
    have hm := hm.tick
    have hstep := Acyclic.advance_iff (m := m.tick) h hm hs hout hadvance
    have hrest := fun hafter => hrest hafter (hm.advance hs.safe hadvance) fun v hv =>
      hm.has_advance hs hadvance (hout v hv)
    simp only [List.forall_mem_cons]
    refine ⟨⟨fun ⟨hfirst, hlater⟩ => ?_, fun ⟨hfirst, hlater⟩ => ?_⟩, fun ⟨hfirst, hlater⟩ => ?_⟩
    · have hafter := hstep.2 hfirst
      exact ⟨hafter, (hrest hafter).1.1 hlater⟩
    · exact ⟨hstep.1 hfirst, (hrest hfirst).1.2 hlater⟩
    · obtain ⟨hbefore, hfinal⟩ := (hrest (hstep.2 hfirst)).2 hlater
      exact ⟨⟨h, hbefore⟩, hfinal⟩

/-! ## What acyclic machines show -/

theorem Acyclic.not_onCycle (h : m.Acyclic outside) (hm : m.Held) (hlive : m.Live outside v)
    (hv : m.store.Has v) (hr : m.store.Reaches v w) : ¬m.store.OnCycle w := by
  intro hcycle
  have hr' := (m.extends_heap.reaches_iff hm.store hv).2 hr
  exact h w (hlive.trans hr') (hm.onCycle_heap.2 hcycle)

/-- Nothing that is alive holds itself exactly if all that is alive can be shown. -/
theorem Held.acyclic_iff (hm : m.Held) : m.Acyclic outside ↔ m.Unfolds outside := by
  constructor
  · intro h v hlive hv
    rw [Store.unfolds_iff, Store.isSome_datum?_iff hm.store hv]
    exact fun w hr => h.not_onCycle hm hlive hv hr
  · intro h v hlive hcycle
    rw [hm.onCycle_heap] at hcycle
    have htree := Store.unfolds_iff.1 (h v hlive hcycle.has)
    exact Store.not_onCycle_of_datumWithin htree hcycle

/-! ## Inputs and outputs -/

/-- A machine that was loaded with an input reaches what the input reaches. -/
theorem acyclic_loaded {p : Packet} {input : RecordRef} {store : Store}
    (hm : (p.loaded input store).Held) (hinput : store.Has (.record input))
    (h : ∀ v, store.Reaches (.record input) v → ¬store.OnCycle v) :
    (p.loaded input store).Acyclic (· = .record input) := by
  have hsealed : store.Sealed (store.Among (store.Reaches (.record input))) :=
    Store.sealed_among fun v w hv hw => hv.trans (Store.reaches_child hw)
  have hconfined : (p.loaded input store).Confined _ :=
    (confined_start p hsealed).loadFields (store.record input)
      (fun v hv _ _ => Store.reaches_child (v := .record input) hv) p.contract.inputs
  intro v hlive hcycle
  rw [hm.onCycle_heap, Config.loaded_store] at hcycle
  have hv : (p.loaded input store).store.Has v := by
    rw [Config.loaded_store]
    exact hcycle.has
  refine h v (hconfined.of_live hm ?_ hlive hv hcycle.isContainer hcycle.has) hcycle
  rintro _ rfl
  rw [Config.loaded_store]
  exact ⟨hinput, fun _ _ => .refl _⟩

theorem exists_register_of_mem_outputFields {p : Packet} (hv : v ∈ (m.outputFields p).values) :
    ∃ k, v = (m.peek k).value := by
  have hmem := mem_values_ofList hv
  rw [List.map_map] at hmem
  obtain ⟨f, -, rfl⟩ := List.mem_map.1 hmem
  exact ⟨f.register.toNat, rfl⟩

theorem Acyclic.unfolds_output (h : m.Acyclic outside) (hm : m.Held) (p : Packet) :
    (m.output p).2.Unfolds (.record (m.output p).1.record) := by
  unfold output
  dsimp only
  split
  · next ref href =>
      refine (hm.acyclic_iff.1 h) _ ⟨_, .inl ⟨p.outputRegister, href.symm⟩, .refl _⟩ ?_
      exact href ▸ hm.registers p.outputRegister
  · have hhas : ∀ v ∈ (m.outputFields p).values, m.store.Has v := by
      intro v hv
      obtain ⟨k, rfl⟩ := exists_register_of_mem_outputFields hv
      exact hm.registers k
    have hgrows : m.store.Grows (m.store.newRecord (m.outputFields p)).2 := .record .refl hhas
    rw [Store.unfolds_iff, Store.isSome_datum?_iff (hgrows.closed hm.store)
      (m.store.has_newRecord_self _)]
    intro w hr
    rw [hgrows.onCycle_iff hm.store]
    -- the new record is on no cycle, and what it reaches is alive
    cases hr with
    | refl =>
      intro hcycle
      exact absurd hcycle.has (by simp [Store.Has, Store.newRecord])
    | @field _ f _ hmem hr =>
      have hfields : (m.store.newRecord (m.outputFields p)).2.record
          (m.store.newRecord (m.outputFields p)).1 = m.outputFields p :=
        m.store.record_newRecord_self _
      rw [hfields] at hmem
      have hvalue : f.2 ∈ (m.outputFields p).values := List.mem_map_of_mem hmem
      have hr := (hgrows.extends.reaches_iff hm.store (hhas _ hvalue)).1 hr
      obtain ⟨k, hk⟩ := exists_register_of_mem_outputFields hvalue
      exact h.not_onCycle hm ⟨_, .inl ⟨k, hk⟩, .refl _⟩ (hhas _ hvalue) hr

end

/-! ## Where cycles come from -/

/-- What a run has to do with cycles. -/
structure CyclesFromStores (s : Setting) (outside : Value → Prop) (k : Nat)
    (m : Machine) : Prop where
  /-- An instruction closes a cycle exactly if it stores a value to a container that the value is or
  reaches. -/
  step : ∀ e ∈ moves s k 0 m, e.before.Acyclic outside →
    (e.after.Acyclic outside ↔ ¬e.before.StoresCycle e.instruction)
  /-- There is a cycle at some time in a run exactly if some instruction stores in this way. -/
  run : m.Acyclic outside →
    ((∀ e ∈ moves s k 0 m, ¬e.before.StoresCycle e.instruction) ↔
      ∀ e ∈ moves s k 0 m, e.after.Acyclic outside)
  /-- Without cycles, and only then, all that is alive can be written and compared. -/
  unfolds : ∀ e ∈ moves s k 0 m, (e.before.Acyclic outside ↔ e.before.Unfolds outside) ∧
    (e.after.Acyclic outside ↔ e.after.Unfolds outside)
  /-- While no instruction stores in this way, all that is alive can be written and compared. -/
  always : m.Acyclic outside →
    (∀ e ∈ moves s k 0 m, ¬e.before.StoresCycle e.instruction) →
    (∀ e ∈ moves s k 0 m, e.before.Unfolds outside ∧ e.after.Unfolds outside) ∧
      (runFrom s k 0 m).2.Unfolds outside

theorem Session.cyclesFromStores {s : Setting} {outside : Value → Prop} {m : Machine}
    (h : Session s m) (hs : s.functions.Builds) (hout : ∀ v, outside v → m.store.Has v) (k : Nat) :
    CyclesFromStores s outside k m := by
  have hm := h.held hs.safe
  have hfinal : (runFrom s k 0 m).2.Held := (h.run k).held hs.safe
  -- what a run keeps: all values exist, those outside too
  have hmoves := forall_mem_moves (s := s) (P := fun m => m.Held ∧ ∀ v, outside v → m.store.Has v)
    (fun _ ⟨hm, hout⟩ => ⟨hm.tick, hout⟩)
    (fun _ ⟨hm, hout⟩ hadvance => ⟨hm.advance hs.safe hadvance, fun v hv =>
      hm.has_advance hs hadvance (hout v hv)⟩) k 0 ⟨hm, hout⟩
  have hunfolds : ∀ e ∈ moves s k 0 m, (e.before.Acyclic outside ↔ e.before.Unfolds outside) ∧
      (e.after.Acyclic outside ↔ e.after.Unfolds outside) := by
    intro e he
    obtain ⟨hbefore, hafter, -⟩ := hmoves e he
    exact ⟨hbefore.1.acyclic_iff, hafter.1.acyclic_iff⟩
  refine ⟨fun e he hacyclic => ?_, fun h => (h.moves_iff hs k 0 hm hout).1, hunfolds,
    fun h hnone => ?_⟩
  · obtain ⟨⟨hbefore, hout⟩, -, next, hadvance⟩ := hmoves e he
    exact hacyclic.advance_iff hbefore hs hout hadvance
  · obtain ⟨hiff, hall⟩ := h.moves_iff hs k 0 hm hout
    obtain ⟨hbefore, hlast⟩ := hall hnone
    exact ⟨fun e he => ⟨(hunfolds e he).1.1 (hbefore e he),
      (hunfolds e he).2.1 (hiff.1 hnone e he)⟩, hfinal.acyclic_iff.1 hlast⟩

end Machine

/-- An execution on an input without cycles, which never stores a value to a container that the
value reaches, works on what can be written and compared, and gives such an output. -/
theorem Config.unfolds_of_execute {c : Config} {p : Packet} {functions : FunctionTable}
    {timestamp : String} {input : RecordRef} {store : Store} (hs : functions.Builds)
    (hclosed : store.Closed) (hinput : store.Has (.record input))
    (hacyclic : ∀ v, store.Reaches (.record input) v → ¬store.OnCycle v)
    (hnone : ∀ e ∈ c.moves p functions timestamp input store,
      ¬e.before.StoresCycle e.instruction) :
    (∀ e ∈ c.moves p functions timestamp input store,
      e.before.Unfolds (· = .record input) ∧ e.after.Unfolds (· = .record input)) ∧
    ∀ output store', c.execute p functions timestamp input store = (.ok output, store') →
      store'.Unfolds (.record output) := by
  rcases execute_cases c p functions timestamp input store with ⟨hmoves, e, herror⟩ | ⟨hmoves, -⟩
  · rw [hmoves]
    refine ⟨nofun, fun output store' h => ?_⟩
    cases (Prod.mk.inj (herror.symm.trans h)).1
  · rw [hmoves] at hnone ⊢
    have hsession := c.session_loaded p functions timestamp input hclosed
    have hloaded := Machine.acyclic_loaded (hsession.held hs.safe) hinput hacyclic
    have hout : ∀ v, v = .record input → (p.loaded input store).store.Has v := by
      rintro _ rfl
      rwa [loaded_store]
    obtain ⟨hstates, hfinal⟩ :=
      (hsession.cyclesFromStores hs hout (Machine.fuel c.limits)).always hloaded hnone
    refine ⟨hstates, fun output store' h => ?_⟩
    have hheld : (c.final p functions timestamp input store).Held :=
      (hsession.run (Machine.fuel c.limits)).held hs.safe
    obtain ⟨-, -, tags, houtput, -⟩ := execute_eq_ok h
    have hunfolds := (hheld.acyclic_iff.2 hfinal).unfolds_output hheld p
    rwa [houtput] at hunfolds

/-- Cycles come from storing a value to a container that the value is or reaches. From a state
without cycles every other instruction leads to one without cycles, whatever functions it calls and
wherever it stands in iterations, and such a store leads to one with a cycle. So a program that
never stores in this way works on trees, up to sharing, if its inputs have no cycles. -/
theorem Machine.cycles_come_from_stores (p : Packet) (functions : FunctionTable)
    (hfunctions : functions = .standard ∨ functions = .none) (timestamp : String) :
    (∀ (limits : Limits) (m : Machine) (outside : Value → Prop) (k : Nat),
      Session ⟨p, functions, timestamp, limits⟩ m → (∀ v, outside v → m.store.Has v) →
        CyclesFromStores ⟨p, functions, timestamp, limits⟩ outside k m) ∧
    ∀ (c : Config) (input : RecordRef) (store : Store), store.Closed → store.Has (.record input) →
      (∀ v, store.Reaches (.record input) v → ¬store.OnCycle v) →
      (∀ e ∈ c.moves p functions timestamp input store, ¬e.before.StoresCycle e.instruction) →
      (∀ e ∈ c.moves p functions timestamp input store,
        e.before.Unfolds (· = .record input) ∧ e.after.Unfolds (· = .record input)) ∧
      ∀ output store', c.execute p functions timestamp input store = (.ok output, store') →
        store'.Unfolds (.record output) := by
  have hs : functions.Builds := by
    rcases hfunctions with rfl | rfl
    · exact FunctionTable.builds_standard
    · exact FunctionTable.builds_none
  constructor
  · intro limits m outside k hsession hout
    exact hsession.cyclesFromStores hs hout k
  · intro c input store hclosed hinput hacyclic hnone
    exact Config.unfolds_of_execute hs hclosed hinput hacyclic hnone

/-- Puts a list into a new one twice, and then the new one into the list. -/
def Packet.knotting : Packet where
  contract := { size := 2, inputs := [⟨"items", .list, 0, 0⟩], outputs := [⟨"twice", .list, 0, 1⟩] }
  code := #[
    Opcode.newList.on 0 1 0 0,
    Opcode.append.on 0 1 0 0,
    Opcode.append.on 0 1 0 0,
    Opcode.append.on 0 0 1 0]

/-- The program without its last instruction. -/
def Packet.sharing : Packet :=
  { Packet.knotting with code := Packet.knotting.code.pop }

/-- A list may be in another twice, and the last instruction of the first program closes a cycle. -/
theorem Machine.knotting_closes_cycle :
    (let s : Setting := ⟨.knotting, .standard, "", {}⟩
      let m := Packet.loaded .knotting ⟨0⟩ .withOwner
      (moves s 4 0 m).length = 4 ∧ (∀ e ∈ moves s 3 0 m, e.after.Acyclic (· = .record ⟨0⟩)) ∧
      ¬∀ e ∈ moves s 4 0 m, e.after.Acyclic (· = .record ⟨0⟩)) ∧
    ∃ after : Store, Config.execute {} .sharing .standard "" ⟨0⟩ .withOwner = (.ok ⟨2⟩, after) ∧
      after.items ⟨1⟩ = #[.list ⟨0⟩, .list ⟨0⟩] ∧ after.Unfolds (.record ⟨2⟩) := by
  have hclosed : Store.withOwner.Closed := by decide
  have hcycle := Store.not_onCycle_of_forall_containers (s := .withOwner) (by decide)
  have hsession := Config.session_loaded {} .knotting .standard "" ⟨0⟩ hclosed
  have hstart := acyclic_loaded (hsession.held FunctionTable.safe_standard) (by decide)
    fun v _ => hcycle v
  obtain ⟨hruns, -⟩ := cycles_come_from_stores .knotting .standard (.inl rfl) ""
  obtain ⟨-, hexecutions⟩ := cycles_come_from_stores .sharing .standard (.inl rfl) ""
  have hrun := fun k =>
    (hruns {} _ (· = .record ⟨0⟩) k hsession (by rintro _ rfl; decide)).run hstart
  refine ⟨⟨rfl, (hrun 3).1 (by decide), fun h => ?_⟩, _, rfl, rfl, ?_⟩
  · exact absurd ((hrun 4).2 h) (by decide)
  · have hshared := hexecutions {} ⟨0⟩ .withOwner hclosed (by decide) (fun v _ =>
      hcycle v) (by decide)
    exact hshared.2 _ _ rfl

end TagMachine
