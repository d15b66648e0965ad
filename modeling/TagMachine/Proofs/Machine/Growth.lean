import TagMachine.Proofs.Flow.Policy
import TagMachine.Proofs.Machine.Confined
import TagMachine.Proofs.Store.Cycles
import TagMachine.Proofs.Store.Trees

set_option autoImplicit false

/-! # Containers only grow

What a run does to the containers that exist before it, the caller's among them. Three operations
change a container: the one that appends to a list and the two that set a field. They change the one
that their destination holds, and nothing is ever removed: lists get longer at the end, and records
get further names at the end (`Machine.containers_only_grow`).

A machine that cannot reach a container cannot change it, so an input record that does not hold
itself stays as it is.
-/

namespace TagMachine

/-! ## Stores that grow -/

namespace Store

variable {s t u : Store}

/-- Every container of the first store is in the second, with further elements or names at the
end. -/
structure Prolongs (s t : Store) : Prop where
  lists : ∀ a : ListRef, a.index < s.lists.size →
    a.index < t.lists.size ∧ (s.items a).toList <+: (t.items a).toList
  records : ∀ a : RecordRef, a.index < s.records.size →
    a.index < t.records.size ∧ (s.record a).keys <+: (t.record a).keys

theorem Prolongs.trans (h : s.Prolongs t) (h' : t.Prolongs u) : s.Prolongs u where
  lists a ha := by
    obtain ⟨hlt, hprefix⟩ := h.lists a ha
    obtain ⟨hlt', hprefix'⟩ := h'.lists a hlt
    exact ⟨hlt', hprefix.trans hprefix'⟩
  records a ha := by
    obtain ⟨hlt, hprefix⟩ := h.records a ha
    obtain ⟨hlt', hprefix'⟩ := h'.records a hlt
    exact ⟨hlt', hprefix.trans hprefix'⟩

theorem Extends.prolongs (h : s.Extends t) : s.Prolongs t where
  lists a ha := by
    obtain ⟨hlt, heq⟩ := h.lists a ha trivial
    exact ⟨hlt, by rw [heq]⟩
  records a ha := by
    obtain ⟨hlt, heq⟩ := h.records a ha trivial
    exact ⟨hlt, by rw [heq]⟩

theorem Prolongs.has (h : s.Prolongs t) {v : Value} (hv : s.Has v) : t.Has v := by
  cases v with
  | list a => exact (h.lists a hv).1
  | record a => exact (h.records a hv).1
  | _ => trivial

theorem Prolongs.refl (s : Store) : s.Prolongs s := Extends.prolongs (.refl _ s)

theorem prolongs_push (s : Store) (a : ListRef) (x : Value) : s.Prolongs (s.push a x) where
  lists b hb := by
    by_cases hba : b = a
    · subst hba
      refine ⟨by simpa [push] using hb, ?_⟩
      rw [items_push_self s hb, Array.toList_push]
      exact List.prefix_append _ _
    · obtain ⟨hlt, heq⟩ := (sameOn_push s a x).lists b hb (by simpa using hba)
      exact ⟨hlt, by rw [heq]⟩
  records b hb := ⟨hb, List.prefix_refl _⟩

theorem prolongs_setField (s : Store) (a : RecordRef) (key : String) (x : Value) :
    s.Prolongs (s.setField a key x) where
  lists b hb := ⟨hb, List.prefix_refl _⟩
  records b hb := by
    by_cases hba : b = a
    · subst hba
      refine ⟨by simpa [setField] using hb, ?_⟩
      rw [record_setField_self s hb]
      -- a name that is there keeps its place, a new one comes last
      show (s.record b).fields.map Prod.fst <+:
        (TagMachine.setField key x (s.record b).fields).map Prod.fst
      rw [keys_setField]
      split
      · exact List.prefix_refl _
      · exact List.prefix_append _ _
    · obtain ⟨hlt, heq⟩ := (sameOn_setField s a key x).records b hb (by simpa using hba)
      exact ⟨hlt, by rw [heq]⟩

end Store

namespace Machine

/-! ## Steps -/

/-- An instruction puts a value into a container: its destination holds the container, and another
register the value. -/
def Stores (m : Machine) (i : Instruction) (container value : Value) : Prop :=
  ∃ op r, Opcode.ofByte? i.opcode = some op ∧ op.stored? i = some r ∧
    (m.peek i.dest.toNat).value = container ∧ (m.peek r.toNat).value = value

section

variable {s : Setting} {m n : Machine} {i : Instruction} {pc next : Nat} {c x : Value}

/-- What an instruction that puts a value into a container does: the destination holds the container
still. -/
theorem Advance.of_stores (h : Advance s pc i m next n) (hstores : m.Stores i c x) :
    (n.peek i.dest.toNat).value = c ∧ ((∃ a, c = .list a ∧ n.store = m.store.push a x) ∨
      ∃ a key, c = .record a ∧ n.store = m.store.setField a key x) := by
  obtain ⟨op, r, hbyte, hstored, rfl, rfl⟩ := hstores
  cases h with
  | @plain op' _ hbyte' _ happly =>
    obtain rfl : op = op' := Option.some.inj (hbyte.symm.trans hbyte')
    cases op with
    | append =>
      obtain rfl := Option.some.inj hstored
      obtain ⟨a, hk, ha, rfl⟩ := (yields_append s m i).of_eq_ok happly
      rw [ha, peek_withStore_put_self hk]
      exact ⟨rfl, .inl ⟨a, rfl, rfl⟩⟩
    | setField | setNamed =>
      obtain rfl := Option.some.inj hstored
      obtain ⟨key, -, happly⟩ := bind_eq_ok.1 happly
      obtain ⟨a, hk, ha, rfl⟩ := (m.yields_setFieldOf i _).of_eq_ok happly
      rw [ha, peek_withStore_put_self hk]
      exact ⟨rfl, .inr ⟨a, key, rfl, rfl⟩⟩
    | _ => cases hstored
  | @jump op' _ hbyte' hjump =>
    obtain rfl : op = op' := Option.some.inj (hbyte.symm.trans hbyte')
    cases op with
    | append | setField | setNamed => cases hjump
    | _ => cases hstored
  | skip hbyte' | enter hbyte' | again hbyte' | leave hbyte' =>
    obtain rfl := Option.some.inj (hbyte.symm.trans hbyte')
    cases hstored

/-- What can become of a store without a container being changed. The values of a new list or record
exist if those of the machine do. -/
inductive Adds (s : Setting) (m : Machine) : Store → Prop
  | same : Adds s m m.store
  | list {xs : Array Value} (hxs : m.Held → ∀ v ∈ xs.toList, m.store.Has v) :
      Adds s m (m.store.newList xs).2
  | record {r : Record} (hr : m.Held → ∀ v ∈ r.values, m.store.Has v) :
      Adds s m (m.store.newRecord r).2
  | call {j : Nat} {a : RecordRef} {id : UInt16} {v : Value} {store : Store}
      (ha : (m.peek j).value = .record a)
      (hcall : s.functions.call id ⟨s.timestamp, m.executed⟩ a m.store = .ok (v, store)) :
      Adds s m store
  | callValue {j : Nat} {id : UInt16} {v : Value} {store : Store}
      (hcall : s.functions.call id ⟨s.timestamp, m.executed⟩
        (m.store.newRecord (Record.empty.set "value" (m.peek j).value)).1
        (m.store.newRecord (Record.empty.set "value" (m.peek j).value)).2 = .ok (v, store)) :
      Adds s m store

/-- All other instructions change no container. -/
theorem Advance.adds (h : Advance s pc i m next n) (hnone : ∀ c x, ¬m.Stores i c x) :
    Adds s m n.store := by
  have hclose (fs : List Frame) (f : Frame) {results : Array Value}
      (hresults : m.Held → ∀ v ∈ results.toList, m.store.Has v) :
      Adds s m ((m.withFrames fs).close f results).store := by
    unfold close finish
    split
    · exact .same
    · exact .list hresults
  cases h with
  | plain hbyte _ happly =>
    cases effect_of_apply happly with
    | same => exact .same
    | put _ _ _ => exact .same
    | tags _ _ _ => exact .same
    | list _ _ => exact .list (by simp)
    | record _ _ => exact .record (by simp [Record.empty, Record.values])
    | named _ _ => exact .record fun hm => has_of_mem_single hm _ _
    | append hstored _ _ _ => exact absurd ⟨_, _, hbyte, hstored, rfl, rfl⟩ (hnone _ _)
    | setField hstored _ _ _ => exact absurd ⟨_, _, hbyte, hstored, rfl, rfl⟩ (hnone _ _)
    | call _ ha hcall _ => exact .call ha hcall
    | callValue _ hcall _ => exact .callValue hcall
  | jump => exact .same
  | @skip f => exact hclose m.frames f (by simp)
  | enter => exact .same
  | again => exact .same
  | @leave f fs _ hframes _ _ =>
    exact hclose fs f fun hm => hm.carries.gather (hframes ▸ List.mem_cons_self ..)

theorem Adds.extends {store : Store} (h : Adds s m store) (hs : s.functions.Preserves) :
    m.store.Extends store := by
  cases h with
  | same => exact .refl _ _
  | list => exact m.store.extends_newList _
  | record => exact m.store.extends_newRecord _
  | call _ hcall => exact hs _ _ _ _ _ _ hcall
  | callValue hcall => exact (m.store.extends_newRecord _).trans (hs _ _ _ _ _ _ hcall)

theorem Adds.grows {store : Store} (h : Adds s m store) (hm : m.Held) (hs : s.functions.Builds) :
    m.store.Grows store := by
  cases h with
  | same => exact .refl
  | list hxs => exact .list .refl (hxs hm)
  | record hr => exact .record .refl (hr hm)
  | @call j a _ _ _ ha hcall =>
    have hargs := hm.registers j
    rw [ha] at hargs
    exact (hs _ _ _ _ _ _ hm.store hargs hcall).1
  | @callValue j _ _ _ hcall =>
    have hgrows : m.store.Grows _ := .record .refl (has_of_mem_single hm "value" j)
    exact hgrows.trans (hs _ _ _ _ _ _ (hgrows.closed hm.store) (m.store.has_newRecord_self _)
      hcall).1

/-- A step that adds to the store makes containers longer, and only the one that it stores to. -/
theorem Advance.prolongs_of (h : Advance s pc i m next n)
    (hadds : Adds s m n.store → m.store.Extends n.store) :
    m.store.Prolongs n.store ∧ m.store.SameOn (fun v => ∀ x, ¬m.Stores i v x) n.store := by
  by_cases hstores : ∃ c x, m.Stores i c x
  · obtain ⟨c, x, hstores⟩ := hstores
    rcases (h.of_stores hstores).2 with ⟨a, rfl, hstore⟩ | ⟨a, key, rfl, hstore⟩
    · rw [hstore]
      refine ⟨m.store.prolongs_push a x, (m.store.sameOn_push a x).of_imp ?_⟩
      rintro v hv rfl
      exact hv x hstores
    · rw [hstore]
      refine ⟨m.store.prolongs_setField a key x, (m.store.sameOn_setField a key x).of_imp ?_⟩
      rintro v hv rfl
      exact hv x hstores
  · push Not at hstores
    have hext := hadds (h.adds hstores)
    exact ⟨hext.prolongs, hext.of_imp fun _ _ => trivial⟩

theorem Advance.prolongs (hs : s.functions.Preserves) (h : Advance s pc i m next n) :
    m.store.Prolongs n.store ∧ m.store.SameOn (fun v => ∀ x, ¬m.Stores i v x) n.store :=
  h.prolongs_of fun hadds => hadds.extends hs

theorem Held.prolongs (hm : m.Held) (hs : s.functions.Builds) (h : Advance s pc i m next n) :
    m.store.Prolongs n.store ∧ m.store.SameOn (fun v => ∀ x, ¬m.Stores i v x) n.store :=
  h.prolongs_of fun hadds => (hadds.grows hm hs).extends

/-- What exists before a step exists after it. -/
theorem Held.has_advance (hm : m.Held) (hs : s.functions.Builds) (h : Advance s pc i m next n)
    {v : Value} (hv : m.store.Has v) : n.store.Has v :=
  (hm.prolongs hs h).1.has hv

end

/-! ## Runs -/

/-- The containers of a store have only grown, and a container that changed was the one that the
destination of an executed instruction held. -/
structure OnlyGrows (trace : List Move) (s t : Store) : Prop where
  list : ∀ a : ListRef, a.index < s.lists.size →
    a.index < t.lists.size ∧ (s.items a).toList <+: (t.items a).toList
  record : ∀ a : RecordRef, a.index < s.records.size →
    a.index < t.records.size ∧ (s.record a).keys <+: (t.record a).keys
  changed_list : ∀ a : ListRef, a.index < s.lists.size → t.items a ≠ s.items a →
    ∃ e ∈ trace, ∃ x, e.before.Stores e.instruction (.list a) x
  changed_record : ∀ a : RecordRef, a.index < s.records.size → t.record a ≠ s.record a →
    ∃ e ∈ trace, ∃ x, e.before.Stores e.instruction (.record a) x

/-- No move puts something into the container. -/
def NeverStored (trace : List Move) (v : Value) : Prop :=
  ∀ e ∈ trace, ∀ x, ¬e.before.Stores e.instruction v x

theorem onlyGrows_of_prolongs {trace : List Move} {s t : Store} (h : s.Prolongs t)
    (hsame : s.SameOn (NeverStored trace) t) : OnlyGrows trace s t where
  list := h.lists
  record := h.records
  changed_list a ha hne := by
    by_contra hnone
    push Not at hnone
    exact hne (hsame.lists a ha hnone).2
  changed_record a ha hne := by
    by_contra hnone
    push Not at hnone
    exact hne (hsame.records a ha hnone).2

theorem runFrom_prolongs {s : Setting} (hs : s.functions.Preserves) (k pc : Nat) (m : Machine) :
    m.store.Prolongs (runFrom s k pc m).2.store ∧
      m.store.SameOn (NeverStored (moves s k pc m)) (runFrom s k pc m).2.store := by
  refine moves_induction (C := fun m trace n => m.store.Prolongs n.store ∧
    m.store.SameOn (NeverStored trace) n.store) ?_ ?_ ?_ k pc m
  · exact fun m => ⟨.refl m.store, .refl _ _⟩
  · exact fun m => ⟨.refl m.store, .refl _ _⟩
  · intro pc i m next m' trace n _ hadvance ⟨hrest, hsame⟩
    obtain ⟨hstep, hsame'⟩ := hadvance.prolongs hs
    refine ⟨hstep.trans hrest, .trans (hsame'.of_imp ?_) (hsame.of_imp ?_)⟩
    · exact fun v hv => (List.forall_mem_cons.1 hv).1
    · exact fun v hv => (List.forall_mem_cons.1 hv).2

theorem loadFields_store (m : Machine) (input : Record) (fs : List FieldDef) :
    (m.loadFields input fs).2.store = m.store :=
  loadFields_keeps (P := fun n => n.store = m.store) (fun _ _ _ h => h) fs rfl

theorem output_extends (m : Machine) (p : Packet) : m.store.Extends (m.output p).2 := by
  unfold output
  dsimp only
  split
  · exact .refl _ _
  · exact m.store.extends_newRecord _

end Machine

/-! ## Executions -/

namespace Config

variable (c : Config) (p : Packet) (functions : FunctionTable) (timestamp : String)
  (input : RecordRef) (store : Store)

/-- The instructions that an execution executes; none if the input cannot be loaded. -/
def moves : List Move :=
  match (Machine.start p store).loadInputs p (store.record input) with
  | (.error _, _) => []
  | (.ok (), m) => m.moves (c.setting p functions timestamp) (Machine.fuel c.limits) 0

/-- An execution whose input cannot be loaded leaves the store as it is. Any other leaves it as its
run did, with one more record at most. -/
theorem execute_cases :
    (c.moves p functions timestamp input store = [] ∧
      ∃ e, c.execute p functions timestamp input store = (.error e, store)) ∨
    (c.moves p functions timestamp input store =
        (p.loaded input store).moves (c.setting p functions timestamp) (Machine.fuel c.limits) 0 ∧
      (c.final p functions timestamp input store).store.Extends
        (c.execute p functions timestamp input store).2) := by
  have hstore := (Machine.start p store).loadFields_store (store.record input) p.contract.inputs
  unfold moves execute final Packet.loaded Machine.loadInputs
  generalize (Machine.start p store).loadFields (store.record input) p.contract.inputs = loading
    at hstore ⊢
  obtain ⟨result, m⟩ := loading
  cases result with
  | error e => exact .inl ⟨rfl, e, congrArg (Prod.mk _) hstore⟩
  | ok u =>
    refine .inr ⟨rfl, ?_⟩
    dsimp only
    generalize m.run (c.setting p functions timestamp) = ran
    obtain ⟨outcome, n⟩ := ran
    dsimp only
    cases outcome.toExcept with
    | error e => exact .refl _ _
    | ok u =>
      dsimp only
      cases p.contract.validate c.enforcePolicy (n.output p).1.tags with
      | error e => exact n.output_extends p
      | ok u => exact n.output_extends p

theorem loaded_store (p : Packet) (input : RecordRef) (store : Store) :
    (p.loaded input store).store = store :=
  (Machine.start p store).loadFields_store (store.record input) p.contract.inputs

theorem session_loaded {store : Store} (hclosed : store.Closed) :
    Machine.Session (c.setting p functions timestamp) (p.loaded input store) :=
  .loadInputs (.start hclosed) (hclosed (.record input))

theorem onlyGrows_execute (hs : functions.Preserves) :
    Machine.OnlyGrows (c.moves p functions timestamp input store) store
      (c.execute p functions timestamp input store).2 := by
  rcases execute_cases c p functions timestamp input store with
    ⟨hmoves, e, herror⟩ | ⟨hmoves, hext⟩
  · rw [herror]
    exact Machine.onlyGrows_of_prolongs (.refl store) (.refl _ _)
  · obtain ⟨hrun, hsame⟩ := Machine.runFrom_prolongs (s := c.setting p functions timestamp) hs
      (Machine.fuel c.limits) 0 (p.loaded input store)
    rw [loaded_store p input store] at hrun hsame
    rw [hmoves]
    exact Machine.onlyGrows_of_prolongs (hrun.trans hext.prolongs)
      (hsame.trans (hext.of_imp fun _ _ => trivial))

variable {c p functions timestamp input store}

/-- A machine for a packet gets hold of what the fields of the input reach, so an input that is not
among that is never stored to. -/
theorem neverStored_input (hs : functions.Builds) (hclosed : store.Closed)
    (hinput : store.Has (.record input)) (hcycle : ¬store.OnCycle (.record input)) :
    Machine.NeverStored (c.moves p functions timestamp input store) (.record input) := by
  rcases execute_cases c p functions timestamp input store with ⟨hmoves, -⟩ | ⟨hmoves, -⟩
  · rw [hmoves]
    exact nofun
  · have hsealed : store.Sealed (store.Among fun v => ¬store.Reaches v (.record input)) :=
      Store.sealed_among fun v w hv hw hr => hv (Store.reaches_of_child hw hr)
    have hconfined := (Machine.confined_start p hsealed).loadFields (store.record input)
      (fun w hw _ _ hr => hcycle ⟨w, hw, hr⟩) p.contract.inputs
    have hheld := (c.session_loaded p functions timestamp input hclosed).held hs.safe
    rw [hmoves]
    rintro e he x ⟨op, r, -, -, hdest, -⟩
    obtain ⟨-, hbefore, -⟩ := hconfined.moves hheld hs _ _ e he
    have hapart := hbefore.registers e.instruction.dest.toNat
    rw [hdest] at hapart
    exact hapart rfl hinput (.refl _)

end Config

/-- Runs and executions with the standard functions only add to the containers that exist: elements
at the end of lists, and names at the end of records. A container that changed was in the
destination of an executed instruction that stores to it. So an input record that does not hold
itself keeps all of its fields. -/
theorem Machine.containers_only_grow :
    (∀ (s : Setting) (m : Machine) (k : Nat), s.functions = .standard →
      OnlyGrows (moves s k 0 m) m.store (runFrom s k 0 m).2.store) ∧
    ∀ (c : Config) (p : Packet) (timestamp : String) (input : RecordRef) (store : Store),
      OnlyGrows (c.moves p .standard timestamp input store) store
          (c.execute p .standard timestamp input store).2 ∧
        (store.Closed → store.Has (.record input) → ¬store.OnCycle (.record input) →
          (c.execute p .standard timestamp input store).2.record input = store.record input) := by
  refine ⟨fun s m k hs => ?_, fun c p timestamp input store => ?_⟩
  · obtain ⟨hrun, hsame⟩ := runFrom_prolongs (hs ▸ FunctionTable.preserves_standard) k 0 m
    exact onlyGrows_of_prolongs hrun hsame
  · have hgrows := c.onlyGrows_execute p .standard timestamp input store
      FunctionTable.preserves_standard
    refine ⟨hgrows, fun hclosed hinput hcycle => ?_⟩
    by_contra hne
    obtain ⟨e, he, x, hstores⟩ := hgrows.changed_record input hinput hne
    exact Config.neverStored_input FunctionTable.builds_standard hclosed hinput hcycle e
      he x hstores

/-- Puts one input into another, sets a field of it, and fails. -/
def Packet.noting : Packet where
  contract := { size := 3, inputs := [⟨"items", .list, 0, 0⟩, ⟨"owner", .record, 0, 1⟩] }
  constants := #[.string "seen", .boolean true]
  code := #[
    Opcode.append.on 0 0 1 0,
    Opcode.loadConstant.on 0 2 1 0,
    Opcode.setNamed.on 0 1 0 2,
    Opcode.negate.on 0 2 0 0]

/-- An input with a list and a record. -/
def Store.withOwner : Store :=
  ⟨#[#[.integer 1]], #[⟨[("items", .list ⟨0⟩), ("owner", .record ⟨1⟩)]⟩, ⟨[("name", .string "n")]⟩]⟩

/-- What the input holds has grown although the execution failed, and the input is the same. -/
theorem Machine.noting_only_grows :
    Store.withOwner.Closed ∧ Store.withOwner.Has (.record ⟨0⟩) ∧
      ¬Store.withOwner.OnCycle (.record ⟨0⟩) ∧
      ∃ after : Store, Config.execute {} .noting .standard "" ⟨0⟩ .withOwner =
          (.error (.type (.negate .list)), after) ∧
        after.items ⟨0⟩ = #[.integer 1, .record ⟨1⟩] ∧
        (after.record ⟨1⟩).keys = ["name", "seen"] ∧
        OnlyGrows (Config.moves {} .noting .standard "" ⟨0⟩ .withOwner) .withOwner after ∧
        after.record ⟨0⟩ = Store.withOwner.record ⟨0⟩ := by
  have hclosed : Store.withOwner.Closed := by decide
  have hhas : Store.withOwner.Has (.record ⟨0⟩) := by decide
  have hcycle : ¬Store.withOwner.OnCycle (.record ⟨0⟩) := by decide
  obtain ⟨hgrows, hinput⟩ := containers_only_grow.2 {} .noting "" ⟨0⟩ .withOwner
  exact ⟨hclosed, hhas, hcycle, _, rfl, rfl, rfl, hgrows, hinput hclosed hhas hcycle⟩

end TagMachine
