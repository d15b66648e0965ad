import TagMachine.Proofs.Machine.InPlace
import TagMachine.Proofs.Machine.Limits
import TagMachine.Proofs.Machine.Termination

set_option autoImplicit false

/-! # Machines in use

A machine is used by setting registers, loading inputs and running it, any number of times and in
any order. A run may fail and leave iterations open, and the next run starts with them. Between
calls the user may change the containers that it shares with the machine. `Machine.Session` are the
machines that come of this, `Machine.run` observed after any number of instructions included.

What holds of all of them: the scratchpad has its size, every open iteration fits the program that
it was opened in (`Frame.Fits`), there are no more of them than allowed, and every value refers to a
container that exists (`Machine.Held`). Hence the accesses to registers that are not checked are in
range.
-/

namespace TagMachine

/-- The number of results that an iteration of some mode has after as many elements. -/
def IterMode.Collects : IterMode → Nat → Nat → Prop
  | .map, elements, results => results = elements
  | .fold, _, results => results = 0
  | _, elements, results => results ≤ elements

/-- What an open iteration has to do with the program. -/
structure Loop.Fits (s : Setting) (f : Loop) : Prop where
  element : f.element < s.packet.contract.size.toNat
  result : f.result < s.packet.contract.size.toNat
  first : f.first < s.packet.contract.size.toNat
  second : f.second < s.packet.contract.size.toNat
  cursor : f.cursor < f.items.size
  body : f.bodyStart ≤ f.collectAt
  /-- The iteration ends at an instruction that has its registers. -/
  close : ∃ i, s.packet.code[f.collectAt]? = some i ∧ i.opcode = Opcode.collect.byte ∧
    i.dest.toNat = f.result ∧ i.op1.toNat = f.first ∧ i.op2.toNat = f.second

structure Frame.Fits (s : Setting) (f : Frame) : Prop extends f.toLoop.Fits s where
  results : f.mode.Collects f.cursor f.results.size

namespace Machine

/-- What a machine has to do with the program. -/
structure Fits (s : Setting) (m : Machine) : Prop where
  registers : m.registers.size = s.packet.contract.size.toNat
  frames : ∀ f ∈ m.frames, f.Fits s
  depth : ∀ limit ∈ s.limits.depth, m.frames.length ≤ limit.toNat

/-- Every value of a machine refers to a container that exists. -/
structure Held (m : Machine) : Prop where
  store : m.store.Closed
  registers : ∀ k, m.store.Has (m.peek k).value
  items : ∀ f ∈ m.frames, ∀ v ∈ f.items.toList, m.store.Has v
  results : ∀ f ∈ m.frames, ∀ v ∈ f.results.toList, m.store.Has v

/-! ## Fitting the program -/

section Fits

variable {s : Setting} {pc next : Nat} {i : Instruction} {m n : Machine} {f : Frame}

theorem loopFits_of_planned (h : Planned s pc i m f)
    (hsize : m.registers.size = s.packet.contract.size.toNat) {item : Value}
    (hitem : f.items[0]? = some item) : f.toLoop.Fits s := by
  obtain ⟨_, _, close, -, -, hclose, -, -, helement, hresult, hfirst, hsecond⟩ := h.operands
  obtain ⟨hfetch, hbyte⟩ := Option.filter_eq_some_iff.1 hclose
  refine { element := hsize ▸ lt_size_of_slot helement, result := hsize ▸ lt_size_of_slot hresult,
           first := hsize ▸ lt_size_of_slot hfirst, second := hsize ▸ lt_size_of_slot hsecond,
           cursor := ?_, body := ?_, close := ?_ }
  · rw [h.cursor]
    exact (Array.getElem?_eq_some_iff.1 hitem).1
  · rw [h.bodyStart, h.collectAt]
    omega
  · exact ⟨close, hfetch, eq_of_beq hbyte, (slot_eq_ok.1 hresult).2, (slot_eq_ok.1 hfirst).2,
      (slot_eq_ok.1 hsecond).2⟩

theorem collects_zero (mode : IterMode) : mode.Collects 0 0 := by
  cases mode <;> simp [IterMode.Collects]

/-- What a run of the body leaves in the results was there, or is in a register. -/
theorem mem_gather {v : Value} (h : v ∈ (m.gather f).toList) :
    v ∈ f.results.toList ∨ v = (m.peek f.first).value ∨ v = (m.peek f.second).value := by
  unfold gather at h
  split at h
  · rw [Array.toList_push, List.mem_append, List.mem_singleton] at h
    exact h.imp_right .inl
  · exact .inl h
  · split at h
    · rw [Array.toList_push, List.mem_append, List.mem_singleton] at h
      exact h.imp_right .inr
    · exact .inl h

/-- A run of the body adds at most one result, and one for each element where it maps. -/
theorem collects_gather (h : f.mode.Collects f.cursor f.results.size) :
    f.mode.Collects (f.cursor + 1) (m.gather f).size := by
  unfold gather
  cases hmode : f.mode with
  | map =>
    simp only [hmode, IterMode.Collects] at h ⊢
    rw [Array.size_push, h]
  | fold =>
    simp only [hmode, IterMode.Collects] at h ⊢
    exact h
  | filter | mapFilter =>
    simp only [hmode, IterMode.Collects] at h ⊢
    split
    · rw [Array.size_push]
      omega
    · omega

theorem Fits.of_frames (h : m.Fits s) (hsize : n.registers.size = m.registers.size)
    (hframes : n.frames = m.frames) : n.Fits s :=
  ⟨hsize.trans h.registers, hframes ▸ h.frames, hframes ▸ h.depth⟩

/-- The innermost iteration is taken away. -/
theorem Fits.leave {fs : List Frame} (h : m.Fits s) (hframes : m.frames = f :: fs) :
    (m.withFrames fs).Fits s where
  registers := h.registers
  frames := (List.forall_mem_cons.1 (hframes ▸ h.frames)).2
  depth limit hlimit := by
    have hdepth := h.depth limit hlimit
    rw [hframes] at hdepth
    exact Nat.le_of_succ_le hdepth

theorem Fits.advance (h : m.Fits s) (hadvance : Advance s pc i m next n) : n.Fits s := by
  have hsize := hadvance.size_registers
  cases hadvance with
  | plain _ _ happly => exact h.of_frames hsize (apply_frames happly)
  | jump => exact h
  | skip => exact h.of_frames hsize (close_frames ..)
  | @enter f _ _ hplan hitem hallowed =>
    have hplanned := planned_of_plan hplan
    have hresults : f.mode.Collects f.cursor f.results.size := by
      rw [hplanned.cursor, hplanned.results]
      exact collects_zero _
    have hloop := loopFits_of_planned hplanned h.registers hitem
    exact ⟨hsize.trans h.registers, List.forall_mem_cons.2 ⟨⟨hloop, hresults⟩, h.frames⟩,
      (depthAllowed_eq_ok_iff _ _).1 hallowed⟩
  | again _ hframes _ hitem =>
    obtain ⟨hf, hrest⟩ := List.forall_mem_cons.1 (hframes ▸ h.frames)
    have hcursor := (Array.getElem?_eq_some_iff.1 hitem).1
    refine ⟨hsize.trans h.registers, List.forall_mem_cons.2 ⟨?_, hrest⟩, (hframes ▸ h.depth :)⟩
    exact { hf with cursor := hcursor, results := collects_gather hf.results }
  | leave _ hframes _ _ => exact (h.leave hframes).of_frames hsize (close_frames ..)

end Fits

/-! ## Values that exist -/

section Held

variable {s : Setting} {pc next : Nat} {i : Instruction} {m n : Machine}

/-- All values in the registers and the open iterations of a machine are of a sort. -/
structure Carries (P : Value → Prop) (m : Machine) : Prop where
  registers : ∀ k, P (m.peek k).value
  items : ∀ f ∈ m.frames, ∀ v ∈ f.items.toList, P v
  results : ∀ f ∈ m.frames, ∀ v ∈ f.results.toList, P v

namespace Carries

variable {P : Value → Prop} {f : Frame} {fs : List Frame} {item : Value}

theorem put (h : m.Carries P) (k : Nat) {c : Register} (hc : P c.value) :
    (m.put k c).Carries P where
  registers j := by
    rcases peek_put_cases m k c j with heq | heq
    · rw [heq]
      exact hc
    · rw [heq]
      exact h.registers j
  items := h.items
  results := h.results

theorem gather (h : m.Carries P) (hf : f ∈ m.frames) : ∀ v ∈ (m.gather f).toList, P v := by
  intro v hv
  rcases mem_gather hv with hv | rfl | rfl
  · exact h.results f hf v hv
  · exact h.registers _
  · exact h.registers _

/-- An iteration over values of the sort is opened. -/
theorem enter (h : m.Carries P) (hitems : ∀ v ∈ f.items.toList, P v) (hresults : f.results = #[])
    (hitem : f.items[0]? = some item) : ((m.seed f item).withFrames (f :: m.frames)).Carries P where
  registers := (h.put f.element (c := ⟨item, f.sourceTags⟩)
    (hitems item (Array.mem_toList_iff.2 (Array.mem_of_getElem? hitem)))).registers
  items := List.forall_mem_cons.2 ⟨hitems, h.items⟩
  results := List.forall_mem_cons.2 ⟨by simp [hresults], h.results⟩

/-- The innermost iteration goes on. -/
theorem again (h : m.Carries P) (hframes : m.frames = f :: fs) {k : Nat}
    (hitem : f.items[k]? = some item) :
    ((m.seed f item).withFrames
      ({ f with cursor := k, results := m.gather f } :: fs)).Carries P := by
  obtain ⟨hf, hfs⟩ := List.forall_mem_cons.1 (hframes ▸ h.items)
  obtain ⟨-, hresults⟩ := List.forall_mem_cons.1 (hframes ▸ h.results)
  have hseed := h.put f.element (c := ⟨item, f.sourceTags⟩)
    (hf item (Array.mem_toList_iff.2 (Array.mem_of_getElem? hitem)))
  exact ⟨hseed.registers, List.forall_mem_cons.2 ⟨hf, hfs⟩,
    List.forall_mem_cons.2 ⟨h.gather (hframes ▸ List.mem_cons_self ..), hresults⟩⟩

/-- The innermost iteration is taken away. -/
theorem leave (h : m.Carries P) (hframes : m.frames = f :: fs) : (m.withFrames fs).Carries P where
  registers := h.registers
  items := (List.forall_mem_cons.1 (hframes ▸ h.items)).2
  results := (List.forall_mem_cons.1 (hframes ▸ h.results)).2

end Carries

theorem Held.carries (h : m.Held) : m.Carries m.store.Has := ⟨h.registers, h.items, h.results⟩

theorem Carries.held (h : m.Carries m.store.Has) (hstore : m.store.Closed) : m.Held :=
  ⟨hstore, h.registers, h.items, h.results⟩

theorem Held.put (h : m.Held) (k : Nat) {c : Register} (hc : m.store.Has c.value) :
    (m.put k c).Held :=
  (h.carries.put k hc).held h.store

/-- A machine holds what exists in every store that has it. -/
theorem Held.withStore (h : m.Held) {store : Store} (hstore : store.Closed)
    (hkeep : ∀ v, m.store.Has v → store.Has v) : Held { m with store } where
  store := hstore
  registers k := hkeep _ (h.registers k)
  items f hf v hv := hkeep v (h.items f hf v hv)
  results f hf v hv := hkeep v (h.results f hf v hv)

theorem Held.tick (h : m.Held) : m.tick.Held := ⟨h.store, h.registers, h.items, h.results⟩

theorem Held.newList (h : m.Held) {xs : Array Value} (hxs : ∀ v ∈ xs.toList, m.store.Has v)
    (k : Nat) (t : TagSet) :
    ({ m with store := (m.store.newList xs).2 }.put k ⟨.list (m.store.newList xs).1, t⟩).Held := by
  have hext := m.store.extends_newList xs
  have hgrown := h.withStore (Store.closed_newList h.store hxs) fun v hv => hext.has hv
  exact hgrown.put k (m.store.has_newList_self xs)

theorem Held.newRecord (h : m.Held) {r : Record} (hr : ∀ v ∈ r.values, m.store.Has v) :
    Held { m with store := (m.store.newRecord r).2 } := by
  have hext := m.store.extends_newRecord r
  exact h.withStore (Store.closed_newRecord h.store hr) fun v hv => hext.has hv

theorem Held.has_source (h : m.Held) {v : Value} (hv : m.Source v) : m.store.Has v := by
  cases hv with
  | scalar hscalar => exact Store.has_of_scalar hscalar
  | register k => exact h.registers k
  | child hmem => exact h.store _ _ hmem

/-- The values of a record with one field. -/
theorem has_of_mem_single (h : m.Held) (key : String) (k : Nat) :
    ∀ v ∈ (Record.empty.set key (m.peek k).value).values, m.store.Has v := by
  intro v hv
  rw [Record.mem_values_single hv]
  exact h.registers k

theorem Held.effect (h : m.Held) (hs : s.functions.Safe) {op : Opcode}
    (heffect : Effect s op i m n) : n.Held := by
  cases heffect with
  | same => exact h
  | put _ hv _ => exact h.put _ (h.has_source hv)
  | tags => exact h.put _ (h.registers _)
  | list => exact h.newList (by simp) _ _
  | record =>
    exact (h.newRecord (by simp [Record.empty, Record.values])).put _ (m.store.has_newRecord_self _)
  | named => exact (h.newRecord (has_of_mem_single h _ _)).put _ (m.store.has_newRecord_self _)
  | @append r t a _ _ ha _ =>
    have hgrown := h.withStore (Store.closed_push h.store a (h.registers r.toNat)) fun v hv =>
      (Store.has_push a _).2 hv
    exact hgrown.put _ ((Store.has_push a _).2 (ha ▸ h.registers _))
  | @setField r t a key _ _ ha _ =>
    have hgrown := h.withStore (Store.closed_setField h.store a key (h.registers r.toNat))
      fun v hv => (Store.has_setField a key _).2 hv
    exact hgrown.put _ ((Store.has_setField a key _).2 (ha ▸ h.registers _))
  | @call j t a id v store _ ha hcall _ =>
    have hargs := h.registers j
    rw [ha] at hargs
    obtain ⟨hclosed, hv, hkeep⟩ := hs _ _ _ _ _ _ h.store hargs hcall
    exact (h.withStore hclosed hkeep).put _ hv
  | @callValue j t id v store _ hcall _ =>
    have hgrown := h.newRecord (has_of_mem_single h "value" j)
    obtain ⟨hclosed, hv, hkeep⟩ := hs _ _ _ _ _ _ hgrown.store (m.store.has_newRecord_self _) hcall
    exact (hgrown.withStore hclosed hkeep).put _ hv

theorem Held.close (h : m.Held) (f : Frame) {results : Array Value}
    (hresults : ∀ v ∈ results.toList, m.store.Has v) : (m.close f results).Held := by
  unfold Machine.close finish
  split
  · exact h.put _ (h.registers _)
  · exact h.newList hresults _ _

theorem Held.advance (h : m.Held) (hs : s.functions.Safe) (hadvance : Advance s pc i m next n) :
    n.Held := by
  cases hadvance with
  | plain _ _ happly => exact h.effect hs (effect_of_apply happly)
  | jump => exact h
  | skip => exact h.close _ (by simp)
  | @enter f item _ hplan hitem _ =>
    obtain ⟨source, ref, _, hsource, href, -, hitems, -⟩ := (planned_of_plan hplan).operands
    refine (h.carries.enter (fun v hv => ?_) (planned_of_plan hplan).results hitem).held h.store
    rw [hitems] at hv
    exact h.store (.list ref) v hv
  | again _ hframes _ hitem => exact (h.carries.again hframes hitem).held h.store
  | @leave f fs _ hframes _ _ =>
    have hpopped : (m.withFrames fs).Held := (h.carries.leave hframes).held h.store
    exact hpopped.close f (h.carries.gather (hframes ▸ List.mem_cons_self ..))

end Held

/-! ## Runs and sessions -/

/-- The machines that come of using one for a program. -/
inductive Session (s : Setting) : Machine → Prop
  /-- A new machine. -/
  | start {store : Store} (hstore : store.Closed) : Session s (.start s.packet store)
  /-- The user changes containers, or makes new ones. -/
  | change {m : Machine} {store : Store} (h : Session s m) (hstore : store.Closed)
      (hkeep : ∀ v, m.store.Has v → store.Has v) : Session s { m with store }
  /-- The user sets a register. -/
  | setRegister {m n : Machine} {r : UInt16} {c : Register} (h : Session s m)
      (hvalue : m.store.Has c.value) (hset : m.setRegister r c = .ok n) : Session s n
  /-- The user loads inputs, which may fail after some. -/
  | loadInputs {m : Machine} {input : Record} (h : Session s m)
      (hinput : ∀ v ∈ input.values, m.store.Has v) : Session s (m.loadInputs s.packet input).2
  /-- The machine runs, and ends in whatever way or is observed after `k` rounds. -/
  | run {m : Machine} (h : Session s m) (k : Nat) : Session s (runFrom s k 0 m).2

theorem loadFields_keeps {P : Machine → Prop} {input : Record}
    (hput : ∀ {m : Machine} k name tags, P m → P (m.put k ⟨input.get name, tags⟩))
    (fs : List FieldDef) {m : Machine} (h : P m) : P (m.loadFields input fs).2 := by
  induction fs generalizing m with
  | nil => exact h
  | cons f fs ih =>
    unfold loadFields
    cases hset : m.setRegister f.register ⟨input.get f.name, f.tags⟩ with
    | error e => exact h
    | ok n =>
      obtain ⟨-, rfl⟩ := setRegister_eq_ok hset
      exact ih (hput _ _ _ h)

section Session

variable {s : Setting} {m : Machine}

theorem Fits.put (h : m.Fits s) (k : Nat) (c : Register) : (m.put k c).Fits s :=
  h.of_frames (size_put m k c) rfl

theorem Session.fits (h : Session s m) : m.Fits s := by
  induction h with
  | start => exact ⟨by simp [Machine.start], by simp [Machine.start], by simp [Machine.start]⟩
  | change _ _ _ ih => exact ih.of_frames rfl rfl
  | setRegister _ _ hset ih =>
    obtain ⟨-, rfl⟩ := setRegister_eq_ok hset
    exact ih.put _ _
  | loadInputs _ _ ih => exact loadFields_keeps (fun _ _ _ hm => hm.put _ _) _ ih
  | run _ k ih =>
    exact runFrom_keeps (fun _ hm => hm.of_frames rfl rfl)
      (fun _ hm hadvance => hm.advance hadvance) k 0 ih

theorem held_start {store : Store} (hstore : store.Closed) : (start s.packet store).Held where
  store := hstore
  registers k := by
    rw [peek_start]
    trivial
  items := by simp [start]
  results := by simp [start]

/-- With safe functions, all that a machine refers to exists. -/
theorem Session.held (h : Session s m) (hs : s.functions.Safe) : m.Held := by
  induction h with
  | start hstore => exact held_start hstore
  | change _ hstore hkeep ih => exact ih.withStore hstore hkeep
  | setRegister _ hvalue hset ih =>
    obtain ⟨-, rfl⟩ := setRegister_eq_ok hset
    exact ih.put _ hvalue
  | @loadInputs m input _ hinput ih =>
    -- the store does not change, so the values of the input exist throughout
    have hall : (m.loadInputs s.packet input).2.Held ∧
        ∀ v ∈ input.values, (m.loadInputs s.packet input).2.store.Has v := by
      refine loadFields_keeps (P := fun n => n.Held ∧ ∀ v ∈ input.values, n.store.Has v) ?_ _
        ⟨ih, hinput⟩
      rintro n k name tags ⟨hn, hvalues⟩
      refine ⟨hn.put k ?_, hvalues⟩
      rcases input.get_mem_values name with hmem | hnothing
      · exact hvalues _ hmem
      · rw [show (⟨input.get name, tags⟩ : Register).value = .nothing from hnothing]
        trivial
    exact hall.1
  | run _ k ih =>
    exact runFrom_keeps (fun _ hm => hm.tick)
      (fun _ hm hadvance => hm.advance hs hadvance) k 0 ih

end Session

/-! ## What iterations have collected -/

/-- The store with what the open iterations have collected as lists behind its own. -/
def heap (m : Machine) : Store :=
  { m.store with lists := m.store.lists ++ (m.frames.map Frame.results).toArray }

/-- The list of what an open iteration has collected, innermost first. -/
def resultsRef (m : Machine) (k : Nat) : ListRef := ⟨m.store.lists.size + k⟩

section Heap

variable {m : Machine}

theorem extends_heap (m : Machine) : m.store.Extends m.heap where
  lists a ha _ := by
    simp only [heap, Store.items_eq, Array.size_append, Array.getElem?_append_left ha]
    exact ⟨by omega, trivial⟩
  records a ha _ := ⟨ha, rfl⟩

theorem items_heap {k : Nat} (hk : k < m.frames.length) :
    m.heap.items (m.resultsRef k) = m.frames[k].results := by
  simp [heap, resultsRef, Store.items_eq, hk]

end Heap

/-! ## Unchecked accesses -/

theorem Fits.lt_size_of_innermost {s : Setting} {m : Machine} (h : m.Fits s) {k : Nat}
    (hk : m.Innermost k) : k < m.registers.size := by
  obtain ⟨f, fs, hframes, hk⟩ := hk
  have hf := h.frames f (hframes ▸ List.mem_cons_self ..)
  rw [h.registers]
  rcases hk with rfl | rfl | rfl | rfl
  · exact hf.element
  · exact hf.result
  · exact hf.first
  · exact hf.second

/-- A program that negates the elements of a list that holds a number and itself. -/
def failingLoop : Setting where
  packet := {
    contract := { size := 4 }
    constants := #[.integer 5]
    code := #[
      Opcode.newList.on 0 0 0 0,
      Opcode.loadConstant.on 0 1 0 0,
      Opcode.append.on 0 0 1 0,
      Opcode.append.on 0 0 0 0,
      Opcode.iterate.on 0 1 0 1,
      Opcode.negate.on 0 2 1 0,
      Opcode.collect.on 0 3 2 2] }
  functions := .standard
  timestamp := ""
  limits := { depth := some 2 }

end Machine

end TagMachine
