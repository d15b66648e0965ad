import TagMachine.Proofs.Machine.Moves
import TagMachine.Proofs.Machine.Session

set_option autoImplicit false

/-! # Machines that stay among some values

A machine takes values from its registers, from its open iterations and from the containers in them,
and it makes containers. So it never gets hold of a value that lies outside of a sort which nothing
leads out of (`Machine.Confined`). With the right sort this says what a machine can reach: a
container that it cannot reach at the start it cannot reach later.
-/

namespace TagMachine.Machine

/-- All values of a machine are of a sort that nothing leads out of. -/
structure Confined (P : Value → Prop) (m : Machine) : Prop where
  store : m.store.Sealed P
  registers : ∀ k, P (m.peek k).value
  items : ∀ f ∈ m.frames, ∀ v ∈ f.items.toList, P v
  results : ∀ f ∈ m.frames, ∀ v ∈ f.results.toList, P v

section

variable {P : Value → Prop} {s : Setting} {m n : Machine} {op : Opcode} {i : Instruction}
  {pc next : Nat}

theorem Confined.carries (h : m.Confined P) : m.Carries P := ⟨h.registers, h.items, h.results⟩

theorem Carries.confined (h : m.Carries P) (hstore : m.store.Sealed P) : m.Confined P :=
  ⟨hstore, h.registers, h.items, h.results⟩

theorem Confined.put (h : m.Confined P) (k : Nat) {c : Register} (hc : P c.value) :
    (m.put k c).Confined P :=
  (h.carries.put k hc).confined h.store

theorem Confined.withStore (h : m.Confined P) {store : Store} (hstore : store.Sealed P) :
    Confined P { m with store } := ⟨hstore, h.registers, h.items, h.results⟩

theorem Confined.tick (h : m.Confined P) : m.tick.Confined P :=
  ⟨h.store, h.registers, h.items, h.results⟩

theorem Confined.newList (h : m.Confined P) {xs : Array Value} (hxs : ∀ v ∈ xs.toList, P v)
    (k : Nat) (t : TagSet) :
    ({ m with store := (m.store.newList xs).2 }.put k
      ⟨.list (m.store.newList xs).1, t⟩).Confined P :=
  (h.withStore (h.store.newList hxs)).put k (h.store.list_new xs)

theorem Confined.newRecord (h : m.Confined P) {r : Record} (hr : ∀ v ∈ r.values, P v)
    (k : Nat) (t : TagSet) :
    ({ m with store := (m.store.newRecord r).2 }.put k
      ⟨.record (m.store.newRecord r).1, t⟩).Confined P :=
  (h.withStore (h.store.newRecord hr)).put k (h.store.record_new r)

theorem Confined.source (h : m.Confined P) {v : Value} (hv : m.Source v) : P v := by
  cases hv with
  | scalar hscalar => exact h.store.scalar hscalar
  | register k => exact h.registers k
  | child hmem => exact h.store.children (h.registers _) hmem

/-- A record with the value of a register as its only field. -/
theorem Confined.single (h : m.Confined P) (key : String) (k : Nat) :
    ∀ v ∈ (Record.empty.set key (m.peek k).value).values, P v := by
  intro v hv
  rw [Record.mem_values_single hv]
  exact h.registers k

theorem Confined.effect (h : m.Confined P) (hm : m.Held) (hs : s.functions.Builds)
    (heffect : Effect s op i m n) : n.Confined P := by
  cases heffect with
  | same => exact h
  | put _ hv _ => exact h.put _ (h.source hv)
  | tags _ _ _ => exact h.put _ (h.registers _)
  | list _ _ => exact h.newList (by simp) _ _
  | record _ _ => exact h.newRecord (by simp [Record.empty, Record.values]) _ _
  | named _ _ => exact h.newRecord (h.single _ _) _ _
  | append _ _ ha _ =>
    exact (h.withStore (h.store.push _ (h.registers _))).put _ (ha ▸ h.registers i.dest.toNat)
  | setField _ _ ha _ =>
    exact (h.withStore (h.store.setField _ _ (h.registers _))).put _
      (ha ▸ h.registers i.dest.toNat)
  | @call j t a id v store _ ha hcall _ =>
    have hhas := hm.registers j
    have hargs := h.registers j
    rw [ha] at hhas hargs
    obtain ⟨-, -, hgives⟩ := hs _ _ _ _ _ _ hm.store hhas hcall
    obtain ⟨hsealed, hv⟩ := hgives P h.store hargs
    exact (h.withStore hsealed).put _ hv
  | @callValue j t id v store _ hcall _ =>
    have hgrown := hm.newRecord (has_of_mem_single hm "value" j)
    obtain ⟨-, -, hgives⟩ := hs _ _ _ _ _ _ hgrown.store (m.store.has_newRecord_self _) hcall
    obtain ⟨hsealed, hv⟩ := hgives P (h.store.newRecord (h.single "value" j))
      (h.store.record_new _)
    exact (h.withStore hsealed).put _ hv

theorem Confined.close (h : m.Confined P) (f : Frame) {results : Array Value}
    (hresults : ∀ v ∈ results.toList, P v) : (m.close f results).Confined P := by
  unfold Machine.close finish
  split
  · exact h.put _ (h.registers _)
  · exact h.newList hresults _ _

theorem Confined.advance (h : m.Confined P) (hm : m.Held) (hs : s.functions.Builds)
    (hadvance : Advance s pc i m next n) : n.Confined P := by
  cases hadvance with
  | plain _ _ happly => exact h.effect hm hs (effect_of_apply happly)
  | jump => exact h
  | skip => exact h.close _ (by simp)
  | @enter f item _ hplan hitem _ =>
    obtain ⟨source, ref, _, hsource, href, -, hitems, -⟩ := (planned_of_plan hplan).operands
    rw [register_eq_ok hsource] at href
    refine (h.carries.enter (fun v hv => ?_) (planned_of_plan hplan).results hitem).confined h.store
    rw [hitems] at hv
    exact h.store.children (v := .list ref) (href ▸ h.registers i.op1.toNat) hv
  | again _ hframes _ hitem => exact (h.carries.again hframes hitem).confined h.store
  | @leave f fs _ hframes _ _ =>
    have hpopped : (m.withFrames fs).Confined P := (h.carries.leave hframes).confined h.store
    exact hpopped.close f (h.carries.gather (hframes ▸ List.mem_cons_self ..))

theorem confined_start (p : Packet) {store : Store} (hstore : store.Sealed P) :
    (start p store).Confined P where
  store := hstore
  registers k := by
    rw [peek_start]
    exact hstore.scalar rfl
  items := by simp [start]
  results := by simp [start]

theorem Confined.loadFields (h : m.Confined P) (input : Record) (hinput : ∀ v ∈ input.values, P v)
    (fs : List FieldDef) : (m.loadFields input fs).2.Confined P := by
  refine loadFields_keeps (P := fun n => n.Confined P) (fun k name tags hn => ?_) fs h
  rcases input.get_mem_values name with hmem | hnothing
  · exact hn.put k (hinput _ hmem)
  · exact hn.put k (hn.store.scalar (by rw [hnothing]; rfl))

/-- Throughout a run, a machine stays among the values that it starts with. -/
theorem Confined.moves (h : m.Confined P) (hm : m.Held) (hs : s.functions.Builds) (k pc : Nat) :
    ∀ e ∈ moves s k pc m, e.before.Held ∧ e.before.Confined P ∧ e.after.Held ∧
      e.after.Confined P := by
  intro e he
  obtain ⟨⟨hb, hb'⟩, ⟨ha, ha'⟩, -⟩ := forall_mem_moves (P := fun m => m.Held ∧ m.Confined P)
    (fun _ ⟨hm, h⟩ => ⟨hm.tick, h.tick⟩)
    (fun _ ⟨hm, h⟩ hadvance => ⟨hm.advance hs.safe hadvance, h.advance hm hs hadvance⟩) k pc
    ⟨hm, h⟩ e he
  exact ⟨hb, hb', ha, ha'⟩

end

end TagMachine.Machine
