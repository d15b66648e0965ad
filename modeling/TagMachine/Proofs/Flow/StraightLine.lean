import TagMachine.Proofs.Flow.Policy
import TagMachine.Proofs.Machine.Session
import TagMachine.Proofs.Store.Trees

set_option autoImplicit false

/-! # Straight-line programs

A program that neither jumps nor iterates and changes no container is straight. Its tags do not
depend on the input, and what the registers without a tag show does not depend on the input fields
with the tag (`Machine.straight_run_hides`).

The two runs may share containers in different ways, so no one-to-one pairing of containers relates
them. Instead registers are compared by the trees that they show (`Machine.Mirrors`). This works
because the stores only grow: a tree that is shown once is shown to the end.
-/

namespace TagMachine

variable {b : Nat}

/-- The operations of a straight program. Each goes on with the next instruction, changes no
container that exists, and gives its result the tags of the values that it read. -/
def Opcode.isStraight : Opcode → Bool
  | newRecord | newList | newNamed | callValue => true
  | op => op.isLocal

/-- The instruction hands tags on and is straight. It does not call `uuid`, whose results are not
determined by the arguments. -/
def Instruction.Straight (i : Instruction) : Prop :=
  i.tagMode = .propagate ∧ (Opcode.ofByte? i.opcode).all fun op =>
    op.isStraight && (op != .callValue || Builtin.name? i.op1 != some "uuid")

instance : DecidablePred Instruction.Straight := fun _ => inferInstanceAs (Decidable (_ ∧ _))

theorem Opcode.isPlain_of_isStraight {op : Opcode} (h : op.isStraight = true) :
    op.isPlain = true := by
  cases op <;> first | rfl | cases h

/-- A store with an input record that does not contain itself. References lead to containers that
exist, and no record has two fields of one name. -/
structure Store.IsInput (s : Store) (x : RecordRef) : Prop where
  closed : s.Closed
  distinct : s.Distinct
  tree : ∃ d, s.datum? (.record x) = some d

/-- The fields of an input exist and have trees. -/
theorem Store.IsInput.get {s : Store} {x : RecordRef} (h : s.IsInput x) (key : String) :
    s.Has ((s.record x).get key) ∧ ∃ d, s.datum? ((s.record x).get key) = some d := by
  obtain ⟨d, hd⟩ := h.tree
  obtain ⟨-, ds, -, rfl, -⟩ := exists_tree_of_record hd
  rcases get_mem_children (s := s) x key with hmem | hnothing
  · obtain ⟨f, hf, hvalue⟩ := List.mem_map.1 hmem
    obtain ⟨g, -, -, hhas, hg⟩ := exists_of_forall₂_of_mem (datum?_fields h.closed hd) hf
    rw [← hvalue]
    exact ⟨hhas, g.2, hg⟩
  · rw [hnothing]
    exact ⟨has_of_scalar rfl, .nothing, datumWithin_scalar (t := s) rfl _ 0⟩

namespace Machine

variable {s : Setting} {i : Instruction} {m m' n n' : Machine}

theorem Effect.distinct {op : Opcode} (hs : s.functions = .standard) (h : m.store.Distinct)
    (heffect : Effect s op i m n) : n.store.Distinct := by
  have hone : ∀ key v, (Record.empty.set key v).keys.Nodup := fun key v =>
    Record.nodup_keys_set (r := .empty) List.nodup_nil key v
  cases heffect with
  | same | put | tags => exact h
  | list => exact Store.distinct_newList h _
  | record => exact Store.distinct_newRecord h List.nodup_nil
  | named => exact Store.distinct_newRecord h (hone _ _)
  | append => exact Store.distinct_push h _ _
  | setField => exact Store.distinct_setField h _ _ _
  | call _ _ hcall _ =>
    rw [hs] at hcall
    exact FunctionTable.distinct_standard h hcall
  | callValue _ hcall _ =>
    rw [hs] at hcall
    exact FunctionTable.distinct_standard (Store.distinct_newRecord h (hone _ _)) hcall

/-! ## Machines that show the same trees -/

/-- The registers have the same tags and, without the tag, show the same trees. -/
def Shows (b : Nat) (m m' : Machine) : Prop :=
  ∀ k, (m.peek k).Alike b (m.store.trees m'.store) (m'.peek k)

/-- The machines are sound and show the same trees where the tag is missing. -/
structure Mirrors (b : Nat) (m m' : Machine) : Prop where
  held : m.Held
  held' : m'.Held
  distinct : m.store.Distinct
  distinct' : m'.store.Distinct
  size : m.registers.size = m'.registers.size
  executed : m.executed = m'.executed
  registers : Shows b m m'

namespace Mirrors

theorem tick (h : Mirrors b m m') : Mirrors b m.tick m'.tick where
  held := ⟨h.held.store, h.held.registers, h.held.items, h.held.results⟩
  held' := ⟨h.held'.store, h.held'.registers, h.held'.items, h.held'.results⟩
  distinct := h.distinct
  distinct' := h.distinct'
  size := h.size
  executed := congrArg (· + 1) h.executed
  registers := h.registers

theorem coupled (h : Mirrors b m m') : Coupled b (m.store.trees m'.store) (Shows b) m m' where
  stores := Store.trees_matches h.held.store h.held'.store
  equal_eq hvw hvw' := by
    obtain ⟨-, -, d, hv, hw⟩ := Store.trees_rel.1 hvw
    obtain ⟨-, -, e, hv', hw'⟩ := Store.trees_rel.1 hvw'
    rw [Store.equal_eq_of_datum? h.distinct hv hv', Store.equal_eq_of_datum? h.distinct' hw hw']
  registers := h.registers
  same := h.registers
  put k _ _ hcd := alike_put h.size h.registers k hcd

/-! ## New containers -/

/-- A result is written after containers were added. Without the tag both must show the same
tree. -/
theorem writeNew (h : Mirrors b m m') (hmode : i.tagMode = .propagate) {st st' : Store}
    (hext : m.store.Extends st) (hext' : m'.store.Extends st') {v w : Value} {t t' : TagSet}
    (ht : t = t') (hvw : TagSet.Lacks b t → (st.trees st').Rel v w) :
    BothOk (Shows b) ({ m with store := st }.write i v t)
      ({ m' with store := st' }.write i w t') := by
  intro n n' hn hn'
  obtain ⟨-, rfl⟩ := write_eq_ok hn
  obtain ⟨-, rfl⟩ := write_eq_ok hn'
  rw [hmode]
  refine alike_put h.size (fun j => ⟨(h.registers j).tags, fun hlow => ?_⟩) _ ⟨ht, hvw⟩
  exact Store.trees_mono h.held.store h.held'.store hext hext' ((h.registers j).value hlow)

theorem apply_newList (h : Mirrors b m m') (hmode : i.tagMode = .propagate) :
    BothOk (Shows b) (m.apply s .newList i) (m'.apply s .newList i) :=
  h.writeNew hmode (m.store.extends_newList _) (m'.store.extends_newList _) rfl fun _ =>
    Store.trees_newList h.held.store h.held'.store .nil

theorem apply_newRecord (h : Mirrors b m m') (hmode : i.tagMode = .propagate) :
    BothOk (Shows b) (m.apply s .newRecord i) (m'.apply s .newRecord i) :=
  h.writeNew hmode (m.store.extends_newRecord _) (m'.store.extends_newRecord _) rfl fun _ =>
    Store.trees_newRecord h.held.store h.held'.store .nil

/-- New records with one field show the same tree if the field does. -/
theorem trees_single (h : Mirrors b m m') (key : String) {v w : Value}
    (hvw : (m.store.trees m'.store).Rel v w) :
    ((m.store.newRecord (Record.empty.set key v)).2.trees
        (m'.store.newRecord (Record.empty.set key w)).2).Rel
      (.record (m.store.newRecord (Record.empty.set key v)).1)
      (.record (m'.store.newRecord (Record.empty.set key w)).1) :=
  Store.trees_newRecord h.held.store h.held'.store (Pairing.setField_rel .nil key hvw)

theorem apply_newNamed (h : Mirrors b m m') (hmode : i.tagMode = .propagate) :
    BothOk (Shows b) (m.apply s .newNamed i) (m'.apply s .newNamed i) := by
  refine .bind fun key key' hkey hkey' => .bind fun x x' hx hx' => .bind fun t t' ht ht' => ?_
  obtain rfl : key = key' := Except.ok.inj (hkey.symm.trans hkey')
  have htags := tags_eq_ok ht
  refine h.writeNew hmode (m.store.extends_newRecord _) (m'.store.extends_newRecord _)
    ?_ fun hlow =>
    h.trees_single key (h.coupled.value_rel hx hx' ?_)
  · rw [htags, tags_eq_ok ht', (h.registers _).tags]
  · rwa [htags] at hlow

theorem apply_callValue (hs : s.functions = .standard) (h : Mirrors b m m')
    (hmode : i.tagMode = .propagate) :
    BothOk (Shows b) (m.apply s .callValue i) (m'.apply s .callValue i) := by
  refine .bind fun x x' hx hx' => .bind fun t t' ht ht' => ?_
  have htags := tags_eq_ok ht
  split
  · exact h.coupled.writeFrom hmode ht ht' fun hlow => h.coupled.value_rel hx hx' hlow
  · refine .bind fun ⟨v, st⟩ ⟨v', st'⟩ hcall hcall' => ?_
    rw [hs, h.executed] at hcall
    rw [hs] at hcall'
    have hext := FunctionTable.preserves_standard _ _ _ _ _ _ hcall
    have hext' := FunctionTable.preserves_standard _ _ _ _ _ _ hcall'
    refine h.writeNew hmode ((m.store.extends_newRecord _).trans hext)
      ((m'.store.extends_newRecord _).trans hext') ?_ fun hlow => ?_
    · rw [htags, tags_eq_ok ht', (h.registers _).tags]
    · -- both records of arguments show the same tree, and standard functions see no more than that
      have hrel := h.coupled.value_rel hx hx' (by rwa [htags] at hlow)
      have hclosed := Store.closed_newRecord h.held.store (r := Record.empty.set "value" x) ?_
      have hclosed' := Store.closed_newRecord h.held'.store (r := Record.empty.set "value" x') ?_
      · exact FunctionTable.trees_standard hclosed hclosed' (h.trees_single "value" hrel)
          hcall hcall'
      · rw [value_eq_ok hx']
        exact has_of_mem_single h.held' "value" _
      · rw [value_eq_ok hx]
        exact has_of_mem_single h.held "value" _

/-! ## Runs -/

theorem apply (hs : s.functions = .standard) (h : Mirrors b m m') (hmode : i.tagMode = .propagate)
    {op : Opcode} (hop : op.isStraight = true) :
    BothOk (Mirrors b) (m.apply s op i) (m'.apply s op i) := by
  have hshows : BothOk (Shows b) (m.apply s op i) (m'.apply s op i) := by
    cases op with
    | newRecord => exact h.apply_newRecord hmode
    | newList => exact h.apply_newList hmode
    | newNamed => exact h.apply_newNamed hmode
    | callValue => exact h.apply_callValue hs hmode
    | _ => exact h.coupled.apply_of_isLocal hmode hop
  have hsafe : s.functions.Safe := hs ▸ FunctionTable.safe_standard
  intro n n' hn hn'
  have heffect := effect_of_apply hn
  have heffect' := effect_of_apply hn'
  exact {
    held := h.held.effect hsafe heffect
    held' := h.held'.effect hsafe heffect'
    distinct := heffect.distinct hs h.distinct
    distinct' := heffect'.distinct hs h.distinct'
    size := by rw [heffect.size_registers, heffect'.size_registers, h.size]
    executed := by rw [heffect.executed, heffect'.executed, h.executed]
    registers := hshows n n' hn hn' }

theorem advance (hs : s.functions = .standard) (h : Mirrors b m m') (hi : i.Straight)
    {pc next next' : Nat} (hn : Advance s pc i m next n) (hn' : Advance s pc i m' next' n') :
    next = pc + 1 ∧ next' = pc + 1 ∧ Mirrors b n n' := by
  obtain ⟨hmode, hall⟩ := hi
  obtain ⟨op, hop⟩ := hn.exists_opcode
  rw [hop, Option.all_some, Bool.and_eq_true] at hall
  have hplain := Opcode.isPlain_of_isStraight hall.1
  obtain ⟨hnext, happly⟩ := hn.of_isPlain hop hplain
  obtain ⟨hnext', happly'⟩ := hn'.of_isPlain hop hplain
  exact ⟨hnext, hnext', h.apply hs hmode hall.1 n n' happly happly'⟩

/-- Straight runs that both finish leave machines that show the same trees. -/
theorem runFrom (hs : s.functions = .standard) (hcode : ∀ i ∈ s.packet.code, i.Straight)
    (h : Mirrors b m m') {k pc : Nat} (hn : Machine.runFrom s k pc m = (.finished, n))
    (hn' : Machine.runFrom s k pc m' = (.finished, n')) : Mirrors b n n' := by
  -- every round of both runs goes on with the next instruction, so the places stay the same
  induction k generalizing pc m m' with
  | zero => cases hn
  | succ k ih =>
    rcases finished_both hn hn' with ⟨rfl, rfl⟩ | ⟨i, next, next', m₁, m₁', hgo, hgo', hn, hn'⟩
    · exact h
    · obtain ⟨rfl, rfl, hmirrors⟩ := h.tick.advance hs (hcode i (Array.mem_of_getElem? hgo.fetch))
        (advance_of_step hgo.step) (advance_of_step hgo'.step)
      exact ih hmirrors hn hn'

/-! ## Inputs -/

theorem put (h : Mirrors b m m') (k : Nat) {c d : Register} (hc : m.store.Has c.value)
    (hd : m'.store.Has d.value) (hcd : c.Alike b (m.store.trees m'.store) d) :
    Mirrors b (m.put k c) (m'.put k d) where
  held := h.held.put k hc
  held' := h.held'.put k hd
  distinct := h.distinct
  distinct' := h.distinct'
  size := by rw [size_put, size_put, h.size]
  executed := h.executed
  registers := alike_put h.size h.registers k hcd

theorem tags_eq (h : Mirrors b m m') :
    m.registers.map Register.tags = m'.registers.map Register.tags := by
  refine Array.ext (by simp [h.size]) fun k hk hk' => ?_
  rw [Array.size_map] at hk hk'
  have htags := (h.registers k).tags
  simpa [peek_eq, hk, hk'] using htags

end Mirrors

theorem mirrors_start {σ τ : Store} {x y : RecordRef} (hx : σ.IsInput x) (hy : τ.IsInput y) :
    Mirrors b (start s.packet σ) (start s.packet τ) where
  held := held_start hx.closed
  held' := held_start hy.closed
  distinct := hx.distinct
  distinct' := hy.distinct
  size := rfl
  executed := rfl
  registers k := by
    rw [peek_start, peek_start]
    exact ⟨rfl, fun _ => .scalar rfl⟩

/-- Inputs that show the same trees in the fields without the tag are loaded into machines that show
the same trees. -/
theorem mirrors_loadInputs {σ τ : Store} {x y : RecordRef} (hx : σ.IsInput x) (hy : τ.IsInput y)
    (hagree : ∀ f ∈ s.packet.contract.inputs, TagSet.Lacks b f.tags →
      σ.datum? ((σ.record x).get f.name) = τ.datum? ((τ.record y).get f.name))
    (hload : (start s.packet σ).loadInputs s.packet (σ.record x) = (.ok (), m))
    (hload' : (start s.packet τ).loadInputs s.packet (τ.record y) = (.ok (), m')) :
    Mirrors b m m' := by
  let R (m m' : Machine) := m.store = σ ∧ m'.store = τ ∧ Mirrors b m m'
  suffices h : R m m' from h.2.2
  refine loadFields_both (R := R) (fun f hf m m' hm => ?_) ⟨rfl, rfl, mirrors_start hx hy⟩ hload
    hload'
  obtain ⟨rfl, rfl, hm⟩ := hm
  obtain ⟨hhas, d, hd⟩ := hx.get f.name
  obtain ⟨hhas', -⟩ := hy.get f.name
  refine ⟨rfl, rfl, hm.put _ hhas hhas' ⟨rfl, fun hlow => ?_⟩⟩
  exact Store.trees_rel.2 ⟨hhas, hhas', d, hd, (hagree f hf hlow).symm.trans hd⟩

/-- **A straight run hides what a tag marks.** Two inputs show the same trees in the fields without
the tag. If both are loaded and both runs finish, all registers have the same tags, and those
without the tag show the same trees, which the machine's own test finds equal. -/
theorem straight_run_hides (hs : s.functions = .standard)
    (hcode : ∀ i ∈ s.packet.code, i.Straight) {σ τ : Store} {x y : RecordRef} (hx : σ.IsInput x)
    (hy : τ.IsInput y)
    (hagree : ∀ f ∈ s.packet.contract.inputs, TagSet.Lacks b f.tags →
      σ.datum? ((σ.record x).get f.name) = τ.datum? ((τ.record y).get f.name))
    (hload : (start s.packet σ).loadInputs s.packet (σ.record x) = (.ok (), m))
    (hload' : (start s.packet τ).loadInputs s.packet (τ.record y) = (.ok (), m'))
    (hrun : m.run s = (.finished, n)) (hrun' : m'.run s = (.finished, n')) :
    n.registers.map Register.tags = n'.registers.map Register.tags ∧
      ∀ k, n.Low b k → ∃ d, n.store.datum? (n.peek k).value = some d ∧
        n'.store.datum? (n'.peek k).value = some d ∧ d.equal d = true := by
  have hloaded := mirrors_loadInputs hx hy hagree hload hload'
  have hend := hloaded.runFrom hs hcode hrun hrun'
  refine ⟨hend.tags_eq, fun k hlow => ?_⟩
  obtain ⟨-, -, d, hd, hd'⟩ := Store.trees_rel.1 ((hend.registers k).value hlow)
  exact ⟨d, hd, hd', Store.equal_self hend.distinct hd⟩

end Machine

/-! ## A straight program with two inputs -/

/-- Compares the pairs with a copy of them, prints the secret after them, wraps them in a record and
prints that. The register of the secret is that of another field too. -/
def Packet.printing : Packet where
  contract :=
    { size := 8,
      inputs := [⟨"pairs", .list, 0, 0⟩, ⟨"spare", .integer, 0, 1⟩, ⟨"secret", .integer, 1, 1⟩] }
  constants := #[.string "wrapped"]
  code := #[
    Opcode.copy.on 0 2 0 0,
    (Opcode.compare .eq).on 0 3 0 2,
    Opcode.concat.on 0 4 0 1,
    Opcode.newNamed.on 0 5 0 0,
    Opcode.callValue.on 0 6 0x74 5]

/-- Where it runs, with the standard functions and no limits. -/
def Setting.printing : Setting := ⟨.printing, .standard, "", {}⟩

/-- An input whose pairs are one list twice. -/
def Store.sharedPairs : Store :=
  ⟨#[#[.integer 1], #[.list ⟨0⟩, .list ⟨0⟩]],
    #[⟨[("pairs", .list ⟨1⟩), ("secret", .integer 7)]⟩]⟩

/-- An input with equal pairs that are two lists, and another secret. -/
def Store.separatePairs : Store :=
  ⟨#[#[.integer 1], #[.integer 1], #[.list ⟨0⟩, .list ⟨1⟩]],
    #[⟨[("secret", .string "seven"), ("pairs", .list ⟨2⟩)]⟩]⟩

theorem Store.isInput_sharedPairs : sharedPairs.IsInput ⟨0⟩ where
  closed := closed_newRecord (closed_newList (closed_newList closed_empty (by simp [Has]))
    (by simp [Has, newList])) (by simp [Has, newList, Record.values])
  distinct :=
    distinct_newRecord (distinct_newList (distinct_newList distinct_empty _) _) (by decide)
  tree := ⟨_, rfl⟩

theorem Store.isInput_separatePairs : separatePairs.IsInput ⟨0⟩ where
  closed := closed_newRecord (closed_newList (closed_newList (closed_newList closed_empty
    (by simp [Has])) (by simp [Has])) (by simp [Has, newList]))
    (by simp [Has, newList, Record.values])
  distinct := distinct_newRecord
    (distinct_newList (distinct_newList (distinct_newList distinct_empty _) _) _) (by decide)
  tree := ⟨_, rfl⟩

namespace Machine

theorem printing_hides_secret :
    (∀ i ∈ Packet.printing.code, i.Straight) ∧
      Store.sharedPairs.IsInput ⟨0⟩ ∧ Store.separatePairs.IsInput ⟨0⟩ ∧
      ∃ m m' n n' : Machine,
        (start .printing .sharedPairs).loadInputs .printing (Store.sharedPairs.record ⟨0⟩) =
          (.ok (), m) ∧
        (start .printing .separatePairs).loadInputs .printing (Store.separatePairs.record ⟨0⟩) =
          (.ok (), m') ∧
        m.run .printing = (.finished, n) ∧ m'.run .printing = (.finished, n') ∧
        n.registers.map Register.tags = #[0, 1, 0, 0, 1, 0, 0, 0] ∧
        n.registers.map Register.tags = n'.registers.map Register.tags ∧
        (n.peek 4).value ≠ (n'.peek 4).value ∧
        (n.peek 6).value = .string "\x7bwrapped: [[1], [1]]\x7d" ∧
        ∀ k, n.Low 0 k → ∃ d, n.store.datum? (n.peek k).value = some d ∧
          n'.store.datum? (n'.peek k).value = some d ∧ d.equal d = true := by
  have hcode : ∀ i ∈ Packet.printing.code, i.Straight := by decide +kernel
  have hagree : ∀ f ∈ Packet.printing.contract.inputs, TagSet.Lacks 0 f.tags →
      Store.sharedPairs.datum? ((Store.sharedPairs.record ⟨0⟩).get f.name) =
        Store.separatePairs.datum? ((Store.separatePairs.record ⟨0⟩).get f.name) :=
    List.forall_mem_cons.2 ⟨fun _ => rfl, List.forall_mem_cons.2 ⟨fun _ => rfl,
      List.forall_mem_singleton.2 nofun⟩⟩
  -- the machine at the end is not written out
  have hfinish : ∀ r : Outcome × Machine, r.1 = .finished → r = (.finished, r.2) := fun r h =>
    Prod.ext h rfl
  have hrun := hfinish ((Packet.printing.loaded ⟨0⟩ .sharedPairs).run .printing) (by decide +kernel)
  have hrun' := hfinish ((Packet.printing.loaded ⟨0⟩ .separatePairs).run .printing)
    (by decide +kernel)
  obtain ⟨htags, hvalues⟩ := straight_run_hides (s := .printing) rfl hcode
    Store.isInput_sharedPairs Store.isInput_separatePairs hagree rfl rfl hrun hrun'
  exact ⟨hcode, Store.isInput_sharedPairs, Store.isInput_separatePairs, _, _, _, _, rfl, rfl, hrun,
    hrun', by decide +kernel, htags, by decide +kernel, by decide +kernel, hvalues⟩

end Machine

end TagMachine
