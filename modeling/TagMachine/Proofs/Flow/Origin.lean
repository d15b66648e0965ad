import TagMachine.Proofs.Flow.Policy
import TagMachine.Proofs.Machine.Errors
import TagMachine.Proofs.Machine.Session

set_option autoImplicit false

/-! # Where tags come from

A machine hands tags on, merges and drops them, but it makes none up. All tags in its registers and
open iterations were given by the user, with an input or with a register, or stand in the program as
constants of instructions that set tags (`Machine.tags_never_invented`). The bound holds in every
tag mode and does not depend on the way that a run takes, so it can be read off a packet: without a
rule against tags of its inputs and constants, no execution breaks a rule.
-/

namespace TagMachine

variable {sources others : List TagSet} {t u : TagSet}

/-! ## Sets of tags -/

/-- Every tag in a set is in one of the sources. -/
def TagSet.From (sources : List TagSet) (t : TagSet) : Prop :=
  ∀ b, t.getLsbD b = true → ∃ source ∈ sources, source.getLsbD b = true

theorem TagSet.from_zero : From sources 0 := by
  intro b hb
  simp at hb

theorem TagSet.from_mem (h : t ∈ sources) : From sources t := fun _ hb => ⟨t, h, hb⟩

theorem TagSet.From.or (ht : From sources t) (hu : From sources u) : From sources (t ||| u) := by
  intro b hb
  rw [BitVec.getLsbD_or, Bool.or_eq_true] at hb
  exact hb.elim (ht b) (hu b)

theorem TagSet.From.mono (h : From sources t) (hsub : sources ⊆ others) : From others t := by
  intro b hb
  obtain ⟨source, hmem, hsource⟩ := h b hb
  exact ⟨source, hsub hmem, hsource⟩

theorem TagSet.From.and_eq_zero {mask : TagSet} (h : From sources t)
    (hmask : ∀ source ∈ sources, source &&& mask = 0) : t &&& mask = 0 := by
  refine BitVec.eq_of_getLsbD_eq fun b _ => ?_
  rw [BitVec.getLsbD_and]
  by_contra hne
  obtain ⟨ht, hb⟩ : t.getLsbD b = true ∧ mask.getLsbD b = true := by simpa using hne
  obtain ⟨source, hmem, hsource⟩ := h b ht
  have hbit : (source &&& mask).getLsbD b = true := by
    rw [BitVec.getLsbD_and, hsource, hb]
    rfl
  rw [hmask source hmem] at hbit
  simp at hbit

namespace Packet

/-- The tags that an instruction names, if it sets tags. -/
def namedTags? (p : Packet) (i : Instruction) : Option TagSet :=
  match Opcode.ofByte? i.opcode, p.constants[i.op1.toNat]? with
  | some .setTags, some (.integer n) => some n.toBitVec
  | _, _ => none

/-- The tags that the instructions of a packet name. -/
def namedTags (p : Packet) : List TagSet := p.code.toList.filterMap p.namedTags?

def inputTags (p : Packet) : List TagSet := p.contract.inputs.map FieldDef.tags

end Packet

namespace Machine

/-- All tags of a machine are from the sources. -/
structure TagsFrom (sources : List TagSet) (m : Machine) : Prop where
  registers : ∀ k, TagSet.From sources (m.peek k).tags
  frames : ∀ f ∈ m.frames, TagSet.From sources f.sourceTags

section

variable {s : Setting} {m n : Machine} {i : Instruction} {pc next : Nat}

/-! ## Steps -/

theorem TagsFrom.mono (h : m.TagsFrom sources) (hsub : sources ⊆ others) : m.TagsFrom others where
  registers k := (h.registers k).mono hsub
  frames f hf := (h.frames f hf).mono hsub

theorem TagsFrom.put (h : m.TagsFrom sources) (k : Nat) {c : Register}
    (hc : TagSet.From sources c.tags) : (m.put k c).TagsFrom sources where
  registers j := by
    rcases peek_put_cases m k c j with heq | heq
    · rw [heq]
      exact hc
    · rw [heq]
      exact h.registers j
  frames := h.frames

theorem TagsFrom.withStore (h : m.TagsFrom sources) (store : Store) :
    TagsFrom sources { m with store } := ⟨h.registers, h.frames⟩

theorem TagsFrom.source (h : m.TagsFrom sources) (ht : m.TagSource t) : TagSet.From sources t := by
  induction ht with
  | none => exact TagSet.from_zero
  | register k => exact h.registers k
  | both _ _ iht ihu => exact iht.or ihu

/-- The tags that an instruction sets are among those that the packet names. -/
theorem mem_namedTags {k : Int64} (hfetch : s.packet.code[pc]? = some i)
    (hbyte : Opcode.ofByte? i.opcode = some .setTags)
    (hconstant : s.constant i.op1 = .ok (.integer k)) : k.toBitVec ∈ s.packet.namedTags := by
  refine List.mem_filterMap.2 ⟨i, Array.mem_toList_iff.2 (Array.mem_of_getElem? hfetch), ?_⟩
  unfold Setting.constant at hconstant
  split at hconstant
  · next c hc =>
      obtain rfl := Except.ok.inj hconstant
      rw [Packet.namedTags?, hbyte, hc]
  · cases hconstant

theorem TagsFrom.effect {op : Opcode} (h : m.TagsFrom sources)
    (hnamed : ∀ k : Int64, op = .setTags → s.constant i.op1 = .ok (.integer k) →
      k.toBitVec ∈ sources) (heffect : Effect s op i m n) : n.TagsFrom sources := by
  cases heffect with
  | same => exact h
  | put _ _ ht => exact h.put _ (h.source ht)
  | tags hop hconstant _ => exact h.put _ (TagSet.from_mem (hnamed _ hop hconstant))
  | list _ ht | record _ ht | named _ ht | append _ _ _ ht | setField _ _ _ ht | call _ _ _ ht
  | callValue _ _ ht => exact (h.withStore _).put _ (h.source ht)

/-- A list that was collected has the tags of the source, and an accumulator keeps its own. -/
theorem TagsFrom.close (h : m.TagsFrom sources) {f : Frame}
    (hf : TagSet.From sources f.sourceTags) (results : Array Value) :
    (m.close f results).TagsFrom sources := by
  unfold Machine.close finish
  split
  · exact h.put _ (h.registers f.first)
  · exact (h.withStore _).put _ hf

theorem TagsFrom.advance (h : m.TagsFrom sources) (hsub : s.packet.namedTags ⊆ sources)
    (hfetch : s.packet.code[pc]? = some i) (hadvance : Advance s pc i m next n) :
    n.TagsFrom sources := by
  have hplanned {f : Frame} (hplan : m.plan s pc i = .ok f) : TagSet.From sources f.sourceTags := by
    obtain ⟨source, -, -, hsource, -, -, -, htags, -⟩ := (planned_of_plan hplan).operands
    rw [htags, register_eq_ok hsource]
    exact h.registers _
  cases hadvance with
  | plain hbyte _ happly =>
    refine h.effect (fun k hop hconstant => ?_) (effect_of_apply happly)
    subst hop
    exact hsub (mem_namedTags hfetch hbyte hconstant)
  | jump => exact h
  | skip _ hplan _ => exact h.close (hplanned hplan) _
  | @enter f item _ hplan _ _ =>
    have hseed := h.put f.element (c := ⟨item, f.sourceTags⟩) (hplanned hplan)
    exact ⟨hseed.registers, List.forall_mem_cons.2 ⟨hplanned hplan, h.frames⟩⟩
  | @again f fs item _ hframes _ _ =>
    obtain ⟨hf, hfs⟩ := List.forall_mem_cons.1 (hframes ▸ h.frames)
    have hseed := h.put f.element (c := ⟨item, f.sourceTags⟩) hf
    exact ⟨hseed.registers, List.forall_mem_cons.2 ⟨hf, hfs⟩⟩
  | @leave f fs _ hframes _ _ =>
    obtain ⟨hf, hfs⟩ := List.forall_mem_cons.1 (hframes ▸ h.frames)
    exact TagsFrom.close (m := m.withFrames fs) ⟨h.registers, hfs⟩ hf _

theorem TagsFrom.runFrom (h : m.TagsFrom sources) (hsub : s.packet.namedTags ⊆ sources)
    (k pc : Nat) : (runFrom s k pc m).2.TagsFrom sources :=
  runFrom_keeps (fun _ hm => ⟨hm.registers, hm.frames⟩)
    (fun hfetch hm hadvance => hm.advance hsub hfetch hadvance) k pc h

end

/-! ## Uses -/

/-- The fields that loading writes: those before the first whose register does not exist. -/
def loadedFields (m : Machine) (fs : List FieldDef) : List FieldDef :=
  fs.takeWhile fun f => f.register.toNat < m.registers.size

/-- The machines that come of using one for a packet, with the sets of tags that the user gave: with
registers, and with inputs that were loaded. -/
inductive Uses (p : Packet) : List TagSet → Machine → Prop
  /-- A new machine. -/
  | start (store : Store) : Uses p [] (.start p store)
  /-- The user changes containers, or makes new ones. -/
  | change {given : List TagSet} {m : Machine} (h : Uses p given m) (store : Store) :
      Uses p given { m with store }
  /-- The user sets a register. -/
  | setRegister {given : List TagSet} {m n : Machine} {r : UInt16} {c : Register}
      (h : Uses p given m) (hset : m.setRegister r c = .ok n) : Uses p (c.tags :: given) n
  /-- The user loads inputs, which may fail after some. -/
  | loadInputs {given : List TagSet} {m : Machine} (h : Uses p given m) (input : Record) :
      Uses p ((m.loadedFields p.contract.inputs).map FieldDef.tags ++ given)
        (m.loadInputs p input).2
  /-- The machine runs, and ends in whatever way or is observed after `k` rounds. -/
  | run {given : List TagSet} {m : Machine} (h : Uses p given m) (functions : FunctionTable)
      (timestamp : String) (limits : Limits) (k : Nat) :
      Uses p given (runFrom ⟨p, functions, timestamp, limits⟩ k 0 m).2

section

variable {p : Packet} {m n : Machine}

theorem tagsFrom_start (store : Store) : (start p store).TagsFrom sources where
  registers k := by
    rw [peek_start]
    exact TagSet.from_zero
  frames := by simp [start]

theorem TagsFrom.loadFields {fs : List FieldDef} (h : m.TagsFrom sources) (input : Record)
    (hfs : ∀ f ∈ m.loadedFields fs, f.tags ∈ sources) :
    (m.loadFields input fs).2.TagsFrom sources := by
  induction fs generalizing m with
  | nil => exact h
  | cons f fs ih =>
    unfold Machine.loadFields
    cases hset : m.setRegister f.register ⟨input.get f.name, f.tags⟩ with
    | error e => exact h
    | ok n =>
      obtain ⟨hk, rfl⟩ := setRegister_eq_ok hset
      have hloaded : m.loadedFields (f :: fs) = f :: m.loadedFields fs := by
        simp [loadedFields, hk]
      rw [hloaded] at hfs
      obtain ⟨hf, hrest⟩ := List.forall_mem_cons.1 hfs
      refine ih (h.put _ (TagSet.from_mem hf)) ?_
      intro g hg
      rw [loadedFields, size_put] at hg
      exact hrest g hg

/-- All tags of a machine were given by the user or are named by the packet. -/
theorem Uses.tagsFrom {given : List TagSet} (h : Uses p given m) :
    m.TagsFrom (given ++ p.namedTags) := by
  induction h with
  | start store => exact tagsFrom_start store
  | change _ store ih => exact ih.withStore store
  | @setRegister given m n r c _ hset ih =>
    obtain ⟨-, rfl⟩ := setRegister_eq_ok hset
    exact (ih.mono (List.subset_cons_self _ _)).put _ (TagSet.from_mem (List.mem_cons_self ..))
  | @loadInputs given m _ input ih =>
    rw [List.append_assoc]
    refine (ih.mono (List.subset_append_right _ _)).loadFields input fun f hf => ?_
    exact List.mem_append_left _ (List.mem_map_of_mem hf)
  | run _ functions timestamp limits k ih =>
    exact ih.runFrom (s := ⟨p, functions, timestamp, limits⟩) (List.subset_append_right _ _) k 0

end

end Machine

/-! ## Rules -/

/-- Tags that no rule forbids break no rule. -/
theorem Contract.validate_eq_ok {c : Contract} {tags : TagSet} (strict : Bool)
    (h : ∀ mask scope, .forbidTagged mask scope ∈ c.rules → tags &&& mask = 0) :
    c.validate strict tags = .ok () := by
  have hnone : c.violation? tags = none := by
    refine List.findSome?_eq_none_iff.2 fun rule hrule => ?_
    cases rule with
    | forbidTagged mask scope => simp [offence?, h mask scope hrule]
    | _ => rfl
  rw [validate, hnone]

theorem Contract.validate_eq_error {c : Contract} {strict : Bool} {tags : TagSet} {e : Error}
    (h : c.validate strict tags = .error e) :
    strict = true ∧ ∃ v, c.violation? tags = some v ∧ e = .policy v := by
  unfold validate at h
  split at h
  · next v hv =>
      split at h
      · next hstrict => exact ⟨hstrict, v, hv, (Except.error.inj h).symm⟩
      · cases h
  · cases h

/-- The fields of a text cannot be read if it is not JSON, or not an object. -/
theorem Json.readRecord_eq_error {text : String} {e : Error} (h : readRecord text = .error e) :
    (∃ fault, read text = .error fault ∧ e = .json fault) ∨
      ∃ d, read text = .ok d ∧ d.kind ≠ .record ∧ e = .type (.inputNotRecord d.kind) := by
  unfold readRecord at h
  split at h
  · next fault hread => exact .inl ⟨fault, hread, (Except.error.inj h).symm⟩
  · cases h
  · next d hnot hread =>
      refine .inr ⟨d, hread, ?_, (Except.error.inj h).symm⟩
      cases d with
      | record fields => exact absurd rfl (hnot fields)
      | _ => exact nofun

namespace Machine

theorem output_tags (m : Machine) (p : Packet) :
    (m.output p).1.tags = (m.peek p.outputRegister).tags := by
  unfold output
  dsimp only
  split <;> rfl

end Machine

namespace Config

variable {c : Config} {p : Packet} {functions : FunctionTable} {timestamp : String}
  {input : RecordRef} {store : Store}

theorem tagsFrom_final :
    (c.final p functions timestamp input store).TagsFrom (p.inputTags ++ p.namedTags) := by
  have hloaded : (p.loaded input store).TagsFrom (p.inputTags ++ p.namedTags) := by
    refine (Machine.tagsFrom_start store).loadFields (store.record input) fun f hf => ?_
    exact List.mem_append_left _ (List.mem_map_of_mem ((List.takeWhile_subset _) hf))
  exact hloaded.runFrom (s := c.setting p functions timestamp) (List.subset_append_right _ _) _ 0

/-- The check of the output succeeds where no rule forbids tags of the inputs or of the program. -/
theorem validate_final (hrules : ∀ mask scope, .forbidTagged mask scope ∈ p.contract.rules →
    ∀ t ∈ p.inputTags ++ p.namedTags, t &&& mask = 0) :
    p.contract.validate c.enforcePolicy
      ((c.final p functions timestamp input store).peek p.outputRegister).tags = .ok () := by
  refine Contract.validate_eq_ok _ fun mask scope hrule => ?_
  exact (tagsFrom_final.registers _).and_eq_zero (hrules mask scope hrule)

/-- The ways in which an execution fails: in loading the input, in running, or in the check of the
output's tags, each after what comes before it succeeded. -/
inductive Failure (c : Config) (p : Packet) (functions : FunctionTable) (timestamp : String)
    (input : RecordRef) (store : Store) (e : Error) : Prop
  | loading (load : ((Machine.start p store).loadInputs p (store.record input)).1 = .error e)
  | running (load : ((Machine.start p store).loadInputs p (store.record input)).1 = .ok ())
      (run : ((p.loaded input store).run (c.setting p functions timestamp)).1.toExcept = .error e)
  | rejected (load : ((Machine.start p store).loadInputs p (store.record input)).1 = .ok ())
      (run : ((p.loaded input store).run (c.setting p functions timestamp)).1.toExcept = .ok ())
      (check : p.contract.validate c.enforcePolicy
        ((c.final p functions timestamp input store).peek p.outputRegister).tags = .error e)

theorem failure_of_execute {e : Error}
    (h : (c.execute p functions timestamp input store).1 = .error e) :
    c.Failure p functions timestamp input store e := by
  unfold execute at h
  generalize hloading : (Machine.start p store).loadInputs p (store.record input) = loading at h
  obtain ⟨result, m⟩ := loading
  have hm : p.loaded input store = m := congrArg Prod.snd hloading
  cases result with
  | error e' =>
    obtain rfl : e' = e := Except.error.inj h
    exact .loading (congrArg Prod.fst hloading)
  | ok u =>
    have hload := congrArg Prod.fst hloading
    dsimp only at h
    cases houtcome : (m.run (c.setting p functions timestamp)).1.toExcept with
    | error e' =>
      rw [houtcome] at h
      obtain rfl : e' = e := Except.error.inj h
      exact .running hload (hm ▸ houtcome)
    | ok u =>
      rw [houtcome] at h
      refine .rejected hload (hm ▸ houtcome) ?_
      dsimp only at h
      unfold final
      rw [hm, ← Machine.output_tags _ p]
      split at h
      · next e' hcheck => rw [hcheck, ← Except.error.inj h]
      · cases h

/-- An execution on a JSON text fails in reading it, or as the execution on its fields does. -/
theorem executeJson_eq_error {text : String} {e : Error}
    (h : c.executeJson p functions timestamp text = .error e) :
    Json.readRecord text = .error e ∨ ∃ fields, Json.readRecord text = .ok fields ∧
      (c.execute p functions timestamp (Store.placeRecord {} fields).1
        (Store.placeRecord {} fields).2).1 = .error e := by
  rcases bind_eq_error.1 h with hread | ⟨fields, hread, h⟩
  · exact .inl hread
  · right
    refine ⟨fields, hread, ?_⟩
    rcases bind_eq_error.1 h with hexecute | ⟨_, -, h⟩
    · exact hexecute
    · cases h

theorem isRuntime_or_raises_of_execute {e : Error}
    (hvalid : p.contract.validate c.enforcePolicy
      ((c.final p functions timestamp input store).peek p.outputRegister).tags = .ok ())
    (h : (c.execute p functions timestamp input store).1 = .error e) :
    e.isRuntime = true ∨ functions.Raises e := by
  cases failure_of_execute h with
  | loading load =>
    obtain ⟨f, -, -, rfl⟩ := Machine.loadFields_eq_error load
    exact .inl rfl
  | running load run => exact Machine.isRuntime_or_raises_of_run run
  | rejected load run check =>
    rw [hvalid] at check
    cases check

theorem runtimeOnly_execute (hfunctions : functions.RuntimeErrors)
    (hvalid : p.contract.validate c.enforcePolicy
      ((c.final p functions timestamp input store).peek p.outputRegister).tags = .ok ()) :
    RuntimeOnly (c.execute p functions timestamp input store).1 := by
  intro e he
  rcases isRuntime_or_raises_of_execute hvalid he with hruntime | ⟨id, context, args, store, hcall⟩
  · exact hruntime
  · exact hfunctions id context args store e hcall

end Config

/-- Every tag of a machine that is used for a packet is one that the user gave with a register or
with an input that was loaded, or one that an instruction of the packet names. So an execution
breaks no rule if no rule forbids tags of the inputs or of the instructions. -/
theorem Machine.tags_never_invented (p : Packet) :
    (∀ given m, Uses p given m →
      (∀ k, TagSet.From (given ++ p.namedTags) (m.peek k).tags) ∧
        ∀ f ∈ m.frames, TagSet.From (given ++ p.namedTags) f.sourceTags) ∧
      ((∀ mask scope, .forbidTagged mask scope ∈ p.contract.rules →
          ∀ t ∈ p.inputTags ++ p.namedTags, t &&& mask = 0) →
        ∀ functions : FunctionTable, functions.RuntimeErrors →
          ∀ (c : Config) (timestamp : String) (input : RecordRef) (store : Store) (v : Violation),
            (c.execute p functions timestamp input store).1 ≠ .error (.policy v)) ∧
      FunctionTable.standard.RuntimeErrors ∧ FunctionTable.none.RuntimeErrors := by
  refine ⟨fun given m h => ⟨h.tagsFrom.registers, h.tagsFrom.frames⟩, ?_,
    FunctionTable.runtimeErrors_standard, FunctionTable.runtimeErrors_none⟩
  intro hrules functions hfunctions c timestamp input store v herror
  have hruntime : (Error.policy v).isRuntime = true :=
    Config.runtimeOnly_execute hfunctions (Config.validate_final hrules) _ herror
  cases hruntime

/-- Gives the elements of a list other tags while it goes through them. -/
def Packet.relabelling : Packet where
  contract := { size := 4, inputs := [⟨"items", .list, 1, 0⟩], rules := [.forbidTagged 4 0] }
  constants := #[.integer 2, .string "k"]
  code := #[
    Opcode.newRecord.on 0 1 0 0,
    Opcode.iterate.on 0 2 0 1,
    Opcode.setTags.on 0 2 0 0,
    Opcode.collect.on 0 3 2 0,
    Opcode.setNamed.on 0 1 1 3]

/-- An input with a list. -/
def Store.withItems (ds : List Datum) : Store := (Store.placeRecord {} [("items", .list ds)]).2

/-- Inside the loop one register has the tags of the input, another those of the instruction. -/
theorem Machine.relabelling_invents_nothing :
    (∃ m, Uses .relabelling [1] m ∧ (m.peek 0).tags = 1 ∧ (m.peek 2).tags = 2 ∧
      m.frames.map (·.sourceTags) = [1] ∧
      (∀ k, TagSet.From [1, 2] (m.peek k).tags) ∧ ∀ f ∈ m.frames, TagSet.From [1, 2] f.sourceTags) ∧
    ∀ v, (Config.execute {} .relabelling .standard "" ⟨0⟩ (.withItems [.nothing])).1 ≠
      .error (.policy v) := by
  obtain ⟨hstates, hrules, hstandard, -⟩ := tags_never_invented .relabelling
  let store := Store.withItems [.nothing]
  have huse : Uses .relabelling [1] (Machine.runFrom ⟨.relabelling, .standard, "", {}⟩ 3 0
      (Packet.loaded .relabelling ⟨0⟩ store)).2 :=
    .run (.loadInputs (.start store) (store.record ⟨0⟩)) _ _ _ 3
  refine ⟨⟨_, huse, by decide +kernel, by decide +kernel, by decide +kernel, hstates _ _ huse⟩, ?_⟩
  refine hrules (fun mask scope hrule => ?_) _ hstandard {} "" ⟨0⟩ store
  obtain ⟨rfl, rfl⟩ : mask = 4 ∧ scope = 0 := by simpa [Packet.relabelling] using hrule
  have hsources : Packet.relabelling.inputTags ++ Packet.relabelling.namedTags = [1, 2] := rfl
  rw [hsources]
  exact List.forall_mem_cons.2 ⟨rfl, List.forall_mem_singleton.2 rfl⟩

end TagMachine
