import TagMachine.Proofs.Machine.Operands
import TagMachine.Proofs.Store.Closed

set_option autoImplicit false

/-! # What plain operations change

Of the forty-odd operations, the plain ones do one of ten things to a machine (`Machine.Effect`):
they write the destination, give it a new container, change the container that it holds, or call a
function. The values and tags that they write come from the machine itself (`Machine.Source`,
`Machine.TagSource`), and from a constant where tags are set. An invariant is proved for these
cases, and not operation by operation. An operation that calls no function is one of the cases or
fails with an error of the machine's own (`Machine.yields_apply`).
-/

namespace TagMachine

/-! ## Scalars -/

theorem ArithmeticOp.yields_apply (op : ArithmeticOp) (x y : Value) :
    Yields (·.isContainer = false) (op.apply x y) := by
  unfold apply
  split
  · split
    · exact .error rfl
    · exact .ok rfl
  · split
    · split
      · exact .error rfl
      · exact .ok rfl
    · exact .error rfl

namespace Value

variable (v : Value)

theorem yields_negate : Yields (·.isContainer = false) v.negate := by
  cases v with
  | integer n => exact .ok rfl
  | float x => exact .ok rfl
  | _ => exact .error rfl

theorem yields_toInteger : Yields (fun _ => True) v.toInteger := by
  unfold toInteger
  split
  · exact .ok trivial
  · exact .ok trivial
  · exact .ok trivial
  · split
    · exact .ok trivial
    · exact .error rfl
  · exact .error rfl

theorem yields_toFloat : Yields (fun _ => True) v.toFloat := by
  unfold toFloat
  split
  · exact .ok trivial
  · exact .ok trivial
  · split
    · exact .ok trivial
    · exact .error rfl
  · exact .error rfl

end Value

theorem Constant.isContainer_value (c : Constant) : c.value.isContainer = false := by
  cases c <;> rfl

/-- A conversion gives a scalar. -/
theorem Machine.yields_converted (m : Machine) (target : Conversion) (v : Value) :
    Yields (·.isContainer = false) (m.converted target v) := by
  cases target with
  | text => exact .ok rfl
  | integer => exact v.yields_toInteger.map fun _ _ => rfl
  | float => exact v.yields_toFloat.map fun _ _ => rfl
  | boolean => exact .ok rfl

theorem Machine.yields_compares (m : Machine) (op : CompareOp) (r r' : UInt16) :
    Yields (fun _ => True) (m.compares op r r') := by
  refine (m.yields_value r).bind fun x _ => (m.yields_value r').bind fun y _ => ?_
  split
  · exact .ok trivial
  · exact .error rfl

namespace Setting

variable (s : Setting) (index : UInt16)

theorem yields_constant : Yields (fun c => s.constant index = .ok c) (s.constant index) := by
  cases h : s.constant index with
  | ok c => exact .ok rfl
  | error e =>
    unfold constant at h
    split at h
    · cases h
    · obtain rfl := Except.error.inj h
      exact .error rfl

theorem yields_constantKey : Yields (fun _ => True) (s.constantKey index) := by
  refine (s.yields_constant index).bind fun c _ => ?_
  cases c with
  | string key => exact .ok trivial
  | _ => exact .error rfl

end Setting

/-! ## The cases -/

/-- The register whose value an operation puts into the container in its destination, if it does. -/
def Opcode.stored? (op : Opcode) (i : Instruction) : Option UInt16 :=
  match op with
  | .append => some i.op1
  | .setField => some i.op2
  | .setNamed => some i.op2
  | _ => none

/-- The operations that call a function. -/
def Opcode.isCall : Opcode → Bool
  | call => true
  | callValue => true
  | _ => false

namespace Machine

/-- The values that an operation can take from a machine: scalars, the values of registers, and what
the containers in registers hold. -/
inductive Source (m : Machine) : Value → Prop
  | scalar {v : Value} (h : v.isContainer = false) : Source m v
  | register (k : Nat) : Source m (m.peek k).value
  | child {k : Nat} {v : Value} (h : v ∈ m.store.children (m.peek k).value) : Source m v

/-- The tags that an operation can take from a machine: none, those of registers, and several sets
of these together. -/
inductive TagSource (m : Machine) : TagSet → Prop
  | none : TagSource m 0
  | register (k : Nat) : TagSource m (m.peek k).tags
  | both {t u : TagSet} (ht : TagSource m t) (hu : TagSource m u) : TagSource m (t ||| u)

/-- What a plain operation can leave of a machine. -/
inductive Effect (s : Setting) (op : Opcode) (i : Instruction) (m : Machine) : Machine → Prop
  /-- Nothing changes. -/
  | same : Effect s op i m m
  /-- The destination is written. -/
  | put {c : Register} (hk : i.dest.toNat < m.registers.size) (hv : m.Source c.value)
      (ht : m.TagSource c.tags) : Effect s op i m (m.put i.dest.toNat c)
  /-- The destination gets the tags of a constant. -/
  | tags {k : Int64} (hop : op = .setTags) (hconstant : s.constant i.op1 = .ok (.integer k))
      (hk : i.dest.toNat < m.registers.size) :
      Effect s op i m (m.put i.dest.toNat ⟨(m.peek i.dest.toNat).value, k.toBitVec⟩)
  /-- The destination gets a new list. -/
  | list {t : TagSet} (hk : i.dest.toNat < m.registers.size) (ht : m.TagSource t) :
      Effect s op i m ({ m with store := (m.store.newList #[]).2 }.put i.dest.toNat
        ⟨.list (m.store.newList #[]).1, t⟩)
  /-- The destination gets a new record without fields. -/
  | record {t : TagSet} (hk : i.dest.toNat < m.registers.size) (ht : m.TagSource t) :
      Effect s op i m ({ m with store := (m.store.newRecord .empty).2 }.put i.dest.toNat
        ⟨.record (m.store.newRecord .empty).1, t⟩)
  /-- The destination gets a new record with one field. -/
  | named {j : Nat} {t : TagSet} {key : String} (hk : i.dest.toNat < m.registers.size)
      (ht : m.TagSource t) :
      Effect s op i m ({ m with
          store := (m.store.newRecord (Record.empty.set key (m.peek j).value)).2 }.put i.dest.toNat
        ⟨.record (m.store.newRecord (Record.empty.set key (m.peek j).value)).1, t⟩)
  /-- The value of a register is added to the list in the destination. -/
  | append {r : UInt16} {t : TagSet} {a : ListRef} (hstored : op.stored? i = some r)
      (hk : i.dest.toNat < m.registers.size) (ha : (m.peek i.dest.toNat).value = .list a)
      (ht : m.TagSource t) :
      Effect s op i m ({ m with store := m.store.push a (m.peek r.toNat).value }.put i.dest.toNat
        ⟨.list a, t⟩)
  /-- A field of the record in the destination is set to the value of a register. -/
  | setField {r : UInt16} {t : TagSet} {a : RecordRef} {key : String}
      (hstored : op.stored? i = some r) (hk : i.dest.toNat < m.registers.size)
      (ha : (m.peek i.dest.toNat).value = .record a) (ht : m.TagSource t) :
      Effect s op i m ({ m with store := m.store.setField a key (m.peek r.toNat).value }.put
        i.dest.toNat ⟨.record a, t⟩)
  /-- A function is called with the record of a register. -/
  | call {j : Nat} {t : TagSet} {a : RecordRef} {id : UInt16} {v : Value} {store : Store}
      (hk : i.dest.toNat < m.registers.size) (ha : (m.peek j).value = .record a)
      (hcall : s.functions.call id ⟨s.timestamp, m.executed⟩ a m.store = .ok (v, store))
      (ht : m.TagSource t) : Effect s op i m ({ m with store }.put i.dest.toNat ⟨v, t⟩)
  /-- A function is called with a new record that has the value of a register. -/
  | callValue {j : Nat} {t : TagSet} {id : UInt16} {v : Value} {store : Store}
      (hk : i.dest.toNat < m.registers.size)
      (hcall : s.functions.call id ⟨s.timestamp, m.executed⟩
        (m.store.newRecord (Record.empty.set "value" (m.peek j).value)).1
        (m.store.newRecord (Record.empty.set "value" (m.peek j).value)).2 = .ok (v, store))
      (ht : m.TagSource t) : Effect s op i m ({ m with store }.put i.dest.toNat ⟨v, t⟩)

section

variable (m : Machine) (r : UInt16)

theorem source_value : Yields m.Source (m.value r) := by
  refine (m.yields_value r).imp ?_
  rintro _ rfl
  exact .register _

theorem source_register :
    Yields (fun c => m.Source c.value ∧ m.TagSource c.tags) (m.register r) := by
  refine (m.yields_register r).imp ?_
  rintro _ rfl
  exact ⟨.register _, .register _⟩

theorem source_get :
    Yields (fun a => ∀ key, m.Source ((m.store.record a).get key)) (m.record r) := by
  refine (m.yields_record r).imp fun a ha key => ?_
  rcases Store.get_mem_children (s := m.store) a key with hmem | hnothing
  · exact .child (k := r.toNat) (by rwa [ha])
  · rw [hnothing]
    exact .scalar rfl

theorem source_itemAt : Yields (fun a => ∀ k, m.Source (m.store.itemAt a k)) (m.list r) := by
  refine (m.yields_list r).imp fun a ha k => ?_
  rcases Store.itemAt_mem_children (s := m.store) a k with hmem | hnothing
  · exact .child (k := r.toNat) (by rwa [ha])
  · rw [hnothing]
    exact .scalar rfl

theorem tagSource_tags : Yields m.TagSource (m.tags r) := by
  refine (m.yields_tags r).imp ?_
  rintro _ rfl
  exact .register _

theorem tagSource_bothTags (r' : UInt16) : Yields m.TagSource (m.bothTags r r') := by
  refine (m.yields_bothTags r r').imp ?_
  rintro _ rfl
  exact .both (.register _) (.register _)

end

section

variable {s : Setting} {m n : Machine} {op : Opcode} {i : Instruction}

/-- In every tag mode the destination gets tags of the machine. -/
theorem TagSource.apply {t : TagSet} (h : m.TagSource t) (mode : TagMode) (k : Nat) :
    m.TagSource (mode.apply (m.peek k).tags t) := by
  cases mode with
  | propagate => exact h
  | clear => exact .none
  | keep => exact .register k

theorem effect_write {v : Value} {t : TagSet} (hv : m.Source v) (ht : m.TagSource t) :
    Yields (Effect s op i m) (m.write i v t) := by
  refine (m.yields_write i v t).imp ?_
  rintro _ ⟨hk, rfl⟩
  exact .put hk hv (ht.apply _ _)

theorem effect_setRegister {c : Register} (hc : m.Source c.value ∧ m.TagSource c.tags) :
    Yields (Effect s op i m) (m.setRegister i.dest c) := by
  refine (m.yields_setRegister i.dest c).imp ?_
  rintro _ ⟨hk, rfl⟩
  exact .put hk hc.1 hc.2

/-- What setting a field leaves. -/
theorem yields_setFieldOf (m : Machine) (i : Instruction) (key : String) :
    Yields (fun n => ∃ a, i.dest.toNat < m.registers.size ∧
        (m.peek i.dest.toNat).value = .record a ∧
        n = { m with store := m.store.setField a key (m.peek i.op2.toNat).value }.put i.dest.toNat
          ⟨.record a, (m.peek i.dest.toNat).tags ||| (m.peek i.op2.toNat).tags⟩)
      (m.setFieldOf i key) := by
  refine (m.yields_value i.op2).bind fun v hv => (m.yields_record i.dest).bind fun a ha => ?_
  refine (yields_mergeTags _ i.dest i.op2).imp ?_
  rintro _ ⟨hk, rfl⟩
  exact ⟨a, hk, ha, by rw [← ha, hv]; rfl⟩

/-- What adding to a list leaves. -/
theorem yields_append (s : Setting) (m : Machine) (i : Instruction) :
    Yields (fun n => ∃ a, i.dest.toNat < m.registers.size ∧
        (m.peek i.dest.toNat).value = .list a ∧
        n = { m with store := m.store.push a (m.peek i.op1.toNat).value }.put i.dest.toNat
          ⟨.list a, (m.peek i.dest.toNat).tags ||| (m.peek i.op1.toNat).tags⟩)
      (m.apply s .append i) := by
  refine (m.yields_value i.op1).bind fun v hv => (m.yields_list i.dest).bind fun a ha => ?_
  refine (yields_mergeTags _ i.dest i.op1).imp ?_
  rintro _ ⟨hk, rfl⟩
  exact ⟨a, hk, ha, by rw [← ha, hv]; rfl⟩

theorem effect_setFieldOf (hstored : op.stored? i = some i.op2) (key : String) :
    Yields (Effect s op i m) (m.setFieldOf i key) := by
  refine (m.yields_setFieldOf i key).imp ?_
  rintro _ ⟨a, hk, ha, rfl⟩
  exact .setField hstored hk ha (.both (.register _) (.register _))

theorem effect_append : Yields (Effect s .append i m) (m.apply s .append i) := by
  refine (yields_append s m i).imp ?_
  rintro _ ⟨a, hk, ha, rfl⟩
  exact .append rfl hk ha (.both (.register _) (.register _))

theorem effect_loadField : Yields (Effect s op i m) (m.loadField s i) := by
  unfold Machine.loadField
  split
  · exact .ok .same
  · split
    · exact .ok .same
    · exact (m.source_register _).bind fun c hc => effect_setRegister hc

theorem effect_setTags : Yields (Effect s .setTags i m) (m.setTags s i) := by
  refine (s.yields_constant i.op1).bind fun c hc => ?_
  cases c with
  | integer k =>
    refine (m.yields_slot i.dest).bind ?_
    rintro _ ⟨hk, rfl⟩
    exact .ok (.tags rfl hc hk)
  | _ => exact .ok .same

/-- A plain operation that calls no function is one of the cases, or fails with an error of the
machine's own. -/
theorem yields_apply (hop : op.isCall = false) : Yields (Effect s op i m) (m.apply s op i) := by
  have hscalar {v : Value} (hv : v.isContainer = false) {t : TagSet} (ht : m.TagSource t) :
      Yields (Effect s op i m) (m.write i v t) := effect_write (.scalar hv) ht
  have hboth {f : TagSet → Except Error Machine}
      (hf : ∀ t, m.TagSource t → Yields (Effect s op i m) (f t)) :
      Yields (Effect s op i m) (m.bothTags i.op1 i.op2 >>= f) := (m.tagSource_bothTags _ _).bind hf
  cases op with
  | loadConstant =>
    exact (s.yields_constant _).bind fun c _ => hscalar c.isContainer_value .none
  | loadField => exact effect_loadField
  | loadNothing => exact hscalar rfl .none
  | copy => exact (m.source_register _).bind fun c hc => effect_setRegister hc
  | arithmetic op =>
    exact (m.source_value _).bind fun x _ => (m.source_value _).bind fun y _ =>
      (op.yields_apply x y).bind fun v hv => hboth fun t ht => hscalar hv ht
  | negate =>
    exact (m.source_value _).bind fun x _ => x.yields_negate.bind fun v hv =>
      (m.tagSource_tags _).bind fun t ht => hscalar hv ht
  | compare op =>
    exact (m.yields_compares op _ _).bind fun _ _ => hboth fun t ht => hscalar rfl ht
  | and | or =>
    exact (m.yields_boolean _).bind fun _ _ => (m.yields_boolean _).bind fun _ _ =>
      hboth fun t ht => hscalar rfl ht
  | not =>
    exact (m.yields_boolean _).bind fun _ _ =>
      (m.tagSource_tags _).bind fun t ht => hscalar rfl ht
  | concat =>
    exact (m.source_value _).bind fun _ _ => (m.source_value _).bind fun _ _ =>
      hboth fun t ht => hscalar rfl ht
  | isKind kind =>
    exact (m.source_value _).bind fun _ _ =>
      (m.tagSource_tags _).bind fun t ht => hscalar rfl ht
  | convert target =>
    exact (m.source_value _).bind fun x _ => (m.yields_converted target x).bind fun v hv =>
      (m.tagSource_tags _).bind fun t ht => hscalar hv ht
  | newRecord =>
    refine (yields_write _ i _ 0).imp ?_
    rintro _ ⟨hk, rfl⟩
    exact .record hk (TagSource.none.apply _ _)
  | setField => exact (m.yields_text _).bind fun key _ => effect_setFieldOf rfl key
  | getField =>
    exact (m.source_get _).bind fun a ha => (m.yields_text _).bind fun key _ =>
      (m.tagSource_tags _).bind fun t ht => effect_write (ha key) ht
  | hasField =>
    exact (m.yields_record _).bind fun _ _ => (m.yields_text _).bind fun _ _ =>
      (m.tagSource_tags _).bind fun t ht => hscalar rfl ht
  | newList =>
    refine (yields_write _ i _ 0).imp ?_
    rintro _ ⟨hk, rfl⟩
    exact .list hk (TagSource.none.apply _ _)
  | append => exact effect_append
  | getItem =>
    refine (m.source_itemAt _).bind fun a ha => (m.source_value _).bind fun v _ => ?_
    cases v with
    | integer k => exact (m.tagSource_tags _).bind fun t ht => effect_write (ha k) ht
    | _ => exact .error rfl
  | listLength =>
    exact (m.yields_list _).bind fun _ _ =>
      (m.tagSource_tags _).bind fun t ht => hscalar rfl ht
  | coalesce =>
    exact (m.source_value _).bind fun _ _ => (m.source_register _).bind fun c hc =>
      effect_write hc.1 hc.2
  | call | callValue => cases hop
  | setTags => exact effect_setTags
  | checkTags =>
    exact (s.yields_constant _).bind fun _ _ => (m.yields_tags _).bind fun _ _ =>
      hscalar rfl .none
  | getNamed =>
    exact (m.source_get _).bind fun a ha => (s.yields_constantKey _).bind fun key _ =>
      (m.tagSource_tags _).bind fun t ht => effect_write (ha key) ht
  | setNamed => exact (s.yields_constantKey _).bind fun key _ => effect_setFieldOf rfl key
  | newNamed =>
    refine (s.yields_constantKey _).bind fun key _ => (m.yields_value _).bind fun v hv =>
      (m.tagSource_tags _).bind fun t ht => (yields_write _ i _ t).imp ?_
    rintro _ ⟨hk, rfl⟩
    subst hv
    exact .named hk (ht.apply _ _)
  | jump | jumpIf | jumpIfNot | jumpUnless _ | jumpIfNothing | iterate | collect =>
    exact .ok .same

theorem effect_call {a : RecordRef} {t : TagSet} (ha : m.record i.op2 = .ok a)
    (ht : m.TagSource t) (h : m.call s i a t = .ok n) : Effect s op i m n := by
  unfold Machine.call at h
  split at h
  · exact (effect_write ((m.source_get i.op2).of_eq_ok ha "value") ht).of_eq_ok h
  · obtain ⟨⟨v, store⟩, hcall, h⟩ := bind_eq_ok.1 h
    obtain ⟨hk, rfl⟩ := write_eq_ok h
    exact .call hk (record_eq_ok ha) hcall (ht.apply _ _)

theorem effect_callValue (h : m.callValue s i = .ok n) : Effect s op i m n := by
  obtain ⟨v, hv, h⟩ := bind_eq_ok.1 h
  obtain ⟨t, ht, h⟩ := bind_eq_ok.1 h
  have ht := (m.tagSource_tags i.op2).of_eq_ok ht
  split at h
  · exact (effect_write ((m.source_value i.op2).of_eq_ok hv) ht).of_eq_ok h
  · obtain ⟨⟨w, store⟩, hcall, h⟩ := bind_eq_ok.1 h
    obtain ⟨hk, rfl⟩ := write_eq_ok h
    rw [value_eq_ok hv] at hcall
    exact .callValue hk hcall (ht.apply _ _)

/-- A plain operation that succeeds is one of the cases. -/
theorem effect_of_apply (h : m.apply s op i = .ok n) : Effect s op i m n := by
  cases hop : op.isCall with
  | false => exact (yields_apply hop).of_eq_ok h
  | true =>
    cases op with
    | call =>
      obtain ⟨a, ha, h⟩ := bind_eq_ok.1 h
      obtain ⟨t, ht, h⟩ := bind_eq_ok.1 h
      exact effect_call ha ((m.tagSource_tags i.op2).of_eq_ok ht) h
    | callValue => exact effect_callValue h
    | _ => cases hop

/-! ## What all cases keep -/

theorem Effect.size_registers (h : Effect s op i m n) : n.registers.size = m.registers.size := by
  cases h <;> simp

theorem Effect.executed (h : Effect s op i m n) : n.executed = m.executed := by
  cases h <;> rfl

/-! ## What all steps keep -/

@[simp] theorem size_registers_close (m : Machine) (f : Frame) (results : Array Value) :
    (m.close f results).registers.size = m.registers.size := by
  unfold close finish
  split <;> simp [collected]

@[simp] theorem executed_close (m : Machine) (f : Frame) (results : Array Value) :
    (m.close f results).executed = m.executed := by
  unfold close finish
  split <;> rfl

theorem Advance.size_registers {pc next : Nat} (h : Advance s pc i m next n) :
    n.registers.size = m.registers.size := by
  cases h with
  | plain _ _ happly => exact (effect_of_apply happly).size_registers
  | jump => rfl
  | skip => simp
  | enter => simp [seed]
  | again => simp [seed]
  | leave => simp

/-- Only the run counts instructions. -/
theorem Advance.executed {pc next : Nat} (h : Advance s pc i m next n) :
    n.executed = m.executed := by
  cases h with
  | plain _ _ happly => exact (effect_of_apply happly).executed
  | jump => rfl
  | skip => simp
  | enter => rfl
  | again => rfl
  | leave => simp

end

end Machine

end TagMachine
