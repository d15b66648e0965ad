import TagMachine.Proofs.Flow.Twins
import TagMachine.Proofs.Machine.Effects

set_option autoImplicit false

/-! # Operations of twins

A plain operation that both of two twins carry out leaves twins (`Twins.apply`), unless it puts what
carries the tag where no tag shows it (`Machine.Loses`). There is one lemma for each operation; what
is written depends on the operands only, and its tags are theirs. Operations that leave the stores
alone are treated for any relation that writing keeps (`Coupled.apply_of_isLocal`).
-/

namespace TagMachine

variable {b : Nat} {β γ : Pairing}

/-! ## Operations on related values -/

namespace Pairing.Rel

variable {v w v' w' : Value}

theorem arithmetic_eq (h : β.Rel v w) (h' : β.Rel v' w') (op : ArithmeticOp) :
    op.apply v v' = op.apply w w' := by
  cases h with
  | scalar =>
    cases h' with
    | scalar => rfl
    | _ => cases v <;> rfl
  | _ => cases h' <;> rfl

theorem negate_eq (h : β.Rel v w) : v.negate = w.negate := by
  cases h <;> rfl

theorem compare_eq (h : β.Rel v w) (h' : β.Rel v' w') : v.compare v' = w.compare w' := by
  cases h with
  | scalar =>
    cases h' with
    | scalar => rfl
    | _ => cases v <;> rfl
  | _ => cases h' <;> rfl

theorem toInteger_eq (h : β.Rel v w) : v.toInteger = w.toInteger := by
  cases h <;> rfl

theorem toFloat_eq (h : β.Rel v w) : v.toFloat = w.toFloat := by
  cases h <;> rfl

end Pairing.Rel

/-- Comparisons of related values come out the same, if tests for equality do. -/
theorem CompareOp.holds_eq {s t : Store} {v w v' w' : Value} (hequal : s.equal v v' = t.equal w w')
    (hvw : β.Rel v w) (hvw' : β.Rel v' w') (op : CompareOp) :
    op.holds s v v' = op.holds t w w' := by
  cases op <;> simp only [holds, hequal, hvw.compare_eq hvw']

/-- Whatever two computations give, the results are related. -/
def BothOk {α α' : Type} (R : α → α' → Prop) (x : Except Error α) (y : Except Error α') : Prop :=
  ∀ a a', x = .ok a → y = .ok a' → R a a'

theorem BothOk.bind {α α' δ δ' : Type} {R : δ → δ' → Prop} {x : Except Error α}
    {y : Except Error α'} {f : α → Except Error δ} {g : α' → Except Error δ'}
    (h : ∀ a a', x = .ok a → y = .ok a' → BothOk R (f a) (g a')) :
    BothOk R (x >>= f) (y >>= g) := by
  intro c c' hc hc'
  obtain ⟨a, ha, hc⟩ := bind_eq_ok.1 hc
  obtain ⟨a', ha', hc'⟩ := bind_eq_ok.1 hc'
  exact h a a' ha ha' c c' hc hc'

theorem BothOk.throw {α α' : Type} {R : α → α' → Prop} {e : Error} {y : Except Error α'} :
    BothOk R (.error e) y := nofun

theorem rel_of_map {α : Type} {x : Except Error α} {g : α → Value} {v w : Value}
    (hg : ∀ a, (g a).isContainer = false) (hv : x.map g = .ok v) (hw : x.map g = .ok w) :
    β.Rel v w := by
  cases x with
  | error e => cases hv
  | ok a =>
    obtain rfl := Except.ok.inj hv
    obtain rfl := Except.ok.inj hw
    exact .scalar (hg a)

namespace Machine

/-! ## What a step must not do -/

/-- A value is stored in the container of a register, one of them carries the tag, and something
without the tag shows the container too. -/
def Exposes (b : Nat) (dest value : UInt16) (m : Machine) : Prop :=
  ¬(m.Low b dest.toNat ∧ m.Low b value.toNat) ∧
    ¬m.Hides b dest.toNat (m.peek dest.toNat).value

/-- An iteration over a list without the tag collects, or decides by, what carries the tag. -/
def LosesResult (b : Nat) (m : Machine) (f : Frame) : Prop :=
  TagSet.Lacks b f.sourceTags ∧ f.mode ≠ .fold ∧
    (¬m.Low b f.first ∨
      f.mode ≠ .map ∧ (m.peek f.first).value = .boolean true ∧ ¬m.Low b f.second)

/-- The operation puts what carries the tag where no tag shows it: it reads or writes under a key
that carries the tag what does not, stores in a container that is seen elsewhere without the tag, or
collects what carries the tag from a list that does not. -/
def Loses (b : Nat) (op : Opcode) (i : Instruction) (m : Machine) : Prop :=
  match op with
  | .getField | .hasField | .getItem => m.Low b i.op1.toNat ∧ ¬m.Low b i.op2.toNat
  | .setField =>
    m.Low b i.dest.toNat ∧ m.Low b i.op2.toNat ∧ ¬m.Low b i.op1.toNat ∨ m.Exposes b i.dest i.op2
  | .setNamed => m.Exposes b i.dest i.op2
  | .append => m.Exposes b i.dest i.op1
  | .collect => ∃ f ∈ m.frames.head?, m.LosesResult b f
  | _ => False

instance (b : Nat) (dest value : UInt16) (m : Machine) : Decidable (m.Exposes b dest value) :=
  inferInstanceAs (Decidable (_ ∧ _))

instance (b : Nat) (m : Machine) : DecidablePred (m.LosesResult b) := fun _ =>
  inferInstanceAs (Decidable (_ ∧ _ ∧ _))

instance (b : Nat) (op : Opcode) (i : Instruction) (m : Machine) : Decidable (m.Loses b op i) :=
  match op with
  | .getField | .hasField | .getItem => inferInstanceAs (Decidable (_ ∧ _))
  | .setField => inferInstanceAs (Decidable (_ ∨ _))
  | .setNamed | .append => inferInstanceAs (Decidable (m.Exposes b _ _))
  | .collect => inferInstanceAs (Decidable (∃ f ∈ m.frames.head?, m.LosesResult b f))
  | .loadConstant | .loadField | .loadNothing | .copy | .arithmetic _ | .negate | .compare _ | .and
  | .or | .not | .concat | .isKind _ | .convert _ | .newRecord | .newList | .listLength | .jump
  | .jumpIf | .jumpIfNot | .coalesce | .iterate | .call | .setTags | .checkTags | .getNamed
  | .newNamed | .callValue | .jumpUnless _ | .jumpIfNothing => inferInstanceAs (Decidable False)

end Machine

/-- The instruction hands tags on, does not jump, tags nothing by hand and picks no operand by its
value. -/
def Instruction.Direct (i : Instruction) : Prop :=
  i.tagMode = .propagate ∧
    (Opcode.ofByte? i.opcode).all fun op => !op.isJump && op != .setTags && op != .coalesce

instance : DecidablePred Instruction.Direct := fun _ => inferInstanceAs (Decidable (_ ∧ _))

/-- The instruction does not lose the tag. -/
def Instruction.Keeps (b : Nat) (i : Instruction) (m : Machine) : Prop :=
  ∀ op ∈ Opcode.ofByte? i.opcode, ¬m.Loses b op i

instance (b : Nat) (i : Instruction) : DecidablePred (i.Keeps b) := fun m =>
  inferInstanceAs (Decidable (∀ op ∈ Opcode.ofByte? i.opcode, ¬m.Loses b op i))

/-- Calls change no container that exists, and depend on their arguments up to the places of
containers only. -/
structure FunctionTable.Uniform (functions : FunctionTable) : Prop where
  extends_call : ∀ {id context args s v s'},
    functions.call id context args s = .ok (v, s') → s.Extends s'
  rel_call : ∀ {β : Pairing} {id context a b s t v w s' t'}, β.Matches s t → β.OneToOne →
    β.records a b → functions.call id context a s = .ok (v, s') →
    functions.call id context b t = .ok (w, t') →
    ∃ γ, β ≤ γ ∧ γ.Matches s' t' ∧ γ.OneToOne ∧ γ.Rel v w

/-- The operation writes at most one register, leaves the store alone and picks no operand by its
value. -/
def Opcode.isLocal : Opcode → Bool
  | loadConstant | loadField | loadNothing | copy | arithmetic _ | negate | compare _
  | and | or | not | concat | isKind _ | convert _ | listLength | checkTags | getNamed => true
  | _ => false

namespace Machine

variable {m m' : Machine} {s : Setting} {i : Instruction}

/-! ## Operations that leave the stores alone -/

/-- The machines have related stores and registers, and stay in `R` when registers are written
alike. -/
structure Coupled (b : Nat) (β : Pairing) (R : Machine → Machine → Prop)
    (m m' : Machine) : Prop where
  stores : β.Matches m.store m'.store
  equal_eq : ∀ {v w v' w'}, β.Rel v w → β.Rel v' w' → m.store.equal v v' = m'.store.equal w w'
  registers : ∀ k, (m.peek k).Alike b β (m'.peek k)
  same : R m m'
  put : ∀ k {c d : Register}, c.Alike b β d → R (m.put k c) (m'.put k d)

namespace Coupled

variable {R : Machine → Machine → Prop} (h : Coupled b β R m m') {r : UInt16}

include h

theorem value_rel {v w : Value} (hv : m.value r = .ok v)
    (hw : m'.value r = .ok w) (hlow : m.Low b r.toNat) : β.Rel v w := by
  rw [value_eq_ok hv, value_eq_ok hw]
  exact (h.registers _).value hlow

theorem boolean_eq {x y : Bool} (hx : m.boolean r = .ok x)
    (hy : m'.boolean r = .ok y) (hlow : m.Low b r.toNat) : x = y := by
  have hrel := (h.registers _).value hlow
  rw [boolean_eq_ok hx, boolean_eq_ok hy] at hrel
  exact Value.boolean.inj (hrel.eq_of_scalar rfl)

theorem text_eq {x y : String} (hx : m.text r = .ok x)
    (hy : m'.text r = .ok y) (hlow : m.Low b r.toNat) : x = y := by
  have hrel := (h.registers _).value hlow
  rw [text_eq_ok hx, text_eq_ok hy] at hrel
  exact Value.string.inj (hrel.eq_of_scalar rfl)

theorem list_rel {x y : ListRef} (hx : m.list r = .ok x)
    (hy : m'.list r = .ok y) (hlow : m.Low b r.toNat) : β.lists x y := by
  have hrel := (h.registers _).value hlow
  rw [list_eq_ok hx, list_eq_ok hy] at hrel
  exact hrel.lists_of_list

theorem record_rel {x y : RecordRef} (hx : m.record r = .ok x)
    (hy : m'.record r = .ok y) (hlow : m.Low b r.toNat) : β.records x y := by
  have hrel := (h.registers _).value hlow
  rw [record_eq_ok hx, record_eq_ok hy] at hrel
  exact hrel.records_of_record

/-! ### Writing and copying registers -/

theorem setRegister (r : UInt16) {c d : Register} (hcd : c.Alike b β d) :
    BothOk R (m.setRegister r c) (m'.setRegister r d) := by
  intro n n' hn hn'
  obtain ⟨-, rfl⟩ := setRegister_eq_ok hn
  obtain ⟨-, rfl⟩ := setRegister_eq_ok hn'
  exact h.put _ hcd

theorem apply_copy : BothOk R (m.apply s .copy i) (m'.apply s .copy i) := by
  refine .bind fun c d hc hd => h.setRegister i.dest ?_
  rw [register_eq_ok hc, register_eq_ok hd]
  exact h.registers _

theorem apply_loadField : BothOk R (m.apply s .loadField i) (m'.apply s .loadField i) := by
  have hsame : BothOk R (.ok m) (.ok m') := by
    intro n n' hn hn'
    obtain rfl := Except.ok.inj hn
    obtain rfl := Except.ok.inj hn'
    exact h.same
  show BothOk R (m.loadField s i) (m'.loadField s i)
  unfold Machine.loadField
  cases s.packet.contract.inputs[i.op1.toNat]? with
  | none => exact hsame
  | some f =>
    show BothOk R (if f.register = i.dest then _ else _) (if f.register = i.dest then _ else _)
    split
    · exact hsame
    · refine .bind fun c d hc hd => h.setRegister i.dest ?_
      rw [register_eq_ok hc, register_eq_ok hd]
      exact h.registers _

section Propagate

variable (hmode : i.tagMode = .propagate) {v w : Value} {t t' : TagSet}

include hmode

/-- A result is written with its tags; without the tag the results must be related. -/
theorem write (ht : t = t') (hvw : TagSet.Lacks b t → β.Rel v w) :
    BothOk R (m.write i v t) (m'.write i w t') := by
  intro n n' hn hn'
  obtain ⟨-, rfl⟩ := write_eq_ok hn
  obtain ⟨-, rfl⟩ := write_eq_ok hn'
  rw [hmode]
  exact h.put _ ⟨ht, hvw⟩

/-- A result with the tags of one operand. -/
theorem writeFrom {r : UInt16} (ht : m.tags r = .ok t) (ht' : m'.tags r = .ok t')
    (hvw : m.Low b r.toNat → β.Rel v w) : BothOk R (m.write i v t) (m'.write i w t') := by
  have htags := tags_eq_ok ht
  refine h.write hmode ?_ fun hlow => hvw ?_
  · rw [htags, tags_eq_ok ht', (h.registers _).tags]
  · rwa [htags] at hlow

/-- A result with the tags of two operands. -/
theorem writeBoth (ht : m.bothTags i.op1 i.op2 = .ok t) (ht' : m'.bothTags i.op1 i.op2 = .ok t')
    (hvw : m.Low b i.op1.toNat → m.Low b i.op2.toNat → β.Rel v w) :
    BothOk R (m.write i v t) (m'.write i w t') := by
  have htags := bothTags_eq_ok ht
  refine h.write hmode ?_ fun hlow => ?_
  · rw [htags, bothTags_eq_ok ht', (h.registers _).tags, (h.registers _).tags]
  · obtain ⟨hlow₁, hlow₂⟩ := TagSet.lacks_or.1 (htags ▸ hlow)
    exact hvw hlow₁ hlow₂

/-! ### Scalars -/

theorem apply_arithmetic (op : ArithmeticOp) :
    BothOk R (m.apply s (.arithmetic op) i) (m'.apply s (.arithmetic op) i) := by
  refine .bind fun x x' hx hx' => .bind fun y y' hy hy' => .bind fun v v' hv hv' =>
    .bind fun t t' ht ht' => h.writeBoth hmode ht ht' fun hlow₁ hlow₂ => ?_
  rw [(h.value_rel hx hx' hlow₁).arithmetic_eq (h.value_rel hy hy' hlow₂), hv'] at hv
  obtain rfl := Except.ok.inj hv
  exact .scalar ((op.yields_apply _ _).of_eq_ok hv')

theorem apply_negate : BothOk R (m.apply s .negate i) (m'.apply s .negate i) := by
  refine .bind fun x x' hx hx' => .bind fun v v' hv hv' =>
    .bind fun t t' ht ht' => h.writeFrom hmode ht ht' fun hlow => ?_
  rw [(h.value_rel hx hx' hlow).negate_eq, hv'] at hv
  obtain rfl := Except.ok.inj hv
  exact .scalar (x'.yields_negate.of_eq_ok hv')

theorem apply_compare (op : CompareOp) :
    BothOk R (m.apply s (.compare op) i) (m'.apply s (.compare op) i) := by
  refine .bind fun r r' hr hr' => .bind fun t t' ht ht' =>
    h.writeBoth hmode ht ht' fun hlow₁ hlow₂ => ?_
  obtain ⟨x, hx, hr⟩ := bind_eq_ok.1 hr
  obtain ⟨y, hy, hr⟩ := bind_eq_ok.1 hr
  obtain ⟨x', hx', hr'⟩ := bind_eq_ok.1 hr'
  obtain ⟨y', hy', hr'⟩ := bind_eq_ok.1 hr'
  have hrel₁ := h.value_rel hx hx' hlow₁
  have hrel₂ := h.value_rel hy hy' hlow₂
  rw [op.holds_eq (h.equal_eq hrel₁ hrel₂) hrel₁ hrel₂] at hr
  have hrr : r = r' := by
    cases hholds : op.holds m'.store x' y' with
    | error e => rw [hholds] at hr; cases hr
    | ok c =>
      rw [hholds] at hr hr'
      rw [← pure_eq_ok.1 hr, ← pure_eq_ok.1 hr']
  exact hrr ▸ .scalar rfl

/-- An operation on two truth values. -/
theorem writeBooleans (f : Bool → Bool → Bool) :
    BothOk R
      (do
        let x ← m.boolean i.op1
        let y ← m.boolean i.op2
        m.write i (.boolean (f x y)) (← m.bothTags i.op1 i.op2))
      (do
        let x ← m'.boolean i.op1
        let y ← m'.boolean i.op2
        m'.write i (.boolean (f x y)) (← m'.bothTags i.op1 i.op2)) := by
  refine .bind fun x x' hx hx' => .bind fun y y' hy hy' => .bind fun t t' ht ht' =>
    h.writeBoth hmode ht ht' fun hlow₁ hlow₂ => ?_
  rw [h.boolean_eq hx hx' hlow₁, h.boolean_eq hy hy' hlow₂]
  exact .scalar rfl

theorem apply_not : BothOk R (m.apply s .not i) (m'.apply s .not i) := by
  refine .bind fun x x' hx hx' => .bind fun t t' ht ht' => h.writeFrom hmode ht ht' fun hlow => ?_
  rw [h.boolean_eq hx hx' hlow]
  exact .scalar rfl

theorem apply_concat : BothOk R (m.apply s .concat i) (m'.apply s .concat i) := by
  refine .bind fun x x' hx hx' => .bind fun y y' hy hy' => .bind fun t t' ht ht' =>
    h.writeBoth hmode ht ht' fun hlow₁ hlow₂ => ?_
  rw [h.stores.text_eq (h.value_rel hx hx' hlow₁), h.stores.text_eq (h.value_rel hy hy' hlow₂)]
  exact .scalar rfl

theorem apply_isKind (kind : Kind) :
    BothOk R (m.apply s (.isKind kind) i) (m'.apply s (.isKind kind) i) := by
  refine .bind fun x x' hx hx' => .bind fun t t' ht ht' => h.writeFrom hmode ht ht' fun hlow => ?_
  rw [(h.value_rel hx hx' hlow).kind_eq]
  exact .scalar rfl

theorem apply_convert (target : Conversion) :
    BothOk R (m.apply s (.convert target) i) (m'.apply s (.convert target) i) := by
  refine .bind fun x x' hx hx' => .bind fun v v' hv hv' => .bind fun t t' ht ht' =>
    h.writeFrom hmode ht ht' fun hlow => ?_
  have hrel := h.value_rel hx hx' hlow
  cases target with
  | text =>
    obtain rfl := Except.ok.inj hv
    obtain rfl := Except.ok.inj hv'
    rw [h.stores.text_eq hrel]
    exact .scalar rfl
  | integer =>
    refine rel_of_map (fun n => rfl) ?_ hv'
    rw [← hrel.toInteger_eq]
    exact hv
  | float =>
    refine rel_of_map (fun y => rfl) ?_ hv'
    rw [← hrel.toFloat_eq]
    exact hv
  | boolean =>
    obtain rfl := Except.ok.inj hv
    obtain rfl := Except.ok.inj hv'
    rw [hrel.truthy_eq]
    exact .scalar rfl

/-! ### Reading containers -/

theorem apply_getNamed : BothOk R (m.apply s .getNamed i) (m'.apply s .getNamed i) := by
  refine .bind fun x x' hx hx' => .bind fun key key' hkey hkey' => .bind fun t t' ht ht' =>
    h.writeFrom hmode ht ht' fun hlow => ?_
  obtain rfl : key = key' := Except.ok.inj (hkey.symm.trans hkey')
  exact Pairing.get_rel (h.stores.fields (h.record_rel hx hx' hlow)) key

theorem apply_listLength : BothOk R (m.apply s .listLength i) (m'.apply s .listLength i) := by
  refine .bind fun x x' hx hx' => .bind fun t t' ht ht' => h.writeFrom hmode ht ht' fun hlow => ?_
  have hlength := (h.stores.items (h.list_rel hx hx' hlow)).length_eq
  rw [Array.length_toList, Array.length_toList] at hlength
  rw [hlength]
  exact .scalar rfl

/-! ### Constants and tags -/

theorem apply_loadConstant : BothOk R (m.apply s .loadConstant i) (m'.apply s .loadConstant i) := by
  refine .bind fun c c' hc hc' => h.write hmode rfl fun _ => ?_
  obtain rfl : c = c' := Except.ok.inj (hc.symm.trans hc')
  exact .scalar c.isContainer_value

theorem apply_checkTags : BothOk R (m.apply s .checkTags i) (m'.apply s .checkTags i) := by
  refine .bind fun c c' hc hc' => .bind fun t t' ht ht' => h.write hmode rfl fun _ => ?_
  obtain rfl : c = c' := Except.ok.inj (hc.symm.trans hc')
  rw [tags_eq_ok ht, tags_eq_ok ht', (h.registers _).tags]
  exact .scalar rfl

/-- An operation that leaves the stores alone writes the registers alike. -/
theorem apply_of_isLocal {op : Opcode}
    (hop : op.isLocal = true) : BothOk R (m.apply s op i) (m'.apply s op i) := by
  cases op with
  | loadConstant => exact h.apply_loadConstant hmode
  | loadField => exact h.apply_loadField
  | loadNothing => exact h.write hmode rfl fun _ => .scalar rfl
  | copy => exact h.apply_copy
  | arithmetic op => exact h.apply_arithmetic hmode op
  | negate => exact h.apply_negate hmode
  | compare op => exact h.apply_compare hmode op
  | and => exact h.writeBooleans hmode Bool.and
  | or => exact h.writeBooleans hmode Bool.or
  | not => exact h.apply_not hmode
  | concat => exact h.apply_concat hmode
  | isKind kind => exact h.apply_isKind hmode kind
  | convert target => exact h.apply_convert hmode target
  | listLength => exact h.apply_listLength hmode
  | checkTags => exact h.apply_checkTags hmode
  | getNamed => exact h.apply_getNamed hmode
  | _ => cases hop

end Propagate

end Coupled

/-! ## Operations of twins -/

/-- The machines are twins up to some pairing. -/
def Agree (b : Nat) (m m' : Machine) : Prop := ∃ β, Twins b β m m'

namespace Twins

variable (h : Twins b β m m')

include h

theorem coupled : Coupled b β (Agree b) m m' where
  stores := h.stores
  equal_eq := h.stores.equal_eq h.oneToOne
  registers := h.registers
  same := ⟨β, h⟩
  put k _ _ hcd := ⟨β, h.put k hcd⟩

/-! ### Reading containers -/

theorem apply_getField (hmode : i.tagMode = .propagate) (hkeeps : ¬m.Loses b .getField i) :
    BothOk (Agree b) (m.apply s .getField i) (m'.apply s .getField i) := by
  refine .bind fun x x' hx hx' => .bind fun key key' hkey hkey' => .bind fun t t' ht ht' =>
    h.coupled.writeFrom hmode ht ht' fun hlow => ?_
  have hlowKey : m.Low b i.op2.toNat := not_and_not_right.1 hkeeps hlow
  rw [h.coupled.text_eq hkey hkey' hlowKey]
  exact Pairing.get_rel (h.stores.fields (h.coupled.record_rel hx hx' hlow)) key'

theorem apply_hasField (hmode : i.tagMode = .propagate) (hkeeps : ¬m.Loses b .hasField i) :
    BothOk (Agree b) (m.apply s .hasField i) (m'.apply s .hasField i) := by
  refine .bind fun x x' hx hx' => .bind fun key key' hkey hkey' => .bind fun t t' ht ht' =>
    h.coupled.writeFrom hmode ht ht' fun hlow => ?_
  have hlowKey : m.Low b i.op2.toNat := not_and_not_right.1 hkeeps hlow
  rw [h.coupled.text_eq hkey hkey' hlowKey,
    Pairing.has_eq (h.stores.fields (h.coupled.record_rel hx hx' hlow))]
  exact .scalar rfl

theorem apply_getItem (hmode : i.tagMode = .propagate) (hkeeps : ¬m.Loses b .getItem i) :
    BothOk (Agree b) (m.apply s .getItem i) (m'.apply s .getItem i) := by
  refine .bind fun x x' hx hx' => .bind fun n n' hn hn' => ?_
  cases n with
  | integer n =>
    cases n' with
    | integer n' =>
      refine .bind fun t t' ht ht' => h.coupled.writeFrom hmode ht ht' fun hlow => ?_
      have hlowIndex : m.Low b i.op2.toNat := not_and_not_right.1 hkeeps hlow
      obtain rfl := Value.integer.inj ((h.coupled.value_rel hn hn' hlowIndex).eq_of_scalar rfl)
      exact Pairing.itemAt_rel h.stores (h.coupled.list_rel hx hx' hlow) n
    | _ => exact fun _ _ _ => nofun
  | _ => exact .throw

/-! ### New containers -/

/-- Both stores get a list. It is paired when what it holds is related. -/
theorem newList {low : Prop} (xs ys : Array Value)
    (hxs : low → List.Forall₂ β.Rel xs.toList ys.toList) :
    ∃ γ, β ≤ γ ∧ Twins b γ { m with store := (m.store.newList xs).2 }
        { m' with store := (m'.store.newList ys).2 } ∧
      (low → γ.Rel (.list (m.store.newList xs).1) (.list (m'.store.newList ys).1)) := by
  by_cases hlow : low
  · have hle := Pairing.le_addList β ⟨m.store.lists.size⟩ ⟨m'.store.lists.size⟩
    exact ⟨_, hle, h.withStore hle (h.stores.newList (hxs hlow)) (h.oneToOne.addList h.stores),
      fun _ => .list (.inr ⟨rfl, rfl⟩)⟩
  · refine ⟨β, β.le_refl, h.withStore β.le_refl ?_ h.oneToOne, fun hlow' => absurd hlow' hlow⟩
    exact h.stores.of_extends (m.store.extends_newList xs) (m'.store.extends_newList ys)

/-- Both stores get a record. It is paired when what it holds is related. -/
theorem newRecord {low : Prop} (r r' : Record)
    (hr : low → List.Forall₂ β.FieldRel r.fields r'.fields) :
    ∃ γ, β ≤ γ ∧ Twins b γ { m with store := (m.store.newRecord r).2 }
        { m' with store := (m'.store.newRecord r').2 } ∧
      (low → γ.Rel (.record (m.store.newRecord r).1) (.record (m'.store.newRecord r').1)) := by
  by_cases hlow : low
  · have hle := Pairing.le_addRecord β ⟨m.store.records.size⟩ ⟨m'.store.records.size⟩
    exact ⟨_, hle, h.withStore hle (h.stores.newRecord (hr hlow)) (h.oneToOne.addRecord h.stores),
      fun _ => .record (.inr ⟨rfl, rfl⟩)⟩
  · refine ⟨β, β.le_refl, h.withStore β.le_refl ?_ h.oneToOne, fun hlow' => absurd hlow' hlow⟩
    exact h.stores.of_extends (m.store.extends_newRecord r) (m'.store.extends_newRecord r')

theorem apply_newList (hmode : i.tagMode = .propagate) :
    BothOk (Agree b) (m.apply s .newList i) (m'.apply s .newList i) := by
  obtain ⟨γ, -, htwins, hrel⟩ := h.newList #[] #[] fun _ : True => .nil
  exact htwins.coupled.write hmode rfl fun _ => hrel trivial

theorem apply_newRecord (hmode : i.tagMode = .propagate) :
    BothOk (Agree b) (m.apply s .newRecord i) (m'.apply s .newRecord i) := by
  obtain ⟨γ, -, htwins, hrel⟩ := h.newRecord .empty .empty fun _ : True => .nil
  exact htwins.coupled.write hmode rfl fun _ => hrel trivial

theorem apply_newNamed (hmode : i.tagMode = .propagate) :
    BothOk (Agree b) (m.apply s .newNamed i) (m'.apply s .newNamed i) := by
  refine .bind fun key key' hkey hkey' => .bind fun x x' hx hx' => .bind fun t t' ht ht' => ?_
  obtain rfl : key = key' := Except.ok.inj (hkey.symm.trans hkey')
  have hfields : m.Low b i.op2.toNat →
      List.Forall₂ β.FieldRel (Record.empty.set key x).fields (Record.empty.set key x').fields :=
    fun hlow => Pairing.setField_rel .nil key (h.coupled.value_rel hx hx' hlow)
  obtain ⟨γ, -, htwins, hrel⟩ := h.newRecord _ _ hfields
  have htags := tags_eq_ok ht
  refine htwins.coupled.write hmode ?_ fun hlow => hrel ?_
  · rw [htags, tags_eq_ok ht', (h.registers _).tags]
  · rwa [htags] at hlow

/-! ### Changing containers -/

/-- The container of a register changes and the register gets the tags of what was stored. Where
neither carries the tag, the stores stay matched; else nothing without the tag may show the
container. -/
theorem mutate {dest value : UInt16} {c d : Value} {s t : Store}
    (hc : (m.peek dest.toNat).value = c) (hd : (m'.peek dest.toNat).value = d)
    (hs : m.store.SameOn (· ≠ c) s) (ht : m'.store.SameOn (· ≠ d) t)
    (hlow : m.Low b dest.toNat → m.Low b value.toNat → β.Matches s t)
    (hm : ¬m.Exposes b dest value) (hm' : ¬m'.Exposes b dest value) :
    BothOk (Agree b) ({ m with store := s }.mergeTags dest value)
      ({ m' with store := t }.mergeTags dest value) := by
  intro n n' hn hn'
  obtain ⟨hlt, rfl⟩ := mergeTags_eq_ok hn
  obtain ⟨-, rfl⟩ := mergeTags_eq_ok hn'
  have htags : (m.peek dest.toNat).tags ||| (m.peek value.toNat).tags =
      (m'.peek dest.toNat).tags ||| (m'.peek value.toNat).tags := by
    rw [(h.registers _).tags, (h.registers _).tags]
  by_cases hboth : m.Low b dest.toNat ∧ m.Low b value.toNat
  · have htwins := h.withStore β.le_refl (hlow hboth.1 hboth.2) h.oneToOne
    exact ⟨β, htwins.put _ ⟨htags, fun _ => (h.registers _).value hboth.1⟩⟩
  · have hboth' : ¬(m'.Low b dest.toNat ∧ m'.Low b value.toNat) := by
      rwa [← h.low_iff, ← h.low_iff]
    have hhides : m.Hides b dest.toNat c := by
      by_contra hshown
      exact hm ⟨hboth, hc ▸ hshown⟩
    have hhides' : m'.Hides b dest.toNat d := by
      by_contra hshown
      exact hm' ⟨hboth', hd ▸ hshown⟩
    exact ⟨_,
      h.hide hhides hhides' hs ht htags (fun hlacks => hboth (TagSet.lacks_or.1 hlacks)) hlt⟩

theorem setFieldOf {key key' : String}
    (hkey : m.Low b i.dest.toNat → m.Low b i.op2.toNat → key = key')
    (hm : ¬m.Exposes b i.dest i.op2) (hm' : ¬m'.Exposes b i.dest i.op2) :
    BothOk (Agree b) (m.setFieldOf i key) (m'.setFieldOf i key') := by
  refine .bind fun v v' hv hv' => .bind fun x x' hx hx' => ?_
  refine h.mutate (record_eq_ok hx) (record_eq_ok hx') (m.store.sameOn_setField x key v)
    (m'.store.sameOn_setField x' key' v') (fun hdest hvalue => ?_) hm hm'
  rw [hkey hdest hvalue]
  exact h.stores.setField h.oneToOne (h.coupled.record_rel hx hx' hdest) key'
    (h.coupled.value_rel hv hv' hvalue)

theorem apply_setField (hm : ¬m.Loses b .setField i) (hm' : ¬m'.Loses b .setField i) :
    BothOk (Agree b) (m.apply s .setField i) (m'.apply s .setField i) := by
  refine .bind fun key key' hkey hkey' => h.setFieldOf (fun hdest hvalue => ?_)
    (fun hexposes => hm (.inr hexposes)) fun hexposes => hm' (.inr hexposes)
  refine h.coupled.text_eq hkey hkey' ?_
  by_contra hhigh
  exact hm (.inl ⟨hdest, hvalue, hhigh⟩)

theorem apply_setNamed (hm : ¬m.Loses b .setNamed i) (hm' : ¬m'.Loses b .setNamed i) :
    BothOk (Agree b) (m.apply s .setNamed i) (m'.apply s .setNamed i) := by
  refine .bind fun key key' hkey hkey' => h.setFieldOf (fun _ _ => ?_) hm hm'
  exact Except.ok.inj (hkey.symm.trans hkey')

theorem apply_append (hm : ¬m.Loses b .append i) (hm' : ¬m'.Loses b .append i) :
    BothOk (Agree b) (m.apply s .append i) (m'.apply s .append i) := by
  refine .bind fun v v' hv hv' => .bind fun x x' hx hx' => ?_
  exact h.mutate (list_eq_ok hx) (list_eq_ok hx') (m.store.sameOn_push x v)
    (m'.store.sameOn_push x' v') (fun hdest hvalue =>
      h.stores.push h.oneToOne (h.coupled.list_rel hx hx' hdest)
        (h.coupled.value_rel hv hv' hvalue)) hm hm'

/-! ### Calls -/

/-- A function is called, with arguments that are paired unless they carry the tag. -/
theorem callWith (hs : s.functions.Uniform) (hmode : i.tagMode = .propagate)
    {a a' : RecordRef} {t t' : TagSet} (ht : t = t') (hargs : TagSet.Lacks b t → β.records a a') :
    BothOk (Agree b)
      (do
        let (v, store) ← s.functions.call i.op1 ⟨s.timestamp, m.executed⟩ a m.store
        { m with store }.write i v t)
      (do
        let (v, store) ← s.functions.call i.op1 ⟨s.timestamp, m'.executed⟩ a' m'.store
        { m' with store }.write i v t') := by
  refine .bind fun r r' hr hr' => ?_
  obtain ⟨v, st⟩ := r
  obtain ⟨v', st'⟩ := r'
  rw [h.executed] at hr
  by_cases hlow : TagSet.Lacks b t
  · obtain ⟨γ, hle, hmatches, hone, hrel⟩ :=
      hs.rel_call h.stores h.oneToOne (hargs hlow) hr hr'
    exact (h.withStore hle hmatches hone).coupled.write hmode ht fun _ => hrel
  · have hmatches := h.stores.of_extends (hs.extends_call hr) (hs.extends_call hr')
    exact (h.withStore β.le_refl hmatches h.oneToOne).coupled.write hmode ht
      fun hlow' => absurd hlow' hlow

theorem apply_call (hs : s.functions.Uniform) (hmode : i.tagMode = .propagate) :
    BothOk (Agree b) (m.apply s .call i) (m'.apply s .call i) := by
  refine .bind fun x x' hx hx' => .bind fun t t' ht ht' => ?_
  unfold Machine.call
  split
  · refine h.coupled.writeFrom hmode ht ht' fun hlow => ?_
    exact Pairing.get_rel (h.stores.fields (h.coupled.record_rel hx hx' hlow)) "value"
  · have htags := tags_eq_ok ht
    refine h.callWith hs hmode ?_ fun hlow => ?_
    · rw [htags, tags_eq_ok ht', (h.registers _).tags]
    · exact h.coupled.record_rel hx hx' (by rwa [htags] at hlow)

theorem apply_callValue (hs : s.functions.Uniform) (hmode : i.tagMode = .propagate) :
    BothOk (Agree b) (m.apply s .callValue i) (m'.apply s .callValue i) := by
  refine .bind fun x x' hx hx' => .bind fun t t' ht ht' => ?_
  split
  · exact h.coupled.writeFrom hmode ht ht' fun hlow => h.coupled.value_rel hx hx' hlow
  · have htags := tags_eq_ok ht
    -- The argument is put in a record of its own.
    obtain ⟨γ, hle, htwins, hrel⟩ := h.newRecord (Record.empty.set "value" x)
      (Record.empty.set "value" x') fun hlow : TagSet.Lacks b t =>
        Pairing.setField_rel .nil "value" (h.coupled.value_rel hx hx' (by rwa [htags] at hlow))
    refine htwins.callWith hs hmode ?_ fun hlow => (hrel hlow).records_of_record
    rw [htags, tags_eq_ok ht', (h.registers _).tags]

/-! ### All operations -/

/-- A plain operation that tags nothing by hand, picks no operand by its value and does not lose the
tag leaves twins. -/
theorem apply (hs : s.functions.Uniform) (hmode : i.tagMode = .propagate)
    {op : Opcode} (hplain : op.isPlain = true) (htag : op ≠ .setTags) (hpick : op ≠ .coalesce)
    (hm : ¬m.Loses b op i) (hm' : ¬m'.Loses b op i) :
    BothOk (Agree b) (m.apply s op i) (m'.apply s op i) := by
  cases op with
  | loadConstant | loadField | loadNothing | copy | arithmetic _ | negate | compare _
  | and | or | not | concat | isKind _ | convert _ | listLength | checkTags | getNamed =>
    exact h.coupled.apply_of_isLocal hmode rfl
  | newRecord => exact h.apply_newRecord hmode
  | setField => exact h.apply_setField hm hm'
  | getField => exact h.apply_getField hmode hm
  | hasField => exact h.apply_hasField hmode hm
  | newList => exact h.apply_newList hmode
  | append => exact h.apply_append hm hm'
  | getItem => exact h.apply_getItem hmode hm
  | call => exact h.apply_call hs hmode
  | callValue => exact h.apply_callValue hs hmode
  | setNamed => exact h.apply_setNamed hm hm'
  | newNamed => exact h.apply_newNamed hmode
  | setTags => exact absurd rfl htag
  | coalesce => exact absurd rfl hpick
  | _ => cases hplain

end Twins

end Machine

end TagMachine
