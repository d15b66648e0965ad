import TagMachine.Proofs.Machine.Step

set_option autoImplicit false

/-! # Registers and operands

What reading an operand gives when it succeeds, and what a machine looks like after a register was
written. Everything is said in terms of `Machine.peek`, the contents of a register by its place.
-/

namespace TagMachine

/-- Whether an error is one of running a program that lacks no function. -/
def Error.isLocal : Error → Bool
  | type _ => true
  | domain _ => true
  | program _ => true
  | _ => false

/-- A computation gives what has a property, or meets an error of the machine's own. -/
inductive Yields {α : Type} (P : α → Prop) : Except Error α → Prop
  | ok {a : α} (h : P a) : Yields P (.ok a)
  | error {e : Error} (h : e.isLocal = true) : Yields P (.error e)

namespace Yields

variable {α β : Type} {P : α → Prop} {Q : β → Prop} {x : Except Error α}

theorem bind {f : α → Except Error β} (hx : Yields P x) (hf : ∀ a, P a → Yields Q (f a)) :
    Yields Q (x >>= f) := by
  cases hx with
  | ok h => exact hf _ h
  | error h => exact .error h

theorem map {g : α → β} (hx : Yields P x) (hg : ∀ a, P a → Q (g a)) : Yields Q (x.map g) := by
  cases hx with
  | ok h => exact .ok (hg _ h)
  | error h => exact .error h

theorem imp {P' : α → Prop} (hx : Yields P x) (h : ∀ a, P a → P' a) : Yields P' x := by
  cases hx with
  | ok ha => exact .ok (h _ ha)
  | error he => exact .error he

theorem of_eq_ok {a : α} (hx : Yields P x) (h : x = .ok a) : P a := by
  subst h
  cases hx with
  | ok h => exact h

theorem of_eq_error {e : Error} (hx : Yields P x) (h : x = .error e) : e.isLocal = true := by
  subst h
  cases hx with
  | error h => exact h

end Yields

namespace Machine

variable {m n : Machine} {r : UInt16} {k : Nat} {v : Value} {c : Register} {t : TagSet}
  {i : Instruction}

/-! ## Writing registers -/

theorem peek_eq (m : Machine) (k : Nat) : m.peek k = m.registers[k]?.getD {} :=
  Array.getD_eq_getD_getElem?

@[simp] theorem put_store (m : Machine) (k : Nat) (c : Register) :
    (m.put k c).store = m.store := rfl

@[simp] theorem size_put (m : Machine) (k : Nat) (c : Register) :
    (m.put k c).registers.size = m.registers.size := by
  simp [put]

theorem peek_of_le (h : m.registers.size ≤ k) : m.peek k = {} := by
  simp [peek_eq, h]

/-- The registers are empty at the start. -/
theorem peek_start (p : Packet) (store : Store) (k : Nat) : (start p store).peek k = {} := by
  by_cases hk : k < p.contract.size.toNat <;> simp [peek_eq, start, hk]

theorem peek_put_self (h : k < m.registers.size) (c : Register) : (m.put k c).peek k = c := by
  simp [peek_eq, put, h]

theorem peek_withStore_put_self {store : Store} (h : k < m.registers.size)
    (c : Register) : ({ m with store }.put k c).peek k = c :=
  peek_put_self (m := { m with store }) h c

theorem peek_put_of_ne {j : Nat} (h : k ≠ j) (c : Register) : (m.put k c).peek j = m.peek j := by
  simp [peek_eq, put, h]

/-- After a register was written, a register holds what was written or what it held before. -/
theorem peek_put_cases (m : Machine) (k : Nat) (c : Register) (j : Nat) :
    (m.put k c).peek j = c ∨ (m.put k c).peek j = m.peek j := by
  by_cases hj : k = j
  · subst hj
    by_cases hk : k < m.registers.size
    · exact .inl (peek_put_self hk c)
    · right
      rw [peek_of_le (by simpa using hk), peek_of_le (by simpa using hk)]
  · exact .inr (peek_put_of_ne hj c)

/-- A register outside the scratchpad cannot be written. -/
theorem put_of_le (h : m.registers.size ≤ k) (c : Register) : m.put k c = m := by
  simp [put, Array.setIfInBounds, Nat.not_lt.2 h]

@[simp] theorem put_put (m : Machine) (k : Nat) (c d : Register) :
    (m.put k c).put k d = m.put k d := by
  simp [put]

/-! ## Reading operands -/

theorem slot_eq_ok : m.slot r = .ok k ↔ r.toNat < m.registers.size ∧ r.toNat = k := by
  unfold slot
  split <;> simp_all

theorem slot_eq_error {e : Error} (h : m.slot r = .error e) :
    m.registers.size ≤ r.toNat ∧ e = .program (.registerOutside r m.registers.size) := by
  unfold slot at h
  split at h
  · cases h
  · next hr => exact ⟨Nat.not_lt.1 hr, (Except.error.inj h).symm⟩

theorem lt_size_of_slot (h : m.slot r = .ok k) : k < m.registers.size := by
  obtain ⟨hlt, rfl⟩ := slot_eq_ok.1 h
  exact hlt

/-- A register that can be read exists. -/
theorem lt_size_of_value (h : m.value r = .ok v) : r.toNat < m.registers.size := by
  obtain ⟨c, hc, -⟩ := bind_eq_ok.1 h
  obtain ⟨k, hk, -⟩ := bind_eq_ok.1 hc
  exact (slot_eq_ok.1 hk).1

theorem tags_of_lt_size (h : r.toNat < m.registers.size) :
    m.tags r = .ok (m.peek r.toNat).tags := by
  simp only [tags, register, slot, h, if_true]
  rfl

theorem value_of_lt (h : r.toNat < m.registers.size) : m.value r = .ok (m.peek r.toNat).value := by
  unfold value register slot
  rw [if_pos h]
  rfl

section Yields

variable (m r)

theorem yields_slot : Yields (fun k => r.toNat < m.registers.size ∧ r.toNat = k) (m.slot r) := by
  unfold slot
  split
  · exact .ok ⟨‹_›, rfl⟩
  · exact .error rfl

theorem yields_register : Yields (· = m.peek r.toNat) (m.register r) :=
  (m.yields_slot r).bind fun _ hk => .ok (hk.2 ▸ rfl)

theorem yields_value : Yields (· = (m.peek r.toNat).value) (m.value r) :=
  (m.yields_register r).bind fun _ hc => .ok (congrArg Register.value hc)

theorem yields_tags : Yields (· = (m.peek r.toNat).tags) (m.tags r) :=
  (m.yields_register r).bind fun _ hc => .ok (congrArg Register.tags hc)

theorem yields_bothTags (r' : UInt16) :
    Yields (· = (m.peek r.toNat).tags ||| (m.peek r'.toNat).tags) (m.bothTags r r') :=
  (m.yields_tags r).bind fun _ ht => (m.yields_tags r').bind fun _ hu => .ok (ht ▸ hu ▸ rfl)

theorem yields_boolean : Yields (fun b => (m.peek r.toNat).value = .boolean b) (m.boolean r) := by
  refine (m.yields_value r).bind fun v hv => ?_
  cases v with
  | boolean b => exact .ok hv.symm
  | _ => exact .error rfl

theorem yields_text : Yields (fun s => (m.peek r.toNat).value = .string s) (m.text r) := by
  refine (m.yields_value r).bind fun v hv => ?_
  cases v with
  | string s => exact .ok hv.symm
  | _ => exact .error rfl

theorem yields_list : Yields (fun a => (m.peek r.toNat).value = .list a) (m.list r) := by
  refine (m.yields_value r).bind fun v hv => ?_
  cases v with
  | list a => exact .ok hv.symm
  | _ => exact .error rfl

theorem yields_record : Yields (fun a => (m.peek r.toNat).value = .record a) (m.record r) := by
  refine (m.yields_value r).bind fun v hv => ?_
  cases v with
  | record a => exact .ok hv.symm
  | _ => exact .error rfl

end Yields

theorem register_eq_ok (h : m.register r = .ok c) : c = m.peek r.toNat :=
  (m.yields_register r).of_eq_ok h

theorem value_eq_ok (h : m.value r = .ok v) : v = (m.peek r.toNat).value :=
  (m.yields_value r).of_eq_ok h

theorem tags_eq_ok (h : m.tags r = .ok t) : t = (m.peek r.toNat).tags :=
  (m.yields_tags r).of_eq_ok h

theorem bothTags_eq_ok {a b : UInt16} (h : m.bothTags a b = .ok t) :
    t = (m.peek a.toNat).tags ||| (m.peek b.toNat).tags :=
  (m.yields_bothTags a b).of_eq_ok h

theorem boolean_eq_ok {b : Bool} (h : m.boolean r = .ok b) : (m.peek r.toNat).value = .boolean b :=
  (m.yields_boolean r).of_eq_ok h

theorem text_eq_ok {s : String} (h : m.text r = .ok s) : (m.peek r.toNat).value = .string s :=
  (m.yields_text r).of_eq_ok h

theorem list_eq_ok {a : ListRef} (h : m.list r = .ok a) : (m.peek r.toNat).value = .list a :=
  (m.yields_list r).of_eq_ok h

theorem record_eq_ok {a : RecordRef} (h : m.record r = .ok a) :
    (m.peek r.toNat).value = .record a :=
  (m.yields_record r).of_eq_ok h

/-! ## Writing results -/

theorem yields_setRegister (m : Machine) (r : UInt16) (c : Register) :
    Yields (fun n => r.toNat < m.registers.size ∧ n = m.put r.toNat c) (m.setRegister r c) :=
  (m.yields_slot r).bind fun _ hk => .ok ⟨hk.1, hk.2 ▸ rfl⟩

theorem setRegister_eq_ok (h : m.setRegister r c = .ok n) :
    r.toNat < m.registers.size ∧ n = m.put r.toNat c :=
  (m.yields_setRegister r c).of_eq_ok h

theorem setRegister_eq_error {e : Error} (h : m.setRegister r c = .error e) :
    m.registers.size ≤ r.toNat ∧ e = .program (.registerOutside r m.registers.size) := by
  rcases bind_eq_error.1 h with hslot | ⟨k, -, h⟩
  · exact slot_eq_error hslot
  · cases h

theorem yields_write (m : Machine) (i : Instruction) (v : Value) (t : TagSet) :
    Yields (fun n => i.dest.toNat < m.registers.size ∧
      n = m.put i.dest.toNat ⟨v, i.tagMode.apply (m.peek i.dest.toNat).tags t⟩) (m.write i v t) :=
  (m.yields_slot i.dest).bind fun _ hk => .ok ⟨hk.1, hk.2 ▸ rfl⟩

theorem write_eq_ok (h : m.write i v t = .ok n) :
    i.dest.toNat < m.registers.size ∧
      n = m.put i.dest.toNat ⟨v, i.tagMode.apply (m.peek i.dest.toNat).tags t⟩ :=
  (m.yields_write i v t).of_eq_ok h

theorem write_of_lt (h : i.dest.toNat < m.registers.size) (v : Value) (t : TagSet) :
    m.write i v t =
      .ok (m.put i.dest.toNat ⟨v, i.tagMode.apply (m.peek i.dest.toNat).tags t⟩) := by
  unfold write slot
  rw [if_pos h]
  rfl

theorem write_of_le (h : m.registers.size ≤ i.dest.toNat) (v : Value) (t : TagSet) :
    m.write i v t = .error (.program (.registerOutside i.dest m.registers.size)) := by
  unfold write slot
  rw [if_neg (Nat.not_lt.2 h)]
  rfl

theorem yields_mergeTags (m : Machine) (dest source : UInt16) :
    Yields (fun n => dest.toNat < m.registers.size ∧
      n = m.put dest.toNat ⟨(m.peek dest.toNat).value,
        (m.peek dest.toNat).tags ||| (m.peek source.toNat).tags⟩) (m.mergeTags dest source) :=
  (m.yields_tags source).bind fun _ ht => (m.yields_slot dest).bind fun _ hk =>
    .ok ⟨hk.1, hk.2 ▸ ht ▸ rfl⟩

theorem mergeTags_eq_ok {dest source : UInt16} (h : m.mergeTags dest source = .ok n) :
    dest.toNat < m.registers.size ∧
      n = m.put dest.toNat ⟨(m.peek dest.toNat).value,
        (m.peek dest.toNat).tags ||| (m.peek source.toNat).tags⟩ :=
  (m.yields_mergeTags dest source).of_eq_ok h

theorem mergeTags_of_lt {d v : UInt16} (hd : d.toNat < m.registers.size)
    (hv : v.toNat < m.registers.size) :
    m.mergeTags d v = .ok (m.put d.toNat
      ⟨(m.peek d.toNat).value, (m.peek d.toNat).tags ||| (m.peek v.toNat).tags⟩) := by
  unfold mergeTags slot
  rw [tags_of_lt_size hv, if_pos hd]
  rfl

end Machine

end TagMachine
