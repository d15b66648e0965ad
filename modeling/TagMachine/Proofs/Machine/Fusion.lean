import TagMachine.Proofs.Machine.Session
import TagMachine.Proofs.Store.Trees

set_option autoImplicit false

/-! # Fused instructions

Some instructions do in one step what two others do through a register of their own: a jump that
compares, an access to a field whose key is a constant, a new record with a field in it, a call with
a single argument. `Machine.Fuses` says that one instruction and a pair of others both fail, or both
succeed, go the same way and leave related machines.

The pair leaves the machine that the fused instruction leaves, but for the register between the two
(`Machine.AgreesBut`). A call that gives back its argument is the one exception: the pair makes a
record for the argument, and nothing but that register gets to refer to it.
-/

namespace TagMachine

theorem Record.get_set_empty (key : String) (v : Value) : (Record.empty.set key v).get key = v := by
  simp [get, get?, set, empty, setField]

namespace Machine

/-! ## Pairs of instructions -/

/-- Two instructions, the second at the place that the first leads to. -/
def stepTwice (s : Setting) (pc : Nat) (j k : Instruction) (m : Machine) :
    Except Error (Nat × Machine) := do
  let (next, m) ← m.step s pc j
  m.step s next k

/-- What one instruction does and what a pair of others does, wherever they stand. Both fail, or
both succeed, jump or go on, and leave related machines. -/
inductive Fuses (s : Setting) (m : Machine) (R : Machine → Machine → Prop)
    (i j k : Instruction) : Prop
  | failure (fused : ∀ pc, ∃ e, m.step s pc i = .error e)
      (pair : ∀ pc, ∃ e, m.stepTwice s pc j k = .error e)
  | success (taken : Bool) {m₁ m₂ : Machine}
      (fused : ∀ pc, m.step s pc i = .ok (if taken then i.dest.toNat else pc + 1, m₁))
      (pair : ∀ pc, m.stepTwice s pc j k = .ok (if taken then i.dest.toNat else pc + 2, m₂))
      (related : R m₁ m₂)

section Fuses

variable {s : Setting} {m : Machine} {R : Machine → Machine → Prop} {op op₁ op₂ : Opcode}
  {flags flags₁ flags₂ : UInt8} {d d₁ d₂ a a₁ a₂ b b₁ b₂ : UInt16}

theorem step_plain (h : op.isPlain = true) (pc : Nat) :
    m.step s pc (op.on flags d a b) =
      m.apply s op (op.on flags d a b) >>= fun n => pure (pc + 1, n) := by
  rw [step_of_ofByte? (Opcode.ofByte?_byte op), execute_of_isPlain h]

theorem step_jump {taken : Except Error Bool} (h : m.jumps? op (op.on flags d a b) = some taken)
    (pc : Nat) : m.step s pc (op.on flags d a b) =
      taken >>= fun t => pure (if t then d.toNat else pc + 1, m) := by
  rw [step_of_ofByte? (Opcode.ofByte?_byte op), execute_of_jumps? h]
  rfl

/-- A plain instruction in place of two plain ones. -/
theorem fuses_of_plain (h : op.isPlain = true) (h₁ : op₁.isPlain = true) (h₂ : op₂.isPlain = true)
    (halike : Alike R (m.apply s op (op.on flags d a b))
      (m.apply s op₁ (op₁.on flags₁ d₁ a₁ b₁) >>= fun n =>
        n.apply s op₂ (op₂.on flags₂ d₂ a₂ b₂))) :
    m.Fuses s R (op.on flags d a b) (op₁.on flags₁ d₁ a₁ b₁) (op₂.on flags₂ d₂ a₂ b₂) := by
  have hpair : ∀ pc, m.stepTwice s pc (op₁.on flags₁ d₁ a₁ b₁) (op₂.on flags₂ d₂ a₂ b₂) =
      (m.apply s op₁ (op₁.on flags₁ d₁ a₁ b₁) >>= fun n =>
        n.apply s op₂ (op₂.on flags₂ d₂ a₂ b₂)) >>= fun n => pure (pc + 2, n) := by
    intro pc
    unfold stepTwice
    simp only [step_plain h₁, step_plain h₂, bind_assoc, pure_bind]
  generalize hx : m.apply s op (op.on flags d a b) = x at halike
  generalize (m.apply s op₁ (op₁.on flags₁ d₁ a₁ b₁) >>= fun n =>
    n.apply s op₂ (op₂.on flags₂ d₂ a₂ b₂)) = y at halike hpair
  cases halike with
  | error e e' =>
    refine .failure (fun pc => ⟨e, ?_⟩) fun pc => ⟨e', hpair pc⟩
    rw [step_plain h, hx]
    rfl
  | ok hrelated =>
    refine .success false (fun pc => ?_) (fun pc => hpair pc) hrelated
    rw [step_plain h, hx]
    rfl

/-- A jump in place of a test and a jump on its result. -/
theorem fuses_of_jump {test : Except Error Bool} (h : m.jumps? op (op.on flags d a b) = some test)
    (h₁ : op₁.isPlain = true)
    (halike : Alike (fun t n => n.jumps? op₂ (op₂.on flags₂ d a₂ b₂) = some (.ok t) ∧ R m n)
      test (m.apply s op₁ (op₁.on flags₁ d₁ a₁ b₁))) :
    m.Fuses s R (op.on flags d a b) (op₁.on flags₁ d₁ a₁ b₁) (op₂.on flags₂ d a₂ b₂) := by
  generalize hy : m.apply s op₁ (op₁.on flags₁ d₁ a₁ b₁) = y at halike
  cases halike with
  | error e e' =>
    refine .failure (fun pc => ⟨e, step_jump h pc⟩) fun pc => ⟨e', ?_⟩
    unfold stepTwice
    rw [step_plain h₁, hy]
    rfl
  | @ok t n hrelated =>
    refine .success t (fun pc => step_jump h pc) (fun pc => ?_) hrelated.2
    unfold stepTwice
    rw [step_plain h₁, hy]
    exact step_jump hrelated.1 (pc + 1)

end Fuses

/-! ## Machines that agree but for a register -/

/-- Two machines differ at most in what one register holds. -/
structure AgreesBut (tmp : UInt16) (m n : Machine) : Prop where
  size : n.registers.size = m.registers.size
  registers : ∀ k, k ≠ tmp.toNat → n.peek k = m.peek k
  store : n.store = m.store
  frames : n.frames = m.frames
  executed : n.executed = m.executed

section AgreesBut

variable {tmp r : UInt16} {m n : Machine}

theorem agreesBut_put (m : Machine) (tmp : UInt16) (c : Register) :
    m.AgreesBut tmp (m.put tmp.toNat c) where
  size := size_put ..
  registers _ hk := peek_put_of_ne (Ne.symm hk) c
  store := rfl
  frames := rfl
  executed := rfl

namespace AgreesBut

theorem peek (h : m.AgreesBut tmp n) (hr : r ≠ tmp) : n.peek r.toNat = m.peek r.toNat :=
  h.registers r.toNat fun heq => hr (UInt16.toNat_inj.1 heq)

theorem slot (h : m.AgreesBut tmp n) (r : UInt16) : n.slot r = m.slot r := by
  unfold Machine.slot
  rw [h.size]

theorem register (h : m.AgreesBut tmp n) (hr : r ≠ tmp) : n.register r = m.register r := by
  unfold Machine.register
  rw [h.slot]
  cases hk : m.slot r with
  | error e => rfl
  | ok k =>
    obtain ⟨-, rfl⟩ := slot_eq_ok.1 hk
    exact congrArg Except.ok (h.peek hr)

theorem value (h : m.AgreesBut tmp n) (hr : r ≠ tmp) : n.value r = m.value r := by
  unfold Machine.value
  rw [h.register hr]

theorem tags (h : m.AgreesBut tmp n) (hr : r ≠ tmp) : n.tags r = m.tags r := by
  unfold Machine.tags
  rw [h.register hr]

theorem record (h : m.AgreesBut tmp n) (hr : r ≠ tmp) : n.record r = m.record r := by
  unfold Machine.record
  rw [h.value hr]

theorem withStore (h : m.AgreesBut tmp n) (store : Store) :
    AgreesBut tmp { m with store } { n with store } where
  size := h.size
  registers := h.registers
  store := rfl
  frames := h.frames
  executed := h.executed

theorem put (h : m.AgreesBut tmp n) {k : Nat} {c c' : Register} (hc : k ≠ tmp.toNat → c' = c) :
    (m.put k c).AgreesBut tmp (n.put k c') where
  size := by rw [size_put, size_put, h.size]
  registers j hj := by
    by_cases hk : k = j
    · subst hk
      rw [hc hj]
      by_cases hlt : k < m.registers.size
      · rw [peek_put_self hlt, peek_put_self (h.size ▸ hlt)]
      · rw [put_of_le (Nat.not_lt.1 hlt), put_of_le (h.size ▸ Nat.not_lt.1 hlt), h.registers k hj]
    · rw [peek_put_of_ne hk, peek_put_of_ne hk, h.registers j hj]
  store := h.store
  frames := h.frames
  executed := h.executed

/-- The destination may be the register in which the machines differ: what it holds afterwards does
not count. -/
theorem write (h : m.AgreesBut tmp n) (i : Instruction) (v : Value) (t : TagSet) :
    Alike (AgreesBut tmp) (m.write i v t) (n.write i v t) := by
  unfold Machine.write
  rw [h.slot]
  cases hk : m.slot i.dest with
  | error e => exact .error e e
  | ok k =>
    refine .ok (h.put fun hne => ?_)
    rw [h.registers k hne]

theorem mergeTags (h : m.AgreesBut tmp n) {dest source : UInt16} (hs : source ≠ tmp) :
    Alike (AgreesBut tmp) (m.mergeTags dest source) (n.mergeTags dest source) := by
  unfold Machine.mergeTags
  rw [h.tags hs, h.slot]
  cases m.tags source with
  | error e => exact .error e e
  | ok t =>
    cases hk : m.slot dest with
    | error e => exact .error e e
    | ok k =>
      refine .ok (h.put fun hne => ?_)
      rw [h.registers k hne]

end AgreesBut

end AgreesBut

/-! ## The register between the two -/

section Between

variable {s : Setting} {m : Machine} {tmp : UInt16} {d v k : UInt16} {flags : UInt8}

theorem value_put_self (h : tmp.toNat < m.registers.size) (c : Register) :
    (m.put tmp.toNat c).value tmp = .ok c.value := by
  rw [value_of_lt (by rwa [size_put]), peek_put_self h]

theorem record_put_self (h : tmp.toNat < m.registers.size) (ref : RecordRef) (t : TagSet) :
    (m.put tmp.toNat ⟨.record ref, t⟩).record tmp = .ok ref := by
  unfold record
  rw [value_put_self h]
  rfl

/-- The result of a test is where the jump looks for it. -/
theorem write_boolean (h : tmp.toNat < m.registers.size) {i : Instruction} (hi : i.dest = tmp)
    (b : Bool) (t : TagSet) :
    ∃ n, m.write i (.boolean b) t = .ok n ∧ n.boolean tmp = .ok b ∧ m.AgreesBut tmp n := by
  subst hi
  refine ⟨_, write_of_lt h .., ?_, agreesBut_put ..⟩
  unfold boolean
  rw [value_put_self h]
  rfl

/-- A constant that is loaded into a register is a text there if it is a key. -/
theorem loadConstant_cases (h : tmp.toNat < m.registers.size) (flags : UInt8) (k x : UInt16) :
    (∃ e e', s.constantKey k = .error e ∧
        m.apply s .loadConstant (Opcode.loadConstant.on flags tmp k x) = .error e') ∨
      ∃ n, m.apply s .loadConstant (Opcode.loadConstant.on flags tmp k x) = .ok n ∧
        m.AgreesBut tmp n ∧ Alike Eq (s.constantKey k) (n.text tmp) := by
  unfold Setting.constantKey
  cases hc : s.constant k with
  | error e =>
    refine .inl ⟨e, e, rfl, ?_⟩
    show s.constant k >>= _ = _
    rw [hc]
    rfl
  | ok c =>
    obtain ⟨t, hwrite⟩ : ∃ t, m.write (Opcode.loadConstant.on flags tmp k x) c.value 0 =
        .ok (m.put tmp.toNat ⟨c.value, t⟩) := ⟨_, write_of_lt h ..⟩
    refine .inr ⟨m.put tmp.toNat ⟨c.value, t⟩, ?_, agreesBut_put .., ?_⟩
    · show s.constant k >>= _ = _
      rw [hc]
      exact hwrite
    · unfold text
      rw [value_put_self h]
      cases c with
      | string key => exact .ok rfl
      | _ => exact .error _ _

/-! ## Fused jumps -/

theorem fuses_compare (h : tmp.toNat < m.registers.size) (op : CompareOp)
    (flags flags₁ flags₂ : UInt8) (dest a b x : UInt16) :
    m.Fuses s (AgreesBut tmp) ((Opcode.jumpUnless op).on flags dest a b)
      ((Opcode.compare op).on flags₁ tmp a b) (Opcode.jumpIfNot.on flags₂ dest tmp x) := by
  refine fuses_of_jump rfl rfl ?_
  show Alike _ ((m.compares op a b).map not) (m.compares op a b >>= _)
  cases hc : m.compares op a b with
  | error e => exact .error e e
  | ok result =>
    -- both operands were read, so their tags can be
    obtain ⟨v, hv, hc⟩ := bind_eq_ok.1 hc
    obtain ⟨w, hw, -⟩ := bind_eq_ok.1 hc
    have htags : m.bothTags a b = .ok ((m.peek a.toNat).tags ||| (m.peek b.toNat).tags) := by
      unfold bothTags
      rw [tags_of_lt_size (lt_size_of_value hv), tags_of_lt_size (lt_size_of_value hw)]
      rfl
    show Alike _ (.ok !result) (m.bothTags a b >>= fun t =>
      m.write ((Opcode.compare op).on flags₁ tmp a b) (.boolean result) t)
    rw [htags, ok_bind]
    obtain ⟨n, hwrite, hresult, hagree⟩ := write_boolean h
      (i := (Opcode.compare op).on flags₁ tmp a b) rfl result
      ((m.peek a.toNat).tags ||| (m.peek b.toNat).tags)
    rw [hwrite]
    refine .ok ⟨?_, hagree⟩
    show some ((n.boolean tmp).map not) = _
    rw [hresult]
    rfl

theorem fuses_isNothing (h : tmp.toNat < m.registers.size) (flags flags₁ flags₂ : UInt8)
    (dest a b x y : UInt16) :
    m.Fuses s (AgreesBut tmp) (Opcode.jumpIfNothing.on flags dest a b)
      ((Opcode.isKind .nothing).on flags₁ tmp a x) (Opcode.jumpIf.on flags₂ dest tmp y) := by
  refine fuses_of_jump rfl rfl ?_
  show Alike _ ((m.value a).map Value.isNothing) (m.value a >>= _)
  cases hv : m.value a with
  | error e => exact .error e e
  | ok v =>
    show Alike _ (.ok v.isNothing) (m.tags a >>= fun t =>
      m.write ((Opcode.isKind .nothing).on flags₁ tmp a x) (.boolean (v.kind = .nothing)) t)
    rw [tags_of_lt_size (lt_size_of_value hv), ok_bind]
    obtain ⟨n, hwrite, hresult, hagree⟩ := write_boolean h
      (i := (Opcode.isKind .nothing).on flags₁ tmp a x) rfl (v.kind = .nothing)
      (m.peek a.toNat).tags
    rw [hwrite]
    refine .ok ⟨?_, hagree⟩
    show some (n.boolean tmp) = _
    rw [hresult]
    cases v <;> rfl

/-! ## Fields whose key is a constant -/

theorem fuses_getNamed (h : tmp.toNat < m.registers.size) {r : UInt16} (hr : r ≠ tmp)
    (flags flags₁ : UInt8) (d k x : UInt16) :
    m.Fuses s (AgreesBut tmp) (Opcode.getNamed.on flags d r k)
      (Opcode.loadConstant.on flags₁ tmp k x) (Opcode.getField.on flags d r tmp) := by
  refine fuses_of_plain rfl rfl rfl ?_
  rcases loadConstant_cases h flags₁ k x with ⟨e, e', hkey, hload⟩ | ⟨n, hload, hn, hkey⟩
  · rw [hload]
    show Alike _ (m.record r >>= fun ref => s.constantKey k >>= _) _
    rw [hkey]
    cases m.record r with
    | error e => exact .error e e'
    | ok ref => exact .error e e'
  · rw [hload]
    show Alike _ (m.record r >>= fun ref => s.constantKey k >>= _)
      (n.record r >>= fun ref => n.text tmp >>= _)
    rw [hn.record hr]
    cases m.record r with
    | error e => exact .error e e
    | ok ref =>
      refine hkey.bind fun key key' heq => ?_
      subst heq
      show Alike _
        (m.tags r >>= m.write (Opcode.getNamed.on flags d r k) ((m.store.record ref).get key))
        (n.tags r >>= n.write (Opcode.getField.on flags d r tmp) ((n.store.record ref).get key))
      rw [hn.tags hr, hn.store]
      cases m.tags r with
      | error e => exact .error e e
      | ok t => exact hn.write ..

theorem fuses_setNamed (h : tmp.toNat < m.registers.size) (hd : d ≠ tmp)
    (hv : v ≠ tmp) (flags flags₁ flags₂ : UInt8) (k x : UInt16) :
    m.Fuses s (AgreesBut tmp) (Opcode.setNamed.on flags d k v)
      (Opcode.loadConstant.on flags₁ tmp k x) (Opcode.setField.on flags₂ d tmp v) := by
  refine fuses_of_plain rfl rfl rfl ?_
  rcases loadConstant_cases h flags₁ k x with ⟨e, e', hkey, hload⟩ | ⟨n, hload, hn, hkey⟩
  · rw [hload]
    show Alike _ (s.constantKey k >>= _) _
    rw [hkey]
    exact .error e e'
  · rw [hload]
    refine hkey.bind fun key key' heq => ?_
    subst heq
    show Alike _ (m.value v >>= fun w => m.record d >>= fun ref => _)
      (n.value v >>= fun w => n.record d >>= fun ref => _)
    rw [hn.value hv, hn.record hd]
    cases m.value v with
    | error e => exact .error e e
    | ok w =>
      cases m.record d with
      | error e => exact .error e e
      | ok ref =>
        show Alike _ (mergeTags { m with store := m.store.setField ref key w } d v)
          (mergeTags { n with store := n.store.setField ref key w } d v)
        rw [hn.store]
        exact (hn.withStore _).mergeTags hv

/-! ## Records with one field -/

/-- The machine after a record was made that nothing refers to yet. -/
def beside (m : Machine) (r : Record) : Machine := { m with store := (m.store.newRecord r).2 }

theorem writeRecord_eq (i : Instruction) (r : Record) (t : TagSet) :
    m.writeRecord i r t = (m.beside r).write i (.record (m.store.newRecord r).1) t := rfl

theorem write_beside (i : Instruction) (r : Record) (v : Value) (t : TagSet) :
    (m.beside r).write i v t = (m.write i v t).map (·.beside r) :=
  bind_map_congr fun _ => rfl

theorem apply_newNamed {key : String} {w : Value} (hd : d.toNat < m.registers.size)
    (hmode : (Opcode.newNamed.on flags d k v).tagMode = .propagate)
    (hkey : s.constantKey k = .ok key) (hv : m.value v = .ok w) :
    m.apply s .newNamed (Opcode.newNamed.on flags d k v) =
      .ok ((m.beside (Record.empty.set key w)).put d.toNat
        ⟨.record (m.store.newRecord (Record.empty.set key w)).1, (m.peek v.toNat).tags⟩) := by
  show (s.constantKey k >>= fun key => m.value v >>= fun w => m.tags v >>= fun t =>
      m.writeRecord (Opcode.newNamed.on flags d k v) (Record.empty.set key w) t) = _
  rw [hkey, ok_bind, hv, ok_bind, tags_of_lt_size (lt_size_of_value hv), ok_bind, writeRecord_eq,
    write_of_lt (by exact hd), hmode]
  rfl

/-- A field of a record that was just made and is in the destination: its tags become those of the
value. -/
theorem setFieldOf_new {w : Value} (key : String)
    (hd : d.toNat < m.registers.size) (hv : m.value v = .ok w) (hne : v ≠ d) :
    ((m.beside .empty).put d.toNat ⟨.record (m.store.newRecord .empty).1, 0⟩).setFieldOf
        (Opcode.setNamed.on flags d k v) key =
      .ok ((m.beside (Record.empty.set key w)).put d.toNat
        ⟨.record (m.store.newRecord .empty).1, (m.peek v.toNat).tags⟩) := by
  have hn := agreesBut_put (m.beside .empty) d ⟨.record (m.store.newRecord .empty).1, 0⟩
  have hrecord := record_put_self (m := m.beside .empty) hd (m.store.newRecord .empty).1 0
  have hvalue := (hn.value hne).trans hv
  have hstore : (m.beside .empty).store.setField (m.store.newRecord .empty).1 key w =
      (m.beside (Record.empty.set key w)).store := Store.setField_newRecord ..
  -- with its field the record is as if it had been made so
  show value _ v >>= (fun w => record _ d >>= fun ref => mergeTags _ d v) = _
  rw [hvalue, ok_bind, hrecord, ok_bind, put_store, hstore]
  show mergeTags ((m.beside (Record.empty.set key w)).put d.toNat
    ⟨.record (m.store.newRecord .empty).1, 0⟩) d v = _
  rw [mergeTags_of_lt (by rwa [size_put]) (by rw [size_put]; exact lt_size_of_value hv), put_put,
    peek_put_self (by exact hd), peek_put_of_ne fun h => hne (UInt16.toNat_inj.1 h.symm)]
  have hzero : (0 : TagSet) ||| (m.peek v.toNat).tags = (m.peek v.toNat).tags := BitVec.zero_or
  rw [← hzero]
  rfl

/-- The pair makes an empty record and sets its field there. -/
theorem fuses_newNamed {flags₁ flags₂ : UInt8} {x y : UInt16}
    (hmode : (Opcode.newNamed.on flags d k v).tagMode = .propagate)
    (hmode₁ : (Opcode.newRecord.on flags₁ d x y).tagMode ≠ .keep) (hdv : v ≠ d) :
    m.Fuses s Eq (Opcode.newNamed.on flags d k v) (Opcode.newRecord.on flags₁ d x y)
      (Opcode.setNamed.on flags₂ d k v) := by
  refine fuses_of_plain rfl rfl rfl ?_
  show Alike _ _ (m.writeRecord (Opcode.newRecord.on flags₁ d x y) .empty 0 >>= fun n =>
    s.constantKey k >>= n.setFieldOf (Opcode.setNamed.on flags₂ d k v))
  by_cases hd : d.toNat < m.registers.size
  · -- the record is in the destination, without tags
    have hwrite : m.writeRecord (Opcode.newRecord.on flags₁ d x y) .empty 0 =
          .ok ((m.beside .empty).put d.toNat ⟨.record (m.store.newRecord .empty).1, 0⟩) := by
      rw [writeRecord_eq, write_of_lt (by exact hd)]
      cases hmode' : (Opcode.newRecord.on flags₁ d x y).tagMode with
      | keep => exact absurd hmode' hmode₁
      | _ => rfl
    rw [hwrite, ok_bind]
    cases hkey : s.constantKey k with
    | error e =>
      show Alike _ (s.constantKey k >>= _) _
      rw [hkey]
      exact .error e e
    | ok key =>
      rw [ok_bind]
      cases hv : m.value v with
      | error e =>
        have hn := agreesBut_put (m.beside .empty) d ⟨.record (m.store.newRecord .empty).1, 0⟩
        have hvalue := (hn.value hdv).trans hv
        show Alike _ (s.constantKey k >>= fun key => m.value v >>= _) (value _ v >>= _)
        rw [hkey, ok_bind, hv, hvalue]
        exact .error e e
      | ok w =>
        rw [apply_newNamed hd hmode hkey hv, setFieldOf_new key hd hv hdv]
        exact .ok rfl
  · have hle := Nat.not_lt.1 hd
    obtain ⟨e, he⟩ : ∃ e, m.apply s .newNamed (Opcode.newNamed.on flags d k v) = .error e :=
      exists_error_bind fun key => exists_error_bind fun w => exists_error_bind fun t =>
        ⟨_, write_of_le hle ..⟩
    rw [he, writeRecord_eq, write_of_le (by exact hle)]
    exact .error ..

/-! ## Calls with a single argument -/

/-- What a call with a single argument and the pair of a new record and a call leave. A call that
gives back its argument makes no record. -/
structure AgreesAfterCall (m : Machine) (tmp function arg : UInt16) (m₁ m₂ : Machine) : Prop where
  called : function ≠ identityFunction → m₁.AgreesBut tmp m₂
  returned : function = identityFunction →
    (m₁.beside (Record.empty.set "value" (m.peek arg.toNat).value)).AgreesBut tmp m₂
  /-- The registers show the same. -/
  trees : m.Held → ∀ k, k ≠ tmp.toNat →
    m₂.store.datum? (m₂.peek k).value = m₁.store.datum? (m₁.peek k).value

/-- The result is the argument, and the record of the argument is made for nothing. -/
theorem alike_identity {n : Machine} {i : Instruction} {arg : UInt16} (f : UInt16) {t : TagSet}
    (hf : f = identityFunction)
    (hn : (m.beside (Record.empty.set "value" (m.peek arg.toNat).value)).AgreesBut tmp n) :
    Alike (m.AgreesAfterCall tmp f arg) (m.write i (m.peek arg.toNat).value t)
      (n.write i (m.peek arg.toNat).value t) := by
  have halike := hn.write i (m.peek arg.toNat).value t
  rw [write_beside] at halike
  refine halike.of_map.imp fun m₁ m₂ hwrite hagree =>
    ⟨fun hne => absurd hf hne, fun _ => hagree, fun hheld k hk => ?_⟩
  obtain ⟨-, rfl⟩ := write_eq_ok hwrite
  have hheld₁ := hheld.put i.dest.toNat (c := ⟨(m.peek arg.toNat).value,
    i.tagMode.apply (m.peek i.dest.toNat).tags t⟩) (hheld.registers arg.toNat)
  rw [hagree.store, hagree.registers k hk]
  exact (Store.extends_newRecord ..).datum?_eq hheld₁.store (hheld₁.registers k)

theorem fuses_callValue (h : tmp.toNat < m.registers.size) {flags₁ : UInt8} {f : UInt16}
    (hmode : (Opcode.newNamed.on flags₁ tmp k v).tagMode = .propagate)
    (hkey : s.constantKey k = .ok "value") :
    m.Fuses s (m.AgreesAfterCall tmp f v) (Opcode.callValue.on flags d f v)
      (Opcode.newNamed.on flags₁ tmp k v) (Opcode.call.on flags d f tmp) := by
  refine fuses_of_plain rfl rfl rfl ?_
  cases hv : m.value v with
  | error e =>
    show Alike _ (m.value v >>= _)
      ((s.constantKey k >>= fun key => m.value v >>= fun w => _) >>= fun n => _)
    rw [hkey, ok_bind, hv]
    exact .error e e
  | ok arg =>
    rw [apply_newNamed h hmode hkey hv, ok_bind]
    obtain rfl := value_eq_ok hv
    -- the record of the argument, and the machine that calls with it
    set args := Record.empty.set "value" (m.peek v.toNat).value
    set contents : Register := ⟨.record (m.store.newRecord args).1, (m.peek v.toNat).tags⟩
    set n := (m.beside args).put tmp.toNat contents with hput
    have hn : (m.beside args).AgreesBut tmp n := agreesBut_put ..
    have hrecord : n.record tmp = .ok (m.store.newRecord args).1 := record_put_self h ..
    have htags : n.tags tmp = .ok (m.peek v.toNat).tags := by
      rw [tags_of_lt_size (by rw [hn.size]; exact h), hput, peek_put_self (by exact h)]
    show Alike _ (m.value v >>= fun arg => m.tags v >>= fun t => _)
      (n.record tmp >>= fun ref => n.tags tmp >>= fun t =>
        n.call s (Opcode.call.on flags d f tmp) ref t)
    rw [hv, ok_bind, tags_of_lt_size (lt_size_of_value hv), ok_bind, hrecord, ok_bind,
      htags, ok_bind]
    unfold call
    by_cases hf : f = identityFunction
    · rw [if_pos (by exact hf), if_pos (by exact hf)]
      have hget : (n.store.record (m.store.newRecord args).1).get "value" =
          (m.peek v.toNat).value := by
        rw [hn.store]
        exact (congrArg (Record.get · "value") (Store.record_newRecord_self ..)).trans
          (Record.get_set_empty ..)
      rw [hget]
      exact alike_identity f hf hn
    · rw [if_neg (by exact hf), if_neg (by exact hf), hn.store, hn.executed]
      show Alike _ (s.functions.call f ⟨s.timestamp, m.executed⟩ (m.store.newRecord args).1
          (m.store.newRecord args).2 >>= fun r => write { m with store := r.2 } _ r.1 _)
        (s.functions.call f ⟨s.timestamp, m.executed⟩ (m.store.newRecord args).1
          (m.store.newRecord args).2 >>= fun r => write { n with store := r.2 } _ r.1 _)
      cases s.functions.call f ⟨s.timestamp, m.executed⟩ (m.store.newRecord args).1
          (m.store.newRecord args).2 with
      | error e => exact .error e e
      | ok r =>
        refine ((hn.withStore r.2).write ..).imp fun m₁ m₂ _ hagree =>
          ⟨fun _ => hagree, fun hf' => absurd hf' hf, fun _ k hk => ?_⟩
        rw [hagree.store, hagree.registers k hk]

end Between

/-! ## The laws -/

/-- Every fused instruction and its pair, through the register `tmp`. Flags that are not mentioned
and operands that an instruction does not read are free on both sides. -/
structure FusionLaws (s : Setting) (m : Machine) (tmp : UInt16) : Prop where
  /-- A jump that compares goes where the comparison does not hold. -/
  compare (op : CompareOp) (flags flags₁ flags₂ : UInt8) (dest a b x : UInt16) :
    m.Fuses s (AgreesBut tmp) ((Opcode.jumpUnless op).on flags dest a b)
      ((Opcode.compare op).on flags₁ tmp a b) (Opcode.jumpIfNot.on flags₂ dest tmp x)
  /-- A jump that looks for nothing goes where it is found. -/
  isNothing (flags flags₁ flags₂ : UInt8) (dest a b x y : UInt16) :
    m.Fuses s (AgreesBut tmp) (Opcode.jumpIfNothing.on flags dest a b)
      ((Opcode.isKind .nothing).on flags₁ tmp a x) (Opcode.jumpIf.on flags₂ dest tmp y)
  getNamed (flags flags₁ : UInt8) (d r k x : UInt16) : r ≠ tmp →
    m.Fuses s (AgreesBut tmp) (Opcode.getNamed.on flags d r k)
      (Opcode.loadConstant.on flags₁ tmp k x) (Opcode.getField.on flags d r tmp)
  setNamed (flags flags₁ flags₂ : UInt8) (d k v x : UInt16) : d ≠ tmp → v ≠ tmp →
    m.Fuses s (AgreesBut tmp) (Opcode.setNamed.on flags d k v)
      (Opcode.loadConstant.on flags₁ tmp k x) (Opcode.setField.on flags₂ d tmp v)
  /-- The pair needs no register between the two, and leaves the very same machine. -/
  newNamed (flags flags₁ flags₂ : UInt8) (d k v x y : UInt16) :
    (Opcode.newNamed.on flags d k v).tagMode = .propagate →
    (Opcode.newRecord.on flags₁ d x y).tagMode ≠ .keep → v ≠ d →
    m.Fuses s Eq (Opcode.newNamed.on flags d k v) (Opcode.newRecord.on flags₁ d x y)
      (Opcode.setNamed.on flags₂ d k v)
  callValue (flags flags₁ : UInt8) (d f v k : UInt16) :
    (Opcode.newNamed.on flags₁ tmp k v).tagMode = .propagate → s.constantKey k = .ok "value" →
    m.Fuses s (m.AgreesAfterCall tmp f v) (Opcode.callValue.on flags d f v)
      (Opcode.newNamed.on flags₁ tmp k v) (Opcode.call.on flags d f tmp)

/-- An argument with a tag, a destination with another and a free register. -/
def tagged : Machine where
  registers := #[⟨.integer 7, 1⟩, ⟨.nothing, 2⟩, {}]

/-- Where constant 0 is the name of the argument. -/
def naming : Setting := ⟨{ constants := #[.string "value"] }, .standard, "", {}⟩

end Machine

end TagMachine
