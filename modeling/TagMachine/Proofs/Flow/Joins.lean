import TagMachine.Proofs.Flow.Twins

set_option autoImplicit false

/-! # The tags of computed values

An operation that computes a value reads some registers and writes one. What it computes is a
function of the values that it reads and of the store (`Opcode.result?`), and unless the instruction
says otherwise the destination gets the tags of the registers together.

All registers that are read count for most operations. Those that pick something out of a container
by a key leave the tags of the key aside (`Opcode.joins`): what a tagged key picks from a container
without tags has no tags.
-/

namespace TagMachine

namespace Opcode

/-- The registers that an operation reads to compute a value of them; `none` for the operations that
do something else. -/
def reads? (op : Opcode) (i : Instruction) : Option (List UInt16) :=
  match op with
  | .arithmetic _ | .compare _ | .and | .or | .concat | .getField | .hasField | .getItem =>
    some [i.op1, i.op2]
  | .negate | .not | .isKind _ | .convert _ | .listLength => some [i.op1]
  | _ => none

/-- The operations that read a container by a key. -/
def isKeyed : Opcode → Bool
  | getField => true
  | hasField => true
  | getItem => true
  | _ => false

/-- The registers that an operation reads and whose tags it passes on. -/
def joins (op : Opcode) (i : Instruction) (read : List UInt16) : List UInt16 :=
  if op.isKeyed then [i.op1] else read

/-- The value that an operation computes from those that it reads, if there is one. -/
def result? (op : Opcode) (s : Store) (read : List Value) : Option Value :=
  match op, read with
  | .arithmetic op, [x, y] => (op.apply x y).toOption
  | .negate, [x] => x.negate.toOption
  | .compare op, [x, y] => (op.holds s x y).toOption.map .boolean
  | .and, [.boolean a, .boolean b] => some (.boolean (a && b))
  | .or, [.boolean a, .boolean b] => some (.boolean (a || b))
  | .not, [.boolean a] => some (.boolean !a)
  | .concat, [x, y] => some (.string (s.text x ++ s.text y))
  | .isKind kind, [x] => some (.boolean (x.kind = kind))
  | .convert .text, [x] => some (.string (s.text x))
  | .convert .integer, [x] => x.toInteger.toOption.map .integer
  | .convert .float, [x] => x.toFloat.toOption.map .float
  | .convert .boolean, [x] => some (.boolean x.truthy)
  | .getField, [.record a, .string key] => some ((s.record a).get key)
  | .hasField, [.record a, .string key] => some (.boolean ((s.record a).has key))
  | .getItem, [.list a, .integer k] => some (s.itemAt a k)
  | .listLength, [.list a] => some (.integer (Int64.ofNat (s.items a).size))
  | _, _ => none

end Opcode

namespace Machine

/-- The tags of registers together. -/
def join (m : Machine) (read : List UInt16) : TagSet :=
  read.foldr (fun r t => (m.peek r.toNat).tags ||| t) 0

/-- The values of registers. -/
def values (m : Machine) (read : List UInt16) : List Value :=
  read.map fun r => (m.peek r.toNat).value

section

variable {s : Setting} {m n : Machine} {i : Instruction} {op : Opcode}

theorem join_one (r : UInt16) : m.join [r] = (m.peek r.toNat).tags := by
  simp [join]

theorem join_two (r r' : UInt16) :
    m.join [r, r'] = (m.peek r.toNat).tags ||| (m.peek r'.toNat).tags := by
  simp [join]

/-- What an operation that computes a value from registers leaves: the value, with the tags that it
joins as the tag mode has it. -/
structure Computed (op : Opcode) (i : Instruction) (read : List UInt16) (m n : Machine) : Prop where
  dest : i.dest.toNat < m.registers.size
  result : ∃ v, op.result? m.store (m.values read) = some v ∧
    n = m.put i.dest.toNat
      ⟨v, i.tagMode.apply (m.peek i.dest.toNat).tags (m.join (op.joins i read))⟩

theorem computed_write {read : List UInt16} {v : Value} {t : TagSet}
    (hresult : op.result? m.store (m.values read) = some v) (htags : t = m.join (op.joins i read))
    (h : m.write i v t = .ok n) : Computed op i read m n := by
  obtain ⟨hdest, rfl⟩ := write_eq_ok h
  exact ⟨hdest, v, hresult, htags ▸ rfl⟩

/-- Writing a value with the tags of the first operand. -/
theorem computed_first {read : List UInt16} {v : Value}
    (hresult : op.result? m.store (m.values read) = some v) (hjoins : op.joins i read = [i.op1])
    (h : (m.tags i.op1 >>= fun t => m.write i v t) = .ok n) : Computed op i read m n := by
  obtain ⟨t, ht, h⟩ := bind_eq_ok.1 h
  refine computed_write hresult ?_ h
  rw [hjoins, join_one, tags_eq_ok ht]

/-- Writing a value with the tags of both operands. -/
theorem computed_both {v : Value}
    (hresult : op.result? m.store (m.values [i.op1, i.op2]) = some v) (hkeyed : op.isKeyed = false)
    (h : (m.bothTags i.op1 i.op2 >>= fun t => m.write i v t) = .ok n) :
    Computed op i [i.op1, i.op2] m n := by
  obtain ⟨t, ht, h⟩ := bind_eq_ok.1 h
  refine computed_write hresult ?_ h
  rw [Opcode.joins, hkeyed, if_neg Bool.false_ne_true, join_two, bothTags_eq_ok ht]

/-! ## The operations -/

theorem computed_arithmetic {op : ArithmeticOp} (h : m.apply s (.arithmetic op) i = .ok n) :
    Computed (.arithmetic op) i [i.op1, i.op2] m n := by
  obtain ⟨x, hx, h⟩ := bind_eq_ok.1 h
  obtain ⟨y, hy, h⟩ := bind_eq_ok.1 h
  obtain ⟨v, hv, h⟩ := bind_eq_ok.1 h
  refine computed_both ?_ rfl h
  simp [Opcode.result?, values, ← value_eq_ok hx, ← value_eq_ok hy, hv, Except.toOption]

theorem computed_compare {op : CompareOp} (h : m.apply s (.compare op) i = .ok n) :
    Computed (.compare op) i [i.op1, i.op2] m n := by
  obtain ⟨b, hb, h⟩ := bind_eq_ok.1 h
  obtain ⟨x, hx, hb⟩ := bind_eq_ok.1 hb
  obtain ⟨y, hy, hb⟩ := bind_eq_ok.1 hb
  refine computed_both ?_ rfl h
  cases hholds : op.holds m.store x y with
  | error e => simp [hholds] at hb
  | ok b' =>
    rw [hholds] at hb
    obtain rfl := pure_eq_ok.1 hb
    simp [Opcode.result?, values, ← value_eq_ok hx, ← value_eq_ok hy, hholds, Except.toOption]

theorem computed_negate (h : m.apply s .negate i = .ok n) : Computed .negate i [i.op1] m n := by
  obtain ⟨x, hx, h⟩ := bind_eq_ok.1 h
  obtain ⟨v, hv, h⟩ := bind_eq_ok.1 h
  refine computed_first ?_ rfl h
  simp [Opcode.result?, values, ← value_eq_ok hx, hv, Except.toOption]

theorem computed_convert {target : Conversion} (h : m.apply s (.convert target) i = .ok n) :
    Computed (.convert target) i [i.op1] m n := by
  obtain ⟨x, hx, h⟩ := bind_eq_ok.1 h
  obtain ⟨v, hv, h⟩ := bind_eq_ok.1 h
  refine computed_first ?_ rfl h
  have hx := value_eq_ok hx
  cases target with
  | text | boolean =>
    obtain rfl := Except.ok.inj hv
    simp [Opcode.result?, values, ← hx]
  | integer =>
    unfold converted at hv
    cases hk : x.toInteger with
    | error e => simp [hk, Except.map] at hv
    | ok k =>
      simp only [hk, Except.map, Except.ok.injEq] at hv
      simp [Opcode.result?, values, ← hx, hk, Except.toOption, hv]
  | float =>
    unfold converted at hv
    cases hy : x.toFloat with
    | error e => simp [hy, Except.map] at hv
    | ok y =>
      simp only [hy, Except.map, Except.ok.injEq] at hv
      simp [Opcode.result?, values, ← hx, hy, Except.toOption, hv]

/-- An operation that computes a value from registers leaves it in the destination. -/
theorem computed_of_apply {read : List UInt16} (hread : op.reads? i = some read)
    (h : m.apply s op i = .ok n) : Computed op i read m n := by
  cases op with
  | arithmetic op =>
    obtain rfl := Option.some.inj hread
    exact computed_arithmetic h
  | compare op =>
    obtain rfl := Option.some.inj hread
    exact computed_compare h
  | negate =>
    obtain rfl := Option.some.inj hread
    exact computed_negate h
  | convert target =>
    obtain rfl := Option.some.inj hread
    exact computed_convert h
  | and | or =>
    obtain rfl := Option.some.inj hread
    obtain ⟨a, ha, h⟩ := bind_eq_ok.1 h
    obtain ⟨b, hb, h⟩ := bind_eq_ok.1 h
    refine computed_both ?_ rfl h
    simp [Opcode.result?, values, boolean_eq_ok ha, boolean_eq_ok hb]
  | not =>
    obtain rfl := Option.some.inj hread
    obtain ⟨a, ha, h⟩ := bind_eq_ok.1 h
    refine computed_first ?_ rfl h
    simp [Opcode.result?, values, boolean_eq_ok ha]
  | concat =>
    obtain rfl := Option.some.inj hread
    obtain ⟨x, hx, h⟩ := bind_eq_ok.1 h
    obtain ⟨y, hy, h⟩ := bind_eq_ok.1 h
    refine computed_both ?_ rfl h
    simp [Opcode.result?, values, ← value_eq_ok hx, ← value_eq_ok hy]
  | isKind kind =>
    obtain rfl := Option.some.inj hread
    obtain ⟨x, hx, h⟩ := bind_eq_ok.1 h
    refine computed_first ?_ rfl h
    simp [Opcode.result?, values, ← value_eq_ok hx]
  | getField | hasField =>
    -- the key is read as well, but only the tags of the record are passed on
    obtain rfl := Option.some.inj hread
    obtain ⟨a, ha, h⟩ := bind_eq_ok.1 h
    obtain ⟨key, hkey, h⟩ := bind_eq_ok.1 h
    refine computed_first ?_ rfl h
    simp [Opcode.result?, values, record_eq_ok ha, text_eq_ok hkey]
  | getItem =>
    obtain rfl := Option.some.inj hread
    obtain ⟨a, ha, h⟩ := bind_eq_ok.1 h
    obtain ⟨k, hk, h⟩ := bind_eq_ok.1 h
    cases k with
    | integer k =>
      refine computed_first ?_ rfl h
      simp [Opcode.result?, values, list_eq_ok ha, ← value_eq_ok hk]
    | _ => cases h
  | listLength =>
    obtain rfl := Option.some.inj hread
    obtain ⟨a, ha, h⟩ := bind_eq_ok.1 h
    refine computed_first ?_ rfl h
    simp [Opcode.result?, values, list_eq_ok ha]
  | _ => cases hread

/-- The same of a step. -/
theorem computed_of_step {pc next : Nat} {read : List UInt16}
    (hop : Opcode.ofByte? i.opcode = some op) (hread : op.reads? i = some read)
    (h : m.step s pc i = .ok (next, n)) : Computed op i read m n := by
  have hplain : op.isPlain = true := by
    cases op with
    | jump | jumpIf | jumpIfNot | jumpUnless _ | jumpIfNothing | iterate | collect => cases hread
    | _ => rfl
  exact computed_of_apply hread ((advance_of_step h).of_isPlain hop hplain).2

/-! ## Tags of the destination -/

namespace Computed

variable {read : List UInt16}

theorem peek_dest (h : Computed op i read m n) :
    op.result? m.store (m.values read) = some (n.peek i.dest.toNat).value ∧
      (n.peek i.dest.toNat).tags =
        i.tagMode.apply (m.peek i.dest.toNat).tags (m.join (op.joins i read)) := by
  obtain ⟨v, hv, rfl⟩ := h.result
  rw [peek_put_self h.dest]
  exact ⟨hv, rfl⟩

theorem tags_propagate (h : Computed op i read m n) (hmode : i.tagMode = .propagate) :
    (n.peek i.dest.toNat).tags = m.join (op.joins i read) := by
  rw [h.peek_dest.2, hmode]
  rfl

end Computed

end

end Machine

/-- A set of tags has all those of another exactly if the two together are no more than it. -/
theorem TagSet.eq_or_iff {t u : TagSet} : t = t ||| u ↔ ∀ b, Lacks b t → Lacks b u := by
  constructor
  · intro h b hb
    rw [h] at hb
    exact (lacks_or.1 hb).2
  · intro h
    refine BitVec.eq_of_getLsbD_eq fun b _ => ?_
    have hb := h b
    unfold Lacks at hb
    rw [BitVec.getLsbD_or]
    cases ht : t.getLsbD b with
    | true => rfl
    | false => simp [hb ht]

theorem Opcode.reads_of_isKeyed {op : Opcode} {i : Instruction} {read : List UInt16}
    (hread : op.reads? i = some read) (hkeyed : op.isKeyed = true) : read = [i.op1, i.op2] := by
  cases op with
  | getField | hasField | getItem => exact (Option.some.inj hread).symm
  | _ => cases hkeyed

/-- The tags of a computed value. They are none or those that were there if the instruction says so.
Otherwise they are the tags of all registers that were read, except that a read by a key takes only
those of the container. Such a read joins all tags just where the container has the tags of the
key. -/
theorem Machine.tags_of_computed_value {s : Setting} {m n : Machine} {i : Instruction} {op : Opcode}
    {pc next : Nat} {read : List UInt16} (hop : Opcode.ofByte? i.opcode = some op)
    (hread : op.reads? i = some read) (h : m.step s pc i = .ok (next, n)) :
    op.result? m.store (m.values read) = some (n.peek i.dest.toNat).value ∧
      (i.tagMode = .clear → (n.peek i.dest.toNat).tags = 0) ∧
      (i.tagMode = .keep → (n.peek i.dest.toNat).tags = (m.peek i.dest.toNat).tags) ∧
      (i.tagMode = .propagate →
        (op.isKeyed = false → (n.peek i.dest.toNat).tags = m.join read) ∧
        (op.isKeyed = true →
          (n.peek i.dest.toNat).tags = (m.peek i.op1.toNat).tags ∧
          ((n.peek i.dest.toNat).tags = m.join read ↔
            ∀ b, m.Low b i.op1.toNat → m.Low b i.op2.toNat))) := by
  have hcomputed := computed_of_step hop hread h
  obtain ⟨hvalue, htags⟩ := hcomputed.peek_dest
  refine ⟨hvalue, ?_, ?_, ?_⟩
  · intro hmode
    rw [htags, hmode]
    rfl
  · intro hmode
    rw [htags, hmode]
    rfl
  · intro hmode
    have hjoin := hcomputed.tags_propagate hmode
    constructor
    · intro hkeyed
      rw [hjoin, Opcode.joins, hkeyed, if_neg Bool.false_ne_true]
    · intro hkeyed
      have hfirst : (n.peek i.dest.toNat).tags = (m.peek i.op1.toNat).tags := by
        rw [hjoin, Opcode.joins, hkeyed, if_pos rfl, join_one]
      refine ⟨hfirst, ?_⟩
      rw [hfirst, Opcode.reads_of_isKeyed hread hkeyed, join_two]
      exact TagSet.eq_or_iff

/-- Holds two numbers with different tags, and a list that has one of the two. -/
def Machine.summing : Machine where
  store := { lists := #[#[.integer 7]] }
  registers := #[⟨.list ⟨0⟩, 1⟩, ⟨.integer 0, 1⟩, ⟨.integer 2, 2⟩]

/-- A sum that replaces one of its operands has the tags of both. What a key picks from a list that
has its tag keeps that tag, and its own tags are not forgotten. -/
theorem Machine.summing_joins :
    (∃ n, summing.step ⟨{}, .none, "", {}⟩ 0
      ((Opcode.arithmetic .add).on 0 1 1 2) = .ok (1, n) ∧
      (n.peek 1).tags = summing.join [1, 2] ∧ summing.join [1, 2] = 3) ∧
    ∃ n, summing.step ⟨{}, .none, "", {}⟩ 0 (Opcode.getItem.on 0 2 0 1) = .ok (1, n) ∧
      (n.peek 2).tags = summing.join [0, 1] ∧ summing.join [0, 1] = 1 := by
  constructor
  · obtain ⟨n, hn⟩ : ∃ n, summing.step ⟨{}, .none, "", {}⟩ 0
        ((Opcode.arithmetic .add).on 0 1 1 2) = .ok (1, n) := ⟨_, rfl⟩
    have htags := tags_of_computed_value (i := ⟨_, 0, 1, 1, 2⟩)
      (Opcode.ofByte?_byte (.arithmetic .add)) rfl hn
    exact ⟨n, hn, (htags.2.2.2 rfl).1 rfl, by decide⟩
  · obtain ⟨n, hn⟩ : ∃ n, summing.step ⟨{}, .none, "", {}⟩ 0 (Opcode.getItem.on 0 2 0 1) =
        .ok (1, n) := ⟨_, rfl⟩
    have htags :=
      tags_of_computed_value (i := ⟨_, 0, 2, 0, 1⟩) (Opcode.ofByte?_byte .getItem) rfl hn
    exact ⟨n, hn, ((htags.2.2.2 rfl).2 rfl).2.2 fun b hb => hb, by decide⟩

/-- Holds a record and a list without tags, and a key for each with a tag. -/
def Machine.picking : Machine where
  store := { lists := #[#[.integer 7]], records := #[Record.empty.set "a" (.integer 7)] }
  registers := #[⟨.record ⟨0⟩, 0⟩, ⟨.list ⟨0⟩, 0⟩, ⟨.string "a", 1⟩, ⟨.integer 0, 1⟩, {}]

/-- What a tagged key picks from a container without tags has no tags, although the key was read. -/
theorem Machine.picking_drops_key :
    (∃ n, picking.step ⟨{}, .none, "", {}⟩ 0 (Opcode.getField.on 0 4 0 2) = .ok (1, n) ∧
      n.peek 4 = ⟨.integer 7, 0⟩ ∧ picking.join [0, 2] = 1) ∧
    (∃ n, picking.step ⟨{}, .none, "", {}⟩ 0 (Opcode.hasField.on 0 4 0 2) = .ok (1, n) ∧
      n.peek 4 = ⟨.boolean true, 0⟩ ∧ picking.join [0, 2] = 1) ∧
    ∃ n, picking.step ⟨{}, .none, "", {}⟩ 0 (Opcode.getItem.on 0 4 1 3) = .ok (1, n) ∧
      n.peek 4 = ⟨.integer 7, 0⟩ ∧ picking.join [1, 3] = 1 :=
  ⟨⟨_, rfl, by decide, by decide⟩, ⟨_, rfl, by decide, by decide⟩, _, rfl, by decide, by decide⟩

end TagMachine
