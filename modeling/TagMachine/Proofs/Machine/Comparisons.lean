import TagMachine.Proofs.Binary64.Order
import TagMachine.Proofs.Machine.Fusion

set_option autoImplicit false

/-! # Comparisons

The six comparisons of two numbers or two strings come from two sources, equality and order. They
fit together where equality holds just where the order finds no difference
(`CompareOp.coherent_outcome`). That is so for all pairs but two sorts (`Value.Torn`): an integer
zero and the negative zero are equal as numbers, and all NaNs are equal, but the order is that of
the bit patterns.
-/

namespace TagMachine

namespace CompareOp

/-- What a comparison yields, by whether the values are equal and how they are ordered. -/
def outcome (equal : Bool) (order : Ordering) : CompareOp → Bool
  | eq => equal
  | ne => !equal
  | lt => order == .lt
  | gt => order == .gt
  | le => order != .gt
  | ge => order != .lt

/-- The six comparisons of two values fit together. -/
structure Coherent (yields : CompareOp → Bool) : Prop where
  one : (yields lt).toNat + (yields eq).toNat + (yields gt).toNat = 1
  le : yields le = (yields lt || yields eq)
  ge : yields ge = (yields gt || yields eq)
  ne : yields ne = !yields eq

theorem coherent_outcome {equal : Bool} {order : Ordering} :
    Coherent (outcome equal order) ↔ (equal = true ↔ order = .eq) := by
  constructor
  · rintro ⟨hone, -, -, -⟩
    revert hone
    cases equal <;> cases order <;> decide
  · intro h
    have hequal : equal = (order == .eq) := by rw [Bool.eq_iff_iff, h, beq_iff_eq]
    subst hequal
    cases order <;> exact ⟨rfl, rfl, rfl, rfl⟩

theorem holds_of_compare {a b : Value} {order : Ordering} (h : a.compare b = .ok order)
    (op : CompareOp) (s : Store) : op.holds s a b = .ok (op.outcome (s.equal a b) order) := by
  cases op with
  | eq | ne => rfl
  | lt | gt | le | ge => rw [holds, h]; rfl

end CompareOp

namespace Value

variable {a b : Value}

/-- Both values are numbers, or both are strings. -/
def Comparable (a b : Value) : Prop :=
  a.isNumeric = true ∧ b.isNumeric = true ∨ a.kind = .string ∧ b.kind = .string

/-- Two numbers that are equal although the order tells them apart: an integer zero and the negative
zero, or two different NaNs. -/
def Torn : Value → Value → Prop
  | .integer n, .float x => n = 0 ∧ x = .zero true
  | .float x, .integer n => n = 0 ∧ x = .zero true
  | .float x, .float y => x.isNaN = true ∧ y.isNaN = true ∧ x ≠ y
  | _, _ => False

theorem exists_compare_iff : (∃ order, a.compare b = .ok order) ↔ a.Comparable b := by
  cases a <;> cases b <;> simp [compare, Comparable, isNumeric, asNumber?, kind]

theorem equal_integer_float (s : Store) (n : Int64) (x : Binary64) :
    s.equal (.integer n) (.float x) = true ↔
      Binary64.ofInt64 n = x ∨ (Value.integer n).Torn (.float x) := by
  have hzero : n.toInt = 0 ↔ n = 0 := by rw [← Int64.toInt_zero, Int64.toInt_inj]
  exact Binary64.numEq_ofInt.trans (or_congr_right (and_congr_left' hzero))

/-- Values that are ordered are equal where the order finds no difference, and where they are
torn. -/
theorem equal_iff_of_compare {order : Ordering} (h : a.compare b = .ok order) (s : Store) :
    s.equal a b = true ↔ order = .eq ∨ a.Torn b := by
  cases a with
  | integer m =>
    cases b with
    | integer n =>
      obtain rfl := Except.ok.inj h
      rw [Std.compare_eq_iff_eq, Int64.toInt_inj]
      exact beq_iff_eq.trans (or_iff_left id).symm
    | float y =>
      obtain rfl := Except.ok.inj h
      rw [Binary64.totalCompare_eq_eq]
      exact equal_integer_float s m y
    | _ => cases h
  | float x =>
    cases b with
    | integer n =>
      obtain rfl := Except.ok.inj h
      rw [Binary64.totalCompare_eq_eq, eq_comm (a := x)]
      exact equal_integer_float s n x
    | float y =>
      obtain rfl := Except.ok.inj h
      rw [Binary64.totalCompare_eq_eq]
      have hsame : s.equal (.float x) (.float y) = x.same y := rfl
      simp only [hsame, Binary64.same, Bool.or_eq_true, Bool.and_eq_true, beq_iff_eq, Torn]
      tauto
    | _ => cases h
  | string x =>
    cases b with
    | string y =>
      obtain rfl := Except.ok.inj h
      rw [Std.compare_eq_iff_eq]
      exact beq_iff_eq.trans (or_iff_left id).symm
    | _ => cases h
  | _ => cases b <;> cases h

/-- The order tells torn values apart. -/
theorem Torn.ne_eq (ht : a.Torn b) {order : Ordering} (h : a.compare b = .ok order) :
    order ≠ .eq := by
  cases a with
  | integer m =>
    cases b with
    | float y =>
      obtain ⟨rfl, rfl⟩ := ht
      obtain rfl := Except.ok.inj h
      decide
    | _ => exact absurd ht id
  | float x =>
    cases b with
    | integer n =>
      obtain ⟨rfl, rfl⟩ := ht
      obtain rfl := Except.ok.inj h
      decide
    | float y =>
      obtain rfl := Except.ok.inj h
      rw [Ne, Binary64.totalCompare_eq_eq]
      exact ht.2.2
    | _ => exact absurd ht id
  | _ => cases b <;> exact absurd ht id

theorem coherent_iff {order : Ordering} (h : a.compare b = .ok order) (s : Store) :
    CompareOp.Coherent (CompareOp.outcome (s.equal a b) order) ↔ ¬a.Torn b := by
  rw [CompareOp.coherent_outcome, equal_iff_of_compare h]
  constructor
  · exact fun hiff ht => ht.ne_eq h (hiff.1 (.inr ht))
  · exact fun ht => ⟨fun hor => hor.resolve_right ht, .inl⟩

end Value

namespace Machine

variable {s : Setting} {m : Machine} {a b d : UInt16}

theorem compares_of_compare (ha : a.toNat < m.registers.size) (hb : b.toNat < m.registers.size)
    {order : Ordering} (h : (m.peek a.toNat).value.compare (m.peek b.toNat).value = .ok order)
    (op : CompareOp) : m.compares op a b =
      .ok (op.outcome (m.store.equal (m.peek a.toNat).value (m.peek b.toNat).value) order) := by
  rw [compares, value_of_lt ha, ok_bind, value_of_lt hb, ok_bind, CompareOp.holds_of_compare h]
  rfl

theorem step_compare {op : CompareOp} {result : Bool} (ha : a.toNat < m.registers.size)
    (hb : b.toNat < m.registers.size) (hd : d.toNat < m.registers.size)
    (h : m.compares op a b = .ok result) (flags : UInt8) (pc : Nat) :
    ∃ n, m.step s pc ((Opcode.compare op).on flags d a b) = .ok (pc + 1, n) ∧
      (n.peek d.toNat).value = .boolean result := by
  have htags : m.bothTags a b = .ok ((m.peek a.toNat).tags ||| (m.peek b.toNat).tags) := by
    rw [bothTags, tags_of_lt_size ha, ok_bind, tags_of_lt_size hb]
    rfl
  have happly : m.apply s (.compare op) ((Opcode.compare op).on flags d a b) =
      m.write ((Opcode.compare op).on flags d a b) (.boolean result)
        ((m.peek a.toNat).tags ||| (m.peek b.toNat).tags) := by
    simp only [apply, Opcode.on, h, htags, ok_bind]
  rw [step_plain rfl, happly, write_of_lt hd]
  exact ⟨_, rfl, by rw [Opcode.on, peek_put_self hd]⟩

theorem step_jumpUnless {op : CompareOp} {result : Bool} (h : m.compares op a b = .ok result)
    (flags : UInt8) (pc : Nat) (target : UInt16) :
    m.step s pc ((Opcode.jumpUnless op).on flags target a b) =
      .ok (if result then pc + 1 else target.toNat, m) := by
  have hjumps : m.jumps? (.jumpUnless op) ((Opcode.jumpUnless op).on flags target a b) =
      some (.ok !result) := by
    simp only [jumps?, Opcode.on, h]
    rfl
  rw [step_jump hjumps]
  cases result <;> rfl

/-- The comparisons of two numbers or two strings all give a result, and jumps that compare go by
the same results. These fit together unless the values are torn. Torn values are equal, and yet one
is below the other; still one of two opposite comparisons holds. -/
theorem comparisons_coherent (ha : a.toNat < m.registers.size) (hb : b.toNat < m.registers.size)
    (hd : d.toNat < m.registers.size)
    (h : (m.peek a.toNat).value.Comparable (m.peek b.toNat).value) :
    ∃ yields : CompareOp → Bool,
      (∀ op flags pc, ∃ n, m.step s pc ((Opcode.compare op).on flags d a b) = .ok (pc + 1, n) ∧
        (n.peek d.toNat).value = .boolean (yields op)) ∧
      (∀ op flags pc target, m.step s pc ((Opcode.jumpUnless op).on flags target a b) =
        .ok (if yields op then pc + 1 else target.toNat, m)) ∧
      (CompareOp.Coherent yields ↔ ¬(m.peek a.toNat).value.Torn (m.peek b.toNat).value) ∧
      ((m.peek a.toNat).value.Torn (m.peek b.toNat).value →
        yields .eq = true ∧ yields .lt = !yields .gt) ∧
      yields .ne = (!yields .eq) ∧ yields .le = (!yields .gt) ∧ yields .ge = !yields .lt := by
  obtain ⟨order, horder⟩ := Value.exists_compare_iff.2 h
  have hcompares := compares_of_compare ha hb horder
  refine ⟨_, fun op flags pc => step_compare ha hb hd (hcompares op) flags pc,
    fun op flags pc target => step_jumpUnless (hcompares op) flags pc target,
    Value.coherent_iff horder m.store, fun ht => ⟨?_, ?_⟩, rfl, rfl, rfl⟩
  · exact (Value.equal_iff_of_compare horder m.store).2 (.inr ht)
  · have hne := ht.ne_eq horder
    cases order with
    | lt | gt => rfl
    | eq => exact absurd rfl hne

/-- Holds an odd integer above `2 ^ 53`, the float it is widened to, and two strings. -/
def widening : Machine where
  registers := #[⟨.integer 9007199254740993, 1⟩, ⟨.float ⟨0x4340000000000000⟩, 2⟩,
    ⟨.string "10", 0⟩, ⟨.string "9", 0⟩, {}]

/-- The integer and the float are equal, and so neither is below the other. The first string is
below the second, and so they are not equal. -/
theorem widening_coherent :
    (∃ yields, CompareOp.Coherent yields ∧ yields .eq = true ∧
      ∀ op flags pc target, widening.step ⟨{}, .none, "", {}⟩ pc
        ((Opcode.jumpUnless op).on flags target 0 1) =
          .ok (if yields op then pc + 1 else target.toNat, widening)) ∧
    ∃ yields, CompareOp.Coherent yields ∧ yields .lt = true ∧
      ∀ op flags pc, ∃ n, widening.step ⟨{}, .none, "", {}⟩ pc
        ((Opcode.compare op).on flags 4 2 3) = .ok (pc + 1, n) ∧
          (n.peek 4).value = .boolean (yields op) := by
  constructor
  · obtain ⟨yields, -, hjumps, hcoherent, -⟩ := comparisons_coherent (s := ⟨{}, .none, "", {}⟩)
      (m := widening) (a := 0) (b := 1) (d := 4) (by decide) (by decide) (by decide)
        (.inl (by decide))
    have hequal : widening.step ⟨{}, .none, "", {}⟩ 0 ((Opcode.jumpUnless .eq).on 0 7 0 1) =
        .ok (1, widening) := rfl
    refine ⟨yields, hcoherent.2 fun ht => absurd ht.1 (by decide), ?_, hjumps⟩
    rw [hjumps] at hequal
    cases hyields : yields .eq with
    | true => rfl
    | false =>
      rw [hyields] at hequal
      exact absurd (congrArg Prod.fst (Except.ok.inj hequal)) (by decide)
  · obtain ⟨yields, hsteps, -, hcoherent, -⟩ := comparisons_coherent (s := ⟨{}, .none, "", {}⟩)
      (m := widening) (a := 2) (b := 3) (d := 4) (by decide) (by decide) (by decide)
        (.inr (by decide))
    obtain ⟨n, hn, hvalue⟩ := hsteps .lt 0 0
    have hless : (widening.step ⟨{}, .none, "", {}⟩ 0 ((Opcode.compare .lt).on 0 4 2 3)).map
        (fun r => (r.2.peek 4).value) = .ok (.boolean true) := rfl
    refine ⟨yields, hcoherent.2 id, ?_, hsteps⟩
    rw [hn] at hless
    exact Value.boolean.inj (hvalue.symm.trans (Except.ok.inj hless))

/-- Holds an integer zero and the negative zero, and two NaNs. -/
def tearing : Machine where
  registers := #[⟨.integer 0, 0⟩, ⟨.float (.zero true), 0⟩, ⟨.float (.nan false), 0⟩,
    ⟨.float (.nan true), 0⟩, {}]

/-- What a comparison of two registers writes. -/
def tearing.written (a b : UInt16) (op : CompareOp) : Except Error Value :=
  (tearing.step ⟨{}, .none, "", {}⟩ 0 ((Opcode.compare op).on 0 4 a b)).map fun r =>
    (r.2.peek 4).value

/-- Where a jump that compares two registers leads to. -/
def tearing.next (a b : UInt16) (op : CompareOp) : Except Error Nat :=
  (tearing.step ⟨{}, .none, "", {}⟩ 0 ((Opcode.jumpUnless op).on 0 7 a b)).map Prod.fst

/-- In both pairs the two are equal, the first is above the second, and it is not at most the
second. -/
theorem tearing_incoherent :
    [CompareOp.lt, .eq, .gt, .le].map (tearing.written 0 1) =
      [.ok (.boolean false), .ok (.boolean true), .ok (.boolean true), .ok (.boolean false)] ∧
    [CompareOp.lt, .eq, .gt, .le].map (tearing.written 2 3) =
      [.ok (.boolean false), .ok (.boolean true), .ok (.boolean true), .ok (.boolean false)] ∧
    [CompareOp.lt, .eq, .gt, .le].map (tearing.next 0 1) = [.ok 7, .ok 1, .ok 1, .ok 7] ∧
    [CompareOp.lt, .eq, .gt, .le].map (tearing.next 2 3) = [.ok 7, .ok 1, .ok 1, .ok 7] :=
  ⟨rfl, rfl, rfl, rfl⟩

end Machine

end TagMachine
