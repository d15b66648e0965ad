import TagMachine.Proofs.Machine.Fusion

set_option autoImplicit false

/-! # Arithmetic

An arithmetic instruction writes what its operation gives for the values of its operands, or fails
as the operation does (`Machine.step_arithmetic`, `Machine.step_negate`). Two integers give the
exact result reduced to 64 bits (`ArithmeticOp.toInt_onIntegers`). A remainder is never reduced, but
a quotient may be: the least integer by minus one is itself. Nevertheless a quotient and its
remainder make up the dividend, since reduction goes with sums and products
(`ArithmeticOp.quotient_remainder`).
-/

namespace TagMachine

namespace ArithmeticOp

/-- The operation on integers of any size. A quotient is truncated toward zero. -/
def exact : ArithmeticOp → Int → Int → Int
  | add, x, y => x + y
  | sub, x, y => x - y
  | mul, x, y => x * y
  | div, x, y => x.tdiv y
  | rem, x, y => x.tmod y

theorem toInt_onIntegers (op : ArithmeticOp) (x y : Int64) :
    (op.onIntegers x y).toInt = (op.exact x.toInt y.toInt).bmod (2 ^ 64) := by
  cases op with
  | add => exact x.toInt_add y
  | sub => exact x.toInt_sub y
  | mul => exact x.toInt_mul y
  | div => exact x.toInt_div y
  | rem =>
    -- a remainder is exact, so there is nothing to reduce
    rw [exact, ← x.toInt_mod y]
    exact (Int64.toInt_bmod _).symm

theorem apply_integers (op : ArithmeticOp) (x y : Int64) :
    op.apply (.integer x) (.integer y) =
      if op.divides = true ∧ y = 0 then .error (.domain .divisionByZero)
      else .ok (.integer (op.onIntegers x y)) := by
  simp only [apply, Bool.and_eq_true, beq_iff_eq]

/-- The remainder is smaller than the divisor and on the side of the dividend. -/
theorem remainder_bounds (x : Int64) {y : Int64} (hy : y ≠ 0) :
    (x % y).toInt.natAbs < y.toInt.natAbs ∧
      (x % y = 0 ∨ (x % y).toInt.sign = x.toInt.sign) := by
  have hdivisor : y.toInt ≠ 0 := by
    rw [← Int64.toInt_zero, Ne, Int64.toInt_inj]
    exact hy
  have hsign := Int.sign_tmod x.toInt y.toInt
  rw [← Int64.toInt_inj, Int64.toInt_zero, x.toInt_mod y]
  constructor
  · rw [Int.natAbs_tmod]
    exact Nat.mod_lt _ (Int.natAbs_pos.2 hdivisor)
  · split_ifs at hsign with hdvd
    · exact .inl (Int.sign_eq_zero_iff_zero.1 hsign)
    · exact .inr hsign

/-- The quotient may have been reduced, but its product with the divisor is reduced anyway. -/
theorem quotient_remainder (x y : Int64) : x / y * y + x % y = x := by
  have hquotient : x / y = Int64.ofInt (x.toInt.tdiv y.toInt) :=
    ((Int64.ofInt_eq_iff_bmod_eq_toInt _ _).2 (x.toInt_div y).symm).symm
  have hremainder : x % y = Int64.ofInt (x.toInt.tmod y.toInt) := by
    rw [← x.toInt_mod y, Int64.ofInt_toInt]
  calc x / y * y + x % y
      = Int64.ofInt (x.toInt.tdiv y.toInt) * Int64.ofInt y.toInt +
        Int64.ofInt (x.toInt.tmod y.toInt) := by
        rw [hquotient, hremainder, Int64.ofInt_toInt]
    _ = Int64.ofInt (x.toInt.tdiv y.toInt * y.toInt + x.toInt.tmod y.toInt) := by
        rw [Int64.ofInt_add, Int64.ofInt_mul]
    _ = x := by rw [Int.tdiv_mul_add_tmod, Int64.ofInt_toInt]

section Values

variable {u v : Value}

theorem apply_of_not_numeric (op : ArithmeticOp) (h : ¬(u.isNumeric = true ∧ v.isNumeric = true)) :
    op.apply u v = .error (.type (.arithmetic u.kind v.kind)) := by
  unfold apply
  split
  · exact absurd ⟨rfl, rfl⟩ h
  · split
    · next hu hv => exact absurd ⟨Option.isSome_of_mem hu, Option.isSome_of_mem hv⟩ h
    · rfl

/-- With a float among two numbers the result is a float, if there is one. -/
theorem apply_of_float (op : ArithmeticOp) (hu : u.isNumeric = true) (hv : v.isNumeric = true)
    (h : u.kind = .float ∨ v.kind = .float) :
    op.divides = true ∧ op.apply u v = .error (.domain .divisionByZero) ∨
      ∃ z, op.apply u v = .ok (.float z) := by
  obtain ⟨x, hx⟩ := Option.isSome_iff_exists.1 hu
  obtain ⟨y, hy⟩ := Option.isSome_iff_exists.1 hv
  unfold apply
  split
  · rcases h with h | h <;> cases h
  · simp only [hx, hy]
    split
    · next hzero => exact .inl ⟨(Bool.and_eq_true_iff.1 hzero).1, rfl⟩
    · exact .inr ⟨_, rfl⟩

end Values

end ArithmeticOp

namespace Machine

variable {s : Setting} {m : Machine} {a b d : UInt16}

/-- The next place, and the machine after a result was written to the destination of an
instruction. -/
def proceed (m : Machine) (i : Instruction) (pc : Nat) (tags : TagSet) (v : Value) :
    Nat × Machine :=
  (pc + 1, m.put i.dest.toNat ⟨v, i.tagMode.apply (m.peek i.dest.toNat).tags tags⟩)

theorem step_of_write {op : Opcode} (hop : op.isPlain = true) {flags : UInt8}
    {result : Except Error Value} {tags : TagSet} (hd : d.toNat < m.registers.size)
    (h : m.apply s op (op.on flags d a b) = result >>= fun v => m.write (op.on flags d a b) v tags)
    (pc : Nat) :
    m.step s pc (op.on flags d a b) = result.map (m.proceed (op.on flags d a b) pc tags) := by
  rw [step_plain hop, h]
  cases result with
  | error e => rfl
  | ok v =>
    rw [ok_bind, write_of_lt hd]
    rfl

theorem step_arithmetic (ha : a.toNat < m.registers.size) (hb : b.toNat < m.registers.size)
    (hd : d.toNat < m.registers.size) (op : ArithmeticOp) (flags : UInt8) (pc : Nat) :
    let i := (Opcode.arithmetic op).on flags d a b
    m.step s pc i = (op.apply (m.peek a.toNat).value (m.peek b.toNat).value).map
      (m.proceed i pc ((m.peek a.toNat).tags ||| (m.peek b.toNat).tags)) := by
  have htags : m.bothTags a b = .ok ((m.peek a.toNat).tags ||| (m.peek b.toNat).tags) := by
    rw [bothTags, tags_of_lt_size ha, ok_bind, tags_of_lt_size hb]
    rfl
  refine step_of_write rfl hd ?_ pc
  simp only [apply, Opcode.on, value_of_lt ha, value_of_lt hb, htags, ok_bind]

theorem step_negate (ha : a.toNat < m.registers.size) (hd : d.toNat < m.registers.size)
    (flags : UInt8) (pc : Nat) :
    let i := Opcode.negate.on flags d a b
    m.step s pc i = (m.peek a.toNat).value.negate.map (m.proceed i pc (m.peek a.toNat).tags) := by
  refine step_of_write rfl hd ?_ pc
  simp only [apply, Opcode.on, value_of_lt ha, tags_of_lt_size ha, ok_bind]

/-- The arithmetic instructions write what their operations give for the operands. For integers that
is the exact result modulo `2 ^ 64`, and only a zero divisor has none. The remainder is below the
divisor and on the side of the dividend, and with the quotient it makes up the dividend, reduced or
not. A float among two numbers never gives an integer, and other operands are wrong whatever the
divisor is. -/
theorem arithmetic_modular :
    (∀ (s : Setting) (m : Machine) (a b d : UInt16) (flags : UInt8) (pc : Nat),
      a.toNat < m.registers.size → b.toNat < m.registers.size → d.toNat < m.registers.size →
      let left := m.peek a.toNat
      let right := m.peek b.toNat
      (∀ op : ArithmeticOp,
        let i := (Opcode.arithmetic op).on flags d a b
        m.step s pc i =
          (op.apply left.value right.value).map (m.proceed i pc (left.tags ||| right.tags))) ∧
      let i := Opcode.negate.on flags d a b
      m.step s pc i = left.value.negate.map (m.proceed i pc left.tags)) ∧
    (∀ x y : Int64,
      (∀ op : ArithmeticOp, op.divides = false ∨ y ≠ 0 →
        ∃ r, op.apply (.integer x) (.integer y) = .ok (.integer r) ∧
          r.toInt = (op.exact x.toInt y.toInt).bmod (2 ^ 64)) ∧
      (∃ r, (Value.integer x).negate = .ok (.integer r) ∧ r.toInt = (-x.toInt).bmod (2 ^ 64)) ∧
      (∀ op : ArithmeticOp, op.divides = true →
        (op.apply (.integer x) (.integer y) = .error (.domain .divisionByZero) ↔ y = 0)) ∧
      (y ≠ 0 → ∃ q r, ArithmeticOp.div.apply (.integer x) (.integer y) = .ok (.integer q) ∧
        ArithmeticOp.rem.apply (.integer x) (.integer y) = .ok (.integer r) ∧
        r.toInt.natAbs < y.toInt.natAbs ∧ (r = 0 ∨ r.toInt.sign = x.toInt.sign) ∧
        (ArithmeticOp.mul.apply (.integer q) (.integer y) >>= fun p =>
          ArithmeticOp.add.apply p (.integer r)) = .ok (.integer x))) ∧
    ∀ (op : ArithmeticOp) (u v : Value),
      (u.isNumeric = true → v.isNumeric = true → u.kind = .float ∨ v.kind = .float →
        op.divides = true ∧ op.apply u v = .error (.domain .divisionByZero) ∨
          ∃ z, op.apply u v = .ok (.float z)) ∧
      (¬(u.isNumeric = true ∧ v.isNumeric = true) →
        op.apply u v = .error (.type (.arithmetic u.kind v.kind))) := by
  refine ⟨fun s m a b d flags pc ha hb hd => ⟨fun op => step_arithmetic ha hb hd op flags pc,
    step_negate ha hd flags pc⟩, fun x y => ⟨fun op hop => ?_, ?_, fun op hop => ?_, fun hy => ?_⟩,
    fun op u v => ⟨op.apply_of_float, op.apply_of_not_numeric⟩⟩
  · have hresult : ¬(op.divides = true ∧ y = 0) := by
      rintro ⟨hdivides, rfl⟩
      simp [hdivides] at hop
    exact ⟨_, by rw [op.apply_integers, if_neg hresult], op.toInt_onIntegers x y⟩
  · exact ⟨-x, rfl, x.toInt_neg⟩
  · rw [op.apply_integers]
    split_ifs with hzero
    · exact iff_of_true rfl hzero.2
    · exact iff_of_false (fun h => by cases h) fun hy => hzero ⟨hop, hy⟩
  · have hbounds := ArithmeticOp.remainder_bounds x hy
    refine ⟨x / y, x % y, ?_, ?_, hbounds.1, hbounds.2, ?_⟩
    · exact (ArithmeticOp.apply_integers ..).trans (if_neg fun h => hy h.2)
    · exact (ArithmeticOp.apply_integers ..).trans (if_neg fun h => hy h.2)
    · exact congrArg (fun n => Except.ok (Value.integer n)) (ArithmeticOp.quotient_remainder x y)

/-- Holds the least integer, minus one, zero and a text. -/
def dividing : Machine where
  registers := #[⟨.integer Int64.minValue, 1⟩, ⟨.integer (-1), 2⟩, ⟨.integer 0, 4⟩,
    ⟨.string "1", 8⟩, {}]

/-- The one quotient that does not fit is the dividend again. A text by zero is a wrong operand
first. -/
theorem dividing_modular :
    let run (op : ArithmeticOp) (a b : UInt16) :=
      (dividing.step ⟨{}, .none, "", {}⟩ 0 ((Opcode.arithmetic op).on 0 4 a b)).map fun p =>
        p.2.peek 4
    run .div 0 1 = .ok ⟨.integer Int64.minValue, 3⟩ ∧
    run .rem 0 1 = .ok ⟨.integer 0, 3⟩ ∧
    run .div 0 2 = .error (.domain .divisionByZero) ∧
    run .rem 3 2 = .error (.type (.arithmetic .string .integer)) ∧
    ∃ q r, ArithmeticOp.div.apply (.integer Int64.minValue) (.integer (-1)) = .ok (.integer q) ∧
      ArithmeticOp.rem.apply (.integer Int64.minValue) (.integer (-1)) = .ok (.integer r) ∧
      (ArithmeticOp.mul.apply (.integer q) (.integer (-1)) >>= fun p =>
        ArithmeticOp.add.apply p (.integer r)) = .ok (.integer Int64.minValue) := by
  obtain ⟨hsteps, hintegers, -⟩ := arithmetic_modular
  have hrun (op : ArithmeticOp) {a b : UInt16} (ha : a.toNat < 5) (hb : b.toNat < 5) :=
    (hsteps ⟨{}, .none, "", {}⟩ dividing a b 4 0 0 ha hb (by decide)).1 op
  obtain ⟨-, -, -, hquotient⟩ := hintegers Int64.minValue (-1)
  obtain ⟨q, r, hdiv, hrem, -, -, hwhole⟩ := hquotient (by decide)
  dsimp only
  rw [hrun .div (by decide) (by decide), hrun .rem (by decide) (by decide),
    hrun .div (by decide) (by decide), hrun .rem (by decide) (by decide)]
  exact ⟨rfl, rfl, rfl, rfl, q, r, hdiv, hrem, hwhole⟩

end Machine

end TagMachine
