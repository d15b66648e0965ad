import Mathlib.Data.List.TakeWhile
import TagMachine.Proofs.Builtin.Number
import TagMachine.Proofs.Json.Scalars
import TagMachine.Proofs.Machine.Fusion

set_option autoImplicit false

/-! # Texts of integers

A text becomes an integer in one of two ways: as the numeral that it is, or as the float that is
written between white space. The numeral of an integer reads back as that integer
(`Text.readInt64?_integerText`), and as the float nearest to it (`Text.readBinary64?_integerText`).
-/

namespace TagMachine

open Procedure (argumentsIn)

namespace Text

/-- Has no characters but white space. -/
def AllBlank (s : String) : Prop := ∀ c ∈ s.toList, isBlank c = true

instance (s : String) : Decidable (AllBlank s) := List.decidableBAll _ s.toList

section Characters

variable {c : Char}

theorem isBlank_of_isDigit (h : c.isDigit = true) : isBlank c = false := by
  rw [Char.isDigit_iff_toNat] at h
  simp only [isBlank, Bool.or_eq_false_iff, Bool.and_eq_false_iff, decide_eq_false_iff_not,
    beq_eq_false_iff_ne]
  change 48 ≤ c.toNat ∧ c.toNat ≤ 57 at h
  omega

theorem toLower_of_isDigit (h : c.isDigit = true) : c.toLower = c := by
  rw [Char.isDigit_iff_toNat] at h
  have hupper : ¬ (c.val ≥ 'A'.val ∧ c.val ≤ 'Z'.val) := by
    rintro ⟨hlow, -⟩
    have hle : 65 ≤ c.toNat := UInt32.le_iff_toNat_le.1 hlow
    change 48 ≤ c.toNat ∧ c.toNat ≤ 57 at h
    omega
  unfold Char.toLower
  rw [dif_neg hupper]

theorem not_isDigit_of_isBlank (h : isBlank c = true) : c.isDigit = false := by
  by_contra hdigit
  rw [isBlank_of_isDigit (Bool.eq_true_of_not_eq_false hdigit)] at h
  cases h

end Characters

/-! ## Trimming -/

/-- White space on both sides of characters that are none is what trimming removes. -/
theorem trim_between {s w w' : String} (hs : ∀ c ∈ s.toList, isBlank c = false) (hw : AllBlank w)
    (hw' : AllBlank w') : trim (w ++ s ++ w') = s := by
  have hstop : ∀ cs rest : List Char, cs ≠ [] → (∀ c ∈ cs, isBlank c = false) →
      (cs ++ rest).dropWhile isBlank = cs ++ rest := by
    intro cs rest hne hcs
    obtain ⟨c, cs, rfl⟩ := List.exists_cons_of_ne_nil hne
    simp [hcs c]
  have hrev : ∀ c ∈ w'.toList.reverse, isBlank c = true := fun c hc => hw' c (List.mem_reverse.1 hc)
  unfold trim dropBlankEnd
  rw [String.toList_append, String.toList_append, List.append_assoc,
    List.dropWhile_append_of_pos hw]
  by_cases hempty : s.toList = []
  · rw [hempty, List.nil_append, List.dropWhile_eq_nil_iff.2 hw', List.reverse_nil,
      List.dropWhile_nil, List.reverse_nil, ← hempty, String.ofList_toList]
  · have hne : s.toList.reverse ≠ [] := fun h => hempty (List.reverse_eq_nil_iff.1 h)
    have hlast := hstop s.toList.reverse [] hne fun c hc => hs c (List.mem_reverse.1 hc)
    rw [List.append_nil] at hlast
    rw [hstop _ _ hempty hs, List.reverse_append, List.dropWhile_append_of_pos hrev, hlast,
      List.reverse_reverse, String.ofList_toList]

/-! ## Numerals -/

theorem mem_readSign {cs : List Char} {c : Char} (h : c ∈ cs) :
    c = '-' ∨ c = '+' ∨ c ∈ (readSign cs).2 := by
  unfold readSign
  split
  · exact (List.mem_cons.1 h).imp_right .inr
  · exact .inr (List.mem_cons.1 h)
  · exact .inr (.inr h)

theorem readInt?_eq_none {s : String} {c : Char} (hc : c ∈ s.toList) (hblank : isBlank c = true) :
    readInt? s = none := by
  have hdigit := not_isDigit_of_isBlank hblank
  rcases mem_readSign hc with rfl | rfl | hmem
  · cases hblank
  · cases hblank
  · have hall : (readSign s.toList).2.all Char.isDigit = false :=
      List.all_eq_false.2 ⟨c, hmem, by rw [hdigit]; exact Bool.false_ne_true⟩
    unfold readInt?
    simp [hall]

theorem isDigit_of_mem {c : Char} {n : Nat} (hc : c ∈ Nat.toDigits 10 n) : c.isDigit = true :=
  Nat.isDigit_of_mem_toDigits (by decide) (by decide) hc

/-- A sign and the digits of a number. -/
theorem readSign_integerText (n : Int64) :
    readSign (integerText n).toList = (decide (n.toInt < 0), Nat.toDigits 10 n.toInt.natAbs) := by
  rw [Json.toList_integerText]
  split_ifs with hneg
  · rw [readSign, decide_eq_true hneg]
  · rw [decide_eq_false hneg]
    cases hds : Nat.toDigits 10 n.toInt.natAbs with
    | nil => rfl
    | cons c ds =>
      have hc : c.isDigit = true := isDigit_of_mem (hds ▸ List.mem_cons_self)
      unfold readSign
      split
      · next heq => exact absurd (List.cons.inj heq).1 (Json.ne_of_isDigit hc rfl)
      · next heq => exact absurd (List.cons.inj heq).1 (Json.ne_of_isDigit hc rfl)
      · rfl

theorem readInt64?_integerText (n : Int64) : readInt64? (integerText n) = some n := by
  have hdigits : (Nat.toDigits 10 n.toInt.natAbs).all Char.isDigit = true :=
    List.all_eq_true.2 fun c hc => isDigit_of_mem hc
  have hread : readInt? (integerText n) = some n.toInt := by
    have hvalue := Json.digitsValue_toDigits n.toInt.natAbs
    unfold readInt?
    simp only [readSign_integerText, hdigits, hvalue,
      List.isEmpty_eq_false_iff.2 Nat.toDigits_ne_nil, Bool.not_true, Bool.or_false,
      Bool.false_eq_true, if_false, decide_eq_true_iff, Option.some.injEq]
    split_ifs <;> omega
  have hlow := n.le_toInt
  have hhigh := n.toInt_lt
  unfold readInt64?
  rw [hread]
  simp only [Int.pow_eq]
  rw [if_pos ⟨by omega, by omega⟩, Int64.ofInt_toInt]

theorem readDecimal?_toDigits (negative : Bool) (n : Nat) :
    readDecimal? negative (Nat.toDigits 10 n) = some ⟨negative, n, 0⟩ := by
  have hspan : spanDigits (Nat.toDigits 10 n) = (Nat.toDigits 10 n, []) := by
    have hdigits : ∀ c ∈ Nat.toDigits 10 n, c.isDigit = true := fun c hc => isDigit_of_mem hc
    have hclosed := Json.spanDigits_append hdigits Json.closes_nil
    rwa [List.append_nil] at hclosed
  unfold readDecimal?
  simp [hspan, readExponent?, digitsValue, Nat.toDigits_ne_nil]
  exact Json.digitsValue_toDigits n

theorem nearest_whole (negative : Bool) (n : Nat) :
    Decimal.nearest ⟨negative, n, 0⟩ = Binary64.roundRatio negative n 1 := by
  unfold Decimal.nearest
  by_cases hzero : n = 0
  · rw [if_pos hzero, hzero]
    rfl
  · have hsmall : ¬ (0 : Int) + n.log2 / 3 + 2 < -400 := by omega
    have hnotlarge : ¬ (310 : Int) < 0 := by decide
    rw [if_neg hzero, if_neg hnotlarge, if_neg hsmall, if_pos le_rfl]
    simp

/-- No name of a number that is not finite begins with a digit. -/
theorem readBinary64?_integerText (n : Int64) :
    readBinary64? (integerText n) = some (Binary64.ofInt64 n) := by
  have hname : ∀ name : String, name.toList.head?.any Char.isDigit = false →
      (String.ofList ((Nat.toDigits 10 n.toInt.natAbs).map Char.toLower) == name) = false := by
    intro name hhead
    rw [beq_eq_false_iff_ne]
    rintro rfl
    obtain ⟨c, ds, hds, hc⟩ := Text.exists_toDigits n.toInt.natAbs
    rw [String.toList_ofList, hds, List.map_cons, toLower_of_isDigit hc] at hhead
    exact Bool.false_ne_true (hhead.symm.trans hc)
  unfold readBinary64?
  simp only [readSign_integerText, hname "inf" (by decide), hname "infinity" (by decide),
    hname "nan" (by decide), readDecimal?_toDigits, Option.map_some, nearest_whole, Bool.or_false,
    Bool.false_eq_true, if_false]
  rfl

/-! ## Reading integers -/

/-- White space beside a numeral takes the way through a float. -/
theorem integerOfText?_between (n : Int64) {w w' : String} (hw : AllBlank w) (hw' : AllBlank w') :
    Value.integerOfText? (w ++ integerText n ++ w') =
      some (if w = "" ∧ w' = "" then n else Binary64.roundTrip n) := by
  have hnumeral : ∀ c ∈ (integerText n).toList, isBlank c = false := by
    intro c hc
    rw [Json.toList_integerText] at hc
    split_ifs at hc
    · rcases List.mem_cons.1 hc with rfl | hc
      · rfl
      · exact isBlank_of_isDigit (isDigit_of_mem hc)
    · exact isBlank_of_isDigit (isDigit_of_mem hc)
  unfold Value.integerOfText?
  split_ifs with hempty
  · obtain ⟨rfl, rfl⟩ := hempty
    rw [String.empty_append, String.append_empty, readInt64?_integerText]
  · have hblank : ∃ c ∈ (w ++ integerText n ++ w').toList, isBlank c = true := by
      simp only [String.toList_append, List.mem_append]
      by_cases hstart : w = ""
      · have hend : w'.toList ≠ [] := fun h => hempty ⟨hstart, String.toList_eq_nil_iff.1 h⟩
        obtain ⟨c, hc⟩ := List.exists_mem_of_ne_nil _ hend
        exact ⟨c, .inr hc, hw' c hc⟩
      · obtain ⟨c, hc⟩ := List.exists_mem_of_ne_nil _ fun h => hstart (String.toList_eq_nil_iff.1 h)
        exact ⟨c, .inl (.inl hc), hw c hc⟩
    obtain ⟨c, hc, hcblank⟩ := hblank
    have hnone : readInt64? (w ++ integerText n ++ w') = none := by
      unfold readInt64?
      rw [readInt?_eq_none hc hcblank]
    rw [hnone, trim_between hnumeral hw hw', readBinary64?_integerText]
    rfl

end Text

theorem Value.toInteger_between (n : Int64) {w w' : String} (hw : Text.AllBlank w)
    (hw' : Text.AllBlank w') :
    (Value.string (w ++ integerText n ++ w')).toInteger =
      .ok (if w = "" ∧ w' = "" then n else Binary64.roundTrip n) := by
  simp only [toInteger, Text.integerOfText?_between n hw hw']

theorem Builtin.call_toInteger {context : CallContext} {args : RecordRef} {s : Store}
    {text : String} {r : Int64} (harg : (argumentsIn context args s).value "value" = .string text)
    (h : (Value.string text).toInteger = .ok r) :
    FunctionTable.standard.call 0x76 context args s = .ok (.integer r, s) := by
  have hrun : toInteger (argumentsIn context args s) = give (.integer r) := by
    simp only [toInteger, harg, h]
    rfl
  exact call_eq_of_give rfl hrun

theorem Machine.step_toInteger {s : Setting} {m : Machine} {a d : UInt16}
    {text : String} {r : Int64} (ha : a.toNat < m.registers.size) (hd : d.toNat < m.registers.size)
    (hvalue : (m.peek a.toNat).value = .string text) (h : (Value.string text).toInteger = .ok r)
    (flags : UInt8) (b : UInt16) (pc : Nat) :
    let i := (Opcode.convert .integer).on flags d a b
    m.step s pc i = .ok (pc + 1,
      m.put d.toNat ⟨.integer r, i.tagMode.apply (m.peek d.toNat).tags (m.peek a.toNat).tags⟩) := by
  intro i
  have hconverted : m.converted .integer (.string text) = .ok (.integer r) := by
    rw [converted, h]
    rfl
  have happly : m.apply s (.convert .integer) i = m.write i (.integer r) (m.peek a.toNat).tags := by
    simp only [apply, i, Opcode.on, value_of_lt ha, tags_of_lt_size ha, hvalue, hconverted, ok_bind]
  rw [step_plain rfl, happly, write_of_lt hd]
  rfl

/-- The text of an integer becomes that integer, by the instruction and by the function. With white
space on either side it becomes what is left of the integer as a float, which is the integer itself
if it has 53 binary digits or is the largest. -/
theorem Machine.integer_text_converted (n : Int64) {w w' : String} (hw : Text.AllBlank w)
    (hw' : Text.AllBlank w') :
    let text := w ++ integerText n ++ w'
    let r := if w = "" ∧ w' = "" then n else Binary64.roundTrip n
    (∀ context args s, (argumentsIn context args s).value "value" = .string text →
      FunctionTable.standard.call 0x76 context args s = .ok (.integer r, s)) ∧
    (∀ (s : Setting) (m : Machine) (a b d : UInt16) flags pc, a.toNat < m.registers.size →
      d.toNat < m.registers.size → (m.peek a.toNat).value = .string text →
      let i := (Opcode.convert .integer).on flags d a b
      m.step s pc i = .ok (pc + 1,
        m.put d.toNat ⟨.integer r, i.tagMode.apply (m.peek d.toNat).tags (m.peek a.toNat).tags⟩)) ∧
    (r = n ↔ w = "" ∧ w' = "" ∨ n = Int64.maxValue ∨
      Binary64.spacing n.toInt.natAbs ∣ n.toInt.natAbs) ∧
    (n.toInt.natAbs ≤ 2 ^ 53 → r = n) := by
  intro text r
  have hread : (Value.string text).toInteger = .ok r := Value.toInteger_between n hw hw'
  refine ⟨fun context args s harg => Builtin.call_toInteger harg hread,
    fun s m a b d flags pc ha hd hvalue => step_toInteger ha hd hvalue hread flags b pc, ?_,
    fun hsmall => ?_⟩
  · by_cases hempty : w = "" ∧ w' = ""
    · simp [r, hempty]
    · simp only [r, if_neg hempty, hempty, false_or]
      exact Binary64.roundTrip_eq_self
  · by_cases hempty : w = "" ∧ w' = ""
    · exact if_pos hempty
    · simp only [r, if_neg hempty]
      exact Binary64.roundTrip_of_le hsmall

/-- Holds a text. -/
def Machine.reading (s : String) : Machine where
  store := Builtin.withArguments [("value", .string s)]
  registers := #[⟨.string s, 5⟩, {}]

/-- The least integer is a power of two. -/
theorem Machine.least_integer_text_converted :
    let text := "\t " ++ integerText Int64.minValue ++ "\n"
    Text.AllBlank "\t " ∧ Text.AllBlank "\n" ∧
    FunctionTable.standard.call 0x76 ⟨"", 0⟩ ⟨0⟩ (reading text).store =
      .ok (.integer Int64.minValue, (reading text).store) ∧
    ((reading text).step ⟨{}, .none, "", {}⟩ 0 ((Opcode.convert .integer).on 0 1 0 0)).map
      (fun p => (p.2.peek 1).value) = .ok (.integer Int64.minValue) := by
  intro text
  obtain ⟨hcall, hstep, hkept, -⟩ := integer_text_converted Int64.minValue
    (show Text.AllBlank "\t " by decide) (show Text.AllBlank "\n" by decide)
  have hleast := hkept.2 (.inr (.inr (by decide)))
  rw [hleast] at hcall hstep
  refine ⟨by decide, by decide, hcall _ _ _ rfl, ?_⟩
  rw [hstep _ _ _ _ _ _ _ (by decide) (by decide) rfl]
  rfl

/-- The first odd integer of 54 digits loses its last one behind a blank. -/
theorem Machine.integer_text_lost :
    let text := " " ++ integerText 9007199254740993 ++ ""
    FunctionTable.standard.call 0x76 ⟨"", 0⟩ ⟨0⟩ (reading text).store =
      .ok (.integer 9007199254740992, (reading text).store) ∧
    ((reading text).step ⟨{}, .none, "", {}⟩ 0 ((Opcode.convert .integer).on 0 1 0 0)).map
      (fun p => (p.2.peek 1).value) = .ok (.integer 9007199254740992) := by
  intro text
  have hread : (Value.string text).toInteger = .ok 9007199254740992 :=
    Value.toInteger_between 9007199254740993 (show Text.AllBlank " " by decide)
      (show Text.AllBlank "" by decide)
  refine ⟨Builtin.call_toInteger rfl hread, ?_⟩
  rw [step_toInteger (by decide) (by decide) rfl hread]
  rfl

end TagMachine
