import Mathlib.Data.List.TakeWhile
import Mathlib.Tactic
import TagMachine.Text.Numeral

set_option autoImplicit false

/-! # Digits and what follows them

The value of digits is that of those before a place, and then of those behind it
(`digitsValue_append`). Digits are taken up to the first character that is none
(`spanDigits_append`).
-/

namespace TagMachine.Text

variable {ds rest : List Char}

theorem digitsValue_append (start : Nat) (ds es : List Char) :
    digitsValue start (ds ++ es) = digitsValue (digitsValue start ds) es :=
  List.foldl_append

theorem digitsValue_zeros (start count : Nat) :
    digitsValue start (List.replicate count '0') = start * 10 ^ count := by
  induction count generalizing start with
  | zero => simp [digitsValue]
  | succ count ih =>
    have hstep : digitsValue start (List.replicate (count + 1) '0') =
        digitsValue (10 * start) (List.replicate count '0') := rfl
    rw [hstep, ih, pow_succ]
    ring

theorem digitValue_lt {c : Char} (h : c.isDigit = true) : digitValue c < 10 := by
  simp only [Char.isDigit, Bool.and_eq_true, decide_eq_true_eq, UInt32.le_iff_toNat_le] at h
  have hupper : c.toNat ≤ 57 := h.2
  show c.toNat - 48 < 10
  omega

theorem digitsValue_lt (start : Nat) (h : ∀ c ∈ ds, c.isDigit = true) :
    digitsValue start ds < (start + 1) * 10 ^ ds.length := by
  induction ds generalizing start with
  | nil => simp [digitsValue]
  | cons c ds ih =>
    rw [List.forall_mem_cons] at h
    have hc := digitValue_lt h.1
    calc digitsValue start (c :: ds)
        = digitsValue (10 * start + digitValue c) ds := rfl
      _ < (10 * start + digitValue c + 1) * 10 ^ ds.length := ih _ h.2
      _ ≤ (start + 1) * 10 * 10 ^ ds.length := Nat.mul_le_mul_right _ (by omega)
      _ = (start + 1) * 10 ^ (c :: ds).length := by rw [List.length_cons, pow_succ]; ring

/-- The text does not go on with a digit. -/
def Stops : List Char → Prop
  | [] => True
  | c :: _ => c.isDigit = false

theorem takeWhile_eq_nil (h : Stops rest) : rest.takeWhile Char.isDigit = [] := by
  cases rest with
  | nil => rfl
  | cons c rest => rw [List.takeWhile_cons, if_neg (by rw [h]; exact Bool.false_ne_true)]

theorem dropWhile_eq_self (h : Stops rest) : rest.dropWhile Char.isDigit = rest := by
  cases rest with
  | nil => rfl
  | cons c rest => rw [List.dropWhile_cons, if_neg (by rw [h]; exact Bool.false_ne_true)]

theorem Stops.take (h : Stops rest) (count : Nat) : Stops (rest.take count) := by
  cases rest with
  | nil => rwa [List.take_nil]
  | cons c rest =>
    cases count with
    | zero => exact trivial
    | succ count => exact h

theorem spanDigits_append (hds : ∀ c ∈ ds, c.isDigit = true) (hrest : Stops rest) :
    spanDigits (ds ++ rest) = (ds, rest) := by
  unfold spanDigits
  rw [List.span_eq_takeWhile_dropWhile, List.takeWhile_append_of_pos hds,
    List.dropWhile_append_of_pos hds, dropWhile_eq_self hrest, takeWhile_eq_nil hrest,
    List.append_nil]

theorem exists_toDigits (n : Nat) : ∃ c cs, Nat.toDigits 10 n = c :: cs ∧ c.isDigit = true := by
  cases hdigits : Nat.toDigits 10 n with
  | nil => exact absurd hdigits Nat.toDigits_ne_nil
  | cons c cs =>
    exact ⟨c, cs, rfl,
      Nat.isDigit_of_mem_toDigits (by decide) (by decide) (hdigits ▸ List.mem_cons_self ..)⟩

end TagMachine.Text
