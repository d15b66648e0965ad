import Mathlib.Tactic
import TagMachine.Json.Read
import TagMachine.Json.Write
import TagMachine.Proofs.Text.Numeral

set_option autoImplicit false

/-! # Reading what was written: strings and integers

A string is written character by character, and what an escape stands for is read back from it
(`readString_write`). The digits of an integer are taken up to the first character that is none and
give the integer again (`readNumber_toDigits`), from the least of 64 bits to the greatest. Which
characters follow matters for integers only: a digit, a point or the mark of an exponent would
prolong one.
-/

namespace TagMachine.Json

variable {n : Nat} {rest : List Char} {c : Char}

/-! ## Strings -/

/-- A control character that has no escape of its own. -/
theorem readUnicode_hexLower (h : n < 0x20) (cs : List Char) :
    readUnicode ((Text.hexLower 4 n).toList ++ cs) = .ok (Char.ofNat n, cs) := by
  unfold Text.hexLower
  rw [String.toList_ofList]
  interval_cases n <;> rfl

theorem readChars_backslash {cs : List Char} (h : readEscape cs = .ok (c, rest))
    (fuel : Nat) (done : List Char) :
    readChars (fuel + 1) done ('\\' :: cs) = readChars fuel (c :: done) rest := by
  rw [readChars, if_neg (by decide), if_pos rfl, h]

/-- Reading takes one step for each character that was written, escaped or not. -/
theorem readChars_escapeChar (c : Char) (fuel : Nat) (done cs : List Char) :
    readChars (fuel + 1) done (escapeChar c ++ cs) = readChars fuel (c :: done) cs := by
  by_cases hquote : c = '"'
  · subst hquote
    exact readChars_backslash rfl ..
  by_cases hbackslash : c = '\\'
  · subst hbackslash
    exact readChars_backslash rfl ..
  by_cases hnamed : c = '\x08' ∨ c = '\x0c' ∨ c = '\n' ∨ c = '\r' ∨ c = '\t'
  · rcases hnamed with rfl | rfl | rfl | rfl | rfl <;> exact readChars_backslash rfl ..
  push Not at hnamed
  obtain ⟨h₁, h₂, h₃, h₄, h₅⟩ := hnamed
  by_cases hcontrol : c.toNat < 0x20
  · have hescape : escapeChar c = '\\' :: 'u' :: (Text.hexLower 4 c.toNat).toList := by
      unfold escapeChar
      simp only [hquote, hbackslash, h₁, h₂, h₃, h₄, h₅, hcontrol, if_true, if_false]
    have hread : readEscape ('u' :: ((Text.hexLower 4 c.toNat).toList ++ cs)) = .ok (c, cs) := by
      show readUnicode ((Text.hexLower 4 c.toNat).toList ++ cs) = _
      rw [readUnicode_hexLower hcontrol, Char.ofNat_toNat]
    rw [hescape, List.cons_append, List.cons_append, readChars_backslash hread]
  · have hescape : escapeChar c = [c] := by
      unfold escapeChar
      simp only [hquote, hbackslash, h₁, h₂, h₃, h₄, h₅, hcontrol, if_false]
    rw [hescape, List.singleton_append, readChars, if_neg hquote, if_neg hbackslash,
      if_neg hcontrol]

theorem readChars_write (s : List Char) (fuel : Nat) (h : s.length < fuel) (done rest : List Char) :
    readChars fuel done (s.flatMap escapeChar ++ '"' :: rest) =
      .ok (String.ofList (done.reverse ++ s), rest) := by
  induction s generalizing fuel done with
  | nil =>
    obtain ⟨fuel, rfl⟩ := Nat.exists_eq_add_of_lt h
    simp [readChars]
  | cons c s ih =>
    obtain ⟨fuel, rfl⟩ := Nat.exists_eq_add_one_of_ne_zero (Nat.ne_zero_of_lt h)
    rw [List.flatMap_cons, List.append_assoc, readChars_escapeChar, ih fuel (by simpa using h)]
    simp

theorem one_le_length_escapeChar (c : Char) : 1 ≤ (escapeChar c).length := by
  unfold escapeChar
  split_ifs <;> simp

theorem length_le_escaped (s : List Char) : s.length ≤ (s.flatMap escapeChar).length := by
  induction s with
  | nil => simp
  | cons c s ih =>
    have hc := one_le_length_escapeChar c
    rw [List.flatMap_cons, List.length_append, List.length_cons]
    omega

theorem toList_writeString (s : String) :
    (writeString s).toList = '"' :: (s.toList.flatMap escapeChar ++ ['"']) :=
  String.toList_ofList

/-- A string behind its opening quotation mark is read back. -/
theorem readString_write (s : String) (rest : List Char) :
    readString (s.toList.flatMap escapeChar ++ '"' :: rest) = .ok (s, rest) := by
  unfold readString
  have hfuel := length_le_escaped s.toList
  rw [readChars_write _ _ (by rw [List.length_append, List.length_cons]; omega), List.reverse_nil,
    List.nil_append, String.ofList_toList]

/-! ## Integers -/

/-- What follows a value inside a text: the end, or a comma or closing bracket. -/
def Closes (rest : List Char) : Prop := ∀ c ∈ rest.head?, c = ',' ∨ c = ']' ∨ c = '\x7d'

theorem closes_nil : Closes [] := by
  intro c hc
  cases hc

theorem closes_cons (h : c = ',' ∨ c = ']' ∨ c = '\x7d') (rest : List Char) :
    Closes (c :: rest) := by
  intro d hd
  obtain rfl : c = d := by simpa using hd
  exact h

theorem stops_of_closes (h : Closes rest) : Text.Stops rest := by
  cases rest with
  | nil => trivial
  | cons c rest => rcases h c rfl with rfl | rfl | rfl <;> rfl

theorem spanDigits_append {ds : List Char} (hds : ∀ c ∈ ds, c.isDigit = true)
    (hrest : Closes rest) : Text.spanDigits (ds ++ rest) = (ds, rest) :=
  Text.spanDigits_append hds (stops_of_closes hrest)

theorem ne_of_isDigit {d : Char} (hc : c.isDigit = true) (hd : d.isDigit = false) : c ≠ d := by
  rintro rfl
  rw [hc] at hd
  cases hd

theorem not_isBlank_of_isDigit (hc : c.isDigit = true) : isBlank c = false := by
  have hne : ∀ d, d.isDigit = false → (c == d) = false := fun d hd =>
    beq_false_of_ne (ne_of_isDigit hc hd)
  unfold isBlank
  rw [hne ' ' rfl, hne '\n' rfl, hne '\t' rfl, hne '\r' rfl]
  rfl

theorem le_digitsValue (n : Nat) (ds : List Char) : n ≤ Text.digitsValue n ds := by
  induction ds generalizing n with
  | nil => exact le_rfl
  | cons c ds ih =>
    have hmore : 10 * n + Text.digitValue c ≤ Text.digitsValue n (c :: ds) := ih _
    omega

/-- Digits that give a number within 64 bits are all taken. -/
theorem absorb_eq (n : Nat) (ds : List Char) (h : Text.digitsValue n ds < 2 ^ 64) :
    absorb n ds = (Text.digitsValue n ds, 0) := by
  induction ds generalizing n with
  | nil => rfl
  | cons c ds ih =>
    have hmore : 10 * n + Text.digitValue c ≤ Text.digitsValue n (c :: ds) :=
      le_digitsValue _ ds
    have hlt : 10 * n + Text.digitValue c < Nat.pow 2 64 := lt_of_le_of_lt hmore h
    unfold absorb
    rw [if_pos hlt]
    exact ih _ h

theorem digitsValue_toDigits (n : Nat) : Text.digitsValue 0 (Nat.toDigits 10 n) = n :=
  Nat.ofDigitChars_toDigits (by decide) (by decide)

/-- A number is written without leading zeros. -/
theorem head?_toDigits_ne (h : 0 < n) : (Nat.toDigits 10 n).head? ≠ some '0' := by
  induction n using Nat.strong_induction_on with
  | _ n ih =>
    by_cases hlt : n < 10
    · rw [Nat.toDigits_of_lt_base hlt]
      interval_cases n <;> decide
    · have hsplit := Nat.toDigits_append_toDigits (b := 10) (n := n / 10) (d := n % 10) (by decide)
        (by omega) (by omega)
      rw [Nat.div_add_mod] at hsplit
      rw [← hsplit, List.head?_append_of_ne_nil _ Nat.toDigits_ne_nil]
      exact ih (n / 10) (by omega) (by omega)

/-- The digits of a number, without its sign. -/
theorem readNumber_toDigits (negative : Bool) (hn : n < 2 ^ 64) (hrest : Closes rest) :
    readNumber negative (Nat.toDigits 10 n ++ rest) = .ok (wholeNumber negative n, rest) := by
  have hdigits : ∀ c ∈ Nat.toDigits 10 n, c.isDigit = true := fun c hc =>
    Nat.isDigit_of_mem_toDigits (by decide) (by decide) hc
  have habsorb : absorb 0 (Nat.toDigits 10 n) = (n, 0) := by
    rw [absorb_eq _ _ (by rwa [digitsValue_toDigits]), digitsValue_toDigits]
  have hzero : ∀ c ds, Nat.toDigits 10 n = c :: ds → ¬ (c = '0' ∧ 1 < (c :: ds).length) := by
    rintro c ds heq ⟨rfl, hlength⟩
    rcases Nat.eq_zero_or_pos n with rfl | hpos
    · rw [← heq] at hlength
      exact absurd hlength (by decide)
    · exact head?_toDigits_ne hpos (by rw [heq]; rfl)
  have hspan := spanDigits_append hdigits hrest
  cases hds : Nat.toDigits 10 n with
  | nil => exact absurd hds Nat.toDigits_ne_nil
  | cons c ds =>
    rw [hds] at hspan habsorb hdigits
    have hc : c.isDigit = true := hdigits c (List.mem_cons_self ..)
    rw [List.cons_append] at hspan ⊢
    unfold readNumber
    simp only [hspan, habsorb, hc, hzero c ds hds, Bool.not_true, Bool.false_eq_true, if_false,
      if_true]
    -- nothing that follows a value prolongs a number
    cases rest with
    | nil => rfl
    | cons r rest => rcases hrest r rfl with rfl | rfl | rfl <;> rfl

theorem wholeNumber_of_neg {n : Int64} (h : n.toInt < 0) :
    wholeNumber true n.toInt.natAbs = .integer n := by
  have hmin := n.le_toInt
  have hnonzero : ¬ (n.toInt.natAbs = 0 ∨ Nat.pow 2 63 < n.toInt.natAbs) := by
    show ¬ (n.toInt.natAbs = 0 ∨ 2 ^ 63 < n.toInt.natAbs)
    omega
  have habs : -(n.toInt.natAbs : Int) = n.toInt := by omega
  unfold wholeNumber
  rw [if_pos rfl, if_neg hnonzero, habs, Int64.ofInt_toInt]

theorem wholeNumber_of_nonneg {n : Int64} (h : 0 ≤ n.toInt) :
    wholeNumber false n.toInt.natAbs = .integer n := by
  have hmax := n.toInt_lt
  have hfits : n.toInt.natAbs < Nat.pow 2 63 := by
    show n.toInt.natAbs < 2 ^ 63
    omega
  have habs : (n.toInt.natAbs : Int) = n.toInt := by omega
  unfold wholeNumber
  rw [if_neg Bool.false_ne_true, if_pos hfits, ← Int64.ofInt_eq_ofNat, habs, Int64.ofInt_toInt]

/-- The digits of an integer, with a minus sign in front where there is one. -/
theorem toList_integerText (n : Int64) :
    (integerText n).toList = if n.toInt < 0 then '-' :: Nat.toDigits 10 n.toInt.natAbs
      else Nat.toDigits 10 n.toInt.natAbs := by
  unfold integerText decimalInt decimalDigits
  split
  · rw [String.toList_append, String.toList_ofList, String.toList_ofList]
    rfl
  · exact String.toList_ofList

theorem natAbs_toInt_lt (n : Int64) : n.toInt.natAbs < 2 ^ 64 := by
  have hmin := n.le_toInt
  have hmax := n.toInt_lt
  omega

end TagMachine.Json
