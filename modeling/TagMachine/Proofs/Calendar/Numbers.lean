import Mathlib.Data.List.TakeWhile
import Mathlib.Data.Nat.Digits.Defs
import Mathlib.Tactic
import TagMachine.Calendar.Read
import TagMachine.Proofs.Json.Scalars

set_option autoImplicit false

/-! # Numbers in dates

Numbers in dates have a fixed number of digits, so that the digits after them do not matter
(`readNumber?_padded`). Years may also have a sign and more digits, and then end where the digits
end (`readQuantity?_year`). A fraction of a second counts by its first nine digits
(`readFraction?_eq`).
-/

namespace TagMachine.DateFormat

open Text (Stops digitsValue)

variable {n width : Nat} {ds rest : List Char}

/-! ## Digits up to a width -/

/-- A number in decimal digits, at least `width` of them. -/
def padded (width n : Nat) : List Char := Text.zeroPadded width (Nat.toDigits 10 n)

theorem isDigit_of_mem_padded {c : Char} (h : c ∈ padded width n) : c.isDigit = true := by
  rw [padded, Text.zeroPadded, List.mem_append, List.mem_replicate] at h
  rcases h with ⟨-, rfl⟩ | h
  · rfl
  · exact Nat.isDigit_of_mem_toDigits (by decide) (by decide) h

theorem length_padded (hwidth : 0 < width) (h : n < 10 ^ width) :
    (padded width n).length = width := by
  have hlength := Nat.toDigits_length 10 n width hwidth h
  rw [padded, Text.zeroPadded, List.length_append, List.length_replicate]
  omega

theorem padded_ne_nil (width n : Nat) : padded width n ≠ [] :=
  List.append_ne_nil_of_right_ne_nil _ Nat.toDigits_ne_nil

@[simp] theorem digitsValue_padded (width n : Nat) : digitsValue 0 (padded width n) = n := by
  rw [padded, Text.zeroPadded, Text.digitsValue_append, Text.digitsValue_zeros, Nat.zero_mul,
    Json.digitsValue_toDigits]

theorem writePair_zeros : ∀ n < 100, writePair .zeros n = padded 2 n := by decide +kernel

/-! ## Reading numbers -/

/-- A number ends where its digits end, or where it has as many as it may have. -/
theorem readNumber?_append (most : Nat) (rest : List Char) (hds : ∀ c ∈ ds, c.isDigit = true)
    (hne : ds ≠ []) (hmost : ds.length ≤ most) (hstop : ds.length = most ∨ Stops rest)
    (hvalue : digitsValue 0 ds < 2 ^ 63) :
    readNumber? most (ds ++ rest) = some (digitsValue 0 ds, rest) := by
  have hstop' : Stops (rest.take (most - ds.length)) := by
    rcases hstop with rfl | hstop
    · rw [Nat.sub_self]
      exact trivial
    · exact hstop.take _
  have hdigits : ((ds ++ rest).take most).takeWhile Char.isDigit = ds := by
    rw [List.take_append, List.take_of_length_le hmost, List.takeWhile_append_of_pos hds,
      Text.takeWhile_eq_nil hstop', List.append_nil]
  have hvalueOf : valueOf? ds = some (digitsValue 0 ds) := if_pos hvalue
  rw [readNumber?, hdigits, if_neg (by simpa using hne), hvalueOf, List.drop_left]
  rfl

theorem readNumber?_padded (width : Nat) (rest : List Char) (hwidth : 0 < width)
    (h : n < 10 ^ width)
    (hvalue : n < 2 ^ 63) : readNumber? width (padded width n ++ rest) = some (n, rest) := by
  have hread := readNumber?_append width rest (fun _ hc =>
    isDigit_of_mem_padded hc) (padded_ne_nil width n)
    (length_padded hwidth h).le (.inl (length_padded hwidth h)) (by rwa [digitsValue_padded])
  rwa [digitsValue_padded] at hread

theorem not_isBlank_of_isDigit {c : Char} (h : c.isDigit = true) : Text.isBlank c = false := by
  simp only [Char.isDigit, Bool.and_eq_true, decide_eq_true_eq, UInt32.le_iff_toNat_le] at h
  have hlower : 48 ≤ c.toNat := h.1
  have hupper : c.toNat ≤ 57 := h.2
  rw [Text.isBlank, Bool.eq_false_iff]
  simp only [ne_eq, Bool.or_eq_true, Bool.and_eq_true, decide_eq_true_eq, beq_iff_eq]
  omega

theorem skipBlank_cons {c : Char} (h : Text.isBlank c = false) (cs : List Char) :
    skipBlank (c :: cs) = c :: cs := by
  rw [skipBlank, List.dropWhile_cons, if_neg (by rw [h]; exact Bool.false_ne_true)]

/-- No blanks stand before the digits of a number. -/
theorem skipBlank_padded (width n : Nat) (rest : List Char) :
    skipBlank (padded width n ++ rest) = padded width n ++ rest := by
  obtain ⟨c, cs, hcons⟩ := List.exists_cons_of_ne_nil (padded_ne_nil width n)
  have hc : c.isDigit = true := isDigit_of_mem_padded (hcons ▸ List.mem_cons_self)
  rw [hcons, List.cons_append, skipBlank_cons (not_isBlank_of_isDigit hc)]

theorem readQuantity?_padded {q : Quantity} (hwidth : q.width = some 2)
    (hsigned : q.isSigned = false) (h : n < 100) (rest : List Char) :
    readQuantity? q (padded 2 n ++ rest) = some ((n : Int), rest) := by
  have hread := readNumber?_padded 2 rest (by decide) h (by omega)
  rw [readQuantity?, skipBlank_padded, hwidth, hsigned, Option.getD_some, hread]
  rfl

/-! ## Years -/

/-- A year in four digits, or a sign and at least four digits outside of 0 to 9999. -/
def yearText (year : Int) : List Char :=
  if 0 ≤ year ∧ year ≤ 9999 then padded 4 year.toNat
  else (if year < 0 then '-' else '+') :: padded 4 year.natAbs

theorem writeYear_zeros (year : Int) : writeYear .zeros year = yearText year := by
  rw [writeYear, yearText]
  by_cases h : 0 ≤ year ∧ year < 10000
  · have habs : year.natAbs = year.toNat := by omega
    rw [if_pos h, if_pos (by omega), writeNumber, if_neg (by omega), filled, habs, List.length_nil,
      Nat.zero_add]
    rfl
  · have hmissing (length : Nat) : 5 - (1 + length) = 4 - length := by omega
    have hsign : ¬(0 ≤ year ∧ year ≤ 9999) := by omega
    rw [if_neg h, if_neg hsign, filled, List.length_singleton, hmissing]
    rfl

/-- A year of 32 bits is read back, if it does not run into other digits. -/
theorem readQuantity?_year {year : Int} (hlow : -2 ^ 31 ≤ year) (hhigh : year < 2 ^ 31)
    (hstop : Stops rest) : readQuantity? .year (yearText year ++ rest) = some (year, rest) := by
  have hsigned : readNumber? (padded 4 year.natAbs ++ rest).length (padded 4 year.natAbs ++ rest) =
      some (year.natAbs, rest) := by
    have hread := readNumber?_append (padded 4 year.natAbs ++ rest).length rest
      (fun _ hc => isDigit_of_mem_padded hc) (padded_ne_nil 4 year.natAbs) (by simp) (.inr hstop)
      (by rw [digitsValue_padded]; omega)
    rwa [digitsValue_padded] at hread
  rw [yearText]
  split_ifs with hfour hnegative
  · have hread := readNumber?_padded 4 rest (n := year.toNat) (by decide) (by omega) (by omega)
    have hskip := skipBlank_padded 4 year.toNat rest
    -- the text starts with a digit and thus without a sign
    obtain ⟨c, cs, hcons⟩ := List.exists_cons_of_ne_nil (padded_ne_nil 4 year.toNat)
    have hc : c.isDigit = true := isDigit_of_mem_padded (hcons ▸ List.mem_cons_self)
    rw [hcons, List.cons_append] at hread hskip ⊢
    have hminus : c ≠ '-' := Json.ne_of_isDigit hc rfl
    have hplus : c ≠ '+' := Json.ne_of_isDigit hc rfl
    rw [readQuantity?, hskip]
    show readSigned? 4 (c :: (cs ++ rest)) = _
    rw [readSigned?, hread]
    · simp only [Option.map_some, Option.some_inj, Prod.mk.injEq, and_true]
      omega
    · exact fun _ h => hminus (List.cons.inj h).1
    · exact fun _ h => hplus (List.cons.inj h).1
  · rw [List.cons_append, readQuantity?, skipBlank_cons rfl]
    show readSigned? 4 ('-' :: (padded 4 year.natAbs ++ rest)) = _
    rw [readSigned?, hsigned]
    simp only [Option.map_some, Option.some_inj, Prod.mk.injEq, and_true]
    omega
  · rw [List.cons_append, readQuantity?, skipBlank_cons rfl]
    show readSigned? 4 ('+' :: (padded 4 year.natAbs ++ rest)) = _
    rw [readSigned?, hsigned]
    simp only [Option.map_some, Option.some_inj, Prod.mk.injEq, and_true]
    omega

/-! ## Fractions -/

/-- The nanoseconds of a fraction of a second: its digits up to the ninth, with zeros for those that
it lacks. -/
def nanosOf (digits : List Char) : Nat := digitsValue 0 ((digits ++ List.replicate 9 '0').take 9)

theorem nanosOf_eq (ds : List Char) :
    nanosOf ds = digitsValue 0 (ds.take 9) * 10 ^ (9 - (ds.take 9).length) := by
  have hzeros : (List.replicate 9 '0').take (9 - ds.length) =
      List.replicate (9 - (ds.take 9).length) '0' := by
    rw [List.take_replicate, List.length_take]
    congr 1
    omega
  rw [nanosOf, List.take_append, hzeros, Text.digitsValue_append, Text.digitsValue_zeros]

theorem nanosOf_lt (h : ∀ c ∈ ds, c.isDigit = true) : nanosOf ds < 1000000000 := by
  have hdigits : ∀ c ∈ (ds ++ List.replicate 9 '0').take 9, c.isDigit = true := by
    intro c hc
    rcases List.mem_append.1 (List.mem_of_mem_take hc) with hc | hc
    · exact h c hc
    · rw [(List.mem_replicate.1 hc).2]
      rfl
  have hlength : ((ds ++ List.replicate 9 '0').take 9).length = 9 := by simp
  have hlt := Text.digitsValue_lt 0 hdigits
  rwa [hlength] at hlt

theorem readFraction?_eq (h : ∀ c ∈ ds, c.isDigit = true) (hne : ds ≠ []) :
    readFraction? ds = some (nanosOf ds, []) := by
  have hdigits : ds.takeWhile Char.isDigit = ds := List.takeWhile_eq_self_iff.2 h
  rw [readFraction?, hdigits, if_neg (by simpa using hne), nanosOf_eq, List.drop_length]
  rfl

/-- The digits that a fraction of a second is written by. -/
def fractionDigits (nano : Nat) : List Char :=
  if nano = 0 then []
  else if nano % 1000000 = 0 then padded 3 (nano / 1000000)
  else if nano % 1000 = 0 then padded 6 (nano / 1000)
  else padded 9 nano

theorem isDigit_of_mem_fractionDigits {nano : Nat} {c : Char} (h : c ∈ fractionDigits nano) :
    c.isDigit = true := by
  unfold fractionDigits at h
  split_ifs at h
  · cases h
  all_goals exact isDigit_of_mem_padded h

theorem nanosOf_padded (hwidth : 0 < width) (hnine : width ≤ 9) (h : n < 10 ^ width) :
    nanosOf (padded width n) = n * 10 ^ (9 - width) := by
  have hlength := length_padded hwidth h
  rw [nanosOf_eq, List.take_of_length_le (by omega), hlength, digitsValue_padded]

theorem nanosOf_fractionDigits {nano : Nat} (h : nano < 1000000000) :
    nanosOf (fractionDigits nano) = nano := by
  unfold fractionDigits
  split_ifs with hzero hmilli hmicro
  · rw [hzero]
    rfl
  · rw [nanosOf_padded (by decide) (by decide) (by omega)]
    omega
  · rw [nanosOf_padded (by decide) (by decide) (by omega)]
    omega
  · rw [nanosOf_padded (by decide) (by decide) (by omega)]
    omega

def fractionText : List Char → List Char
  | [] => []
  | digits => '.' :: digits

theorem fractionText_of_ne_nil (h : ds ≠ []) : fractionText ds = '.' :: ds := by
  obtain ⟨c, cs, rfl⟩ := List.exists_cons_of_ne_nil h
  rfl

theorem writeShortFraction_eq (nano : Nat) :
    writeShortFraction nano = fractionText (fractionDigits nano) := by
  unfold writeShortFraction fractionDigits
  split_ifs
  · rfl
  · rw [fractionText_of_ne_nil (padded_ne_nil _ _)]
    rfl
  · rw [fractionText_of_ne_nil (padded_ne_nil _ _)]
    rfl
  · rw [fractionText_of_ne_nil (padded_ne_nil _ _), writeFraction, Nat.sub_self]
    exact congrArg (fun n => '.' :: padded 9 n) (Nat.div_one nano)

end TagMachine.DateFormat
