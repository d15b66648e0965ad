import Mathlib.Tactic
import TagMachine.Calendar.Date

set_option autoImplicit false

/-! # Days and their numbers

The calendar is given by the day that follows a day (`Date.next`). Numbers of days go with it: the
next day has the next number (`Date.next_spec`), every number is that of one real date
(`Date.ofDayNumber_spec`, `Date.ofDayNumber_dayNumber`), and a date lies some days after another
just if its number is so much greater (`Date.daysLater_iff`).
-/

namespace TagMachine

/-! ## Years -/

theorem isLeapYear_iff (year : Int) :
    isLeapYear year = true ↔ year % 4 = 0 ∧ (year % 100 ≠ 0 ∨ year % 400 = 0) := by
  simp [isLeapYear]

theorem daysBeforeYear_eq (year : Int) :
    daysBeforeYear year = 365 * (year - 1) + (year - 1) / 4 - (year - 1) / 100 + (year - 1) / 400 :=
  rfl

theorem daysBeforeYear_succ (year : Int) :
    daysBeforeYear (year + 1) = daysBeforeYear year + yearLength year := by
  rw [daysBeforeYear_eq, daysBeforeYear_eq, yearLength]
  split_ifs with h
  · have hleap := (isLeapYear_iff year).1 h
    omega
  · have hcommon := mt (isLeapYear_iff year).2 h
    omega

theorem yearLength_pos (year : Int) : 0 < yearLength year := by
  unfold yearLength
  split <;> decide

theorem daysBeforeYear_strictMono : StrictMono daysBeforeYear := by
  refine strictMono_int_of_lt_succ fun year => ?_
  have hpos := yearLength_pos year
  rw [daysBeforeYear_succ]
  omega

/-- The year of a day starts before the day and ends with it at the earliest. -/
theorem Date.yearOfDay_bounds (n : Int) :
    daysBeforeYear (Date.yearOfDay n) < n ∧ n ≤ daysBeforeYear (Date.yearOfDay n + 1) := by
  unfold Date.yearOfDay
  simp only
  -- the mean length of a year is 146097 / 400 days
  generalize hquotient : (n - 1) * 400 / 146097 = quotient
  have hmean : 146097 * quotient ≤ (n - 1) * 400 ∧ (n - 1) * 400 < 146097 * (quotient + 1) := by
    omega
  have hbefore : daysBeforeYear quotient < n := by
    rw [daysBeforeYear_eq]
    omega
  have hafter : n ≤ daysBeforeYear (quotient + 1 + 1 + 1) := by
    rw [daysBeforeYear_eq]
    omega
  split_ifs with hearly hlate
  · rw [Int.add_sub_cancel]
    exact ⟨hbefore, hearly⟩
  · exact ⟨hlate, hafter⟩
  · exact ⟨Int.not_le.1 hearly, Int.not_lt.1 hlate⟩

theorem Date.yearOfDay_eq {n year : Int} (hlow : daysBeforeYear year < n)
    (hhigh : n ≤ daysBeforeYear (year + 1)) : Date.yearOfDay n = year := by
  obtain ⟨hlow', hhigh'⟩ := Date.yearOfDay_bounds n
  have hle := daysBeforeYear_strictMono.lt_iff_lt.1 (hlow.trans_le hhigh')
  have hge := daysBeforeYear_strictMono.lt_iff_lt.1 (hlow'.trans_le hhigh)
  omega

/-! ## Months -/

@[simp] theorem length_monthLengths (year : Int) : (monthLengths year).length = 12 := rfl

theorem sum_monthLengths (year : Int) : (monthLengths year).sum = yearLength year := by
  unfold monthLengths yearLength
  split <;> rfl

theorem monthLength_bounds (year : Int) {m : Nat} (hlow : 1 ≤ m) (hhigh : m ≤ 12) :
    28 ≤ monthLength year m ∧ monthLength year m ≤ 31 := by
  unfold monthLength monthLengths
  cases isLeapYear year <;> interval_cases m <;> decide

theorem daysBeforeMonth_succ (year : Int) (k : Nat) :
    daysBeforeMonth year (k + 2) = daysBeforeMonth year (k + 1) + monthLength year (k + 1) := by
  have htake (lengths : List Nat) : (lengths.take (k + 1)).sum =
      (lengths.take k).sum + lengths.getD k 0 := by
    rw [List.take_add_one, List.sum_append, List.getD_eq_getElem?_getD]
    cases lengths[k]? <;> simp
  exact htake (monthLengths year)

theorem daysBeforeMonth_thirteen (year : Int) : daysBeforeMonth year 13 = yearLength year := by
  rw [← sum_monthLengths]
  rfl

theorem daysBeforeMonth_mono (year : Int) {m n : Nat} (h : m ≤ n) :
    daysBeforeMonth year (m + 1) ≤ daysBeforeMonth year (n + 1) := by
  induction n, h using Nat.le_induction with
  | base => exact le_rfl
  | succ n _ ih =>
    rw [daysBeforeMonth_succ]
    omega

namespace Date

variable {d e : Date} {n : Int}

theorem isReal_iff (d : Date) :
    d.isReal = true ↔ 1 ≤ d.month ∧ d.month ≤ 12 ∧ 1 ≤ d.day ∧
      d.day ≤ monthLength d.year d.month := by
  simp [isReal, and_assoc]

theorem inRange_iff (d : Date) : d.inRange = true ↔ -262143 ≤ d.year ∧ d.year ≤ 262142 := by
  rw [inRange, Bool.and_eq_true, decide_eq_true_iff, decide_eq_true_iff]
  rfl

theorem of?_eq_some {year : Int} {month day : Nat}
    (hreal : (⟨year, month, day⟩ : Date).isReal = true)
    (hrange : (⟨year, month, day⟩ : Date).inRange = true) :
    of? year month day = some ⟨year, month, day⟩ := by
  simp [of?, hreal, hrange]

/-- A real date lies in its year. -/
theorem ordinal_bounds (h : d.isReal = true) : 1 ≤ d.ordinal ∧ d.ordinal ≤ yearLength d.year := by
  obtain ⟨hlow, hhigh, hday, hlength⟩ := (isReal_iff d).1 h
  obtain ⟨k, hk⟩ := Nat.exists_eq_add_of_le' hlow
  have hmono := daysBeforeMonth_mono d.year (show k + 1 ≤ 12 by omega)
  rw [daysBeforeMonth_succ, daysBeforeMonth_thirteen] at hmono
  rw [ordinal, hk]
  rw [hk] at hlength
  omega

/-! ## Positions in a year -/

/-- A place in the `k`-th of some months is found there. -/
theorem placeInMonths_sum_take (lengths : List Nat) (month : Nat) {k day : Nat} (hday : 1 ≤ day)
    (hlength : day ≤ lengths.getD k 0) :
    placeInMonths lengths month ((lengths.take k).sum + day) = (month + k, day) := by
  induction lengths generalizing month k with
  | nil =>
    simp only [List.getD_nil] at hlength
    omega
  | cons length lengths ih =>
    cases k with
    | zero =>
      rw [List.take_zero, List.sum_nil, Nat.zero_add, placeInMonths]
      exact if_pos hlength
    | succ k =>
      have hlater : ¬length + (lengths.take k).sum + day ≤ length := by omega
      have hrest : length + (lengths.take k).sum + day - length = (lengths.take k).sum + day := by
        omega
      rw [List.take_succ_cons, List.sum_cons, placeInMonths, if_neg hlater, hrest,
        ih (month + 1) hlength]
      exact congrArg (·, day) (by omega)

/-- Every day of some months has a place in one of them. -/
theorem exists_place (lengths : List Nat) (month : Nat) {n : Nat} (hpos : 1 ≤ n)
    (hsum : n ≤ lengths.sum) :
    ∃ k day, k < lengths.length ∧ 1 ≤ day ∧ day ≤ lengths.getD k 0 ∧ n =
      (lengths.take k).sum + day ∧
      placeInMonths lengths month n = (month + k, day) := by
  suffices hplace : ∃ k day, k < lengths.length ∧ 1 ≤ day ∧ day ≤ lengths.getD k 0 ∧
      n = (lengths.take k).sum + day by
    obtain ⟨k, day, hk, hday, hlength, rfl⟩ := hplace
    exact ⟨k, day, hk, hday, hlength, rfl, placeInMonths_sum_take lengths month hday hlength⟩
  clear month
  induction lengths generalizing n with
  | nil =>
    simp only [List.sum_nil] at hsum
    omega
  | cons length lengths ih =>
    by_cases hfirst : n ≤ length
    · exact ⟨0, n, by simp, hpos, hfirst, by simp⟩
    · rw [List.sum_cons] at hsum
      obtain ⟨k, day, hk, hday, hlength, hn⟩ := ih (n := n - length) (by omega) (by omega)
      refine ⟨k + 1, day, by simpa using hk, hday, hlength, ?_⟩
      rw [List.take_succ_cons, List.sum_cons]
      omega

theorem ofOrdinal_ordinal (h : d.isReal = true) : ofOrdinal d.year d.ordinal = d := by
  obtain ⟨hlow, -, hday, hlength⟩ := (isReal_iff d).1 h
  obtain ⟨year, month, day⟩ := d
  obtain ⟨k, rfl⟩ := Nat.exists_eq_add_of_le' hlow
  have hplace : placeInMonths (monthLengths year) 1 (ordinal ⟨year, k + 1, day⟩) = (1 + k, day) :=
    placeInMonths_sum_take (monthLengths year) 1 hday hlength
  rw [ofOrdinal, hplace, Nat.add_comm 1 k]

theorem ofOrdinal_spec (year : Int) {n : Nat} (hpos : 1 ≤ n) (hlength : n ≤ yearLength year) :
    (ofOrdinal year n).isReal = true ∧ (ofOrdinal year n).year = year ∧
      (ofOrdinal year n).ordinal = n := by
  rw [← sum_monthLengths] at hlength
  obtain ⟨k, day, hk, hday, hmonth, rfl, hplace⟩ := exists_place (monthLengths year) 1 hpos hlength
  rw [length_monthLengths] at hk
  have hdate : ofOrdinal year (((monthLengths year).take k).sum + day) = ⟨year, k + 1, day⟩ := by
    simp only [ofOrdinal, hplace, Nat.add_comm 1 k]
  rw [hdate, isReal_iff]
  exact ⟨⟨by simp, by simp; omega, hday, hmonth⟩, rfl, rfl⟩

/-! ## Numbers of days -/

theorem dayNumber_bounds (h : d.isReal = true) :
    daysBeforeYear d.year < d.dayNumber ∧ d.dayNumber ≤ daysBeforeYear (d.year + 1) := by
  obtain ⟨hpos, hlength⟩ := ordinal_bounds h
  rw [daysBeforeYear_succ, dayNumber]
  omega

theorem ofDayNumber_dayNumber (h : d.isReal = true) : ofDayNumber d.dayNumber = d := by
  obtain ⟨hlow, hhigh⟩ := dayNumber_bounds h
  have hordinal : (d.dayNumber - daysBeforeYear d.year).toNat = d.ordinal := by
    rw [dayNumber]
    omega
  rw [ofDayNumber, yearOfDay_eq hlow hhigh]
  simp only [hordinal]
  exact ofOrdinal_ordinal h

theorem dayNumber_inj (hd : d.isReal = true) (he : e.isReal = true)
    (h : d.dayNumber = e.dayNumber) : d = e := by
  rw [← ofDayNumber_dayNumber hd, h, ofDayNumber_dayNumber he]

theorem ofDayNumber_spec (n : Int) :
    (ofDayNumber n).isReal = true ∧ (ofDayNumber n).dayNumber = n := by
  obtain ⟨hlow, hhigh⟩ := yearOfDay_bounds n
  rw [daysBeforeYear_succ] at hhigh
  have hordinal : 1 ≤ (n - daysBeforeYear (yearOfDay n)).toNat ∧
      (n - daysBeforeYear (yearOfDay n)).toNat ≤ yearLength (yearOfDay n) := by omega
  obtain ⟨hreal, hyear, hordinal⟩ := ofOrdinal_spec (yearOfDay n) hordinal.1 hordinal.2
  refine ⟨hreal, ?_⟩
  rw [ofDayNumber, dayNumber, hyear, hordinal]
  omega

/-! ## The next day -/

/-- The day after a date. -/
def next (d : Date) : Date :=
  if d.day < monthLength d.year d.month then ⟨d.year, d.month, d.day + 1⟩
  else if d.month < 12 then ⟨d.year, d.month + 1, 1⟩
  else ⟨d.year + 1, 1, 1⟩

theorem next_spec (h : d.isReal = true) :
    d.next.isReal = true ∧ d.next.dayNumber = d.dayNumber + 1 := by
  obtain ⟨year, month, day⟩ := d
  obtain ⟨hlow, hhigh, hday, hlength⟩ := (isReal_iff _).1 h
  simp only at hlow hhigh hday hlength
  rw [next]
  split_ifs with hmonth hyear
  · refine ⟨(isReal_iff _).2 ⟨hlow, hhigh, by simp, hmonth⟩, ?_⟩
    simp only [dayNumber, ordinal]
    omega
  · -- the last day of a month
    simp only at hmonth hyear ⊢
    have hfirst := monthLength_bounds year (m := month + 1) (by omega) (by omega)
    obtain ⟨k, rfl⟩ := Nat.exists_eq_add_of_le' hlow
    refine ⟨(isReal_iff _).2 ⟨by simp, hyear, le_rfl, by simp only; omega⟩, ?_⟩
    simp only [dayNumber, ordinal, daysBeforeMonth_succ]
    omega
  · -- the last day of a year
    simp only at hmonth hyear ⊢
    obtain rfl : month = 12 := by omega
    have hfirst := monthLength_bounds (year + 1) (m := 1) (by omega) (by omega)
    have hlast : yearLength year = daysBeforeMonth year 12 + monthLength year 12 := by
      rw [← daysBeforeMonth_thirteen]
      exact daysBeforeMonth_succ year 11
    have hjanuary : daysBeforeMonth (year + 1) 1 = 0 := rfl
    refine ⟨(isReal_iff _).2 ⟨by simp, by simp, le_rfl, by simp only; omega⟩, ?_⟩
    simp only [dayNumber, ordinal, daysBeforeYear_succ, hjanuary]
    omega

theorem iterate_next_spec (h : d.isReal = true) (count : Nat) :
    (next^[count] d).isReal = true ∧ (next^[count] d).dayNumber = d.dayNumber + count := by
  induction count with
  | zero => exact ⟨h, by simp⟩
  | succ count ih =>
    obtain ⟨hreal, hnumber⟩ := next_spec ih.1
    rw [Function.iterate_succ_apply']
    refine ⟨hreal, ?_⟩
    rw [hnumber, ih.2]
    push_cast
    ring

/-- The date `e` is the one `n` days after `d`, or `-n` days before it, counting one day after the
other. -/
def DaysLater (d : Date) (n : Int) (e : Date) : Prop :=
  (∃ count : Nat, n = count ∧ next^[count] d = e) ∨ ∃ count : Nat, n = -count ∧ next^[count] e = d

theorem daysLater_iff (hd : d.isReal = true) (he : e.isReal = true) :
    d.DaysLater n e ↔ e.dayNumber = d.dayNumber + n := by
  constructor
  · rintro (⟨count, rfl, rfl⟩ | ⟨count, rfl, rfl⟩)
    · exact (iterate_next_spec hd count).2
    · rw [(iterate_next_spec he count).2]
      ring
  · intro h
    rcases Int.le_total 0 n with hpos | hneg
    · obtain ⟨count, rfl⟩ := Int.eq_ofNat_of_zero_le hpos
      obtain ⟨hreal, hnumber⟩ := iterate_next_spec hd count
      exact .inl ⟨count, rfl, dayNumber_inj hreal he (hnumber.trans h.symm)⟩
    · obtain ⟨count, hcount⟩ := Int.eq_ofNat_of_zero_le (Int.neg_nonneg_of_nonpos hneg)
      obtain ⟨hreal, hnumber⟩ := iterate_next_spec he count
      refine .inr ⟨count, by omega, dayNumber_inj hreal hd ?_⟩
      rw [hnumber]
      omega

/-! ## Dates that can be held -/

theorem abs_dayNumber_lt (hreal : d.isReal = true) (hrange : d.inRange = true) :
    -100000000 < d.dayNumber ∧ d.dayNumber < 100000000 := by
  obtain ⟨hlow, hhigh⟩ := dayNumber_bounds hreal
  obtain ⟨hfirst, hlast⟩ := (inRange_iff d).1 hrange
  have hstart := daysBeforeYear_strictMono.monotone hfirst
  have hend := daysBeforeYear_strictMono.monotone (show d.year + 1 ≤ 262143 by omega)
  have hstart' : -100000000 < daysBeforeYear (-262143) := by decide
  have hend' : daysBeforeYear 262143 < 100000000 := by decide
  omega

theorem shiftDays?_eq (he : e.isReal = true) (h : e.dayNumber = d.dayNumber + n) :
    d.shiftDays? n = if e.inRange then some e else none := by
  rw [shiftDays?, ← h, ofDayNumber?]
  simp only [ofDayNumber_dayNumber he]

end Date

end TagMachine
