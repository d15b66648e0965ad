import TagMachine.Calendar.DateTime
import TagMachine.Proofs.Calendar.Date

set_option autoImplicit false

/-! # Moving date-times, and the time between them

A move by seconds leads to the date-time that counting days and seconds leads to
(`DateTime.shift?_of_later`), and the time to it is that number of seconds
(`DateTime.secondsTo_of_later`). Time is counted the same in both directions
(`DateTime.secondsTo_comm`). A move by months leads to the month so many months away, if its year
can be held (`Date.shiftMonths?_eq`).
-/

namespace TagMachine

/-! ## Times of day -/

/-- Whether a day has the time. A leap second is the last of its minute. -/
structure TimeOfDay.IsReal (t : TimeOfDay) : Prop where
  second_lt : t.second < 86400
  nano_lt : t.nano < 2000000000
  leap : t.inLeapSecond = true → t.second % 60 = 59

theorem TimeOfDay.IsReal.hour_lt {t : TimeOfDay} (h : t.IsReal) : t.hour < 24 := by
  have hsecond := h.second_lt
  rw [hour]
  omega

theorem TimeOfDay.minute_lt (t : TimeOfDay) : t.minute < 60 := Nat.mod_lt _ (by decide)

theorem TimeOfDay.inLeapSecond_iff (t : TimeOfDay) :
    t.inLeapSecond = true ↔ 1000000000 ≤ t.nano := by
  rw [inLeapSecond, decide_eq_true_iff]
  rfl

theorem TimeOfDay.nanosTo_comm (a b : TimeOfDay) : b.nanosTo a = -a.nanosTo b := by
  simp only [nanosTo, nanosPerSecond]
  by_cases hbefore : a.second < b.second
  · have hafter : ¬b.second < a.second := by omega
    by_cases hleap : a.inLeapSecond = true <;> simp [hbefore, hafter, hleap] <;> ring
  · by_cases hafter : b.second < a.second
    · by_cases hleap : b.inLeapSecond = true <;> simp [hbefore, hafter, hleap] <;> ring
    · simp [hbefore, hafter]
      ring

theorem TimeOfDay.nanosTo_of_lt {a b : TimeOfDay} (ha : a.nano < 1000000000)
    (hb : b.nano < 1000000000) :
    a.nanosTo b = ((b.second : Int) - a.second) * nanosPerSecond + ((b.nano : Int) - a.nano) := by
  have haleap : ¬a.inLeapSecond = true := by
    rw [inLeapSecond_iff]
    omega
  have hbleap : ¬b.inLeapSecond = true := by
    rw [inLeapSecond_iff]
    omega
  simp [nanosTo, haleap, hbleap]

theorem TimeOfDay.nanosTo_bounds {a b : TimeOfDay} (ha : a.IsReal) (hb : b.IsReal) :
    -100000000000000 < a.nanosTo b ∧ a.nanosTo b < 100000000000000 := by
  have hasecond := ha.second_lt
  have hbsecond := hb.second_lt
  have hanano := ha.nano_lt
  have hbnano := hb.nano_lt
  simp only [nanosTo, nanosPerSecond]
  split_ifs <;> omega

namespace DateTime

variable {t u : DateTime} {seconds : Int}

/-- A date-time that the calendar has and that can be held. -/
structure IsHeld (t : DateTime) : Prop where
  real : t.date.isReal = true
  inRange : t.date.inRange = true
  time : t.time.IsReal

/-! ## Moves by seconds -/

/-- The date-time `u` is the one some seconds after `t`, counting days of 86400 seconds. -/
structure Later (t : DateTime) (seconds : Int) (u : DateTime) : Prop where
  counted : ∃ days, t.date.DaysLater days u.date ∧ u.time.second + 86400 * days =
    t.time.second + seconds
  real : u.date.isReal = true
  second_lt : u.time.second < 86400
  nano : u.time.nano = t.time.nano

theorem Later.exists_days (h : t.Later seconds u) (ht : t.IsHeld) :
    ∃ days, u.date.dayNumber = t.date.dayNumber + days ∧ u.time.second + 86400 * days =
      t.time.second + seconds := by
  obtain ⟨days, hdays, hseconds⟩ := h.counted
  exact ⟨days, (Date.daysLater_iff ht.real h.real).1 hdays, hseconds⟩

/-- A date-time lies any number of seconds after another, whether or not it can be held. -/
theorem exists_later (ht : t.IsHeld) (seconds : Int) : ∃ u, t.Later seconds u := by
  obtain ⟨days, second, hsecond, hcount⟩ : ∃ (days : Int) (second : Nat), second < 86400 ∧
      second + 86400 * days = t.time.second + seconds :=
    ⟨(t.time.second + seconds) / 86400,
      ((t.time.second + seconds) % 86400).toNat, by omega, by omega⟩
  obtain ⟨hreal, hnumber⟩ := Date.ofDayNumber_spec (t.date.dayNumber + days)
  exact ⟨⟨Date.ofDayNumber (t.date.dayNumber + days), second, t.time.nano⟩,
    ⟨days, (Date.daysLater_iff ht.real hreal).2 hnumber, hcount⟩, hreal, hsecond, rfl⟩

theorem shift?_of_later (ht : t.IsHeld) (hleap : t.time.nano < 1000000000) (h : t.Later seconds u) :
    t.shift? seconds = if u.date.inRange then some u else none := by
  obtain ⟨days, hdays, hseconds⟩ := h.exists_days ht
  have hsecond := ht.time.second_lt
  have hsecond' := h.second_lt
  obtain ⟨date, second, nano⟩ := u
  obtain rfl : nano = t.time.nano := h.nano
  simp only at hdays hseconds hsecond'
  rw [shift?]
  by_cases hzero : seconds = 0
  · obtain rfl : days = 0 := by omega
    obtain rfl : second = t.time.second := by omega
    obtain rfl : date = t.date := Date.dayNumber_inj h.real ht.real (hdays.trans (Int.add_zero _))
    rw [if_pos hzero, if_pos ht.inRange]
  · have hstart : departure t.time seconds = (t.time.second, t.time.nano) := by
      rw [departure, if_neg]
      rw [TimeOfDay.inLeapSecond_iff]
      omega
    have hquotient : (t.time.second + seconds) / (secondsPerDay : Int) = days := by
      simp only [secondsPerDay]
      omega
    have hrest : ((t.time.second + seconds) % (secondsPerDay : Int)).toNat = second := by
      simp only [secondsPerDay]
      omega
    simp only [if_neg hzero, hstart, hquotient, hrest, Date.shiftDays?_eq h.real hdays]
    split_ifs <;> rfl

theorem Later.isHeld (h : t.Later seconds u) (hleap : t.time.nano < 1000000000)
    (hu : u.date.inRange = true) : u.IsHeld := by
  have hnano := h.nano
  refine ⟨h.real, hu, h.second_lt, by omega, fun hin => ?_⟩
  rw [TimeOfDay.inLeapSecond_iff] at hin
  omega

/-- Whole days after midnight it is midnight. -/
theorem Later.midnight {days : Int} (h : t.Later (days * 86400) u) (ht : t.time = .midnight) :
    u.time = .midnight := by
  obtain ⟨count, -, hseconds⟩ := h.counted
  have hsecond := h.second_lt
  have hnano := h.nano
  rw [ht] at hseconds hnano
  obtain ⟨date, second, nano⟩ := u
  simp only [TimeOfDay.midnight, TimeOfDay.mk.injEq] at hseconds hsecond hnano ⊢
  omega

/-! ## The time between date-times -/

theorem secondsTo_comm (t u : DateTime) : u.secondsTo t = -t.secondsTo u := by
  have hnanos : u.nanosTo t = -t.nanosTo u := by
    rw [nanosTo, nanosTo, TimeOfDay.nanosTo_comm]
    ring
  rw [secondsTo, secondsTo, hnanos, Int.neg_tdiv]

theorem secondsTo_of_later (ht : t.IsHeld) (hleap : t.time.nano < 1000000000)
    (h : t.Later seconds u) : t.secondsTo u = seconds := by
  obtain ⟨days, hdays, hseconds⟩ := h.exists_days ht
  obtain rfl : seconds = u.time.second + 86400 * days - t.time.second := by omega
  have hnanos : t.nanosTo u =
      (u.time.second + 86400 * days - t.time.second : Int) * nanosPerSecond := by
    rw [nanosTo, TimeOfDay.nanosTo_of_lt hleap (h.nano ▸ hleap), hdays, h.nano, secondsPerDay]
    push_cast
    ring
  rw [secondsTo, hnanos]
  exact Int.mul_tdiv_cancel _ (by decide)

theorem natAbs_secondsTo_lt (ht : t.IsHeld) (hu : u.IsHeld) :
    (t.secondsTo u).natAbs < 100000000000000 := by
  obtain ⟨htlow, hthigh⟩ := Date.abs_dayNumber_lt ht.real ht.inRange
  obtain ⟨hulow, huhigh⟩ := Date.abs_dayNumber_lt hu.real hu.inRange
  obtain ⟨hlow, hhigh⟩ := TimeOfDay.nanosTo_bounds ht.time hu.time
  have hnanos : (t.nanosTo u).natAbs < 100000000000000 * 1000000000 := by
    simp only [nanosTo, secondsPerDay, nanosPerSecond]
    omega
  rw [secondsTo, Int.natAbs_tdiv]
  exact Nat.div_lt_of_lt_mul (by simpa [nanosPerSecond, Nat.mul_comm] using hnanos)

end DateTime

/-! ## Moves by months -/

/-- The date in a month with the same day of the month, or the last day of the month if it is too
short for it. -/
def Date.inMonth (d : Date) (year : Int) (month : Nat) : Date :=
  ⟨year, month, min d.day (monthLength year month)⟩

theorem Date.isReal_inMonth {d : Date} (hd : d.isReal = true) (year : Int) {month : Nat}
    (hlow : 1 ≤ month)
    (hhigh : month ≤ 12) : (d.inMonth year month).isReal = true := by
  obtain ⟨-, -, hday, -⟩ := (Date.isReal_iff d).1 hd
  obtain ⟨hlength, -⟩ := monthLength_bounds year hlow hhigh
  exact (Date.isReal_iff _).2 ⟨hlow, hhigh, by simp only [inMonth]; omega, Nat.min_le_right _ _⟩

theorem Date.shiftMonths?_eq {d : Date} (hd : d.isReal = true) {months year : Int} {month : Nat}
    (hlow : 1 ≤ month)
    (hhigh : month ≤ 12) (h : year * 12 + (month - 1) = d.year * 12 + (d.month - 1) + months) :
    d.shiftMonths? months =
      if -262143 ≤ year ∧ year ≤ 262142 then some (d.inMonth year month) else none := by
  obtain ⟨hmonth, -⟩ := (Date.isReal_iff d).1 hd
  have hyear : (d.year * 12 + (d.month - 1 : Nat) + months) / 12 = year := by omega
  have hrest : ((d.year * 12 + (d.month - 1 : Nat) + months) % 12).toNat + 1 = month := by omega
  have hreal : (⟨year, month, min d.day (monthLength year month)⟩ : Date).isReal = true :=
    Date.isReal_inMonth hd year hlow hhigh
  simp only [Date.shiftMonths?, hyear, hrest, Date.of?, hreal, Bool.true_and, Date.inRange_iff]
  rfl

/-- More months than a date is moved by at a time lead out of the years that can be held. -/
theorem Date.shiftMonths?_eq_none {d : Date} (hd : d.isReal = true) (hrange : d.inRange = true)
    {months : Int} (h : monthCap < months.natAbs) : d.shiftMonths? months = none := by
  obtain ⟨hlow, hhigh, -⟩ := (Date.isReal_iff d).1 hd
  obtain ⟨hfirst, hlast⟩ := (Date.inRange_iff d).1 hrange
  have hfar : 2147483647 < months.natAbs := h
  have hout : ¬(-262143 ≤ (d.year * 12 + (d.month - 1 : Nat) + months) / 12 ∧
      (d.year * 12 + (d.month - 1 : Nat) + months) / 12 ≤ 262142) := by omega
  simp only [Date.shiftMonths?, Date.of?, Bool.and_eq_true, Date.inRange_iff]
  exact if_neg fun hheld => hout hheld.2

end TagMachine
