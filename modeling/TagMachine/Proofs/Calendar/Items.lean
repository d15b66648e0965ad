import TagMachine.Calendar.Iso
import TagMachine.Proofs.Calendar.DateTime
import TagMachine.Proofs.Calendar.Numbers

set_option autoImplicit false

/-! # Dates and times by the items of a format

What the items of a date (`isoDate`) and of a time (`hourMinute`, `clock`) write, and that they read
it back into the fields that determine the date-time (`dateTime?_momentFields`). The formats are
these items with marks or blanks between.
-/

namespace TagMachine.DateFormat

variable {t : DateTime} {d : Date} {item : Item} {items : List Item} {f : Fields}
  {cs rest : List Char}

/-! ## One item after the other -/

theorem writeItems?_cons (h : writeItem? t item = some cs) (items : List Item) :
    writeItems? t (item :: items) = (writeItems? t items).map (cs ++ ·) := by
  rw [writeItems?, writeItems?, List.mapM_cons, h]
  cases items.mapM (writeItem? t) <;> rfl

theorem readByItems?_zeroed {q : Quantity} {v : Int} {g : Fields}
    (h : readQuantity? q cs = some (v, rest)) (hset : f.set? v q = some g) (items : List Item) :
    readByItems? (zeroed q :: items) f cs = readByItems? items g rest := by
  have hitem : readItem? f cs (zeroed q) = some (g, rest) := by
    show (readQuantity? q cs).bind _ = _
    rw [h, Option.bind_some]
    simp only [hset, Option.map_some]
  rw [readByItems?, hitem, Option.bind_some]

theorem readByItems?_mark (c : Char) (items : List Item) (f : Fields) (rest : List Char) :
    readByItems? (mark c :: items) f (c :: rest) = readByItems? items f rest := by
  have hitem : readItem? f (c :: rest) (mark c) = some (f, rest) :=
    if_pos (by simp [List.isPrefixOf])
  rw [readByItems?, hitem, Option.bind_some]

/-! ## Dates -/

/-- A year, a month and a day with dashes between. -/
def dateText (d : Date) : List Char :=
  yearText d.year ++ '-' :: (padded 2 d.month ++ '-' :: padded 2 d.day)

def dateFields (d : Date) : Fields :=
  { year := some d.year, month := some d.month, day := some d.day }

theorem month_lt (h : d.isReal = true) : d.month < 100 := by
  have hmonth := ((Date.isReal_iff d).1 h).2.1
  omega

theorem day_le (h : d.isReal = true) : d.day ≤ 31 := by
  obtain ⟨hlow, hhigh, -, hday⟩ := (Date.isReal_iff d).1 h
  exact hday.trans (monthLength_bounds d.year hlow hhigh).2

theorem writeItems?_isoDate (h : t.date.isReal = true) (items : List Item) :
    writeItems? t (isoDate ++ items) = (writeItems? t items).map (dateText t.date ++ ·) := by
  have hday := day_le h
  have hyear : writeItem? t (zeroed .year) = some (yearText t.date.year) :=
    congrArg some (writeYear_zeros t.date.year)
  have hmonth : writeItem? t (zeroed .month) = some (padded 2 t.date.month) :=
    congrArg some (writePair_zeros _ (month_lt h))
  have hday : writeItem? t (zeroed .day) = some (padded 2 t.date.day) :=
    congrArg some (writePair_zeros _ (by omega))
  have hdash : writeItem? t (mark '-') = some ['-'] := rfl
  show writeItems? t
    (zeroed .year :: mark '-' :: zeroed .month :: mark '-' :: zeroed .day :: items) = _
  rw [writeItems?_cons hyear, writeItems?_cons hdash, writeItems?_cons hmonth,
    writeItems?_cons hdash, writeItems?_cons hday]
  cases writeItems? t items <;> simp [dateText]

theorem readByItems?_isoDate (hreal : d.isReal = true) (hrange : d.inRange = true)
    (items : List Item) (rest : List Char) :
    readByItems? (isoDate ++ items) {} (dateText d ++ rest) =
      readByItems? items (dateFields d) rest := by
  obtain ⟨hmonth, hmonth', hday, -⟩ := (Date.isReal_iff d).1 hreal
  obtain ⟨hyear, hyear'⟩ := (Date.inRange_iff d).1 hrange
  have hday' := day_le hreal
  have htext : dateText d ++ rest =
      yearText d.year ++ '-' :: (padded 2 d.month ++ '-' :: (padded 2 d.day ++ rest)) := by
    simp [dateText]
  have hheld : Fields.isHeldYear d.year = true := by
    rw [Fields.isHeldYear, Bool.and_eq_true, decide_eq_true_iff, decide_eq_true_iff]
    show -2 ^ 31 ≤ d.year ∧ d.year < 2 ^ 31
    omega
  have hsetYear : ({} : Fields).set? d.year .year = some { year := some d.year } := by
    simp [Fields.set?, Fields.setYear?, hheld, agree?]
  have hsetMonth : Fields.set? { year := some d.year } d.month .month =
      some { year := some d.year, month := some d.month } := by
    simp [Fields.set?, Fields.setMonth?, agreeWithin?, agree?, hmonth, hmonth']
  have hsetDay : Fields.set? { year := some d.year, month := some d.month } d.day .day =
    some (dateFields d) := by
    simp [Fields.set?, agreeWithin?, agree?, hday, hday', dateFields]
  have hstop (cs : List Char) : Text.Stops ('-' :: cs) := rfl
  show readByItems?
    (zeroed .year :: mark '-' :: zeroed .month :: mark '-' :: zeroed .day :: items) {} _ = _
  rw [htext, readByItems?_zeroed (readQuantity?_year (by omega) (by omega) (hstop _)) hsetYear,
    readByItems?_mark,
    readByItems?_zeroed (readQuantity?_padded rfl rfl (month_lt hreal) _) hsetMonth,
    readByItems?_mark, readByItems?_zeroed (readQuantity?_padded rfl rfl (by omega) rest) hsetDay]

/-! ## Times -/

/-- An hour and a minute with a colon between. -/
def minuteText (hour minute : Nat) : List Char := padded 2 hour ++ ':' :: padded 2 minute

def momentFields (d : Date) (hour minute : Nat) (second nano : Option Nat) : Fields :=
  { dateFields d with
    afternoon := some (decide (12 ≤ hour)), hourOfHalf := some (hour % 12), minute := some minute,
    second := second, nanosecond := nano }

theorem writeItems?_hourMinute (h : t.time.second < 86400) (items : List Item) :
    writeItems? t (hourMinute ++ items) =
      (writeItems? t items).map (minuteText t.time.hour t.time.minute ++ ·) := by
  have hhour : writeItem? t (zeroed .hour) = some (padded 2 t.time.hour) :=
    congrArg some (writePair_zeros _ (by rw [TimeOfDay.hour]; omega))
  have hminute : writeItem? t (zeroed .minute) = some (padded 2 t.time.minute) :=
    congrArg some (writePair_zeros _ (by rw [TimeOfDay.minute]; omega))
  have hcolon : writeItem? t (mark ':') = some [':'] := rfl
  show writeItems? t (zeroed .hour :: mark ':' :: zeroed .minute :: items) = _
  rw [writeItems?_cons hhour, writeItems?_cons hcolon, writeItems?_cons hminute]
  cases writeItems? t items <;> simp [minuteText]

theorem writeItems?_second (h : t.time.IsReal) (items : List Item) :
    writeItems? t (mark ':' :: zeroed .second :: items) =
      (writeItems? t items).map
        (':' :: padded 2 (t.time.secondOfMinute + t.time.nano / nanosPerSecond) ++ ·) := by
  have hlt : t.time.secondOfMinute + t.time.nano / nanosPerSecond < 100 := by
    have hnano := h.nano_lt
    rw [TimeOfDay.secondOfMinute, nanosPerSecond]
    omega
  have hsecond : writeItem? t (zeroed .second) =
      some (padded 2 (t.time.secondOfMinute + t.time.nano / nanosPerSecond)) :=
    congrArg some (writePair_zeros _ hlt)
  have hcolon : writeItem? t (mark ':') = some [':'] := rfl
  rw [writeItems?_cons hcolon, writeItems?_cons hsecond]
  cases writeItems? t items <;> simp

section Times

variable {hour minute second : Nat}

theorem readByItems?_hourMinute (hhour : hour < 24) (hminute : minute < 60) (d : Date)
    (items : List Item) (rest : List Char) :
    readByItems? (hourMinute ++ items) (dateFields d) (minuteText hour minute ++ rest) =
      readByItems? items (momentFields d hour minute none none) rest := by
  have htext : minuteText hour minute ++ rest =
      padded 2 hour ++ ':' :: (padded 2 minute ++ rest) := by
    simp [minuteText]
  have hsetHour : (dateFields d).set? hour .hour = some { dateFields d with
      afternoon := some (decide (12 ≤ hour)), hourOfHalf := some (hour % 12) } := by
    simp [Fields.set?, Fields.setHour?, agree?, hhour, dateFields]
  have hsetMinute : Fields.set?
      { dateFields d with afternoon := some (decide (12 ≤ hour)), hourOfHalf := some (hour % 12) }
        minute .minute =
      some (momentFields d hour minute none none) := by
    simp [Fields.set?, Fields.setMinute?, agreeWithin?, agree?, dateFields, momentFields]
    omega
  show readByItems? (zeroed .hour :: mark ':' :: zeroed .minute :: items) _ _ = _
  rw [htext, readByItems?_zeroed (readQuantity?_padded rfl rfl (by omega) _) hsetHour,
    readByItems?_mark,
    readByItems?_zeroed (readQuantity?_padded rfl rfl (by omega) rest) hsetMinute]

theorem readByItems?_second (hsecond : second ≤ 60) (d : Date) (items : List Item)
    (rest : List Char) :
    readByItems? (mark ':' :: zeroed .second :: items) (momentFields d hour minute none none)
        (':' :: padded 2 second ++ rest) =
      readByItems? items (momentFields d hour minute (some second) none) rest := by
  have hset : (momentFields d hour minute none none).set? second .second =
      some (momentFields d hour minute (some second) none) := by
    simp [Fields.set?, Fields.setSecond?, agreeWithin?, agree?, momentFields, hsecond]
  rw [List.cons_append, readByItems?_mark,
    readByItems?_zeroed (readQuantity?_padded rfl rfl (by omega) rest) hset]

/-- The fraction in the fields of a time: none is given by no digits. -/
def fractionField (digits : List Char) : Option Nat :=
  if digits = [] then none else some (nanosOf digits)

theorem readByItems?_fraction {digits : List Char} (h : ∀ c ∈ digits, c.isDigit = true) (d : Date)
    (second : Option Nat) :
    readByItems? [.fraction] (momentFields d hour minute second none) (fractionText digits) =
      some (momentFields d hour minute second (fractionField digits)) := by
  by_cases hne : digits = []
  · subst hne
    rfl
  · have hlt := nanosOf_lt h
    have hset : (momentFields d hour minute second none).setNanosecond? (nanosOf digits) =
        some (momentFields d hour minute second (some (nanosOf digits))) := by
      simp [Fields.setNanosecond?, agreeWithin?, agree?, momentFields]
      omega
    have hitem : readItem? (momentFields d hour minute second none) ('.' :: digits) .fraction =
        some (momentFields d hour minute second (some (nanosOf digits)), []) := by
      show setFraction? _ (readFraction? digits) = _
      rw [readFraction?_eq h hne, setFraction?, Option.bind_some]
      simp only [hset, Option.map_some]
    rw [fractionText_of_ne_nil hne, readByItems?, hitem, fractionField, if_neg hne]
    rfl

/-! ## What the fields determine -/

theorem date_dateFields (hreal : d.isReal = true) (hrange : d.inRange = true) :
    (dateFields d).date = .ok d := by
  have hdate := Date.of?_eq_some hreal hrange
  show (Fields.checked (Date.of? d.year d.month d.day) _ >>= _) = _
  rw [hdate]
  rfl

/-- The time of an hour, a minute, a second and nanoseconds; the second 60 is a leap second. -/
def timeOf (hour minute second nano : Nat) : TimeOfDay :=
  if second = 60 then ⟨3600 * hour + 60 * minute + 59, 1000000000 + nano⟩
  else ⟨3600 * hour + 60 * minute + second, nano⟩

theorem isReal_timeOf (hhour : hour < 24) (hminute : minute < 60) (hsecond : second ≤ 60)
    {nano : Nat}
    (hnano : nano < 1000000000) : (timeOf hour minute second nano).IsReal := by
  rw [timeOf]
  split_ifs with hleap
  · exact ⟨by simp only; omega, by simp only; omega, fun _ => by simp only; omega⟩
  · refine ⟨by simp only; omega, by simp only; omega, fun h => ?_⟩
    rw [TimeOfDay.inLeapSecond_iff] at h
    simp only at h
    omega

/-- The parts of a time give the time, with a leap second as the second 60. -/
theorem timeOf_parts {time : TimeOfDay} (h : time.IsReal) :
    timeOf time.hour time.minute (time.secondOfMinute + time.nano / nanosPerSecond)
      (time.nano % nanosPerSecond) =
      time := by
  have hnano := h.nano_lt
  have hleap := h.leap
  rw [TimeOfDay.inLeapSecond_iff] at hleap
  obtain ⟨second, nano⟩ := time
  show timeOf (second / 3600) (second / 60 % 60) (second % 60 + nano / 1000000000)
    (nano % 1000000000) = _
  rw [timeOf]
  simp only at hnano hleap
  split_ifs with hsixty
  · congr 1 <;> omega
  · congr 1 <;> omega

theorem hour_halves (h : hour < 24) :
    (if decide (12 ≤ hour) = true then 12 else 0) + hour % 12 = hour := by
  simp only [decide_eq_true_eq]
  split_ifs <;> omega

theorem dateTime?_momentFields (hreal : d.isReal = true) (hrange : d.inRange = true)
    (hhour : hour < 24) (second nano : Option Nat) (h : second = none → nano = none) :
    (momentFields d hour minute second nano).dateTime? =
      some ⟨d, timeOf hour minute (second.getD 0) (nano.getD 0)⟩ := by
  have htime : (momentFields d hour minute second nano).time =
      .ok (timeOf hour minute (second.getD 0) (nano.getD 0)) := by
    have hhalves := hour_halves hhour
    cases second with
    | none =>
      rw [h rfl]
      show Except.ok
        (⟨3600 * ((if decide (12 ≤ hour) = true then 12 else 0) + hour % 12) + 60 * minute, 0⟩ :
          TimeOfDay) = _
      rw [hhalves]
      rfl
    | some second =>
      simp only [momentFields, Fields.time, hhalves, timeOf, Option.getD_some, nanosPerSecond]
      split_ifs <;> rfl
  have hdate : (momentFields d hour minute second nano).date = .ok d := date_dateFields hreal hrange
  simp only [Fields.dateTime?, hdate, htime]
  rfl

end Times

end TagMachine.DateFormat
