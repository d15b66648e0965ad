import TagMachine.Proofs.Builtin.Calls
import TagMachine.Proofs.Calendar.Items

set_option autoImplicit false

/-! # Dates by their parts

`format-date` writes the date-time that the parts in a record stand for, and `parse-date` gives the
parts of the date-time that a text stands for. By a format that shows all the parts, the second
undoes the first, and the first fails just if the calendar does not have the parts.
-/

namespace TagMachine

/-! ## The format of all parts -/

namespace DateFormat

variable {t : DateTime}

/-- A date and a time to the second. -/
def momentFormat : String := "%Y-%m-%d %H:%M:%S"

/-- What `momentFormat` writes for a date-time without a fraction. -/
def momentText (t : DateTime) : List Char :=
  dateText t.date ++
    ' ' :: (minuteText t.time.hour t.time.minute ++ ':' :: padded 2 t.time.secondOfMinute)

theorem read?_momentFormat : read? momentFormat =
    some (isoDate ++ .blank [' '] :: (hourMinute ++ mark ':' :: zeroed .second :: [])) := by
  decide +kernel

theorem write?_momentFormat (hdate : t.date.isReal = true) (htime : t.time.IsReal)
    (hnano : t.time.nano = 0) : write? momentFormat t = some (String.ofList (momentText t)) := by
  have hblank : writeItem? t (.blank [' ']) = some [' '] := rfl
  have hnil : writeItems? t [] = some [] := rfl
  rw [write?, read?_momentFormat, Option.bind_some, writeItems?_isoDate hdate,
    writeItems?_cons hblank, writeItems?_hourMinute htime.second_lt, writeItems?_second htime,
    hnil, hnano]
  simp [momentText]

theorem readByItems?_blank (items : List Item) (f : Fields) (hour minute : Nat) (rest : List Char) :
    readByItems? (.blank [' '] :: items) f (' ' :: (minuteText hour minute ++ rest)) =
      readByItems? items f (minuteText hour minute ++ rest) := by
  have hskip : skipBlank (' ' :: (minuteText hour minute ++ rest)) =
      minuteText hour minute ++ rest := by
    rw [minuteText, List.append_assoc]
    exact skipBlank_padded 2 hour _
  have hitem : readItem? f (' ' :: (minuteText hour minute ++ rest)) (.blank [' ']) =
      some (f, minuteText hour minute ++ rest) := congrArg (fun cs => some (f, cs)) hskip
  rw [readByItems?, hitem, Option.bind_some]

theorem readMoment?_momentText (hdate : t.date.isReal = true) (hrange : t.date.inRange = true)
    (htime : t.time.IsReal)
    (hnano : t.time.nano = 0) : readMoment? momentFormat (String.ofList (momentText t)) =
      some t := by
  have hsecond : t.time.secondOfMinute ≤ 60 := (Nat.mod_lt _ (by decide)).le
  have hparts := timeOf_parts htime
  rw [hnano] at hparts
  have hread : readDateTime? momentFormat (String.ofList (momentText t)) = some t := by
    rw [readDateTime?, readFields?, read?_momentFormat, Option.bind_some,
      String.toList_ofList, momentText, readByItems?_isoDate hdate hrange, readByItems?_blank,
      readByItems?_hourMinute htime.hour_lt t.time.minute_lt,
      ← (':' :: padded 2 t.time.secondOfMinute).append_nil, readByItems?_second hsecond]
    show (momentFields _ _ _ _ _).dateTime? = _
    rw [dateTime?_momentFields hdate hrange htime.hour_lt _ _ (by simp)]
    exact congrArg (fun time => some (DateTime.mk t.date time)) hparts
  rw [readMoment?, hread]

end DateFormat

namespace Builtin

open DateFormat (momentFormat momentText)

/-! ## Parts of a date-time -/

/-- The parts of a date-time, which the calendar may not have. -/
structure DateParts where
  year : Int64
  month : Int64
  day : Int64
  hour : Int64
  minute : Int64
  second : Int64

namespace DateParts

def record (p : DateParts) : Record :=
  ⟨[("year", .integer p.year), ("month", .integer p.month), ("day", .integer p.day),
    ("hour", .integer p.hour), ("minute", .integer p.minute), ("second", .integer p.second)]⟩

/-- The date-time that the parts stand for, if the calendar has them. -/
def moment (p : DateParts) : DateTime where
  date := ⟨p.year.toInt, p.month.toInt.toNat, p.day.toInt.toNat⟩
  time := ⟨3600 * p.hour.toInt.toNat + 60 * p.minute.toInt.toNat + p.second.toInt.toNat, 0⟩

/-- Whether the calendar has the parts, in a year that can be held. -/
structure IsReal (p : DateParts) : Prop where
  year : -262143 ≤ p.year.toInt ∧ p.year.toInt ≤ 262142
  month : 1 ≤ p.month.toInt ∧ p.month.toInt ≤ 12
  day : 1 ≤ p.day.toInt ∧ p.day.toInt ≤ monthLength p.year.toInt p.month.toInt.toNat
  hour : 0 ≤ p.hour.toInt ∧ p.hour.toInt ≤ 23
  minute : 0 ≤ p.minute.toInt ∧ p.minute.toInt ≤ 59
  second : 0 ≤ p.second.toInt ∧ p.second.toInt ≤ 59

end DateParts

variable {p : DateParts} {t : DateTime}

/-! ### The date-time of a record -/

theorem unsignedPart?_eq_some_iff {r : Record} {name : String} {n : Nat} :
    unsignedPart? r name = some n ↔ datePart r name = n ∧ n < 2 ^ 32 := by
  simp only [unsignedPart?, Option.ite_none_right_eq_some, Option.some.injEq]
  omega

theorem yearPart?_eq_some_iff {r : Record} {n : Int} :
    yearPart? r = some n ↔ datePart r "year" = n ∧ -2 ^ 31 ≤ n ∧ n < 2 ^ 31 := by
  simp only [yearPart?, Option.ite_none_right_eq_some, Option.some.injEq]
  omega

theorem ofDateParts?_eq_some_iff : ofDateParts? p.record = some t ↔
    (-2 ^ 31 ≤ p.year.toInt ∧ p.year.toInt < 2 ^ 31) ∧
    ∃ month day hour minute second : Nat, (p.month.toInt = month ∧ month < 2 ^ 32) ∧
      (p.day.toInt = day ∧ day < 2 ^ 32) ∧ (p.hour.toInt = hour ∧ hour < 2 ^ 32) ∧
      (p.minute.toInt = minute ∧ minute < 2 ^ 32) ∧ (p.second.toInt = second ∧ second < 2 ^ 32) ∧
      Date.of? p.year.toInt month day = some t.date ∧
      TimeOfDay.of? hour minute second = some t.time := by
  simp only [ofDateParts?, Option.bind_eq_bind, Option.bind_eq_some_iff, unsignedPart?_eq_some_iff,
    yearPart?_eq_some_iff, Option.pure_def, Option.some.injEq]
  constructor
  · rintro ⟨_, ⟨rfl, hyear⟩, month, hmonth, day, hday, date, hdate, hour, hhour, minute, hminute,
      second, hsecond, time, htime, rfl⟩
    exact ⟨hyear, month, day, hour, minute, second, hmonth, hday, hhour, hminute, hsecond,
      hdate, htime⟩
  · rintro ⟨hyear, month, day, hour, minute, second, hmonth, hday, hhour, hminute, hsecond,
      hdate, htime⟩
    exact ⟨_, ⟨rfl, hyear⟩, month, hmonth, day, hday, _, hdate, hour, hhour, minute, hminute,
      second, hsecond, _, htime, rfl⟩

theorem isHeld_moment (h : p.IsReal) : p.moment.IsHeld := by
  obtain ⟨hyear, hmonth, hday, hhour, hminute, hsecond⟩ := h
  have hdate : p.moment.date.isReal = true := by
    rw [Date.isReal_iff, DateParts.moment]
    simp only
    omega
  have htime : p.moment.time.second < 86400 := by
    rw [DateParts.moment]
    simp only
    omega
  exact ⟨hdate, (Date.inRange_iff _).2 hyear, htime, Nat.zero_lt_succ _,
    fun hleap => by cases hleap⟩

theorem ofDateParts?_record (h : p.IsReal) : ofDateParts? p.record = some p.moment := by
  have hheld := isHeld_moment h
  obtain ⟨hyear, hmonth, hday, hhour, hminute, hsecond⟩ := h
  have hlength : monthLength p.year.toInt p.month.toInt.toNat ≤ 31 :=
    (monthLength_bounds p.year.toInt (by omega) (by omega)).2
  have htime : TimeOfDay.of? p.hour.toInt.toNat p.minute.toInt.toNat p.second.toInt.toNat =
      some p.moment.time := by
    rw [TimeOfDay.of?, if_pos (by omega)]
    rfl
  rw [ofDateParts?_eq_some_iff]
  refine ⟨by omega, _, _, _, _, _, ?_, ?_, ?_, ?_, ?_,
    Date.of?_eq_some hheld.real hheld.inRange, htime⟩ <;> omega

theorem isReal_of_ofDateParts? (h : ofDateParts? p.record = some t) : p.IsReal := by
  obtain ⟨-, month, day, hour, minute, second, ⟨hmonth, -⟩, ⟨hday, -⟩, ⟨hhour, -⟩, ⟨hminute, -⟩,
    ⟨hsecond, -⟩, hdate, htime⟩ := ofDateParts?_eq_some_iff.1 h
  rw [Date.of?] at hdate
  rw [TimeOfDay.of?] at htime
  split_ifs at hdate htime with hheld hreal
  simp only [Bool.and_eq_true, Date.isReal_iff, Date.inRange_iff] at hheld
  obtain ⟨⟨hfirst, hlast, hone, hlength⟩, hyear⟩ := hheld
  have htoNat : p.month.toInt.toNat = month := by omega
  refine ⟨hyear, by omega, ?_, by omega, by omega, by omega⟩
  rw [hday, htoNat]
  omega

/-- The record of the parts of the date-time that parts stand for is theirs again. -/
theorem dateParts_moment (h : p.IsReal) :
    (dateParts p.moment).map (fun q => (q.1, Value.integer (Int64.ofInt q.2))) =
      p.record.fields := by
  obtain ⟨-, hmonth, hday, hhour, hminute, hsecond⟩ := h
  have hpart {n : Int64} {k : Int} (hk : k = n.toInt) : Value.integer (Int64.ofInt k) =
      .integer n := by
    rw [hk, Int64.ofInt_toInt]
  simp only [dateParts, DateParts.moment, TimeOfDay.hour, TimeOfDay.minute,
    TimeOfDay.secondOfMinute, List.map_cons, List.map_nil, DateParts.record]
  rw [hpart rfl, hpart (n := p.month) (by omega), hpart (n := p.day) (by omega),
    hpart (n := p.hour) (by omega), hpart (n := p.minute) (by omega),
    hpart (n := p.second) (by omega)]

/-! ## Calls -/

/-- Writing the date of a record by a format returns a text. -/
def Formats (r : Record) (format s : String) : Prop :=
  ∀ c : Call, c.given.fields "date" = r → c.given.text "format" = format → c.ReturnsText 0x51 s

/-- Writing the date of a record by a format ends with an error. -/
def FormatFails (r : Record) (format : String) (e : Error) : Prop :=
  ∀ c : Call, c.given.fields "date" = r → c.given.text "format" = format → c.run 0x51 = .error e

/-- Reading a text by a format returns a record. -/
def Parses (s format : String) (r : Record) : Prop :=
  ∀ c : Call, c.given.text "value" = s → c.given.text "format" = format → c.ReturnsRecord 0x50 r

def Call.formatting (r : Record) (format : String) : Call where
  context := ⟨"", 0⟩
  args := ⟨1⟩
  store := { lists := #[], records := #[r, ⟨[("date", .record ⟨0⟩), ("format", .string format)]⟩] }

theorem Formats.unique {r : Record} {format s s' : String} (hs : Formats r format s)
    (hs' : Formats r format s') : s = s' := by
  have hrun := hs (.formatting r format) rfl rfl
  rw [Call.ReturnsText, hs' (.formatting r format) rfl rfl] at hrun
  cases hrun
  rfl

theorem Formats.not_formatFails {r : Record} {format s : String} {e : Error}
    (hs : Formats r format s) : ¬FormatFails r format e := by
  intro hfails
  have hrun := hs (.formatting r format) rfl rfl
  rw [Call.ReturnsText, hfails (.formatting r format) rfl rfl] at hrun
  cases hrun

theorem formats_record (h : p.IsReal) :
    Formats p.record momentFormat (String.ofList (momentText p.moment)) := by
  intro c hdate hformat
  have hheld := isHeld_moment h
  refine Call.returnsText_of_give rfl ?_
  show formatDate c.given = _
  simp only [formatDate, hdate, hformat, ofDateParts?_record h,
    DateFormat.write?_momentFormat hheld.real hheld.time rfl]

theorem formatFails_record (h : ¬p.IsReal) (format : String) :
    FormatFails p.record format (.domain .invalidDateComponents) := by
  intro c hdate hformat
  have hnone : ofDateParts? p.record = none := by
    rw [Option.eq_none_iff_forall_not_mem]
    exact fun t ht => h (isReal_of_ofDateParts? ht)
  refine Call.run_eq_error rfl ?_
  show formatDate c.given = _
  simp only [formatDate, hdate, hnone]

theorem parses_momentText (h : p.IsReal) :
    Parses (String.ofList (momentText p.moment)) momentFormat p.record := by
  intro c hvalue hformat
  have hheld := isHeld_moment h
  have hkeys : p.record.keys.Nodup := by
    show ["year", "month", "day", "hour", "minute", "second"].Nodup
    decide
  refine Call.returnsRecord_of_give rfl hkeys ?_
  show parseDate c.given = _
  simp only [parseDate, hvalue, hformat,
    DateFormat.readMoment?_momentText hheld.real hheld.inRange hheld.time rfl, dateParts_moment h]

/-- The parts of a date-time can be written just if the calendar has them, in a year that can be
held. Each is written at its full width, and what is written is read as the same parts in the same
order. All other parts are refused. -/
theorem date_parts_inverse (p : DateParts) :
    ((∃ s, Formats p.record momentFormat s) ↔ p.IsReal) ∧
    (¬p.IsReal → FormatFails p.record momentFormat (.domain .invalidDateComponents)) ∧
    ∀ s, Formats p.record momentFormat s →
      s = String.ofList (momentText p.moment) ∧ Parses s momentFormat p.record := by
  have hreal {s : String} (hs : Formats p.record momentFormat s) : p.IsReal := by
    by_contra h
    exact hs.not_formatFails (formatFails_record h _)
  refine ⟨⟨fun ⟨s, hs⟩ => hreal hs, fun h => ⟨_, formats_record h⟩⟩,
    fun h => formatFails_record h _, fun s hs => ?_⟩
  obtain rfl := hs.unique (formats_record (hreal hs))
  exact ⟨rfl, parses_momentText (hreal hs)⟩

/-- The leap day of the year 4, and that of a year without one. -/
theorem date_parts_inverse_leap_day :
    (Call.formatting (DateParts.record ⟨4, 2, 29, 23, 59, 0⟩) momentFormat).ReturnsText 0x51
      "0004-02-29 23:59:00" ∧
    Parses "0004-02-29 23:59:00" momentFormat (DateParts.record ⟨4, 2, 29, 23, 59, 0⟩) ∧
    (Call.formatting (DateParts.record ⟨1900, 2, 29, 0, 0, 0⟩) momentFormat).run 0x51 =
      .error (.domain .invalidDateComponents) := by
  obtain ⟨hiff, -, hundo⟩ := date_parts_inverse ⟨4, 2, 29, 23, 59, 0⟩
  obtain ⟨-, hfails, -⟩ := date_parts_inverse ⟨1900, 2, 29, 0, 0, 0⟩
  obtain ⟨s, hs⟩ := hiff.2 ⟨by decide, by decide, by decide, by decide, by decide, by decide⟩
  obtain ⟨hs', hparses⟩ := hundo s hs
  have htext : String.ofList (momentText (DateParts.moment ⟨4, 2, 29, 23, 59, 0⟩)) =
      "0004-02-29 23:59:00" := by
    decide +kernel
  obtain rfl := hs'.trans htext
  refine ⟨hs _ rfl rfl, hparses, hfails (fun h => ?_) _ rfl rfl⟩
  exact absurd h.day (by decide)

end Builtin

end TagMachine
