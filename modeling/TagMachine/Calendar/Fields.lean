import TagMachine.Calendar.DateTime
import TagMachine.Calendar.Format

set_option autoImplicit false

/-! # Fields of a date that is being read

Reading a date by a format gives fields, in any order and perhaps too few or too many of them. A
field that is given twice must have the same value both times. `Fields.date` and
`Fields.dateTime?` find the date that the fields determine, and check all further fields against
it.
-/

namespace TagMachine.DateFormat

/-- Why fields determine no date. -/
inductive Shortfall where
  /-- More fields could make a date of them. -/
  | incomplete
  /-- No date has these fields. -/
  | impossible
deriving DecidableEq, Inhabited

/-- The fields read so far. -/
structure Fields where
  year : Option Int := none
  century : Option Nat := none
  yearOfCentury : Option Nat := none
  weekYear : Option Int := none
  weekYearOfCentury : Option Nat := none
  quarter : Option Nat := none
  month : Option Nat := none
  day : Option Nat := none
  weekFromSunday : Option Nat := none
  weekFromMonday : Option Nat := none
  week : Option Nat := none
  /-- Days since Monday. -/
  weekday : Option Nat := none
  ordinal : Option Nat := none
  /-- Whether the time lies in the second half of the day. -/
  afternoon : Option Bool := none
  /-- The hours since the start of that half. -/
  hourOfHalf : Option Nat := none
  minute : Option Nat := none
  second : Option Nat := none
  nanosecond : Option Nat := none
  timestamp : Option Int := none
  /-- The offset from universal time in seconds. -/
  offset : Option Int := none
deriving DecidableEq, Inhabited

/-- A field after a value was read for it: a second value must be the first again. -/
def agree? {α : Type} [DecidableEq α] (old : Option α) (new : α) : Option (Option α) :=
  match old with
  | none => some (some new)
  | some v => if v = new then some (some v) else none

/-- A field after a value was read that must lie between two bounds. -/
def agreeWithin? (low high : Nat) (old : Option Nat) (new : Nat) : Option (Option Nat) :=
  if low ≤ new ∧ new ≤ high then agree? old new else none

namespace Fields

/-- Whether a year fits 32 bits. -/
def isHeldYear (year : Int) : Bool := -Int.pow 2 31 ≤ year && year < Int.pow 2 31

def setYear? (f : Fields) (v : Int) : Option Fields :=
  if isHeldYear v then (agree? f.year v).map fun x => { f with year := x } else none

def setWeekYear? (f : Fields) (v : Int) : Option Fields :=
  if isHeldYear v then (agree? f.weekYear v).map fun x => { f with weekYear := x } else none

def setMonth? (f : Fields) (v : Nat) : Option Fields :=
  (agreeWithin? 1 12 f.month v).map fun x => { f with month := x }

def setWeekday? (f : Fields) (v : Nat) : Option Fields :=
  (agreeWithin? 0 6 f.weekday v).map fun x => { f with weekday := x }

def setOrdinal? (f : Fields) (v : Nat) : Option Fields :=
  (agreeWithin? 1 366 f.ordinal v).map fun x => { f with ordinal := x }

def setAfternoon? (f : Fields) (v : Bool) : Option Fields :=
  (agree? f.afternoon v).map fun x => { f with afternoon := x }

def setHour? (f : Fields) (v : Nat) : Option Fields :=
  if v < 24 then do
    let half ← agree? f.afternoon (decide (12 ≤ v))
    let hour ← agree? f.hourOfHalf (v % 12)
    return { f with afternoon := half, hourOfHalf := hour }
  else none

def setHour12? (f : Fields) (v : Nat) : Option Fields :=
  if 1 ≤ v ∧ v ≤ 12 then (agree? f.hourOfHalf (v % 12)).map fun x => { f with hourOfHalf := x }
  else none

def setMinute? (f : Fields) (v : Nat) : Option Fields :=
  (agreeWithin? 0 59 f.minute v).map fun x => { f with minute := x }

def setSecond? (f : Fields) (v : Nat) : Option Fields :=
  (agreeWithin? 0 60 f.second v).map fun x => { f with second := x }

def setNanosecond? (f : Fields) (v : Nat) : Option Fields :=
  (agreeWithin? 0 999999999 f.nanosecond v).map fun x => { f with nanosecond := x }

def setOffset? (f : Fields) (v : Int) : Option Fields :=
  (agree? f.offset v).map fun x => { f with offset := x }

/-- The fields after a value was read for a quantity. -/
def set? (f : Fields) (v : Int) : Quantity → Option Fields
  | .year => f.setYear? v
  | .century => (agree? f.century v.toNat).map fun x => { f with century := x }
  | .yearOfCentury =>
    (agreeWithin? 0 99 f.yearOfCentury v.toNat).map fun x => { f with yearOfCentury := x }
  | .weekYear => f.setWeekYear? v
  | .weekYearOfCentury =>
    (agreeWithin? 0 99 f.weekYearOfCentury v.toNat).map fun x => { f with weekYearOfCentury := x }
  | .quarter => (agreeWithin? 1 4 f.quarter v.toNat).map fun x => { f with quarter := x }
  | .month => f.setMonth? v.toNat
  | .day => (agreeWithin? 1 31 f.day v.toNat).map fun x => { f with day := x }
  | .weekFromSunday =>
    (agreeWithin? 0 53 f.weekFromSunday v.toNat).map fun x => { f with weekFromSunday := x }
  | .weekFromMonday =>
    (agreeWithin? 0 53 f.weekFromMonday v.toNat).map fun x => { f with weekFromMonday := x }
  | .week => (agreeWithin? 1 53 f.week v.toNat).map fun x => { f with week := x }
  | .daysFromSunday => if v ≤ 6 then f.setWeekday? ((v.toNat + 6) % 7) else none
  | .dayOfWeek => if 1 ≤ v then f.setWeekday? (v.toNat - 1) else none
  | .ordinal => f.setOrdinal? v.toNat
  | .hour => f.setHour? v.toNat
  | .hour12 => f.setHour12? v.toNat
  | .minute => f.setMinute? v.toNat
  | .second => f.setSecond? v.toNat
  | .nanosecond => f.setNanosecond? v.toNat
  | .timestamp => (agree? f.timestamp v).map fun x => { f with timestamp := x }

/-! ## The date -/

/-- The year given by a whole year, a century and a year of the century, as far as they are
there. A year of the century alone lies from 1970 to 2069. -/
def resolveYear : Option Int → Option Nat → Option Nat → Except Shortfall (Option Int)
  | year, none, none => .ok year
  | some year, century, rest =>
    if 0 ≤ year ∧ (century.getD (year / 100).toNat : Int) = year / 100
        ∧ (rest.getD (year % 100).toNat : Int) = year % 100 then .ok (some year)
    else .error .impossible
  | none, some century, some rest => .ok (some (100 * century + rest : Nat))
  | none, none, some rest => .ok (some ((if rest < 70 then 2000 + rest else 1900 + rest : Nat)))
  | none, some _, none => .error .incomplete

/-- Whether a field is absent or has the given value. -/
def allows {α : Type} [DecidableEq α] (field : Option α) (v : α) : Bool :=
  match field with
  | none => true
  | some x => x = v

/-- Whether a century or a year of the century is absent or is that of a year from 0 on. -/
def allowsPart (field : Option Nat) (year part : Int) : Bool :=
  match field with
  | none => true
  | some x => 0 ≤ year && x == part

def allowsMonthDay (f : Fields) (d : Date) : Bool :=
  allows f.year d.year && allowsPart f.century d.year (d.year / 100)
    && allowsPart f.yearOfCentury d.year (d.year % 100)
    && allows f.month d.month && allows f.day d.day

/-- Whether the week year, week and weekday fields are those of a date. -/
def allowsWeek (f : Fields) (d : Date) : Bool :=
  allows f.weekYear d.weekYear && allowsPart f.weekYearOfCentury d.weekYear (d.weekYear % 100)
    && allows f.week d.week && allows f.weekday d.weekday

/-- Whether the position in the year and the weeks of the year are those of a date. -/
def allowsOrdinal (f : Fields) (d : Date) : Bool :=
  allows f.ordinal d.ordinal && allows f.weekFromSunday (d.weekOfYear 6)
    && allows f.weekFromMonday (d.weekOfYear 0)

/-- The date with a weekday in a week of a year, where weeks start on the weekday `start`. -/
def dateInWeek? (year : Int) (week weekday start : Nat) : Option Date :=
  (Date.ofOrdinal? year 1).bind fun first =>
    let firstWeek := 1 + (start + 7 - first.weekday) % 7
    let ordinal : Int := firstWeek + ((week : Int) - 1) * 7 + ((weekday + 7 - start) % 7 : Nat)
    if 0 < ordinal then Date.ofOrdinal? year ordinal.toNat else none

/-- A date if there is one and it passes a check. -/
def checked (d : Option Date) (check : Date → Bool) : Except Shortfall Date :=
  match d with
  | some d => if check d then .ok d else .error .impossible
  | none => .error .impossible

/-- The date that the fields determine by their first sufficient part: year, month and day; year
and position in it; year, week of the year and weekday; week year, week and weekday. -/
def determine (f : Fields) (year weekYear : Option Int) : Except Shortfall Date :=
  match year, f.month, f.day, f.ordinal, f.weekFromSunday, f.weekFromMonday, f.weekday, weekYear,
    f.week with
  | some y, some m, some d, _, _, _, _, _, _ =>
    checked (Date.of? y m d) fun d => f.allowsWeek d && f.allowsOrdinal d
  | some y, _, _, some n, _, _, _, _, _ =>
    checked (Date.ofOrdinal? y n) fun d =>
      f.allowsMonthDay d && f.allowsWeek d && f.allowsOrdinal d
  | some y, _, _, _, some w, _, some day, _, _ =>
    checked (dateInWeek? y w day 6) fun d =>
      f.allowsMonthDay d && f.allowsWeek d && f.allowsOrdinal d
  | some y, _, _, _, _, some w, some day, _, _ =>
    checked (dateInWeek? y w day 0) fun d =>
      f.allowsMonthDay d && f.allowsWeek d && f.allowsOrdinal d
  | _, _, _, _, _, _, some day, some y, some w =>
    checked (Date.ofWeek? y w day) fun d => f.allowsMonthDay d && f.allowsOrdinal d
  | _, _, _, _, _, _, _, _, _ => .error .incomplete

def date (f : Fields) : Except Shortfall Date := do
  let year ← resolveYear f.year f.century f.yearOfCentury
  let weekYear ← resolveYear f.weekYear none f.weekYearOfCentury
  let d ← f.determine year weekYear
  if allows f.quarter d.quarter then return d else throw .impossible

/-! ## The time of day -/

/-- The time of day that the fields determine. The second may be missing, and a second 60 is a
leap second. -/
def time (f : Fields) : Except Shortfall TimeOfDay :=
  match f.afternoon, f.hourOfHalf, f.minute with
  | some afternoon, some hour, some minute =>
    let start := 3600 * ((if afternoon then 12 else 0) + hour) + 60 * minute
    match f.second, f.nanosecond with
    | none, none => .ok ⟨start, 0⟩
    | none, some _ => .error .incomplete
    | some second, nano =>
      if second = 60 then .ok ⟨start + 59, nanosPerSecond + nano.getD 0⟩
      else .ok ⟨start + second, nano.getD 0⟩
  | _, _, _ => .error .incomplete

/-- Whether the timestamp field is absent or is that of a date-time, which in a leap second may
also be the next one. -/
def allowsTimestamp (f : Fields) (t : DateTime) : Bool :=
  match f.timestamp with
  | none => true
  | some s => s == t.timestamp || (t.time.inLeapSecond && s == t.timestamp + 1)

/-- The date-time that a timestamp determines, with the other fields checked against it. A second
60 stands at the end of the minute before the timestamp's. -/
def ofTimestamp? (f : Fields) (seconds : Int) : Option DateTime := do
  let t ← DateTime.ofTimestamp? seconds
  let (f, t) ←
    if f.second = some 60 then
      if t.time.secondOfMinute = 59 then some (f, t)
      else if t.time.secondOfMinute = 0 then (t.shift? (-1)).map fun t => (f, t)
      else none
    else (f.setSecond? t.time.secondOfMinute).map fun f => (f, t)
  let f ← f.setYear? t.date.year
  let f ← f.setOrdinal? t.date.ordinal
  let f ← f.setHour? t.time.hour
  let f ← f.setMinute? t.time.minute
  let date ← f.date.toOption
  let time ← f.time.toOption
  return ⟨date, time⟩

/-- The date-time that the fields determine. A timestamp completes fields that are too few. -/
def dateTime? (f : Fields) : Option DateTime :=
  match f.date, f.time with
  | .ok date, .ok time =>
    let t : DateTime := ⟨date, time⟩
    if f.allowsTimestamp t then some t else none
  | .error .impossible, _ => none
  | _, .error .impossible => none
  | _, _ => f.timestamp.bind f.ofTimestamp?

end Fields

end TagMachine.DateFormat
