set_option autoImplicit false

/-! # Dates

Dates of the proleptic Gregorian calendar, with the year 0 and negative years before the year 1.
Days are numbered from 1 January of the year 1, which is day 1 and a Monday.

Main functions: `Date.dayNumber` and `Date.ofDayNumber`, which are inverse on real dates, and
`Date.shiftMonths?`, which keeps the day of the month where the new month has it.
-/

namespace TagMachine

/-- Whether the year has a 29 February. -/
def isLeapYear (year : Int) : Bool := year % 4 == 0 && (year % 100 != 0 || year % 400 == 0)

/-- The number of days of a year. -/
def yearLength (year : Int) : Nat := if isLeapYear year then 366 else 365

/-- The numbers of days of the months of a year, from January on. -/
def monthLengths (year : Int) : List Nat :=
  [31, if isLeapYear year then 29 else 28, 31, 30, 31, 30, 31, 31, 30, 31, 30, 31]

/-- The number of days of a month, which is 0 for a month that does not exist. -/
def monthLength (year : Int) (month : Nat) : Nat :=
  if month = 0 then 0 else (monthLengths year).getD (month - 1) 0

/-- The number of days from the start of the year 1 to the start of a year. -/
def daysBeforeYear (year : Int) : Int :=
  let y := year - 1
  365 * y + y / 4 - y / 100 + y / 400

def daysBeforeMonth (year : Int) (month : Nat) : Nat :=
  ((monthLengths year).take (month - 1)).foldr (· + ·) 0

/-- A date by its year, month and day of the month, each counted from 1. -/
structure Date where
  year : Int
  month : Nat
  day : Nat
deriving DecidableEq, Inhabited

namespace Date

/-- Whether the calendar has the date. -/
def isReal (d : Date) : Bool :=
  1 ≤ d.month && d.month ≤ 12 && 1 ≤ d.day && d.day ≤ monthLength d.year d.month

/-- The first year of the dates that can be held. -/
def firstYear : Int := -262143

/-- The last year of the dates that can be held. -/
def lastYear : Int := 262142

/-- Whether the year of a date lies in the range that can be held. -/
def inRange (d : Date) : Bool := firstYear ≤ d.year && d.year ≤ lastYear

/-- The date with a year, month and day, if the calendar has it and it can be held. -/
def of? (year : Int) (month day : Nat) : Option Date :=
  let d : Date := ⟨year, month, day⟩
  if d.isReal && d.inRange then some d else none

/-- The position of a date in its year, counted from 1. -/
def ordinal (d : Date) : Nat := daysBeforeMonth d.year d.month + d.day

/-- The number of a date, which is 1 for 1 January of the year 1. -/
def dayNumber (d : Date) : Int := daysBeforeYear d.year + d.ordinal

/-- The year of a day: the quotient by the mean length of a year is at most one year off. -/
def yearOfDay (n : Int) : Int :=
  let guess := (n - 1) * 400 / 146097 + 1
  if n ≤ daysBeforeYear guess then guess - 1
  else if daysBeforeYear (guess + 1) < n then guess + 1
  else guess

/-- The month and the day of the month that a day count falls on, over the lengths of the months
from `month` on. -/
def placeInMonths : List Nat → Nat → Nat → Nat × Nat
  | [], month, n => (month, n)
  | length :: rest, month, n =>
    if n ≤ length then (month, n) else placeInMonths rest (month + 1) (n - length)

/-- The date at a position of a year, counted from 1. -/
def ofOrdinal (year : Int) (ordinal : Nat) : Date :=
  let (month, day) := placeInMonths (monthLengths year) 1 ordinal
  ⟨year, month, day⟩

/-- The date at a position of a year, if the year is that long and the date can be held. -/
def ofOrdinal? (year : Int) (ordinal : Nat) : Option Date :=
  let d := ofOrdinal year ordinal
  if 1 ≤ ordinal ∧ ordinal ≤ yearLength year ∧ d.inRange then some d else none

def ofDayNumber (n : Int) : Date :=
  let year := yearOfDay n
  ofOrdinal year (n - daysBeforeYear year).toNat

/-- The date with a number, if it can be held. -/
def ofDayNumber? (n : Int) : Option Date :=
  let d := ofDayNumber n
  if d.inRange then some d else none

/-- The date some days later, or earlier for a negative count, if it can be held. -/
def shiftDays? (d : Date) (days : Int) : Option Date := ofDayNumber? (d.dayNumber + days)

/-- The date some months later, or earlier for a negative count, if it can be held. The day of the
month stays, or becomes the last day of a month that is too short for it. -/
def shiftMonths? (d : Date) (months : Int) : Option Date :=
  let total := d.year * 12 + (d.month - 1 : Nat) + months
  let year := total / 12
  let month := (total % 12).toNat + 1
  of? year month (min d.day (monthLength year month))

/-- The most months that a date is moved by at a time. -/
def monthCap : Nat := 0x7fffffff

def addMonths? (d : Date) (count : Nat) : Option Date :=
  if count ≤ monthCap then d.shiftMonths? count else none

def subMonths? (d : Date) (count : Nat) : Option Date :=
  if count ≤ monthCap then d.shiftMonths? (-count) else none

/-! ## Weeks -/

/-- The days since the last Monday: 0 on a Monday and 6 on a Sunday. -/
def weekday (d : Date) : Nat := ((d.dayNumber - 1) % 7).toNat

/-- The days since the last day of the week `start`, where 0 is Monday and 6 is Sunday. -/
def daysSince (d : Date) (start : Nat) : Nat := (d.weekday + 7 - start) % 7

/-- The number of the week in the year, where weeks start on the weekday `start` and the days
before the first such day are in week 0. -/
def weekOfYear (d : Date) (start : Nat) : Nat := (d.ordinal + 6 - d.daysSince start) / 7

/-- The number of the Monday that starts the first week of a year, which is the week of
4 January. -/
def firstMonday (year : Int) : Int :=
  let d : Date := ⟨year, 1, 4⟩
  d.dayNumber - d.weekday

/-- The year that the week of a date belongs to: the year of the Thursday of that week. -/
def weekYear (d : Date) : Int := yearOfDay (d.dayNumber - d.weekday + 3)

/-- The number of the week of a date in its week year, counted from 1. -/
def week (d : Date) : Nat := ((d.dayNumber - firstMonday d.weekYear) / 7).toNat + 1

/-- The date with a week year, a week and a weekday, if the week exists and the date can be
held. -/
def ofWeek? (year : Int) (week weekday : Nat) : Option Date :=
  let n := firstMonday year + 7 * ((week : Int) - 1)
  if 1 ≤ week ∧ n < firstMonday (year + 1) then ofDayNumber? (n + weekday) else none

/-- The quarter of the year, counted from 1. -/
def quarter (d : Date) : Nat := (d.month - 1) / 3 + 1

end Date

end TagMachine
