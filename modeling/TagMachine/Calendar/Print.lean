import TagMachine.Calendar.DateTime
import TagMachine.Calendar.Format
import TagMachine.Text.Hex

set_option autoImplicit false

/-! # Writing dates

`DateFormat.write?` writes a date-time by the items of a format. Years outside 0 to 9999 have a
sign, and all other numbers are padded as their item says.
-/

namespace TagMachine.DateFormat

def monthNames : List String :=
  ["January", "February", "March", "April", "May", "June", "July", "August", "September",
    "October", "November", "December"]

/-- The names of the days of the week from Monday on. -/
def weekdayNames : List String :=
  ["Monday", "Tuesday", "Wednesday", "Thursday", "Friday", "Saturday", "Sunday"]

/-- The first three letters of a name. -/
def shortName (name : String) : List Char := name.toList.take 3

/-- Digits after a sign, filled up to a width. Zeros stand after the sign and spaces before it. -/
def filled (pad : Pad) (width : Nat) (sign digits : List Char) : List Char :=
  let missing := width - (sign.length + digits.length)
  match pad with
  | .bare => sign ++ digits
  | .zeros => sign ++ List.replicate missing '0' ++ digits
  | .spaces => List.replicate missing ' ' ++ sign ++ digits

/-- A number filled up to a width, with a sign if it is negative. -/
def writeNumber (pad : Pad) (width : Nat) (n : Int) : List Char :=
  filled pad width (if n < 0 then ['-'] else []) (Nat.toDigits 10 n.natAbs)

/-- A number of at most two digits. A tens place beyond nine is the character that far after the
digit zero. -/
def writePair (pad : Pad) (n : Nat) : List Char :=
  let tens := n / 10
  let ones := Char.ofNat ('0'.toNat + n % 10)
  match tens, pad with
  | 0, .bare => [ones]
  | 0, .spaces => [' ', ones]
  | _, _ => [Char.ofNat ('0'.toNat + tens), ones]

/-- A year: four digits, or a sign and at least four digits outside 0 to 9999. -/
def writeYear (pad : Pad) (year : Int) : List Char :=
  if 0 ≤ year ∧ year < 10000 then writeNumber pad 4 year
  else filled pad 5 [if year < 0 then '-' else '+'] (Nat.toDigits 10 year.natAbs)

/-- The century of a year, which is kept in eight bits. -/
def centuryByte (year : Int) : Nat := (year / 100 % 256).toNat

/-- The last two digits of a year. -/
def yearOfCentury (year : Int) : Nat := (year % 100).toNat

def writeQuantity (t : DateTime) (pad : Pad) : Quantity → List Char
  | .year => writeYear pad t.date.year
  | .century => writePair pad (centuryByte t.date.year)
  | .yearOfCentury => writePair pad (yearOfCentury t.date.year)
  | .weekYear => writeYear pad t.date.weekYear
  | .weekYearOfCentury => writePair pad (yearOfCentury t.date.weekYear)
  | .quarter => Nat.toDigits 10 t.date.quarter
  | .month => writePair pad t.date.month
  | .day => writePair pad t.date.day
  | .weekFromSunday => writePair pad (t.date.weekOfYear 6)
  | .weekFromMonday => writePair pad (t.date.weekOfYear 0)
  | .week => writePair pad t.date.week
  | .daysFromSunday => Nat.toDigits 10 (t.date.daysSince 6)
  | .dayOfWeek => Nat.toDigits 10 (t.date.weekday + 1)
  | .ordinal => writeNumber pad 3 t.date.ordinal
  | .hour => writePair pad t.time.hour
  | .hour12 => writePair pad t.time.hour12
  | .minute => writePair pad t.time.minute
  | .second => writePair pad (t.time.secondOfMinute + t.time.nano / nanosPerSecond)
  | .nanosecond => writeNumber pad 9 (t.time.nano % nanosPerSecond : Nat)
  | .timestamp => writeNumber pad 9 t.timestamp

def writeName (t : DateTime) : Name → List Char
  | .shortMonth => shortName (monthNames.getD (t.date.month - 1) "")
  | .longMonth => (monthNames.getD (t.date.month - 1) "").toList
  | .shortWeekday => shortName (weekdayNames.getD t.date.weekday "")
  | .longWeekday => (weekdayNames.getD t.date.weekday "").toList
  | .lowerHalf => if t.time.isAfternoon then ['p', 'm'] else ['a', 'm']
  | .upperHalf => if t.time.isAfternoon then ['P', 'M'] else ['A', 'M']

/-- The first digits of a fraction given in nanoseconds. -/
def writeFraction (digits nano : Nat) : List Char :=
  Text.zeroPadded digits (Nat.toDigits 10 (nano / Nat.pow 10 (9 - digits)))

/-- A point and a fraction in three, six or nine digits, or nothing for no fraction. -/
def writeShortFraction (nano : Nat) : List Char :=
  if nano = 0 then []
  else if nano % 1000000 = 0 then '.' :: writeFraction 3 nano
  else if nano % 1000 = 0 then '.' :: writeFraction 6 nano
  else '.' :: writeFraction 9 nano

/-- An item of a date-time, unless it asks for an offset. -/
def writeItem? (t : DateTime) : Item → Option (List Char)
  | .literal text => some text
  | .blank text => some text
  | .number q pad => some (writeQuantity t pad q)
  | .name n => some (writeName t n)
  | .fraction => some (writeShortFraction (t.time.nano % nanosPerSecond))
  | .pointedFraction n => some ('.' :: writeFraction n (t.time.nano % nanosPerSecond))
  | .bareFraction n => some (writeFraction n (t.time.nano % nanosPerSecond))
  | .zone _ => none

def writeItems? (t : DateTime) (items : List Item) : Option (List Char) :=
  (items.mapM (writeItem? t)).map List.flatten

/-- A date-time written by a format, unless the format is not one or asks for an offset. -/
def write? (format : String) (t : DateTime) : Option String :=
  (read? format).bind fun items => (writeItems? t items).map String.ofList

end TagMachine.DateFormat
