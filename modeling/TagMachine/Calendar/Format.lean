import TagMachine.Text.Blank

set_option autoImplicit false

/-! # Date formats

A date format is a text in which `%` starts a conversion: `%Y-%m-%d` is a year, a month and a day
with dashes between. `DateFormat.read?` takes such a text apart into items.
-/

namespace TagMachine.DateFormat

/-- What stands before a number that is shorter than its field. -/
inductive Pad where
  | bare
  | zeros
  | spaces
deriving DecidableEq, Inhabited

/-- The numbers that a format can name. -/
inductive Quantity where
  | year
  | century
  | yearOfCentury
  | weekYear
  | weekYearOfCentury
  | quarter
  | month
  | day
  | weekFromSunday
  | weekFromMonday
  | week
  | daysFromSunday
  | dayOfWeek
  | ordinal
  | hour
  | hour12
  | minute
  | second
  | nanosecond
  | timestamp
deriving DecidableEq, Inhabited

/-- The names that a format can ask for. -/
inductive Name where
  | shortMonth
  | longMonth
  | shortWeekday
  | longWeekday
  | lowerHalf
  | upperHalf
deriving DecidableEq, Inhabited

/-- How a format gives the offset from universal time. Such items can be read and are then passed
over; a date-time without an offset cannot be written by them. -/
inductive Zone where
  | name
  | offset
  /-- An offset whose minutes may be missing, or the letter `Z`. -/
  | lenientOffset
  /-- A whole date-time with its offset. -/
  | instant
deriving DecidableEq, Inhabited

/-- One item of a format. -/
inductive Item where
  | literal (text : List Char)
  | blank (text : List Char)
  | number (quantity : Quantity) (pad : Pad)
  | name (name : Name)
  /-- A point and the fraction of the second, in as many groups of three digits as it needs. -/
  | fraction
  /-- A point and the fraction of the second in a fixed number of digits. -/
  | pointedFraction (digits : Nat)
  /-- The fraction of the second in a fixed number of digits. -/
  | bareFraction (digits : Nat)
  | zone (zone : Zone)
deriving DecidableEq, Inhabited

open Quantity

def zeroed (q : Quantity) : Item := .number q .zeros

def mark (c : Char) : Item := .literal [c]

/-- A year, a month and a day with dashes between. -/
def isoDate : List Item := [zeroed year, mark '-', zeroed month, mark '-', zeroed day]

/-- A month, a day and a year of the century with slashes between. -/
def slashedDate : List Item :=
  [zeroed month, mark '/', zeroed day, mark '/', zeroed yearOfCentury]

/-- An hour and a minute with a colon between. -/
def hourMinute : List Item := [zeroed hour, mark ':', zeroed minute]

/-- An hour, a minute and a second with colons between. -/
def clock : List Item := hourMinute ++ [mark ':', zeroed second]

def ofLetter? : Char → Option (List Item)
  | 'A' => some [.name .longWeekday]
  | 'B' => some [.name .longMonth]
  | 'C' => some [zeroed century]
  | 'D' => some slashedDate
  | 'F' => some isoDate
  | 'G' => some [zeroed weekYear]
  | 'H' => some [zeroed hour]
  | 'I' => some [zeroed hour12]
  | 'M' => some [zeroed minute]
  | 'P' => some [.name .lowerHalf]
  | 'R' => some hourMinute
  | 'S' => some [zeroed second]
  | 'T' => some clock
  | 'U' => some [zeroed weekFromSunday]
  | 'V' => some [zeroed week]
  | 'W' => some [zeroed weekFromMonday]
  | 'X' => some clock
  | 'Y' => some [zeroed year]
  | 'Z' => some [.zone .name]
  | 'a' => some [.name .shortWeekday]
  | 'b' => some [.name .shortMonth]
  | 'c' => some ([.name .shortWeekday, .blank [' '], .name .shortMonth, .blank [' '],
      .number day .spaces, .blank [' ']] ++ clock ++ [.blank [' '], zeroed year])
  | 'd' => some [zeroed day]
  | 'e' => some [.number day .spaces]
  | 'f' => some [zeroed nanosecond]
  | 'g' => some [zeroed weekYearOfCentury]
  | 'h' => some [.name .shortMonth]
  | 'j' => some [zeroed ordinal]
  | 'k' => some [.number hour .spaces]
  | 'l' => some [.number hour12 .spaces]
  | 'm' => some [zeroed month]
  | 'n' => some [.blank ['\n']]
  | 'p' => some [.name .upperHalf]
  | 'q' => some [.number quarter .bare]
  | 'r' => some ([zeroed hour12, mark ':', zeroed minute, mark ':', zeroed second, .blank [' '],
      .name .upperHalf])
  | 's' => some [.number timestamp .bare]
  | 't' => some [.blank ['\t']]
  | 'u' => some [.number dayOfWeek .bare]
  | 'v' => some [.number day .spaces, mark '-', .name .shortMonth, mark '-', zeroed year]
  | 'w' => some [.number daysFromSunday .bare]
  | 'x' => some slashedDate
  | 'y' => some [zeroed yearOfCentury]
  | 'z' => some [.zone .offset]
  | '+' => some [.zone .instant]
  | '%' => some [mark '%']
  | _ => none

/-- The number of digits of a fraction that a format can ask for. -/
def fractionDigits? : Char → Option Nat
  | '3' => some 3
  | '6' => some 6
  | '9' => some 9
  | _ => none

/-- The items of a conversion, without its `%` and any modifier, and the text that follows. -/
def readConversion? : List Char → Option (List Item × List Char)
  | ':' :: ':' :: ':' :: 'z' :: rest => some ([.zone .offset], rest)
  | ':' :: ':' :: 'z' :: rest => some ([.zone .offset], rest)
  | ':' :: 'z' :: rest => some ([.zone .offset], rest)
  | '.' :: 'f' :: rest => some ([.fraction], rest)
  | '.' :: c :: 'f' :: rest => (fractionDigits? c).map fun n => ([.pointedFraction n], rest)
  | c :: rest =>
    match fractionDigits? c, rest with
    | some n, 'f' :: rest => some ([.bareFraction n], rest)
    | _, _ => (ofLetter? c).map fun items => (items, rest)
  | [] => none

/-- The padding that a modifier asks for. -/
def modifierPad? : Char → Option Pad
  | '-' => some .bare
  | '0' => some .zeros
  | '_' => some .spaces
  | _ => none

/-- The items of a conversion whose padding is replaced, which only a single number allows. -/
def withPad? (pad : Pad) : List Item × List Char → Option (List Item × List Char)
  | ([.number q _], rest) => some ([.number q pad], rest)
  | _ => none

/-- The items after a `%`, and the text that follows them. -/
def readSpec? : List Char → Option (List Item × List Char)
  | '#' :: 'z' :: rest => some ([.zone .lenientOffset], rest)
  | [] => none
  | c :: rest =>
    match modifierPad? c with
    | some pad => (readConversion? rest).bind (withPad? pad)
    | none => readConversion? (c :: rest)

/-- The items of a format, at most `fuel` of them taken off. -/
def readItems? : Nat → List Char → Option (List Item)
  | 0, _ => none
  | _ + 1, [] => some []
  | fuel + 1, '%' :: rest =>
    (readSpec? rest).bind fun (items, rest) => (readItems? fuel rest).map (items ++ ·)
  | fuel + 1, c :: rest =>
    if Text.isBlank c then
      let (blanks, rest) := (c :: rest).span Text.isBlank
      (readItems? fuel rest).map (.blank blanks :: ·)
    else
      let (text, rest) := (c :: rest).span fun c => !Text.isBlank c && c != '%'
      (readItems? fuel rest).map (.literal text :: ·)

/-- The items of a format, unless it has a conversion that does not exist. -/
def read? (format : String) : Option (List Item) :=
  readItems? (format.toList.length + 1) format.toList

end TagMachine.DateFormat
