import TagMachine.Builtin.Arguments
import TagMachine.Calendar.Iso

set_option autoImplicit false

/-! # Functions on dates -/

namespace TagMachine.Builtin

def dateParts (t : DateTime) : List (String × Int) :=
  [("year", t.date.year), ("month", t.date.month), ("day", t.date.day),
    ("hour", t.time.hour), ("minute", t.time.minute), ("second", t.time.secondOfMinute)]

/-- The parts of the date that a text gives by a format. -/
def parseDate : Builtin := fun args =>
  let value := args.text "value"
  let format := args.text "format"
  match DateFormat.readMoment? format value with
  | some t => giveRecord ⟨(dateParts t).map fun p => (p.1, .integer (Int64.ofInt p.2))⟩
  | none => .error (.domain (.unparsedDate value format))

/-- A part of a date, zero for all but integers. -/
def datePart (r : Record) (name : String) : Int :=
  match r.get name with
  | .integer n => n.toInt
  | _ => 0

/-- A part of a date that must fit 32 bits without a sign. -/
def unsignedPart? (r : Record) (name : String) : Option Nat :=
  let n := datePart r name
  if 0 ≤ n ∧ n < 0x100000000 then some n.toNat else none

/-- The year of a date, which must fit 32 bits. -/
def yearPart? (r : Record) : Option Int :=
  let n := datePart r "year"
  if -0x80000000 ≤ n ∧ n < 0x80000000 then some n else none

def ofDateParts? (r : Record) : Option DateTime := do
  let year ← yearPart? r
  let month ← unsignedPart? r "month"
  let day ← unsignedPart? r "day"
  let date ← Date.of? year month day
  let hour ← unsignedPart? r "hour"
  let minute ← unsignedPart? r "minute"
  let second ← unsignedPart? r "second"
  let time ← TimeOfDay.of? hour minute second
  return ⟨date, time⟩

/-- The date with the parts of a record, written by a format. -/
def formatDate : Builtin := fun args =>
  let format := args.text "format"
  match ofDateParts? (args.fields "date") with
  | none => .error (.domain .invalidDateComponents)
  | some t =>
    match DateFormat.write? format t with
    | some s => giveText s
    | none => .error (.domain (.invalidDateFormat format))

def readIso (text : String) : Except Error DateTime :=
  match IsoDate.read? text with
  | some t => .ok t
  | none => .error (.domain (.invalidIsoDate text))

/-- The seconds of a unit of fixed length. -/
def unitSeconds? : String → Option Nat
  | "seconds" => some 1
  | "minutes" => some 60
  | "hours" => some 3600
  | "days" => some 86400
  | _ => none

/-- The whole units from one date to another. -/
def dateDiff : Builtin := fun args => do
  let start ← readIso (args.textOr "from" "a")
  let stop ← readIso (args.textOr "to" "b")
  let unit := args.text "unit"
  match unitSeconds? unit with
  | some n => giveInt (Int64.ofInt ((start.secondsTo stop).tdiv n))
  | none => throw (.domain (.unknownUnit "date-diff" unit))

/-- The date-time some months later, or earlier for a negative count. Without its sign the count
must fit 32 bits. -/
def moveMonths? (t : DateTime) (months : Int64) : Option DateTime :=
  let count := months.toInt.natAbs
  if 0x100000000 ≤ count then none
  else if 0 ≤ months.toInt then t.addMonths? count
  else t.subMonths? count

/-- The months of a number of years, if they fit 64 bits. -/
def monthsOfYears? (years : Int64) : Option Int64 :=
  let months := years.toInt * 12
  if -0x8000000000000000 ≤ months ∧ months < 0x8000000000000000 then
    some (Int64.ofInt months)
  else none

/-- The date-time some units later; `none` for an unknown unit. -/
def shiftBy? (t : DateTime) (amount : Int64) (unit : String) : Option (Option DateTime) :=
  match unitSeconds? unit, unit with
  | some n, _ => some (t.shift? (amount.toInt * n))
  | none, "months" => some (moveMonths? t amount)
  | none, "years" => some ((monthsOfYears? amount).bind (moveMonths? t))
  | none, _ => none

/-- The date some units later, written as a date alone if it was given as one. -/
def dateAdd : Builtin := fun args => do
  let date := args.text "date"
  let amount := args.integer "amount"
  let unit := args.text "unit"
  let t ← readIso date
  match shiftBy? t amount unit with
  | none => throw (.domain (.unknownUnit "date-add" unit))
  | some none => throw (.domain (.dateOutOfRange amount unit))
  | some (some t) =>
    giveText (if date.toList.contains 'T' then IsoDate.writeDateTime t else IsoDate.writeDate t)

/-- The time of the invocation. -/
def now : Builtin := fun args => giveText args.context.timestamp

end TagMachine.Builtin
