import TagMachine.Calendar.Date

set_option autoImplicit false

/-! # Dates with a time of day

A time of day is a second of the day and a fraction in nanoseconds. A fraction of a whole second
or more stands for the leap second that follows that second.

Main functions: `DateTime.shift?`, which moves by whole seconds, and `DateTime.secondsTo`, the
whole seconds from one date-time to another.
-/

namespace TagMachine

def nanosPerSecond : Nat := 1000000000

def secondsPerDay : Nat := 86400

structure TimeOfDay where
  /-- The second of the day, below `secondsPerDay`. -/
  second : Nat
  /-- The nanoseconds since that second began; beyond a whole second in a leap second. -/
  nano : Nat
deriving DecidableEq, Inhabited

namespace TimeOfDay

/-- The start of the day. -/
def midnight : TimeOfDay := ⟨0, 0⟩

def of? (hour minute second : Nat) : Option TimeOfDay :=
  if hour < 24 ∧ minute < 60 ∧ second < 60 then some ⟨3600 * hour + 60 * minute + second, 0⟩
  else none

def inLeapSecond (t : TimeOfDay) : Bool := nanosPerSecond ≤ t.nano

def hour (t : TimeOfDay) : Nat := t.second / 3600
def minute (t : TimeOfDay) : Nat := t.second / 60 % 60
def secondOfMinute (t : TimeOfDay) : Nat := t.second % 60

/-- The hour on a twelve-hour clock. -/
def hour12 (t : TimeOfDay) : Nat := if t.hour % 12 = 0 then 12 else t.hour % 12

/-- Whether the time lies in the second half of the day. -/
def isAfternoon (t : TimeOfDay) : Bool := 12 ≤ t.hour

/-- The nanoseconds from `a` to `b`. A leap second between the two counts. -/
def nanosTo (a b : TimeOfDay) : Int :=
  let leap : Int :=
    if a.second < b.second ∧ a.inLeapSecond then 1
    else if b.second < a.second ∧ b.inLeapSecond then -1
    else 0
  ((b.second : Int) - a.second + leap) * nanosPerSecond + ((b.nano : Int) - a.nano)

end TimeOfDay

structure DateTime where
  date : Date
  time : TimeOfDay
deriving DecidableEq, Inhabited

namespace DateTime

/-- The number of 1 January 1970. -/
def epochDay : Int := 719163

/-- The seconds since the start of 1970. -/
def timestamp (t : DateTime) : Int :=
  (t.date.dayNumber - epochDay) * secondsPerDay + t.time.second

/-- The date-time some seconds after the start of 1970, if it can be held. -/
def ofTimestamp? (seconds : Int) : Option DateTime :=
  (Date.ofDayNumber? (epochDay + seconds / secondsPerDay)).map fun date =>
    ⟨date, ⟨(seconds % secondsPerDay).toNat, 0⟩⟩

/-- The second of the day and the fraction that a move by `seconds` starts from: a move forward
out of a leap second starts from the second before it, and one backward from the second after. -/
def departure (t : TimeOfDay) (seconds : Int) : Nat × Nat :=
  if t.inLeapSecond then
    (if 0 < seconds then t.second else t.second + 1, t.nano - nanosPerSecond)
  else (t.second, t.nano)

/-- The date-time some seconds later, or earlier for a negative count, if it can be held. -/
def shift? (t : DateTime) (seconds : Int) : Option DateTime :=
  if seconds = 0 then some t
  else
    let (start, nano) := departure t.time seconds
    let total := start + seconds
    (t.date.shiftDays? (total / secondsPerDay)).map fun date =>
      ⟨date, ⟨(total % secondsPerDay).toNat, nano⟩⟩

/-- The date-time a number of months later, if it can be held. -/
def addMonths? (t : DateTime) (count : Nat) : Option DateTime :=
  (t.date.addMonths? count).map fun date => ⟨date, t.time⟩

/-- The date-time a number of months earlier, if it can be held. -/
def subMonths? (t : DateTime) (count : Nat) : Option DateTime :=
  (t.date.subMonths? count).map fun date => ⟨date, t.time⟩

def nanosTo (a b : DateTime) : Int :=
  (b.date.dayNumber - a.date.dayNumber) * secondsPerDay * nanosPerSecond + a.time.nanosTo b.time

def secondsTo (a b : DateTime) : Int := (a.nanosTo b).tdiv nanosPerSecond

end DateTime

end TagMachine
