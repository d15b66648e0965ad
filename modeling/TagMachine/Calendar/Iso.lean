import TagMachine.Calendar.Read

set_option autoImplicit false

/-! # ISO dates

Dates as `2024-01-31` and date-times as `2024-01-31T12:30:00.5`, where the seconds and the letter
`Z` may be missing.
-/

namespace TagMachine.IsoDate

def dateFormat : String := "%Y-%m-%d"

def dateTimeFormat : String := "%Y-%m-%dT%H:%M:%S%.f"

/-- The format of a date-time without seconds. -/
def minuteFormat : String := "%Y-%m-%dT%H:%M"

/-- The date-time that a text gives, with every letter `Z` passed over. A date alone is its
start. -/
def read? (text : String) : Option DateTime :=
  let text := String.ofList (text.toList.filter (· != 'Z'))
  if text.toList.contains 'T' then
    match DateFormat.readDateTime? dateTimeFormat text with
    | some t => some t
    | none => DateFormat.readDateTime? minuteFormat text
  else (DateFormat.readDate? dateFormat text).map fun d => ⟨d, .midnight⟩

/-- A date-time with the letter `Z`. -/
def writeDateTime (t : DateTime) : String :=
  (DateFormat.write? dateTimeFormat t).getD "" ++ "Z"

def writeDate (t : DateTime) : String := (DateFormat.write? dateFormat t).getD ""

end TagMachine.IsoDate
