import TagMachine.Calendar.Fields
import TagMachine.Calendar.Print
import TagMachine.Text.Numeral

set_option autoImplicit false

/-! # Reading dates

`DateFormat.readFields?` reads a whole text by the items of a format. Numbers may have blanks
before them and fewer digits than their field has, names may be in any case, and blanks in the
format stand for any number of blanks. `readDateTime?` and `readDate?` give the date that the
fields determine.
-/

namespace TagMachine.DateFormat

def skipBlank (cs : List Char) : List Char := cs.dropWhile Text.isBlank

/-- The number written by digits, if it fits 63 bits. -/
def valueOf? (digits : List Char) : Option Nat :=
  let n := Text.digitsValue 0 digits
  if n < Nat.pow 2 63 then some n else none

/-- A number of one to `most` digits, and the text after it. -/
def readNumber? (most : Nat) (cs : List Char) : Option (Nat × List Char) :=
  let digits := (cs.take most).takeWhile Char.isDigit
  if digits.isEmpty then none
  else (valueOf? digits).map fun n => (n, cs.drop digits.length)

/-- A number of just `count` digits, and the text after it. -/
def readExactly? (count : Nat) (cs : List Char) : Option (Nat × List Char) :=
  let digits := cs.take count
  if digits.length = count ∧ digits.all Char.isDigit then
    some (Text.digitsValue 0 digits, cs.drop count)
  else none

/-- A number with an optional sign. Only a signed one may be longer than `most` digits. -/
def readSigned? (most : Nat) : List Char → Option (Int × List Char)
  | '-' :: rest => (readNumber? rest.length rest).map fun (n, rest) => (-(n : Int), rest)
  | '+' :: rest => (readNumber? rest.length rest).map fun (n, rest) => ((n : Int), rest)
  | cs => (readNumber? most cs).map fun (n, rest) => ((n : Int), rest)

/-- The most digits that a quantity has without a sign; a timestamp may have any number. -/
def Quantity.width : Quantity → Option Nat
  | .year | .weekYear => some 4
  | .quarter | .daysFromSunday | .dayOfWeek => some 1
  | .ordinal => some 3
  | .nanosecond => some 9
  | .timestamp => none
  | _ => some 2

def Quantity.isSigned : Quantity → Bool
  | .year | .weekYear => true
  | _ => false

/-- The value of a quantity, and the text after it. -/
def readQuantity? (q : Quantity) (cs : List Char) : Option (Int × List Char) :=
  let cs := skipBlank cs
  let most := q.width.getD cs.length
  if q.isSigned then readSigned? most cs
  else (readNumber? most cs).map fun (n, rest) => ((n : Int), rest)

/-- The text after a word that stands at its start in any case. -/
def dropWord? (word cs : List Char) : Option (List Char) :=
  if (cs.take word.length).map Char.toLower = word.map Char.toLower then
    some (cs.drop word.length)
  else none

/-- The text after the rest of a name, which may be missing. -/
def dropOptional (word cs : List Char) : List Char := (dropWord? word cs).getD cs

/-- The position of the name at the start of the text, and the text after it. A name is its first
three letters, and if `long` it may also be written out. -/
def readName? (names : List String) (long : Bool) (cs : List Char) : Option (Nat × List Char) :=
  names.zipIdx.findSome? fun (name, i) =>
    (dropWord? (shortName name) cs).map fun rest =>
      (i, if long then dropOptional (name.toList.drop 3) rest else rest)

/-- The fields after a name, and the text after it. -/
def readNamed? (f : Fields) (cs : List Char) : Name → Option (Fields × List Char)
  | .shortMonth => month false
  | .longMonth => month true
  | .shortWeekday => weekday false
  | .longWeekday => weekday true
  | .lowerHalf | .upperHalf =>
    match dropWord? ['a', 'm'] cs, dropWord? ['p', 'm'] cs with
    | some rest, _ => (f.setAfternoon? false).map fun f => (f, rest)
    | _, some rest => (f.setAfternoon? true).map fun f => (f, rest)
    | _, _ => none
where
  month (long : Bool) : Option (Fields × List Char) :=
    (readName? monthNames long cs).bind fun (i, rest) =>
      (f.setMonth? (i + 1)).map fun f => (f, rest)
  weekday (long : Bool) : Option (Fields × List Char) :=
    (readName? weekdayNames long cs).bind fun (i, rest) =>
      (f.setWeekday? i).map fun f => (f, rest)

/-- A fraction of any number of digits, in nanoseconds; digits beyond the ninth are dropped. -/
def readFraction? (cs : List Char) : Option (Nat × List Char) :=
  let digits := cs.takeWhile Char.isDigit
  if digits.isEmpty then none
  else
    let kept := digits.take 9
    some (Text.digitsValue 0 kept * Nat.pow 10 (9 - kept.length), cs.drop digits.length)

/-- A fraction of a fixed number of digits, in nanoseconds. -/
def readFixedFraction? (count : Nat) (cs : List Char) : Option (Nat × List Char) :=
  (readExactly? count cs).map fun (n, rest) => (n * Nat.pow 10 (9 - count), rest)

/-- The fields after a fraction, and the text after it. -/
def setFraction? (f : Fields) (fraction : Option (Nat × List Char)) :
    Option (Fields × List Char) :=
  fraction.bind fun (n, rest) => (f.setNanosecond? n).map fun f => (f, rest)

/-! ## Offsets from universal time -/

/-- The sign of an offset, where `true` stands for minus, and the text after it. -/
def readOffsetSign? : List Char → Option (Bool × List Char)
  | '+' :: rest => some (false, rest)
  | '-' :: rest => some (true, rest)
  | '−' :: rest => some (true, rest)
  | _ => none

/-- The minutes of an offset, and the text after them. -/
def readOffsetMinutes? (optional : Bool) (cs : List Char) : Option (Nat × List Char) :=
  match cs with
  | [] => if optional then some (0, []) else none
  | _ =>
    (readExactly? 2 cs).bind fun (n, rest) => if n < 60 then some (n, rest) else none

/-- An offset of hours and minutes in seconds, and the text after it. If `lenient`, the letter `Z`
stands for no offset; if `optional`, the minutes may be missing. -/
def readOffset? (lenient optional : Bool) (cs : List Char) : Option (Int × List Char) :=
  match lenient, cs with
  | true, 'Z' :: rest => some (0, rest)
  | true, 'z' :: rest => some (0, rest)
  | _, _ => do
    let (negative, rest) ← readOffsetSign? cs
    let (hours, rest) ← readExactly? 2 rest
    let rest := rest.dropWhile fun c => c == ':' || Text.isBlank c
    let (minutes, rest) ← readOffsetMinutes? optional rest
    let seconds : Int := (3600 * hours + 60 * minutes : Nat)
    return (if negative then -seconds else seconds, rest)

/-- The fields after an offset, and the text after it. -/
def setOffset? (f : Fields) (offset : Option (Int × List Char)) : Option (Fields × List Char) :=
  offset.bind fun (n, rest) => (f.setOffset? n).map fun f => (f, rest)

/-! ## Items -/

/-- The fields after an item that is neither a name nor an offset, and the text after it. -/
def readPlain? (f : Fields) (cs : List Char) : Item → Option (Fields × List Char)
  | .literal text => if text.isPrefixOf cs then some (f, cs.drop text.length) else none
  | .blank _ => some (f, skipBlank cs)
  | .number q _ => (readQuantity? q cs).bind fun (n, rest) => (f.set? n q).map fun f => (f, rest)
  | .fraction =>
    match cs with
    | '.' :: rest => setFraction? f (readFraction? rest)
    | _ => some (f, cs)
  | .pointedFraction n =>
    match cs with
    | '.' :: rest => setFraction? f (readFixedFraction? n rest)
    | _ => some (f, cs)
  | .bareFraction n => setFraction? f (readFixedFraction? n cs)
  | .name name => readNamed? f cs name
  | .zone _ => none

/-- The fields after a list of such items, and the text after them. -/
def readPlains? : List Item → Fields → List Char → Option (Fields × List Char)
  | [], f, cs => some (f, cs)
  | item :: items, f, cs =>
    (readPlain? f cs item).bind fun (f, cs) => readPlains? items f cs

/-- A year, a month and a day with dashes between that may have blanks before them. -/
def instantDate : List Item :=
  [zeroed .year, .blank [], mark '-', zeroed .month, .blank [], mark '-', zeroed .day]

/-- A time of day with a fraction and with colons that may have blanks before them. -/
def instantTime : List Item :=
  [zeroed .hour, .blank [], mark ':', zeroed .minute, .blank [], mark ':', zeroed .second,
    .fraction, .blank []]

/-- The fields after a date, a time of day and an offset, and the text after them. -/
def readInstant? (f : Fields) (cs : List Char) : Option (Fields × List Char) := do
  let (f, cs) ← readPlains? instantDate f cs
  let cs ←
    match cs with
    | 'T' :: rest | 't' :: rest | ' ' :: rest => some rest
    | _ => none
  let (f, cs) ← readPlains? instantTime f cs
  match dropWord? ['u', 't', 'c'] cs with
  | some rest => (f.setOffset? 0).map fun f => (f, rest)
  | none => setOffset? f (readOffset? true false cs)

/-- The fields after an item, and the text after it. -/
def readItem? (f : Fields) (cs : List Char) : Item → Option (Fields × List Char)
  | .zone .name => some (f, cs.dropWhile fun c => !Text.isBlank c)
  | .zone .offset => setOffset? f (readOffset? false false (skipBlank cs))
  | .zone .lenientOffset => setOffset? f (readOffset? true true (skipBlank cs))
  | .zone .instant => readInstant? f cs
  | item => readPlain? f cs item

/-- The fields of a text that items describe from start to end. -/
def readByItems? : List Item → Fields → List Char → Option Fields
  | [], f, cs => if cs.isEmpty then some f else none
  | item :: items, f, cs => (readItem? f cs item).bind fun (f, cs) => readByItems? items f cs

def readFields? (format text : String) : Option Fields :=
  (read? format).bind fun items => readByItems? items {} text.toList

def readDateTime? (format text : String) : Option DateTime :=
  (readFields? format text).bind Fields.dateTime?

def readDate? (format text : String) : Option Date :=
  (readFields? format text).bind fun f => f.date.toOption

/-- The date-time that a text gives by a format, or the start of the date that it gives. -/
def readMoment? (format text : String) : Option DateTime :=
  match readDateTime? format text with
  | some t => some t
  | none => (readDate? format text).map fun d => ⟨d, .midnight⟩

end TagMachine.DateFormat
