import TagMachine.Error
import TagMachine.Json.Number

set_option autoImplicit false

/-! # Reading JSON texts

`Json.read` gives the tree of a JSON text or the first fault with its line and column. Objects
keep the order of their names; a name that comes again replaces the value in its first place.
Containers may be nested 127 deep.
-/

namespace TagMachine.Json

/-- White space between the tokens of a JSON text. -/
def isBlank (c : Char) : Bool := c == ' ' || c == '\n' || c == '\t' || c == '\r'

def skipBlank (cs : List Char) : List Char := cs.dropWhile isBlank

/-! ## Strings -/

def byteCount (cs : List Char) : Nat := cs.foldl (fun n c => n + c.utf8Size) 0

/-- The number written by four hexadecimal digits. -/
def readHex4 (cs : List Char) : Parsed Nat :=
  match cs with
  | a :: b :: c :: d :: rest =>
    match Text.hexValue? a, Text.hexValue? b, Text.hexValue? c, Text.hexValue? d with
    | some a, some b, some c, some d => .ok (4096 * a + 256 * b + 16 * c + d, rest)
    | _, _, _, _ => .error ⟨.invalidEscape, cs, 4⟩
  | _ => if byteCount cs < 4 then failAt .endInString [] else .error ⟨.invalidEscape, cs, 4⟩

/-- The character written by `\u` escapes, behind the first `\u`. -/
def readUnicode (cs : List Char) : Parsed Char :=
  match readHex4 cs with
  | .error e => .error e
  | .ok (n, rest) =>
    if 0xdc00 ≤ n ∧ n ≤ 0xdfff then failAt .loneSurrogate rest
    else if n < 0xd800 ∨ 0xdbff < n then .ok (Char.ofNat n, rest)
    else
      match rest with
      | [] => failAt .endInString []
      | '\\' :: [] => failAt .endInString []
      | '\\' :: 'u' :: rest =>
        match readHex4 rest with
        | .error e => .error e
        | .ok (m, rest) =>
          if m < 0xdc00 ∨ 0xdfff < m then failAt .loneSurrogate rest
          else .ok (Char.ofNat ((n - 0xd800) * 1024 + (m - 0xdc00) + 0x10000), rest)
      | '\\' :: rest => failOn .endOfHexEscape rest
      | rest => failOn .endOfHexEscape rest

/-- The character written by an escape, behind the backslash. -/
def readEscape (cs : List Char) : Parsed Char :=
  match cs with
  | [] => failAt .endInString []
  | '"' :: rest => .ok ('"', rest)
  | '\\' :: rest => .ok ('\\', rest)
  | '/' :: rest => .ok ('/', rest)
  | 'b' :: rest => .ok ('\x08', rest)
  | 'f' :: rest => .ok ('\x0c', rest)
  | 'n' :: rest => .ok ('\n', rest)
  | 'r' :: rest => .ok ('\r', rest)
  | 't' :: rest => .ok ('\t', rest)
  | 'u' :: rest => readUnicode rest
  | rest => failOn .invalidEscape rest

/-- The characters of a string up to its closing quotation mark, after those of `done`, which
are in reverse. Every step takes a character, so `fuel` need not exceed their number. -/
def readChars (fuel : Nat) (done : List Char) (cs : List Char) : Parsed String :=
  match fuel, cs with
  | _, [] => failAt .endInString []
  | 0, rest => failAt .endInString rest
  | fuel + 1, c :: rest =>
    if c = '"' then .ok (String.ofList done.reverse, rest)
    else if c = '\\' then
      match readEscape rest with
      | .error e => .error e
      | .ok (c, rest) => readChars fuel (c :: done) rest
    else if c.toNat < 0x20 then failOn .controlCharacter (c :: rest)
    else readChars fuel (c :: done) rest

/-- A string behind its opening quotation mark. -/
def readString (cs : List Char) : Parsed String := readChars cs.length [] cs

/-! ## Values -/

/-- A value written as a word, behind the first letter of it. -/
def readWord (value : Datum) : List Char → List Char → Parsed Datum
  | [], rest => .ok (value, rest)
  | _ :: _, [] => failAt .endInValue []
  | w :: word, c :: rest =>
    if c = w then readWord value word rest else failOn .expectedIdent (c :: rest)

mutual

/-- A value. `depth` is the number of containers that may still be opened, plus one. -/
def readValue (fuel depth : Nat) (cs : List Char) : Parsed Datum :=
  match fuel with
  | 0 => failAt .tooDeep cs
  | fuel + 1 =>
    match skipBlank cs with
    | [] => failOn .endInValue []
    | 'n' :: rest => readWord .nothing ['u', 'l', 'l'] rest
    | 't' :: rest => readWord (.boolean true) ['r', 'u', 'e'] rest
    | 'f' :: rest => readWord (.boolean false) ['a', 'l', 's', 'e'] rest
    | '-' :: rest => readNumber true rest
    | '"' :: rest =>
      match readString rest with
      | .error e => .error e
      | .ok (s, rest) => .ok (.string s, rest)
    | '[' :: rest =>
      if depth ≤ 1 then failOn .tooDeep ('[' :: rest) else readItems fuel (depth - 1) [] rest
    | '\x7b' :: rest =>
      if depth ≤ 1 then failOn .tooDeep ('\x7b' :: rest) else readFields fuel (depth - 1) [] rest
    | c :: rest =>
      if c.isDigit then readNumber false (c :: rest) else failOn .expectedValue (c :: rest)

/-- The elements of a list after those of `done`, which are in reverse. -/
def readItems (fuel depth : Nat) (done : List Datum) (cs : List Char) : Parsed Datum :=
  match fuel with
  | 0 => failAt .tooDeep cs
  | fuel + 1 =>
    match skipBlank cs with
    | [] => failOn .endInList []
    | ']' :: rest => .ok (.list done.reverse, rest)
    | c :: rest =>
      if done.isEmpty then
        match readValue fuel depth (c :: rest) with
        | .error e => .error e
        | .ok (d, rest) => readItems fuel depth [d] rest
      else if c = ',' then
        match skipBlank rest with
        | [] => failOn .endInValue []
        | ']' :: rest => failOn .trailingComma (']' :: rest)
        | rest =>
          match readValue fuel depth rest with
          | .error e => .error e
          | .ok (d, rest) => readItems fuel depth (d :: done) rest
      else failOn .expectedListCommaOrEnd (c :: rest)

/-- The fields of an object after those of `done`, which are in reverse. -/
def readFields (fuel depth : Nat) (done : List (String × Datum)) (cs : List Char) :
    Parsed Datum :=
  match fuel with
  | 0 => failAt .tooDeep cs
  | fuel + 1 =>
    match skipBlank cs with
    | [] => failOn .endInObject []
    | '\x7d' :: rest => .ok (.record (collectFields done.reverse), rest)
    | c :: rest =>
      if done.isEmpty then
        if c = '"' then readField fuel depth done rest else failOn .keyNotString (c :: rest)
      else if c = ',' then
        match skipBlank rest with
        | [] => failOn .endInValue []
        | '"' :: rest => readField fuel depth done rest
        | '\x7d' :: rest => failOn .trailingComma ('\x7d' :: rest)
        | rest => failOn .keyNotString rest
      else failOn .expectedObjectCommaOrEnd (c :: rest)

/-- A field behind the opening quotation mark of its name, and the fields that follow. -/
def readField (fuel depth : Nat) (done : List (String × Datum)) (cs : List Char) :
    Parsed Datum :=
  match fuel with
  | 0 => failAt .tooDeep cs
  | fuel + 1 =>
    match readString cs with
    | .error e => .error e
    | .ok (key, rest) =>
      match skipBlank rest with
      | [] => failOn .endInObject []
      | ':' :: rest =>
        match readValue fuel depth rest with
        | .error e => .error e
        | .ok (d, rest) => readFields fuel depth ((key, d) :: done) rest
      | rest => failOn .expectedColon rest

end

/-- A value between white space, up to the end of the text. Every two steps take a character. -/
def readAll (cs : List Char) : Except Failure Datum :=
  match readValue (3 * cs.length + 1) 128 cs with
  | .error e => .error e
  | .ok (d, rest) =>
    match skipBlank rest with
    | [] => .ok d
    | rest => .error ⟨.trailingCharacters, rest, 1⟩

/-! ## Places -/

/-- Line and column behind the first `offset` bytes, from a given line and column on. -/
def locate (line column : Nat) : List Char → Nat → Nat × Nat
  | [], _ => (line, column)
  | _ :: _, 0 => (line, column)
  | c :: rest, offset + 1 =>
    if c = '\n' then locate (line + 1) 0 rest offset
    else if offset + 1 < c.utf8Size then (line, column + offset + 1)
    else locate line (column + c.utf8Size) rest (offset + 1 - c.utf8Size)

def Failure.place (text : List Char) (f : Failure) : SyntaxError :=
  let (line, column) := locate 1 0 text (byteCount text - byteCount f.rest + f.extra)
  ⟨f.fault, line, column⟩

/-- The tree of a JSON text. -/
def read (text : String) : Except SyntaxError Datum :=
  match readAll text.toList with
  | .ok d => .ok d
  | .error f => .error (f.place text.toList)

/-- The fields of a JSON text that holds an object. -/
def readRecord (text : String) : Except Error (List (String × Datum)) :=
  match read text with
  | .error e => .error (.json e)
  | .ok (.record fields) => .ok fields
  | .ok d => .error (.type (.inputNotRecord d.kind))

end TagMachine.Json
