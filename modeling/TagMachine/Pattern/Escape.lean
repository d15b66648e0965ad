import TagMachine.Pattern.Basic
import TagMachine.Pattern.Flags
import TagMachine.Text.Blank
import TagMachine.Text.Property

set_option autoImplicit false

/-! # Escapes in patterns -/

namespace TagMachine.Pattern

open Text (CharSet)

/-- What a single symbol of a pattern stands for. -/
inductive Symbol where
  /-- A character; `byte` when its number may mean a byte that is no character. -/
  | literal (c : Char) (byte : Bool)
  | set (s : CharSet)
  | look (l : Look)

/-- The rest after a comment. -/
def skipComment : List Char → List Char
  | [] => []
  | c :: rest => if c = '\n' then rest else skipComment rest

/-- The rest after blanks and comments; `fuel` bounds their number. -/
def skipBlankIn (fuel : Nat) (cs : List Char) : List Char :=
  match fuel with
  | 0 => cs
  | fuel + 1 =>
    match cs with
    | [] => []
    | c :: rest =>
      if Text.isBlank c then skipBlankIn fuel rest
      else if c = '#' then skipBlankIn fuel (skipComment rest)
      else c :: rest

/-- The rest after what does not count under the flags. -/
def skip (f : Flags) (cs : List Char) : List Char :=
  if f.verbose then skipBlankIn cs.length cs else cs

/-- The character with a number. -/
def charOf? (n : Nat) : Option Char :=
  if n < 0xd800 ∨ (0xdfff < n ∧ n ≤ CharSet.last) then some (Char.ofNat n) else none

/-- A fixed number of hexadecimal digits after `n`. -/
def hexDigits? (f : Flags) (n : Nat) : Nat → List Char → Option (Nat × List Char)
  | 0, cs => some (n, cs)
  | _ + 1, [] => none
  | count + 1, c :: rest =>
    match Text.hexValue? c with
    | some d => hexDigits? f (16 * n + d) count (skip f rest)
    | none => none

/-- Hexadecimal digits after `n` up to a closing brace; `fuel` bounds their number. -/
def bracedHex? (f : Flags) (fuel : Nat) (n : Nat) (some? : Bool) (cs : List Char) :
    Option (Nat × List Char) :=
  match fuel, skip f cs with
  | _, [] => none
  | 0, _ => none
  | fuel + 1, c :: rest =>
    if c = '\x7d' then if some? then some (n, rest) else none
    else
      match Text.hexValue? c with
      | some d => bracedHex? f fuel (16 * n + d) true rest
      | none => none

/-- A character given by its number, behind the letter of the escape. -/
def readCode? (f : Flags) (digits : Nat) (cs : List Char) : Option (Char × List Char) :=
  match skip f cs with
  | [] => none
  | '\x7b' :: rest =>
    match bracedHex? f (rest.length + 1) 0 false rest with
    | some (n, rest) => (charOf? n).map fun c => (c, skip f rest)
    | none => none
  | cs =>
    match hexDigits? f 0 digits cs with
    | some (n, rest) => (charOf? n).map fun c => (c, rest)
    | none => none

/-- The text up to a closing brace. -/
def bracedName? (f : Flags) (fuel : Nat) (done : List Char) (cs : List Char) :
    Option (List Char × List Char) :=
  match fuel, skip f cs with
  | _, [] => none
  | 0, _ => none
  | fuel + 1, c :: rest =>
    if c = '\x7d' then some (done.reverse, rest) else bracedName? f fuel (c :: done) rest

/-- The two parts of a list around the first place where another begins. -/
def splitAt? (sep : List Char) : List Char → Option (List Char × List Char)
  | [] => none
  | c :: rest =>
    if sep.isPrefixOf (c :: rest) then some ([], (c :: rest).drop sep.length)
    else (splitAt? sep rest).map fun p => (c :: p.1, p.2)

/-- The set that the name between the braces of a class stands for. -/
def classByName? (name : List Char) : Option CharSet :=
  match splitAt? ['!', '='] name with
  | some (property, value) => (Text.valueSet? property value).map CharSet.complement
  | none =>
    match splitAt? [':'] name with
    | some (property, value) => Text.valueSet? property value
    | none =>
      match splitAt? ['='] name with
      | some (property, value) => Text.valueSet? property value
      | none => Text.namedSet? name

/-- A set after its negation and, where case does not count, after the characters of the other
case were added. -/
def foldAndNegate (f : Flags) (negated : Bool) (s : CharSet) : CharSet :=
  let s := if f.ignoreCase then if f.unicode then s.foldCase else s.foldAscii else s
  if negated then if f.unicode then s.complement else s.complementTo 0xff else s

/-- A class given by a property, behind the letter of the escape. -/
def readProperty? (f : Flags) (negated : Bool) (cs : List Char) : Option (CharSet × List Char) :=
  if !f.unicode then none
  else
    match skip f cs with
    | [] => none
    | '\\' :: _ => none
    | '\x7b' :: rest =>
      match bracedName? f (rest.length + 1) [] rest with
      | some (name, rest) => (classByName? name).map fun s => (foldAndNegate f negated s, rest)
      | none => none
    | c :: rest => (Text.namedSet? [c]).map fun s => (foldAndNegate f negated s, skip f rest)

def asciiWord : CharSet :=
  CharSet.ofRanges [(0x30, 0x39), (0x41, 0x5a), (0x5f, 0x5f), (0x61, 0x7a)]

def letterClass (f : Flags) (letter : Char) : CharSet :=
  let s :=
    if letter.toLower = 'd' then
      if f.unicode then Text.digitSet else CharSet.range 0x30 0x39
    else if letter.toLower = 's' then
      if f.unicode then Text.blankSet else CharSet.ofRanges [(0x09, 0x0d), (0x20, 0x20)]
    else if f.unicode then Text.wordSet else asciiWord
  if letter.isUpper then if f.unicode then s.complement else s.complementTo 0xff else s

/-- Punctuation that has a meaning of its own. -/
def isMeta (c : Char) : Bool := "\\.+*?()|[]\x7b\x7d^$#&-~".contains c

/-- Whether a backslash in front of a character gives the character itself. -/
def isEscapable (c : Char) : Bool :=
  isMeta c || (c.toNat < 0x80 && !c.isAlphanum && c != '<' && c != '>')

/-- The letters between the braces of a special word boundary. -/
def boundaryName (f : Flags) (fuel : Nat) (done : List Char) (cs : List Char) :
    List Char × List Char :=
  match fuel, cs with
  | _, [] => (done.reverse, [])
  | 0, _ => (done.reverse, cs)
  | fuel + 1, c :: rest =>
    if c.isAlpha || c == '-' then boundaryName f fuel (c :: done) (skip f rest)
    else (done.reverse, cs)

/-- A word boundary, behind its letter. What stands in braces may be a count instead. -/
def readBoundary? (f : Flags) (cs : List Char) : Option (Look × List Char) :=
  match cs with
  | '\x7b' :: inside =>
    match skip f inside with
    | [] => none
    | c :: rest =>
      if !(c.isAlpha || c == '-') then some (.wordBoundary, cs)
      else
        match boundaryName f (rest.length + 1) [] (c :: rest) with
        | (name, '\x7d' :: rest) =>
          if name = "start".toList then some (.wordStart, rest)
          else if name = "end".toList then some (.wordEnd, rest)
          else if name = "start-half".toList then some (.wordStartHalf, rest)
          else if name = "end-half".toList then some (.wordEndHalf, rest)
          else none
        | _ => none
  | _ => some (.wordBoundary, cs)

/-- An escape, behind its backslash. -/
def readEscape? (f : Flags) (cs : List Char) : Option (Symbol × List Char) :=
  match cs with
  | [] => none
  | c :: rest =>
    let literal (c : Char) : Option (Symbol × List Char) := some (.literal c false, rest)
    let look (l : Look) : Option (Symbol × List Char) := some (.look l, rest)
    let code (digits : Nat) : Option (Symbol × List Char) :=
      (readCode? f digits rest).map fun p => (.literal p.1 true, p.2)
    if isEscapable c then literal c
    else
      match c with
      | 'x' => code 2
      | 'u' => code 4
      | 'U' => code 8
      | 'p' => (readProperty? f false rest).map fun p => (.set p.1, p.2)
      | 'P' => (readProperty? f true rest).map fun p => (.set p.1, p.2)
      | 'a' => literal '\x07'
      | 'f' => literal '\x0c'
      | 't' => literal '\t'
      | 'n' => literal '\n'
      | 'r' => literal '\r'
      | 'v' => literal '\x0b'
      | 'A' => look .textStart
      | 'z' => look .textEnd
      | 'b' => (readBoundary? f rest).map fun p => (.look p.1, p.2)
      | 'B' => look .notWordBoundary
      | '<' => look .wordStart
      | '>' => look .wordEnd
      | _ => if "dDsSwW".contains c then some (.set (letterClass f c), rest) else none

end TagMachine.Pattern
