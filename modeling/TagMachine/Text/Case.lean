import TagMachine.Text.CharSet
import TagMachine.Text.Tables.CaseMap
import TagMachine.Text.Tables.Property

set_option autoImplicit false

/-! # Upper and lower case

The full case mappings of Unicode: a character may become several, and a capital sigma becomes
the final form at the end of a word.
-/

namespace TagMachine.Text

/-- A stretch of code points that a mapping moves by the same distance. -/
structure CaseRun where
  first : Nat
  last : Nat
  /-- Whether only every second code point is moved. -/
  alternate : Bool
  target : Nat

/-- The image of a code point in a stretch. -/
def CaseRun.image? (r : CaseRun) (n : Nat) : Option Nat :=
  if r.first ≤ n && n ≤ r.last && (!r.alternate || (n - r.first) % 2 == 0) then
    some (n - r.first + r.target)
  else none

/-- The stretch of the images, moved back. -/
def CaseRun.inverse (r : CaseRun) : CaseRun :=
  { r with first := r.target, last := r.last - r.first + r.target, target := r.first }

/-- A stretch written `a-b>c`, `a=b>c` or `a>c`. -/
def readCaseRun (word : List Char) : CaseRun :=
  let (source, target) := word.span (· != '>')
  let (first, more) := source.span fun c => c != '-' && c != '='
  let target := CharSet.readLast first (target.drop 1)
  match more with
  | [] => ⟨CharSet.readHex first, CharSet.readHex first, false, target⟩
  | c :: last => ⟨CharSet.readHex first, CharSet.readLast first last, c == '=', target⟩

def readCaseTable (table : List String) : List CaseRun := (CharSet.words table).map readCaseRun

def lowerRuns : List CaseRun := readCaseTable Tables.lowerCase

def upperRuns : List CaseRun :=
  readCaseTable Tables.upperCase ++ lowerRuns.map CaseRun.inverse

/-- A stretch with images of several characters, written `a-b>c.d`: the further ones stay. -/
def readLongRun (word : List Char) : CaseRun × List Nat :=
  let (run, more) := word.span (· != '.')
  (readCaseRun run, (CharSet.splitAt '.' more).map CharSet.readHex)

def longRuns : List (CaseRun × List Nat) :=
  (CharSet.words Tables.upperCaseLong).map readLongRun

/-- The image of a code point, itself when no stretch moves it. -/
def mapCode (runs : List CaseRun) (n : Nat) : Nat := (runs.findSome? (·.image? n)).getD n

/-- The upper-case form of a character. -/
def upperChar (c : Char) : List Char :=
  match longRuns.findSome? fun r => (r.1.image? c.toNat).map (· :: r.2) with
  | some codes => codes.map Char.ofNat
  | none => [Char.ofNat (mapCode upperRuns c.toNat)]

/-- The lower-case form of a character; the capital I with a dot keeps its dot. -/
def lowerChar (c : Char) : List Char :=
  if c.toNat = 0x130 then ['i', Char.ofNat 0x307] else [Char.ofNat (mapCode lowerRuns c.toNat)]

def casedSet : CharSet := CharSet.ofTable Tables.cased

def caseIgnorableSet : CharSet := CharSet.ofTable Tables.caseIgnorable

/-- Whether the first character that is not ignored in questions of case has a case. -/
def leadsToCased (cs : List Char) : Bool :=
  match cs.dropWhile caseIgnorableSet.contains with
  | [] => false
  | c :: _ => casedSet.contains c

/-- The lower-case form of a text, given what stands in front of it in reverse. -/
def lowerFrom (before : List Char) : List Char → List Char
  | [] => []
  | c :: rest =>
    let image :=
      if c.toNat = 0x3a3 then
        [Char.ofNat (if leadsToCased before && !leadsToCased rest then 0x3c2 else 0x3c3)]
      else lowerChar c
    image ++ lowerFrom (c :: before) rest

def toLower (s : String) : String := String.ofList (lowerFrom [] s.toList)

def toUpper (s : String) : String := String.ofList (s.toList.flatMap upperChar)

end TagMachine.Text
