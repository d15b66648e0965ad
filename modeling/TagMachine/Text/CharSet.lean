import TagMachine.Text.Hex

set_option autoImplicit false

/-! # Sets of characters

A set of characters is a list of ranges of code points, in ascending order and apart from each
other. Every operation below keeps the ranges so.
-/

namespace TagMachine.Text

/-- A set of characters, as ranges of code points. -/
structure CharSet where
  ranges : List (Nat × Nat)
deriving DecidableEq, Inhabited

namespace CharSet

/-- The last code point. -/
def last : Nat := 0x10ffff

def empty : CharSet := ⟨[]⟩

def all : CharSet := ⟨[(0, last)]⟩

def hasCode (s : CharSet) (n : Nat) : Bool := s.ranges.any fun r => r.1 ≤ n && n ≤ r.2

def contains (s : CharSet) (c : Char) : Bool := s.hasCode c.toNat

/-- Adds a range to ranges in descending order, the last of which begins no later. -/
def addRange (done : List (Nat × Nat)) (r : Nat × Nat) : List (Nat × Nat) :=
  match done with
  | [] => [r]
  | d :: rest => if r.1 ≤ d.2 + 1 then (d.1, max d.2 r.2) :: rest else r :: d :: rest

def ofRanges (ranges : List (Nat × Nat)) : CharSet :=
  ⟨((ranges.mergeSort fun a b => a.1 ≤ b.1).foldl addRange []).reverse⟩

def range (low high : Nat) : CharSet := ⟨[(low, high)]⟩

def single (c : Char) : CharSet := range c.toNat c.toNat

def union (s t : CharSet) : CharSet := ofRanges (s.ranges ++ t.ranges)

/-- The ranges between the given ones, from `low` up to `high`. -/
def gaps (low high : Nat) : List (Nat × Nat) → List (Nat × Nat)
  | [] => if low ≤ high then [(low, high)] else []
  | r :: rest =>
    if low < r.1 then (low, r.1 - 1) :: gaps (r.2 + 1) high rest else gaps (r.2 + 1) high rest

/-- The code points up to `high` that are not in the set. -/
def complementTo (high : Nat) (s : CharSet) : CharSet := ⟨gaps 0 high s.ranges⟩

def complement (s : CharSet) : CharSet := s.complementTo last

def inter (s t : CharSet) : CharSet := (s.complement.union t.complement).complement

def diff (s t : CharSet) : CharSet := s.inter t.complement

/-- The characters in exactly one of two sets. -/
def symmDiff (s t : CharSet) : CharSet := (s.diff t).union (t.diff s)

/-- Whether the set has a code point above `high`. -/
def exceeds (s : CharSet) (high : Nat) : Bool := s.ranges.any fun r => high < r.2

/-! ## Tables -/

/-- A hexadecimal number. -/
def readHex (s : List Char) : Nat := s.foldl (fun n c => 16 * n + (hexValue? c).getD 0) 0

/-- A hexadecimal number that may be written by its last digits if it begins as another one does. -/
def readLast (first s : List Char) : Nat := readHex (first.take (first.length - s.length) ++ s)

/-- The parts of a text that is divided by a mark. -/
def splitAt (mark : Char) (s : List Char) : List (List Char) :=
  let (rest, done) := s.foldr
    (fun c (acc : List Char × List (List Char)) =>
      if c = mark then ([], acc.1 :: acc.2) else (c :: acc.1, acc.2)) ([], [])
  (rest :: done).filter (!·.isEmpty)

def words (table : List String) : List (List Char) := table.flatMap (splitAt ' ' ·.toList)

/-- The ranges of a line, after a code point. A range is its distance from the one before it and its
length; with `=` in front it is every second code point. The digits of a number are capitals to base
26 and a last one, a digit or small letter, to base 36. -/
def readRanges (last : Nat) (start : Option Nat) (n : Nat) (second : Bool) :
    List Char → List (Nat × Nat)
  | [] => []
  | c :: rest =>
    if c = '=' then readRanges last start n true rest
    else if c.isUpper then readRanges last start (26 * n + (c.toNat - 'A'.toNat)) second rest
    else
      let n := 36 * n + if c.isDigit then c.toNat - '0'.toNat else c.toNat - 'a'.toNat + 10
      match start with
      | none => readRanges last (some (last + n)) 0 second rest
      | some low =>
        let ranges :=
          if second then (List.range' low (n / 2 + 1) 2).map fun k => (k, k) else [(low, low + n)]
        ranges ++ readRanges (low + n) none 0 false rest

/-- The set written by a table of ranges. -/
def ofTable (table : List String) : CharSet :=
  ofRanges (table.flatMap fun line => readRanges 0 none 0 false line.toList)

end CharSet

end TagMachine.Text
