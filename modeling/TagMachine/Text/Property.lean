import TagMachine.Text.Case
import TagMachine.Text.Tables.Script

set_option autoImplicit false

/-! # Character properties by name

Sets of characters that a name of a Unicode property, general category or script stands for.
Blanks, hyphens, underscores, case and a leading `is` do not count in names.
-/

namespace TagMachine.Text

def findTable (tables : List (List String × List String)) (name : String) : Option CharSet :=
  (tables.find? fun t => t.1.contains name).map fun t => CharSet.ofTable t.2

def unionAll (sets : List CharSet) : CharSet := CharSet.ofRanges (sets.flatMap (·.ranges))

/-- All assigned code points. -/
def assigned : CharSet := unionAll (Tables.categories.map fun t => CharSet.ofTable t.2)

/-- The set of a general category or group of them. -/
def category? (name : String) : Option CharSet :=
  if name = "any" then some CharSet.all
  else if name = "ascii" then some (CharSet.range 0 0x7f)
  else if name = "assigned" then some assigned
  else if name = "cn" ∨ name = "unassigned" then some assigned.complement
  else if name = "c" ∨ name = "other" then
    some ((unionAll (["cc", "cf", "cs", "co"].filterMap (findTable Tables.categories))).union
      assigned.complement)
  else
    match findTable Tables.categories name with
    | some s => some s
    | none =>
      (Tables.categoryGroups.find? fun g => g.1.contains name).map fun g =>
        unionAll (g.2.map CharSet.ofTable)

def script? (name : String) : Option CharSet := findTable Tables.scripts name

def property? (name : String) : Option CharSet := findTable Tables.properties name

/-- A name without what does not count in it. -/
def normalName (name : List Char) : String :=
  let lower := name.map Char.toLower
  let isPrefixed := lower.take 2 == ['i', 's']
  let kept := (if isPrefixed then lower.drop 2 else lower).filter fun c =>
    c != ' ' && c != '_' && c != '-' && c.toNat < 0x80
  if isPrefixed && kept == ['c'] then "isc" else String.ofList kept

/-- The set that a single name stands for: a property, else a category, else a script. -/
def namedSet? (name : List Char) : Option CharSet :=
  let name := normalName name
  let property := if name = "cf" ∨ name = "sc" ∨ name = "lc" then none else property? name
  property <|> category? name <|> script? name

def valueSet? (property value : List Char) : Option CharSet :=
  let property := normalName property
  let value := normalName value
  if property = "generalcategory" ∨ property = "gc" then category? value
  else if property = "script" ∨ property = "sc" then script? value
  else none

/-! ## Sets with names of their own -/

def alphabetic : CharSet := CharSet.ofTable Tables.alphabetic

/-- Letters and numbers of all kinds. -/
def alphanumeric : CharSet :=
  unionAll [alphabetic, CharSet.ofTable Tables.categoryNd, CharSet.ofTable Tables.categoryNl,
    CharSet.ofTable Tables.categoryNo]

/-- The decimal digits of all scripts. -/
def digitSet : CharSet := CharSet.ofTable Tables.categoryNd

def blankSet : CharSet := CharSet.ofTable Tables.whiteSpace

/-- The characters of words: letters, marks, decimal digits, connecting punctuation and the
joiners. -/
def wordSet : CharSet :=
  unionAll [alphabetic, CharSet.ofTable Tables.categoryMn, CharSet.ofTable Tables.categoryMc,
    CharSet.ofTable Tables.categoryMe, digitSet, CharSet.ofTable Tables.categoryPc,
    CharSet.ofTable Tables.joinControl]

/-! ## Case folding -/

/-- The pairs of a code point and its simple case folding. -/
def foldPairs : List (Nat × Nat) :=
  (readCaseTable Tables.caseFolding).flatMap fun r =>
    (List.range (r.last + 1 - r.first)).filterMap fun k =>
      (r.image? (r.first + k)).map (r.first + k, ·)

/-- The set with all characters that differ from one of its characters only in case. -/
def CharSet.foldCase (s : CharSet) : CharSet :=
  let targets := foldPairs.filterMap fun p =>
    if s.hasCode p.1 || s.hasCode p.2 then some p.2 else none
  let targets := CharSet.ofRanges (targets.map fun n => (n, n))
  let sources := foldPairs.filterMap fun p => if targets.hasCode p.2 then some (p.1, p.1) else none
  CharSet.ofRanges (s.ranges ++ targets.ranges ++ sources)

/-- The set with the other case of its ASCII letters. -/
def CharSet.foldAscii (s : CharSet) : CharSet :=
  let upper := s.inter (CharSet.range 0x41 0x5a)
  let lower := s.inter (CharSet.range 0x61 0x7a)
  CharSet.ofRanges (s.ranges ++ upper.ranges.map (fun r => (r.1 + 32, r.2 + 32))
    ++ lower.ranges.map (fun r => (r.1 - 32, r.2 - 32)))

end TagMachine.Text
