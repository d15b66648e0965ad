import TagMachine.Pattern.Bracket

set_option autoImplicit false

/-! # Reading patterns

`Pattern.tree?` gives the tree of a regular expression, or none when it is not well formed. Only
what the pattern matches is kept; the names of groups must differ but are not used. How the symbols
are read that stand for sets of characters is left open (`Vocabulary`).
-/

namespace TagMachine.Pattern

open Text (CharSet)

/-- A part of a sequence. -/
structure Item where
  node : Node
  /-- The number of levels of the part. -/
  height : Nat := 0
  /-- Whether a repetition may follow. -/
  repeatable : Bool := true

/-- Parts one after another, given in reverse. -/
def joinItems (items : List Item) : Item :=
  match items with
  | [] => ⟨.empty, 0, true⟩
  | [i] => i
  | _ => ⟨.seq (items.reverse.map (·.node)), (items.map (·.height)).foldl max 0 + 1, true⟩

/-- Alternatives, given in reverse. -/
def joinBranches (branches : List Item) : Item :=
  match branches with
  | [b] => b
  | _ => ⟨.alt (branches.reverse.map (·.node)), (branches.map (·.height)).foldl max 0 + 1, true⟩

/-- A repetition. Of what matches only the empty text, one match is as good as many; and no match
of something is the empty text. -/
def repeated (min : Nat) (max : Option Nat) (greedy : Bool) (i : Item) : Item :=
  let node :=
    if max = some 0 then .empty
    else if i.node.onlyEmpty then .rep (Nat.min min 1) (some (1 - min)) greedy i.node
    else .rep min (max.map (· - min)) greedy i.node
  ⟨node, i.height + 1, true⟩

/-- What is left to read, the flags, and the names of groups. -/
structure State where
  rest : List Char
  flags : Flags
  names : List String := []

/-! ## Symbols -/

/-- How the symbols are read that stand for sets of characters and for conditions. -/
class Vocabulary where
  /-- What stands behind a backslash. -/
  escape : Flags → List Char → Option (Symbol × List Char)
  /-- A class behind its opening bracket, with its number of levels. -/
  bracket : Flags → List Char → Option (CharSet × Nat × List Char)

/-- The symbols with classes by general category, script and the binary properties of the tables. -/
abbrev Vocabulary.standard : Vocabulary where
  escape := readEscape?
  bracket f rest := readBracket? (2 * rest.length + 2) f rest

variable [Vocabulary]

/-- A set of characters as a part, when it holds characters only. -/
def setItem? (f : Flags) (s : CharSet) : Option Item :=
  if !f.unicode && s.exceeds 0x7f then none else some ⟨.set s, 0, true⟩

/-- A character as a part. -/
def literalItem? (f : Flags) (c : Char) (byte : Bool) : Option Item :=
  if byte && !f.unicode && 0x7f < c.toNat then none
  else some ⟨.set (foldAndNegate f false (CharSet.single c)), 0, true⟩

/-- A symbol as a part. -/
def symbolItem? (f : Flags) : Symbol → Option Item
  | .literal c byte => literalItem? f c byte
  | .set s => setItem? f s
  | .look l => some ⟨.look l f.unicode, 0, true⟩

/-- The dot: any character, or any that does not end a line. -/
def dotItem? (f : Flags) : Option Item :=
  if !f.unicode then none
  else if f.dotNewline then some ⟨.set .all, 0, true⟩
  else if f.carriageReturn then
    some ⟨.set (CharSet.ofRanges [(0x0a, 0x0a), (0x0d, 0x0d)]).complement, 0, true⟩
  else some ⟨.set (CharSet.single '\n').complement, 0, true⟩

def lineStart (f : Flags) : Look :=
  if f.multiLine then if f.carriageReturn then .lineStartCr else .lineStart else .textStart

def lineEnd (f : Flags) : Look :=
  if f.multiLine then if f.carriageReturn then .lineEndCr else .lineEnd else .textEnd

/-- A symbol at the start of a list. -/
def readPrimitive? (f : Flags) (cs : List Char) : Option (Item × List Char) :=
  match cs with
  | [] => none
  | '\\' :: rest =>
    match Vocabulary.escape f rest with
    | some (symbol, rest) => (symbolItem? f symbol).map (·, rest)
    | none => none
  | '.' :: rest => (dotItem? f).map (·, rest)
  | '^' :: rest => some (⟨.look (lineStart f) f.unicode, 0, true⟩, rest)
  | '$' :: rest => some (⟨.look (lineEnd f) f.unicode, 0, true⟩, rest)
  | c :: rest => (literalItem? f c false).map (·, rest)

/-! ## Repetitions -/

/-- Whether a question mark follows, and the rest after it. -/
def readLazy (cs : List Char) : Bool × List Char :=
  match cs with
  | '?' :: rest => (true, rest)
  | _ => (false, cs)

/-- Decimal digits after those of `done`; `fuel` bounds their number. -/
def countDigits (f : Flags) (fuel : Nat) (done : List Char) (cs : List Char) :
    List Char × List Char :=
  match fuel, cs with
  | fuel + 1, c :: rest =>
    if c.isDigit then countDigits f fuel (c :: done) (skip f rest) else (done.reverse, cs)
  | _, _ => (done.reverse, cs)

/-- A count between blanks; none when it has no digits or does not fit 32 bits. -/
def readCount (f : Flags) (cs : List Char) : Option Nat × List Char :=
  let cs := cs.dropWhile Text.isBlank
  let (digits, rest) := countDigits f cs.length [] cs
  let n := digits.foldl (fun n c => 10 * n + (c.toNat - '0'.toNat)) 0
  (if digits.isEmpty || Nat.pow 2 32 ≤ n then none else some n,
    skip f (rest.dropWhile Text.isBlank))

/-- The counts of a repetition behind its opening brace, and the rest behind the closing one. -/
def readCounts? (f : Flags) (cs : List Char) : Option (Nat × Option Nat × List Char) :=
  match readCount f (skip f cs) with
  | (some min, '\x7d' :: rest) => some (min, some min, rest)
  | (some min, ',' :: rest) =>
    match skip f rest with
    | '\x7d' :: rest => some (min, none, rest)
    | rest =>
      match readCount f rest with
      | (some max, '\x7d' :: rest) => if min ≤ max then some (min, some max, rest) else none
      | _ => none
  | _ => none

/-- The parts after the last one is repeated, if it can be. -/
def repeatLast? (f : Flags) (min : Nat) (max : Option Nat) (isLazy : Bool) (items : List Item) :
    Option (List Item) :=
  match items with
  | [] => none
  | i :: before =>
    if i.repeatable then some (repeated min max (isLazy == f.swapGreed) i :: before) else none

/-! ## Groups -/

/-- Whether a group captures what it matches, and under which name. -/
inductive Capture where
  | none
  | unnamed
  | named (name : String)

def Capture.name? : Capture → Option String
  | named name => some name
  | _ => Option.none

/-- A group as a part. A capture is marked at both ends. -/
def groupItem (capture : Capture) (body : Item) : Item :=
  let node :=
    match capture with
    | .none => body.node
    | _ => .seq [.empty, body.node, .empty]
  ⟨node, body.height + 1, true⟩

/-- How a group begins. -/
inductive Opening where
  /-- Flags for the rest of the enclosing group. -/
  | flags (f : Flags) (rest : List Char)
  | group (f : Flags) (capture : Capture) (rest : List Char)

/-- Whether a character can stand in the name of a group. -/
def isNameChar (first : Bool) (c : Char) : Bool :=
  c == '_' || if first then Text.alphabetic.contains c
    else c == '.' || c == '[' || c == ']' || Text.alphanumeric.contains c

/-- A name of a group and the rest behind its closing angle bracket. -/
def readName? (cs : List Char) : Option (String × List Char) :=
  match cs.span (· != '>') with
  | (first :: more, _ :: rest) =>
    if isNameChar true first && more.all (isNameChar false) then
      some (String.ofList (first :: more), rest)
    else none
  | _ => none

/-- The beginning of a group behind its opening parenthesis. -/
def readOpening? (f : Flags) (cs : List Char) : Option Opening :=
  let named (rest : List Char) : Option Opening :=
    (readName? rest).map fun p => .group f (.named p.1) p.2
  match skip f cs with
  | '?' :: '=' :: _ => none
  | '?' :: '!' :: _ => none
  | '?' :: '<' :: '=' :: _ => none
  | '?' :: '<' :: '!' :: _ => none
  | '?' :: 'P' :: '<' :: rest => named rest
  | '?' :: '<' :: rest => named rest
  | '?' :: rest =>
    match readFlags { flags := f } rest with
    | some (inner, _, true, rest) => some (.group inner .none rest)
    | some (inner, true, false, rest) => some (.flags inner rest)
    | _ => none
  | rest => some (.group f .unnamed rest)

/-! ## Sequences -/

/-- Alternatives up to the end of the pattern or, inside a group, of the group. Every step takes
a character, so `fuel` need not exceed their number by more than one. -/
def readBranches? (fuel : Nat) (inGroup : Bool) (branches items : List Item) (st : State) :
    Option (Item × State) :=
  match fuel with
  | 0 => none
  | fuel + 1 =>
    let f := st.flags
    let next (items : List Item) (rest : List Char) : Option (Item × State) :=
      readBranches? fuel inGroup branches items { st with rest := rest }
    let close (rest : List Char) : Option (Item × State) :=
      some (joinBranches (joinItems items :: branches), { st with rest := rest })
    let repeatWith (min : Nat) (max : Option Nat) (rest : List Char) : Option (Item × State) :=
      let (isLazy, rest) := readLazy rest
      match repeatLast? f min max isLazy items with
      | some items => next items rest
      | none => none
    match skip f st.rest with
    | [] => if inGroup then none else close []
    | ')' :: rest => if inGroup then close rest else none
    | '|' :: rest =>
      readBranches? fuel inGroup (joinItems items :: branches) [] { st with rest := rest }
    | '(' :: rest =>
      match readOpening? f rest with
      | none => none
      | some (.flags inner rest) =>
        readBranches? fuel inGroup branches (⟨.empty, 0, false⟩ :: items)
          { st with rest := rest, flags := inner }
      | some (.group inner capture rest) =>
        if capture.name?.any st.names.contains then none
        else
          match readBranches? fuel true [] [] ⟨rest, inner, capture.name?.toList ++ st.names⟩ with
          | none => none
          | some (body, after) =>
            readBranches? fuel inGroup branches (groupItem capture body :: items)
              { after with flags := f }
    | '[' :: rest =>
      match Vocabulary.bracket f rest with
      | none => none
      | some (s, height, rest) =>
        match setItem? f s with
        | some i => next ({ i with height := height } :: items) rest
        | none => none
    | '?' :: rest => repeatWith 0 (some 1) rest
    | '*' :: rest => repeatWith 0 none rest
    | '+' :: rest => repeatWith 1 none rest
    | '\x7b' :: rest =>
      match readCounts? f rest with
      | some (min, max, rest) => repeatWith min max (skip f rest)
      | none => none
    | cs =>
      match readPrimitive? f cs with
      | some (i, rest) => next (i :: items) rest
      | none => none

/-- The tree of a regular expression that is well formed, with its number of levels. -/
def tree? (pattern : String) : Option Item :=
  let cs := pattern.toList
  (readBranches? (cs.length + 1) false [] [] ⟨cs, {}, []⟩).map Prod.fst

end TagMachine.Pattern
