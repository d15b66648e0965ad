import TagMachine.Text.Hex
import TagMachine.Yaml.Cursor

set_option autoImplicit false

/-! # Scalars of YAML texts

A scalar is plain, in single or double quotation marks, or a block of lines that are kept
(literal) or joined (folded). A line end inside a plain or quoted scalar is read as a space, and
further empty lines as line ends.
-/

namespace TagMachine.Yaml

/-- How a scalar is written. -/
inductive Style where
  | plain
  | single
  | double
  | literal
  | folded
deriving DecidableEq, Inhabited

/-! ## White space between words -/

/-- The white space between two words of a scalar. -/
structure Gap where
  /-- The blanks, if the line does not end. -/
  blanks : List Char := []
  /-- The first line end. -/
  first : List Char := []
  /-- The line ends after the first. -/
  more : List Char := []
  /-- Whether a line ends. -/
  broken : Bool := false
deriving Inhabited

/-- The text that white space between words stands for. -/
def Gap.text (g : Gap) : List Char :=
  if !g.broken then g.blanks
  else if g.first == ['\n'] then if g.more.isEmpty then [' '] else g.more
  else g.first ++ g.more

/-- White space after a gap that was read already. At the start of a line, tabs may not stand
before the column `indent`. -/
def readGap (indent : Int) : Nat → Gap → Cursor → Option (Gap × Cursor)
  | 0, _, _ => none
  | fuel + 1, g, c =>
    match c.rest with
    | [] => some (g, c)
    | b :: _ =>
      if isBlank b then
        if g.broken && c.column < indent && b == '\t' then none
        else
          let g := if g.broken then g else { g with blanks := g.blanks ++ [b] }
          readGap indent fuel g (c.advance 1)
      else if isBreak b then
        let (text, c) := c.takeBreak
        let g := if g.broken then { g with more := g.more ++ text }
          else { blanks := [], first := text, more := [], broken := true }
        readGap indent fuel g c
      else some (g, c)

/-! ## Plain scalars -/

def isFlowMark (c : Char) : Bool := c == ',' || c == '[' || c == ']' || c == '\x7b' || c == '\x7d'

/-- The characters of a plain scalar up to the next white space or the mark that ends it. -/
def plainWord (flow : Bool) : List Char → Option (List Char)
  | [] => some []
  | c :: rest =>
    if isBlank c || isBreak c then some []
    else if flow && c == ':' && rest.head?.any fun d => isFlowMark d || d == '?' then none
    else if c == ':' && endsWord rest then some []
    else if flow && isFlowMark c then some []
    else (plainWord flow rest).map (c :: ·)

/-- A plain scalar after `done` and a gap. The result says whether the scalar is followed by a
line end. -/
def plainFrom (flow : Bool) (indent : Int) :
    Nat → List Char → Gap → Cursor → Option (List Char × Bool × Cursor)
  | 0, _, _, _ => none
  | fuel + 1, done, g, c =>
    if c.atDocumentMark || c.rest.head? == some '#' then some (done, g.broken, c)
    else
      (plainWord flow c.rest).bind fun word =>
        let (done, g) := if word.isEmpty then (done, g) else (done ++ g.text ++ word, {})
        let c := c.advance word.length
        match c.rest with
        | [] => some (done, g.broken, c)
        | b :: _ =>
          if isBlank b || isBreak b then
            (readGap indent (c.rest.length + 1) g c).bind fun (g, c) =>
              if !flow && c.column < indent then some (done, g.broken, c)
              else plainFrom flow indent fuel done g c
          else some (done, g.broken, c)

/-- A plain scalar inside a block that is indented to a column. -/
def readPlain (flow : Bool) (indent : Int) (c : Cursor) : Option (List Char × Bool × Cursor) :=
  plainFrom flow (indent + 1) (c.rest.length + 1) [] {} c

/-! ## Quoted scalars -/

/-- The character that a letter stands for after a backslash. -/
def escaped? : Char → Option Char
  | '0' => some '\x00'
  | 'a' => some '\x07'
  | 'b' => some '\x08'
  | 't' => some '\t'
  | '\t' => some '\t'
  | 'n' => some '\n'
  | 'v' => some '\x0b'
  | 'f' => some '\x0c'
  | 'r' => some '\r'
  | 'e' => some '\x1b'
  | ' ' => some ' '
  | '"' => some '"'
  | '/' => some '/'
  | '\\' => some '\\'
  | 'N' => some (Char.ofNat 0x85)
  | '_' => some (Char.ofNat 0xa0)
  | 'L' => some (Char.ofNat 0x2028)
  | 'P' => some (Char.ofNat 0x2029)
  | _ => none

/-- The number of hexadecimal digits after an escape letter. -/
def escapeDigits? : Char → Option Nat
  | 'x' => some 2
  | 'u' => some 4
  | 'U' => some 8
  | _ => none

/-- The character with a hexadecimal number. -/
def charOfHex? (digits : List Char) : Option Char :=
  (digits.mapM Text.hexValue?).bind fun values =>
    let n := values.foldl (fun n d => 16 * n + d) 0
    if n.isValidChar then some (Char.ofNat n) else none

/-- An escape behind its backslash: its character and its length. -/
def readEscape? : List Char → Option (Char × Nat)
  | [] => none
  | c :: rest =>
    match escapeDigits? c with
    | some n =>
      if (rest.take n).length = n then (charOfHex? (rest.take n)).map fun d => (d, n + 1) else none
    | none => (escaped? c).map fun d => (d, 1)

/-- How a run of characters without white space ends inside a quoted scalar. -/
inductive RunEnd where
  /-- At the closing mark, at white space or at the end of the text. -/
  | plain
  /-- At a line end behind a backslash. -/
  | escapedBreak

/-- The characters of a quoted scalar up to white space or the closing mark, after `done`. -/
def quotedRun (single : Bool) : Nat → List Char → Cursor → Option (List Char × RunEnd × Cursor)
  | 0, _, _ => none
  | fuel + 1, done, c =>
    match single, c.rest with
    | _, [] => some (done, .plain, c)
    | true, '\'' :: '\'' :: _ => quotedRun single fuel (done ++ ['\'']) (c.advance 2)
    | true, '\'' :: _ => some (done, .plain, c)
    | false, '"' :: _ => some (done, .plain, c)
    | false, '\\' :: rest =>
      if rest.head?.any isBreak then some (done, .escapedBreak, (c.advance 1).takeBreak.2)
      else
        (readEscape? rest).bind fun (d, n) =>
          quotedRun single fuel (done ++ [d]) (c.advance (n + 1))
    | _, d :: _ =>
      if isBlank d || isBreak d then some (done, .plain, c)
      else quotedRun single fuel (done ++ [d]) (c.advance 1)

/-- A quoted scalar behind its opening mark, after `done`. -/
def quotedFrom (single : Bool) : Nat → List Char → Cursor → Option (List Char × Cursor)
  | 0, _, _ => none
  | fuel + 1, done, c =>
    if c.atDocumentMark || c.rest.isEmpty then none
    else
      (quotedRun single (c.rest.length + 1) done c).bind fun (done, ending, c) =>
        let (g, closed) : Gap × Bool :=
          match ending with
          | .escapedBreak => ({ broken := true }, false)
          | .plain => ({}, c.rest.head? == some (if single then '\'' else '"'))
        if closed then some (done, c.advance 1)
        else
          (readGap 0 (c.rest.length + 1) g c).bind fun (g, c) =>
            quotedFrom single fuel (done ++ g.text) c

/-- A quoted scalar at its opening mark. -/
def readQuoted (single : Bool) (c : Cursor) : Option (List Char × Cursor) :=
  quotedFrom single (c.rest.length + 2) [] (c.advance 1)

/-! ## Block scalars -/

/-- What happens to the line ends at the end of a block scalar. -/
inductive Chomping where
  | strip
  | clip
  | keep
deriving DecidableEq

/-- The chomping that a mark asks for. -/
def chomping? : Char → Option Chomping
  | '+' => some .keep
  | '-' => some .strip
  | _ => none

def indentDigit? (c : Char) : Option Nat :=
  if c.isDigit && c != '0' then some (c.toNat - '0'.toNat) else none

/-- The chomping and the indentation behind the mark of a block scalar, in either order, and the
number of their characters. -/
def blockHeader (cs : List Char) : Option (Chomping × Option Nat × Nat) :=
  match cs with
  | a :: b :: _ =>
    match chomping? a, indentDigit? a, chomping? b, indentDigit? b with
    | some ch, _, _, some n => some (ch, some n, 2)
    | _, some n, some ch, _ => some (ch, some n, 2)
    | some ch, _, _, none => if b == '0' then none else some (ch, none, 1)
    | none, some n, none, _ => some (.clip, some n, 1)
    | none, none, _, _ => if a == '0' then none else some (.clip, none, 0)
  | [a] =>
    match chomping? a, indentDigit? a with
    | some ch, _ => some (ch, none, 1)
    | none, some n => some (.clip, some n, 1)
    | none, none => if a == '0' then none else some (.clip, none, 0)
  | [] => some (.clip, none, 0)

/-- The empty lines of a block scalar before its next line, and the largest column reached in
them. With `indent = 0` the indentation is not known yet. -/
def blockBreaks (indent : Nat) : Nat → List Char → Nat → Cursor →
    Option (List Char × Nat × Cursor)
  | 0, _, _, _ => none
  | fuel + 1, breaks, deepest, c =>
    let spaces := (c.rest.takeWhile (· == ' ')).length
    let c := c.advance (if indent = 0 then spaces else min spaces (indent - c.column))
    let deepest := max deepest c.column
    match c.rest with
    | [] => some (breaks, deepest, c)
    | b :: _ =>
      if b == '\t' && (indent = 0 || c.column < indent) then none
      else if isBreak b then
        let (text, c) := c.takeBreak
        blockBreaks indent fuel (breaks ++ text) deepest c
      else some (breaks, deepest, c)

/-- What a block scalar has read so far. -/
structure BlockText where
  done : List Char := []
  /-- The end of the last line. -/
  lineEnd : List Char := []
  /-- The empty lines after it. -/
  breaks : List Char := []
  /-- Whether the last line starts with white space. -/
  indented : Bool := false

/-- The text between the last line and the next, which starts with white space if `blank`. -/
def BlockText.joint (t : BlockText) (literal blank : Bool) : List Char :=
  if !literal && t.lineEnd == ['\n'] && !t.indented && !blank then
    (if t.breaks.isEmpty then [' '] else []) ++ t.breaks
  else t.lineEnd ++ t.breaks

/-- The lines of a block scalar that is indented to a column. -/
def blockLines (literal : Bool) (indent : Nat) :
    Nat → BlockText → Cursor → Option (BlockText × Cursor)
  | 0, _, _ => none
  | fuel + 1, t, c =>
    if c.column ≠ indent || c.rest.isEmpty then some (t, c)
    else
      let blank := c.rest.head?.any isBlank
      let line := c.rest.takeWhile (!isBreak ·)
      let done := t.done ++ t.joint literal blank ++ line
      let (lineEnd, c) := (c.advance line.length).takeBreak
      (blockBreaks indent (c.rest.length + 1) [] 0 c).bind fun (breaks, _, c) =>
        blockLines literal indent fuel ⟨done, lineEnd, breaks, blank⟩ c

/-- A block scalar at its mark, inside a block that is indented to the column `outer`. -/
def readBlock (literal : Bool) (outer : Int) (c : Cursor) : Option (List Char × Cursor) :=
  (blockHeader (c.rest.drop 1)).bind fun (chomping, given, count) =>
    let c := (c.advance (count + 1)).skipWhile isBlank
    let c := if c.rest.head? == some '#' then c.skipWhile (!isBreak ·) else c
    if c.rest.head?.any (!isBreak ·) then none
    else
      let c := c.takeBreak.2
      let base := max outer 0
      let known := match given with
        | some n => base.toNat + n
        | none => 0
      (blockBreaks known (c.rest.length + 1) [] 0 c).bind fun (breaks, deepest, c) =>
        let indent := if known ≠ 0 then known else max (max deepest (outer + 1).toNat) 1
        (blockLines literal indent (c.rest.length + 1) { breaks } c).map fun (t, c) =>
          let tail := match chomping with
            | .strip => []
            | .clip => t.lineEnd
            | .keep => t.lineEnd ++ t.breaks
          (t.done ++ tail, c)

end TagMachine.Yaml
