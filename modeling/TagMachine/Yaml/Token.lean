import TagMachine.Yaml.Scalar

set_option autoImplicit false

/-! # Tokens of YAML texts

A text is cut into tokens: scalars, marks, and the starts and ends of blocks that the indentation
of lines makes. A key is known by the `:` behind it, so the tokens that open a mapping and a key
are put in front of what was read already.
-/

namespace TagMachine.Yaml

/-- The tokens of a text. -/
inductive Token where
  | streamEnd
  | version (major minor : Nat)
  | tagHandle (handle stem : List Char)
  | documentStart
  | documentEnd
  | sequenceStart
  | mappingStart
  | blockEnd
  | flowSequenceStart
  | flowSequenceEnd
  | flowMappingStart
  | flowMappingEnd
  | flowEntry
  | blockEntry
  | key
  | value
  | alias (name : List Char)
  | anchor (name : List Char)
  | tag (handle suffix : List Char)
  | scalar (text : List Char) (style : Style)
deriving DecidableEq, Inhabited

/-- A place that may turn out to be the start of a key. -/
structure KeyPlace where
  /-- Whether it has to. -/
  required : Bool
  /-- The number of tokens before it. -/
  tokens : Nat
  place : Cursor

/-- What the scanner knows. -/
structure Scanner where
  cursor : Cursor
  tokens : Array Token := #[]
  /-- The column of the current block, -1 outside of blocks. -/
  indent : Int := -1
  /-- The columns of the blocks around it. -/
  indents : List Int := []
  /-- The possible start of a key on each level of flow collections, innermost first; the last is
  outside of them. -/
  keys : List (Option KeyPlace) := [none]
  /-- Whether a key can start here. -/
  keyAllowed : Bool := true

namespace Scanner

/-- Whether the place is inside a flow collection. -/
def inFlow (s : Scanner) : Bool := 1 < s.keys.length

def push (s : Scanner) (t : Token) : Scanner := { s with tokens := s.tokens.push t }

/-- A token put in front of those from a position on. -/
def insert (s : Scanner) (position : Nat) (t : Token) : Scanner :=
  { s with tokens :=
      s.tokens.extract 0 position ++ #[t] ++ s.tokens.extract position s.tokens.size }

/-- The longest key, in characters. -/
def keyLimit : Nat := 1024

/-- Whether a place is too far behind to be the start of a key. -/
def isStale (s : Scanner) (k : KeyPlace) : Bool :=
  k.place.line < s.cursor.line || k.place.index + keyLimit < s.cursor.index

/-- The places that can no longer start a key dropped. -/
def dropStale (s : Scanner) : Option Scanner :=
  if s.keys.any fun k => k.any fun k => s.isStale k && k.required then none
  else some { s with keys := s.keys.map fun k => k.filter (!s.isStale ·) }

/-- The place on the innermost level dropped. -/
def dropKey (s : Scanner) : Option Scanner :=
  match s.keys with
  | some k :: rest => if k.required then none else some { s with keys := none :: rest }
  | _ => some s

/-- The current place noted as a possible start of a key. -/
def saveKey (s : Scanner) : Option Scanner :=
  if s.keyAllowed then
    s.dropKey.map fun s =>
      let required := !s.inFlow && s.indent == s.cursor.column
      { s with keys := some ⟨required, s.tokens.size, s.cursor⟩ :: s.keys.drop 1 }
  else some s

/-- A block opened at a column, if it lies deeper than the current one. Its token goes to a
position. -/
def openBlock (s : Scanner) (column position : Nat) (t : Token) : Scanner :=
  if !s.inFlow && s.indent < column then
    { s.insert position t with indent := column, indents := s.indent :: s.indents }
  else s

/-- The blocks closed that lie deeper than a column. -/
def closeBlocks (s : Scanner) (column : Int) : Scanner :=
  if s.inFlow then s else go s s.indents
where
  go (s : Scanner) : List Int → Scanner
    | [] => s
    | outer :: rest =>
      if column < s.indent then go { s.push .blockEnd with indent := outer, indents := rest } rest
      else s

/-- White space, comments and line ends passed over, at most `fuel` lines. -/
def skipSpace : Nat → Scanner → Scanner
  | 0, s => s
  | fuel + 1, s =>
    let tabs := s.inFlow || !s.keyAllowed
    let c := s.cursor
    let c := if c.column == 0 && c.rest.head? == some (Char.ofNat 0xfeff) then c.advance 1 else c
    let c := c.skipWhile fun b => b == ' ' || (tabs && b == '\t')
    let c := if c.rest.head? == some '#' then c.skipWhile (!isBreak ·) else c
    if c.rest.head?.any isBreak then
      skipSpace fuel
        { s with cursor := c.takeBreak.2, keyAllowed := s.keyAllowed || !s.inFlow }
    else { s with cursor := c }

/-- A token of some characters at the current place. -/
def mark (s : Scanner) (count : Nat) (t : Token) : Scanner :=
  { s.push t with cursor := s.cursor.advance count }

/-! ## Directives, anchors and tags -/

def endDirective (s : Scanner) (c : Cursor) : Option Scanner :=
  let c := c.skipWhile isBlank
  let c := if c.rest.head? == some '#' then c.skipWhile (!isBreak ·) else c
  if c.rest.head?.any (!isBreak ·) then none else some { s with cursor := c.takeBreak.2 }

/-- A number of at most nine digits. -/
def readVersionPart (c : Cursor) : Option (Nat × Cursor) :=
  let digits := c.rest.takeWhile Char.isDigit
  if digits.isEmpty || 9 < digits.length then none
  else
    some (digits.foldl (fun n d => 10 * n + (d.toNat - '0'.toNat)) 0, c.advance digits.length)

/-- Whether a character can stand in a tag, outside of an escape. -/
def isTagChar (wide : Bool) (c : Char) : Bool :=
  isWordChar c || ";/?:@&=+$.!~*'()".toList.contains c || (wide && ",[]".toList.contains c)

/-- The characters of a tag, with bytes written as `%` and two hexadecimal digits left as they
are. -/
def readTagText (wide : Bool) : List Char → Option (List Char)
  | '%' :: a :: b :: rest =>
    match Text.hexValue? a, Text.hexValue? b with
    | some _, some _ => (readTagText wide rest).map fun t => '%' :: a :: b :: t
    | _, _ => none
  | c :: rest =>
    if c == '%' then none
    else if isTagChar wide c then (readTagText wide rest).map (c :: ·)
    else some []
  | [] => some []

/-- A tag handle: a mark, perhaps a word, perhaps a mark. -/
def readHandle (cs : List Char) : Option (List Char) :=
  match cs with
  | '!' :: rest =>
    let word := rest.takeWhile isWordChar
    match rest.drop word.length with
    | '!' :: _ => some ('!' :: word ++ ['!'])
    | _ => some ('!' :: word)
  | _ => none

def readDirective (s : Scanner) : Option Scanner :=
  let c := s.cursor.advance 1
  let name := c.rest.takeWhile isWordChar
  let c := c.advance name.length
  if name.isEmpty || !endsWord c.rest then none
  else
    let c := c.skipWhile isBlank
    if name == ['Y', 'A', 'M', 'L'] then
      (readVersionPart c).bind fun (major, c) =>
        match c.rest with
        | '.' :: _ =>
          (readVersionPart (c.advance 1)).bind fun (minor, c) =>
            (s.endDirective c).map (·.push (.version major minor))
        | _ => none
    else if name == ['T', 'A', 'G'] then
      (readHandle c.rest).bind fun handle =>
        if handle != ['!'] && handle.getLast? != some '!' then none
        else
          let c := c.advance handle.length
          if !c.rest.head?.any isBlank then none
          else
            let c := c.skipWhile isBlank
            (readTagText true c.rest).bind fun stem =>
              let c := c.advance stem.length
              if stem.isEmpty || !endsWord c.rest then none
              else (s.endDirective c).map (·.push (.tagHandle handle stem))
    else none

/-- Whether a list of characters can follow the name of an anchor. -/
def endsAnchor (cs : List Char) : Bool :=
  endsWord cs || cs.head?.any fun c => "?:,]\x7d%@\x60".toList.contains c

/-- An anchor or an alias at its mark. -/
def readAnchor (s : Scanner) (token : List Char → Token) : Option Scanner :=
  let name := (s.cursor.rest.drop 1).takeWhile isWordChar
  if name.isEmpty || !endsAnchor (s.cursor.rest.drop (1 + name.length)) then none
  else some (s.mark (1 + name.length) (token name))

/-- A tag at its mark: its handle, its suffix and its length. -/
def tagParts (cs : List Char) : Option (List Char × List Char × Nat) :=
  match cs with
  | '!' :: '<' :: rest =>
    (readTagText true rest).bind fun text =>
      if !text.isEmpty && (rest.drop text.length).head? == some '>' then
        some ([], text, text.length + 3)
      else none
  | _ =>
    (readHandle cs).bind fun handle =>
      if 1 < handle.length && handle.getLast? == some '!' then
        (readTagText false (cs.drop handle.length)).bind fun suffix =>
          if suffix.isEmpty then none else some (handle, suffix, handle.length + suffix.length)
      else
        (readTagText false (cs.drop handle.length)).map fun more =>
          let suffix := handle.drop 1 ++ more
          if suffix.isEmpty then ([], ['!'], 1) else (['!'], suffix, 1 + suffix.length)

/-- A tag at its mark. -/
def readTag (s : Scanner) : Option Scanner :=
  (tagParts s.cursor.rest).bind fun (handle, suffix, count) =>
    let rest := s.cursor.rest.drop count
    if endsWord rest || (s.inFlow && rest.head? == some ',') then
      some (s.mark count (.tag handle suffix))
    else none

/-! ## Marks -/

/-- The start of a flow collection. -/
def openFlow (s : Scanner) (t : Token) : Option Scanner :=
  s.saveKey.map fun s =>
    { s.mark 1 t with keys := none :: s.keys, keyAllowed := true }

/-- The end of a flow collection. -/
def closeFlow (s : Scanner) (t : Token) : Option Scanner :=
  s.dropKey.map fun s =>
    { s.mark 1 t with keys := if s.inFlow then s.keys.drop 1 else s.keys, keyAllowed := false }

/-- The mark between the entries of a flow collection. -/
def nextFlow (s : Scanner) : Option Scanner :=
  s.dropKey.map fun s => { s.mark 1 .flowEntry with keyAllowed := true }

/-- The mark of an entry of a block sequence. -/
def blockEntry (s : Scanner) : Option Scanner :=
  if !s.inFlow && !s.keyAllowed then none
  else
    (s.openBlock s.cursor.column s.tokens.size .sequenceStart).dropKey.map fun s =>
      { s.mark 1 .blockEntry with keyAllowed := true }

def keyMark (s : Scanner) : Option Scanner :=
  if !s.inFlow && !s.keyAllowed then none
  else
    (s.openBlock s.cursor.column s.tokens.size .mappingStart).dropKey.map fun s =>
      { s.mark 1 .key with keyAllowed := !s.inFlow }

/-- The mark of a value, which makes a key of what a possible key was noted for. -/
def valueMark (s : Scanner) : Option Scanner :=
  match s.keys with
  | some k :: rest =>
    let s := { s.insert k.tokens .key with keys := none :: rest }
    let s := s.openBlock k.place.column k.tokens .mappingStart
    some { s.mark 1 .value with keyAllowed := false }
  | _ =>
    if !s.inFlow && !s.keyAllowed then none
    else
      let s := s.openBlock s.cursor.column s.tokens.size .mappingStart
      some { s.mark 1 .value with keyAllowed := !s.inFlow }

/-- A mark that starts or ends a document. -/
def documentMark (s : Scanner) (t : Token) : Option Scanner :=
  (s.closeBlocks (-1)).dropKey.map fun s => { s.mark 3 t with keyAllowed := false }

/-- The end of the text. -/
def endStream (s : Scanner) : Option Scanner :=
  (s.closeBlocks (-1)).dropKey.map (·.push .streamEnd)

/-! ## Scalars -/

/-- A scalar in quotation marks. -/
def quoted (s : Scanner) (single : Bool) : Option Scanner :=
  s.saveKey.bind fun s =>
    (readQuoted single s.cursor).map fun (text, c) =>
      { s.push (.scalar text (if single then .single else .double)) with
        cursor := c, keyAllowed := false }

/-- A block scalar. -/
def block (s : Scanner) (literal : Bool) : Option Scanner :=
  s.dropKey.bind fun s =>
    (readBlock literal s.indent s.cursor).map fun (text, c) =>
      { s.push (.scalar text (if literal then .literal else .folded)) with
        cursor := c, keyAllowed := true }

/-- A plain scalar. -/
def plain (s : Scanner) : Option Scanner :=
  s.saveKey.bind fun s =>
    (readPlain s.inFlow s.indent s.cursor).map fun (text, broken, c) =>
      { s.push (.scalar text .plain) with cursor := c, keyAllowed := broken }

/-- The characters that have a meaning of their own. -/
def isIndicator (c : Char) : Bool := "-?:,[]\x7b\x7d#&*!|>'\"%@\x60".toList.contains c

/-- Whether a plain scalar can start with a character. -/
def startsPlain (s : Scanner) (c : Char) (rest : List Char) : Bool :=
  (!isBlank c && !isIndicator c)
    || (c == '-' && !(rest.head?.any isBlank))
    || (!s.inFlow && (c == '?' || c == ':') && !endsWord rest)

/-- The next token at a place that is no white space. -/
def token (s : Scanner) (c : Char) (rest : List Char) : Option Scanner :=
  if s.cursor.column == 0 && c == '%' then
    (s.closeBlocks (-1)).dropKey.bind fun s => { s with keyAllowed := false }.readDirective
  else if s.cursor.atMark ['-', '-', '-'] then s.documentMark .documentStart
  else if s.cursor.atMark ['.', '.', '.'] then s.documentMark .documentEnd
  else if c == '[' then s.openFlow .flowSequenceStart
  else if c == '\x7b' then s.openFlow .flowMappingStart
  else if c == ']' then s.closeFlow .flowSequenceEnd
  else if c == '\x7d' then s.closeFlow .flowMappingEnd
  else if c == ',' then s.nextFlow
  else if c == '-' && endsWord rest then s.blockEntry
  else if c == '?' && (s.inFlow || endsWord rest) then s.keyMark
  else if c == ':' && (s.inFlow || endsWord rest) then s.valueMark
  else if c == '*' then s.saveKey.bind fun s => { s with keyAllowed := false }.readAnchor .alias
  else if c == '&' then s.saveKey.bind fun s => { s with keyAllowed := false }.readAnchor .anchor
  else if c == '!' then s.saveKey.bind fun s => { s with keyAllowed := false }.readTag
  else if c == '|' && !s.inFlow then s.block true
  else if c == '>' && !s.inFlow then s.block false
  else if c == '\'' then s.quoted true
  else if c == '"' then s.quoted false
  else if s.startsPlain c rest then s.plain
  else none

/-- All tokens from the current place on. -/
def tokensFrom : Nat → Scanner → Option (List Token)
  | 0, _ => none
  | fuel + 1, s =>
    ((s.skipSpace (s.cursor.rest.length + 1)).dropStale).bind fun s =>
      let s := s.closeBlocks s.cursor.column
      match s.cursor.rest with
      | [] => s.endStream.map (·.tokens.toList)
      | c :: rest => (s.token c rest).bind (tokensFrom fuel)

end Scanner

/-- The tokens of a text, unless it is no YAML text. -/
def tokens? (text : String) : Option (List Token) :=
  let cs := text.toList
  let cs := if cs.head? == some (Char.ofNat 0xfeff) then cs.drop 1 else cs
  if cs.all isAllowed then Scanner.tokensFrom (cs.length + 2) { cursor := { rest := cs } }
  else none

end TagMachine.Yaml
