import TagMachine.Yaml.Token

set_option autoImplicit false

/-! # Nodes of YAML texts

The tokens of a text are read as a tree of scalars, sequences and mappings. An alias stands for
the scalar that it names; for a collection it stands for an empty one of its kind, because only
its kind is of use.
-/

namespace TagMachine.Yaml

/-- A node of a YAML text. -/
inductive Node where
  | scalar (text : String) (style : Style) (tag : Option String)
  | sequence (items : List Node)
  | mapping (fields : List (Node × Node))

instance : Inhabited Node := ⟨.sequence []⟩

def Node.empty : Node := .scalar "" .plain none

/-- What the reader of nodes knows. -/
structure Reading where
  tokens : List Token
  /-- The nodes by their anchors, latest first. -/
  anchors : List (List Char × Node) := []
  /-- The stems of tags by their handles. -/
  handles : List (List Char × List Char) := []

/-- Something that reads a node off the front of the tokens. -/
abbrev Parse (α : Type) := StateT Reading Option α

namespace Parse

/-- The next token, which stays. -/
def peek : Parse Token := do return (← get).tokens.headD .streamEnd

/-- The next token passed over. -/
def skip : Parse Unit := modify fun s => { s with tokens := s.tokens.drop 1 }

/-- The next token passed over if it is the given one. -/
def accept (t : Token) : Parse Bool := do
  if (← peek) = t then
    skip
    return true
  else return false

/-- The next token passed over, which must be the given one. -/
def expect (t : Token) : Parse Unit := do
  if !(← accept t) then failure

def note (anchor : Option (List Char)) (n : Node) : Parse Unit :=
  match anchor with
  | some name => modify fun s => { s with anchors := (name, n) :: s.anchors }
  | none => return ()

/-- An anchor and a tag in either order, each of which may be missing. -/
def properties : Parse (Option (List Char) × Option (List Char × List Char)) := do
  match ← peek with
  | .anchor name =>
    skip
    match ← peek with
    | .tag handle suffix =>
      skip
      return (some name, some (handle, suffix))
    | _ => return (some name, none)
  | .tag handle suffix =>
    skip
    match ← peek with
    | .anchor name =>
      skip
      return (some name, some (handle, suffix))
    | _ => return (none, some (handle, suffix))
  | _ => return (none, none)

def coreStem : String := "tag:yaml.org,2002:"

/-- The full text of a tag, whose handle must be known. -/
def resolve (tag : Option (List Char × List Char)) : Parse (Option String) := do
  match tag with
  | none => return none
  | some ([], suffix) => return some (String.ofList suffix)
  | some (handle, suffix) =>
    match (← get).handles.lookup handle with
    | some stem => return some (String.ofList (stem ++ suffix))
    | none =>
      if handle == ['!'] then return some (String.ofList ('!' :: suffix))
      else if handle == ['!', '!'] then return some (coreStem ++ String.ofList suffix)
      else failure

/-- A node if the next token is none of the given ones, else the empty node. -/
def orEmpty (stops : List Token) (node : Parse Node) : Parse Node := do
  if stops.contains (← peek) then return .empty else node

mutual

/-- A node. Blocks may open only if `block`, and a sequence without indentation only if `bare`. -/
def node : Nat → Bool → Bool → Parse Node
  | 0, _, _ => failure
  | fuel + 1, block, bare => do
    match ← peek with
    | .alias name =>
      skip
      match (← get).anchors.lookup name with
      | some n => return n
      | none => failure
    | _ =>
      let (anchor, tag) ← properties
      let marked := anchor.isSome || tag.isSome
      let tag ← resolve tag
      match ← peek with
      | .scalar text style =>
        skip
        let n := Node.scalar (String.ofList text) style tag
        note anchor n
        return n
      | .flowSequenceStart =>
        skip
        note anchor (.sequence [])
        return .sequence (← flowItems fuel true)
      | .flowMappingStart =>
        skip
        note anchor (.mapping [])
        return .mapping (← flowFields fuel true)
      | .blockEntry =>
        if bare then
          note anchor (.sequence [])
          return .sequence (← bareItems fuel)
        else content fuel block marked anchor tag
      | _ => content fuel block marked anchor tag

/-- A block, or the empty node behind an anchor or a tag. -/
def content : Nat → Bool → Bool → Option (List Char) → Option String → Parse Node
  | 0, _, _, _, _ => failure
  | fuel + 1, block, marked, anchor, tag => do
    let t ← peek
    if block && t = .sequenceStart then
      skip
      note anchor (.sequence [])
      return .sequence (← blockItems fuel)
    else if block && t = .mappingStart then
      skip
      note anchor (.mapping [])
      return .mapping (← blockFields fuel)
    else if marked then
      let n := Node.scalar "" .plain tag
      note anchor n
      return n
    else failure

/-- The entries of a block sequence up to its end. -/
def blockItems : Nat → Parse (List Node)
  | 0 => failure
  | fuel + 1 => do
    if ← accept .blockEntry then
      let n ← orEmpty [.blockEntry, .blockEnd] (node fuel true false)
      return n :: (← blockItems fuel)
    else
      expect .blockEnd
      return []

/-- The entries of a sequence without indentation. -/
def bareItems : Nat → Parse (List Node)
  | 0 => failure
  | fuel + 1 => do
    if ← accept .blockEntry then
      let n ← orEmpty [.blockEntry, .key, .value, .blockEnd] (node fuel true false)
      return n :: (← bareItems fuel)
    else return []

/-- The fields of a block mapping up to its end. -/
def blockFields : Nat → Parse (List (Node × Node))
  | 0 => failure
  | fuel + 1 => do
    if ← accept .key then
      let k ← orEmpty [.key, .value, .blockEnd] (node fuel true true)
      let v ← blockValue fuel
      return (k, v) :: (← blockFields fuel)
    else
      expect .blockEnd
      return []

/-- The value of a field of a block mapping. -/
def blockValue : Nat → Parse Node
  | 0 => failure
  | fuel + 1 => do
    if ← accept .value then orEmpty [.key, .value, .blockEnd] (node fuel true true)
    else return .empty

/-- The entries of a flow sequence up to its end. -/
def flowItems : Nat → Bool → Parse (List Node)
  | 0, _ => failure
  | fuel + 1, first => do
    if ← accept .flowSequenceEnd then return []
    if !first then expect .flowEntry
    if ← accept .flowSequenceEnd then return []
    let n ←
      if ← accept .key then
        let k ← orEmpty [.value, .flowEntry, .flowSequenceEnd] (node fuel false false)
        let v ← flowValue fuel .flowSequenceEnd
        pure (Node.mapping [(k, v)])
      else node fuel false false
    return n :: (← flowItems fuel false)

/-- The fields of a flow mapping up to its end. -/
def flowFields : Nat → Bool → Parse (List (Node × Node))
  | 0, _ => failure
  | fuel + 1, first => do
    if ← accept .flowMappingEnd then return []
    if !first then expect .flowEntry
    if ← accept .flowMappingEnd then return []
    let field ←
      if ← accept .key then
        let k ← orEmpty [.value, .flowEntry, .flowMappingEnd] (node fuel false false)
        let v ← flowValue fuel .flowMappingEnd
        pure (k, v)
      else
        let k ← node fuel false false
        pure (k, Node.empty)
    return field :: (← flowFields fuel false)

/-- The value of a field of a flow collection that ends with a token. -/
def flowValue : Nat → Token → Parse Node
  | 0, _ => failure
  | fuel + 1, stop => do
    if ← accept .value then orEmpty [.flowEntry, stop] (node fuel false false)
    else return .empty

end

/-- The directives of a document. -/
def directives : Nat → Bool → Parse Unit
  | 0, _ => failure
  | fuel + 1, versioned => do
    match ← peek with
    | .version major minor =>
      if versioned || major ≠ 1 || (minor ≠ 1 && minor ≠ 2) then failure
      skip
      directives fuel true
    | .tagHandle handle stem =>
      if ((← get).handles.lookup handle).isSome then failure
      skip
      modify fun s => { s with handles := (handle, stem) :: s.handles }
      directives fuel versioned
    | _ => return ()

/-- The tokens passed over that end a document. -/
def documentEnds : Nat → Parse Unit
  | 0 => return ()
  | fuel + 1 => do if ← accept .documentEnd then documentEnds fuel

/-- The only document of a text, if it has one. -/
def document (fuel : Nat) : Parse (Option Node) := do
  if (← peek) = .streamEnd then return none
  let start ← peek
  directives fuel false
  let n ←
    if ← accept .documentStart then
      orEmpty [.documentStart, .documentEnd, .streamEnd] (node fuel true false)
    else
      match start with
      | .version _ _ => failure
      | .tagHandle _ _ => failure
      | _ => node fuel true false
  documentEnds fuel
  expect .streamEnd
  return some n

end Parse

/-- The document of a text: `none` for no YAML text or more than one document, `some none` for a
text without one. -/
def read? (text : String) : Option (Option Node) :=
  (tokens? text).bind fun tokens =>
    ((Parse.document (2 * tokens.length + 2)).run { tokens }).map Prod.fst

end TagMachine.Yaml
