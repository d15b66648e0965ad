import TagMachine.Datum.Render
import TagMachine.Text.Hex

set_option autoImplicit false

/-! # Writing JSON texts

Trees are written without white space. Nothing is written as `null`, and so are the floats that
JSON has no numeral for.
-/

namespace TagMachine

/-- How floats are written in JSON: plainly from `10 ^ -5` up to `10 ^ 16`. -/
def Layout.json : Layout :=
  { plainFrom := -5, plainBelow := 16, mark := "e", plus := true, pointed := false }

namespace Json

/-- A character inside a string. -/
def escapeChar (c : Char) : List Char :=
  if c = '"' then ['\\', '"']
  else if c = '\\' then ['\\', '\\']
  else if c = '\x08' then ['\\', 'b']
  else if c = '\x0c' then ['\\', 'f']
  else if c = '\n' then ['\\', 'n']
  else if c = '\r' then ['\\', 'r']
  else if c = '\t' then ['\\', 't']
  else if c.toNat < 0x20 then '\\' :: 'u' :: (Text.hexLower 4 c.toNat).toList
  else [c]

/-- A string with its quotation marks. -/
def writeString (s : String) : String :=
  String.ofList ('"' :: s.toList.flatMap escapeChar ++ ['"'])

def writeFloat (x : Binary64) : String :=
  if x.isFinite then Layout.json.write x.shortest else "null"

mutual

/-- The JSON text of a tree. -/
def write : Datum → String
  | .string s => writeString s
  | .integer n => integerText n
  | .float x => writeFloat x
  | .boolean b => boolText b
  | .nothing => "null"
  | .list items => "[" ++ String.intercalate "," (writeItems items) ++ "]"
  | .record fields => "\x7b" ++ String.intercalate "," (writeFields fields) ++ "\x7d"

def writeItems : List Datum → List String
  | [] => []
  | d :: rest => write d :: writeItems rest

def writeFields : List (String × Datum) → List String
  | [] => []
  | (key, d) :: rest => (writeString key ++ ":" ++ write d) :: writeFields rest

end

end Json

/-- The JSON text of a value; empty for a container that contains itself, which has none. -/
def Store.jsonText (s : Store) (v : Value) : String :=
  match s.datum? v with
  | some d => Json.write d
  | none => ""

end TagMachine
