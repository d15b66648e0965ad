import TagMachine.Binary64.Layout
import TagMachine.Datum.Basic

set_option autoImplicit false

/-! # The text of a value

A string is its own text, and is put in quotation marks inside a list or record. Nothing is
escaped. A number without a fraction is written as an integer followed by `.0`.
-/

namespace TagMachine

/-- How numbers with a fraction are written: plainly from a thousandth up to ten million. -/
def Layout.display : Layout :=
  { plainFrom := -3, plainBelow := 7, mark := "E", plus := false, pointed := true }

def integerText (n : Int64) : String := decimalInt n.toInt

/-- The text of a binary64 number. A whole number beyond 64 bits is written as the last one
within. -/
def Binary64.text (x : Binary64) : String :=
  if x.isNaN then "NaN"
  else if x.isInfinite then if x.isNegative then "-Infinity" else "Infinity"
  else if x.isInteger then integerText x.toInt64 ++ ".0"
  else Layout.display.write x.shortest

def boolText (b : Bool) : String := if b then "true" else "false"

/-- A string between quotation marks. -/
def quoted (s : String) : String := "\"" ++ s ++ "\""

namespace Datum

mutual

/-- The text of a value. -/
def render : Datum → String
  | .string s => s
  | .integer n => integerText n
  | .float x => x.text
  | .boolean b => boolText b
  | .nothing => "nothing"
  | .list items => "[" ++ String.intercalate ", " (renderItems items) ++ "]"
  | .record fields => "\x7b" ++ String.intercalate ", " (renderFields fields) ++ "\x7d"

/-- The texts of the elements of a list. -/
def renderItems : List Datum → List String
  | [] => []
  | .string s :: rest => quoted s :: renderItems rest
  | d :: rest => d.render :: renderItems rest

/-- The texts of the fields of a record. -/
def renderFields : List (String × Datum) → List String
  | [] => []
  | (key, .string s) :: rest => (key ++ ": " ++ quoted s) :: renderFields rest
  | (key, d) :: rest => (key ++ ": " ++ d.render) :: renderFields rest

end

end Datum

/-- The text of a value; empty for a container that contains itself, which has none. -/
def Store.text (s : Store) (v : Value) : String :=
  match s.datum? v with
  | some d => d.render
  | none => ""

end TagMachine
