import TagMachine.Config.Basic
import TagMachine.Yaml.Node

set_option autoImplicit false

/-! # Reading configurations

A configuration is a YAML mapping with the fields `max_instructions`, `max_iteration_depth`,
`default_timestamp` and `enforce_policy`, each of which may be missing. Other fields are passed
over, and none of these may be given twice.
-/

namespace TagMachine.Config

open Yaml (Node Style)

/-- Whether a plain text stands for nothing. -/
def isNull (s : String) : Bool := ["null", "Null", "NULL", "~"].contains s

/-- The number that digits stand for in a base, if it fits 64 bits. -/
def digitsIn? (base : Nat) (digits : List Char) : Option UInt64 :=
  (digits.mapM fun c => (Text.hexValue? c).filter (· < base)).bind fun values =>
    let n := values.foldl (fun n d => base * n + d) 0
    if digits.isEmpty || UInt64.size ≤ n then none else some (UInt64.ofNat n)

/-- Whether a text of digits has a zero in front. -/
def hasLeadingZero : List Char → Bool
  | '0' :: rest => !rest.isEmpty && rest.all Char.isDigit
  | _ => false

/-- The unsigned number that a plain text stands for. -/
def unsigned? (s : String) : Option UInt64 :=
  let cs := match s.toList with
    | '+' :: rest => rest
    | cs => cs
  match cs with
  | '0' :: 'x' :: digits => digitsIn? 16 digits
  | '0' :: 'o' :: digits => digitsIn? 8 digits
  | '0' :: 'b' :: digits => digitsIn? 2 digits
  | digits => if hasLeadingZero digits then none else digitsIn? 10 digits

/-- The truth value that a plain text stands for. -/
def bool? (s : String) : Option Bool :=
  if ["true", "True", "TRUE"].contains s then some true
  else if ["false", "False", "FALSE"].contains s then some false
  else none

/-- The tag of the scalars that stand for nothing. -/
def nullTag : String := Yaml.Parse.coreStem ++ "null"

/-- The text of a scalar that may be read as a kind of value with a tag: one that is plain, or a
literal block with that tag. -/
def bareText? (kind : String) : Node → Option String
  | .scalar text .plain _ => some text
  | .scalar text .literal tag =>
    if tag = some (Yaml.Parse.coreStem ++ kind) then some text else none
  | _ => none

/-- A bound: a number, or nothing for no bound. -/
def bound? (n : Node) : Option (Option UInt64) :=
  let number := ((bareText? "int" n).bind unsigned?).map some
  match n with
  | .scalar text .plain none => if text.isEmpty || isNull text then some none else number
  | .scalar text .plain (some tag) =>
    if tag = nullTag then if isNull text then some none else none else number
  | _ => number

/-- The text of a scalar. -/
def text? : Node → Option String
  | .scalar text _ _ => some text
  | _ => none

/-- The fields of a mapping, whose keys must be scalars. The empty node has none. -/
def fields? : Node → Option (List (String × Node))
  | .mapping fields => fields.mapM fun (k, v) => (text? k).map (·, v)
  | .scalar "" .plain _ => some []
  | _ => none

/-- The value of a field, which may be missing and must not be given twice. -/
def single? {α : Type} (fields : List (String × Node)) (name : String) (missing : α)
    (read : Node → Option α) : Option α :=
  match fields.filter fun f => f.1 == name with
  | [] => some missing
  | [(_, n)] => read n
  | _ => none

def ofFields? (fields : List (String × Node)) : Option Config := do
  let standard : Config := {}
  let instructions ← single? fields "max_instructions" standard.limits.instructions bound?
  let depth ← single? fields "max_iteration_depth" standard.limits.depth bound?
  let timestamp ← single? fields "default_timestamp" standard.defaultTimestamp text?
  let enforce ← single? fields "enforce_policy" standard.enforcePolicy fun n =>
    (bareText? "bool" n).bind bool?
  return ⟨⟨instructions, depth⟩, timestamp, enforce⟩

/-- The configuration that a YAML text gives. A text without a document gives the standard one. -/
def read? (text : String) : Option Config :=
  (Yaml.read? text).bind fun document =>
    match document with
    | some node => (fields? node).bind ofFields?
    | none => some {}

end TagMachine.Config
