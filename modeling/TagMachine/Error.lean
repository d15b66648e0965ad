import TagMachine.Codec.Base64Fault
import TagMachine.Json.Fault
import TagMachine.Text.Hex
import TagMachine.Value.Basic

set_option autoImplicit false

/-! # Errors

Everything that can go wrong, by cause. The causes are grouped by what was at fault: the bytes of
a packet, the kind of an operand, the operand itself, the program, the policy on outputs, or a
JSON text. The wording of each cause stands in the `message` function of its group, and
`Error.message` puts the name of the group in front.
-/

namespace TagMachine

/-- The parts of a packet that are read. -/
inductive Section where
  | header
  | directory
  | contract
  | constants
  | dependencies
  | code
  | tests
deriving DecidableEq, Inhabited

/-- The name of a part, as messages give it. -/
def Section.name : Section → String
  | header => "header"
  | directory => "section directory"
  | contract => "contract"
  | constants => "constants"
  | dependencies => "stdlib deps"
  | code => "bytecode"
  | tests => "tests"

/-- Faults of the bytes of a packet. -/
inductive FormatError where
  | tooSmall (size : Nat)
  | badMagic (found expected : UInt32)
  | missingSection (id : UInt16)
  /-- A part does not lie inside the packet. -/
  | outside (part : Section) (length offset size : Nat)
  /-- A part ends before what is read from it. -/
  | truncated (part : Section) (need offset left : Nat)
  | unknownRule (id : UInt8)
  | unknownConstant (id : UInt8)
  | descriptorTooDeep
deriving DecidableEq

def FormatError.message : FormatError → String
  | tooSmall size => s!"packet too small: {size} bytes"
  | badMagic found expected =>
    "bad magic: 0x" ++ Text.hexUpper 8 found.toNat
      ++ " (expected 0x" ++ Text.hexUpper 8 expected.toNat ++ ")"
  | missingSection id => "missing required section 0x" ++ Text.hexUpper 4 id.toNat
  | outside part length offset size =>
    s!"{part.name} section ({length} bytes at offset {offset}) exceeds packet of {size} bytes"
  | truncated part need offset left =>
    s!"{part.name} section truncated: need {need} bytes at offset {offset}, {left} left"
  | unknownRule id => s!"unknown rule type: {id}"
  | unknownConstant id => s!"unknown constant type: {id}"
  | descriptorTooDeep => "type descriptor nested too deeply"

/-- Operands of the wrong kind. -/
inductive TypeError where
  | cannotCompare (left right : Kind)
  | notConvertible (source target : Kind)
  | negate (found : Kind)
  | arithmetic (left right : Kind)
  | operand (expected : Kind) (register : UInt16) (found : Kind)
  | listIndex (found : Kind)
  /-- A constant that names a field is not a string; `text` is its written form. -/
  | constantKey (index : UInt16) (text : String)
  | inputNotRecord (found : Kind)
  | containsWithoutNeedle
  | absOperand (found : Kind)
  | fieldName (function : String) (found : Kind)
  | booleanToInteger
deriving DecidableEq

def TypeError.message : TypeError → String
  | cannotCompare left right => s!"cannot compare {left.name} with {right.name}"
  | notConvertible source target => s!"cannot convert {source.name} to {target.name}"
  | negate found => s!"NEGATE requires numeric, got {found.name}"
  | arithmetic left right =>
    s!"arithmetic requires numeric operands, got {left.name} and {right.name}"
  | operand expected register found =>
    s!"expected {expected.name} at register {register}, got {found.name}"
  | listIndex found => s!"LIST_GET index must be integer, got {found.name}"
  | constantKey index text => s!"record key constant {index} is not a string: {text}"
  | inputNotRecord found => s!"input must be a JSON object, got: {found.name}"
  | containsWithoutNeedle => "contains: missing substring/search argument"
  | absOperand found => s!"abs: expected number, got {found.name}"
  | fieldName function found => s!"{function}: field names must be strings, got {found.name}"
  | booleanToInteger => "to-integer: cannot convert boolean"

/-- Operands of the right kind that have no result. -/
inductive DomainError where
  | divisionByZero
  | unreadableNumber (target : Kind) (text : String)
  | invalidPattern (pattern : String)
  | rangeTooLong (length limit : Nat)
  | invalidIsoDate (text : String)
  | unparsedDate (text format : String)
  | invalidDateComponents
  | invalidDateFormat (format : String)
  | unknownUnit (function unit : String)
  | dateOutOfRange (amount : Int64) (unit : String)
  | base64 (fault : Codec.Base64Fault)
  | json (error : Json.SyntaxError)
  | unknownFold (name : String)
deriving DecidableEq

def DomainError.message : DomainError → String
  | divisionByZero => "division by zero"
  | unreadableNumber target text => s!"cannot convert string to {target.name}: {text}"
  | invalidPattern pattern => s!"invalid regex: {pattern}"
  | rangeTooLong length limit => s!"range of {length} elements exceeds limit of {limit}"
  | invalidIsoDate text => s!"invalid ISO date: {text}"
  | unparsedDate text format => "cannot parse '" ++ text ++ "' with format '" ++ format ++ "'"
  | invalidDateComponents => "format-date: invalid date components"
  | invalidDateFormat format => s!"invalid date format: {format}"
  | unknownUnit function unit => s!"{function}: unknown unit {unit}"
  | dateOutOfRange amount unit => s!"date-add: {amount} {unit} out of range"
  | base64 fault => s!"base64-decode: {fault.message}"
  | json error => s!"json-parse: JSON error: {error.message}"
  | unknownFold name => s!"fold: unknown fn {name}"

/-- Faults of the program itself. -/
inductive ProgramError where
  | unknownOpcode (byte : UInt8) (pc : Nat)
  | registerOutside (register : UInt16) (size : Nat)
  | constantOutside (index : UInt16)
  | iterationSource (found : Kind)
  | iterationUnclosed (pc collect : Nat)
  | iterationTooDeep (limit : Nat)
  | collectWithoutIteration (pc : Nat)
  | collectMismatch (pc collect : Nat)
  | openIterations (count : Nat)
  | budgetExhausted
deriving DecidableEq

def ProgramError.message : ProgramError → String
  | unknownOpcode byte pc => "unknown opcode 0x" ++ Text.hexUpper 2 byte.toNat ++ s!" at pc={pc}"
  | registerOutside register size => s!"register {register} outside scratchpad of {size}"
  | constantOutside index => s!"constant {index} out of range"
  | iterationSource found => s!"ITER_SETUP source must be list, got {found.name}"
  | iterationUnclosed pc collect =>
    s!"ITER_SETUP at pc={pc} is not closed by ITER_COLLECT at pc={collect}"
  | iterationTooDeep limit => s!"iteration nested deeper than {limit}"
  | collectWithoutIteration pc => s!"ITER_COLLECT at pc={pc} without open iteration"
  | collectMismatch pc collect =>
    s!"ITER_COLLECT at pc={pc} does not close the iteration opened for pc={collect}"
  | openIterations count => s!"execution ended with {count} open iteration frame(s)"
  | budgetExhausted => "instruction budget exhausted"

/-- An output that carries forbidden tags. -/
structure Violation where
  /-- The forbidden tags found on the output. -/
  bits : TagSet
  /-- The declared names of those tags. -/
  names : List String
  /-- The declared sanitizers that strip some of them. -/
  sanitizers : List String
deriving DecidableEq

def Violation.message (v : Violation) : String :=
  "output contains forbidden tags: 0x" ++ Text.hexLower 1 v.bits.toNat
    ++ (if v.names.isEmpty then "" else " (" ++ String.intercalate ", " v.names ++ ")")
    ++ (if v.sanitizers.isEmpty then ""
        else "; sanitize with: " ++ String.intercalate ", " v.sanitizers)

/-- Everything that can go wrong. -/
inductive Error where
  | format (e : FormatError)
  | type (e : TypeError)
  | domain (e : DomainError)
  | program (e : ProgramError)
  | unknownFunction (id : UInt16)
  | policy (v : Violation)
  | json (e : Json.SyntaxError)
deriving DecidableEq

/-- The whole wording of an error. -/
def Error.message : Error → String
  | format e => "Format error: " ++ e.message
  | type e => "Type error: " ++ e.message
  | domain e => "Domain error: " ++ e.message
  | program e => "Program error: " ++ e.message
  | unknownFunction id => "Program error: unknown function 0x" ++ Text.hexUpper 4 id.toNat
  | policy v => "Policy violation: " ++ v.message
  | json e => "JSON error: " ++ e.message

end TagMachine
