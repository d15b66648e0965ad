import TagMachine.Builtin.Convert
import TagMachine.Builtin.Date
import TagMachine.Builtin.Encoding
import TagMachine.Builtin.List
import TagMachine.Builtin.Number
import TagMachine.Builtin.Record
import TagMachine.Builtin.Text

set_option autoImplicit false

/-! # Function tables

A program calls functions by number. `FunctionTable.standard` has the standard functions and
`FunctionTable.none` has none.
-/

namespace TagMachine

/-- A standard function with its number and name. -/
structure Builtin.Entry where
  id : UInt16
  name : String
  run : Builtin

namespace Builtin

/-- The standard functions in the order of their numbers. -/
def entries : List Entry := [
  ⟨0x01, "upper", upper⟩, ⟨0x02, "lower", lower⟩, ⟨0x03, "trim", trim⟩,
  ⟨0x04, "trim-start", trimStart⟩, ⟨0x05, "trim-end", trimEnd⟩, ⟨0x06, "substring", substring⟩,
  ⟨0x07, "replace", replace⟩, ⟨0x08, "split", split⟩, ⟨0x09, "join", join⟩,
  ⟨0x0a, "starts-with", startsWith⟩, ⟨0x0b, "ends-with", endsWith⟩, ⟨0x0c, "contains", contains⟩,
  ⟨0x0d, "length", length⟩, ⟨0x0e, "pad-left", padLeft⟩, ⟨0x0f, "pad-right", padRight⟩,
  ⟨0x10, "regex-match", regexMatch .standard⟩, ⟨0x11, "regex-replace", regexReplace .standard⟩,
  ⟨0x20, "abs", abs⟩, ⟨0x21, "ceil", ceil⟩, ⟨0x22, "floor", floor⟩, ⟨0x23, "round", round⟩,
  ⟨0x24, "min", Builtin.min⟩, ⟨0x25, "max", Builtin.max⟩, ⟨0x26, "clamp", clamp⟩,
  ⟨0x30, "sort", sort⟩, ⟨0x31, "sort-by", sortBy⟩, ⟨0x32, "reverse", reverse⟩,
  ⟨0x33, "unique", unique⟩, ⟨0x34, "flatten", flatten⟩, ⟨0x35, "zip", zip⟩,
  ⟨0x36, "range", range⟩, ⟨0x37, "slice", slice⟩,
  ⟨0x40, "keys", keys⟩, ⟨0x41, "values", values⟩, ⟨0x42, "merge", merge⟩,
  ⟨0x43, "pick", pickFields⟩, ⟨0x44, "omit", omitFields⟩,
  ⟨0x50, "parse-date", parseDate⟩, ⟨0x51, "format-date", formatDate⟩,
  ⟨0x52, "date-diff", dateDiff⟩, ⟨0x53, "date-add", dateAdd⟩, ⟨0x54, "now", now⟩,
  ⟨0x60, "base64-encode", base64Encode⟩, ⟨0x61, "base64-decode", base64Decode⟩,
  ⟨0x62, "url-encode", urlEncode⟩, ⟨0x63, "url-decode", urlDecode⟩,
  ⟨0x64, "json-encode", jsonEncode⟩, ⟨0x65, "json-parse", jsonParse⟩,
  ⟨0x70, "sha256", sha256⟩, ⟨0x71, "hmac-sha256", hmacSha256⟩, ⟨0x72, "uuid", uuid⟩,
  ⟨0x74, "to-string", toText⟩, ⟨0x75, "to-float", toFloat⟩, ⟨0x76, "to-integer", toInteger⟩,
  ⟨0x78, "fold", fold⟩]

/-- The standard function with a number. -/
def find? (id : UInt16) : Option Entry := entries.find? fun e => e.id == id

/-- The name of the standard function with a number. -/
def name? (id : UInt16) : Option String := (find? id).map Entry.name

end Builtin

/-- The functions that a program can call. -/
structure FunctionTable where
  /-- Whether the table has a function with a number. -/
  provides : UInt16 → Bool
  /-- A call of a function with a record of arguments. -/
  call : UInt16 → CallContext → RecordRef → Store → Except Error (Value × Store)

namespace FunctionTable

def standard : FunctionTable where
  provides id := (Builtin.find? id).isSome
  call id context args store :=
    match Builtin.find? id with
    | some entry => (entry.run ⟨store, store.record args, context⟩).map store.build
    | .none => .error (.unknownFunction id)

def none : FunctionTable where
  provides _ := false
  call id _ _ _ := .error (.unknownFunction id)

end FunctionTable

end TagMachine
