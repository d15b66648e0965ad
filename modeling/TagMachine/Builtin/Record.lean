import TagMachine.Builtin.Arguments

set_option autoImplicit false

/-! # Functions on records

Every function returns a fresh list or record whose values may be shared with its arguments.
-/

namespace TagMachine.Builtin

def keys : Builtin := fun args => giveList ((args.fields "record").keys.map .string)

def values : Builtin := fun args => giveList (args.fields "record").values

/-- The fields of `a`, with those of `b` set over them. -/
def merged (a b : Record) : Record := .ofList (a.fields ++ b.fields)

def merge : Builtin := fun args => giveRecord (merged (args.fields "a") (args.fields "b"))

def fieldNames (function : String) (items : List Value) : Except Error (List String) :=
  items.mapM fun v =>
    match v with
    | .string name => .ok name
    | v => .error (.type (.fieldName function v.kind))

/-- The fields with the given names, in the order of the names. -/
def picked (r : Record) (names : List String) : Record :=
  .ofList (names.filterMap fun name => (r.get? name).map (name, ·))

def pickFields : Builtin := fun args => do
  let names ← fieldNames "pick" (args.items "fields")
  giveRecord (picked (args.fields "record") names)

/-- The fields without those with the given names. -/
def omitted (r : Record) (names : List String) : Record :=
  .ofList (r.fields.filter fun f => !names.contains f.1)

def omitFields : Builtin := fun args => do
  let names ← fieldNames "omit" (args.items "fields")
  giveRecord (omitted (args.fields "record") names)

end TagMachine.Builtin
