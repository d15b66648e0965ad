import TagMachine.Store.Basic

set_option autoImplicit false

/-! # Data trees

A `Datum` is a value without references: the tree that one sees by following every reference of
a value. `Store.datum?` gives the tree of a value, and fails on a container that contains
itself. `Store.place` goes the other way and makes fresh containers for a tree.

A `Blueprint` describes a value to be made: fresh containers whose leaves are values that may
exist already.
-/

namespace TagMachine

/-- A value without references. -/
inductive Datum where
  | string (s : String)
  | integer (n : Int64)
  | float (x : Binary64)
  | boolean (b : Bool)
  | nothing
  | list (items : List Datum)
  | record (fields : List (String × Datum))

instance : Inhabited Datum := ⟨.nothing⟩

/-- The kind of the value that a tree shows. -/
def Datum.kind : Datum → Kind
  | string _ => .string
  | integer _ => .integer
  | float _ => .float
  | boolean _ => .boolean
  | nothing => .nothing
  | list _ => .list
  | record _ => .record

/-- A description of a value to be made. -/
inductive Blueprint where
  | value (v : Value)
  /-- A fresh list. -/
  | list (items : List Blueprint)
  /-- A fresh record. -/
  | record (fields : List (String × Blueprint))

instance : Inhabited Blueprint := ⟨.value .nothing⟩

/-- A fresh list of existing values. -/
def Blueprint.ofValues (items : List Value) : Blueprint := .list (items.map .value)

/-- A fresh record with existing values. -/
def Blueprint.ofRecord (r : Record) : Blueprint :=
  .record (r.fields.map fun f => (f.1, .value f.2))

mutual

/-- The description of a fresh copy of a tree. -/
def Datum.blueprint : Datum → Blueprint
  | .string s => .value (.string s)
  | .integer n => .value (.integer n)
  | .float x => .value (.float x)
  | .boolean b => .value (.boolean b)
  | .nothing => .value .nothing
  | .list items => .list (blueprints items)
  | .record fields => .record (fieldBlueprints fields)

def Datum.blueprints : List Datum → List Blueprint
  | [] => []
  | d :: rest => d.blueprint :: blueprints rest

def Datum.fieldBlueprints : List (String × Datum) → List (String × Blueprint)
  | [] => []
  | (k, d) :: rest => (k, d.blueprint) :: fieldBlueprints rest

end

namespace Store

/-- The tree of a value that is at most `depth` containers deep. -/
def datumWithin (s : Store) : Nat → Value → Option Datum
  | _, .string t => some (.string t)
  | _, .integer n => some (.integer n)
  | _, .float x => some (.float x)
  | _, .boolean b => some (.boolean b)
  | _, .nothing => some .nothing
  | 0, .list _ => none
  | 0, .record _ => none
  | depth + 1, .list ref =>
    ((s.items ref).toList.mapM fun v => s.datumWithin depth v).map .list
  | depth + 1, .record ref =>
    ((s.record ref).fields.mapM fun f => (s.datumWithin depth f.2).map (f.1, ·)).map .record

/-- The tree of a value. There is none when a container contains itself, and only then: a chain
of nested containers that is longer than the store is large comes back to where it was. -/
def datum? (s : Store) (v : Value) : Option Datum := s.datumWithin s.size v

mutual

/-- The value made from a description, and the store with its fresh containers. -/
def build (s : Store) : Blueprint → Value × Store
  | .value v => (v, s)
  | .list items =>
    let (values, s) := s.buildItems items #[]
    let (ref, s) := s.newList values
    (.list ref, s)
  | .record fields =>
    let (values, s) := s.buildFields fields #[]
    let (ref, s) := s.newRecord (Record.ofList values.toList)
    (.record ref, s)

/-- The values made from the elements of a list, after those of `done`. -/
def buildItems (s : Store) : List Blueprint → Array Value → Array Value × Store
  | [], done => (done, s)
  | b :: rest, done =>
    let (v, s) := s.build b
    s.buildItems rest (done.push v)

/-- The values made for the fields of a record, after those of `done`. -/
def buildFields (s : Store) :
    List (String × Blueprint) → Array (String × Value) → Array (String × Value) × Store
  | [], done => (done, s)
  | (key, b) :: rest, done =>
    let (v, s) := s.build b
    s.buildFields rest (done.push (key, v))

end

/-- The value made from a tree, with fresh containers throughout. -/
def place (s : Store) (d : Datum) : Value × Store := s.build d.blueprint

/-- The record made from the trees of its fields, with fresh containers throughout. -/
def placeRecord (s : Store) (fields : List (String × Datum)) : RecordRef × Store :=
  let (values, s) := s.buildFields (Datum.fieldBlueprints fields) #[]
  s.newRecord (Record.ofList values.toList)

end Store

end TagMachine
