import TagMachine.Value.Basic

set_option autoImplicit false

/-! # Records

A record is a map from names to values that keeps the order in which the names were first set.
-/

namespace TagMachine

/-- The fields after one is set: in its old place when it was there, else at the end. -/
def setField {α : Type} (key : String) (v : α) : List (String × α) → List (String × α)
  | [] => [(key, v)]
  | (k, old) :: rest => if k = key then (k, v) :: rest else (k, old) :: setField key v rest

/-- The fields that result from setting the given ones one after another. -/
def collectFields {α : Type} (fields : List (String × α)) : List (String × α) :=
  fields.foldl (fun acc f => setField f.1 f.2 acc) []

/-- An insertion-ordered map from names to values. -/
structure Record where
  fields : List (String × Value) := []
deriving DecidableEq, Inhabited

namespace Record

/-- The record without fields. -/
def empty : Record := {}

def get? (r : Record) (key : String) : Option Value := r.fields.lookup key

/-- The value of a field, or nothing when the record lacks it. -/
def get (r : Record) (key : String) : Value := (r.get? key).getD .nothing

def has (r : Record) (key : String) : Bool := (r.get? key).isSome

def set (r : Record) (key : String) (v : Value) : Record := ⟨setField key v r.fields⟩

def keys (r : Record) : List String := r.fields.map Prod.fst

def values (r : Record) : List Value := r.fields.map Prod.snd

def size (r : Record) : Nat := r.fields.length

/-- The record that results from setting the fields one after another. -/
def ofList (fields : List (String × Value)) : Record := ⟨collectFields fields⟩

end Record

end TagMachine
