import TagMachine.Builtin.Arguments
import TagMachine.Text.Pieces

set_option autoImplicit false

/-! # Functions on lists

Every function returns a fresh list whose elements may be shared with its arguments.
-/

namespace TagMachine.Builtin

/-- The place of a kind in the order of `sort`: numbers, strings, everything else. -/
def rank (v : Value) : Nat :=
  match v with
  | .integer _ => 0
  | .float _ => 0
  | .string _ => 1
  | _ => 2

/-- The order of `sort`: numbers as floats, strings by code points, other values as they come. -/
def sortOrder (a b : Value) : Ordering :=
  match a, b with
  | .string s, .string t => Ord.compare s t
  | _, _ =>
    match a.asNumber?, b.asNumber? with
    | some x, some y => x.totalCompare y
    | _, _ => Ord.compare (rank a) (rank b)

/-- The elements in the order of their keys; elements with equivalent keys stay in order. -/
def sortOn (key : Value → Value) (items : List Value) : List Value :=
  items.mergeSort fun a b => sortOrder (key a) (key b) != .gt

def sort : Builtin := fun args => giveList (sortOn id (args.items "list"))

/-- The value of a field, nothing for all but records. -/
def fieldOf (s : Store) (name : String) (v : Value) : Value :=
  match v with
  | .record ref => (s.record ref).get name
  | _ => .nothing

def sortBy : Builtin := fun args =>
  giveList (sortOn (fieldOf args.store (args.text "field")) (args.items "list"))

def reverse : Builtin := fun args => giveList (args.items "list").reverse

/-- The elements whose key is new: neither in `seen` nor the key of an earlier element. -/
def firstsBy (key : Value → String) (seen : List String) : List Value → List Value
  | [] => []
  | v :: rest =>
    if seen.contains (key v) then firstsBy key seen rest
    else v :: firstsBy key (key v :: seen) rest

/-- The elements without those that are written like an earlier one. -/
def unique : Builtin := fun args => giveList (firstsBy args.store.text [] (args.items "list"))

/-- The elements of a value that is a list, else the value itself. -/
def unnest (s : Store) (v : Value) : List Value :=
  match v with
  | .list ref => (s.items ref).toList
  | v => [v]

/-- The list with the elements of its lists in their place. -/
def flatten : Builtin := fun args => giveList ((args.items "list").flatMap (unnest args.store))

/-- The pairs of two lists as records, as long as both have elements. -/
def zip : Builtin := fun args =>
  .ok (.list (((args.items "a").zip (args.items "b")).map fun p =>
    .record [("a", .value p.1), ("b", .value p.2)]))

/-- The longest list that `range` makes. -/
def rangeLimit : Nat := 1000000

/-- How many integers there are from one to another, both included. -/
def rangeLength (start stop : Int64) : Nat := (stop.toInt - start.toInt).natAbs + 1

/-- What is added from one number of a range to the next. -/
def rangeStep (start stop : Int64) : Int := if start ≤ stop then 1 else -1

/-- The integers from one to another, both included, upward or downward. -/
def rangeNumbers (start stop : Int64) : List Int64 :=
  (List.range (rangeLength start stop)).map fun (i : Nat) =>
    Int64.ofInt (start.toInt + rangeStep start stop * i)

/-- The most that the length of a range is given as. -/
def lengthCap : Nat := Nat.pow 2 64 - 1

def range : Builtin := fun args =>
  let start := args.integer "start"
  let stop := args.integer "end"
  let length := Nat.min (rangeLength start stop) lengthCap
  if rangeLimit < length then .error (.domain (.rangeTooLong length rangeLimit))
  else giveList ((rangeNumbers start stop).map .integer)

/-- The elements from `start` up to `end`, as far as the list has them. -/
def slice : Builtin := fun args =>
  let items := args.items "list"
  let start := (args.integer "start").toInt.toNat?.getD 0
  let stop := min ((args.integer "end").toInt.toNat?.getD 0) items.length
  giveList (if start < stop then items.extract start stop else [])

end TagMachine.Builtin
