import TagMachine.Error
import TagMachine.Store.Basic

set_option autoImplicit false

/-! # Equality and order of values

Two values are equal when they show the same contents: the order of a record's fields does not
count, all NaNs are one value, the two zeros are two, and an integer equals the float it widens
to. Only numbers and strings are ordered.
-/

namespace TagMachine

/-- Equality of floats as values: the same bits, or both NaN. -/
def Binary64.same (x y : Binary64) : Bool := x == y || (x.isNaN && y.isNaN)

/-- Equality of values, following references at most `depth` deep. Values that refer to the same
container are equal without a look inside. -/
def Store.equalWithin (s : Store) : Nat → Value → Value → Bool
  | _, .string a, .string b => a == b
  | _, .integer a, .integer b => a == b
  | _, .float a, .float b => a.same b
  | _, .integer a, .float b => (Binary64.ofInt64 a).numEq b
  | _, .float a, .integer b => (Binary64.ofInt64 b).numEq a
  | _, .boolean a, .boolean b => a == b
  | _, .nothing, .nothing => true
  | 0, .list a, .list b => a == b
  | 0, .record a, .record b => a == b
  | depth + 1, .list a, .list b =>
    a == b ||
      ((s.items a).size == (s.items b).size &&
        ((s.items a).zip (s.items b)).all fun p => s.equalWithin depth p.1 p.2)
  | depth + 1, .record a, .record b =>
    a == b ||
      ((s.record a).size == (s.record b).size &&
        (s.record a).fields.all fun f =>
          match (s.record b).get? f.1 with
          | some w => s.equalWithin depth f.2 w
          | none => false)
  | _, _, _ => false

/-- Equality of values. A comparison that follows references deeper than there are pairs of
containers comes back to a pair that it is comparing already. -/
def Store.equal (s : Store) (a b : Value) : Bool := s.equalWithin (s.size * s.size + 1) a b

namespace Value

/-- The order of two values: integers by size, strings by code points, other pairs of numbers by
the total order of floats. Nothing else is ordered. -/
def compare (a b : Value) : Except TypeError Ordering :=
  match a, b with
  | .integer m, .integer n => .ok (Ord.compare m.toInt n.toInt)
  | .string s, .string t => .ok (Ord.compare s t)
  | _, _ =>
    match a.asNumber?, b.asNumber? with
    | some x, some y => .ok (x.totalCompare y)
    | _, _ => .error (.cannotCompare a.kind b.kind)

end Value

end TagMachine
