import TagMachine.Text.CharSet

set_option autoImplicit false

/-! # Patterns

The tree of a regular expression: what it matches, without the spelling. Where several matches
begin at the same place, the first in the order of preference counts: earlier alternatives come
first, and a repetition prefers to go on, or to stop when it is lazy.
-/

namespace TagMachine.Pattern

open Text (CharSet)

/-- Conditions on a place in a text. -/
inductive Look where
  | textStart
  | textEnd
  | lineStart
  | lineEnd
  /-- Line starts and ends where a carriage return ends a line too. -/
  | lineStartCr
  | lineEndCr
  | wordBoundary
  | notWordBoundary
  | wordStart
  | wordEnd
  | wordStartHalf
  | wordEndHalf
deriving DecidableEq

/-- What a pattern matches. -/
inductive Node where
  | empty
  | set (s : CharSet)
  /-- Nothing, where a condition holds; `unicode` says which characters make up words. -/
  | look (l : Look) (unicode : Bool)
  /-- At least `min` matches one after another, and at most `more` further ones. -/
  | rep (min : Nat) (more : Option Nat) (greedy : Bool) (body : Node)
  | seq (parts : List Node)
  | alt (branches : List Node)

instance : Inhabited Node := ⟨.empty⟩

mutual

/-- Whether a pattern can match the empty text. -/
def Node.nullable : Node → Bool
  | .empty => true
  | .set _ => false
  | .look _ _ => true
  | .rep min _ _ body => min == 0 || body.nullable
  | .seq parts => allNullable parts
  | .alt branches => anyNullable branches

def Node.allNullable : List Node → Bool
  | [] => true
  | n :: rest => n.nullable && allNullable rest

def Node.anyNullable : List Node → Bool
  | [] => false
  | n :: rest => n.nullable || anyNullable rest

end

mutual

/-- Whether a pattern can match the empty text only. -/
def Node.onlyEmpty : Node → Bool
  | .empty => true
  | .set _ => false
  | .look _ _ => true
  | .rep min more _ body => min == 0 && more == some 0 || body.onlyEmpty
  | .seq parts => allOnlyEmpty parts
  | .alt branches => allOnlyEmpty branches

def Node.allOnlyEmpty : List Node → Bool
  | [] => true
  | n :: rest => n.onlyEmpty && allOnlyEmpty rest

end

/-! ## Size

A pattern must not take more than ten mebibytes in compiled form. The weight of a set of
characters grows with the number of its ranges, and more for ranges that cross the limits between
characters of different length in UTF-8. -/

def rangeWeight (r : Nat × Nat) : Nat :=
  let crosses (limit weight : Nat) : Nat := if r.1 < limit && limit ≤ r.2 then weight else 0
  60 + crosses 0x80 60 + crosses 0x800 250 + crosses 0x10000 530

def setWeight (s : CharSet) : Nat :=
  match s.ranges with
  | [r] =>
    if r.1 = r.2 then 32 * (Char.ofNat r.1).utf8Size
    else if r.2 < 0x80 then 32
    else 64 + rangeWeight r
  | ranges =>
    if s.exceeds 0x7f then 64 + (ranges.map rangeWeight).foldr (· + ·) 0 else 32 + 8 * ranges.length

mutual

/-- The weight of a pattern in bytes. -/
def Node.weight : Node → Nat
  | .empty => 32
  | .set s => setWeight s
  | .look _ _ => 32
  | .rep min more _ body =>
    match more with
    | none => body.weight * Nat.max min 1 + 72
    | some more => body.weight * (min + more) + 40 * more + 32
  | .seq parts => totalWeight parts
  | .alt branches => totalWeight branches + 64

def Node.totalWeight : List Node → Nat
  | [] => 0
  | n :: rest => n.weight + 4 + totalWeight rest

end

/-- The weight that a pattern must not exceed. -/
def weightLimit : Nat := 10 * Nat.pow 2 20

end TagMachine.Pattern
