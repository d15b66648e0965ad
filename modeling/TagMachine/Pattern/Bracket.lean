import TagMachine.Pattern.Escape

set_option autoImplicit false

/-! # Classes in brackets

A class in brackets lists characters, ranges and other classes. It may be negated, hold classes
in brackets, and combine its parts by intersection, difference and symmetric difference, which
all associate to the left.
-/

namespace TagMachine.Pattern

open Text (CharSet)

/-- How two parts of a class are combined. -/
inductive SetOp where
  | inter
  | diff
  | symmDiff
deriving DecidableEq

def SetOp.apply (op : SetOp) (s t : CharSet) : CharSet :=
  match op with
  | inter => s.inter t
  | diff => s.diff t
  | symmDiff => s.symmDiff t

/-- The classes with names between colons. -/
def asciiClasses : List (String × List (Nat × Nat)) :=
  [("alnum", [(0x30, 0x39), (0x41, 0x5a), (0x61, 0x7a)]),
   ("alpha", [(0x41, 0x5a), (0x61, 0x7a)]),
   ("ascii", [(0x00, 0x7f)]),
   ("blank", [(0x09, 0x09), (0x20, 0x20)]),
   ("cntrl", [(0x00, 0x1f), (0x7f, 0x7f)]),
   ("digit", [(0x30, 0x39)]),
   ("graph", [(0x21, 0x7e)]),
   ("lower", [(0x61, 0x7a)]),
   ("print", [(0x20, 0x7e)]),
   ("punct", [(0x21, 0x2f), (0x3a, 0x40), (0x5b, 0x60), (0x7b, 0x7e)]),
   ("space", [(0x09, 0x0d), (0x20, 0x20)]),
   ("upper", [(0x41, 0x5a)]),
   ("word", [(0x30, 0x39), (0x41, 0x5a), (0x5f, 0x5f), (0x61, 0x7a)]),
   ("xdigit", [(0x30, 0x39), (0x41, 0x46), (0x61, 0x66)])]

/-- A class with a name between colons, behind its opening bracket. -/
def readAsciiClass? (f : Flags) (cs : List Char) : Option (CharSet × List Char) :=
  match cs with
  | ':' :: rest =>
    let (negated, rest) :=
      match rest with
      | '^' :: more => (true, more)
      | _ => (false, rest)
    match rest.span (· != ':') with
    | (name, ':' :: ']' :: rest) =>
      (asciiClasses.lookup (String.ofList name)).map fun ranges =>
        (foldAndNegate f negated (CharSet.ofRanges ranges), rest)
    | _ => none
  | _ => none

/-- The parts of a class since the last operator. -/
structure Parts where
  set : CharSet := .empty
  count : Nat := 0
  /-- The number of levels of the deepest part. -/
  height : Nat := 0

def Parts.add (p : Parts) (s : CharSet) (height : Nat) : Parts :=
  ⟨p.set.union s, p.count + 1, max p.height height⟩

/-- The number of levels of the parts together. -/
def Parts.levels (p : Parts) : Nat := if p.count ≤ 1 then p.height else p.height + 1

/-- What stands to the left of an operator. -/
structure Pending where
  op : SetOp
  left : CharSet
  height : Nat

/-- The class of the parts with what stands to the left of them. -/
def Parts.close (f : Flags) (pending : Option Pending) (p : Parts) : CharSet × Nat :=
  match pending with
  | none => (p.set, p.levels)
  | some q =>
    (q.op.apply (foldAndNegate f false q.left) (foldAndNegate f false p.set),
      max q.height p.levels + 1)

/-- A character, class or condition inside brackets. -/
def readSymbol? (f : Flags) (cs : List Char) : Option (Symbol × List Char) :=
  match cs with
  | [] => none
  | '\\' :: rest => readEscape? f rest
  | c :: rest => some (.literal c false, rest)

/-- Whether a character may stand in brackets under the flags. -/
def allowedIn (f : Flags) (c : Char) : Bool := f.unicode || c.toNat < 0x80

/-- A character, class or range of characters inside brackets. -/
def readClassItem? (f : Flags) (cs : List Char) : Option (CharSet × List Char) :=
  match readSymbol? f cs with
  | none => none
  | some (first, rest) =>
    let alone : Option (CharSet × List Char) :=
      match first with
      | .literal c _ => if allowedIn f c then some (CharSet.single c, skip f rest) else none
      | .set s => some (s, skip f rest)
      | .look _ => none
    match skip f rest with
    | [] => none
    | '-' :: more =>
      match skip f more with
      | ']' :: _ => alone
      | '-' :: _ => alone
      | [] => none
      | more =>
        match first, readSymbol? f more with
        | .literal low _, some (.literal high _, rest) =>
          if low ≤ high && allowedIn f low && allowedIn f high then
            some (CharSet.range low.toNat high.toNat, rest)
          else none
        | _, _ => none
    | _ => alone

/-- Hyphens at the start of a class, which stand for themselves. -/
def leadingHyphens (f : Flags) (fuel : Nat) (p : Parts) (cs : List Char) : Parts × List Char :=
  match fuel, cs with
  | fuel + 1, '-' :: rest => leadingHyphens f fuel (p.add (CharSet.single '-') 0) (skip f rest)
  | _, _ => (p, cs)

mutual

/-- A class behind its opening bracket: the set, the number of levels and the rest. -/
def readBracket? (fuel : Nat) (f : Flags) (cs : List Char) :
    Option (CharSet × Nat × List Char) :=
  match fuel with
  | 0 => none
  | fuel + 1 =>
    let cs := skip f cs
    let (negated, cs) :=
      match cs with
      | '^' :: rest => (true, skip f rest)
      | _ => (false, cs)
    let (parts, cs) := leadingHyphens f cs.length {} cs
    let (parts, cs) :=
      match parts.count, cs with
      | 0, ']' :: rest => (parts.add (CharSet.single ']') 0, skip f rest)
      | _, _ => (parts, cs)
    if cs.isEmpty then none else readParts? fuel f negated none parts cs

/-- The parts of a class up to its closing bracket. -/
def readParts? (fuel : Nat) (f : Flags) (negated : Bool) (pending : Option Pending)
    (parts : Parts) (cs : List Char) : Option (CharSet × Nat × List Char) :=
  match fuel with
  | 0 => none
  | fuel + 1 =>
    let operator (op : SetOp) (rest : List Char) : Option (CharSet × Nat × List Char) :=
      let (left, height) := parts.close f pending
      readParts? fuel f negated (some ⟨op, left, height⟩) {} rest
    match skip f cs with
    | [] => none
    | '[' :: rest =>
      match readAsciiClass? f rest with
      | some (s, rest) => readParts? fuel f negated pending (parts.add s 0) rest
      | none =>
        match readBracket? fuel f rest with
        | some (s, height, rest) => readParts? fuel f negated pending (parts.add s height) rest
        | none => none
    | ']' :: rest =>
      let (s, height) := parts.close f pending
      some (foldAndNegate f negated s, height + 1, rest)
    | '&' :: '&' :: rest => operator .inter rest
    | '-' :: '-' :: rest => operator .diff rest
    | '~' :: '~' :: rest => operator .symmDiff rest
    | cs =>
      match readClassItem? f cs with
      | some (s, rest) => readParts? fuel f negated pending (parts.add s 0) rest
      | none => none

end

end TagMachine.Pattern
