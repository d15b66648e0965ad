import TagMachine.Codec.Base64Fault

set_option autoImplicit false

/-! # Base64

Three bytes are written as four symbols of six bits each. A last group of one or two bytes is
written as two or three symbols and filled up with `=`, and the bits of its last symbol that no
byte uses are zero. `Base64.decode` reads only texts in that form.
-/

namespace TagMachine.Codec.Base64

/-- The padding symbol `=`. -/
def padSymbol : UInt8 := 61

def symbol (bits : Nat) : UInt8 :=
  if bits < 26 then (65 + bits).toUInt8
  else if bits < 52 then (97 + (bits - 26)).toUInt8
  else if bits < 62 then (48 + (bits - 52)).toUInt8
  else if bits = 62 then 43
  else 47

/-- The six bits of a symbol. -/
def bitsOf? (b : UInt8) : Option Nat :=
  if 65 ≤ b ∧ b ≤ 90 then some (b.toNat - 65)
  else if 97 ≤ b ∧ b ≤ 122 then some (b.toNat - 97 + 26)
  else if 48 ≤ b ∧ b ≤ 57 then some (b.toNat - 48 + 52)
  else if b = 43 then some 62
  else if b = 47 then some 63
  else none

/-- The symbols of a list of bytes. -/
def encode : List UInt8 → List UInt8
  | [] => []
  | [a] =>
    let n := a.toNat * 16
    [symbol (n / 64), symbol (n % 64), padSymbol, padSymbol]
  | [a, b] =>
    let n := (a.toNat * 256 + b.toNat) * 4
    [symbol (n / 4096), symbol (n / 64 % 64), symbol (n % 64), padSymbol]
  | a :: b :: c :: rest =>
    let n := (a.toNat * 256 + b.toNat) * 256 + c.toNat
    symbol (n / 262144) :: symbol (n / 4096 % 64) :: symbol (n / 64 % 64) :: symbol (n % 64)
      :: encode rest

/-- The six bits of the symbol at an offset, which is the fault if it is none. -/
def bitsAt (offset : Nat) (b : UInt8) : Except Base64Fault Nat :=
  match bitsOf? b with
  | some bits => .ok bits
  | none => .error (.symbol offset b)

/-- The three bytes of four symbols. -/
def threeBytes (w x y z : Nat) : List UInt8 :=
  let n := ((w * 64 + x) * 64 + y) * 64 + z
  [(n / 65536).toUInt8, (n / 256 % 256).toUInt8, (n % 256).toUInt8]

/-- The symbols of the last group before its padding, the offset of the first padding symbol and
the number of padding symbols. Padding starts at the third place at the earliest, and no symbol
follows it. -/
def readTail (start : Nat) : Nat → List UInt8 → Except Base64Fault (List Nat × Nat)
  | _, [] => .ok ([], 0)
  | i, b :: rest =>
    if b = padSymbol then
      if i < 2 then .error (.symbol (start + i) b)
      else if rest.all (· == padSymbol) then .ok ([], 1 + rest.length)
      else .error (.symbol (start + i) b)
    else do
      let bits ← bitsAt (start + i) b
      let (more, pads) ← readTail start (i + 1) rest
      return (bits :: more, pads)

/-- The bytes of the last group, which has at most four symbols and starts at an offset. -/
def decodeTail (start : Nat) (tail : List UInt8) : Except Base64Fault (List UInt8) := do
  let (bits, pads) ← readTail start 0 tail
  if (bits.length + pads) % 4 ≠ 0 ∧ 2 ≤ bits.length then throw .padding
  match bits with
  | [w, x] =>
    if x % 16 ≠ 0 then throw (.lastSymbol (start + 1) (symbol x))
    else return [(w * 4 + x / 16).toUInt8]
  | [w, x, y] =>
    if y % 4 ≠ 0 then throw (.lastSymbol (start + 2) (symbol y))
    else return (threeBytes w x y 0).take 2
  | [w, x, y, z] => return threeBytes w x y z
  | _ => throw (.length (start + bits.length))

/-- The bytes of a non-empty list of symbols that starts at an offset. -/
def decodeFrom (start : Nat) : List UInt8 → Except Base64Fault (List UInt8)
  | a :: b :: c :: d :: e :: rest => do
    let w ← bitsAt start a
    let x ← bitsAt (start + 1) b
    let y ← bitsAt (start + 2) c
    let z ← bitsAt (start + 3) d
    let more ← decodeFrom (start + 4) (e :: rest)
    return threeBytes w x y z ++ more
  | tail => decodeTail start tail

/-- Whether a list has a single symbol after its last full group that is no symbol at all. -/
def strayEnd? (symbols : List UInt8) : Option UInt8 :=
  if symbols.length % 4 = 1 then
    symbols.getLast?.filter fun b => b != padSymbol && (bitsOf? b).isNone
  else none

/-- The bytes that a list of symbols stands for. -/
def decode (symbols : List UInt8) : Except Base64Fault (List UInt8) :=
  match strayEnd? symbols, symbols with
  | some b, _ => .error (.symbol (symbols.length - 1) b)
  | none, [] => .ok []
  | none, _ => decodeFrom 0 symbols

end TagMachine.Codec.Base64
