set_option autoImplicit false

/-! # UTF-8 with replacement

Bytes are read as UTF-8; where they are not well formed, each maximal beginning of a character
that cannot go on is read as the replacement character.
-/

namespace TagMachine.Text

def replacement : Char := Char.ofNat 0xfffd

/-- Whether a byte can follow the first byte of a character. -/
def isContinuation (b : UInt8) : Bool := 0x80 ≤ b && b ≤ 0xbf

/-- The second bytes allowed after a first byte: no overlong form, no surrogate, nothing above
the last code point. -/
def secondAllowed (first second : UInt8) : Bool :=
  if first == 0xe0 then 0xa0 ≤ second && second ≤ 0xbf
  else if first == 0xed then 0x80 ≤ second && second ≤ 0x9f
  else if first == 0xf0 then 0x90 ≤ second && second ≤ 0xbf
  else if first == 0xf4 then 0x80 ≤ second && second ≤ 0x8f
  else isContinuation second

/-- The code point with the payload bits of a first byte and of the bytes that follow. -/
def assemble (first : Nat) (more : List UInt8) : Char :=
  Char.ofNat (more.foldl (fun n b => n * 64 + b.toNat % 64) first)

/-- The first character of a list of bytes, and the number of bytes it takes less one. -/
def decodeHead (b : UInt8) (rest : List UInt8) : Char × Nat :=
  if b < 0x80 then (Char.ofNat b.toNat, 0)
  else if 0xc2 ≤ b && b ≤ 0xdf then
    match rest with
    | c :: _ => if isContinuation c then (assemble (b.toNat % 32) [c], 1) else (replacement, 0)
    | [] => (replacement, 0)
  else if 0xe0 ≤ b && b ≤ 0xef then
    match rest with
    | c :: more =>
      if secondAllowed b c then
        match more with
        | d :: _ =>
          if isContinuation d then (assemble (b.toNat % 16) [c, d], 2) else (replacement, 1)
        | [] => (replacement, 1)
      else (replacement, 0)
    | [] => (replacement, 0)
  else if 0xf0 ≤ b && b ≤ 0xf4 then
    match rest with
    | c :: more =>
      if secondAllowed b c then
        match more with
        | d :: last =>
          if isContinuation d then
            match last with
            | e :: _ =>
              if isContinuation e then (assemble (b.toNat % 8) [c, d, e], 3) else (replacement, 2)
            | [] => (replacement, 2)
          else (replacement, 1)
        | [] => (replacement, 1)
      else (replacement, 0)
    | [] => (replacement, 0)
  else (replacement, 0)

/-- The characters of a list of bytes; the first `skip` bytes belong to a character already
read. -/
def decodeFrom : Nat → List UInt8 → List Char
  | _, [] => []
  | skip + 1, _ :: rest => decodeFrom skip rest
  | 0, b :: rest =>
    let (c, more) := decodeHead b rest
    c :: decodeFrom more rest

def ofUtf8 (bytes : List UInt8) : String := String.ofList (decodeFrom 0 bytes)

/-- The bytes of a text. -/
def toUtf8 (s : String) : List UInt8 := s.toUTF8.toList

end TagMachine.Text
