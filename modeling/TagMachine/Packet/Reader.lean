import TagMachine.Error
import TagMachine.Text.Utf8

set_option autoImplicit false

/-! # Reading bytes

The parts of a packet are read from a `Source` of bytes, one value after another. All numbers have
their least significant byte first. A `Reader` takes values off the front of the bytes of one part.
Reading past the end of the part is an error that says where.
-/

namespace TagMachine

/-- Something that bytes are read from. -/
class Source (m : Type → Type) extends Monad m where
  /-- Meets bytes that are at fault. -/
  fail {α : Type} (e : FormatError) : m α
  /-- The next `count` bytes. -/
  take (count : Nat) : m (List UInt8)
  /-- The number in the next `count` bytes. -/
  number (count : Nat) : m Nat
  /-- The number of bytes that are left. -/
  remaining : m Nat
  atEnd : m Bool
  /-- A value read from the next `count` bytes alone; what it leaves of them is passed over. -/
  within {α : Type} (count : Nat) (x : m α) : m α
  /-- What a loop comes to that has had all the rounds it is given. -/
  overdue {α : Type} : m (List α)

namespace Source

variable {m : Type → Type} [Source m] {α : Type}

def skip (count : Nat) : m Unit := do
  let _ ← take count
  return ()

def uint8 : m UInt8 := do return (← number 1).toUInt8

def uint16 : m UInt16 := do return (← number 2).toUInt16

def uint32 : m UInt32 := do return (← number 4).toUInt32

def uint64 : m UInt64 := do return (← number 8).toUInt64

def tagSet : m TagSet := do return BitVec.ofNat 64 (← number 8)

def text (count : Nat) : m String := do return Text.ofUtf8 (← take count)

/-- A text behind its length in two bytes. -/
def shortText : m String := do text (← uint16).toNat

/-- A text behind its length in four bytes. -/
def longText : m String := do text (← uint32).toNat

/-- A number of values, one after another. -/
def times (x : m α) : Nat → m (List α)
  | 0 => return []
  | count + 1 => do
    let a ← x
    let rest ← times x count
    return a :: rest

/-- Values as long as there are bytes, of which each must take one. The number of rounds is
bounded. -/
def untilEnd (x : m α) : Nat → m (List α)
  | 0 => overdue
  | count + 1 => do
    if ← atEnd then return []
    let a ← x
    let rest ← untilEnd x count
    return a :: rest

end Source

/-! ## Spans -/

/-- The bytes of a part of a packet that are still to be read. -/
structure Span where
  part : Section
  /-- The position of the first of them in the packet. -/
  offset : Nat
  bytes : List UInt8
deriving DecidableEq

/-- Something that takes a value off the front of a span. -/
abbrev Reader (α : Type) := StateT Span (Except FormatError) α

/-- The number that bytes stand for, least significant first. -/
def littleEndian : List UInt8 → Nat
  | [] => 0
  | b :: rest => b.toNat + 256 * littleEndian rest

namespace Reader

def take (count : Nat) : Reader (List UInt8) := fun s =>
  let front := s.bytes.take count
  if front.length < count then .error (.truncated s.part count s.offset s.bytes.length)
  else .ok (front, { s with offset := s.offset + count, bytes := s.bytes.drop count })

def number (count : Nat) : Reader Nat := do return littleEndian (← take count)

def remaining : Reader Nat := fun s => .ok (s.bytes.length, s)

def atEnd : Reader Bool := fun s => .ok (s.bytes.isEmpty, s)

def within {α : Type} (count : Nat) (r : Reader α) : Reader α := do
  let start ← get
  let bytes ← take count
  let (a, _) ← r.run { start with bytes := bytes }
  return a

end Reader

instance : Source (StateT Span (Except FormatError)) where
  fail := throw
  take := Reader.take
  number := Reader.number
  remaining := Reader.remaining
  atEnd := Reader.atEnd
  within := Reader.within
  overdue := return []

end TagMachine
