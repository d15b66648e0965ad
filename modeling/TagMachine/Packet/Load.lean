import TagMachine.Packet.Basic
import TagMachine.Packet.Reader

set_option autoImplicit false

/-! # Loading packets

A packet is a header, a directory and the parts that the directory points to. The directory gives
for each part its kind, position and length; of two entries of one kind the later counts, and
entries of unknown kinds are passed over.

Main functions: `Packet.load`, and the readers of the parts, of which `Contract.read`,
`Constant.readAll` and `skipDetail` (the description of a field's type) have most to decide.
-/

namespace TagMachine

variable {m : Type → Type} [Source m]

/-! ## The contract -/

/-- How deep the description of a type may be nested. -/
def descriptorLimit : Nat := 64

/-- Passes over the description of a type behind its number. The first argument is how many more
levels are allowed. -/
def skipDetail : Nat → UInt8 → m Unit
  | 0, _ => Source.fail .descriptorTooDeep
  | depth + 1, id =>
    match FieldType.ofId id with
    | .maybe => do skipDetail depth (← Source.uint8)
    | .list => do skipDetail depth (← Source.uint8)
    | .record => do
      let count ← Source.uint16
      let _ ← Source.times (do
        let length ← Source.uint16
        Source.skip length.toNat
        skipDetail depth (← Source.uint8)
        Source.skip 10) count.toNat
      return ()
    | _ => return ()

def FieldDef.read : m FieldDef := do
  let name ← Source.shortText
  let type ← Source.uint8
  skipDetail (descriptorLimit + 1) type
  let tags ← Source.tagSet
  let register ← Source.uint16
  return ⟨name, .ofId type, tags, register⟩

def TagDef.read : m TagDef := do
  let bit ← Source.uint8
  let name ← Source.shortText
  let description ← Source.shortText
  return ⟨bit, name, description⟩

def SanitizerDef.read : m SanitizerDef := do
  let name ← Source.shortText
  let function ← Source.uint16
  let strips ← Source.tagSet
  return ⟨name, function, strips⟩

def Rule.read : m Rule := do
  let kind ← Source.uint8
  match kind.toNat with
  | 1 =>
    let scope ← Source.uint8
    let index ← Source.uint16
    return .forbidField scope index
  | 2 =>
    let tags ← Source.tagSet
    let scope ← Source.uint8
    return .forbidTagged tags scope
  | 3 =>
    let field ← Source.shortText
    let message ← Source.shortText
    return .require field message
  | 4 =>
    let field ← Source.shortText
    let message ← Source.shortText
    return .conform field message
  | _ => Source.fail (.unknownRule kind)

def Contract.read : m Contract := do
  let name ← Source.shortText
  let size ← Source.uint16
  let inputCount ← Source.uint16
  let outputCount ← Source.uint16
  let tagCount ← Source.uint16
  let sanitizerCount ← Source.uint16
  let ruleCount ← Source.uint16
  let tags ← Source.times TagDef.read tagCount.toNat
  let inputs ← Source.times FieldDef.read inputCount.toNat
  let outputs ← Source.times FieldDef.read outputCount.toNat
  let sanitizers ← Source.times SanitizerDef.read sanitizerCount.toNat
  let rules ← Source.times Rule.read ruleCount.toNat
  return { name, size, inputs, outputs, tags, sanitizers, rules }

/-! ## Constants and code -/

def Constant.readPayload (type : UInt8) (length : Nat) : m Constant :=
  match FieldType.ofId type with
  | .string => do return .string (← Source.text length)
  | .integer => do return .integer (← Source.uint64).toInt64
  | .float => do return .float ⟨← Source.uint64⟩
  | .boolean => do return .boolean ((← Source.uint8) != 0)
  | .nothing => return .nothing
  | _ => Source.fail (.unknownConstant type)

def Constant.read : m Constant := do
  let type ← Source.uint8
  let length ← Source.uint32
  Source.within length.toNat (Constant.readPayload type length.toNat)

/-- All constants of a part. -/
def Constant.readAll : m (List Constant) := do
  Source.untilEnd Constant.read (← Source.remaining)

def readDependencies : m (List UInt16) := do
  let count ← Source.uint16
  Source.times Source.uint16 count.toNat

def Instruction.read : m Instruction := do
  let opcode ← Source.uint8
  let flags ← Source.uint8
  let dest ← Source.uint16
  let op1 ← Source.uint16
  let op2 ← Source.uint16
  return ⟨opcode, flags, dest, op1, op2⟩

/-- The bytes of an instruction. -/
def instructionSize : Nat := 8

/-- All whole instructions of a part. -/
def Instruction.readAll : m (List Instruction) := do
  Source.times Instruction.read ((← Source.remaining) / instructionSize)

def Fixture.read : m Fixture := do
  let name ← Source.shortText
  let input ← Source.longText
  let output ← Source.longText
  return ⟨name, input, output⟩

def Fixture.readAll : m (List Fixture) := do
  let count ← Source.uint16
  Source.times Fixture.read count.toNat

/-! ## Packets -/

/-- The number that a packet starts with. -/
def magic : UInt32 := 0x484c4e41

/-- The bytes of the header. -/
def headerSize : Nat := 88

/-- The bytes of an entry of the directory. -/
def entrySize : Nat := 10

/-- The kinds of the parts in the directory. -/
def Section.id? : Section → Option UInt16
  | .contract => some 0x0001
  | .constants => some 0x0002
  | .dependencies => some 0x0003
  | .code => some 0x0004
  | .tests => some 0x0101
  | _ => none

structure DirectoryEntry where
  kind : UInt16
  offset : Nat
  length : Nat
deriving DecidableEq, Inhabited

/-- The bytes of a packet in a range, as a part of it. -/
def Span.of (data : List UInt8) (part : Section) (offset length : Nat) :
    Except FormatError Span :=
  if offset + length ≤ data.length then .ok ⟨part, offset, (data.drop offset).take length⟩
  else .error (.outside part length offset data.length)

def Span.readBy {α : Type} (s : Span) (r : Reader α) : Except FormatError α :=
  (r.run s).map Prod.fst

def DirectoryEntry.read : m DirectoryEntry := do
  let kind ← Source.uint16
  let offset ← Source.uint32
  let length ← Source.uint32
  return ⟨kind, offset.toNat, length.toNat⟩

/-- The directory of a packet. -/
abbrev Directory := List DirectoryEntry

def Directory.find? (d : Directory) (kind : UInt16) : Option DirectoryEntry :=
  d.reverse.find? fun e => e.kind == kind

/-- The header of a packet, behind its magic number. -/
def Header.read : m Header := do
  let found ← Source.uint32
  if found ≠ magic then Source.fail (.badMagic found magic)
  else
    let formatVersion ← Source.uint16
    let minSpecVersion ← Source.uint16
    let totalSize ← Source.uint32
    let sectionCount ← Source.uint16
    return { formatVersion, minSpecVersion, totalSize, sectionCount }

/-- The kinds that a directory must have. -/
def requiredKinds : List UInt16 := [1, 2, 3, 4]

def Directory.read? {α : Type} (d : Directory) (data : List UInt8) (part : Section)
    (r : Reader α) : Except FormatError (Option α) :=
  match part.id?.bind d.find? with
  | some e => do
    let span ← Span.of data part e.offset e.length
    return some (← span.readBy r)
  | none => return none

def Directory.read {α : Type} [Inhabited α] (d : Directory) (data : List UInt8) (part : Section)
    (r : Reader α) : Except FormatError α := do
  return (← d.read? data part r).getD default

namespace Packet

/-- The directory of a packet, which has all required parts. -/
def directory (data : List UInt8) (count : UInt16) : Except FormatError Directory := do
  let span ← Span.of data .directory headerSize (count.toNat * entrySize)
  let entries ← span.readBy (Source.times DirectoryEntry.read count.toNat)
  match requiredKinds.find? fun kind => (Directory.find? entries kind).isNone with
  | some kind => throw (.missingSection kind)
  | none => return entries

/-- The packet that bytes stand for. -/
def load (data : List UInt8) : Except FormatError Packet := do
  if data.length < headerSize then throw (.tooSmall data.length)
  let header ← (← Span.of data .header 0 headerSize).readBy Header.read
  let directory ← directory data header.sectionCount
  let contract ← directory.read data .contract Contract.read
  let constants ← directory.read data .constants Constant.readAll
  let dependencies ← directory.read data .dependencies readDependencies
  let code ← directory.read data .code Instruction.readAll
  let fixtures ← directory.read data .tests Fixture.readAll
  return { header, contract, constants := constants.toArray, dependencies,
           code := code.toArray, fixtures }

end Packet

end TagMachine
