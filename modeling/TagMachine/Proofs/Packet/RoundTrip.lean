import Mathlib.Tactic
import TagMachine.Proofs.Packet.Encode

set_option autoImplicit false

/-! # Packets are read back

A packet is written as its header, the directory and the parts one after another
(`Packet.encode`). What is written is read back (`Packet.load_encode`): the directory points at the
parts (`exists_entry`), so each is given to its reader whole.
-/

namespace TagMachine

open Reader Source

/-! ## The directory -/

namespace DirectoryEntry

def write (e : DirectoryEntry) : List UInt8 :=
  writeNumber 2 e.kind.toNat ++ (writeNumber 4 e.offset ++ writeNumber 4 e.length)

/-- The position and the length can be written. -/
@[mk_iff]
structure Fits (e : DirectoryEntry) : Prop where
  offset : e.offset < 2 ^ 32
  length : e.length < 2 ^ 32

instance : DecidablePred Fits := fun e => decidable_of_iff' _ (fits_iff e)

theorem reads_read {e : DirectoryEntry} (h : e.Fits) : Reads DirectoryEntry.read e.write e := by
  obtain ⟨offset, hoffset, hreadOffset⟩ := reads_length32 h.offset
  obtain ⟨length, hlength, hreadLength⟩ := reads_length32 h.length
  refine reads_bind (reads_uint16 e.kind) (reads_bind hreadOffset ?_)
  have hlast := reads_map (fun n : UInt32 => DirectoryEntry.mk e.kind e.offset n.toNat) hreadLength
  rw [hoffset]
  rwa [hlength] at hlast

end DirectoryEntry

/-- The bytes of a part with its kind. -/
abbrev Part := UInt16 × List UInt8

namespace Directory

/-- The directory of parts that stand one after another from a position on. -/
def place : Nat → List Part → Directory
  | _, [] => []
  | offset, (kind, bytes) :: parts =>
    ⟨kind, offset, bytes.length⟩ :: place (offset + bytes.length) parts

theorem map_kind_place (offset : Nat) (parts : List Part) :
    (place offset parts).map DirectoryEntry.kind = parts.map Prod.fst := by
  induction parts generalizing offset with
  | nil => rfl
  | cons part parts ih => rw [place, List.map_cons, List.map_cons, ih]

/-- Behind any bytes, each part has an entry that points at it. -/
theorem exists_entry {parts : List Part} {kind : UInt16} {bytes : List UInt8}
    (h : (kind, bytes) ∈ parts) (front : List UInt8) :
    ∃ e ∈ place front.length parts, e.kind = kind ∧ e.length = bytes.length ∧
      ∃ pre post, e.offset = pre.length ∧
        front ++ parts.flatMap Prod.snd = pre ++ (bytes ++ post) := by
  induction parts generalizing front with
  | nil => exact absurd h List.not_mem_nil
  | cons part parts ih =>
    rcases List.mem_cons.1 h with rfl | htail
    · exact ⟨_, List.mem_cons_self .., rfl, rfl, front, parts.flatMap Prod.snd, rfl, rfl⟩
    · obtain ⟨e, hmem, hkind, hlength, pre, post, hoffset, hdata⟩ := ih htail (front ++ part.2)
      rw [List.length_append] at hmem
      refine ⟨e, List.mem_cons_of_mem _ hmem, hkind, hlength, pre, post, hoffset, ?_⟩
      rw [← hdata, List.flatMap_cons, List.append_assoc]

/-- Where no two entries have the same kind, each is found by its kind. -/
theorem find?_of_mem {d : Directory} (hnodup : (d.map DirectoryEntry.kind).Nodup)
    {e : DirectoryEntry} (h : e ∈ d) : d.find? e.kind = some e := by
  unfold find?
  obtain ⟨e', hfind⟩ : ∃ e', d.reverse.find? (fun x => x.kind == e.kind) = some e' :=
    Option.isSome_iff_exists.1
      (List.find?_isSome.2 ⟨e, List.mem_reverse.2 h, beq_self_eq_true e.kind⟩)
  have hkind : e'.kind = e.kind := by simpa using List.find?_some hfind
  have hmem : e' ∈ d := List.mem_reverse.1 (List.mem_of_find?_eq_some hfind)
  rw [hfind, List.inj_on_of_nodup_map hnodup hmem h hkind]

end Directory

theorem Span.of_append (pre bytes post : List UInt8) (part : Section) :
    Span.of (pre ++ (bytes ++ post)) part pre.length bytes.length =
      .ok ⟨part, pre.length, bytes⟩ := by
  have hinside : pre.length + bytes.length ≤ (pre ++ (bytes ++ post)).length := by
    simp only [List.length_append]
    omega
  rw [Span.of, if_pos hinside, List.drop_left, List.take_left]

namespace Directory

variable {α : Type} {parts : List Part} {kind : UInt16} {part : Section} {r : Reader α}

theorem read?_of_mem (hnodup : (parts.map Prod.fst).Nodup) {bytes : List UInt8}
    (hmem : (kind, bytes) ∈ parts) (hid : part.id? = some kind) {a : α}
    (hread : ∀ offset, (Span.mk part offset bytes).readBy r = .ok a) (front : List UInt8) :
    (place front.length parts).read? (front ++ parts.flatMap Prod.snd) part r = .ok (some a) := by
  obtain ⟨e, he, rfl, hlength, pre, post, hoffset, hdata⟩ := exists_entry hmem front
  have hfind : (place front.length parts).find? e.kind = some e :=
    find?_of_mem (by rwa [map_kind_place]) he
  rw [read?, hid, Option.bind_some, hfind]
  show (Span.of _ part e.offset e.length >>= fun span => span.readBy r >>= fun a =>
    Except.ok (some a)) = _
  rw [hdata, hoffset, hlength, Span.of_append]
  show ((Span.mk part pre.length bytes).readBy r >>= fun a => Except.ok (some a)) = _
  rw [hread]
  rfl

theorem read?_of_not_mem (hkind : kind ∉ parts.map Prod.fst) (hid : part.id? = some kind)
    (offset : Nat) (data : List UInt8) : (place offset parts).read? data part r = .ok none := by
  have hfind : (place offset parts).find? kind = none := by
    rw [find?, List.find?_eq_none]
    intro e he hbeq
    rw [← map_kind_place offset, ← beq_iff_eq.1 hbeq] at hkind
    exact hkind (List.mem_map_of_mem (List.mem_reverse.1 he))
  rw [read?, hid, Option.bind_some, hfind]
  rfl

end Directory

namespace Packet

variable (p : Packet) (l : Layout)

/-! ## Packets -/

/-- The parts of a packet. -/
def parts : List Part :=
  [(1, p.contract.write l),
   (2, p.constants.toList.flatMap Constant.write),
   (3, writeNumber 2 p.dependencies.length ++ p.dependencies.flatMap fun id =>
   writeNumber 2 id.toNat), (4, p.code.toList.flatMap Instruction.write)] ++
  if p.fixtures = [] ∧ l.emptyTests = false then []
  else [(0x0101, writeNumber 2 p.fixtures.length ++ p.fixtures.flatMap Fixture.write)]

/-- The directory of a packet. It starts behind the header, and the parts behind it. -/
def entries : Directory := .place (headerSize + (p.parts l).length * entrySize) (p.parts l)

/-- The number of bytes of a packet. -/
def size : Nat :=
  headerSize + (p.parts l).length * entrySize + ((p.parts l).flatMap Prod.snd).length

/-- The header of a packet as it is written: it has the sizes of what is behind it. -/
def writtenHeader : Header :=
  { p.header with totalSize := (p.size l).toUInt32, sectionCount := (p.parts l).length.toUInt16 }

end Packet

/-- The bytes of a header up to its last field. -/
def Header.write (h : Header) : List UInt8 :=
  writeNumber 4 magic.toNat ++ (writeNumber 2 h.formatVersion.toNat ++
    (writeNumber 2 h.minSpecVersion.toNat ++ (writeNumber 4 h.totalSize.toNat ++
      writeNumber 2 h.sectionCount.toNat)))

theorem Header.reads_read (h : Header) : Reads Header.read h.write h := by
  refine reads_bind (reads_uint32 magic) ?_
  rw [if_neg (not_not_intro rfl)]
  refine reads_bind (reads_uint16 h.formatVersion) (reads_bind (reads_uint16 h.minSpecVersion) ?_)
  exact reads_bind (reads_uint32 h.totalSize)
    (reads_map (fun n => { h with sectionCount := n }) (reads_uint16 h.sectionCount))

namespace Packet

variable {p : Packet} {l : Layout}

/-- The bytes before the parts: the header, filled up with zeros, and the directory. -/
def front (p : Packet) (l : Layout) : List UInt8 :=
  (p.writtenHeader l).write ++ List.replicate 74 0 ++ (p.entries l).flatMap DirectoryEntry.write

/-- The bytes of a packet. -/
def encode (p : Packet) (l : Layout) : List UInt8 := p.front l ++ (p.parts l).flatMap Prod.snd

/-- The packet can be written: its counts, the lengths of its texts and the places of its parts
fit the bytes for them. -/
@[mk_iff]
structure Fits (p : Packet) (l : Layout) : Prop where
  contract : p.contract.Fits l
  constants : ∀ c ∈ p.constants.toList, c.Fits
  dependencyCount : p.dependencies.length < 2 ^ 16
  fixtureCount : p.fixtures.length < 2 ^ 16
  fixtures : ∀ f ∈ p.fixtures, f.Fits
  entries : ∀ e ∈ p.entries l, e.Fits

instance (p : Packet) (l : Layout) : Decidable (p.Fits l) :=
  decidable_of_iff' _ (fits_iff p l)

/-! ## Reading back -/

theorem length_header (h : Header) : (h.write ++ List.replicate 74 0).length = headerSize := by
  simp [Header.write, headerSize]

theorem length_entries (d : Directory) :
    (d.flatMap DirectoryEntry.write).length = d.length * entrySize := by
  have hwrite : ∀ e : DirectoryEntry, e.write.length = entrySize := fun e => by
    simp [DirectoryEntry.write, entrySize]
  simp [List.length_flatMap, hwrite]

theorem length_place (offset : Nat) (parts : List Part) :
    (Directory.place offset parts).length = parts.length := by
  have hmap := congrArg List.length (Directory.map_kind_place offset parts)
  rwa [List.length_map, List.length_map] at hmap

theorem length_front (p : Packet) (l : Layout) :
    (p.front l).length = headerSize + (p.parts l).length * entrySize := by
  rw [front, List.length_append, length_header, length_entries, entries, length_place]

theorem entries_eq (p : Packet) (l : Layout) :
    p.entries l = .place (p.front l).length (p.parts l) := by
  rw [length_front, entries]

theorem kinds_parts (p : Packet) (l : Layout) :
    (p.parts l).map Prod.fst = requiredKinds ∨
      (p.parts l).map Prod.fst = requiredKinds ++ [0x0101] := by
  unfold parts
  split
  · exact .inl rfl
  · exact .inr rfl

theorem nodup_parts (p : Packet) (l : Layout) : ((p.parts l).map Prod.fst).Nodup := by
  rcases kinds_parts p l with hkinds | hkinds <;> rw [hkinds] <;> decide

theorem length_parts_lt (p : Packet) (l : Layout) : (p.parts l).length < 2 ^ 16 := by
  rw [← List.length_map Prod.fst]
  rcases kinds_parts p l with hkinds | hkinds <;> rw [hkinds] <;> decide

theorem directory_encode (h : p.Fits l) :
    directory (p.encode l) (p.writtenHeader l).sectionCount = .ok (p.entries l) := by
  have hcount : (p.writtenHeader l).sectionCount.toNat = (p.entries l).length := by
    rw [entries, length_place]
    exact UInt16.toNat_ofNat_of_lt (length_parts_lt p l)
  have hspan : Span.of (p.encode l) .directory headerSize ((p.entries l).length * entrySize) =
      .ok ⟨.directory, headerSize, (p.entries l).flatMap DirectoryEntry.write⟩ := by
    rw [← length_entries, ← length_header (p.writtenHeader l), encode, front, List.append_assoc]
    exact Span.of_append _ _ _ _
  have hread := readBy_of_reads
    (reads_times_flatMap fun e he => DirectoryEntry.reads_read (h.entries e he))
    .directory headerSize
  -- Every required kind has an entry.
  have hrequired : requiredKinds.find? (fun kind => ((p.entries l).find? kind).isNone) = none := by
    rw [List.find?_eq_none]
    intro kind hkind hnone
    have hmem : kind ∈ (p.entries l).map DirectoryEntry.kind := by
      rw [entries, Directory.map_kind_place]
      rcases kinds_parts p l with hkinds | hkinds <;> rw [hkinds] <;> simp [hkind]
    obtain ⟨e, he, rfl⟩ := List.mem_map.1 hmem
    have hnodup : ((p.entries l).map DirectoryEntry.kind).Nodup := by
      rw [entries, Directory.map_kind_place]
      exact nodup_parts p l
    rw [Directory.find?_of_mem hnodup he] at hnone
    exact absurd hnone (by simp)
  unfold directory
  rw [hcount, hspan]
  show (Span.readBy _ _ >>= fun entries => _) = _
  rw [hread]
  dsimp only [bind, Except.bind]
  rw [hrequired]
  rfl

/-- What the reader of a part makes of the bytes of a packet. -/
theorem read_encode {α : Type} [Inhabited α] {r : Reader α} {part : Section} {kind : UInt16}
    {bytes : List UInt8} {a : α} (hmem : (kind, bytes) ∈ p.parts l) (hid : part.id? = some kind)
    (hread : ∀ offset, (Span.mk part offset bytes).readBy r = .ok a) :
    (p.entries l).read (p.encode l) part r = .ok a := by
  have hread? := Directory.read?_of_mem (nodup_parts p l) hmem hid hread (p.front l)
  rw [Directory.read, entries_eq, encode, hread?]
  rfl

theorem read_fixtures (h : p.Fits l) :
    (p.entries l).read (p.encode l) .tests Fixture.readAll = .ok p.fixtures := by
  by_cases hnone : p.fixtures = [] ∧ l.emptyTests = false
  · have hkind : 0x0101 ∉ (p.parts l).map Prod.fst := by
      rw [parts, if_pos hnone]
      simp
    rw [Directory.read, entries, Directory.read?_of_not_mem hkind rfl, hnone.1]
    rfl
  · have hread := readBy_of_reads (Fixture.reads_readAll h.fixtureCount h.fixtures) .tests
    refine read_encode ?_ rfl hread
    rw [parts, if_neg hnone]
    simp

theorem read_header (p : Packet) (l : Layout) :
    ∃ span, Span.of (p.encode l) .header 0 headerSize = .ok span ∧
      span.readBy Header.read = .ok (p.writtenHeader l) := by
  refine ⟨⟨.header, 0, (p.writtenHeader l).write ++ List.replicate 74 0⟩, ?_,
    readBy_append (Header.reads_read _) _ _ _⟩
  have hof := Span.of_append [] ((p.writtenHeader l).write ++ List.replicate 74 0)
    ((p.entries l).flatMap DirectoryEntry.write ++ (p.parts l).flatMap Prod.snd) .header
  rwa [List.nil_append, ← List.append_assoc, length_header] at hof

/-- The bytes of a packet are read as the packet. Its header then has the number of parts and the
size that were written; where the packet has them already, it is the same packet. -/
theorem load_encode (h : p.Fits l) :
    load (p.encode l) = .ok { p with header := p.writtenHeader l } ∧
      (p.header = p.writtenHeader l → load (p.encode l) = .ok p) := by
  have hsize : ¬(p.encode l).length < headerSize := by
    rw [encode, List.length_append, length_front]
    omega
  obtain ⟨span, hspan, hheader⟩ := read_header p l
  have hcontract : (p.entries l).read (p.encode l) .contract Contract.read = .ok p.contract :=
    read_encode (by simp [parts]) rfl (readBy_of_reads (Contract.reads_contract h.contract) _)
  have hconstants : (p.entries l).read (p.encode l) .constants Constant.readAll =
      .ok p.constants.toList :=
    read_encode (by simp [parts]) rfl (Constant.readAll_write h.constants _)
  have hdependencies : (p.entries l).read (p.encode l) .dependencies readDependencies =
      .ok p.dependencies :=
    read_encode (by simp [parts]) rfl (readBy_of_reads (reads_dependencies h.dependencyCount) _)
  have hcode : (p.entries l).read (p.encode l) .code Instruction.readAll = .ok p.code.toList :=
    read_encode (by simp [parts]) rfl (Instruction.readAll_write _ _)
  have hload : load (p.encode l) = .ok { p with header := p.writtenHeader l } := by
    simp only [load, if_neg hsize, bind, Except.bind, hspan, hheader, directory_encode h, hcontract,
      hconstants, hdependencies, hcode, read_fixtures h, pure, Except.pure, Array.toArray_toList]
  refine ⟨hload, fun hsame => ?_⟩
  rw [hload, ← hsame]

/-- A packet with every kind of rule and of constant. -/
def sample : Packet where
  header := { formatVersion := 3, minSpecVersion := 1, totalSize := 497, sectionCount := 5 }
  contract :=
    { name := "full"
      size := 8
      inputs := [⟨"email", .string, 0x01, 0⟩, ⟨"profile", .record, 0x20, 1⟩]
      outputs := [⟨"masked", .unknown 9, 0, 2⟩]
      tags := [⟨0, "pii", "Personal data"⟩, ⟨5, "secret", ""⟩]
      sanitizers := [⟨"mask_email", 1, 0x01⟩]
      rules := [.forbidTagged 0x21 0, .forbidField 1 1, .require "email" "email is required",
        .conform "email" "email must look like one"] }
  constants :=
    #[.string "héllo", .integer (-7), .float ⟨0x4004000000000000⟩, .boolean true, .nothing]
  dependencies := [0x01, 0x70]
  code := #[⟨Opcode.loadConstant.byte, 0, 3, 0, 0⟩,
    ⟨Opcode.callValue.byte, TagMode.clear.flags, 2, 1, 0⟩]
  fixtures := [⟨"basic", "\x7b\"email\":\"a@b.c\"\x7d", "\x7b\"masked\":\"*\"\x7d"⟩]

/-- The types of its fields: the record has an integer and a list of texts that may be missing. -/
def sampleLayout : Layout where
  inputs := [.leaf 1, .record [([105, 100], .leaf 2, List.replicate 10 0),
    ([110, 97, 109, 101, 115], .list (.maybe (.leaf 1)), List.replicate 10 1)]]
  outputs := [.leaf 9]
  emptyTests := false

theorem load_sample :
    sample.Fits sampleLayout ∧ sample.header = sample.writtenHeader sampleLayout ∧
      load (sample.encode sampleLayout) = .ok sample := by
  have hfits : sample.Fits sampleLayout := by decide +kernel
  have hheader : sample.header = sample.writtenHeader sampleLayout := by decide +kernel
  exact ⟨hfits, hheader, (load_encode hfits).2 hheader⟩

end Packet

end TagMachine
