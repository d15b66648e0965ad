import TagMachine.Proofs.Packet.Cursor
import TagMachine.Proofs.Packet.RoundTrip

set_option autoImplicit false

/-! # What loading a packet depends on

A reader gets a span of bytes with its place in the packet. All readers of a packet are *blind* to
the place: it goes into the wording of faults, and what is read depends on the bytes of the span
alone (`Reader.blind`).

So a packet is determined by the bytes that the last directory entry of each kind points at
(`Packet.alike_load`). Where these stand, what stands between and behind them, and what else the
directory lists makes no difference.
-/

namespace TagMachine

/-! ## Blind readers -/

namespace Reader

variable {α β : Type} {r r' : Reader α}

/-- The same value was read and the same bytes are left. -/
def Same (x y : α × Span) : Prop := x.1 = y.1 ∧ x.2.bytes = y.2.bytes

/-- Two readers that see the bytes of a span, and neither its part nor its place in the packet, read
the same. -/
def Blind (r r' : Reader α) : Prop := ∀ s t : Span, s.bytes = t.bytes → Alike Same (r s) (r' t)

theorem blind_pure (a : α) : Blind (pure a) (pure a) := fun _ _ h => .ok ⟨rfl, h⟩

theorem blind_take (count : Nat) : Blind (take count) (take count) := by
  intro s t h
  unfold take
  dsimp only
  rw [← h]
  by_cases hshort : (s.bytes.take count).length < count
  · rw [if_pos hshort, if_pos hshort]
    exact .error _ _
  · rw [if_neg hshort, if_neg hshort]
    exact .ok ⟨rfl, rfl⟩

theorem blind_bind {f g : α → Reader β} (hr : Blind r r')
    (hf : ∀ a, Blind (f a) (g a)) : Blind (r >>= f) (r' >>= g) := by
  intro s t h
  refine (hr s t h).bind ?_
  rintro ⟨a, s'⟩ ⟨b, t'⟩ ⟨rfl, hbytes⟩
  exact hf a s' t' hbytes

theorem blind_within (hr : Blind r r') (count : Nat) :
    Blind (within count r) (within count r') := by
  intro s t h
  -- the inner reader starts at the place of the outer one, on the bytes that were taken
  refine (blind_take count s t h).bind ?_
  rintro ⟨taken, s'⟩ ⟨taken', t'⟩ ⟨rfl, hbytes⟩
  have hinner := hr { s with bytes := taken } { t with bytes := taken } rfl
  refine Alike.bind (R := fun p q : (α × Span) × Span => p.1.1 = q.1.1 ∧ p.2.bytes = q.2.bytes)
    (hinner.bind ?_) ?_
  · rintro p q ⟨hvalue, -⟩
    exact .ok ⟨hvalue, hbytes⟩
  · exact fun p q hpq => .ok hpq

theorem blind_untilEnd (hr : Blind r r') (count : Nat) :
    Blind (Source.untilEnd r count) (Source.untilEnd r' count) := by
  induction count with
  | zero => exact blind_pure []
  | succ count ih =>
    refine blind_bind (fun s t h => .ok ⟨congrArg List.isEmpty h, h⟩) fun done => ?_
    cases done with
    | true => exact blind_pure []
    | false => exact blind_bind hr fun a => blind_bind ih fun rest => blind_pure (a :: rest)

/-- All that is read of a packet is blind to its place. -/
def blind : Source.Congruence (StateT Span (Except FormatError)) where
  Rel := Blind
  rel_pure := blind_pure
  rel_fail e _ _ _ := .error e e
  rel_bind := blind_bind
  rel_take := blind_take
  rel_number count := blind_bind (blind_take count) fun bytes => blind_pure (littleEndian bytes)
  rel_remaining _ _ h := .ok ⟨congrArg List.length h, h⟩
  rel_within := blind_within
  rel_untilEnd hr _ :=
    blind_bind (fun _ _ h => .ok ⟨congrArg List.length h, h⟩) fun count => blind_untilEnd hr count

/-- A blind reader makes the same of spans with the same bytes. -/
theorem Blind.readBy (hr : Blind r r) {s t : Span} (h : s.bytes = t.bytes) :
    Alike Eq (s.readBy r) (t.readBy r) := by
  have hread := hr s t h
  unfold Span.readBy StateT.run
  generalize r s = x, r t = y at hread
  cases hread with
  | ok hsame => exact .ok hsame.1
  | error e e' => exact .error e e'

end Reader

/-! ## The header and the directory by position -/

namespace Packet

/-- The number in `count` bytes from a position on. -/
def numberAt (data : List UInt8) (pos count : Nat) : Nat :=
  littleEndian ((data.drop pos).take count)

/-- The header of a packet, field by field. -/
def headerAt (data : List UInt8) : Header where
  formatVersion := (numberAt data 4 2).toUInt16
  minSpecVersion := (numberAt data 6 2).toUInt16
  totalSize := (numberAt data 8 4).toUInt32
  sectionCount := (numberAt data 12 2).toUInt16

/-- The directory entry with a number, from the ten bytes that it has. -/
def entryAt (data : List UInt8) (k : Nat) : DirectoryEntry where
  kind := (numberAt data (headerSize + k * entrySize) 2).toUInt16
  offset := numberAt data (headerSize + k * entrySize + 2) 4
  length := numberAt data (headerSize + k * entrySize + 6) 4

/-- The entries of the directory, as many as the header says. -/
def entriesAt (data : List UInt8) : Directory :=
  (List.range (numberAt data 12 2)).map (entryAt data)

/-- The bytes have a header with the magic number, and a directory that lies inside them. -/
@[mk_iff]
structure Framed (data : List UInt8) : Prop where
  header : headerSize ≤ data.length
  magic : numberAt data 0 4 = magic.toNat
  directory : headerSize + numberAt data 12 2 * entrySize ≤ data.length

instance : DecidablePred Framed := fun data => decidable_of_iff' _ (framed_iff data)

end Packet

open Reader in
/-- A number is read from as many bytes as it has, whatever they are. -/
theorem reads_littleEndian {count : Nat} {xs : List UInt8} (h : xs.length = count) :
    Reads (number count) xs (littleEndian xs) := by
  subst h
  exact reads_map littleEndian (reads_take xs)

/-- Bytes in groups of the same length. -/
theorem take_mul_eq_flatMap {α : Type} (xs : List α) (n m : Nat) :
    xs.take (n * m) = (List.range n).flatMap fun k => (xs.drop (k * m)).take m := by
  induction n with
  | zero => simp
  | succ n ih =>
    rw [Nat.succ_mul, List.take_add, ih, List.range_succ, List.flatMap_append,
      List.flatMap_singleton]

/-- A number of four bytes fits a word of them. -/
theorem toNat_littleEndian {bytes : List UInt8} (h : bytes.length = 4) :
    (littleEndian bytes).toUInt32.toNat = littleEndian bytes := by
  have hlt := Reader.littleEndian_lt bytes
  rw [h] at hlt
  exact UInt32.toNat_ofNat_of_lt' hlt

open Reader in
theorem DirectoryEntry.reads_bytes {kind offset length : List UInt8} (hkind : kind.length = 2)
    (hoffset : offset.length = 4) (hlength : length.length = 4) :
    Reads DirectoryEntry.read (kind ++ (offset ++ length))
      ⟨(littleEndian kind).toUInt16, littleEndian offset, littleEndian length⟩ := by
  rw [← toNat_littleEndian hoffset, ← toNat_littleEndian hlength]
  refine reads_bind (reads_map Nat.toUInt16 (reads_littleEndian hkind)) ?_
  refine reads_bind (reads_map Nat.toUInt32 (reads_littleEndian hoffset)) ?_
  exact reads_map (fun n : UInt32 => DirectoryEntry.mk (littleEndian kind).toUInt16
    (littleEndian offset).toUInt32.toNat n.toNat)
    (reads_map Nat.toUInt32 (reads_littleEndian hlength))

namespace Packet

variable {data : List UInt8} {x y : List UInt8}

open Reader Source

theorem length_take_drop {pos count : Nat} (h : pos + count ≤ data.length) :
    ((data.drop pos).take count).length = count := by
  rw [List.length_take, List.length_drop]
  omega

/-- The bytes of an entry inside the packet are read as the entry. -/
theorem reads_entryAt {k : Nat} (h : headerSize + (k + 1) * entrySize ≤ data.length) :
    Reads DirectoryEntry.read ((data.drop (headerSize + k * entrySize)).take entrySize)
      (entryAt data k) := by
  have hpos : headerSize + k * entrySize + 10 ≤ data.length := by
    simp only [entrySize] at h ⊢
    omega
  have hsplit : (data.drop (headerSize + k * entrySize)).take entrySize =
      (data.drop (headerSize + k * entrySize)).take 2 ++
        ((data.drop (headerSize + k * entrySize + 2)).take 4 ++
          (data.drop (headerSize + k * entrySize + 6)).take 4) := by
    rw [show entrySize = 2 + (4 + 4) from rfl, List.take_add, List.take_add, List.drop_drop,
      List.drop_drop]
  rw [hsplit]
  exact DirectoryEntry.reads_bytes (length_take_drop (by omega)) (length_take_drop (by omega))
    (length_take_drop (by omega))

/-- The entries of a directory are read as they stand in the packet. -/
theorem readBy_entriesAt (h : Framed data) :
    (Span.mk .directory headerSize
        ((data.drop headerSize).take (numberAt data 12 2 * entrySize))).readBy
      (times DirectoryEntry.read (numberAt data 12 2)) = .ok (entriesAt data) := by
  have hreads : Reads (times DirectoryEntry.read (entriesAt data).length)
      ((List.range (numberAt data 12 2)).map fun k =>
        (data.drop (headerSize + k * entrySize)).take entrySize).flatten (entriesAt data) := by
    refine reads_times ?_
    unfold entriesAt
    refine List.forall₂_map_left_iff.2 (List.forall₂_map_right_iff.2 (List.forall₂_same.2 ?_))
    intro k hk
    have hlt : k < numberAt data 12 2 := List.mem_range.1 hk
    have hle : (k + 1) * entrySize ≤ numberAt data 12 2 * entrySize :=
      Nat.mul_le_mul_right entrySize hlt
    have hdirectory := h.directory
    exact reads_entryAt (by omega)
  have hbytes : (data.drop headerSize).take (numberAt data 12 2 * entrySize) =
      ((List.range (numberAt data 12 2)).map fun k =>
        (data.drop (headerSize + k * entrySize)).take entrySize).flatten := by
    rw [take_mul_eq_flatMap, List.flatMap_def]
    simp only [List.drop_drop]
  have hcount : (entriesAt data).length = numberAt data 12 2 := by
    simp [entriesAt]
  rw [hcount] at hreads
  rw [hbytes]
  exact readBy_of_reads hreads .directory headerSize

/-- The header is read as it stands in the packet. -/
theorem readBy_headerAt (h : Framed data) :
    (Span.mk .header 0 ((data.drop 0).take headerSize)).readBy Header.read =
      .ok (headerAt data) := by
  have hlength : 88 ≤ data.length := h.header
  have hsplit : (data.drop 0).take headerSize = (data.drop 0).take 4 ++ ((data.drop 4).take 2 ++
      ((data.drop 6).take 2 ++ ((data.drop 8).take 4 ++ (data.drop 12).take 2))) ++
        (data.drop 14).take 74 := by
    rw [show headerSize = 4 + (2 + (2 + (4 + (2 + 74)))) from rfl]
    simp only [List.take_add, List.drop_drop, List.append_assoc]
  have hmagic : (littleEndian ((data.drop 0).take 4)).toUInt32 = magic := by
    rw [show littleEndian ((data.drop 0).take 4) = magic.toNat from h.magic]
    exact UInt32.ofNat_toNat
  rw [hsplit]
  refine readBy_append ?_ .header 0 _
  refine reads_bind (reads_map Nat.toUInt32 (reads_littleEndian (length_take_drop (by omega)))) ?_
  rw [hmagic, if_neg (not_not_intro rfl)]
  refine reads_bind (reads_map Nat.toUInt16 (reads_littleEndian (length_take_drop (by omega)))) ?_
  refine reads_bind (reads_map Nat.toUInt16 (reads_littleEndian (length_take_drop (by omega)))) ?_
  refine reads_bind (reads_map Nat.toUInt32 (reads_littleEndian (length_take_drop (by omega)))) ?_
  have hcount : ((data.drop 12).take 2).length = 2 := length_take_drop (by omega)
  exact reads_map (fun n => { headerAt data with sectionCount := n })
    (reads_map Nat.toUInt16 (reads_littleEndian hcount))

/-! ## Sections -/

def lastEntryOf? (data : List UInt8) (kind : UInt16) : Option DirectoryEntry :=
  ((entriesAt data).filter fun e => e.kind == kind).getLast?

theorem find?_entriesAt (data : List UInt8) (kind : UInt16) :
    (entriesAt data).find? kind = lastEntryOf? data kind := by
  unfold Directory.find? lastEntryOf?
  rw [← List.head?_filter, List.filter_reverse, List.head?_reverse]

def sectionKinds : List UInt16 := [0x0001, 0x0002, 0x0003, 0x0004, 0x0101]

/-- Neither packet has a section of the kind, or the last entry for it lies inside in both and
points at the same bytes. -/
def SameSection (x y : List UInt8) (kind : UInt16) : Prop :=
  lastEntryOf? x kind = none ∧ lastEntryOf? y kind = none ∨
    ∃ e ∈ lastEntryOf? x kind, ∃ f ∈ lastEntryOf? y kind,
      e.offset + e.length ≤ x.length ∧ f.offset + f.length ≤ y.length ∧
        (x.drop e.offset).take e.length = (y.drop f.offset).take f.length

instance (x y : List UInt8) : DecidablePred (SameSection x y) := fun _ =>
  inferInstanceAs (Decidable (_ ∨ _))

/-- Two packets are the same but for their headers. -/
structure SameParts (p q : Packet) : Prop where
  contract : p.contract = q.contract
  constants : p.constants = q.constants
  dependencies : p.dependencies = q.dependencies
  code : p.code = q.code
  fixtures : p.fixtures = q.fixtures

/-- What is read of a packet behind its directory. -/
def readParts (data : List UInt8) (header : Header) (d : Directory) :
    Except FormatError Packet := do
  let contract ← d.read data .contract Contract.read
  let constants ← d.read data .constants Constant.readAll
  let dependencies ← d.read data .dependencies readDependencies
  let code ← d.read data .code Instruction.readAll
  let fixtures ← d.read data .tests Fixture.readAll
  return { header, contract, constants := constants.toArray, dependencies, code := code.toArray,
           fixtures }

theorem load_eq (data : List UInt8) :
    load data = if data.length < headerSize then .error (.tooSmall data.length) else
      Span.of data .header 0 headerSize >>= fun span => span.readBy Header.read >>= fun header =>
        directory data header.sectionCount >>= readParts data header := by
  unfold load
  by_cases hshort : data.length < headerSize
  · rw [if_pos hshort, if_pos hshort]
    rfl
  · rw [if_neg hshort, if_neg hshort]
    rfl

theorem load_of_framed (h : Framed data) :
    load data = directory data (headerAt data).sectionCount >>= readParts data (headerAt data) := by
  rw [load_eq, if_neg (Nat.not_lt.2 h.header), Span.of, if_pos (by simpa using h.header)]
  show ((Span.mk .header 0 ((data.drop 0).take headerSize)).readBy Header.read >>= _) = _
  rw [readBy_headerAt h]
  rfl

/-- The directory of a framed packet, if it has the required sections. -/
theorem directory_of_framed (h : Framed data) :
    directory data (headerAt data).sectionCount =
      match requiredKinds.find? fun kind => (lastEntryOf? data kind).isNone with
      | some kind => .error (.missingSection kind)
      | none => .ok (entriesAt data) := by
  have hcount : (headerAt data).sectionCount.toNat = numberAt data 12 2 := by
    have hlength : ((data.drop 12).take 2).length = 2 := by
      have hheader : 88 ≤ data.length := h.header
      exact length_take_drop (by omega)
    have hlt := littleEndian_lt ((data.drop 12).take 2)
    rw [hlength] at hlt
    exact UInt16.toNat_ofNat_of_lt' hlt
  unfold directory
  rw [hcount, Span.of, if_pos h.directory]
  show ((Span.mk .directory headerSize
    ((data.drop headerSize).take (numberAt data 12 2 * entrySize))).readBy
      (times DirectoryEntry.read (numberAt data 12 2)) >>= _) = _
  rw [readBy_entriesAt h]
  show (match requiredKinds.find? fun kind => ((entriesAt data).find? kind).isNone with
    | some kind => Except.error (FormatError.missingSection kind)
    | none => .ok (entriesAt data)) = _
  simp only [find?_entriesAt]

theorem SameSection.isNone_eq {kind : UInt16} (h : SameSection x y kind) :
    (lastEntryOf? x kind).isNone = (lastEntryOf? y kind).isNone := by
  rcases h with ⟨hx, hy⟩ | ⟨e, he, f, hf, -⟩
  · rw [hx, hy]
  · rw [Option.mem_def.1 he, Option.mem_def.1 hf]
    rfl

/-- The same sections are read in the same way. -/
theorem SameSection.alike_read {α : Type} [Inhabited α] {kind : UInt16}
    {part : Section} {r : Reader α} (h : SameSection x y kind) (hr : Blind r r)
    (hid : part.id? = some kind) :
    Alike Eq ((entriesAt x).read x part r) ((entriesAt y).read y part r) := by
  refine Alike.bind (R := Eq) ?_ ?_
  · unfold Directory.read?
    rw [hid, Option.bind_some, Option.bind_some, find?_entriesAt, find?_entriesAt]
    rcases h with ⟨hx, hy⟩ | ⟨e, he, f, hf, hex, hfy, hbytes⟩
    · rw [hx, hy]
      exact .ok rfl
    · rw [Option.mem_def.1 he, Option.mem_def.1 hf]
      dsimp only
      rw [Span.of, if_pos hex, Span.of, if_pos hfy]
      refine Alike.bind (R := fun s t : Span => s.bytes = t.bytes) (.ok hbytes) fun s t hst => ?_
      refine (hr.readBy hst).bind ?_
      rintro a b rfl
      exact .ok rfl
  · rintro a b rfl
    exact .ok rfl

/-- Packets with the same sections are read as the same but for the header, or not at all. -/
theorem alike_load (hx : Framed x) (hy : Framed y)
    (h : ∀ kind ∈ sectionKinds, SameSection x y kind) : Alike SameParts (load x) (load y) := by
  have hrequired : (requiredKinds.find? fun kind => (lastEntryOf? x kind).isNone) =
      requiredKinds.find? fun kind => (lastEntryOf? y kind).isNone := by
    refine List.find?_congr fun kind hkind => (h kind ?_).isNone_eq
    exact List.mem_append_left [0x0101] hkind
  rw [load_of_framed hx, load_of_framed hy, directory_of_framed hx,
    directory_of_framed hy, hrequired]
  cases requiredKinds.find? fun kind => (lastEntryOf? y kind).isNone with
  | some kind => exact .error _ _
  | none =>
    show Alike SameParts (readParts x (headerAt x) (entriesAt x))
      (readParts y (headerAt y) (entriesAt y))
    refine ((h 0x0001 (by decide)).alike_read blind.rel_contract rfl).bind ?_
    rintro contract _ rfl
    refine ((h 0x0002 (by decide)).alike_read blind.rel_constants rfl).bind ?_
    rintro constants _ rfl
    refine ((h 0x0003 (by decide)).alike_read blind.rel_dependencies rfl).bind ?_
    rintro dependencies _ rfl
    refine ((h 0x0004 (by decide)).alike_read blind.rel_code rfl).bind ?_
    rintro code _ rfl
    refine ((h 0x0101 (by decide)).alike_read blind.rel_fixtures rfl).bind ?_
    rintro fixtures _ rfl
    exact .ok ⟨rfl, rfl, rfl, rfl, rfl⟩

end Packet

/-! ## Bytes behind a packet -/

section

variable {data : List UInt8} (suffix : List UInt8)

/-- What lies inside a packet is not moved by more bytes at the end. -/
theorem Span.of_append_right {part : Section} {offset length : Nat} {span : Span}
    (h : Span.of data part offset length = .ok span) :
    Span.of (data ++ suffix) part offset length = .ok span := by
  unfold Span.of at h ⊢
  by_cases hinside : offset + length ≤ data.length
  · have hinside' : offset + length ≤ (data ++ suffix).length := by
      rw [List.length_append]
      omega
    have hbytes : ((data ++ suffix).drop offset).take length = (data.drop offset).take length := by
      rw [List.drop_append_of_le_length (by omega), List.take_append_of_le_length]
      rw [List.length_drop]
      omega
    rw [if_pos hinside] at h
    rw [if_pos hinside', hbytes]
    exact h
  · rw [if_neg hinside] at h
    cases h

theorem Directory.read_append {α : Type} [Inhabited α] {d : Directory} {part : Section}
    {r : Reader α} {a : α} (h : d.read data part r = .ok a) :
    d.read (data ++ suffix) part r = .ok a := by
  obtain ⟨found, hfound, h⟩ := bind_eq_ok.1 h
  refine bind_eq_ok.2 ⟨found, ?_, h⟩
  unfold read? at hfound ⊢
  cases hentry : part.id?.bind d.find? with
  | none =>
    rw [hentry] at hfound
    exact hfound
  | some e =>
    rw [hentry] at hfound
    obtain ⟨span, hspan, hread⟩ := bind_eq_ok.1 hfound
    exact bind_eq_ok.2 ⟨span, Span.of_append_right suffix hspan, hread⟩

namespace Packet

theorem directory_append {count : UInt16} {d : Directory} (h : directory data count = .ok d) :
    directory (data ++ suffix) count = .ok d := by
  obtain ⟨span, hspan, h⟩ := bind_eq_ok.1 h
  exact bind_eq_ok.2 ⟨span, Span.of_append_right suffix hspan, h⟩

theorem readParts_append {header : Header} {d : Directory} {p : Packet}
    (h : readParts data header d = .ok p) : readParts (data ++ suffix) header d = .ok p := by
  obtain ⟨contract, hcontract, h⟩ := bind_eq_ok.1 h
  refine bind_eq_ok.2 ⟨contract, Directory.read_append suffix hcontract, ?_⟩
  obtain ⟨constants, hconstants, h⟩ := bind_eq_ok.1 h
  refine bind_eq_ok.2 ⟨constants, Directory.read_append suffix hconstants, ?_⟩
  obtain ⟨dependencies, hdependencies, h⟩ := bind_eq_ok.1 h
  refine bind_eq_ok.2 ⟨dependencies, Directory.read_append suffix hdependencies, ?_⟩
  obtain ⟨code, hcode, h⟩ := bind_eq_ok.1 h
  refine bind_eq_ok.2 ⟨code, Directory.read_append suffix hcode, ?_⟩
  obtain ⟨fixtures, hfixtures, h⟩ := bind_eq_ok.1 h
  exact bind_eq_ok.2 ⟨fixtures, Directory.read_append suffix hfixtures, h⟩

/-- Bytes behind a packet are not looked at. -/
theorem load_append {p : Packet} (h : load data = .ok p) : load (data ++ suffix) = .ok p := by
  rw [load_eq] at h ⊢
  by_cases hshort : data.length < headerSize
  · rw [if_pos hshort] at h
    cases h
  · have hlong : ¬(data ++ suffix).length < headerSize := by
      rw [List.length_append]
      omega
    rw [if_neg hshort] at h
    rw [if_neg hlong]
    obtain ⟨span, hspan, h⟩ := bind_eq_ok.1 h
    refine bind_eq_ok.2 ⟨span, Span.of_append_right suffix hspan, ?_⟩
    obtain ⟨header, hheader, h⟩ := bind_eq_ok.1 h
    refine bind_eq_ok.2 ⟨header, hheader, ?_⟩
    obtain ⟨d, hd, h⟩ := bind_eq_ok.1 h
    exact bind_eq_ok.2 ⟨d, directory_append suffix hd, readParts_append suffix h⟩

end Packet

end

namespace Packet

/-- **Loading sees sections only.** Two packets in whose directories the last entries of each kind
point at the same bytes are both read, as the same but for their headers, or both malformed. More
bytes at the end change nothing, and fewer bytes give the same packet or a fault. -/
theorem load_sees_sections_only :
    (∀ x y : List UInt8, Framed x → Framed y → (∀ kind ∈ sectionKinds, SameSection x y kind) →
      Alike SameParts (load x) (load y)) ∧
    ∀ (data : List UInt8) (p : Packet), load data = .ok p →
      (∀ suffix, load (data ++ suffix) = .ok p) ∧
        ∀ front, front <+: data → load front = .ok p ∨ ∃ e, load front = .error e := by
  refine ⟨fun x y hx hy h => alike_load hx hy h, fun data p hload => ⟨?_, ?_⟩⟩
  · intro suffix
    exact load_append suffix hload
  · rintro front ⟨rest, rfl⟩
    cases hfront : load front with
    | error e => exact .inr ⟨e, rfl⟩
    | ok q =>
      have hq := load_append rest hfront
      rw [hload] at hq
      exact .inl (congrArg Except.ok (Except.ok.inj hq).symm)

/-- A header with a number of directory entries, and what follows it. -/
def headed (count : UInt8) (rest : List UInt8) : List UInt8 :=
  Reader.writeNumber 4 magic.toNat ++ List.replicate 8 0 ++ [count, 0] ++
    List.replicate 74 0 ++ rest

/-- A packet with its sections one after another: a contract without name and fields, no constants,
no dependencies, and one instruction. -/
def orderly : List UInt8 :=
  headed 4 ([⟨1, 128, 14⟩, ⟨2, 142, 0⟩, ⟨3, 142, 2⟩, ⟨4, 144, 8⟩].flatMap DirectoryEntry.write ++
    List.replicate 24 0)

/-- The same sections in another order and on top of each other. Before them the directory has a
section of an unknown kind and a contract that does not lie inside; there is a gap, and there are
bytes left at the end. -/
def disorderly : List UInt8 :=
  headed 6 ([⟨4, 150, 8⟩, ⟨9, 7, 7⟩, ⟨1, 4000, 14⟩, ⟨3, 150, 2⟩, ⟨1, 150, 14⟩, ⟨2, 0, 0⟩].flatMap
    DirectoryEntry.write ++ [1, 2] ++ List.replicate 14 0 ++ [3, 4, 5])

/-- The two packets are read alike, and one of them with more bytes too. -/
theorem disorderly_loads_alike :
    Framed orderly ∧ Framed disorderly ∧ (∀ kind ∈ sectionKinds,
      SameSection orderly disorderly kind) ∧
      (∃ p, load orderly = .ok p ∧ p.header.sectionCount = 4 ∧ p.code = #[⟨0, 0, 0, 0, 0⟩] ∧
        load (orderly ++ [1, 2, 3]) = .ok p) ∧
      (∃ p, load disorderly = .ok p ∧ p.header.sectionCount = 6) ∧
      Alike SameParts (load orderly) (load disorderly) := by
  have horderly : Framed orderly := by decide +kernel
  have hdisorderly : Framed disorderly := by decide +kernel
  have hsections : ∀ kind ∈ sectionKinds, SameSection orderly disorderly kind := by
    have hall : sectionKinds.all (fun kind => decide (SameSection orderly disorderly kind)) =
        true := by
      decide +kernel
    exact fun kind hkind => of_decide_eq_true (List.all_eq_true.1 hall kind hkind)
  have hload : load orderly =
      .ok { header := { sectionCount := 4 }, code := #[⟨0, 0, 0, 0, 0⟩] } := by
    decide +kernel
  have hload' : load disorderly =
      .ok { header := { sectionCount := 6 }, code := #[⟨0, 0, 0, 0, 0⟩] } := by
    decide +kernel
  obtain ⟨halike, hmore⟩ := load_sees_sections_only
  exact ⟨horderly, hdisorderly, hsections, ⟨_, hload, rfl, rfl, (hmore _ _ hload).1 [1, 2, 3]⟩,
    ⟨_, hload', rfl⟩, halike _ _ horderly hdisorderly hsections⟩

end Packet

end TagMachine
