import TagMachine.Proofs.Packet.Constants

set_option autoImplicit false

/-! # Packets read in place

`Packet.load` cuts the bytes of a packet into spans and takes values off their front, so it cannot
read what is not there. `Packet.scan` reads the same packet in place: a cursor is a place in the
packet and the end of a part, and nothing but the comparison of the two keeps it inside the packet.
An access outside the packet, a length below zero, a number of the wrong width, a part that is not
listed and a loop that goes on for ever are faults of their own.

None of them occurs, and the two give the same packet or the same fault of the bytes
(`Packet.scan_eq_load`). The invariant is `Scan.Cursor.Shows`: a cursor is inside the packet, and
what lies before its end is the span that the other reader still has. The readers of the parts are
the same functions for both (`Source`), so it is kept if it is kept by the operations of a source
(`Source.Congruence`).
-/

namespace TagMachine

/-! ## Cursors -/

/-- Why reading in place stops. -/
inductive Scan.Fault where
  /-- The bytes of the packet are at fault. -/
  | format (e : FormatError)
  /-- Bytes are read that the packet does not have. -/
  | outside (start stop : Nat)
  /-- The place of a cursor is behind its end. -/
  | negative (pos stop : Nat)
  /-- Bytes are taken for a number of another width. -/
  | width (expected found : Nat)
  /-- A part is read that the directory does not list. -/
  | absent (part : Section)
  /-- A loop does not end. -/
  | endless

/-- A place in a packet, and the end of the part that is read. -/
structure Scan.Cursor where
  part : Section
  pos : Nat
  stop : Nat

/-- Something that reads a packet at a cursor and moves the cursor. -/
abbrev Scan (α : Type) := ReaderT (List UInt8) (StateT Scan.Cursor (Except Scan.Fault)) α

namespace Scan

variable {α β : Type}

def fail (fault : Fault) : Scan α := fun _ _ => .error fault

/-- The bytes of the packet between two places. -/
def slice (start stop : Nat) : Scan (List UInt8) := fun data c =>
  if start ≤ stop ∧ stop ≤ data.length then .ok ((data.drop start).take (stop - start), c)
  else .error (.outside start stop)

/-- The number of bytes before the end. -/
def remaining : Scan Nat := fun _ c =>
  if c.pos ≤ c.stop then .ok (c.stop - c.pos, c) else .error (.negative c.pos c.stop)

def atEnd : Scan Bool := fun _ c => .ok (decide (c.stop ≤ c.pos), c)

/-- The next `count` bytes. -/
def take (count : Nat) : Scan (List UInt8) := fun data c => do
  let (left, c) ← remaining data c
  if left < count then throw (.format (.truncated c.part count c.pos left))
  let (bytes, c) ← slice c.pos (c.pos + count) data c
  return (bytes, { c with pos := c.pos + count })

/-- A number of `count` bytes, which are copied to a place of that width. -/
def number (count : Nat) : Scan Nat := do
  let bytes ← take count
  if bytes.length = count then return littleEndian bytes else fail (.width count bytes.length)

/-- A cursor for a range of the packet. -/
def Cursor.of (data : List UInt8) (part : Section) (offset length : Nat) : Except Fault Cursor :=
  if offset + length ≤ data.length then .ok ⟨part, offset, offset + length⟩
  else .error (.format (.outside part length offset data.length))

/-- What is read at a cursor of its own. -/
def Cursor.readBy (data : List UInt8) (c : Cursor) (x : Scan α) : Except Fault α :=
  (x data c).map Prod.fst

/-- A value read from the next `count` bytes, at a cursor of its own. -/
def within (count : Nat) (x : Scan α) : Scan α := fun data start => do
  let (_, rest) ← take count data start
  let c ← Cursor.of data start.part start.pos count
  return (← c.readBy data x, rest)

/-- A loop that goes on when no byte can be left does not end. -/
def overdue : Scan (List α) := do
  if ← atEnd then return [] else fail .endless

end Scan

instance : Source (ReaderT (List UInt8) (StateT Scan.Cursor (Except Scan.Fault))) where
  fail e := Scan.fail (.format e)
  take := Scan.take
  number := Scan.number
  remaining := Scan.remaining
  atEnd := Scan.atEnd
  within := Scan.within
  overdue := Scan.overdue

/-! ## Packets -/

/-- What is read of a part, if the directory lists it. -/
def Directory.scan? {α : Type} (d : Directory) (data : List UInt8) (part : Section) (x : Scan α) :
    Except Scan.Fault (Option α) :=
  match part.id?.bind d.find? with
  | some e => do
    let c ← Scan.Cursor.of data part e.offset e.length
    return some (← c.readBy data x)
  | none => return none

/-- What is read of a part that the directory has to list. -/
def Directory.scan {α : Type} (d : Directory) (data : List UInt8) (part : Section) (x : Scan α) :
    Except Scan.Fault α := do
  match ← d.scan? data part x with
  | some a => return a
  | none => throw (.absent part)

namespace Packet

def scanDirectory (data : List UInt8) (count : UInt16) : Except Scan.Fault Directory := do
  let c ← Scan.Cursor.of data .directory headerSize (count.toNat * entrySize)
  let entries ← c.readBy data (Source.times DirectoryEntry.read count.toNat)
  match requiredKinds.find? fun kind => (Directory.find? entries kind).isNone with
  | some kind => throw (.format (.missingSection kind))
  | none => return entries

/-- The packet that bytes stand for, read in place. -/
def scan (data : List UInt8) : Except Scan.Fault Packet := do
  if data.length < headerSize then throw (.format (.tooSmall data.length))
  let header ← (← Scan.Cursor.of data .header 0 headerSize).readBy data Header.read
  let directory ← scanDirectory data header.sectionCount
  let contract ← directory.scan data .contract Contract.read
  let constants ← directory.scan data .constants Constant.readAll
  let dependencies ← directory.scan data .dependencies readDependencies
  let code ← directory.scan data .code Instruction.readAll
  let fixtures ← directory.scan? data .tests Fixture.readAll
  return { header, contract, constants := constants.toArray, dependencies,
           code := code.toArray, fixtures := fixtures.getD [] }

end Packet

/-! ## Relations that readers keep -/

/-- A reader that takes at least one byte. -/
def Reader.Takes {α : Type} (r : Reader α) : Prop :=
  ∀ s a t, r s = .ok (a, t) → t.bytes.length < s.bytes.length

/-- A relation of what is read from a source and from spans that holds of the ways to read bytes and
is kept when readers are put together. -/
structure Source.Congruence (m : Type → Type) [Source m] where
  Rel {α : Type} : m α → Reader α → Prop
  rel_pure {α : Type} (a : α) : Rel (pure a) (pure a)
  rel_fail {α : Type} (e : FormatError) : Rel (fail e : m α) (fail e)
  rel_bind {α β : Type} {x : m α} {r : Reader α} {f : α → m β} {g : α → Reader β} :
    Rel x r → (∀ a, Rel (f a) (g a)) → Rel (x >>= f) (r >>= g)
  rel_take (count : Nat) : Rel (take count) (take count)
  rel_number (count : Nat) : Rel (number count) (number count)
  rel_remaining : Rel remaining remaining
  rel_within {α : Type} {x : m α} {r : Reader α} :
    Rel x r → ∀ count, Rel (within count x) (within count r)
  rel_untilEnd {α : Type} {x : m α} {r : Reader α} : Rel x r → r.Takes →
    Rel (do untilEnd x (← remaining)) (do untilEnd r (← remaining))

namespace Scan

variable {α β : Type} {data : List UInt8} {c : Cursor} {s t : Span} {x : Scan α} {r : Reader α}
  {count : Nat}

open Source (untilEnd)

/-- The cursor is inside the packet, and the span has what lies between it and its end. -/
structure Cursor.Shows (data : List UInt8) (c : Cursor) (s : Span) : Prop where
  part : s.part = c.part
  offset : s.offset = c.pos
  ordered : c.pos ≤ c.stop
  inside : c.stop ≤ data.length
  bytes : s.bytes = (data.drop c.pos).take (c.stop - c.pos)

theorem Cursor.Shows.length {data : List UInt8} {c : Cursor} {s : Span} (h : c.Shows data s) :
    s.bytes.length = c.stop - c.pos := by
  have hordered := h.ordered
  have hinside := h.inside
  rw [h.bytes, List.length_take, List.length_drop]
  omega

/-- Reading in place comes to the same value and the same rest, or to the same fault of the
bytes. -/
inductive Agrees (data : List UInt8) :
    Except Fault (α × Cursor) → Except FormatError (α × Span) → Prop
  | ok {a : α} {c : Cursor} {s : Span} (h : c.Shows data s) : Agrees data (.ok (a, c)) (.ok (a, s))
  | error (e : FormatError) : Agrees data (.error (.format e)) (.error e)

/-- Reading in place does as a reader does, wherever a cursor shows the span of the reader. -/
def Follows (x : Scan α) (r : Reader α) : Prop :=
  ∀ data c s, c.Shows data s → Agrees data (x data c) (r s)

theorem Agrees.bind {x : Except Fault (α × Cursor)} {y : Except FormatError (α × Span)}
    {f : α × Cursor → Except Fault (β × Cursor)} {g : α × Span → Except FormatError (β × Span)}
    (h : Agrees data x y)
    (hfg : ∀ a c s, y = .ok (a, s) → c.Shows data s → Agrees data (f (a, c)) (g (a, s))) :
    Agrees data (x >>= f) (y >>= g) := by
  cases h with
  | ok hshows => exact hfg _ _ _ rfl hshows
  | error e => exact .error e

theorem agrees_bind {f : α → Scan β} {g : α → Reader β} (h : Agrees data (x data c) (r s))
    (hfg : ∀ a c' t, r s = .ok (a, t) → c'.Shows data t → Agrees data (f a data c') (g a t)) :
    Agrees data ((x >>= f) data c) ((r >>= g) s) :=
  h.bind hfg

/-! ### Bytes and numbers -/

theorem remaining_eq (h : c.Shows data s) : remaining data c = .ok (s.bytes.length, c) := by
  unfold remaining
  rw [if_pos h.ordered, h.length]

/-- What is left after some bytes were taken. -/
theorem Cursor.Shows.advance (h : c.Shows data s) (hcount : count ≤ s.bytes.length) :
    Cursor.Shows data { c with pos := c.pos + count }
      { s with offset := s.offset + count, bytes := s.bytes.drop count } := by
  have hlength := h.length
  have hordered := h.ordered
  refine ⟨h.part, by simp [h.offset], by simp only; omega, h.inside, ?_⟩
  dsimp only
  rw [h.bytes, List.drop_take, List.drop_drop]
  congr 1
  omega

/-- The bytes between two places are the first ones of the span. -/
theorem slice_eq (h : c.Shows data s) (hcount : count ≤ s.bytes.length) :
    slice c.pos (c.pos + count) data c = .ok (s.bytes.take count, c) := by
  have hlength := h.length
  have hordered := h.ordered
  have hinside := h.inside
  unfold slice
  rw [if_pos ⟨by omega, by omega⟩, Nat.add_sub_cancel_left, h.bytes, List.take_take]
  congr 3
  omega

theorem follows_take (count : Nat) : Follows (take count) (Reader.take count) := by
  intro data c s h
  unfold take Reader.take
  rw [remaining_eq h]
  dsimp only [ok_bind]
  rw [List.length_take]
  by_cases hcount : s.bytes.length < count
  · rw [if_pos hcount, if_pos (by omega), h.part, h.offset]
    exact .error _
  · rw [if_neg hcount, if_neg (by omega)]
    show Agrees data (slice c.pos (c.pos + count) data c >>= fun p =>
      .ok (p.1, { p.2 with pos := p.2.pos + count })) _
    rw [slice_eq h (Nat.not_lt.1 hcount)]
    exact .ok (h.advance (Nat.not_lt.1 hcount))

theorem follows_atEnd : Follows atEnd Reader.atEnd := by
  intro data c s h
  have hend : decide (c.stop ≤ c.pos) = s.bytes.isEmpty := by
    have hlength := h.length
    cases hbytes : s.bytes with
    | nil =>
      rw [hbytes, List.length_nil] at hlength
      exact decide_eq_true (by omega)
    | cons b bytes =>
      rw [hbytes, List.length_cons] at hlength
      exact decide_eq_false (by omega)
  unfold atEnd Reader.atEnd
  rw [hend]
  exact .ok h

/-- The bytes that are copied to a number have its width. -/
theorem follows_number (count : Nat) : Follows (number count) (Reader.number count) := by
  intro data c s h
  refine (follows_take count data c s h).bind fun bytes c' t hread h' => ?_
  obtain ⟨_, ⟨hlength, rfl⟩, -⟩ := (Reader.fixed_take count s bytes t).1 hread
  dsimp only
  rw [if_pos hlength]
  exact .ok h'

/-! ### Parts and loops -/

theorem Agrees.map_fst {x : Except Fault (α × Cursor)} {y : Except FormatError (α × Span)}
    (h : Agrees data x y) : x.map Prod.fst = (y.map Prod.fst).mapError .format := by
  cases h <;> rfl

/-- What a reader makes of a span is what is read at a cursor that shows it. -/
theorem Follows.readBy (hx : Follows x r) (h : c.Shows data s) :
    c.readBy data x = (s.readBy r).mapError .format :=
  (hx data c s h).map_fst

/-- The bytes that were taken are shown by a cursor at their place. -/
theorem Cursor.Shows.taken (h : c.Shows data s) {bytes : List UInt8} (hsplits : s.Splits bytes t) :
    ∃ c', Cursor.of data c.part c.pos bytes.length = .ok c' ∧
      c'.Shows data { s with bytes := bytes } := by
  have hlength := h.length
  rw [hsplits.bytes, List.length_append] at hlength
  have hordered := h.ordered
  have hinside := h.inside
  refine ⟨⟨c.part, c.pos, c.pos + bytes.length⟩, if_pos (by omega), h.part,
    h.offset, by simp, ?_, ?_⟩
  · dsimp only
    omega
  · have htake := congrArg (List.take bytes.length) h.bytes
    rw [hsplits.bytes, List.take_left, List.take_take] at htake
    refine htake.trans ?_
    dsimp only
    congr 1
    omega

theorem follows_within (hx : Follows x r) (count : Nat) :
    Follows (within count x) (Reader.within count r) := by
  intro data c s h
  refine (follows_take count data c s h).bind fun bytes c' t hread h' => ?_
  obtain ⟨_, ⟨rfl, rfl⟩, hsplits⟩ := (Reader.fixed_take count s bytes t).1 hread
  -- the cursor of its own starts where the bytes were taken, not where the other one stands now
  obtain ⟨inner, hinner, hshows⟩ := h.taken hsplits
  show Agrees data (Cursor.of data c.part c.pos bytes.length >>= fun start =>
      start.readBy data x >>= fun a => .ok (a, c'))
    ((r { s with bytes } >>= fun q => .ok (q, t)) >>= fun q => .ok (q.1.1, q.2))
  rw [hinner, ok_bind, hx.readBy hshows]
  show Agrees data (((r { s with bytes }).map Prod.fst).mapError .format >>= fun a => .ok (a, c')) _
  cases r { s with bytes } with
  | error e => exact .error e
  | ok q => exact .ok h'

/-- Where every value takes a byte, a loop up to the end has ended after as many values as there are
bytes. -/
theorem follows_untilEnd (hx : Follows x r) (hr : r.Takes) (count : Nat) :
    ∀ data c s, c.Shows data s → s.bytes.length ≤ count →
      Agrees data (untilEnd x count data c) (untilEnd r count s) := by
  induction count with
  | zero =>
    -- no byte is left, so the loop ends where the watch ends
    intro data c s h hcount
    have hlength := h.length
    show Agrees data ((if decide (c.stop ≤ c.pos) = true then pure [] else fail .endless :
      Scan (List α)) data c) _
    rw [if_pos (decide_eq_true (by omega))]
    exact .ok h
  | succ count ih =>
    intro data c s h hcount
    rw [untilEnd, untilEnd]
    refine agrees_bind (follows_atEnd data c s h) fun done c' s' hdone h' => ?_
    obtain ⟨-, rfl⟩ := Prod.mk.inj (Except.ok.inj hdone)
    cases done with
    | true => exact .ok h'
    | false =>
      refine agrees_bind (hx data c' s h') fun a c'' t hread h'' => ?_
      have hfewer := hr s a t hread
      exact agrees_bind (ih data c'' t h'' (by omega)) fun _ _ _ _ hrest => .ok hrest

/-- Reading in place follows readers. -/
def follows : Source.Congruence Scan where
  Rel := Follows
  rel_pure _ _ _ _ h := .ok h
  rel_fail e _ _ _ _ := .error e
  rel_bind hx hf data c s h := agrees_bind (hx data c s h) fun a c' t _ h' => hf a data c' t h'
  rel_take := follows_take
  rel_number := follows_number
  rel_remaining data c s h := by
    show Agrees data (remaining data c) _
    rw [remaining_eq h]
    exact .ok h
  rel_within := follows_within
  rel_untilEnd {_ x r} hx hr data c s h := by
    show Agrees data (remaining data c >>= fun p => untilEnd x p.1 data p.2) _
    rw [remaining_eq h]
    exact follows_untilEnd hx hr _ data c s h le_rfl

end Scan

/-! ## The parts of a packet -/

theorem Constant.takes_read : Reader.Takes Constant.read := by
  intro s c t h
  refine accepts_read.length_lt (fun _ _ => ?_) h
  rintro ⟨e, rfl, -⟩
  exact e.write_ne_nil

namespace Source.Congruence

variable {m : Type → Type} [Source m] (C : Congruence m)

section Values

variable {α β : Type} {x : m α} {r : Reader α}

theorem rel_map (hx : C.Rel x r) (g : α → β) : C.Rel (do return g (← x)) (do return g (← r)) :=
  C.rel_bind hx fun a => C.rel_pure (g a)

theorem rel_skip (count : Nat) : C.Rel (skip count) (skip count) := C.rel_map (C.rel_take count) _

theorem rel_uint8 : C.Rel uint8 uint8 := C.rel_map (C.rel_number 1) _

theorem rel_uint16 : C.Rel uint16 uint16 := C.rel_map (C.rel_number 2) _

theorem rel_uint32 : C.Rel uint32 uint32 := C.rel_map (C.rel_number 4) _

theorem rel_uint64 : C.Rel uint64 uint64 := C.rel_map (C.rel_number 8) _

theorem rel_tagSet : C.Rel tagSet tagSet := C.rel_map (C.rel_number 8) _

theorem rel_text (count : Nat) : C.Rel (text count) (text count) := C.rel_map (C.rel_take count) _

theorem rel_shortText : C.Rel shortText shortText := C.rel_bind C.rel_uint16 fun _ => C.rel_text _

theorem rel_longText : C.Rel longText longText := C.rel_bind C.rel_uint32 fun _ => C.rel_text _

theorem rel_times (hx : C.Rel x r) (count : Nat) : C.Rel (times x count) (times r count) := by
  induction count with
  | zero => exact C.rel_pure []
  | succ count ih => exact C.rel_bind hx fun a => C.rel_map ih _

end Values

theorem rel_skipDetail (depth : Nat) (id : UInt8) :
    C.Rel (skipDetail depth id) (skipDetail depth id) := by
  induction depth generalizing id with
  | zero => exact C.rel_fail _
  | succ depth ih =>
    unfold skipDetail
    cases FieldType.ofId id with
    | maybe | list => exact C.rel_bind C.rel_uint8 fun inner => ih inner
    | record =>
      refine C.rel_bind C.rel_uint16 fun count => C.rel_map (C.rel_times ?_ _) _
      exact C.rel_bind C.rel_uint16 fun length => C.rel_bind (C.rel_skip _) fun _ =>
        C.rel_bind C.rel_uint8 fun inner => C.rel_bind (ih inner) fun _ => C.rel_skip 10
    | _ => exact C.rel_pure ()

theorem rel_field : C.Rel FieldDef.read FieldDef.read :=
  C.rel_bind C.rel_shortText fun _ => C.rel_bind C.rel_uint8 fun type =>
    C.rel_bind (C.rel_skipDetail _ type) fun _ => C.rel_bind C.rel_tagSet fun _ =>
      C.rel_map C.rel_uint16 _

theorem rel_tag : C.Rel TagDef.read TagDef.read :=
  C.rel_bind C.rel_uint8 fun _ => C.rel_bind C.rel_shortText fun _ => C.rel_map C.rel_shortText _

theorem rel_sanitizer : C.Rel SanitizerDef.read SanitizerDef.read :=
  C.rel_bind C.rel_shortText fun _ => C.rel_bind C.rel_uint16 fun _ => C.rel_map C.rel_tagSet _

theorem rel_rule : C.Rel Rule.read Rule.read := by
  refine C.rel_bind C.rel_uint8 fun kind => ?_
  rcases kind.toNat with _ | _ | _ | _ | _ | n
  · exact C.rel_fail _
  · exact C.rel_bind C.rel_uint8 fun _ => C.rel_map C.rel_uint16 _
  · exact C.rel_bind C.rel_tagSet fun _ => C.rel_map C.rel_uint8 _
  · exact C.rel_bind C.rel_shortText fun _ => C.rel_map C.rel_shortText _
  · exact C.rel_bind C.rel_shortText fun _ => C.rel_map C.rel_shortText _
  · exact C.rel_fail _

theorem rel_contract : C.Rel Contract.read Contract.read :=
  C.rel_bind C.rel_shortText fun _ => C.rel_bind C.rel_uint16 fun _ =>
    C.rel_bind C.rel_uint16 fun _ =>
    C.rel_bind C.rel_uint16 fun _ => C.rel_bind C.rel_uint16 fun _ =>
      C.rel_bind C.rel_uint16 fun _ =>
    C.rel_bind C.rel_uint16 fun _ => C.rel_bind (C.rel_times C.rel_tag _) fun _ =>
    C.rel_bind (C.rel_times C.rel_field _) fun _ => C.rel_bind (C.rel_times C.rel_field _) fun _ =>
    C.rel_bind (C.rel_times C.rel_sanitizer _) fun _ => C.rel_map (C.rel_times C.rel_rule _) _

theorem rel_payload (type : UInt8) (length : Nat) :
    C.Rel (Constant.readPayload type length) (Constant.readPayload type length) := by
  unfold Constant.readPayload
  cases FieldType.ofId type with
  | string => exact C.rel_map (C.rel_text length) _
  | integer => exact C.rel_map C.rel_uint64 _
  | float => exact C.rel_map C.rel_uint64 _
  | boolean => exact C.rel_map C.rel_uint8 _
  | nothing => exact C.rel_pure _
  | _ => exact C.rel_fail _

theorem rel_constants : C.Rel Constant.readAll Constant.readAll := by
  refine C.rel_untilEnd ?_ Constant.takes_read
  exact C.rel_bind C.rel_uint8 fun type => C.rel_bind C.rel_uint32 fun length =>
    C.rel_within (C.rel_payload type length.toNat) _

theorem rel_dependencies : C.Rel readDependencies readDependencies :=
  C.rel_bind C.rel_uint16 fun _ => C.rel_times C.rel_uint16 _

theorem rel_code : C.Rel Instruction.readAll Instruction.readAll := by
  refine C.rel_bind C.rel_remaining fun _ => C.rel_times ?_ _
  exact C.rel_bind C.rel_uint8 fun _ => C.rel_bind C.rel_uint8 fun _ =>
    C.rel_bind C.rel_uint16 fun _ =>
    C.rel_bind C.rel_uint16 fun _ => C.rel_map C.rel_uint16 _

theorem rel_fixtures : C.Rel Fixture.readAll Fixture.readAll := by
  refine C.rel_bind C.rel_uint16 fun _ => C.rel_times ?_ _
  exact C.rel_bind C.rel_shortText fun _ => C.rel_bind C.rel_longText fun _ =>
    C.rel_map C.rel_longText _

theorem rel_entry : C.Rel DirectoryEntry.read DirectoryEntry.read :=
  C.rel_bind C.rel_uint16 fun _ => C.rel_bind C.rel_uint32 fun _ => C.rel_map C.rel_uint32 _

theorem rel_header : C.Rel Header.read Header.read := by
  refine C.rel_bind C.rel_uint32 fun found => ?_
  by_cases hmagic : found ≠ magic
  · rw [if_pos hmagic, if_pos hmagic]
    exact C.rel_fail _
  · rw [if_neg hmagic, if_neg hmagic]
    exact C.rel_bind C.rel_uint16 fun _ => C.rel_bind C.rel_uint16 fun _ =>
      C.rel_bind C.rel_uint32 fun _ => C.rel_map C.rel_uint16 _

end Source.Congruence

/-! ## Loading -/

/-- Two computations that go on alike, where the faults of one are the errors of the other. -/
theorem bind_eq_mapError {α β : Type} {x : Except Scan.Fault α} {y : Except FormatError α}
    {f : α → Except Scan.Fault β} {g : α → Except FormatError β} (h : x = y.mapError .format)
    (hfg : ∀ a, y = .ok a → f a = (g a).mapError .format) :
    (x >>= f) = (y >>= g).mapError .format := by
  subst h
  cases y with
  | error e => rfl
  | ok a => exact hfg a rfl

/-- What a reader makes of a range is what is read at a cursor for the range. -/
theorem Scan.Follows.bind_readBy {α β : Type} {x : Scan α} {r : Reader α} (hx : Follows x r)
    {f : α → Except Fault β} {g : α → Except FormatError β}
    (hfg : ∀ a, f a = (g a).mapError .format) (data : List UInt8) (part : Section)
    (offset length : Nat) :
    (Cursor.of data part offset length >>= fun c => c.readBy data x >>= f) =
      (Span.of data part offset length >>= fun s => s.readBy r >>= g).mapError .format := by
  unfold Cursor.of Span.of
  by_cases h : offset + length ≤ data.length
  · rw [if_pos h, if_pos h]
    refine bind_eq_mapError (hx.readBy ⟨rfl, rfl, Nat.le_add_right .., h, ?_⟩) fun a _ => hfg a
    rw [Nat.add_sub_cancel_left]
  · rw [if_neg h, if_neg h]
    rfl

namespace Directory

variable {α : Type} {x : Scan α} {r : Reader α}

theorem scan?_eq (hx : Scan.Follows x r) (d : Directory) (data : List UInt8) (part : Section) :
    d.scan? data part x = (d.read? data part r).mapError .format := by
  unfold scan? read?
  cases part.id?.bind d.find? with
  | none => rfl
  | some e =>
    refine hx.bind_readBy (fun a => ?_) data part e.offset e.length
    rfl

/-- A part that is listed is read. -/
theorem scan_eq [Inhabited α] (hx : Scan.Follows x r) {d : Directory} (data : List UInt8)
    {part : Section} (hlisted : (part.id?.bind d.find?).isSome = true) :
    d.scan data part x = (d.read data part r).mapError .format := by
  refine bind_eq_mapError (scan?_eq hx d data part) fun found hfound => ?_
  cases found with
  | some a => rfl
  | none =>
    unfold read? at hfound
    obtain ⟨e, he⟩ := Option.isSome_iff_exists.1 hlisted
    rw [he] at hfound
    obtain ⟨_, -, hfound⟩ := bind_eq_ok.1 hfound
    obtain ⟨_, -, hfound⟩ := bind_eq_ok.1 hfound
    cases hfound

end Directory

namespace Packet

theorem scanDirectory_eq (data : List UInt8) (count : UInt16) :
    scanDirectory data count = (directory data count).mapError .format := by
  refine Scan.Follows.bind_readBy (Scan.follows.rel_times Scan.follows.rel_entry count.toNat)
    (fun entries => ?_) data .directory headerSize (count.toNat * entrySize)
  cases requiredKinds.find? fun kind => (Directory.find? entries kind).isNone with
  | some kind => rfl
  | none => rfl

theorem listed_of_directory {data : List UInt8} {count : UInt16} {d : Directory}
    (h : directory data count = .ok d) {kind : UInt16} (hkind : kind ∈ requiredKinds) :
    (d.find? kind).isSome = true := by
  obtain ⟨_, -, h⟩ := bind_eq_ok.1 h
  obtain ⟨entries, -, h⟩ := bind_eq_ok.1 h
  split at h
  · cases h
  · next hnone =>
      obtain rfl := pure_eq_ok.1 h
      have hfound := List.find?_eq_none.1 hnone kind hkind
      simpa [Option.isSome_iff_ne_none] using hfound

/-- A packet read in place is the packet that is loaded, and no fault occurs but those of the
bytes. -/
theorem scan_eq_load (data : List UInt8) : scan data = (load data).mapError .format := by
  unfold scan load
  by_cases hshort : data.length < headerSize
  · rw [if_pos hshort, if_pos hshort]
    rfl
  · rw [if_neg hshort, if_neg hshort]
    refine Scan.Follows.bind_readBy Scan.follows.rel_header (fun header =>
      ?_) data .header 0 headerSize
    refine bind_eq_mapError (scanDirectory_eq data _) fun d hd => ?_
    have hlisted {part : Section} {kind : UInt16} (hpart : part.id? = some kind)
        (hkind : kind ∈ requiredKinds) : (part.id?.bind d.find?).isSome = true := by
      rw [hpart]
      exact listed_of_directory hd hkind
    refine bind_eq_mapError (Directory.scan_eq Scan.follows.rel_contract data
      (hlisted rfl (by decide))) fun contract _ => ?_
    refine bind_eq_mapError (Directory.scan_eq Scan.follows.rel_constants data
      (hlisted rfl (by decide))) fun constants _ => ?_
    refine bind_eq_mapError (Directory.scan_eq Scan.follows.rel_dependencies data
      (hlisted rfl (by decide))) fun dependencies _ => ?_
    refine bind_eq_mapError (Directory.scan_eq Scan.follows.rel_code data
      (hlisted rfl (by decide))) fun code _ => ?_
    -- the tests need not be listed: here they are read by `scan?`, there by a default
    unfold Directory.read
    rw [bind_assoc]
    exact bind_eq_mapError (Directory.scan?_eq Scan.follows.rel_fixtures d data .tests) fun _ _ =>
      rfl

end Packet

end TagMachine
