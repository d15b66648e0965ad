import TagMachine.Proofs.Packet.Encode

set_option autoImplicit false

/-! # The part for constants

The bytes of the part for constants are entries one after another, with no count before them and
nothing between them. An entry has the number of a type, the length of its payload, and the payload,
of which the constant need not use all (`Constant.Entry`).

`Constant.readAll` accepts exactly such bytes (`Constant.readAll_grammar`). That is said first of a
single entry (`Constant.accepts_read`), and an entry says itself where it ends
(`Constant.Entry.write_append_inj`), so there is only one way to cut the bytes into entries.
-/

namespace TagMachine.Constant

open Reader Source

/-- The fewest bytes that the payload of a constant has, by the number of its type. -/
def leastPayload (type : UInt8) : Nat :=
  match type.toNat with
  | 2 => 8
  | 3 => 8
  | 4 => 1
  | _ => 0

/-- An entry of the part for constants. -/
@[ext]
structure Entry where
  /-- The number of the type. -/
  type : UInt8
  payload : List UInt8
  /-- It is the type of a string, an integer, a float, a truth value or nothing. -/
  known : 1 ≤ type.toNat ∧ type.toNat ≤ 5
  enough : leastPayload type ≤ payload.length
  /-- The length can be written in four bytes. -/
  fits : payload.length < 2 ^ 32

/-- The constant in a payload: the payload as a text, the number in its first eight bytes, or
whether its first byte is not zero. -/
def decode (type : UInt8) (payload : List UInt8) : Constant :=
  match type.toNat with
  | 1 => .string (Text.ofUtf8 payload)
  | 2 => .integer (Int64.ofNat (littleEndian (payload.take 8)))
  | 3 => .float ⟨UInt64.ofNat (littleEndian (payload.take 8))⟩
  | 4 => .boolean (payload.head?.any (· != 0))
  | _ => .nothing

namespace Entry

def constant (e : Entry) : Constant := decode e.type e.payload

/-- The bytes of an entry. -/
def write (e : Entry) : List UInt8 :=
  writeNumber 1 e.type.toNat ++ (writeNumber 4 e.payload.length ++ e.payload)

end Entry

/-! ## Payloads -/

section Payload

variable {type : UInt8} {length : Nat}

/-- The payload has the length, and the constant of the type is in it. -/
def Payload (type : UInt8) (length : Nat) (payload : List UInt8) (c : Constant) : Prop :=
  payload.length = length ∧ (1 ≤ type.toNat ∧ type.toNat ≤ 5) ∧ leastPayload type ≤ payload.length ∧
    c = decode type payload

theorem accepts_of_fixed {r : Reader Constant} {count : Nat} {g : List UInt8 → Constant}
    (hr : Fixed r count g) (hknown : 1 ≤ type.toNat ∧ type.toNat ≤ 5)
    (hcount : ∀ payload : List UInt8, payload.length = length →
      (count ≤ payload.length ↔ leastPayload type ≤ payload.length))
    (hdecode : ∀ payload : List UInt8,
      payload.length = length → leastPayload type ≤ payload.length →
      g (payload.take count) = decode type payload) :
    Accepts (Reader.within length r) (Payload type length) := by
  refine accepts_congr (accepts_within_fixed hr length) fun payload c =>
    and_congr_right fun hlength => ?_
  rw [hcount payload hlength]
  constructor
  · rintro ⟨hleast, rfl⟩
    exact ⟨hknown, hleast, hdecode payload hlength hleast⟩
  · rintro ⟨-, hleast, rfl⟩
    exact ⟨hleast, (hdecode payload hlength hleast).symm⟩

theorem accepts_of_unknown (h : ¬(1 ≤ type.toNat ∧ type.toNat ≤ 5)) (e : FormatError) :
    Accepts (Reader.within length (throw e)) (Payload type length) := by
  refine accepts_congr (accepts_within (accepts_throw e) length) fun payload c => ?_
  refine iff_of_false ?_ fun hpayload => h hpayload.2.1
  rintro ⟨-, _, _, -, hfalse⟩
  exact hfalse

theorem known_iff : 1 ≤ type.toNat ∧ type.toNat ≤ 5 ↔
    FieldType.ofId type ∈ [.string, .integer, .float, .boolean, .nothing] := by
  unfold FieldType.ofId
  split
  case h_9 =>
    refine iff_of_false (fun hknown => ?_) (by simp)
    grind
  all_goals simp_all

/-- A text takes all of its payload. The readers of the other types may leave bytes. -/
theorem accepts_payload (type : UInt8) (length : Nat) :
    Accepts (Reader.within length (readPayload type length)) (Payload type length) := by
  have htype := FieldType.id_ofId type
  unfold readPayload
  cases hid : FieldType.ofId type with
  | string =>
    obtain rfl : (1 : UInt8) = type := by rw [← htype, hid]; rfl
    refine accepts_of_fixed (fixed_map (fixed_text length) _) (by decide) ?_ ?_
    · intro payload hlength
      simp [hlength, leastPayload]
    · intro payload hlength _
      rw [← hlength, List.take_length]
      rfl
  | integer =>
    obtain rfl : (2 : UInt8) = type := by rw [← htype, hid]; rfl
    exact accepts_of_fixed (fixed_map fixed_uint64 _) (by decide) (fun _ _ => Iff.rfl) fun _ _ _ =>
      rfl
  | float =>
    obtain rfl : (3 : UInt8) = type := by rw [← htype, hid]; rfl
    exact accepts_of_fixed (fixed_map fixed_uint64 _) (by decide) (fun _ _ => Iff.rfl) fun _ _ _ =>
      rfl
  | boolean =>
    obtain rfl : (4 : UInt8) = type := by rw [← htype, hid]; rfl
    refine accepts_of_fixed (fixed_map fixed_uint8 _) (by decide) (fun _ _ => Iff.rfl) ?_
    intro payload _ hleast
    obtain ⟨b, payload, rfl⟩ := List.exists_cons_of_length_pos hleast
    exact congrArg (fun n => boolean (n != 0)) UInt8.ofNat_toNat
  | nothing =>
    obtain rfl : (5 : UInt8) = type := by rw [← htype, hid]; rfl
    exact accepts_of_fixed (fixed_pure _) (by decide) (fun _ _ => Iff.rfl) fun _ _ _ => rfl
  | maybe | list | record | unknown _ =>
    refine accepts_of_unknown (fun hknown => ?_) _
    simp [known_iff, hid] at hknown

end Payload

/-! ## Entries -/

theorem accepts_read : Accepts Constant.read fun bytes c => ∃ e : Entry,
    bytes = e.write ∧ c = e.constant := by
  refine accepts_congr (accepts_bind accepts_uint8 fun type =>
    accepts_bind accepts_uint32 fun length =>
    accepts_payload type length.toNat) fun bytes c => ?_
  constructor
  · rintro ⟨_, _, type, rfl, rfl, _, payload, length, rfl, rfl, hlength, hknown, hleast, rfl⟩
    have hfits : payload.length < 2 ^ 32 := hlength ▸ length.toNat_lt
    refine ⟨⟨type, payload, hknown, hleast, hfits⟩, ?_, rfl⟩
    rw [Entry.write, hlength]
  · rintro ⟨e, rfl, rfl⟩
    obtain ⟨length, hlength, -⟩ := reads_length32 e.fits
    refine ⟨_, _, e.type, rfl, rfl, _, e.payload, length, rfl, ?_, hlength.symm, e.known,
      e.enough, rfl⟩
    rw [hlength]

theorem Entry.write_ne_nil (e : Entry) : e.write ≠ [] := by
  simp [write, writeNumber]

/-- Where an entry ends is said by the entry itself. -/
theorem Entry.write_append_inj {e e' : Entry} {rest rest' : List UInt8}
    (h : e.write ++ rest = e'.write ++ rest') : e = e' ∧ rest = rest' := by
  simp only [write, List.append_assoc] at h
  obtain ⟨htype, h⟩ := List.append_inj h (by simp)
  obtain ⟨hlength, h⟩ := List.append_inj h (by simp)
  obtain ⟨hpayload, hrest⟩ := List.append_inj h (writeNumber_inj e.fits e'.fits hlength)
  have htype := writeNumber_inj e.type.toNat_lt e'.type.toNat_lt htype
  exact ⟨Entry.ext (UInt8.toNat_inj.1 htype) hpayload, hrest⟩

theorem Entry.flatMap_write_inj {es es' : List Entry} (h : es.flatMap write = es'.flatMap write) :
    es = es' := by
  induction es generalizing es' with
  | nil =>
    cases es' with
    | nil => rfl
    | cons e' es' =>
      rw [List.flatMap_cons] at h
      exact absurd (List.append_eq_nil_iff.1 h.symm).1 e'.write_ne_nil
  | cons e es ih =>
    cases es' with
    | nil =>
      rw [List.flatMap_cons] at h
      exact absurd (List.append_eq_nil_iff.1 h).1 e.write_ne_nil
    | cons e' es' =>
      obtain ⟨rfl, hrest⟩ := write_append_inj h
      rw [ih hrest]

/-! ## The whole part -/

theorem sequence_iff {bytes : List UInt8} {cs : List Constant} :
    Sequence (fun bytes c => ∃ e : Entry, bytes = e.write ∧ c = e.constant) bytes cs ↔
      ∃ es : List Entry, es.flatMap Entry.write = bytes ∧ es.map Entry.constant = cs := by
  constructor
  · intro h
    induction h with
    | nil => exact ⟨[], rfl, rfl⟩
    | cons head _ ih =>
      obtain ⟨e, rfl, rfl⟩ := head
      obtain ⟨es, rfl, rfl⟩ := ih
      exact ⟨e :: es, rfl, rfl⟩
  · rintro ⟨es, rfl, rfl⟩
    induction es with
    | nil => exact .nil
    | cons e es ih => exact .cons ⟨e, rfl, rfl⟩ ih

/-- The part for constants is read just where it is entries one after another; they are then read in
full, and the constants are those that the entries stand for. The entries are told by the bytes. All
other bytes are at fault. The loop needs no more rounds than there are bytes. -/
theorem readAll_grammar (part : Section) (offset : Nat) (bytes : List UInt8) :
    (∀ cs t, (readAll : Reader _) ⟨part, offset, bytes⟩ = .ok (cs, t) ↔
      (∃ es : List Entry, es.flatMap Entry.write = bytes ∧ es.map Entry.constant = cs) ∧
        t = ⟨part, offset + bytes.length, []⟩) ∧
    (∀ es es' : List Entry,
      es.flatMap Entry.write = bytes → es'.flatMap Entry.write = bytes → es = es') ∧
    ((¬∃ es : List Entry, es.flatMap Entry.write = bytes) →
      ∃ e : FormatError, (readAll : Reader _) ⟨part, offset, bytes⟩ = .error e) ∧
    ∀ count, bytes.length ≤ count →
      (untilEnd Constant.read count : Reader _) ⟨part, offset, bytes⟩ =
        (readAll : Reader _) ⟨part, offset, bytes⟩ := by
  have hne : ∀ bytes c, (∃ e : Entry, bytes = e.write ∧ c = e.constant) → bytes ≠ [] := by
    rintro _ _ ⟨e, rfl, -⟩
    exact e.write_ne_nil
  have hread : ∀ cs t, (readAll : Reader _) ⟨part, offset, bytes⟩ = .ok (cs, t) ↔
      (∃ es : List Entry, es.flatMap Entry.write = bytes ∧ es.map Entry.constant = cs) ∧
        t = ⟨part, offset + bytes.length, []⟩ := by
    intro cs t
    rw [← sequence_iff]
    exact untilEnd_eq_ok accepts_read hne le_rfl
  refine ⟨hread, fun es es' h h' => Entry.flatMap_write_inj (h.trans h'.symm), fun hnone => ?_,
    fun count hcount => untilEnd_congr accepts_read hne hcount le_rfl⟩
  cases hall : (readAll : Reader _) ⟨part, offset, bytes⟩ with
  | error e => exact ⟨e, rfl⟩
  | ok result =>
    obtain ⟨es, hes, -⟩ := ((hread result.1 result.2).1 hall).1
    exact absurd ⟨es, hes⟩ hnone

/-- Entries with more in their payloads than they need, and a text that breaks off. -/
def Entry.wasteful : List Entry :=
  [⟨4, [2, 0], by decide, by decide, by decide⟩,
   ⟨2, [255, 255, 255, 255, 255, 255, 255, 255, 1], by decide, by decide, by decide⟩,
   ⟨1, [0x68, 0xc3], by decide, by decide, by decide⟩, ⟨5, [7], by decide, by decide, by decide⟩]

theorem wasteful_read :
    (readAll : Reader _) ⟨.constants, 100, [4, 2, 0, 0, 0, 2, 0, 2, 9, 0, 0, 0, 255, 255,
      255, 255, 255, 255, 255, 255, 1, 1, 2, 0, 0, 0, 0x68, 0xc3, 5, 1, 0, 0, 0, 7]⟩ =
        .ok ([.boolean true, .integer (-1), .string "h\ufffd", .nothing], ⟨.constants, 134, []⟩) :=
  ((readAll_grammar .constants 100 _).1 _ _).2 ⟨⟨Entry.wasteful, rfl, by decide⟩, rfl⟩

end TagMachine.Constant
