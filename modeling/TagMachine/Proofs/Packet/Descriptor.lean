import TagMachine.Proofs.Packet.Accepts

set_option autoImplicit false

/-! # Types and their descriptions

A description is a tree (`Descriptor`). `skipDetail` accepts exactly the bytes of the trees that
have the given number at their root and are no higher than allowed
(`Descriptor.accepts_skipDetail`), one induction on how many more levels there may be. A reader that
accepts two descriptions at the front of the same bytes takes the same bytes for both, so no
description is the beginning of another (`Descriptor.detail_eq_of_isPrefix`).
-/

namespace TagMachine

open Reader Source

namespace FieldType

theorem id_ofId (n : UInt8) : (ofId n).id = n := by
  unfold ofId
  split <;> simp_all [FieldType.id, ← UInt8.toNat_inj]

/-- An unknown type does not have the number of a known one. -/
def Proper : FieldType → Prop
  | unknown n => n < 1 ∨ 8 < n
  | _ => True

instance : DecidablePred Proper
  | unknown n => inferInstanceAs (Decidable (n < 1 ∨ 8 < n))
  | string | integer | float | boolean | nothing | maybe | list | record =>
    inferInstanceAs (Decidable True)

theorem ofId_id {t : FieldType} (h : t.Proper) : ofId t.id = t := by
  cases t with
  | unknown n =>
    have hn : n.toNat < 1 ∨ 8 < n.toNat := h
    show ofId n = unknown n
    unfold ofId
    split
    case h_9 => rfl
    all_goals omega
  | _ => rfl

end FieldType

/-- The description of a type. A field of a record has a name, a type, and ten more bytes for its
tags and register. -/
inductive Descriptor where
  | leaf (id : UInt8)
  | maybe (inner : Descriptor)
  | list (inner : Descriptor)
  | record (fields : List (List UInt8 × Descriptor × List UInt8))

namespace Descriptor

/-- A field of a record: its name, the description of its type, and the bytes of its tags and its
register. -/
abbrev Field := List UInt8 × Descriptor × List UInt8

/-- The number of the described type. -/
def id : Descriptor → UInt8
  | leaf id => id
  | maybe _ => FieldType.maybe.id
  | list _ => FieldType.list.id
  | record _ => FieldType.record.id

mutual

/-- The bytes of a description behind the number of the type. -/
def detail : Descriptor → List UInt8
  | leaf _ => []
  | maybe inner => writeNumber 1 inner.id.toNat ++ inner.detail
  | list inner => writeNumber 1 inner.id.toNat ++ inner.detail
  | record fields => writeNumber 2 fields.length ++ detailFields fields

/-- The bytes of the fields of a record. -/
def detailFields : List Field → List UInt8
  | [] => []
  | (name, inner, more) :: fields =>
    (writeNumber 2 name.length ++ name ++ (writeNumber 1 inner.id.toNat ++ (inner.detail ++ more)))
      ++ detailFields fields

end

/-- The bytes of a field of a record. -/
def writeField (field : Field) : List UInt8 :=
  writeNumber 2 field.1.length ++ (field.1 ++
    (writeNumber 1 field.2.1.id.toNat ++ (field.2.1.detail ++ field.2.2)))

theorem detailFields_eq_flatMap (fields : List Field) :
    detailFields fields = fields.flatMap writeField := by
  induction fields with
  | nil => simp [detailFields]
  | cons field fields ih => simp [detailFields, ih, writeField]

/-! ## Descriptions that can be read back -/

mutual

/-- The number of edges on the longest way down. -/
def height : Descriptor → Nat
  | leaf _ => 0
  | maybe inner => inner.height + 1
  | list inner => inner.height + 1
  | record fields => heightFields fields

/-- The number of edges on the longest way down through one of the fields. -/
def heightFields : List Field → Nat
  | [] => 0
  | (_, inner, _) :: fields => max (inner.height + 1) (heightFields fields)

end

mutual

/-- A leaf has the number of a type without parts. A record has at most 65535 fields, whose names
have at most 65535 bytes, and ten bytes for the tags and the register of each. -/
def Valid : Descriptor → Prop
  | leaf id => id ∉ [FieldType.maybe.id, FieldType.list.id, FieldType.record.id]
  | maybe inner => inner.Valid
  | list inner => inner.Valid
  | record fields => fields.length < 2 ^ 16 ∧ ValidFields fields

def ValidFields : List Field → Prop
  | [] => True
  | (name, inner, more) :: fields =>
    (name.length < 2 ^ 16 ∧ inner.Valid ∧ more.length = 10) ∧ ValidFields fields

end

mutual

def decidableValid : (d : Descriptor) → Decidable d.Valid
  | leaf _ => inferInstanceAs (Decidable (_ ∉ _))
  | maybe inner => decidableValid inner
  | list inner => decidableValid inner
  | record fields => @instDecidableAnd _ _ _ (decidableValidFields fields)

def decidableValidFields : (fields : List Field) → Decidable (ValidFields fields)
  | [] => isTrue trivial
  | (_, inner, _) :: fields =>
    have := decidableValid inner
    have := decidableValidFields fields
    inferInstanceAs (Decidable ((_ ∧ _ ∧ _) ∧ _))

end

instance : DecidablePred Valid := decidableValid

/-- A field of a record that is described validly and not too high. -/
structure FieldBelow (levels : Nat) (field : Field) : Prop where
  name : field.1.length < 2 ^ 16
  valid : field.2.1.Valid
  height : field.2.1.height < levels
  more : field.2.2.length = 10

theorem fields_below_iff {levels : Nat} {fields : List Field} :
    ValidFields fields ∧ heightFields fields < levels + 1 ↔ ∀ field ∈ fields,
      FieldBelow levels field := by
  induction fields with
  | nil => simp [ValidFields, heightFields]
  | cons field fields ih =>
    obtain ⟨name, inner, more⟩ := field
    rw [List.forall_mem_cons, ← ih, ValidFields, heightFields, Nat.max_lt, Nat.add_lt_add_iff_right]
    constructor
    · rintro ⟨⟨⟨hname, hinner, hmore⟩, hvalid⟩, hheight, hrest⟩
      exact ⟨⟨hname, hinner, hheight, hmore⟩, hvalid, hrest⟩
    · rintro ⟨⟨hname, hinner, hheight, hmore⟩, hvalid, hrest⟩
      exact ⟨⟨⟨hname, hinner, hmore⟩, hvalid⟩, hheight, hrest⟩

/-- The bytes behind the number of a type that describe it, in a tree that is lower than so many
levels. -/
def Describes (levels : Nat) (id : UInt8) (bytes : List UInt8) : Prop :=
  ∃ d : Descriptor, d.id = id ∧ d.Valid ∧ d.height < levels ∧ bytes = d.detail

section Kinds

variable {levels : Nat} {id : UInt8} {bytes : List UInt8}

theorem describes_leaf (h : id ∉ [FieldType.maybe.id, FieldType.list.id, FieldType.record.id]) :
    Describes (levels + 1) id bytes ↔ bytes = [] := by
  constructor
  · rintro ⟨d, rfl, -, -, rfl⟩
    cases d with
    | leaf n => rfl
    | _ => exact absurd h (by simp [Descriptor.id])
  · rintro rfl
    exact ⟨leaf id, rfl, h, Nat.succ_pos _, rfl⟩

theorem describes_nested {type : FieldType} (h : type = .maybe ∨ type = .list) :
    Describes (levels + 1) type.id bytes ↔
      ∃ xs ys inner, bytes = xs ++ ys ∧ xs = writeNumber 1 inner.toNat ∧
        Describes levels inner ys := by
  constructor
  · rintro ⟨d, hid, hvalid, hheight, rfl⟩
    cases d with
    | leaf n =>
      obtain rfl : n = type.id := hid
      exact absurd hvalid (by rcases h with rfl | rfl <;> simp [Valid])
    | maybe inner | list inner =>
      exact ⟨_, inner.detail, inner.id, rfl, rfl, inner, rfl, hvalid,
        Nat.lt_of_succ_lt_succ hheight, rfl⟩
    | record fields => rcases h with rfl | rfl <;> cases hid
  · rintro ⟨_, _, _, rfl, rfl, inner, rfl, hvalid, hheight, rfl⟩
    rcases h with rfl | rfl
    · exact ⟨maybe inner, rfl, hvalid, Nat.succ_lt_succ hheight, rfl⟩
    · exact ⟨list inner, rfl, hvalid, Nat.succ_lt_succ hheight, rfl⟩

theorem describes_record : Describes (levels + 1) FieldType.record.id bytes ↔
    ∃ fields : List Field, fields.length < 2 ^ 16 ∧ (∀ field ∈ fields, FieldBelow levels field) ∧
      bytes = writeNumber 2 fields.length ++ fields.flatMap writeField := by
  constructor
  · rintro ⟨d, hid, hvalid, hheight, rfl⟩
    cases d with
    | leaf n =>
      obtain rfl : n = FieldType.record.id := hid
      exact absurd hvalid (by simp [Valid])
    | maybe _ | list _ => cases hid
    | record fields =>
      refine ⟨fields, hvalid.1, fields_below_iff.1 ⟨hvalid.2, hheight⟩, ?_⟩
      rw [detail, detailFields_eq_flatMap]
  · rintro ⟨fields, hcount, hfields, rfl⟩
    obtain ⟨hvalid, hheight⟩ := fields_below_iff.2 hfields
    refine ⟨record fields, rfl, ⟨hcount, hvalid⟩, hheight, ?_⟩
    rw [detail, detailFields_eq_flatMap]

end Kinds

/-! ## What is accepted -/

section Accepted

variable {levels : Nat}

/-- A field of a record, where the descriptions of types are accepted. -/
theorem accepts_field (h : ∀ id, Accepts (skipDetail levels id) fun bytes _ =>
    Describes levels id bytes) :
    Accepts (do
        let length ← Source.uint16
        Source.skip length.toNat
        skipDetail levels (← Source.uint8)
        Source.skip 10) fun bytes _ => ∃ field, FieldBelow levels field ∧ bytes =
          writeField field := by
  refine accepts_congr (accepts_bind accepts_uint16 fun length =>
    accepts_bind (fixed_skip length.toNat) fun _ =>
    accepts_bind accepts_uint8 fun id => accepts_bind (h id) fun _ => fixed_skip 10) fun bytes _ =>
      ?_
  constructor
  · rintro ⟨_, _, length, rfl, rfl, name, _, -, rfl, ⟨hname, -⟩, _, _, _, rfl, rfl, _, more, -, rfl,
      ⟨inner, rfl, hvalid, hheight, rfl⟩, hmore, -⟩
    refine ⟨(name, inner, more), ⟨hname ▸ length.toNat_lt, hvalid, hheight, hmore⟩, ?_⟩
    rw [writeField, hname]
  · rintro ⟨⟨name, inner, more⟩, ⟨hname, hvalid, hheight, hmore⟩, rfl⟩
    obtain ⟨length, hlength, -⟩ := reads_length16 hname
    refine ⟨_, _, length, rfl, by rw [hlength], name, _, (), rfl, ⟨hlength.symm, rfl⟩, _, _,
      inner.id, rfl, rfl, inner.detail, more, (), rfl, ⟨inner, rfl, hvalid, hheight,
        rfl⟩, hmore, rfl⟩

theorem sequence_fields_iff {bytes : List UInt8} {units : List Unit} :
    Sequence (fun bytes _ => ∃ field,
      FieldBelow levels field ∧ bytes = writeField field) bytes units ↔
      ∃ fields : List Field, fields.length = units.length ∧ (∀ field ∈ fields,
        FieldBelow levels field) ∧
        bytes = fields.flatMap writeField := by
  constructor
  · intro h
    induction h with
    | nil => exact ⟨[], rfl, List.forall_mem_nil _, rfl⟩
    | cons head _ ih =>
      obtain ⟨field, hfield, rfl⟩ := head
      obtain ⟨fields, hlength, hfields, rfl⟩ := ih
      exact ⟨field :: fields, congrArg (· + 1) hlength,
        List.forall_mem_cons.2 ⟨hfield, hfields⟩, rfl⟩
  · rintro ⟨fields, hlength, hfields, rfl⟩
    induction fields generalizing units with
    | nil =>
      obtain rfl := List.length_eq_zero_iff.1 hlength.symm
      exact .nil
    | cons field fields ih =>
      obtain ⟨_, units, rfl⟩ := List.exists_cons_of_length_eq_add_one hlength.symm
      obtain ⟨hfield, hfields⟩ := List.forall_mem_cons.1 hfields
      exact .cons ⟨field, hfield, rfl⟩ (ih (Nat.succ.inj hlength) hfields)

/-- The reader passes over the descriptions of a type that are not too high, and over nothing
else. -/
theorem accepts_skipDetail (levels : Nat) (id : UInt8) :
    Accepts (skipDetail levels id) fun bytes _ => Describes levels id bytes := by
  induction levels generalizing id with
  | zero =>
    refine accepts_congr (accepts_throw _) fun bytes _ => iff_of_false not_false fun h => ?_
    obtain ⟨d, -, -, hheight, -⟩ := h
    exact Nat.not_lt_zero _ hheight
  | succ levels ih =>
    have htype := FieldType.id_ofId id
    unfold skipDetail
    cases hid : FieldType.ofId id with
    | maybe | list =>
      rw [← htype, hid]
      exact accepts_congr (accepts_bind accepts_uint8 ih) fun _ _ =>
        (describes_nested (by simp)).symm
    | record =>
      rw [← htype, hid]
      refine accepts_congr (accepts_bind accepts_uint16 fun count =>
        accepts_map (fun _ => ()) (accepts_times (accepts_field ih) count.toNat)) fun bytes _ => ?_
      rw [describes_record]
      constructor
      · rintro ⟨_, _, count, rfl, rfl, units, ⟨hsequence, hunits⟩, -⟩
        obtain ⟨fields, hlength, hfields, rfl⟩ := sequence_fields_iff.1 hsequence
        have hcount : fields.length = count.toNat := hlength.trans hunits
        exact ⟨fields, hcount ▸ count.toNat_lt, hfields, by rw [hcount]⟩
      · rintro ⟨fields, hlength, hfields, rfl⟩
        obtain ⟨count, hcount, -⟩ := reads_length16 hlength
        refine ⟨_, _, count, rfl, by rw [hcount], List.replicate fields.length (), ⟨?_, ?_⟩, rfl⟩
        · exact sequence_fields_iff.2 ⟨fields, List.length_replicate.symm, hfields, rfl⟩
        · rw [List.length_replicate, hcount]
    | string | integer | float | boolean | nothing | unknown _ =>
      have hleaf : id ∉ [FieldType.maybe.id, FieldType.list.id, FieldType.record.id] := by
        intro hmem
        simp only [List.mem_cons, List.not_mem_nil, or_false] at hmem
        rcases hmem with rfl | rfl | rfl <;> cases hid
      refine accepts_congr (accepts_pure ()) fun bytes _ => ?_
      rw [describes_leaf hleaf]
      exact and_iff_left rfl

end Accepted

/-- The reader passes over exactly the description, if its levels are allowed. -/
theorem reads_skipDetail {levels : Nat} {d : Descriptor} (hvalid : d.Valid)
    (hheight : d.height ≤ levels) :
    Reads (skipDetail (levels + 1) d.id) d.detail () := fun _ _ _ =>
  (accepts_skipDetail _ _ _ _ _).2
    ⟨d.detail, ⟨d, rfl, hvalid, Nat.lt_succ_of_le hheight, rfl⟩, rfl, rfl, rfl⟩

/-- No description is the beginning of another of the same type. -/
theorem detail_eq_of_isPrefix {d e : Descriptor} (hid : d.id = e.id) (hd : d.Valid) (he : e.Valid)
    {bytes : List UInt8} (hdb : d.detail <+: bytes) (heb : e.detail <+: bytes) :
    d.detail = e.detail := by
  obtain ⟨rest, hrest⟩ := hdb
  obtain ⟨rest', hrest'⟩ := heb
  -- a reader that allows both heights takes both
  have htaken := reads_skipDetail hd (le_max_left _ e.height) .contract 0 rest
  have htaken' := reads_skipDetail he (le_max_right d.height _) .contract 0 rest'
  rw [hid, hrest, ← hrest', htaken'] at htaken
  injection htaken with heq
  injection heq with _ heq
  injection heq with _ hlength _
  rw [Nat.zero_add, Nat.zero_add] at hlength
  exact (List.append_inj (hrest.trans hrest'.symm) hlength.symm).1

/-- A description is passed over just where the bytes begin with one of the type that is at most 64
edges high, and these bytes are taken, of which there is one choice only. All other bytes are at
fault. -/
theorem skipDetail_exact (id : UInt8) (s : Span) :
    (∀ t, (skipDetail (descriptorLimit + 1) id : Reader Unit) s = .ok ((), t) ↔
      ∃ d : Descriptor, d.id = id ∧ d.Valid ∧ d.height ≤ 64 ∧ s.Splits d.detail t) ∧
    (∀ d e : Descriptor, d.id = id → e.id = id → d.Valid → e.Valid → d.detail <+: s.bytes →
      e.detail <+: s.bytes → d.detail = e.detail) ∧
    ((¬∃ d : Descriptor, d.id = id ∧ d.Valid ∧ d.height ≤ 64 ∧ d.detail <+: s.bytes) →
      ∃ e : FormatError, (skipDetail (descriptorLimit + 1) id : Reader Unit) s = .error e) := by
  have hread : ∀ t, (skipDetail (descriptorLimit + 1) id : Reader Unit) s = .ok ((), t) ↔
      ∃ d : Descriptor, d.id = id ∧ d.Valid ∧ d.height ≤ 64 ∧ s.Splits d.detail t := by
    intro t
    rw [accepts_skipDetail]
    constructor
    · rintro ⟨_, ⟨d, hid, hvalid, hheight, rfl⟩, hsplits⟩
      exact ⟨d, hid, hvalid, Nat.le_of_lt_succ hheight, hsplits⟩
    · rintro ⟨d, hid, hvalid, hheight, hsplits⟩
      exact ⟨_, ⟨d, hid, hvalid, Nat.lt_succ_of_le hheight, rfl⟩, hsplits⟩
  refine ⟨hread, fun d e hd he hdvalid hevalid =>
    detail_eq_of_isPrefix (hd.trans he.symm) hdvalid hevalid,
    fun hnone => ?_⟩
  cases hskip : (skipDetail (descriptorLimit + 1) id : Reader Unit) s with
  | error e => exact ⟨e, rfl⟩
  | ok result =>
    obtain ⟨d, hid, hvalid, hheight, hsplits⟩ := (hread result.2).1 hskip
    exact absurd ⟨d, hid, hvalid, hheight, result.2.bytes, hsplits.bytes.symm⟩ hnone

/-- A text inside so many descriptions that each have one part. -/
def nested : Nat → Descriptor
  | 0 => leaf FieldType.string.id
  | levels + 1 => maybe (nested levels)

theorem valid_nested (levels : Nat) : (nested levels).Valid := by
  induction levels with
  | zero => decide
  | succ levels ih => exact ih

theorem skipDetail_nested (levels : Nat) (part : Section) (offset : Nat) (rest : List UInt8) :
    (skipDetail levels (nested levels).id : Reader Unit)
      ⟨part, offset, (nested levels).detail ++ rest⟩ = .error .descriptorTooDeep := by
  induction levels generalizing offset with
  | zero => rfl
  | succ levels ih =>
    show ((uint8 : Reader UInt8) ⟨part, offset,
      writeNumber 1 (nested levels).id.toNat ++ (nested levels).detail ++ rest⟩ >>=
        fun p => (skipDetail levels p.1 : Reader Unit) p.2) = _
    rw [List.append_assoc, reads_uint8]
    exact ih _

/-- A record with one field, which is a list of what may be a text. -/
def named : Descriptor :=
  record [([110, 97, 109, 101], list (maybe (leaf FieldType.string.id)), List.replicate 10 0)]

/-- The reader stops right behind a record. It passes over 64 levels, but not over 65, where the
last is a leaf too. -/
theorem nested_skipped :
    let skip (id : UInt8) : Reader Unit := skipDetail 65 id
    skip 8 ⟨.contract, 0, named.detail ++ [0xee]⟩ = .ok ((), ⟨.contract, 21, [0xee]⟩) ∧
    skip 6 ⟨.contract, 0, (nested 64).detail ++ [0xee]⟩ = .ok ((), ⟨.contract, 64, [0xee]⟩) ∧
    skip 6 ⟨.contract, 0, (nested 65).detail ++ [0xee]⟩ = .error .descriptorTooDeep := by
  refine ⟨((skipDetail_exact 8 _).1 _).2 ⟨named, rfl, by decide, by decide, rfl, rfl, rfl⟩,
    ((skipDetail_exact 6 _).1 _).2 ⟨nested 64, rfl, valid_nested 64, by decide, rfl, rfl, rfl⟩,
    skipDetail_nested 65 ..⟩

end Descriptor

end TagMachine
