import Mathlib.Tactic
import TagMachine.Proofs.Packet.Descriptor

set_option autoImplicit false

/-! # Writing the parts of packets

How the parts of a packet are written, and that their readers return what was written
(`reads_contract`, `Constant.readAll_write`, `reads_dependencies`, `Instruction.readAll_write`,
`Fixture.reads_readAll`). A part can be written when its counts and the lengths of its texts fit the
bytes they are written in: that is what the `Fits` predicates say.

The description of a field's type is free but for its root. A reader passes over it, so it is an
argument of the writer (`Descriptor`).
-/

namespace TagMachine

open Reader Source

/-! ## Fields, tags, sanitizers and rules -/

/-- The text can be written behind its length in two bytes. -/
def ShortText (s : String) : Prop := (Text.toUtf8 s).length < 2 ^ 16

/-- The text can be written behind its length in four bytes. -/
def LongText (s : String) : Prop := (Text.toUtf8 s).length < 2 ^ 32

instance : DecidablePred ShortText := fun _ => inferInstanceAs (Decidable (_ < _))

instance : DecidablePred LongText := fun _ => inferInstanceAs (Decidable (_ < _))

namespace FieldDef

def write (f : FieldDef) (d : Descriptor) : List UInt8 :=
  writeShortText f.name ++ (writeNumber 1 d.id.toNat ++ (d.detail ++
    (writeNumber 8 f.tags.toNat ++ writeNumber 2 f.register.toNat)))

/-- The field can be written with the description, which is one of its type. -/
@[mk_iff]
structure Fits (f : FieldDef) (d : Descriptor) : Prop where
  name : ShortText f.name
  type : f.type.Proper
  root : d.id = f.type.id
  valid : d.Valid
  height : d.height ≤ descriptorLimit

instance (f : FieldDef) (d : Descriptor) : Decidable (f.Fits d) :=
  decidable_of_iff' _ (fits_iff f d)

theorem reads_read {f : FieldDef} {d : Descriptor} (h : f.Fits d) :
    Reads FieldDef.read (f.write d) f := by
  refine reads_bind (reads_shortText h.name) (reads_bind (reads_uint8 d.id) ?_)
  refine reads_bind (Descriptor.reads_skipDetail h.valid h.height)
    (reads_bind (reads_tagSet f.tags) ?_)
  rw [h.root, FieldType.ofId_id h.type]
  exact reads_map (FieldDef.mk f.name f.type f.tags) (reads_uint16 f.register)

end FieldDef

namespace TagDef

def write (t : TagDef) : List UInt8 :=
  writeNumber 1 t.bit.toNat ++ (writeShortText t.name ++ writeShortText t.description)

@[mk_iff]
structure Fits (t : TagDef) : Prop where
  name : ShortText t.name
  description : ShortText t.description

instance : DecidablePred Fits := fun t => decidable_of_iff' _ (fits_iff t)

theorem reads_read {t : TagDef} (h : t.Fits) : Reads TagDef.read t.write t :=
  reads_bind (reads_uint8 t.bit) (reads_bind (reads_shortText h.name)
    (reads_map (TagDef.mk t.bit t.name) (reads_shortText h.description)))

end TagDef

namespace SanitizerDef

def write (s : SanitizerDef) : List UInt8 :=
  writeShortText s.name ++ (writeNumber 2 s.function.toNat ++ writeNumber 8 s.strips.toNat)

theorem reads_read {s : SanitizerDef} (h : ShortText s.name) : Reads SanitizerDef.read s.write s :=
  reads_bind (reads_shortText h) (reads_bind (reads_uint16 s.function)
    (reads_map (SanitizerDef.mk s.name s.function) (reads_tagSet s.strips)))

end SanitizerDef

namespace Rule

/-- A rule behind the number of its kind. -/
def write : Rule → List UInt8
  | forbidField scope index =>
    writeNumber 1 1 ++ (writeNumber 1 scope.toNat ++ writeNumber 2 index.toNat)
  | forbidTagged tags scope =>
    writeNumber 1 2 ++ (writeNumber 8 tags.toNat ++ writeNumber 1 scope.toNat)
  | require field message => writeNumber 1 3 ++ (writeShortText field ++ writeShortText message)
  | conform field message => writeNumber 1 4 ++ (writeShortText field ++ writeShortText message)

def Fits : Rule → Prop
  | require field message => ShortText field ∧ ShortText message
  | conform field message => ShortText field ∧ ShortText message
  | _ => True

instance : DecidablePred Fits
  | require _ _ | conform _ _ => inferInstanceAs (Decidable (_ ∧ _))
  | forbidField _ _ | forbidTagged _ _ => inferInstanceAs (Decidable True)

theorem reads_read {r : Rule} (h : r.Fits) : Reads Rule.read r.write r := by
  cases r with
  | forbidField scope index =>
    exact reads_bind (reads_uint8 1) (reads_bind (reads_uint8 scope)
      (reads_map (forbidField scope) (reads_uint16 index)))
  | forbidTagged tags scope =>
    exact reads_bind (reads_uint8 2) (reads_bind (reads_tagSet tags)
      (reads_map (forbidTagged tags) (reads_uint8 scope)))
  | require field message =>
    exact reads_bind (reads_uint8 3) (reads_bind (reads_shortText h.1)
      (reads_map (require field) (reads_shortText h.2)))
  | conform field message =>
    exact reads_bind (reads_uint8 4) (reads_bind (reads_shortText h.1)
      (reads_map (conform field) (reads_shortText h.2)))

end Rule

/-! ## The contract -/

/-- What the bytes of a packet have beyond the packet: the descriptions of the types of its fields,
and whether a packet without tests has an empty part for them. -/
structure Packet.Layout where
  inputs : List Descriptor
  outputs : List Descriptor
  emptyTests : Bool

namespace Contract

def write (c : Contract) (l : Packet.Layout) : List UInt8 :=
  writeShortText c.name ++ (writeNumber 2 c.size.toNat ++
    (writeNumber 2 c.inputs.length ++ (writeNumber 2 c.outputs.length ++
    (writeNumber 2 c.tags.length ++ (writeNumber 2 c.sanitizers.length ++
    (writeNumber 2 c.rules.length ++ (c.tags.flatMap TagDef.write ++
    ((List.zipWith FieldDef.write c.inputs l.inputs).flatten ++
    ((List.zipWith FieldDef.write c.outputs l.outputs).flatten ++
    (c.sanitizers.flatMap SanitizerDef.write ++ c.rules.flatMap Rule.write))))))))))

/-- The contract can be written with the descriptions. -/
@[mk_iff]
structure Fits (c : Contract) (l : Packet.Layout) : Prop where
  name : ShortText c.name
  inputCount : c.inputs.length < 2 ^ 16
  outputCount : c.outputs.length < 2 ^ 16
  tagCount : c.tags.length < 2 ^ 16
  sanitizerCount : c.sanitizers.length < 2 ^ 16
  ruleCount : c.rules.length < 2 ^ 16
  inputs : List.Forall₂ FieldDef.Fits c.inputs l.inputs
  outputs : List.Forall₂ FieldDef.Fits c.outputs l.outputs
  tags : ∀ t ∈ c.tags, t.Fits
  sanitizers : ∀ s ∈ c.sanitizers, ShortText s.name
  rules : ∀ r ∈ c.rules, r.Fits

instance (c : Contract) (l : Packet.Layout) : Decidable (c.Fits l) :=
  decidable_of_iff' _ (fits_iff c l)

theorem reads_fields {fs : List FieldDef} {ds : List Descriptor}
    (h : List.Forall₂ FieldDef.Fits fs ds) :
    Reads (times FieldDef.read fs.length) (List.zipWith FieldDef.write fs ds).flatten fs := by
  refine reads_times ?_
  induction h with
  | nil => exact .nil
  | cons hfield _ ih => exact .cons (FieldDef.reads_read hfield) ih

theorem reads_contract {c : Contract} {l : Packet.Layout} (h : c.Fits l) :
    Reads Contract.read (c.write l) c := by
  obtain ⟨inputCount, hinputs, hreadInputs⟩ := reads_length16 h.inputCount
  obtain ⟨outputCount, houtputs, hreadOutputs⟩ := reads_length16 h.outputCount
  obtain ⟨tagCount, htags, hreadTags⟩ := reads_length16 h.tagCount
  obtain ⟨sanitizerCount, hsanitizers, hreadSanitizers⟩ := reads_length16 h.sanitizerCount
  obtain ⟨ruleCount, hrules, hreadRules⟩ := reads_length16 h.ruleCount
  -- The name and the counts stand before everything that is counted.
  refine reads_bind (reads_shortText h.name) (reads_bind (reads_uint16 c.size) ?_)
  refine reads_bind hreadInputs (reads_bind hreadOutputs (reads_bind hreadTags ?_))
  refine reads_bind hreadSanitizers (reads_bind hreadRules ?_)
  rw [hinputs, houtputs, htags, hsanitizers, hrules]
  refine reads_bind (reads_times_flatMap fun t ht => TagDef.reads_read (h.tags t ht)) ?_
  refine reads_bind (reads_fields h.inputs) (reads_bind (reads_fields h.outputs) ?_)
  refine reads_bind (reads_times_flatMap fun s hs => SanitizerDef.reads_read (h.sanitizers s hs)) ?_
  exact reads_map (fun rules => { c with rules := rules })
    (reads_times_flatMap fun r hr => Rule.reads_read (h.rules r hr))

end Contract

/-! ## Constants -/

namespace Constant

def type : Constant → FieldType
  | string _ => .string
  | integer _ => .integer
  | float _ => .float
  | boolean _ => .boolean
  | nothing => .nothing

def payload : Constant → List UInt8
  | string s => Text.toUtf8 s
  | integer n => writeNumber 8 n.toUInt64.toNat
  | float x => writeNumber 8 x.bits.toNat
  | boolean b => writeNumber 1 b.toNat
  | nothing => []

/-- A constant is written as the number of its type, the length of its payload and the payload. -/
def write (c : Constant) : List UInt8 :=
  writeNumber 1 c.type.id.toNat ++ (writeNumber 4 c.payload.length ++ c.payload)

theorem reads_payload (c : Constant) :
    Reads (readPayload c.type.id c.payload.length) c.payload c := by
  cases c with
  | string s => exact reads_map string (reads_text s)
  | integer n =>
    have hread := reads_map (fun bits => integer bits.toInt64) (reads_uint64 n.toUInt64)
    rwa [Int64.toInt64_toUInt64] at hread
  | float x => exact reads_map (fun bits => float ⟨bits⟩) (reads_uint64 x.bits)
  | boolean b =>
    have hread := reads_map (fun n => boolean (n != 0)) (reads_uint8 b.toUInt8)
    cases b <;> exact hread
  | nothing => exact reads_pure nothing

/-- The length of the payload can be written. -/
def Fits (c : Constant) : Prop := c.payload.length < 2 ^ 32

instance : DecidablePred Fits := fun _ => inferInstanceAs (Decidable (_ < _))

theorem reads_read {c : Constant} (h : c.Fits) : Reads Constant.read c.write c :=
  reads_bind (reads_uint8 c.type.id)
    (reads_counted32 (f := fun n => Reader.within n (readPayload c.type.id n)) h
      (reads_within (reads_payload c)))

theorem write_ne_nil (c : Constant) : c.write ≠ [] := by
  simp [write, writeNumber]

theorem length_le_length_flatMap (cs : List Constant) : cs.length ≤ (cs.flatMap write).length := by
  induction cs with
  | nil => exact Nat.le_refl 0
  | cons c cs ih =>
    have hc : 0 < c.write.length := List.length_pos_iff.2 c.write_ne_nil
    rw [List.flatMap_cons, List.length_append, List.length_cons]
    omega

theorem readAll_write {cs : List Constant} (h : ∀ c ∈ cs, c.Fits) (part : Section)
    (offset : Nat) : (Span.mk part offset (cs.flatMap write)).readBy Constant.readAll = .ok cs := by
  have hcount := length_le_length_flatMap cs
  have hreads : List.Forall₂ (Reads Constant.read) (cs.map write) cs :=
    List.forall₂_map_left_iff.2 (List.forall₂_same.2 fun c hc => reads_read (h c hc))
  rw [List.flatMap_def] at hcount ⊢
  have hall := untilEnd_flatten hreads (by simp [write_ne_nil]) hcount part offset
  show ((untilEnd Constant.read _ : Reader _) _).map Prod.fst = _
  rw [hall]
  rfl

end Constant

/-! ## Code, dependencies and tests -/

theorem reads_dependencies {ids : List UInt16} (h : ids.length < 2 ^ 16) :
    Reads readDependencies (writeNumber 2 ids.length ++ ids.flatMap fun id =>
      writeNumber 2 id.toNat)
      ids :=
  reads_counted16 h (reads_times_flatMap fun id _ => reads_uint16 id)

namespace Instruction

def write (i : Instruction) : List UInt8 :=
  writeNumber 1 i.opcode.toNat ++ (writeNumber 1 i.flags.toNat ++ (writeNumber 2 i.dest.toNat ++
    (writeNumber 2 i.op1.toNat ++ writeNumber 2 i.op2.toNat)))

theorem reads_read (i : Instruction) : Reads Instruction.read i.write i :=
  reads_bind (reads_uint8 i.opcode)
    (reads_bind (reads_uint8 i.flags) (reads_bind (reads_uint16 i.dest)
    (reads_bind (reads_uint16 i.op1)
      (reads_map (Instruction.mk i.opcode i.flags i.dest i.op1) (reads_uint16 i.op2)))))

theorem length_flatMap_write (is : List Instruction) :
    (is.flatMap write).length = is.length * instructionSize := by
  have hwrite : ∀ i : Instruction, i.write.length = instructionSize := fun i => by
    simp [write, instructionSize]
  simp [List.length_flatMap, hwrite]

theorem readAll_write (is : List Instruction) (part : Section) (offset : Nat) :
    (Span.mk part offset (is.flatMap write)).readBy Instruction.readAll = .ok is := by
  have hcount : (is.flatMap write).length / instructionSize = is.length := by
    rw [length_flatMap_write, Nat.mul_div_cancel _ (by decide)]
  have hreads : Reads (times Instruction.read is.length) (is.flatMap write) is :=
    reads_times_flatMap fun i _ => reads_read i
  rw [← hcount] at hreads
  exact readBy_of_reads hreads part offset

end Instruction

namespace Fixture

def write (f : Fixture) : List UInt8 :=
  writeShortText f.name ++ (writeLongText f.input ++ writeLongText f.output)

@[mk_iff]
structure Fits (f : Fixture) : Prop where
  name : ShortText f.name
  input : LongText f.input
  output : LongText f.output

instance : DecidablePred Fits := fun f => decidable_of_iff' _ (fits_iff f)

theorem reads_read {f : Fixture} (h : f.Fits) : Reads Fixture.read f.write f :=
  reads_bind (reads_shortText h.name) (reads_bind (reads_longText h.input)
    (reads_map (Fixture.mk f.name f.input) (reads_longText h.output)))

theorem reads_readAll {fs : List Fixture} (hcount : fs.length < 2 ^ 16) (h : ∀ f ∈ fs, f.Fits) :
    Reads Fixture.readAll (writeNumber 2 fs.length ++ fs.flatMap write) fs :=
  reads_counted16 hcount (reads_times_flatMap fun f hf => reads_read (h f hf))

end Fixture

end TagMachine
