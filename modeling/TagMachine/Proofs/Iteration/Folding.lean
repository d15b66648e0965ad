import TagMachine.Proofs.Builtin.InPlace
import TagMachine.Proofs.Machine.Fusion

set_option autoImplicit false

/-! # Folding a list

A list of numbers can be added up or multiplied in two ways: by an iteration whose body is a single
arithmetic instruction (`Machine.FoldLoop`), and by a call of the standard function for it. Both
combine two numbers alike (`ArithmeticOp.apply_eq_combine`), so the iteration leaves what the
function returns (`Machine.FoldLoop.leaves_fold`).
-/

namespace TagMachine

open Procedure (argumentsIn)

namespace ArithmeticOp

/-- The name of an operation that the standard function for folding knows. -/
def foldName? : ArithmeticOp → Option String
  | add => some "add"
  | mul => some "multiply"
  | _ => none

theorem divides_of_foldName? {op : ArithmeticOp} {name : String} (h : op.foldName? = some name) :
    op.divides = false := by
  cases op <;> first | rfl | cases h

/-- The machine and the library combine two numbers alike. -/
theorem apply_eq_combine {op : ArithmeticOp} (hop : op.divides = false) {a b : Value}
    (ha : a.isNumeric = true) (hb : b.isNumeric = true) :
    op.apply a b = .ok (Builtin.combine op a b) := by
  cases a with
  | integer x =>
    cases b with
    | integer y => simp [apply, Builtin.combine, hop]
    | float y => simp [apply, Builtin.combine, hop, Value.asNumber?, Value.numberOrZero]
    | _ => cases hb
  | float x =>
    cases b with
    | integer y => simp [apply, Builtin.combine, hop, Value.asNumber?, Value.numberOrZero]
    | float y => simp [apply, Builtin.combine, hop, Value.asNumber?, Value.numberOrZero]
    | _ => cases hb
  | _ => cases ha

end ArithmeticOp

theorem Builtin.isNumeric_combine (op : ArithmeticOp) (a b : Value) :
    (combine op a b).isNumeric = true := by
  unfold combine
  split <;> rfl

theorem Builtin.fold_eq {args : Arguments} {op : ArithmeticOp} {name : String}
    (hop : op.foldName? = some name) (hname : args.value "fn" = .string name) :
    fold args = give ((args.items "list").foldl (combine op) (args.value "initial")) := by
  have htext : args.text "fn" = name := by
    unfold Arguments.text
    rw [hname]
  unfold fold
  cases op with
  | add | mul =>
    obtain rfl := Option.some.inj hop
    simp only [htext]
  | _ => cases hop

namespace Machine

/-- Rounds that a run comes through can be taken off its beginning. -/
theorem runFrom_add {s : Setting} {n pc last : Nat} {m m' : Machine}
    (h : after s n pc m = some (last, m')) (fuel : Nat) :
    runFrom s (n + fuel) pc m = runFrom s fuel last m' := by
  induction n generalizing pc m with
  | zero =>
    obtain ⟨rfl, rfl⟩ := Prod.mk.inj (Option.some.inj h)
    rw [Nat.zero_add]
  | succ n ih =>
    obtain ⟨_, _, _, hgo, h⟩ := dispatch_of_after h
    rw [Nat.add_right_comm, runFrom_go hgo]
    exact ih h

/-- The limits let a machine execute some more instructions. -/
def Affords (limits : Limits) (m : Machine) (n : Nat) : Prop :=
  ∀ limit ∈ limits.instructions, m.executed + n ≤ limit.toNat

theorem Affords.overBudget {limits : Limits} {m : Machine} {n : Nat}
    (h : m.Affords limits (n + 1)) : m.tick.overBudget limits = false := by
  rw [← Bool.not_eq_true, overBudget_eq_true_iff]
  rintro ⟨limit, hlimit, hlt⟩
  have hroom := h limit hlimit
  have hcount : m.tick.executed = m.executed + 1 := rfl
  omega

theorem Affords.after_dispatch {s : Setting} {pc next n : Nat} {i : Instruction} {m m' : Machine}
    (h : m.Affords s.limits (n + 1)) (hgo : Dispatch s pc i m next m') : m'.Affords s.limits n := by
  intro limit hlimit
  have hroom := h limit hlimit
  rw [hgo.executed]
  omega

/-- An iteration that folds the list in the register `source` into the register `acc` with a single
instruction. -/
structure FoldLoop where
  op : ArithmeticOp
  source : UInt16
  element : UInt16
  acc : UInt16
  result : UInt16
  /-- A register that is named where the iteration closes and that a fold does not use. -/
  unused : UInt16
  openFlags : UInt8
  bodyFlags : UInt8
  closeFlags : UInt8

namespace FoldLoop

variable (c : FoldLoop) {tags : TagSet} {items : Array Value} {fs : List Frame}

def opening : Instruction := Opcode.iterate.on c.openFlags c.element c.source 1

def body : Instruction := (Opcode.arithmetic c.op).on c.bodyFlags c.acc c.acc c.element

def closing : Instruction := Opcode.collect.on c.closeFlags c.result c.acc c.unused

/-- The iteration stands at a place of a program. -/
structure At (code : Array Instruction) (pc : Nat) : Prop where
  opening : code[pc]? = some c.opening
  body : code[pc + 1]? = some c.body
  closing : code[pc + 2]? = some c.closing
  mode : c.opening.iterMode = .fold

/-- The registers of the iteration are inside a scratchpad, and the elements do not overwrite what
was accumulated. -/
structure Fits (size : Nat) : Prop where
  source : c.source.toNat < size
  element : c.element.toNat < size
  acc : c.acc.toNat < size
  result : c.result.toNat < size
  unused : c.unused.toNat < size
  apart : c.element ≠ c.acc

/-- The frame of the iteration at some element. -/
def frame (pc : Nat) (tags : TagSet) (items : Array Value) (cursor : Nat) : Frame where
  mode := .fold
  element := c.element.toNat
  bodyStart := pc + 1
  collectAt := pc + 2
  result := c.result.toNat
  first := c.acc.toNat
  second := c.unused.toNat
  sourceTags := tags
  items := items
  cursor := cursor
  results := #[]

/-- A step of the iteration changes no register but its own. -/
structure Keeps (m m' : Machine) : Prop where
  size : m'.registers.size = m.registers.size
  store : m'.store = m.store
  others : ∀ k, k ≠ c.element.toNat → k ≠ c.acc.toNat → k ≠ c.result.toNat → m'.peek k = m.peek k

variable {c} {s : Setting} {pc : Nat} {m : Machine}

namespace Keeps

theorem trans {m₁ m' : Machine} (h : c.Keeps m m₁) (h' : c.Keeps m₁ m') : c.Keeps m m' where
  size := h'.size.trans h.size
  store := h'.store.trans h.store
  others k he ha hr := (h'.others k he ha hr).trans (h.others k he ha hr)

/-- One of the registers of the iteration is written, and the stack changes. -/
theorem put {k : Nat} (hk : k = c.element.toNat ∨ k = c.acc.toNat ∨ k = c.result.toNat)
    (r : Register) (fs : List Frame) : c.Keeps m ((m.tick.put k r).withFrames fs) where
  size := size_put ..
  store := rfl
  others j he ha hr := by
    have hne : k ≠ j := by
      rintro rfl
      tauto
    exact peek_put_of_ne (m := m.tick) hne r

end Keeps

theorem toNat_apart (hfits : c.Fits m.registers.size) : c.element.toNat ≠ c.acc.toNat :=
  fun h => hfits.apart (UInt16.toNat_inj.1 h)

section Loop

variable (hat : c.At s.packet.code pc)

include hat

theorem plan_eq (hfits : c.Fits m.registers.size) {ref : ListRef}
    (hlist : (m.peek c.source.toNat).value = .list ref) : m.plan s pc c.opening =
      .ok (c.frame pc (m.peek c.source.toNat).tags (m.store.items ref) 0) := by
  have hclosing : closing? s.packet.code (pc + 1 + c.opening.op2.toNat) = some c.closing := by
    have hfetch : s.packet.code[pc + 1 + c.opening.op2.toNat]? = some c.closing := hat.closing
    unfold closing?
    rw [hfetch]
    rfl
  have hsource : m.register c.opening.op1 = .ok (m.peek c.source.toNat) := by
    have hslot : m.slot c.opening.op1 = .ok c.source.toNat := slot_eq_ok.2 ⟨hfits.source, rfl⟩
    rw [register, hslot]
    rfl
  have helement : m.slot c.opening.dest = .ok c.element.toNat := slot_eq_ok.2 ⟨hfits.element, rfl⟩
  have hresult : m.slot c.closing.dest = .ok c.result.toNat := slot_eq_ok.2 ⟨hfits.result, rfl⟩
  have hacc : m.slot c.closing.op1 = .ok c.acc.toNat := slot_eq_ok.2 ⟨hfits.acc, rfl⟩
  have hunused : m.slot c.closing.op2 = .ok c.unused.toNat := slot_eq_ok.2 ⟨hfits.unused, rfl⟩
  simp only [plan, hsource, ok_bind, hlist, hclosing, Machine.frame, helement, hresult,
    hacc, hunused, hat.mode]
  rfl

/-- The body combines what was accumulated with the element. -/
theorem dispatch_body (hop : c.op.divides = false)
    (hfits : c.Fits m.registers.size) (hacc : (m.peek c.acc.toNat).value.isNumeric = true)
    (helement : (m.peek c.element.toNat).value.isNumeric = true)
    (hunder : m.tick.overBudget s.limits = false) :
    ∃ m₁, Dispatch s (pc + 1) c.body m (pc + 2) m₁ ∧ c.Keeps m m₁ ∧ m₁.frames = m.frames ∧
      (m₁.peek c.acc.toNat).value =
        Builtin.combine c.op (m.peek c.acc.toNat).value (m.peek c.element.toNat).value := by
  have hvalues : m.tick.value c.acc = .ok (m.peek c.acc.toNat).value ∧
      m.tick.value c.element = .ok (m.peek c.element.toNat).value :=
    ⟨value_of_lt (m := m.tick) hfits.acc, value_of_lt (m := m.tick) hfits.element⟩
  have htags : m.tick.bothTags c.acc c.element =
      .ok ((m.peek c.acc.toNat).tags ||| (m.peek c.element.toNat).tags) := by
    rw [bothTags, tags_of_lt_size (m := m.tick) hfits.acc, ok_bind,
      tags_of_lt_size (m := m.tick) hfits.element]
    rfl
  have happly : m.tick.apply s (.arithmetic c.op) c.body = m.tick.write c.body
      (Builtin.combine c.op (m.peek c.acc.toNat).value (m.peek c.element.toNat).value)
      ((m.peek c.acc.toNat).tags ||| (m.peek c.element.toNat).tags) := by
    simp only [apply, body, Opcode.on, hvalues, htags, ok_bind,
      ArithmeticOp.apply_eq_combine hop hacc helement]
  rw [write_of_lt (i := c.body) (m := m.tick) hfits.acc] at happly
  have hadvance : Advance s (pc + 1) c.body m.tick (pc + 2) _ :=
    .plain (Opcode.ofByte?_byte (.arithmetic c.op)) rfl happly
  refine ⟨_, ⟨hat.body, hunder, step_of_advance hadvance⟩,
    .put (.inr (.inl rfl)) _ m.frames, rfl, ?_⟩
  exact congrArg Register.value (peek_put_self (m := m.tick) hfits.acc _)

/-- Behind the last element the iteration closes and its result is what was accumulated. -/
theorem dispatch_leave (hfits : c.Fits m.registers.size) {cursor : Nat}
    (hframes : m.frames = c.frame pc tags items cursor :: fs) (hlast : items[cursor + 1]? = none)
    (hunder : m.tick.overBudget s.limits = false) :
    ∃ m', Dispatch s (pc + 2) c.closing m (pc + 3) m' ∧ c.Keeps m m' ∧ m'.frames = fs ∧
      m'.peek c.result.toNat = m.peek c.acc.toNat := by
  have hadvance : Advance s (pc + 2) c.closing m.tick (pc + 3)
      ((m.tick.put c.result.toNat (m.peek c.acc.toNat)).withFrames fs) :=
    .leave (m := m.tick) (f := c.frame pc tags items cursor)
      (Opcode.ofByte?_byte .collect) hframes rfl hlast
  refine ⟨_, ⟨hat.closing, hunder, step_of_advance hadvance⟩, .put (.inr (.inr rfl)) _ fs, rfl, ?_⟩
  exact peek_put_self (m := m.tick) hfits.result _

/-- Before that the iteration goes on with the next element. -/
theorem dispatch_again (hfits : c.Fits m.registers.size)
    {cursor : Nat} {item : Value} (hframes : m.frames = c.frame pc tags items cursor :: fs)
    (hitem : items[cursor + 1]? = some item) (hunder : m.tick.overBudget s.limits = false) :
    ∃ m', Dispatch s (pc + 2) c.closing m (pc + 1) m' ∧ c.Keeps m m' ∧
      m'.frames = c.frame pc tags items (cursor + 1) :: fs ∧
      (m'.peek c.element.toNat).value = item ∧ m'.peek c.acc.toNat = m.peek c.acc.toNat := by
  have hadvance : Advance s (pc + 2) c.closing m.tick (pc + 1)
      ((m.tick.put c.element.toNat ⟨item, tags⟩).withFrames
        (c.frame pc tags items (cursor + 1) :: fs)) :=
    .again (m := m.tick) (f := c.frame pc tags items cursor)
      (Opcode.ofByte?_byte .collect) hframes rfl hitem
  refine ⟨_, ⟨hat.closing, hunder, step_of_advance hadvance⟩, .put (.inl rfl) _ _, rfl, ?_, ?_⟩
  · exact congrArg Register.value (peek_put_self (m := m.tick) hfits.element _)
  · exact peek_put_of_ne (m := m.tick) (toNat_apart hfits) _

/-- From an element in its register on, the body runs for it and for all that follow. -/
theorem after_elements (hop : c.op.divides = false)
    (rest : List Value) (item : Value) (cursor : Nat)
    (m : Machine) (hitems : items.toList.drop cursor = item :: rest)
    (hnumeric : ∀ v ∈ item :: rest, v.isNumeric = true) (hfits : c.Fits m.registers.size)
    (hframes : m.frames = c.frame pc tags items cursor :: fs)
    (helement : (m.peek c.element.toNat).value = item)
    (hacc : (m.peek c.acc.toNat).value.isNumeric = true)
    (hroom : m.Affords s.limits (2 * (rest.length + 1))) :
    ∃ m', after s (2 * (rest.length + 1)) (pc + 1) m = some (pc + 3, m') ∧ c.Keeps m m' ∧
      m'.frames = fs ∧ (m'.peek c.result.toNat).value =
        (item :: rest).foldl (Builtin.combine c.op) (m.peek c.acc.toNat).value := by
  induction rest generalizing item cursor m with
  | nil =>
    obtain ⟨m₁, hbody, hkeep, hframes₁, hacc₁⟩ := dispatch_body hat hop hfits hacc
      (helement ▸ hnumeric item List.mem_cons_self) hroom.overBudget
    have hlast : items[cursor + 1]? = none := by
      rw [← Array.getElem?_toList, ← List.getElem?_drop, hitems]
      rfl
    obtain ⟨m', hleave, hkeep', hframes', hresult⟩ := dispatch_leave hat (hkeep.size ▸ hfits)
      (hframes₁.trans hframes) hlast (hroom.after_dispatch hbody).overBudget
    refine ⟨m', (after_go hbody).trans (after_go hleave), hkeep.trans hkeep', hframes', ?_⟩
    rw [hresult, hacc₁, helement]
    rfl
  | cons next rest ih =>
    obtain ⟨m₁, hbody, hkeep, hframes₁, hacc₁⟩ := dispatch_body hat hop hfits hacc
      (helement ▸ hnumeric item List.mem_cons_self) hroom.overBudget
    have hnext : items[cursor + 1]? = some next := by
      rw [← Array.getElem?_toList, ← List.getElem?_drop, hitems]
      rfl
    have hrest : items.toList.drop (cursor + 1) = next :: rest := by
      rw [← List.drop_drop, hitems]
      rfl
    have hroom₁ := hroom.after_dispatch hbody
    obtain ⟨m₂, hagain, hkeep₂, hframes₂, helement₂, hacc₂⟩ := dispatch_again hat
      (hkeep.size ▸ hfits) (hframes₁.trans hframes) hnext hroom₁.overBudget
    obtain ⟨m', hafter, hkeep', hframes', hresult⟩ := ih next (cursor + 1) m₂ hrest
      (fun v hv => hnumeric v (List.mem_cons_of_mem item hv))
      ((hkeep.trans hkeep₂).size ▸ hfits) hframes₂ helement₂
      (by rw [hacc₂, hacc₁]; exact Builtin.isNumeric_combine ..) (hroom₁.after_dispatch hagain)
    refine ⟨m', (after_go hbody).trans ((after_go hagain).trans hafter),
      (hkeep.trans hkeep₂).trans hkeep', hframes', ?_⟩
    rw [hresult, hacc₂, hacc₁, helement]
    rfl

/-- The whole iteration takes two rounds for each element and one to open it. -/
theorem after_loop (hop : c.op.divides = false) (hfits : c.Fits m.registers.size) {ref : ListRef}
    (hlist : (m.peek c.source.toNat).value = .list ref)
    (hnumeric : ∀ v ∈ (m.store.items ref).toList, v.isNumeric = true)
    (hacc : (m.peek c.acc.toNat).value.isNumeric = true)
    (hdepth : depthAllowed s.limits m.frames.length = .ok ())
    (hroom : m.Affords s.limits (2 * (m.store.items ref).size + 1)) :
    ∃ m', after s (2 * (m.store.items ref).size + 1) pc m = some (pc + 3, m') ∧ c.Keeps m m' ∧
      m'.frames = m.frames ∧ (m'.peek c.result.toNat).value =
        (m.store.items ref).toList.foldl (Builtin.combine c.op) (m.peek c.acc.toNat).value := by
  have hplan : m.tick.plan s pc c.opening = _ := plan_eq (m := m.tick) hat hfits hlist
  rw [← Array.length_toList] at hroom ⊢
  cases hitems : (m.store.items ref).toList with
  | nil =>
    have hnone : (m.store.items ref)[0]? = none := by
      rw [← Array.getElem?_toList, hitems]
      rfl
    have hadvance : Advance s pc c.opening m.tick (pc + 3)
        ((m.tick.put c.result.toNat (m.peek c.acc.toNat)).withFrames m.frames) :=
      .skip (Opcode.ofByte?_byte .iterate) hplan hnone
    refine ⟨_, after_go ⟨hat.opening, hroom.overBudget, step_of_advance hadvance⟩,
      .put (.inr (.inr rfl)) _ _, rfl, ?_⟩
    exact congrArg Register.value (peek_put_self (m := m.tick) hfits.result _)
  | cons item rest =>
    have hsome : (m.store.items ref)[0]? = some item := by
      rw [← Array.getElem?_toList, hitems]
      rfl
    have hadvance : Advance s pc c.opening m.tick (pc + 1)
        ((m.tick.put c.element.toNat ⟨item, (m.peek c.source.toNat).tags⟩).withFrames
          (c.frame pc (m.peek c.source.toNat).tags (m.store.items ref) 0 :: m.frames)) :=
      .enter (Opcode.ofByte?_byte .iterate) hplan hsome hdepth
    have henter : Dispatch s pc c.opening m _ _ :=
      ⟨hat.opening, hroom.overBudget, step_of_advance hadvance⟩
    have hkeep : c.Keeps m _ := .put (.inl rfl) ⟨item, (m.peek c.source.toNat).tags⟩
      (c.frame pc (m.peek c.source.toNat).tags (m.store.items ref) 0 :: m.frames)
    have hacc₁ :
        (m.tick.put c.element.toNat ⟨item, (m.peek c.source.toNat).tags⟩).peek c.acc.toNat =
          m.peek c.acc.toNat := peek_put_of_ne (m := m.tick) (toNat_apart hfits) _
    rw [hitems] at hroom hnumeric
    obtain ⟨m', hafter, hkeep', hframes', hresult⟩ := after_elements hat hop rest item 0 _ hitems
      hnumeric (hkeep.size ▸ hfits) rfl
      (congrArg Register.value (peek_put_self (m := m.tick) hfits.element _))
      ((congrArg (fun r => r.value.isNumeric) hacc₁).trans hacc) (hroom.after_dispatch henter)
    refine ⟨m', (after_go henter).trans hafter, hkeep.trans hkeep', hframes', ?_⟩
    exact hresult.trans (congrArg (fun r => (item :: rest).foldl _ r.value) hacc₁)

end Loop

/-- An iteration that adds up or multiplies the numbers of a list comes to its end, changes no
register but its own, and leaves in its result register what the standard function for folding
returns. -/
theorem leaves_fold {name : String} (hat : c.At s.packet.code pc) (hop : c.op.foldName? = some name)
    (hfits : c.Fits m.registers.size) {ref : ListRef}
    (hlist : (m.peek c.source.toNat).value = .list ref)
    (hnumeric : ∀ v ∈ (m.store.items ref).toList, v.isNumeric = true)
    (hacc : (m.peek c.acc.toNat).value.isNumeric = true)
    (hdepth : ∀ limit ∈ s.limits.depth, m.frames.length < limit.toNat)
    (hroom : m.Affords s.limits (2 * (m.store.items ref).size + 1)) :
    ∃ m', (∀ fuel,
      runFrom s (2 * (m.store.items ref).size + 1 + fuel) pc m = runFrom s fuel (pc + 3) m') ∧
      c.Keeps m m' ∧ m'.frames = m.frames ∧
      ∀ context args t ref', (argumentsIn context args t).value "list" = .list ref' →
        t.items ref' = m.store.items ref →
        (argumentsIn context args t).value "initial" = (m.peek c.acc.toNat).value →
        (argumentsIn context args t).value "fn" = .string name →
        FunctionTable.standard.call 0x78 context args t =
          .ok ((m'.peek c.result.toNat).value, t) := by
  obtain ⟨m', hafter, hkeep, hframes, hresult⟩ := after_loop hat
    (ArithmeticOp.divides_of_foldName? hop) hfits hlist hnumeric hacc
    ((depthAllowed_eq_ok_iff _ _).2 hdepth) hroom
  refine ⟨m', runFrom_add hafter, hkeep, hframes,
    fun context args t ref' hlist' hitems hinitial hname => ?_⟩
  have hread : (argumentsIn context args t).items "list" = (m.store.items ref).toList := by
    rw [Arguments.items, hlist', ← hitems]
    rfl
  have hcall : FunctionTable.standard.call 0x78 context args t =
      (Builtin.fold (argumentsIn context args t)).map t.build := rfl
  rw [hcall, Builtin.fold_eq hop hname, hread, hinitial, ← hresult]
  rfl

/-- Adds up the list in register 0 into register 1. -/
def totalling : FoldLoop where
  op := .add
  source := 0
  element := 2
  acc := 1
  result := 3
  unused := 0
  openFlags := 2
  bodyFlags := 0
  closeFlags := 0

/-- Runs the loop, and its limits allow no more than that for a list of three. -/
def totalling.setting : Setting where
  packet := { code := #[totalling.opening, totalling.body, totalling.closing] }
  functions := .none
  timestamp := ""
  limits := { instructions := some 7, depth := some 1 }

/-- Holds a list on which the sum wraps around and then becomes a float, and a record of arguments
with it. -/
def totalling.machine : Machine where
  store := { lists := #[#[.integer 9223372036854775807, .float ⟨0x3fe0000000000000⟩, .integer 3]]
             records := #[⟨[("fn", .string "add"), ("initial", .integer 9223372036854775807),
               ("list", .list ⟨0⟩)]⟩] }
  registers := #[⟨.list ⟨0⟩, 1⟩, ⟨.integer 9223372036854775807, 2⟩, {}, {}]

/-- The two large numbers give -2, the half makes -1.5 of it, and the last one 1.5. -/
theorem totalling_leaves_fold :
    ∃ m', runFrom totalling.setting 8 0 totalling.machine = (.finished, m') ∧
      (m'.peek 3).value = .float ⟨0x3ff8000000000000⟩ ∧
      FunctionTable.standard.call 0x78 ⟨"", 0⟩ ⟨0⟩ totalling.machine.store =
        .ok ((m'.peek 3).value, totalling.machine.store) := by
  have hat : totalling.At totalling.setting.packet.code 0 := ⟨rfl, rfl, rfl, rfl⟩
  have hfits : totalling.Fits totalling.machine.registers.size :=
    ⟨by decide, by decide, by decide, by decide, by decide, by decide⟩
  have hlist : (totalling.machine.peek totalling.source.toNat).value = .list ⟨0⟩ := rfl
  obtain ⟨m', hrun, -, hframes, hcall⟩ := leaves_fold hat rfl hfits hlist (by decide) (by decide)
    (fun _ h => by cases h; decide) (fun _ h => by cases h; decide)
  have hfold := hcall ⟨"", 0⟩ ⟨0⟩ totalling.machine.store ⟨0⟩ rfl rfl rfl rfl
  have hvalue : FunctionTable.standard.call 0x78 ⟨"", 0⟩ ⟨0⟩ totalling.machine.store =
      .ok (.float ⟨0x3ff8000000000000⟩, totalling.machine.store) := rfl
  refine ⟨m', (hrun 1).trans ?_, (Prod.mk.inj (Except.ok.inj (hfold.symm.trans hvalue))).1, hfold⟩
  rw [runFrom_out rfl, ending, hframes]
  rfl

end FoldLoop

end Machine

end TagMachine
