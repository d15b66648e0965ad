import TagMachine.Machine.Run
import TagMachine.Proofs.Outcome

set_option autoImplicit false

/-! # What a step can do

`Machine.step` is a function into an error monad. Here it is taken apart once: a step that succeeds
is one of the six cases of `Machine.Advance`, and later proofs go through these cases only.

An operation is *plain* when it is neither a jump nor part of an iteration. A plain operation
neither reads nor writes the open iterations (`withFrames_apply`).
-/

namespace TagMachine

namespace Opcode

/-- An instruction for an operation. -/
def on (op : Opcode) (flags : UInt8) (dest op1 op2 : UInt16) : Instruction :=
  ⟨op.byte, flags, dest, op1, op2⟩

/-- Whether an operation is a jump. -/
def isJump : Opcode → Bool
  | jump => true
  | jumpIf => true
  | jumpIfNot => true
  | jumpUnless _ => true
  | jumpIfNothing => true
  | _ => false

/-- Whether an operation is neither a jump nor part of an iteration. -/
def isPlain (op : Opcode) : Bool := !op.isJump && op != iterate && op != collect

end Opcode

namespace Machine

/-! ## Steps that leave the iterations alone -/

/-- A machine with other open iterations. -/
def withFrames (m : Machine) (fs : List Frame) : Machine := { m with frames := fs }

section WithFrames

variable (m : Machine) (fs gs : List Frame)

@[simp] theorem withFrames_frames : (m.withFrames fs).frames = fs := rfl

@[simp] theorem withFrames_store : (m.withFrames fs).store = m.store := rfl

@[simp] theorem withFrames_registers : (m.withFrames fs).registers = m.registers := rfl

@[simp] theorem withFrames_executed : (m.withFrames fs).executed = m.executed := rfl

@[simp] theorem withFrames_withFrames : (m.withFrames fs).withFrames gs = m.withFrames gs := rfl

@[simp] theorem withFrames_self : m.withFrames m.frames = m := rfl

@[simp] theorem withFrames_peek (n : Nat) : (m.withFrames fs).peek n = m.peek n := rfl

@[simp] theorem withFrames_put (n : Nat) (r : Register) :
    (m.withFrames fs).put n r = (m.put n r).withFrames fs := rfl

@[simp] theorem withFrames_jumps? (op : Opcode) (i : Instruction) :
    (m.withFrames fs).jumps? op i = m.jumps? op i := by
  cases op <;> rfl

theorem withFrames_setRegister (r : UInt16) (c : Register) :
    (m.withFrames fs).setRegister r c = (m.setRegister r c).map (·.withFrames fs) :=
  bind_map_congr fun _ => rfl

theorem withFrames_write (i : Instruction) (v : Value) (t : TagSet) :
    (m.withFrames fs).write i v t = (m.write i v t).map (·.withFrames fs) :=
  bind_map_congr fun _ => rfl

theorem withFrames_mergeTags (a b : UInt16) :
    (m.withFrames fs).mergeTags a b = (m.mergeTags a b).map (·.withFrames fs) :=
  bind_map_congr fun _ => bind_map_congr fun _ => rfl

theorem withFrames_writeRecord (i : Instruction) (r : Record) (t : TagSet) :
    (m.withFrames fs).writeRecord i r t = (m.writeRecord i r t).map (·.withFrames fs) :=
  withFrames_write { m with store := (m.store.newRecord r).2 } fs i _ t

theorem withFrames_setFieldOf (i : Instruction) (key : String) :
    (m.withFrames fs).setFieldOf i key = (m.setFieldOf i key).map (·.withFrames fs) :=
  bind_map_congr fun v => bind_map_congr fun ref =>
    withFrames_mergeTags { m with store := m.store.setField ref key v } fs _ _

theorem withFrames_call (s : Setting) (i : Instruction) (args : RecordRef) (t : TagSet) :
    (m.withFrames fs).call s i args t = (m.call s i args t).map (·.withFrames fs) := by
  unfold call
  by_cases h : i.op1 = identityFunction
  · rw [if_pos h, if_pos h]
    exact withFrames_write ..
  · rw [if_neg h, if_neg h]
    exact bind_map_congr fun r => withFrames_write { m with store := r.2 } fs i r.1 t

theorem withFrames_callValue (s : Setting) (i : Instruction) :
    (m.withFrames fs).callValue s i = (m.callValue s i).map (·.withFrames fs) := by
  refine bind_map_congr fun arg => bind_map_congr fun t => ?_
  by_cases h : i.op1 = identityFunction
  · rw [if_pos h, if_pos h]
    exact withFrames_write ..
  · rw [if_neg h, if_neg h]
    exact bind_map_congr fun r => withFrames_write { m with store := r.2 } fs i r.1 t

theorem withFrames_loadField (s : Setting) (i : Instruction) :
    (m.withFrames fs).loadField s i = (m.loadField s i).map (·.withFrames fs) := by
  unfold loadField
  split
  · rfl
  · split
    · rfl
    · exact bind_map_congr fun r => withFrames_setRegister ..

theorem withFrames_setTags (s : Setting) (i : Instruction) :
    (m.withFrames fs).setTags s i = (m.setTags s i).map (·.withFrames fs) := by
  refine bind_map_congr fun c => ?_
  cases c with
  | integer n => exact bind_map_congr fun _ => rfl
  | _ => rfl

/-- A plain operation does not depend on the open iterations and does not change them. -/
theorem withFrames_apply (s : Setting) (op : Opcode) (i : Instruction) :
    (m.withFrames fs).apply s op i = (m.apply s op i).map (·.withFrames fs) := by
  cases op with
  | loadField => exact withFrames_loadField ..
  | copy => exact bind_map_congr fun _ => withFrames_setRegister ..
  | newRecord => exact withFrames_writeRecord ..
  | setField | setNamed => exact bind_map_congr fun _ => withFrames_setFieldOf ..
  | newList => exact withFrames_write { m with store := (m.store.newList #[]).2 } fs i _ 0
  | append =>
    exact bind_map_congr fun v => bind_map_congr fun ref =>
      withFrames_mergeTags { m with store := m.store.push ref v } fs _ _
  | getItem =>
    refine bind_map_congr fun ref => bind_map_congr fun v => ?_
    cases v with
    | integer n => exact bind_map_congr fun _ => withFrames_write ..
    | _ => rfl
  | call => exact bind_map_congr fun _ => bind_map_congr fun _ => withFrames_call ..
  | callValue => exact withFrames_callValue ..
  | setTags => exact withFrames_setTags ..
  | newNamed =>
    exact bind_map_congr fun _ => bind_map_congr fun _ => bind_map_congr fun _ =>
      withFrames_writeRecord ..
  | loadNothing => exact withFrames_write ..
  | loadConstant => exact bind_map_congr fun _ => withFrames_write ..
  | compare _ | isKind _ | listLength | not | checkTags | coalesce =>
    exact bind_map_congr fun _ => bind_map_congr fun _ => withFrames_write ..
  | arithmetic _ =>
    exact bind_map_congr fun _ => bind_map_congr fun _ => bind_map_congr fun _ =>
      bind_map_congr fun _ => withFrames_write ..
  | jump | jumpIf | jumpIfNot | jumpUnless _ | jumpIfNothing | iterate | collect => rfl
  | _ =>
    exact bind_map_congr fun _ => bind_map_congr fun _ => bind_map_congr fun _ =>
      withFrames_write ..

end WithFrames

/-! ## Iterations -/

/-- The iteration that an instruction opens, with all but the bound on open iterations checked. -/
def plan (s : Setting) (pc : Nat) (i : Instruction) (m : Machine) : Except Error Frame := do
  let source ← m.register i.op1
  match source.value with
  | .list ref =>
    match closing? s.packet.code (pc + 1 + i.op2.toNat) with
    | none => throw (.program (.iterationUnclosed pc (pc + 1 + i.op2.toNat)))
    | some close => m.frame pc i close source.tags (m.store.items ref)
  | v => throw (.program (.iterationSource v.kind))

/-- The machine after an iteration ended with the given results. -/
def close (m : Machine) (f : Frame) (results : Array Value) : Machine :=
  m.finish f.mode f.result f.first results f.sourceTags

/-- The machine with an element of an iteration in its register. -/
def seed (m : Machine) (f : Frame) (item : Value) : Machine :=
  m.put f.element ⟨item, f.sourceTags⟩

theorem plan_withFrames (s : Setting) (pc : Nat) (i : Instruction) (m : Machine)
    (fs : List Frame) : (m.withFrames fs).plan s pc i = m.plan s pc i := rfl

theorem close_withFrames (m : Machine) (fs : List Frame) (f : Frame) (results : Array Value) :
    (m.withFrames fs).close f results = (m.close f results).withFrames fs := by
  unfold close finish
  cases f.mode <;> rfl

/-- The result of an iteration: the accumulator, or the list of what was collected. -/
def delivered (m : Machine) (f : Loop) (ref : ListRef) : Register :=
  match f.mode with
  | .fold => m.peek f.first
  | _ => ⟨.list ref, f.sourceTags⟩

theorem delivered_of_fold {f : Loop} (h : f.mode = .fold) (m : Machine) (ref : ListRef) :
    m.delivered f ref = m.peek f.first := by
  simp only [delivered, h]

theorem delivered_of_ne_fold {f : Loop} (h : f.mode ≠ .fold) (m : Machine) (ref : ListRef) :
    m.delivered f ref = ⟨.list ref, f.sourceTags⟩ := by
  unfold delivered
  split
  · exact absurd ‹_› h
  · rfl

theorem close_eq_put (m : Machine) (f : Frame) (results : Array Value) :
    m.close f results =
      (if f.mode = .fold then m else { m with store := (m.store.newList results).2 }).put f.result
        (m.delivered f.toLoop (m.store.newList results).1) := by
  unfold close finish delivered
  cases f.mode <;> rfl

/-- The value that a run of the body adds to what an iteration has collected, if any. -/
def yield (m : Machine) (f : Loop) : Option Value :=
  match f.mode with
  | .map => some (m.peek f.first).value
  | .fold => none
  | _ => if (m.peek f.first).value = .boolean true then some (m.peek f.second).value else none

theorem gather_eq_yield (m : Machine) (f : Frame) :
    m.gather f = (m.yield f.toLoop).elim f.results f.results.push := by
  unfold gather yield
  cases f.mode with
  | map | fold => rfl
  | filter | mapFilter => dsimp only; split <;> rfl

/-- Whether one more iteration may be opened inside `depth` others. -/
def depthAllowed (limits : Limits) (depth : Nat) : Except Error Unit :=
  match limits.depth with
  | some limit =>
    if limit.toNat ≤ depth then throw (.program (.iterationTooDeep limit.toNat)) else pure ()
  | none => pure ()

theorem openFrame_eq (limits : Limits) (m : Machine) (f : Frame) (item : Value) :
    m.openFrame limits f item = depthAllowed limits m.frames.length >>= fun _ =>
      pure ((m.seed f item).withFrames (f :: m.frames)) := by
  unfold openFrame depthAllowed
  cases limits.depth with
  | none => rfl
  | some limit => by_cases h : limit.toNat ≤ m.frames.length <;> simp [h] <;> rfl

/-- What the frame of a planned iteration says. -/
structure Planned (s : Setting) (pc : Nat) (i : Instruction) (m : Machine) (f : Frame) :
    Prop where
  bodyStart : f.bodyStart = pc + 1
  collectAt : f.collectAt = pc + 1 + i.op2.toNat
  cursor : f.cursor = 0
  results : f.results = #[]
  mode : f.mode = i.iterMode
  /-- The frame has the contents of the source and the registers of the two instructions. -/
  operands : ∃ source ref close, m.register i.op1 = .ok source ∧ source.value = .list ref ∧
    closing? s.packet.code f.collectAt = some close ∧ f.items = m.store.items ref ∧
    f.sourceTags = source.tags ∧ m.slot i.dest = .ok f.element ∧ m.slot close.dest = .ok f.result ∧
    m.slot close.op1 = .ok f.first ∧ m.slot close.op2 = .ok f.second

theorem planned_of_plan {s : Setting} {pc : Nat} {i : Instruction} {m : Machine} {f : Frame}
    (h : m.plan s pc i = .ok f) : Planned s pc i m f := by
  obtain ⟨source, hsource, h⟩ := bind_eq_ok.1 h
  split at h
  case h_2 => simp [throw, throwThe, MonadExceptOf.throw] at h
  case h_1 ref href =>
    split at h
    case h_1 => simp [throw, throwThe, MonadExceptOf.throw] at h
    case h_2 close hclose =>
      obtain ⟨element, helement, h⟩ := bind_eq_ok.1 h
      obtain ⟨result, hresult, h⟩ := bind_eq_ok.1 h
      obtain ⟨first, hfirst, h⟩ := bind_eq_ok.1 h
      obtain ⟨second, hsecond, h⟩ := bind_eq_ok.1 h
      obtain rfl := pure_eq_ok.1 h
      exact ⟨rfl, rfl, rfl, rfl, rfl, source, ref, close, hsource, href, hclose, rfl, rfl,
        helement, hresult, hfirst, hsecond⟩

/-- Opening an iteration: the plan is made, then the empty list ends it at once and any other
starts its first run. -/
theorem iterate_eq (s : Setting) (pc : Nat) (i : Instruction) (m : Machine) :
    m.iterate s pc i = m.plan s pc i >>= fun f =>
      match f.items[0]? with
      | none => pure (f.collectAt + 1, m.close f #[])
      | some item => depthAllowed s.limits m.frames.length >>= fun _ =>
        pure (f.bodyStart, (m.seed f item).withFrames (f :: m.frames)) := by
  unfold iterate plan
  rw [bind_assoc]
  refine bind_congr fun source => ?_
  cases source.value with
  | list ref =>
    dsimp only
    cases closing? s.packet.code (pc + 1 + i.op2.toNat) with
    | none => rfl
    | some close =>
      simp only [frame, bind_assoc, pure_bind]
      refine bind_congr fun element => bind_congr fun result => bind_congr fun first =>
        bind_congr fun second => ?_
      cases (m.store.items ref)[0]? with
      | none => rfl
      | some item => simp only [openFrame_eq, bind_assoc, pure_bind]
  | _ => rfl

/-! ## The cases of a step -/

/-- What a step that succeeds can do: the next place and the machine after it. -/
inductive Advance (s : Setting) (pc : Nat) (i : Instruction) (m : Machine) :
    Nat → Machine → Prop
  /-- A plain operation is applied. -/
  | plain {op : Opcode} {m' : Machine} (hop : Opcode.ofByte? i.opcode = some op)
      (hplain : op.isPlain = true) (happly : m.apply s op i = .ok m') :
      Advance s pc i m (pc + 1) m'
  | jump {op : Opcode} {taken : Bool} (hop : Opcode.ofByte? i.opcode = some op)
      (hjump : m.jumps? op i = some (.ok taken)) :
      Advance s pc i m (if taken then i.dest.toNat else pc + 1) m
  /-- The list to iterate is empty. -/
  | skip {f : Frame} (hop : Opcode.ofByte? i.opcode = some .iterate)
      (hplan : m.plan s pc i = .ok f) (hitem : f.items[0]? = none) :
      Advance s pc i m (f.collectAt + 1) (m.close f #[])
  /-- An iteration is opened. -/
  | enter {f : Frame} {item : Value} (hop : Opcode.ofByte? i.opcode = some .iterate)
      (hplan : m.plan s pc i = .ok f) (hitem : f.items[0]? = some item)
      (hdepth : depthAllowed s.limits m.frames.length = .ok ()) :
      Advance s pc i m f.bodyStart ((m.seed f item).withFrames (f :: m.frames))
  /-- The innermost iteration goes on with its next element. -/
  | again {f : Frame} {fs : List Frame} {item : Value}
      (hop : Opcode.ofByte? i.opcode = some .collect) (hframes : m.frames = f :: fs)
      (hpc : f.collectAt = pc) (hitem : f.items[f.cursor + 1]? = some item) :
      Advance s pc i m f.bodyStart ((m.seed f item).withFrames
        ({ f with cursor := f.cursor + 1, results := m.gather f } :: fs))
  /-- The innermost iteration ends. -/
  | leave {f : Frame} {fs : List Frame} (hop : Opcode.ofByte? i.opcode = some .collect)
      (hframes : m.frames = f :: fs) (hpc : f.collectAt = pc)
      (hitem : f.items[f.cursor + 1]? = none) :
      Advance s pc i m (pc + 1) ((m.withFrames fs).close f (m.gather f))

section Cases

variable {s : Setting} {pc next : Nat} {op : Opcode} {i : Instruction} {m n : Machine}

theorem isJump_iff_jumps? (m : Machine) (op : Opcode) (i : Instruction) :
    op.isJump = (m.jumps? op i).isSome := by
  cases op <;> rfl

theorem execute_of_jumps? {taken : Except Error Bool} (h : m.jumps? op i = some taken) :
    execute s pc op i m =
      taken >>= fun t => pure (if t then i.dest.toNat else pc + 1, m) := by
  unfold execute
  rw [h]

theorem execute_of_isPlain (h : op.isPlain = true) :
    execute s pc op i m = m.apply s op i >>= fun m' => pure (pc + 1, m') := by
  cases op <;> first | rfl | cases h

theorem execute_iterate (s : Setting) (pc : Nat) (i : Instruction) (m : Machine) :
    execute s pc .iterate i m = m.iterate s pc i := rfl

theorem execute_collect (s : Setting) (pc : Nat) (i : Instruction) (m : Machine) :
    execute s pc .collect i m = m.collect pc := rfl

theorem advance_of_iterate (hop : Opcode.ofByte? i.opcode = some .iterate)
    (h : m.iterate s pc i = .ok (next, n)) : Advance s pc i m next n := by
  rw [iterate_eq] at h
  obtain ⟨f, hplan, h⟩ := bind_eq_ok.1 h
  cases hitem : f.items[0]? with
  | none =>
    rw [hitem] at h
    cases pure_eq_ok.1 h
    exact .skip hop hplan hitem
  | some item =>
    rw [hitem] at h
    obtain ⟨⟨⟩, hdepth, h⟩ := bind_eq_ok.1 h
    cases pure_eq_ok.1 h
    exact .enter hop hplan hitem hdepth

theorem advance_of_collect (hop : Opcode.ofByte? i.opcode = some .collect)
    (h : m.collect pc = .ok (next, n)) : Advance s pc i m next n := by
  unfold collect at h
  cases hframes : m.frames with
  | nil => simp [hframes] at h
  | cons f fs =>
    simp only [hframes] at h
    by_cases hpc : f.collectAt = pc
    · rw [if_neg (not_not.2 hpc)] at h
      cases hitem : f.items[f.cursor + 1]? with
      | none =>
        simp only [hitem, Except.ok.injEq, Prod.mk.injEq] at h
        obtain ⟨rfl, rfl⟩ := h
        exact .leave hop hframes hpc hitem
      | some item =>
        simp only [hitem, Except.ok.injEq, Prod.mk.injEq] at h
        obtain ⟨rfl, rfl⟩ := h
        exact .again hop hframes hpc hitem
    · rw [if_pos hpc] at h
      cases h

/-- Every step that succeeds is one of the cases. -/
theorem advance_of_step (h : m.step s pc i = .ok (next, n)) : Advance s pc i m next n := by
  unfold step at h
  cases hop : Opcode.ofByte? i.opcode with
  | none => simp [hop] at h
  | some op =>
    simp only [hop] at h
    by_cases hplain : op.isPlain = true
    · rw [execute_of_isPlain hplain] at h
      obtain ⟨m₁, happly, h⟩ := bind_eq_ok.1 h
      cases pure_eq_ok.1 h
      exact .plain hop hplain happly
    cases hjump : m.jumps? op i with
    | some taken =>
      rw [execute_of_jumps? hjump] at h
      obtain ⟨t, ht, h⟩ := bind_eq_ok.1 h
      cases pure_eq_ok.1 h
      exact .jump hop (ht ▸ hjump)
    | none =>
      -- what is neither plain nor a jump opens or closes an iteration
      have hcase : op = .iterate ∨ op = .collect := by
        have := isJump_iff_jumps? m op i
        simp only [hjump, Option.isSome_none] at this
        simp only [Opcode.isPlain, this, Bool.not_false, Bool.true_and, Bool.and_eq_true,
          bne_iff_ne, ne_eq] at hplain
        tauto
      obtain rfl | rfl := hcase
      · exact advance_of_iterate hop h
      · exact advance_of_collect hop h

theorem step_of_ofByte? (hop : Opcode.ofByte? i.opcode = some op) :
    m.step s pc i = execute s pc op i m := by
  unfold step
  rw [hop]

/-- Every case is a step that succeeds. -/
theorem step_of_advance (h : Advance s pc i m next n) : m.step s pc i = .ok (next, n) := by
  cases h with
  | plain hop hplain happly =>
    rw [step_of_ofByte? hop, execute_of_isPlain hplain, happly]
    rfl
  | jump hop hjump =>
    rw [step_of_ofByte? hop, execute_of_jumps? hjump]
    rfl
  | skip hop hplan hitem =>
    rw [step_of_ofByte? hop, execute_iterate, iterate_eq, hplan]
    simp only [bind, Except.bind, hitem]
    rfl
  | enter hop hplan hitem hdepth =>
    rw [step_of_ofByte? hop, execute_iterate, iterate_eq, hplan]
    simp only [bind, Except.bind, hitem, hdepth]
    rfl
  | again hop hframes hpc hitem | leave hop hframes hpc hitem =>
    rw [step_of_ofByte? hop, execute_collect, collect]
    simp only [hframes, hpc, ne_eq, not_true_eq_false, if_false, hitem]
    rfl

/-! ## The case of an opcode -/

theorem Advance.exists_opcode (h : Advance s pc i m next n) :
    ∃ op, Opcode.ofByte? i.opcode = some op := by
  cases h <;> exact ⟨_, ‹_›⟩

/-- An instruction that is not part of an iteration does not depend on the open iterations. -/
theorem step_withFrames {fs : List Frame} (hiterate : Opcode.ofByte? i.opcode ≠ some .iterate)
    (hcollect : Opcode.ofByte? i.opcode ≠ some .collect) :
    (m.withFrames fs).step s pc i =
      (m.step s pc i).map fun r => (r.1, r.2.withFrames fs) := by
  unfold step
  cases hop : Opcode.ofByte? i.opcode with
  | none => rfl
  | some op =>
    dsimp only
    cases hjump : m.jumps? op i with
    | some taken =>
      rw [execute_of_jumps? hjump, execute_of_jumps? (by rw [withFrames_jumps?, hjump])]
      exact bind_map_congr fun t => rfl
    | none =>
      have hplain : op.isPlain = true := by
        have hjumps := isJump_iff_jumps? m op i
        rw [hjump] at hjumps
        simp only [Opcode.isPlain, hjumps, Option.isSome_none, Bool.not_false, Bool.true_and,
          Bool.and_eq_true, bne_iff_ne, ne_eq]
        exact ⟨fun h => hiterate (h ▸ hop), fun h => hcollect (h ▸ hop)⟩
      rw [execute_of_isPlain hplain, execute_of_isPlain hplain, withFrames_apply]
      cases m.apply s op i <;> rfl

/-- A plain operation is applied, and the next instruction follows. -/
theorem Advance.of_isPlain (hop : Opcode.ofByte? i.opcode = some op)
    (hplain : op.isPlain = true) (h : Advance s pc i m next n) :
    next = pc + 1 ∧ m.apply s op i = .ok n := by
  cases h with
  | plain hop' _ happly =>
    obtain rfl := Option.some.inj (hop.symm.trans hop')
    exact ⟨rfl, happly⟩
  | jump hop' hjumps =>
    obtain rfl := Option.some.inj (hop.symm.trans hop')
    have hjump := isJump_iff_jumps? m op i
    rw [hjumps] at hjump
    simp [Opcode.isPlain, hjump] at hplain
  | _ hop' =>
    obtain rfl := Option.some.inj (hop.symm.trans hop')
    cases hplain

/-- A step without iterations that opens none is taken with any. -/
theorem Advance.withFrames (h : Advance s pc i m next n) (hm : m.frames = []) (hn : n.frames = [])
    (fs : List Frame) : Advance s pc i (m.withFrames fs) next (n.withFrames fs) := by
  cases h with
  | plain hop hplain happly => exact .plain hop hplain (by rw [withFrames_apply, happly]; rfl)
  | jump hop hjump => exact .jump hop (by rwa [withFrames_jumps?])
  | skip hop hplan hitem => exact close_withFrames m fs .. ▸ .skip hop hplan hitem
  | enter => cases hn
  | again _ hframes | leave _ hframes => cases hm.symm.trans hframes

theorem Advance.iterate_cases (hop : Opcode.ofByte? i.opcode = some .iterate)
    (h : Advance s pc i m next n) : ∃ f, m.plan s pc i = .ok f ∧
      (f.items[0]? = none ∧ next = f.collectAt + 1 ∧ n = m.close f #[] ∨
        ∃ item, f.items[0]? = some item ∧ next = f.bodyStart ∧
          n = (m.seed f item).withFrames (f :: m.frames)) := by
  cases h with
  | plain hop' hkind | jump hop' hkind =>
    obtain rfl := Option.some.inj (hop.symm.trans hop')
    cases hkind
  | skip _ hplan hitem => exact ⟨_, hplan, .inl ⟨hitem, rfl, rfl⟩⟩
  | enter _ hplan hitem => exact ⟨_, hplan, .inr ⟨_, hitem, rfl, rfl⟩⟩
  | _ hop' => cases hop.symm.trans hop'

theorem Advance.collect_cases (hop : Opcode.ofByte? i.opcode = some .collect)
    (h : Advance s pc i m next n) : ∃ f fs, m.frames = f :: fs ∧ f.collectAt = pc ∧
      ((∃ item, f.items[f.cursor + 1]? = some item ∧ next = f.bodyStart ∧
          n = (m.seed f item).withFrames
            ({ f with cursor := f.cursor + 1, results := m.gather f } :: fs)) ∨
        f.items[f.cursor + 1]? = none ∧ next = pc + 1 ∧
          n = (m.withFrames fs).close f (m.gather f)) := by
  cases h with
  | plain hop' hkind | jump hop' hkind =>
    obtain rfl := Option.some.inj (hop.symm.trans hop')
    cases hkind
  | again _ hframes hpc hitem => exact ⟨_, _, hframes, hpc, .inl ⟨_, hitem, rfl, rfl⟩⟩
  | leave _ hframes hpc hitem => exact ⟨_, _, hframes, hpc, .inr ⟨hitem, rfl, rfl⟩⟩
  | _ hop' => cases hop.symm.trans hop'

end Cases

end Machine

end TagMachine
