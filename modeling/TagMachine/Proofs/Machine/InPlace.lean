import TagMachine.Proofs.Builtin.Parametric

set_option autoImplicit false

/-! # Instructions in place

`Machine.step` gives a new machine, or an error and no machine. `Action.step` executes the same
instruction on a machine that is changed in place: its reads and writes come one after another,
values and tags are written apart, and what was changed before an error is met stays changed. Some
accesses of an iteration to its registers are not checked; one outside the scratchpad is a fault of
its own.

The two agree (`Action.step_does`). An instruction that meets an error has not written any register
or open iteration and not changed any container that existed; it may have made containers that
nothing refers to. An access outside the scratchpad is possible only for registers of the innermost
iteration.
-/

namespace TagMachine

/-- Why an action stops. -/
inductive Fault where
  /-- It meets an error. -/
  | error (e : Error)
  /-- It accesses a register that does not exist without checking. -/
  | outside (slot : Nat)

/-- An action on a machine that is changed in place. -/
abbrev Action := EStateM Fault Machine

namespace Action

/-! ## Single accesses -/

def read {α : Type} (look : Machine → Except Error α) : Action α := fun m =>
  match look m with
  | .ok a => .ok a m
  | .error e => .error (.error e) m

/-- Meets an error. -/
def fail {α : Type} (e : Error) : Action α := fun m => .error (.error e) m

/-- Reads a register without a check. -/
def fetch (slot : Nat) : Action Register := fun m =>
  if slot < m.registers.size then .ok (m.peek slot) m else .error (.outside slot) m

/-- Writes a part of a register without a check. -/
def update (slot : Nat) (part : Register → Register) : Action Unit := fun m =>
  if slot < m.registers.size then .ok () (m.put slot (part (m.peek slot)))
  else .error (.outside slot) m

def setValue (slot : Nat) (v : Value) : Action Unit := update slot fun c => { c with value := v }

def setTags (slot : Nat) (tags : TagSet) : Action Unit := update slot fun c => { c with tags }

/-- Makes a list. -/
def newList (items : Array Value) : Action ListRef := fun m =>
  .ok (m.store.newList items).1 { m with store := (m.store.newList items).2 }

/-- Makes a record. -/
def newRecord (r : Record) : Action RecordRef := fun m =>
  .ok (m.store.newRecord r).1 { m with store := (m.store.newRecord r).2 }

def change (f : Store → Store) : Action Unit := fun m => .ok () { m with store := f m.store }

/-- Changes the open iterations. -/
def changeFrames (f : List Frame → List Frame) : Action Unit := fun m =>
  .ok () (m.withFrames (f m.frames))

/-- Calls a function. -/
def invoke (s : Setting) (id : UInt16) (args : RecordRef) : Action Value := fun m =>
  match s.functions.call id ⟨s.timestamp, m.executed⟩ args m.store with
  | .ok (v, store) => .ok v { m with store }
  | .error e => .error (.error e) m

/-! ## Plain operations -/

def setRegister (r : UInt16) (contents : Register) : Action Unit := do
  let slot ← read (·.slot r)
  setValue slot contents.value
  setTags slot contents.tags

/-- Writes the result of an instruction to its destination. -/
def write (i : Instruction) (v : Value) (tags : TagSet) : Action Unit := do
  let slot ← read (·.slot i.dest)
  setValue slot v
  match i.tagMode with
  | .propagate => setTags slot tags
  | .clear => setTags slot 0
  | .keep => pure ()

/-- Adds the tags of one register to those of another. -/
def mergeTags (dest source : UInt16) : Action Unit := do
  let added ← read (·.tags source)
  let slot ← read (·.slot dest)
  let old ← fetch slot
  setTags slot (old.tags ||| added)

/-- Sets a field of the record in the destination. -/
def setFieldOf (i : Instruction) (key : String) : Action Unit := do
  let v ← read (·.value i.op2)
  let ref ← read (·.record i.dest)
  change (·.setField ref key v)
  mergeTags i.dest i.op2

/-- A plain operation. -/
def plain (s : Setting) (op : Opcode) (i : Instruction) : Action Unit := do
  match op with
  | .loadConstant =>
    let c ← read fun _ => s.constant i.op1
    write i c.value 0
  | .loadField =>
    match s.packet.contract.inputs[i.op1.toNat]? with
    | none => pure ()
    | some f =>
      if f.register = i.dest then pure ()
      else
        let contents ← read (·.register f.register)
        setRegister i.dest contents
  | .loadNothing => write i .nothing 0
  | .copy =>
    let contents ← read (·.register i.op1)
    setRegister i.dest contents
  | .arithmetic op =>
    let x ← read (·.value i.op1)
    let y ← read (·.value i.op2)
    let v ← read fun _ => op.apply x y
    let tags ← read (·.bothTags i.op1 i.op2)
    write i v tags
  | .negate =>
    let x ← read (·.value i.op1)
    let v ← read fun _ => x.negate
    let tags ← read (·.tags i.op1)
    write i v tags
  | .compare op =>
    let result ← read (·.compares op i.op1 i.op2)
    let tags ← read (·.bothTags i.op1 i.op2)
    write i (.boolean result) tags
  | .and =>
    let a ← read (·.boolean i.op1)
    let b ← read (·.boolean i.op2)
    let tags ← read (·.bothTags i.op1 i.op2)
    write i (.boolean (a && b)) tags
  | .or =>
    let a ← read (·.boolean i.op1)
    let b ← read (·.boolean i.op2)
    let tags ← read (·.bothTags i.op1 i.op2)
    write i (.boolean (a || b)) tags
  | .not =>
    let a ← read (·.boolean i.op1)
    let tags ← read (·.tags i.op1)
    write i (.boolean !a) tags
  | .concat =>
    let x ← read (·.value i.op1)
    let y ← read (·.value i.op2)
    let text ← read fun m => .ok (m.store.text x ++ m.store.text y)
    let tags ← read (·.bothTags i.op1 i.op2)
    write i (.string text) tags
  | .isKind kind =>
    let v ← read (·.value i.op1)
    let tags ← read (·.tags i.op1)
    write i (.boolean (v.kind = kind)) tags
  | .convert target =>
    let x ← read (·.value i.op1)
    let v ← read (·.converted target x)
    let tags ← read (·.tags i.op1)
    write i v tags
  | .newRecord =>
    let ref ← newRecord .empty
    write i (.record ref) 0
  | .setField =>
    let key ← read (·.text i.op1)
    setFieldOf i key
  | .getField =>
    let ref ← read (·.record i.op1)
    let key ← read (·.text i.op2)
    let v ← read fun m => .ok ((m.store.record ref).get key)
    let tags ← read (·.tags i.op1)
    write i v tags
  | .hasField =>
    let ref ← read (·.record i.op1)
    let key ← read (·.text i.op2)
    let result ← read fun m => .ok ((m.store.record ref).has key)
    let tags ← read (·.tags i.op1)
    write i (.boolean result) tags
  | .newList =>
    let ref ← newList #[]
    write i (.list ref) 0
  | .append =>
    let v ← read (·.value i.op1)
    let ref ← read (·.list i.dest)
    change (·.push ref v)
    mergeTags i.dest i.op1
  | .getItem =>
    let ref ← read (·.list i.op1)
    match ← read (·.value i.op2) with
    | .integer n =>
      let v ← read fun m => .ok (m.store.itemAt ref n)
      let tags ← read (·.tags i.op1)
      write i v tags
    | v => fail (.type (.listIndex v.kind))
  | .listLength =>
    let ref ← read (·.list i.op1)
    let length ← read fun m => .ok (m.store.items ref).size
    let tags ← read (·.tags i.op1)
    write i (.integer (Int64.ofNat length)) tags
  | .coalesce =>
    let v ← read (·.value i.op1)
    let contents ← read (·.register (if v.isNothing then i.op2 else i.op1))
    write i contents.value contents.tags
  | .call =>
    let ref ← read (·.record i.op2)
    let v ← if i.op1 = Machine.identityFunction then
        read fun m => .ok ((m.store.record ref).get "value")
      else invoke s i.op1 ref
    let tags ← read (·.tags i.op2)
    write i v tags
  | .callValue =>
    let arg ← read (·.value i.op2)
    let v ← if i.op1 = Machine.identityFunction then pure arg
      else
        let ref ← newRecord .empty
        change (·.setField ref "value" arg)
        invoke s i.op1 ref
    let tags ← read (·.tags i.op2)
    write i v tags
  | .setTags =>
    match ← read fun _ => s.constant i.op1 with
    | .integer n =>
      let slot ← read (·.slot i.dest)
      setTags slot n.toBitVec
    | _ => pure ()
  | .checkTags =>
    let c ← read fun _ => s.constant i.op2
    let tags ← read (·.tags i.op1)
    write i (.boolean (tags &&& Machine.constantTags c == Machine.constantTags c)) 0
  | .getNamed =>
    let ref ← read (·.record i.op1)
    let key ← read fun _ => s.constantKey i.op2
    let v ← read fun m => .ok ((m.store.record ref).get key)
    let tags ← read (·.tags i.op1)
    write i v tags
  | .setNamed =>
    let key ← read fun _ => s.constantKey i.op1
    setFieldOf i key
  | .newNamed =>
    let ref ← newRecord .empty
    let key ← read fun _ => s.constantKey i.op1
    let v ← read (·.value i.op2)
    change (·.setField ref key v)
    let tags ← read (·.tags i.op2)
    write i (.record ref) tags
  | .jump | .jumpIf | .jumpIfNot | .jumpUnless _ | .jumpIfNothing | .iterate | .collect => pure ()

/-! ## Iterations -/

/-- Ends an iteration with a list of what was collected. -/
def finish (f : Loop) (results : Action ListRef) : Action Unit := do
  match f.mode with
  | .fold =>
    setValue f.result (← fetch f.first).value
    setTags f.result (← fetch f.first).tags
  | _ =>
    let ref ← results
    setValue f.result (.list ref)
    setTags f.result f.sourceTags

/-- Puts an element of an iteration in its register. -/
def seed (f : Loop) (item : Value) : Action Unit := do
  setValue f.element item
  setTags f.element f.sourceTags

/-- Opens an iteration. An empty list ends it at once. -/
def iterate (s : Setting) (pc : Nat) (i : Instruction) : Action Nat := do
  let f ← read (·.plan s pc i)
  match f.items[0]? with
  | none =>
    finish f.toLoop (newList #[])
    return f.collectAt + 1
  | some item =>
    read fun m => Machine.depthAllowed s.limits m.frames.length
    seed f.toLoop item
    changeFrames (f :: ·)
    return f.bodyStart

/-- Adds a value to the results of the innermost iteration. -/
def pushResult (v : Value) : Action Unit :=
  changeFrames (·.modifyHead fun f => { f with results := f.results.push v })

/-- Gathers the result of a run of the body, if it has one. -/
def gather (f : Loop) (push : Value → Action Unit) : Action Unit := do
  match f.mode with
  | .map => push (← fetch f.first).value
  | .fold => pure ()
  | _ => if (← fetch f.first).value = .boolean true then push (← fetch f.second).value

/-- Ends a run of the body of the innermost iteration. -/
def collect (pc : Nat) : Action Nat := do
  match (← get).frames with
  | [] => fail (.program (.collectWithoutIteration pc))
  | f :: _ =>
    if f.collectAt ≠ pc then fail (.program (.collectMismatch pc f.collectAt))
    else
      gather f.toLoop pushResult
      changeFrames (·.modifyHead fun f => { f with cursor := f.cursor + 1 })
      match f.items[f.cursor + 1]? with
      | some item =>
        seed f.toLoop item
        return f.bodyStart
      | none =>
        match (← get).frames with
        | [] => return pc + 1
        | f :: frames =>
          changeFrames fun _ => frames
          finish f.toLoop (newList f.results)
          return pc + 1

/-! ## Instructions -/

/-- Executes an operation at a place, and gives the next place. -/
def execute (s : Setting) (pc : Nat) (op : Opcode) (i : Instruction) : Action Nat := do
  match op with
  | .iterate => iterate s pc i
  | .collect => collect pc
  | op =>
    match (← get).jumps? op i with
    | some taken => return if ← read fun _ => taken then i.dest.toNat else pc + 1
    | none =>
      plain s op i
      return pc + 1

/-- Executes the instruction at a place, and gives the next place. -/
def step (s : Setting) (pc : Nat) (i : Instruction) : Action Nat :=
  match Opcode.ofByte? i.opcode with
  | some op => execute s pc op i
  | none => fail (.program (.unknownOpcode i.opcode pc))

/-- Runs from a place for at most `fuel` instructions, and tells whether the end was reached. -/
def runFrom (s : Setting) : Nat → Nat → Action Bool
  | 0, _ => pure false
  | fuel + 1, pc => do
    match s.packet.code[pc]? with
    | none =>
      let frames := (← get).frames
      if frames.isEmpty then return true
      else fail (.program (.openIterations frames.length))
    | some i =>
      modify Machine.tick
      if (← get).overBudget s.limits then fail (.program .budgetExhausted)
      else
        let next ← step s pc i
        runFrom s fuel next

/-! ## What an action does -/

end Action

/-- The second machine is the first, but for containers that are new. -/
structure Machine.Untouched (m m' : Machine) : Prop where
  registers : m'.registers = m.registers
  frames : m'.frames = m.frames
  executed : m'.executed = m.executed
  store : m.store.Extends m'.store

/-- A register of the innermost iteration. -/
def Machine.Innermost (m : Machine) (k : Nat) : Prop :=
  ∃ f fs, m.frames = f :: fs ∧ (k = f.element ∨ k = f.result ∨ k = f.first ∨ k = f.second)

namespace Machine.Untouched

theorem refl (m : Machine) : m.Untouched m := ⟨rfl, rfl, rfl, .refl _ _⟩

theorem trans {m₁ m₂ m₃ : Machine} (h : m₁.Untouched m₂) (h' : m₂.Untouched m₃) :
    m₁.Untouched m₃ where
  registers := h'.registers.trans h.registers
  frames := h'.frames.trans h.frames
  executed := h'.executed.trans h.executed
  store := h.store.trans h'.store

theorem withStore {m : Machine} {store : Store} (h : m.store.Extends store) :
    m.Untouched { m with store } := ⟨rfl, rfl, rfl, h⟩

end Machine.Untouched

namespace Action

/-- An action does on a machine what a computation says: it succeeds with the same result, or meets
the same error and has touched nothing. It may access a register outside the scratchpad only if `P`
holds of it. -/
def Does {α β : Type} (P : Nat → Prop) (result : α → Machine → β) (m : Machine) (x : Action α)
    (y : Except Error β) : Prop :=
  match x m with
  | .ok a m' => y = .ok (result a m')
  | .error (.error e) m' => y = .error e ∧ m.Untouched m'
  | .error (.outside k) _ => P k ∧ m.registers.size ≤ k

namespace Does

variable {α β γ : Type} {P : Nat → Prop} {result : γ → Machine → β} {m : Machine}
  {y : Except Error β} {g : α → Action γ} {b : β} {k : Nat}

theorem pure {result : α → Machine → β} (a : α) :
    Does P result m (Pure.pure a) (.ok (result a m)) := rfl

theorem fail {result : α → Machine → β} (e : Error) :
    Does P result m (fail e) (.error e) := ⟨rfl, .refl m⟩

/-- An action that goes on as another does on a machine with more containers. -/
theorem of_run {result : α → Machine → β} {x x' : Action α} {m' : Machine}
    (hx : x m = x' m') (hm : m.Untouched m') (h : Does P result m' x' y) : Does P result m x y := by
  unfold Does at h ⊢
  rw [hx]
  cases hrun : x' m' with
  | ok a n =>
    rw [hrun] at h
    exact h
  | error fault n =>
    rw [hrun] at h
    cases fault with
    | error e => exact ⟨h.1, hm.trans h.2⟩
    | outside k => exact ⟨h.1, hm.registers ▸ h.2⟩

theorem readOk {look : Machine → Except Error α} {a : α}
    (hlook : look m = .ok a) (hnext : Does P result m (g a) y) :
    Does P result m (Action.read look >>= g) y := by
  refine of_run ?_ (.refl m) hnext
  simp only [bind, EStateM.bind, Action.read, hlook]

/-- Looking at the machine is a step of the computation. -/
theorem read {look : Machine → Except Error α} {h : α → Except Error β}
    (hnext : ∀ a, look m = .ok a → Does P result m (g a) (h a)) :
    Does P result m (Action.read look >>= g) (look m >>= h) := by
  cases hlook : look m with
  | error e =>
    refine of_run ?_ (.refl m) (fail e)
    simp only [bind, EStateM.bind, Action.read, hlook]
    rfl
  | ok a => exact readOk hlook (hnext a hlook)

theorem get {g : Machine → Action γ} (hnext : Does P result m (g m) y) :
    Does P result m (get >>= g) y := of_run rfl (.refl m) hnext

/-- An action that succeeds and leaves as many registers, where nothing can fail afterwards. -/
theorem touch {x : Action α} {a : α} {m' : Machine}
    (hx : x m = .ok a m') (hm : m'.registers.size = m.registers.size)
    (hnext : Does P result m' (g a) (.ok b)) : Does P result m (x >>= g) (.ok b) := by
  unfold Does at hnext ⊢
  simp only [bind, EStateM.bind, hx]
  cases hg : g a m' with
  | ok c n =>
    rw [hg] at hnext
    exact hnext
  | error fault n =>
    rw [hg] at hnext
    cases fault with
    | error e => exact absurd hnext.1 nofun
    | outside k => exact ⟨hnext.1, hm ▸ hnext.2⟩

/-- An action that succeeds unless it accesses a register outside the scratchpad. -/
theorem access {result : α → Machine → β} {x : Action α}
    (hk : k < m.registers.size ∨ P k) (hx : m.registers.size ≤ k → ∃ m',
      x m = .error (.outside k) m')
    (h : k < m.registers.size → Does P result m x y) : Does P result m x y := by
  by_cases hlt : k < m.registers.size
  · exact h hlt
  · obtain ⟨m', hx⟩ := hx (Nat.le_of_not_lt hlt)
    unfold Does
    rw [hx]
    exact ⟨hk.resolve_left hlt, Nat.le_of_not_lt hlt⟩

theorem fetch {g : Register → Action γ} (hk : k < m.registers.size ∨ P k)
    (hnext : k < m.registers.size → Does P result m (g (m.peek k)) y) :
    Does P result m (Action.fetch k >>= g) y := by
  refine access hk (fun hle => ⟨m, ?_⟩) fun hlt => of_run ?_ (.refl m) (hnext hlt)
  · simp only [bind, EStateM.bind, Action.fetch, Nat.not_lt.2 hle, if_false]
  · simp only [bind, EStateM.bind, Action.fetch, hlt, if_true]

theorem update {g : Unit → Action γ} {part : Register → Register}
    (hk : k < m.registers.size ∨ P k) (hnext : k < m.registers.size →
      Does P result (m.put k (part (m.peek k))) (g ()) (.ok b)) :
    Does P result m (Action.update k part >>= g) (.ok b) := by
  refine access hk (fun hle => ⟨m, ?_⟩) fun hlt => touch ?_ (by simp) (hnext hlt)
  · simp only [bind, EStateM.bind, Action.update, Nat.not_lt.2 hle, if_false]
  · simp only [Action.update, hlt, if_true]

/-- Writing a part of a register that exists at the end. -/
theorem updateLast {result : Unit → Machine → β} {part : Register → Register}
    (hk : k < m.registers.size) (hb : result () (m.put k (part (m.peek k))) = b) :
    Does P result m (Action.update k part) (.ok b) := by
  unfold Does Action.update
  simp only [hk, if_true, hb]

/-- A new container. -/
theorem newList {g : ListRef → Action γ} {items : Array Value}
    (hnext : Does P result { m with store := (m.store.newList items).2 }
      (g (m.store.newList items).1) y) :
    Does P result m (Action.newList items >>= g) y := by
  refine of_run ?_ (.withStore (m.store.extends_newList items)) hnext
  rfl

theorem newRecord {g : RecordRef → Action γ} {r : Record}
    (hnext : Does P result { m with store := (m.store.newRecord r).2 }
      (g (m.store.newRecord r).1) y) :
    Does P result m (Action.newRecord r >>= g) y := by
  refine of_run ?_ (.withStore (m.store.extends_newRecord r)) hnext
  rfl

theorem changeFrames {g : Unit → Action γ} {f : List Frame → List Frame}
    (hnext : Does P result (m.withFrames (f m.frames)) (g ()) (.ok b)) :
    Does P result m (Action.changeFrames f >>= g) (.ok b) := touch rfl rfl hnext

end Does

/-! ## Plain operations do as `Machine.apply` says -/

section Plain

variable {P : Nat → Prop} {m : Machine} {i : Instruction} {s : Setting}

theorem setRegister_does (r : UInt16) (c : Register) :
    Does P (fun _ m' => m') m (setRegister r c) (m.setRegister r c) := by
  refine .read fun slot hslot => ?_
  obtain ⟨hlt, rfl⟩ := Machine.slot_eq_ok.1 hslot
  refine .update (.inl hlt) fun _ => .updateLast (by simpa using hlt) ?_
  simp [Machine.peek_put_self hlt]

theorem write_does (v : Value) (t : TagSet) :
    Does P (fun _ m' => m') m (write i v t) (m.write i v t) := by
  refine .read fun slot hslot => ?_
  obtain ⟨hlt, rfl⟩ := Machine.slot_eq_ok.1 hslot
  refine .update (.inl hlt) fun _ => ?_
  cases i.tagMode with
  | propagate | clear =>
    refine .updateLast (by simpa using hlt) ?_
    simp [Machine.peek_put_self hlt, TagMode.apply]
  | keep => exact .pure ()

theorem mergeTags_does (dest source : UInt16) :
    Does P (fun _ m' => m') m (mergeTags dest source) (m.mergeTags dest source) := by
  refine .read fun added _ => .read fun slot hslot => ?_
  obtain ⟨hlt, rfl⟩ := Machine.slot_eq_ok.1 hslot
  exact .fetch (.inl hlt) fun _ => .updateLast hlt rfl

/-- A container may be changed before tags are merged, because both registers were read before and
so the tags can be merged. -/
theorem change_mergeTags_does {dest source : UInt16} {v w : Value} (hdest : m.value dest = .ok v)
    (hsource : m.value source = .ok w) (f : Store → Store) :
    Does P (fun _ m' => m') m (change f >>= fun _ => mergeTags dest source)
      ({ m with store := f m.store }.mergeTags dest source) := by
  have hdest' := Machine.lt_size_of_value hdest
  have hsource' := Machine.lt_size_of_value hsource
  obtain ⟨n, hn⟩ : ∃ n, { m with store := f m.store }.mergeTags dest source = .ok n := by
    have htags := Machine.tags_of_lt_size (m := { m with store := f m.store }) hsource'
    have hslot := (Machine.slot_eq_ok (m := { m with store := f m.store })).2 ⟨hdest', rfl⟩
    simp only [Machine.mergeTags, htags, hslot]
    exact ⟨_, rfl⟩
  have := mergeTags_does (P := P) (m := { m with store := f m.store }) dest source
  rw [hn] at this ⊢
  exact .touch rfl rfl this

theorem setFieldOf_does (key : String) :
    Does P (fun _ m' => m') m (setFieldOf i key) (m.setFieldOf i key) := by
  refine .read fun v hv => .read fun ref href => ?_
  obtain ⟨w, hw, -⟩ := bind_eq_ok.1 href
  exact change_mergeTags_does hw hv _

theorem loadField_does (s : Setting) :
    Does P (fun _ m' => m') m (plain s .loadField i) (m.loadField s i) := by
  unfold plain Machine.loadField
  cases s.packet.contract.inputs[i.op1.toNat]? with
  | none => exact .pure ()
  | some f =>
    dsimp only
    split
    · exact .pure ()
    · exact .read fun c _ => setRegister_does i.dest c

theorem setTags_does (s : Setting) :
    Does P (fun _ m' => m') m (plain s .setTags i) (m.setTags s i) := by
  refine .read fun c _ => ?_
  cases c with
  | integer n =>
    refine .read fun slot hslot => ?_
    obtain ⟨hlt, rfl⟩ := Machine.slot_eq_ok.1 hslot
    exact .updateLast hlt rfl
  | _ => exact .pure ()

/-- What comes after a call: the tags of the argument are read and the result is written. -/
theorem invoke_does {id : UInt16} {args : RecordRef}
    (hs : s.functions.Preserves) (hr : i.op2.toNat < m.registers.size) :
    Does P (fun _ m' => m') m
      (invoke s id args >>= fun v => read (·.tags i.op2) >>= fun tags => write i v tags)
      (s.functions.call id ⟨s.timestamp, m.executed⟩ args m.store >>= fun r =>
        { m with store := r.2 }.write i r.1 (m.peek i.op2.toNat).tags) := by
  cases hcall : s.functions.call id ⟨s.timestamp, m.executed⟩ args m.store with
  | error e =>
    refine .of_run ?_ (.refl m) (.fail e)
    simp only [bind, EStateM.bind, invoke, hcall]
    rfl
  | ok r =>
    have htags := Machine.tags_of_lt_size (m := { m with store := r.2 }) hr
    have hrest : Does P (fun _ m' => m') { m with store := r.2 }
        (read (·.tags i.op2) >>= fun tags => write i r.1 tags)
        ({ m with store := r.2 }.write i r.1 (m.peek i.op2.toNat).tags) :=
      .readOk htags (write_does r.1 _)
    refine .of_run ?_ (.withStore (hs _ _ _ _ _ _ hcall)) hrest
    simp only [bind, EStateM.bind, invoke, hcall]

theorem call_does (hs : s.functions.Preserves) :
    Does P (fun _ m' => m') m (plain s .call i) (m.apply s .call i) := by
  refine .read fun ref href => ?_
  obtain ⟨v, hv, -⟩ := bind_eq_ok.1 href
  have hr := Machine.lt_size_of_value hv
  rw [Machine.tags_of_lt_size hr]
  show Does P _ m _ (m.call s i ref (m.peek i.op2.toNat).tags)
  unfold Machine.call
  split
  · exact .readOk rfl (.readOk (Machine.tags_of_lt_size hr) (write_does ..))
  · exact invoke_does hs hr

theorem callValue_does (hs : s.functions.Preserves) :
    Does P (fun _ m' => m') m (plain s .callValue i) (m.callValue s i) := by
  refine .read fun arg harg => ?_
  have hr := Machine.lt_size_of_value harg
  rw [Machine.tags_of_lt_size hr]
  dsimp only [bind, Except.bind]
  split
  · exact .readOk (Machine.tags_of_lt_size hr) (write_does ..)
  · refine .of_run ?_ (.withStore (m.store.extends_newRecord (Record.empty.set "value" arg)))
      (invoke_does hs hr)
    rw [← Store.setField_newRecord]
    rfl

theorem newNamed_does :
    Does P (fun _ m' => m') m (plain s .newNamed i) (m.apply s .newNamed i) := by
  cases hkey : s.constantKey i.op1 with
  | error e => exact .newRecord (.read fun key hkey' => absurd (hkey.symm.trans hkey') nofun)
  | ok key =>
    cases hv : m.value i.op2 with
    | error e =>
      exact .newRecord (.read fun key _ => .read fun v hv' => absurd (hv.symm.trans hv') nofun)
    | ok v =>
      -- the record is complete before anything can fail
      have hr := Machine.lt_size_of_value hv
      have happly : m.apply s .newNamed i =
          m.writeRecord i (Record.empty.set key v) (m.peek i.op2.toNat).tags := by
        simp only [Machine.apply, hkey, hv, Machine.tags_of_lt_size hr]
        rfl
      rw [happly]
      refine .of_run ?_ (.withStore (m.store.extends_newRecord (Record.empty.set key v)))
        (write_does _ _)
      rw [← Store.setField_newRecord]
      have hv' : ({ m with store := (m.store.newRecord .empty).2 } : Machine).value i.op2 =
          .ok v := hv
      have htags := Machine.tags_of_lt_size (m := { m with
        store := (m.store.newRecord .empty).2.setField (m.store.newRecord .empty).1 key v }) hr
      simp only [plain, bind, EStateM.bind, newRecord, read, hkey, hv', change, htags]
      rfl

/-- Every plain operation does as `Machine.apply` says, without unchecked access. -/
theorem plain_does (hs : s.functions.Preserves) (op : Opcode) :
    Does P (fun _ m' => m') m (plain s op i) (m.apply s op i) := by
  cases op with
  | loadConstant => exact .read fun _ _ => write_does ..
  | loadField => exact loadField_does s
  | loadNothing => exact write_does ..
  | copy => exact .read fun _ _ => setRegister_does ..
  | arithmetic op =>
    exact .read fun _ _ => .read fun _ _ => .read fun _ _ => .read fun _ _ => write_does ..
  | negate | and | or | convert _ =>
    exact .read fun _ _ => .read fun _ _ => .read fun _ _ => write_does ..
  | compare _ | not | isKind _ | coalesce | checkTags =>
    exact .read fun _ _ => .read fun _ _ => write_does ..
  | newRecord => exact .newRecord (write_does ..)
  | setField | setNamed => exact .read fun _ _ => setFieldOf_does _
  | concat | getField | hasField | getNamed =>
    exact .read fun _ _ => .read fun _ _ => .readOk rfl (.read fun _ _ => write_does ..)
  | newList => exact .newList (write_does ..)
  | append =>
    refine .read fun v hv => .read fun ref href => ?_
    obtain ⟨w, hw, -⟩ := bind_eq_ok.1 href
    exact change_mergeTags_does hw hv _
  | getItem =>
    refine .read fun ref _ => .read fun v _ => ?_
    cases v with
    | integer n => exact .readOk rfl (.read fun _ _ => write_does ..)
    | _ => exact .fail _
  | listLength => exact .read fun _ _ => .readOk rfl (.read fun _ _ => write_does ..)
  | call => exact call_does hs
  | callValue => exact callValue_does hs
  | setTags => exact setTags_does s
  | newNamed => exact newNamed_does
  | jump | jumpIf | jumpIfNot | jumpUnless _ | jumpIfNothing | iterate | collect => exact .pure ()

end Plain

/-! ## Iterations do as the machine's -/

section Iterations

variable {P : Nat → Prop} {β γ : Type} {result : γ → Machine → β} {m : Machine} {f : Loop}
  {g : Unit → Action γ} {b : β}

/-- Writing a register in two parts. -/
theorem Does.putBoth {k : Nat} {v : Value} {t : TagSet} (hk : k < m.registers.size ∨ P k)
    (hnext : Does P result (m.put k ⟨v, t⟩) (g ()) (.ok b)) :
    Does P result m (Action.setValue k v >>= fun _ => Action.setTags k t >>= g) (.ok b) := by
  refine .update hk fun hlt => .update (.inl (by simpa using hlt)) fun _ => ?_
  simpa [Machine.peek_put_self hlt] using hnext

theorem seed_does {item : Value} (helement : f.element < m.registers.size ∨ P f.element)
    (hnext : Does P result (m.put f.element ⟨item, f.sourceTags⟩) (g ()) (.ok b)) :
    Does P result m (seed f item >>= g) (.ok b) := by
  simp only [seed, bind_assoc]
  exact .putBoth helement hnext

theorem finish_does {results : Action ListRef} {ref : ListRef} {n : Machine}
    (hresults : results m = .ok ref n) (hn : n.registers = m.registers)
    (hresult : f.result < m.registers.size ∨ P f.result)
    (hfirst : f.first < m.registers.size ∨ P f.first)
    (hnext : Does P result
      ((if f.mode = .fold then m else n).put f.result (m.delivered f ref)) (g ()) (.ok b)) :
    Does P result m (finish f results >>= g) (.ok b) := by
  unfold finish
  unfold Machine.delivered at hnext
  cases hmode : f.mode with
  | fold =>
    simp only [hmode] at hnext ⊢
    simp only [bind_assoc]
    refine .fetch hfirst fun hf => .update hresult fun hr => ?_
    refine .fetch (.inl (by simpa using hf)) fun _ =>
      .update (.inl (by simpa using hr)) fun _ => ?_
    -- the tags are read after the value is written, and it may be the same register
    have htags : ((m.put f.result { m.peek f.result with value := (m.peek f.first).value }).peek
        f.first).tags = (m.peek f.first).tags := by
      by_cases h : f.result = f.first
      · rw [h, Machine.peek_put_self hf]
      · rw [Machine.peek_put_of_ne h]
    rw [htags, Machine.peek_put_self hr, Machine.put_put]
    exact hnext
  | map | filter | mapFilter =>
    simp only [hmode] at hnext ⊢
    simp only [bind_assoc]
    exact .touch hresults (by rw [hn]) (.putBoth (by rwa [hn]) hnext)

theorem close_does {f : Frame} {results : Array Value}
    (hresult : f.result < m.registers.size ∨ P f.result)
    (hfirst : f.first < m.registers.size ∨ P f.first)
    (hnext : Does P result (m.close f results) (g ()) (.ok b)) :
    Does P result m (finish f.toLoop (newList results) >>= g) (.ok b) :=
  finish_does rfl rfl hresult hfirst (m.close_eq_put f results ▸ hnext)

theorem gather_does {push : Value → Action Unit} (hfirst : f.first < m.registers.size ∨ P f.first)
    (hsecond : f.second < m.registers.size ∨ P f.second)
    (hsome : ∀ v, m.yield f = some v → Does P result m (push v >>= g) (.ok b))
    (hnone : m.yield f = none → Does P result m (g ()) (.ok b)) :
    Does P result m (gather f push >>= g) (.ok b) := by
  unfold gather
  unfold Machine.yield at hsome hnone
  cases hmode : f.mode with
  | map =>
    simp only [bind_assoc]
    exact .fetch hfirst fun _ => hsome _ (by rw [hmode])
  | fold => exact hnone (by rw [hmode])
  | filter | mapFilter =>
    simp only [hmode] at hsome hnone
    simp only [bind_assoc]
    refine .fetch hfirst fun _ => ?_
    split
    · rename_i htrue
      simp only [bind_assoc]
      exact .fetch hsecond fun _ => hsome _ (if_pos htrue)
    · rename_i hfalse
      exact hnone (if_neg hfalse)

end Iterations

/-! ## Instructions do as `Machine.step` says -/

section Instructions

variable {s : Setting} {pc : Nat} {i : Instruction} {m : Machine} {n : Nat}

theorem iterate_does (s : Setting) (pc : Nat) (i : Instruction) (m : Machine) :
    Does m.Innermost Prod.mk m (iterate s pc i) (m.iterate s pc i) := by
  rw [Machine.iterate_eq]
  refine .read fun f hplan => ?_
  have hplanned := Machine.planned_of_plan hplan
  obtain ⟨_, _, _, -, -, -, -, -, helement, hresult, hfirst, -⟩ := hplanned.operands
  cases f.items[0]? with
  | none =>
    exact close_does (.inl (Machine.lt_size_of_slot hresult))
      (.inl (Machine.lt_size_of_slot hfirst)) (.pure _)
  | some item =>
    exact .read fun _ _ => seed_does (.inl (Machine.lt_size_of_slot helement))
      (.changeFrames (.pure _))

/-- The result of a run of the body is added to those of the innermost iteration. -/
theorem pushResult_does {P : Nat → Prop} {β γ : Type} {result : γ → Machine → β} {f : Frame}
    {fs : List Frame} {g : Unit → Action γ} {b : β} (hframes : m.frames = f :: fs)
    (hfirst : f.first < m.registers.size ∨ P f.first)
    (hsecond : f.second < m.registers.size ∨ P f.second)
    (hnext : Does P result (m.withFrames ({ f with results := m.gather f } :: fs)) (g ()) (.ok b)) :
    Does P result m (gather f.toLoop pushResult >>= g) (.ok b) := by
  rw [Machine.gather_eq_yield] at hnext
  refine gather_does hfirst hsecond (fun v hv => .changeFrames ?_) fun hnone => ?_
  · rw [hv] at hnext
    rw [hframes]
    exact hnext
  · rw [hnone, Option.elim_none, ← hframes] at hnext
    exact hnext

theorem collect_does (pc : Nat) (m : Machine) :
    Does m.Innermost Prod.mk m (collect pc) (m.collect pc) := by
  unfold Machine.collect
  refine .get ?_
  cases hframes : m.frames with
  | nil => exact .fail _
  | cons f fs =>
    have hinnermost : ∀ k, k = f.element ∨ k = f.result ∨ k = f.first ∨ k = f.second →
        k < m.registers.size ∨ m.Innermost k := fun k hk => .inr ⟨f, fs, hframes, hk⟩
    dsimp only
    split
    · exact .fail _
    · cases f.items[f.cursor + 1]? with
      | some item =>
        refine pushResult_does hframes (hinnermost _ (by simp)) (hinnermost _ (by simp)) ?_
        exact .changeFrames (seed_does (hinnermost _ (by simp)) (.pure _))
      | none =>
        refine pushResult_does hframes (hinnermost _ (by simp)) (hinnermost _ (by simp)) ?_
        refine .changeFrames (.get (.changeFrames ?_))
        exact close_does (hinnermost _ (by simp)) (hinnermost _ (by simp)) (.pure _)

/-- A plain operation goes on with the next instruction. -/
theorem plain_next_does (hs : s.functions.Preserves) (op : Opcode) :
    Does m.Innermost Prod.mk m (plain s op i >>= fun _ => pure (pc + 1))
      (m.apply s op i >>= fun m' => pure (pc + 1, m')) := by
  have h := plain_does (P := m.Innermost) (m := m) (i := i) hs op
  unfold Does at h ⊢
  simp only [bind, EStateM.bind]
  cases hrun : plain s op i m with
  | ok a n =>
    rw [hrun] at h
    rw [h]
    rfl
  | error fault n =>
    rw [hrun] at h
    cases fault with
    | error e =>
      rw [h.1]
      exact ⟨rfl, h.2⟩
    | outside k => exact h

theorem execute_does (hs : s.functions.Preserves) (op : Opcode) :
    Does m.Innermost Prod.mk m (execute s pc op i) (Machine.execute s pc op i m) := by
  cases op with
  | iterate => exact iterate_does s pc i m
  | collect => exact collect_does pc m
  | jump | jumpIf | jumpIfNot | jumpUnless _ | jumpIfNothing =>
    exact .get (.read fun _ _ => .pure _)
  | _ => exact .get (plain_next_does hs _)

/-- An instruction does as `Machine.step` says. If it meets an error it has touched nothing, and an
access outside the scratchpad is to a register of the innermost iteration. -/
theorem step_does (hs : s.functions.Preserves) (pc : Nat) (i : Instruction) (m : Machine) :
    Does m.Innermost Prod.mk m (step s pc i) (m.step s pc i) := by
  unfold step Machine.step
  cases Opcode.ofByte? i.opcode with
  | none => exact .fail _
  | some op => exact execute_does hs op

theorem runFrom_of_out (hfetch : s.packet.code[pc]? = none) :
    runFrom s (n + 1) pc m = if m.frames.isEmpty then .ok true m
      else .error (.error (.program (.openIterations m.frames.length))) m := by
  rw [runFrom, hfetch]
  show (if m.frames.isEmpty then pure true
    else fail (.program (.openIterations m.frames.length)) : Action Bool) m = _
  split <;> rfl

theorem runFrom_of_fetch (hfetch : s.packet.code[pc]? = some i) :
    runFrom s (n + 1) pc m =
      if m.tick.overBudget s.limits then .error (.error (.program .budgetExhausted)) m.tick
      else (step s pc i >>= runFrom s n) m.tick := by
  rw [runFrom, hfetch]
  show (if m.tick.overBudget s.limits then fail (.program .budgetExhausted)
    else step s pc i >>= runFrom s n : Action Bool) m.tick = _
  split <;> rfl

/-- A run in place that meets an error stops right after the last instruction that succeeded, and
leaves what that one left. -/
theorem runFrom_error (hs : s.functions.Preserves) {e : Error} {m' : Machine}
    (h : runFrom s n pc m = .error (.error e) m') :
    ∃ last m₁, Machine.Steps s pc m last m₁ ∧ (Machine.runFrom s 1 last m₁).1 = .failed e ∧
      m'.registers = m₁.registers ∧ m'.frames = m₁.frames ∧ m₁.store.Extends m'.store := by
  induction n generalizing pc m with
  | zero => cases h
  | succ n ih =>
    cases hfetch : s.packet.code[pc]? with
    | none =>
      rw [runFrom_of_out hfetch] at h
      split at h
      · cases h
      · rename_i hopen
        cases h
        refine ⟨pc, m', .refl pc m', ?_, rfl, rfl, .refl _ _⟩
        rw [Machine.runFrom_out hfetch, Machine.ending, if_neg hopen]
    | some i =>
      rw [runFrom_of_fetch hfetch] at h
      cases hbudget : m.tick.overBudget s.limits with
      | true =>
        rw [hbudget, if_pos rfl] at h
        cases h
        refine ⟨pc, m, .refl pc m, ?_, rfl, rfl, .refl _ _⟩
        rw [Machine.runFrom_spent hfetch hbudget]
      | false =>
        rw [hbudget, if_neg (by simp)] at h
        have hdoes := step_does hs pc i m.tick
        unfold Does at hdoes
        simp only [bind, EStateM.bind] at h
        cases hstep : step s pc i m.tick with
        | ok next m₂ =>
          rw [hstep] at h hdoes
          obtain ⟨last, m₁, hsteps, hrest⟩ := ih h
          exact ⟨last, m₁, .head ⟨hfetch, hbudget, hdoes⟩ hsteps, hrest⟩
        | error fault m₂ =>
          -- the run ends here, and what failed has touched nothing
          rw [hstep] at h hdoes
          cases h
          obtain ⟨hfail, huntouched⟩ := hdoes
          refine ⟨pc, m, .refl pc m, ?_, huntouched.registers, huntouched.frames,
            huntouched.store⟩
          rw [Machine.runFrom_fail hfetch hbudget hfail]

/-- An instruction that fails in place leaves all registers, all open iterations and every container
that existed as they were; it fails where `Machine.step` does, in the same way. So a run in place
that fails leaves what the last instruction that succeeded left. -/
theorem failure_touches_nothing (hfunctions : s.functions = .standard ∨ s.functions = .none)
    (pc : Nat) (m : Machine) :
    (∀ i next m', step s pc i m = .ok next m' → m.step s pc i = .ok (next, m')) ∧
    (∀ i e m', step s pc i m = .error (.error e) m' → m.step s pc i = .error e ∧ m.Untouched m') ∧
    (∀ i k m', step s pc i m = .error (.outside k) m' → m.Innermost k ∧ m.registers.size ≤ k) ∧
    ∀ n e m', runFrom s n pc m = .error (.error e) m' →
      ∃ last m₁, Machine.Steps s pc m last m₁ ∧ (Machine.runFrom s 1 last m₁).1 = .failed e ∧
        m'.registers = m₁.registers ∧ m'.frames = m₁.frames ∧ m₁.store.Extends m'.store := by
  have hs : s.functions.Preserves := by
    rcases hfunctions with h | h
    · rw [h]
      exact FunctionTable.preserves_standard
    · rw [h]
      exact FunctionTable.preserves_none
  refine ⟨?_, ?_, ?_, fun n e m' h => runFrom_error hs h⟩
  · intro i next m' h
    have hdoes := step_does hs pc i m
    rwa [Does, h] at hdoes
  · intro i e m' h
    have hdoes := step_does hs pc i m
    rwa [Does, h] at hdoes
  · intro i k m' h
    have hdoes := step_does hs pc i m
    rwa [Does, h] at hdoes

end Instructions

/-- A program that makes a list, makes a record for it, and then makes one for a register that does
not exist. -/
def recordAstray : Setting where
  packet := {
    contract := { size := 2 }
    constants := #[.string "items"]
    code := #[
      Opcode.newList.on 0 0 0 0,
      Opcode.newNamed.on 0 1 0 0,
      Opcode.newNamed.on 0 2 0 1] }
  functions := .standard
  timestamp := ""

/-- The last record is made, but nothing refers to it: registers and containers are those that the
second instruction left. -/
theorem recordAstray_touches_nothing :
    recordAstray.functions = .standard ∧
      ∃ m', runFrom recordAstray 5 0 (Machine.start recordAstray.packet {}) =
          .error (.error (.program (.registerOutside 2 2))) m' ∧
        m'.store.records.size = 2 ∧
        ∃ last m₁, Machine.Steps recordAstray 0 (Machine.start recordAstray.packet {}) last m₁ ∧
          (Machine.runFrom recordAstray 1 last m₁).1 = .failed (.program (.registerOutside 2 2)) ∧
          m'.registers = m₁.registers ∧ m'.frames = m₁.frames ∧ m₁.store.Extends m'.store :=
  ⟨rfl, _, rfl, rfl, (failure_touches_nothing (.inl rfl) 0 _).2.2.2 5 _ _ rfl⟩

end Action

end TagMachine
