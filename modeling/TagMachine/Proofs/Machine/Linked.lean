import TagMachine.Proofs.Machine.Growth

set_option autoImplicit false

/-! # Iterations that collect in the store

An open iteration of a `Machine` has what it collected at hand. An open iteration of a
`LinkedMachine` has a list of the store for it. The list is made when the iteration is opened, runs
of the body append to it, and at the end it is put in a register. `LinkedAction` executes
instructions on such a machine in place. Those that open, continue and end iterations access
registers without checking; all others do not see the iterations and are those of `Machine`.

The list of an iteration is in the same store as all others, so nothing but what instructions do
keeps it apart. It is fresh, an iteration does not show it before the end, and no instruction or
function gets hold of a container that nothing leads to (`Keeps.advance`). So up to the lists
themselves, instructions do to a linked machine what they do to the machine that has the contents
of these lists at hand (`Keeps.mirrors`).
-/

namespace TagMachine

/-- An open iteration, with the list for what it collects. -/
structure LinkedFrame extends Loop where
  results : ListRef

/-- A machine whose iterations collect in the store. -/
structure LinkedMachine where
  store : Store := {}
  registers : Array Register := #[]
  /-- The open iterations, innermost first. -/
  frames : List LinkedFrame := []
  executed : Nat := 0

/-- An action on such a machine that is changed in place. -/
abbrev LinkedAction := EStateM Fault LinkedMachine

/-- The iteration with the contents of its list at hand. -/
def LinkedFrame.unlink (f : LinkedFrame) (store : Store) : Frame :=
  { f.toLoop with results := store.items f.results }

namespace LinkedMachine

/-- The machine without iterations. -/
def bare (l : LinkedMachine) : Machine :=
  { store := l.store, registers := l.registers, executed := l.executed }

/-- The machine with its iterations and all else from another. -/
def withBare (l : LinkedMachine) (m : Machine) : LinkedMachine :=
  { l with store := m.store, registers := m.registers, executed := m.executed }

/-- The machine that has what its iterations collected at hand. -/
def shadow (l : LinkedMachine) : Machine := l.bare.withFrames (l.frames.map (·.unlink l.store))

def tick (l : LinkedMachine) : LinkedMachine := { l with executed := l.executed + 1 }

end LinkedMachine

/-! ## Instructions -/

namespace LinkedAction

/-- An action on registers and containers. -/
def lift {α : Type} (x : Action α) : LinkedAction α := fun l =>
  match x l.bare with
  | .ok a m => .ok a (l.withBare m)
  | .error fault m => .error fault (l.withBare m)

/-- Meets an error. -/
def fail {α : Type} (e : Error) : LinkedAction α := fun l => .error (.error e) l

def changeFrames (g : List LinkedFrame → List LinkedFrame) : LinkedAction Unit :=
  modify fun l => { l with frames := g l.frames }

/-- Opens an iteration and makes its list. An empty list ends it at once. -/
def iterate (s : Setting) (pc : Nat) (i : Instruction) : LinkedAction Nat := do
  let f ← lift (Action.read (·.plan s pc i))
  match f.items[0]? with
  | none =>
    lift (Action.finish f.toLoop (Action.newList #[]))
    return f.collectAt + 1
  | some item =>
    let depth := (← get).frames.length
    lift (Action.read fun _ => Machine.depthAllowed s.limits depth)
    lift (Action.seed f.toLoop item)
    let results ← lift (Action.newList #[])
    changeFrames ({ f.toLoop with results } :: ·)
    return f.bodyStart

/-- Ends a run of the body of the innermost iteration: appends its result to the list, and goes on
with the next element or puts the list in a register. -/
def collect (pc : Nat) : LinkedAction Nat := do
  match (← get).frames with
  | [] => fail (.program (.collectWithoutIteration pc))
  | f :: _ =>
    if f.collectAt ≠ pc then fail (.program (.collectMismatch pc f.collectAt))
    else
      lift (Action.gather f.toLoop fun v => Action.change (·.push f.results v))
      changeFrames (·.modifyHead fun f => { f with cursor := f.cursor + 1 })
      match f.items[f.cursor + 1]? with
      | some item =>
        lift (Action.seed f.toLoop item)
        return f.bodyStart
      | none =>
        match (← get).frames with
        | [] => return pc + 1
        | f :: frames =>
          changeFrames fun _ => frames
          lift (Action.finish f.toLoop (pure f.results))
          return pc + 1

/-- Executes an instruction that is not part of an iteration. -/
def proceed (s : Setting) (pc : Nat) (i : Instruction) : LinkedAction Nat := fun l =>
  match l.bare.step s pc i with
  | .ok (next, m) => .ok next (l.withBare m)
  | .error e => .error (.error e) l

/-- Executes the instruction at a place, and gives the next place. -/
def step (s : Setting) (pc : Nat) (i : Instruction) : LinkedAction Nat :=
  match Opcode.ofByte? i.opcode with
  | some .iterate => iterate s pc i
  | some .collect => collect pc
  | _ => proceed s pc i

/-- Runs from a place for at most `fuel` instructions, and tells whether the end was reached. -/
def runFrom (s : Setting) : Nat → Nat → LinkedAction Bool
  | 0, _ => pure false
  | fuel + 1, pc => do
    match s.packet.code[pc]? with
    | none =>
      let frames := (← get).frames
      if frames.isEmpty then return true
      else fail (.program (.openIterations frames.length))
    | some i =>
      modify LinkedMachine.tick
      if (← get).bare.overBudget s.limits then fail (.program .budgetExhausted)
      else
        let next ← step s pc i
        runFrom s fuel next

end LinkedAction

/-! ## What an instruction can do -/

namespace LinkedMachine

/-- The machine after the innermost iteration has collected the result of a run of its body. -/
def collected (l : LinkedMachine) (f : LinkedFrame) : LinkedMachine :=
  { l with store := (l.bare.yield f.toLoop).elim l.store (l.store.push f.results) }

/-- The machine with a planned iteration opened. -/
def enter (l : LinkedMachine) (f : Frame) (item : Value) : LinkedMachine :=
  { l.withBare (l.bare.seed f item) with
    store := (l.store.newList #[]).2
    frames := { f.toLoop with results := (l.store.newList #[]).1 } :: l.frames }

/-- The machine whose innermost iteration goes on. -/
def again (l : LinkedMachine) (f : LinkedFrame) (fs : List LinkedFrame) (item : Value) :
    LinkedMachine :=
  { l.collected f with
    registers := (l.bare.put f.element ⟨item, f.sourceTags⟩).registers
    frames := { f with cursor := f.cursor + 1 } :: fs }

/-- The machine whose innermost iteration has ended. -/
def leave (l : LinkedMachine) (f : LinkedFrame) (fs : List LinkedFrame) : LinkedMachine :=
  { l.collected f with
    registers := (l.bare.put f.result (l.bare.delivered f.toLoop f.results)).registers
    frames := fs }

/-- What an instruction that succeeds can do: the next place and the machine after it. -/
inductive Advance (s : Setting) (pc : Nat) (i : Instruction) (l : LinkedMachine) :
    Nat → LinkedMachine → Prop
  /-- The iterations stay as they are. -/
  | bare {next : Nat} {m : Machine} (h : Machine.Advance s pc i l.bare next m)
      (hnone : m.frames = []) : Advance s pc i l next (l.withBare m)
  | enter {f : Frame} {item : Value} (hop : Opcode.ofByte? i.opcode = some .iterate)
      (hplan : l.bare.plan s pc i = .ok f) (hitem : f.items[0]? = some item)
      (hdepth : Machine.depthAllowed s.limits l.frames.length = .ok ()) :
      Advance s pc i l f.bodyStart (l.enter f item)
  | again {f : LinkedFrame} {fs : List LinkedFrame} {item : Value}
      (hop : Opcode.ofByte? i.opcode = some .collect) (hframes : l.frames = f :: fs)
      (hpc : f.collectAt = pc) (hitem : f.items[f.cursor + 1]? = some item) :
      Advance s pc i l f.bodyStart (l.again f fs item)
  | leave {f : LinkedFrame} {fs : List LinkedFrame} (hop : Opcode.ofByte? i.opcode = some .collect)
      (hframes : l.frames = f :: fs) (hpc : f.collectAt = pc)
      (hitem : f.items[f.cursor + 1]? = none) : Advance s pc i l (pc + 1) (l.leave f fs)

/-- What a linked machine has to do with the program. -/
structure Fits (s : Setting) (l : LinkedMachine) : Prop where
  registers : l.registers.size = s.packet.contract.size.toNat
  frames : ∀ f ∈ l.frames, f.toLoop.Fits s
  depth : ∀ limit ∈ s.limits.depth, l.frames.length ≤ limit.toNat

end LinkedMachine

namespace LinkedAction

variable {s : Setting} {pc : Nat} {i : Instruction} {l : LinkedMachine}

theorem lift_of_does {x : Action Unit} {m : Machine}
    (h : Action.Does (fun _ => False) (fun _ m' => m') l.bare (x >>= pure) (.ok m)) :
    lift x l = .ok () (l.withBare m) := by
  rw [bind_pure] at h
  unfold Action.Does at h
  unfold lift
  cases hx : x l.bare with
  | ok a m' =>
    rw [hx] at h
    rw [Except.ok.inj h]
  | error fault m' =>
    rw [hx] at h
    cases fault with
    | error e => exact absurd h.1 nofun
    | outside k => exact h.1.elim

theorem lift_seed {f : Loop} (h : f.element < l.registers.size) (item : Value) :
    lift (Action.seed f item) l =
      .ok () (l.withBare (l.bare.put f.element ⟨item, f.sourceTags⟩)) :=
  lift_of_does (Action.seed_does (.inl h) (.pure ()))

theorem lift_gather {f : LinkedFrame} (hfirst : f.first < l.registers.size)
    (hsecond : f.second < l.registers.size) :
    lift (Action.gather f.toLoop fun v => Action.change (·.push f.results v)) l =
      .ok () (l.collected f) := by
  refine lift_of_does (m := (l.collected f).bare) ?_
  unfold LinkedMachine.collected
  refine Action.gather_does (.inl hfirst) (.inl hsecond) (fun v hv => ?_) fun hnone => ?_
  · rw [hv]
    exact .touch rfl rfl (.pure ())
  · rw [hnone]
    exact .pure ()

theorem lift_finish {f : LinkedFrame} (hresult : f.result < l.registers.size)
    (hfirst : f.first < l.registers.size) :
    lift (Action.finish f.toLoop (pure f.results)) l =
      .ok () (l.withBare (l.bare.put f.result (l.bare.delivered f.toLoop f.results))) := by
  refine lift_of_does (Action.finish_does rfl rfl (.inl hresult) (.inl hfirst) ?_)
  rw [ite_self]
  exact .pure ()

section Bind

variable {α β : Type} {x : LinkedAction α} {g : α → LinkedAction β}
  {look : Machine → Except Error α} {a : α} {e : Error} {l' : LinkedMachine}

theorem bind_of_ok (h : x l = .ok a l') : (x >>= g) l = g a l' := by
  simp only [bind, EStateM.bind, h]

theorem read_bind_of_ok (h : look l.bare = .ok a) : (lift (Action.read look) >>= g) l = g a l := by
  refine bind_of_ok ?_
  simp only [lift, Action.read, h]
  rfl

theorem read_bind_of_error (h : look l.bare = .error e) :
    (lift (Action.read look) >>= g) l = .error (.error e) l := by
  simp only [bind, EStateM.bind, lift, Action.read, h]
  rfl

end Bind

/-- Opening an iteration does not access a register without checking that it exists. -/
theorem iterate_cases (hop : Opcode.ofByte? i.opcode = some .iterate) :
    (∃ next l', iterate s pc i l = .ok next l' ∧ l.Advance s pc i next l') ∨
      ∃ e, iterate s pc i l = .error (.error e) l ∧ l.shadow.step s pc i = .error e := by
  rw [Machine.step_of_ofByte? hop, Machine.execute_iterate, Machine.iterate_eq,
    LinkedMachine.shadow, Machine.plan_withFrames]
  cases hplan : l.bare.plan s pc i with
  | error e => exact .inr ⟨e, read_bind_of_error hplan, rfl⟩
  | ok f =>
    obtain ⟨_, _, _, -, -, -, -, -, helement, hresult, hfirst, -⟩ :=
      (Machine.planned_of_plan hplan).operands
    cases hitem : f.items[0]? with
    | none =>
      refine .inl ⟨_, _, ?_, .bare (.skip hop hplan hitem) (Machine.close_frames ..)⟩
      refine (read_bind_of_ok hplan).trans ?_
      rw [hitem]
      exact bind_of_ok (lift_of_does (Action.close_does (.inl (Machine.lt_size_of_slot hresult))
        (.inl (Machine.lt_size_of_slot hfirst)) (.pure ())))
    | some item =>
      cases hdepth : Machine.depthAllowed s.limits l.frames.length with
      | error e =>
        refine .inr ⟨e, ?_, ?_⟩
        · refine (read_bind_of_ok hplan).trans ?_
          rw [hitem]
          exact read_bind_of_error hdepth
        · simp only [bind, Except.bind, hitem, Machine.withFrames_frames, List.length_map, hdepth]
      | ok u =>
        refine .inl ⟨_, _, ?_, .enter hop hplan hitem hdepth⟩
        refine (read_bind_of_ok hplan).trans ?_
        rw [hitem]
        refine (read_bind_of_ok (l := l) hdepth).trans ?_
        exact bind_of_ok (lift_seed (Machine.lt_size_of_slot helement) item)

section Collect

variable {f : LinkedFrame} {fs : List LinkedFrame}

variable (hframes : l.frames = f :: fs) (hpc : f.collectAt = pc)
  (hfirst : f.first < l.registers.size) (hsecond : f.second < l.registers.size)

include hframes hpc hfirst hsecond

theorem collect_again (helement : f.element < l.registers.size) {item : Value}
    (hitem : f.items[f.cursor + 1]? = some item) :
    collect pc l = .ok f.bodyStart (l.again f fs item) := by
  obtain ⟨store, registers, _, executed⟩ := l
  obtain rfl : _ = f :: fs := hframes
  refine (bind_of_ok rfl).trans ?_
  simp only [hpc, ne_eq, not_true_eq_false, if_false, hitem]
  refine (bind_of_ok (lift_gather hfirst hsecond)).trans ((bind_of_ok rfl).trans ?_)
  exact bind_of_ok (lift_seed (by exact helement) item)

theorem collect_leave (hresult : f.result < l.registers.size)
    (hitem : f.items[f.cursor + 1]? = none) : collect pc l = .ok (pc + 1) (l.leave f fs) := by
  obtain ⟨store, registers, _, executed⟩ := l
  obtain rfl : _ = f :: fs := hframes
  refine (bind_of_ok rfl).trans ?_
  simp only [hpc, ne_eq, not_true_eq_false, if_false, hitem]
  refine (bind_of_ok (lift_gather hfirst hsecond)).trans ((bind_of_ok rfl).trans ?_)
  refine (bind_of_ok rfl).trans ((bind_of_ok rfl).trans ?_)
  exact bind_of_ok (lift_finish (by exact hresult) (by exact hfirst))

end Collect

/-- Ending a run of the body accesses registers of the innermost iteration only. -/
theorem collect_cases (h : l.Fits s) (hop : Opcode.ofByte? i.opcode = some .collect) :
    (∃ next l', collect pc l = .ok next l' ∧ l.Advance s pc i next l') ∨
      ∃ e, collect pc l = .error (.error e) l ∧ l.shadow.step s pc i = .error e := by
  rw [Machine.step_of_ofByte? hop, Machine.execute_collect, Machine.collect,
    LinkedMachine.shadow, Machine.withFrames_frames]
  cases hframes : l.frames with
  | nil =>
    refine .inr ⟨_, (bind_of_ok rfl).trans ?_, rfl⟩
    rw [hframes]
    rfl
  | cons f fs =>
    obtain ⟨helement, hresult, hfirst, hsecond, -⟩ := h.frames f (hframes ▸ List.mem_cons_self ..)
    rw [← h.registers] at helement hresult hfirst hsecond
    by_cases hpc : f.collectAt = pc
    · cases hitem : f.items[f.cursor + 1]? with
      | some item =>
        exact .inl ⟨_, _, collect_again hframes hpc hfirst hsecond helement hitem,
          .again hop hframes hpc hitem⟩
      | none =>
        exact .inl ⟨_, _, collect_leave hframes hpc hfirst hsecond hresult hitem,
          .leave hop hframes hpc hitem⟩
    · refine .inr ⟨_, (bind_of_ok rfl).trans ?_, if_pos hpc⟩
      rw [hframes]
      simp only [hpc, ne_eq, not_false_eq_true, if_true]
      rfl

/-- An instruction does what `Advance` says, or meets the error that it meets on the shadow and
changes nothing. -/
theorem step_cases (h : l.Fits s) (pc : Nat) (i : Instruction) :
    (∃ next l', step s pc i l = .ok next l' ∧ l.Advance s pc i next l') ∨
      ∃ e, step s pc i l = .error (.error e) l ∧ l.shadow.step s pc i = .error e := by
  by_cases hiterate : Opcode.ofByte? i.opcode = some .iterate
  · rw [show step s pc i = iterate s pc i by simp only [step, hiterate]]
    exact iterate_cases hiterate
  by_cases hcollect : Opcode.ofByte? i.opcode = some .collect
  · rw [show step s pc i = collect pc by simp only [step, hcollect]]
    exact collect_cases h hcollect
  have hproceed : step s pc i = proceed s pc i := by
    unfold step
    split <;> trivial
  have hshadow (fs : List Frame) : (l.bare.withFrames fs).step s pc i = _ :=
    Machine.step_withFrames hiterate hcollect
  rw [hproceed, proceed, LinkedMachine.shadow, hshadow]
  cases hstep : l.bare.step s pc i with
  | error e => exact .inr ⟨e, rfl, rfl⟩
  | ok r =>
    refine .inl ⟨_, _, rfl, .bare (Machine.advance_of_step hstep) ?_⟩
    -- without iterations a step leaves none
    have hnone : l.bare.step s pc i = _ := hshadow []
    rw [hstep] at hnone
    exact congrArg (fun r => r.2.frames) (Except.ok.inj hnone)

end LinkedAction

/-! ## Fitting the program -/

namespace LinkedMachine

section Invariant

variable {s : Setting} {known : Value → Prop} {pc next : Nat} {i : Instruction}
  {l l' : LinkedMachine} {f : LinkedFrame} {fs : List LinkedFrame}

theorem Fits.advance (h : l.Fits s) (hadvance : l.Advance s pc i next l') : l'.Fits s := by
  cases hadvance with
  | bare hm _ => exact ⟨hm.size_registers.trans h.registers, h.frames, h.depth⟩
  | enter _ hplan hitem hdepth =>
    have hloop := Machine.loopFits_of_planned (Machine.planned_of_plan hplan) h.registers hitem
    refine ⟨(Machine.size_put ..).trans h.registers, List.forall_mem_cons.2 ⟨hloop, h.frames⟩, ?_⟩
    exact (Machine.depthAllowed_eq_ok_iff _ _).1 hdepth
  | again _ hframes _ hitem =>
    obtain ⟨hf, hfs⟩ := List.forall_mem_cons.1 (hframes ▸ h.frames)
    refine ⟨(Machine.size_put ..).trans h.registers, List.forall_mem_cons.2 ⟨?_, hfs⟩, ?_⟩
    · exact { hf with cursor := (Array.getElem?_eq_some_iff.1 hitem).1 }
    · exact (hframes ▸ h.depth :)
  | leave _ hframes _ _ =>
    obtain ⟨-, hfs⟩ := List.forall_mem_cons.1 (hframes ▸ h.frames)
    refine ⟨(Machine.size_put ..).trans h.registers, hfs, fun limit hlimit => ?_⟩
    have hdepth := h.depth limit hlimit
    rw [hframes] at hdepth
    exact Nat.le_of_succ_le hdepth

/-! ## Lists that nothing leads to -/

/-- Nothing that the machine or its user has leads to the list of an open iteration. -/
structure Keeps (s : Setting) (known : Value → Prop) (l : LinkedMachine) : Prop where
  fits : l.shadow.Fits s
  held : l.shadow.Held
  made : ∀ f ∈ l.frames, l.store.Has (.list f.results)
  distinct : (l.frames.map LinkedFrame.results).Nodup
  confined : ∀ f ∈ l.frames, l.shadow.Confined (· ≠ .list f.results)
  known : ∀ v, known v → l.store.Has v ∧ ∀ f ∈ l.frames, v ≠ .list f.results

/-- Collecting appends the value of a register to the list of the iteration, or does nothing. -/
theorem collected_cases (l : LinkedMachine) (f : LinkedFrame) :
    (l.collected f).store = l.store ∨
      ∃ k, (l.collected f).store = l.store.push f.results (l.shadow.peek k).value := by
  unfold collected Machine.yield
  cases f.mode with
  | map => exact .inr ⟨f.first, rfl⟩
  | fold => exact .inl rfl
  | filter | mapFilter =>
    dsimp only
    split
    · exact .inr ⟨f.second, rfl⟩
    · exact .inl rfl

theorem has_collected {v : Value} : (l.collected f).store.Has v ↔ l.store.Has v := by
  rcases l.collected_cases f with h | ⟨k, h⟩
  · rw [h]
  · rw [h, Store.has_push]

theorem closed_collected (h : l.shadow.Held) : (l.collected f).store.Closed := by
  rcases l.collected_cases f with heq | ⟨k, heq⟩
  · exact heq ▸ h.store
  · exact heq ▸ Store.closed_push h.store _ (h.registers k)

theorem sealed_collected {P : Value → Prop} (h : l.shadow.Confined P) :
    (l.collected f).store.Sealed P := by
  rcases l.collected_cases f with heq | ⟨k, heq⟩
  · exact heq ▸ h.store
  · exact heq ▸ h.store.push _ (h.registers k)

theorem items_collected_of_ne {a : ListRef} (ha : l.store.Has (.list a)) (hne : a ≠ f.results) :
    (l.collected f).store.items a = l.store.items a := by
  rcases l.collected_cases f with heq | ⟨k, heq⟩
  · rw [heq]
  · rw [heq]
    exact ((l.store.sameOn_push _ _).lists a ha fun h => hne (Value.list.inj h)).2

theorem items_collected (hmade : l.store.Has (.list f.results)) :
    (l.collected f).store.items f.results = l.shadow.gather (f.unlink l.store) := by
  rw [Machine.gather_eq_yield, show l.shadow.yield (f.unlink l.store).toLoop = l.bare.yield f.toLoop
    from rfl, collected]
  cases l.bare.yield f.toLoop with
  | none => rfl
  | some v => exact Store.items_push_self _ hmade v

theorem map_unlink_congr {st : Store} (h : ∀ f ∈ fs, st.items f.results = l.store.items f.results) :
    fs.map (·.unlink st) = fs.map (·.unlink l.store) :=
  List.map_congr_left fun f hf => by rw [LinkedFrame.unlink, h f hf, ← LinkedFrame.unlink]

theorem shadow_frames_cons (hframes : l.frames = f :: fs) :
    l.shadow.frames = f.unlink l.store :: fs.map (·.unlink l.store) := by
  rw [shadow, Machine.withFrames_frames, hframes, List.map_cons]

/-- A step that does not see the iterations leaves their lists as they are. -/
theorem Keeps.shadow_withBare (h : l.Keeps s known) (hs : s.functions.Builds) {m : Machine}
    (hm : Machine.Advance s pc i l.shadow next (m.withFrames l.shadow.frames)) :
    (l.withBare m).shadow = m.withFrames l.shadow.frames := by
  refine congrArg m.withFrames (map_unlink_congr fun f hf => ?_)
  refine ((h.held.prolongs hs hm).2.lists f.results (h.made f hf) fun x hstores => ?_).2
  obtain ⟨op, r, -, -, hdest, -⟩ := hstores
  exact (h.confined f hf).registers _ hdest

/-- A new list is not led to from anything that exists. -/
theorem confined_newList {m : Machine} (h : m.Held) :
    Machine.Confined (· ≠ .list (m.store.newList #[]).1)
      { m with store := (m.store.newList #[]).2 } := by
  have hne : ∀ v, m.store.Has v → v ≠ .list (m.store.newList #[]).1 := by
    rintro _ hv rfl
    exact absurd hv (by simp [Store.Has, Store.newList])
  refine ⟨⟨?_, ?_, ?_⟩, fun k => hne _ (h.registers k), fun f hf v hv => hne v (h.items f hf v hv),
    fun f hf v hv => hne v (h.results f hf v hv)⟩
  · rintro _ hv rfl
    cases hv
  · rintro _ hv rfl
    exact hv (m.store.has_newList_self _)
  · intro v w _ hw
    rcases Store.mem_children_newList hw with ⟨-, hw⟩ | ⟨-, hw⟩
    · exact hne w (h.store _ _ hw)
    · cases hw

/-! ### Opening an iteration -/

/-- The iteration that is opened has the elements of a list in a register. -/
theorem Keeps.shadow_enter (h : l.Keeps s known) {g : Frame} (hresults : g.results = #[])
    (item : Value) :
    (l.enter g item).shadow = { (l.shadow.seed g item).withFrames (g :: l.shadow.frames) with
      store := (l.store.newList #[]).2 } := by
  have hhead : LinkedFrame.unlink { g.toLoop with results := (l.store.newList #[]).1 }
      (l.store.newList #[]).2 = g := by
    rw [LinkedFrame.unlink, show (l.store.newList #[]).2.items (l.store.newList #[]).1 = #[] from
      l.store.items_newList_self #[], ← hresults]
  have htail : l.frames.map (·.unlink (l.store.newList #[]).2) = l.shadow.frames :=
    map_unlink_congr fun f hf => ((l.store.extends_newList #[]).lists _ (h.made f hf) trivial).2
  exact congrArg₂ (fun g gs => { l.shadow.seed g item with
    store := (l.store.newList #[]).2, frames := g :: gs }) hhead htail

theorem Keeps.enter (h : l.Keeps s known) (hs : s.functions.Builds) {g : Frame} {item : Value}
    (hop : Opcode.ofByte? i.opcode = some .iterate) (hplan : l.bare.plan s pc i = .ok g)
    (hitem : g.items[0]? = some item)
    (hdepth : Machine.depthAllowed s.limits l.frames.length = .ok ()) :
    (l.enter g item).Keeps s known := by
  have hm : Machine.Advance s pc i l.shadow g.bodyStart _ :=
    .enter hop hplan hitem (by simpa [shadow] using hdepth)
  have hheld := h.held.advance hs.safe hm
  have heq := h.shadow_enter (Machine.planned_of_plan hplan).results item
  have hext := l.store.extends_newList #[]
  have hfresh : ∀ v, l.store.Has v → v ≠ .list (l.store.newList #[]).1 := by
    rintro _ hv rfl
    exact absurd hv (by simp [Store.Has, Store.newList])
  refine ⟨?_, ?_, ?_, ?_, ?_, fun v hv => ⟨hext.has (h.known v hv).1, ?_⟩⟩
  · exact heq ▸ (h.fits.advance hm).of_frames rfl rfl
  · exact heq ▸ hheld.withStore (Store.closed_newList h.held.store (by simp)) fun v hv =>
      hext.has hv
  · exact List.forall_mem_cons.2 ⟨l.store.has_newList_self #[], fun f hf => hext.has (h.made f hf)⟩
  · refine List.nodup_cons.2 ⟨fun hmem => ?_, h.distinct⟩
    obtain ⟨f, hf, hnew⟩ := List.mem_map.1 hmem
    exact hfresh _ (h.made f hf) (congrArg Value.list hnew)
  · rw [heq]
    refine List.forall_mem_cons.2 ⟨confined_newList hheld, fun f hf => ?_⟩
    have hconfined := (h.confined f hf).advance h.held hs hm
    exact hconfined.withStore (hconfined.store.newList (by simp))
  · exact List.forall_mem_cons.2 ⟨hfresh v (h.known v hv).1, (h.known v hv).2⟩

/-! ### Collecting -/

section Collect

variable (h : l.Keeps s known) (hframes : l.frames = f :: fs)

include h hframes

theorem Keeps.made_cons : l.store.Has (.list f.results) ∧ ∀ g ∈ fs, l.store.Has (.list g.results) :=
  List.forall_mem_cons.1 (hframes ▸ h.made)

/-- The other iterations have other lists. -/
theorem Keeps.ne_of_mem {g : LinkedFrame} (hg : g ∈ fs) : g.results ≠ f.results := by
  have hdistinct := h.distinct
  rw [hframes, List.map_cons, List.nodup_cons] at hdistinct
  exact fun heq => hdistinct.1 (heq ▸ List.mem_map_of_mem hg)

theorem Keeps.map_unlink_collected :
    fs.map (·.unlink (l.collected f).store) = fs.map (·.unlink l.store) :=
  map_unlink_congr fun g hg =>
    items_collected_of_ne ((h.made_cons hframes).2 g hg) (h.ne_of_mem hframes hg)

theorem Keeps.shadow_again (item : Value) :
    (l.again f fs item).shadow =
      { (l.shadow.seed (f.unlink l.store) item).withFrames
          ({ f.unlink l.store with
              cursor := f.cursor + 1, results := l.shadow.gather (f.unlink l.store) } ::
            fs.map (·.unlink l.store)) with
        store := (l.collected f).store } := by
  refine congrArg₂ (fun xs gs => { l.shadow.seed (f.unlink l.store) item with
    store := (l.collected f).store, frames := ⟨{ f.toLoop with cursor := f.cursor + 1 },
      xs⟩ :: gs })
    (items_collected (h.made_cons hframes).1) (h.map_unlink_collected hframes)

theorem Keeps.shadow_leave :
    (l.leave f fs).shadow = Machine.put
      { l.shadow.withFrames (fs.map (·.unlink l.store)) with store := (l.collected f).store }
      f.result (l.bare.delivered f.toLoop f.results) :=
  congrArg (fun gs => Machine.put { l.shadow.withFrames gs with store := (l.collected f).store }
    f.result (l.bare.delivered f.toLoop f.results)) (h.map_unlink_collected hframes)

theorem Keeps.again (hs : s.functions.Builds) {item : Value}
    (hop : Opcode.ofByte? i.opcode = some .collect) (hpc : f.collectAt = pc)
    (hitem : f.items[f.cursor + 1]? = some item) : (l.again f fs item).Keeps s known := by
  have hshadow := shadow_frames_cons hframes
  have hm : Machine.Advance s pc i l.shadow f.bodyStart _ := .again hop hshadow hpc hitem
  have heq := h.shadow_again hframes item
  refine ⟨?_, ?_, ?_, ?_, ?_, fun v hv => ⟨has_collected.2 (h.known v hv).1, ?_⟩⟩
  · exact heq ▸ (h.fits.advance hm).of_frames rfl rfl
  · exact heq ▸ (h.held.advance hs.safe hm).withStore (closed_collected h.held)
      fun v hv => has_collected.2 hv
  · have hmade := h.made_cons hframes
    exact List.forall_mem_cons.2 ⟨has_collected.2 hmade.1,
      fun g hg => has_collected.2 (hmade.2 g hg)⟩
  · exact (hframes ▸ h.distinct :)
  · have hconfined := h.confined
    rw [hframes, List.forall_mem_cons] at hconfined
    rw [heq]
    refine List.forall_mem_cons.2 ⟨?_, fun g hg => ?_⟩
    · exact (hconfined.1.advance h.held hs hm).withStore (sealed_collected hconfined.1)
    · exact ((hconfined.2 g hg).advance h.held hs hm).withStore
        (sealed_collected (hconfined.2 g hg))
  · have hknown := (h.known v hv).2
    rw [hframes, List.forall_mem_cons] at hknown
    exact List.forall_mem_cons.2 hknown

theorem Keeps.leave : (l.leave f fs).Keeps s known := by
  have hshadow := shadow_frames_cons hframes
  have hmade := h.made_cons hframes
  have heq := h.shadow_leave hframes
  -- what is delivered is the value of a register, or the list that is no longer private
  have hvalue {P : Value → Prop} (hregisters : ∀ k, P (l.shadow.peek k).value)
      (hlist : P (.list f.results)) : P (l.bare.delivered f.toLoop f.results).value := by
    unfold Machine.delivered
    split
    · exact hregisters f.first
    · exact hlist
  refine ⟨?_, ?_, ?_, ?_, ?_, fun v hv => ⟨has_collected.2 (h.known v hv).1, ?_⟩⟩
  · have hput := (h.fits.leave hshadow).put f.result (l.bare.delivered f.toLoop f.results)
    exact heq ▸ hput.of_frames rfl rfl
  · have hpopped : (l.shadow.withFrames (fs.map (·.unlink l.store))).Held :=
      (h.held.carries.leave hshadow).held h.held.store
    refine heq ▸ (hpopped.withStore (closed_collected h.held) fun v hv =>
      has_collected.2 hv).put _ ?_
    exact has_collected.2 (hvalue h.held.registers hmade.1)
  · exact fun g hg => has_collected.2 (hmade.2 g hg)
  · have hdistinct := h.distinct
    rw [hframes, List.map_cons, List.nodup_cons] at hdistinct
    exact hdistinct.2
  · intro g hg
    have hconfined := h.confined g (hframes ▸ List.mem_cons_of_mem _ hg)
    have hpopped := (hconfined.carries.leave hshadow).confined hconfined.store
    refine heq ▸ (hpopped.withStore (sealed_collected hconfined)).put _ ?_
    exact hvalue (P := (· ≠ .list g.results)) hconfined.registers fun hlist =>
      h.ne_of_mem hframes hg (Value.list.inj hlist).symm
  · have hknown := (h.known v hv).2
    rw [hframes, List.forall_mem_cons] at hknown
    exact hknown.2

end Collect

theorem Keeps.advance (h : l.Keeps s known) (hs : s.functions.Builds)
    (hadvance : l.Advance s pc i next l') : l'.Keeps s known := by
  cases hadvance with
  | @bare _ m hm hnone =>
    have hm := hm.withFrames rfl hnone l.shadow.frames
    have heq := h.shadow_withBare hs hm
    refine ⟨heq ▸ h.fits.advance hm, heq ▸ h.held.advance hs.safe hm, ?_, h.distinct, ?_, ?_⟩
    · exact fun f hf => h.held.has_advance hs hm (h.made f hf)
    · exact fun f hf => heq ▸ (h.confined f hf).advance h.held hs hm
    · exact fun v hv => ⟨h.held.has_advance hs hm (h.known v hv).1, (h.known v hv).2⟩
  | enter hop hplan hitem hdepth => exact h.enter hs hop hplan hitem hdepth
  | again hop hframes hpc hitem => exact h.again hframes hs hop hpc hitem
  | leave _ hframes _ _ => exact h.leave hframes

/-! ## Linked machines and their shadows -/

/-- Of two machines that an instruction leaves, one of a linked machine and one of its shadow, all
is the same but for the lists of iterations: the one that is opened is only in the linked machine,
and the one that is delivered is another list with the same contents. -/
structure Mirrors (l : LinkedMachine) (m : Machine) (l' : LinkedMachine) : Prop where
  executed : m.executed = l'.executed
  frames : m.frames = l'.shadow.frames
  records : m.store.records = l'.store.records
  lists : ∀ a, m.store.Has (.list a) → l'.store.Has (.list a) →
    (∀ f ∈ l.frames, a ≠ f.results) → m.store.items a = l'.store.items a
  registers : ∀ k, m.peek k = l'.bare.peek k ∨
    (m.peek k).tags = (l'.bare.peek k).tags ∧ ∃ a b, (m.peek k).value = .list a ∧
      (l'.bare.peek k).value = .list b ∧ m.store.items a = l'.store.items b

theorem records_collected (l : LinkedMachine) (f : LinkedFrame) :
    (l.collected f).store.records = l.store.records := by
  rcases l.collected_cases f with h | ⟨k, h⟩ <;> rw [h]
  rfl

/-- Machines with the same registers that write one have the same still, or both what was
written. -/
theorem peek_put_both {m n : Machine} (h : m.registers = n.registers) (k : Nat) (c d : Register)
    (j : Nat) : (m.put k c).peek j = (n.put k d).peek j ∨
      (m.put k c).peek j = c ∧ (n.put k d).peek j = d := by
  by_cases hj : k = j ∧ k < m.registers.size
  · obtain ⟨rfl, hk⟩ := hj
    exact .inr ⟨Machine.peek_put_self hk c, Machine.peek_put_self (h ▸ hk) d⟩
  · left
    simp only [Machine.peek, Machine.put, h, Array.getD_eq_getD_getElem?]
    grind

theorem Keeps.mirrors_leave (h : l.Keeps s known) (hframes : l.frames = f :: fs) :
    l.Mirrors ((l.shadow.withFrames (fs.map (·.unlink l.store))).close (f.unlink l.store)
      (l.shadow.gather (f.unlink l.store))) (l.leave f fs) := by
  have hf : f ∈ l.frames := hframes ▸ List.mem_cons_self ..
  have hrest := (congrArg Machine.frames (h.shadow_leave hframes)).symm
  have hrecords := (records_collected l f).symm
  have hlists {a : ListRef} (ha : (l.leave f fs).store.Has (.list a))
      (hne : ∀ g ∈ l.frames, a ≠ g.results) : l.store.items a = (l.leave f fs).store.items a :=
    (items_collected_of_ne (has_collected.1 ha) (hne f hf)).symm
  have hboth (m : Machine) (hm : m.registers = l.bare.registers) (c : Register) (k : Nat) :
      (m.put f.result c).peek k = (l.leave f fs).bare.peek k ∨ (m.put f.result c).peek k = c ∧
        (l.leave f fs).bare.peek k = l.bare.delivered f.toLoop f.results :=
    peek_put_both hm f.result c (l.bare.delivered f.toLoop f.results) k
  rw [Machine.close_eq_put]
  by_cases hfold : (f.unlink l.store).mode = .fold
  · rw [if_pos hfold, Machine.delivered_of_fold hfold]
    refine ⟨rfl, hrest, hrecords, fun a _ ha => hlists ha, fun k => .inl ?_⟩
    rcases hboth (l.shadow.withFrames (fs.map (·.unlink l.store))) rfl _ k with heq | ⟨heq, heq'⟩
    · exact heq
    · exact heq.trans (heq'.trans (Machine.delivered_of_fold (f := f.toLoop) hfold _ _)).symm
  · rw [if_neg hfold, Machine.delivered_of_ne_fold hfold]
    refine ⟨rfl, hrest, hrecords, fun a _ ha hne => ?_, fun k => ?_⟩
    · exact ((l.store.extends_newList _).lists a (has_collected.1 ha) trivial).2.trans
        (hlists ha hne)
    · refine (hboth _ rfl _ k).imp_right fun ⟨heq, heq'⟩ => ?_
      have heq' := heq'.trans (Machine.delivered_of_ne_fold (f := f.toLoop) hfold _ _)
      refine ⟨(congrArg Register.tags heq).trans (congrArg Register.tags heq').symm, _, _,
        congrArg Register.value heq, congrArg Register.value heq', ?_⟩
      exact (l.store.items_newList_self _).trans (items_collected (h.made f hf)).symm

/-- An instruction does to a linked machine what it does to its shadow. -/
theorem Keeps.mirrors (h : l.Keeps s known) (hs : s.functions.Builds)
    (hadvance : l.Advance s pc i next l') :
    ∃ m, l.shadow.step s pc i = .ok (next, m) ∧ l.Mirrors m l' := by
  cases hadvance with
  | bare hm hnone =>
    have hm := hm.withFrames rfl hnone l.shadow.frames
    have heq := h.shadow_withBare hs hm
    exact ⟨_, Machine.step_of_advance hm, rfl, (congrArg Machine.frames heq).symm, rfl,
      fun _ _ _ _ => rfl, fun _ => .inl rfl⟩
  | @enter g item hop hplan hitem hdepth =>
    have hm : Machine.Advance s pc i l.shadow g.bodyStart _ :=
      .enter hop hplan hitem (by simpa [shadow] using hdepth)
    have heq := h.shadow_enter (Machine.planned_of_plan hplan).results item
    exact ⟨_, Machine.step_of_advance hm, rfl, (congrArg Machine.frames heq).symm, rfl,
      fun a ha _ _ => ((l.store.extends_newList #[]).lists a ha trivial).2.symm, fun _ => .inl rfl⟩
  | @again f fs item hop hframes hpc hitem =>
    have hm : Machine.Advance s pc i l.shadow f.bodyStart _ :=
      .again hop (shadow_frames_cons hframes) hpc hitem
    have heq := h.shadow_again hframes item
    exact ⟨_, Machine.step_of_advance hm, rfl, (congrArg Machine.frames heq).symm,
      (records_collected l f).symm, fun a ha _ hne => (items_collected_of_ne ha
        (hne f (hframes ▸ List.mem_cons_self ..))).symm, fun _ => .inl rfl⟩
  | leave hop hframes hpc hitem =>
    exact ⟨_, Machine.step_of_advance (.leave hop (shadow_frames_cons hframes) hpc hitem),
      h.mirrors_leave hframes⟩

/-! ## Machines in use -/

/-- The user changes containers that it knows and makes new ones. These hold what it knows, and new
ones. -/
structure Reworks (known : Value → Prop) (st st' : Store) : Prop where
  closed : st'.Closed
  keeps : ∀ v, st.Has v → st'.Has v
  unknown : st.SameOn (fun v => ¬known v) st'
  held : ∀ v w, w ∈ st'.children v → known v ∨ ¬st.Has v → known w ∨ ¬st.Has w

/-- What an action leaves, whether it succeeds or not. -/
def after {α : Type} : EStateM.Result Fault LinkedMachine α → LinkedMachine
  | .ok _ l => l
  | .error _ l => l

/-- The machines that come of using one for a program, and the values that the user knows. -/
inductive Session (s : Setting) : (Value → Prop) → LinkedMachine → Prop
  /-- A new machine. -/
  | start {store : Store} (hstore : store.Closed) :
      Session s store.Has (withBare {} (.start s.packet store))
  /-- The user looks at a register, or at what a container holds. -/
  | learn {known : Value → Prop} {l : LinkedMachine} {v : Value} (h : Session s known l)
      (hv : (∃ k, v = (l.bare.peek k).value) ∨ ∃ w, known w ∧ v ∈ l.store.children w) :
      Session s (fun w => known w ∨ w = v) l
  /-- The user changes containers, or makes new ones. -/
  | change {known : Value → Prop} {l : LinkedMachine} {store : Store} (h : Session s known l)
      (hstore : Reworks known l.store store) :
      Session s (fun v => known v ∨ ¬l.store.Has v ∧ store.Has v) { l with store }
  /-- The user sets a register. -/
  | setRegister {known : Value → Prop} {l : LinkedMachine} {m : Machine} {r : UInt16} {c : Register}
      (h : Session s known l) (hvalue : known c.value) (hset : l.bare.setRegister r c = .ok m) :
      Session s known (l.withBare m)
  /-- The user loads inputs, which may fail after some. -/
  | loadInputs {known : Value → Prop} {l : LinkedMachine} {input : Record} (h : Session s known l)
      (hinput : ∀ v ∈ input.values, known v) :
      Session s known (l.withBare (l.bare.loadInputs s.packet input).2)
  /-- The machine runs, and ends in whatever way or is observed after `k` rounds. -/
  | run {known : Value → Prop} {l : LinkedMachine} (h : Session s known l) (k : Nat) :
      Session s known (after (LinkedAction.runFrom s k 0 l))

theorem Fits.put (h : l.Fits s) (k : Nat) (c : Register) : (l.withBare (l.bare.put k c)).Fits s :=
  ⟨(Machine.size_put ..).trans h.registers, h.frames, h.depth⟩

theorem Keeps.put (h : l.Keeps s known) (k : Nat) {c : Register} (hhas : l.store.Has c.value)
    (hc : ∀ f ∈ l.frames, c.value ≠ .list f.results) :
    (l.withBare (l.bare.put k c)).Keeps s known where
  fits := h.fits.put k c
  held := h.held.put k hhas
  made := h.made
  distinct := h.distinct
  confined f hf := (h.confined f hf).put k (hc f hf)
  known := h.known

theorem Keeps.learn (h : l.Keeps s known) {v : Value}
    (hv : (∃ k, v = (l.bare.peek k).value) ∨ ∃ w, known w ∧ v ∈ l.store.children w) :
    l.Keeps s fun w => known w ∨ w = v := by
  refine { h with known := ?_ }
  rintro w (hw | rfl)
  · exact h.known w hw
  · rcases hv with ⟨k, rfl⟩ | ⟨u, hu, hmem⟩
    · exact ⟨h.held.registers k, fun f hf => (h.confined f hf).registers k⟩
    · exact ⟨h.held.store u w hmem,
        fun f hf => (h.confined f hf).store.children ((h.known u hu).2 f hf) hmem⟩

theorem Keeps.rework (h : l.Keeps s known) {st : Store} (hst : Reworks known l.store st) :
    Keeps s (fun v => known v ∨ ¬l.store.Has v ∧ st.Has v) { l with store := st } := by
  have hunknown : ∀ f ∈ l.frames, ¬known (.list f.results) :=
    fun f hf hknown => (h.known _ hknown).2 f hf rfl
  have heq : shadow { l with store := st } = { l.shadow with store := st } :=
    congrArg (fun gs => { l.shadow with store := st, frames := gs }) (map_unlink_congr fun f hf =>
      (hst.unknown.lists f.results (h.made f hf) (hunknown f hf)).2)
  refine ⟨?_, ?_, fun f hf => hst.keeps _ (h.made f hf), h.distinct, fun f hf => ?_, ?_⟩
  · exact heq ▸ h.fits.of_frames rfl rfl
  · exact heq ▸ h.held.withStore hst.closed hst.keeps
  · have hconfined := h.confined f hf
    refine heq ▸ hconfined.withStore ⟨hconfined.store.scalar, fun hv => ?_, fun {v w} hv hw => ?_⟩
    · exact hconfined.store.fresh fun hhas => hv (hst.keeps _ hhas)
    · by_cases hmine : known v ∨ ¬l.store.Has v
      · rcases hst.held v w hw hmine with hknown | hnew
        · exact (h.known w hknown).2 f hf
        · exact hconfined.store.fresh hnew
      · rw [not_or, not_not] at hmine
        rw [hst.unknown.children hmine.2 hmine.1] at hw
        exact hconfined.store.children hv hw
  · rintro v (hv | ⟨hnew, hv⟩)
    · exact ⟨hst.keeps v (h.known v hv).1, (h.known v hv).2⟩
    · refine ⟨hv, ?_⟩
      rintro f hf rfl
      exact hnew (h.made f hf)

theorem Keeps.loadInputs (h : l.Keeps s known) {input : Record}
    (hinput : ∀ v ∈ input.values, known v) :
    (l.withBare (l.bare.loadInputs s.packet input).2).Keeps s known := by
  refine Machine.loadFields_keeps (P := fun m => (l.withBare m).Keeps s known)
    (fun k name tags hm => ?_) _ h
  rcases input.get_mem_values name with hmem | hnothing
  · have hknown := hm.known _ (hinput _ hmem)
    exact hm.put k hknown.1 hknown.2
  · refine hm.put k ?_ fun f _ => ?_
    · rw [hnothing]
      trivial
    · rw [hnothing]
      exact nofun

/-- What counting and executing instructions keeps, a run keeps. -/
theorem runFrom_keeps {P : LinkedMachine → Prop} (hfits : ∀ l, P l → l.Fits s)
    (htick : ∀ l, P l → P l.tick)
    (hstep : ∀ {pc i l next l'}, P l → l.Advance s pc i next l' → P l') (n pc : Nat) (h : P l) :
    P (after (LinkedAction.runFrom s n pc l)) := by
  induction n generalizing pc l with
  | zero => exact h
  | succ n ih =>
    unfold LinkedAction.runFrom
    cases s.packet.code[pc]? with
    | none =>
      show P (after ((if l.frames.isEmpty then pure true
        else LinkedAction.fail _ : LinkedAction Bool) l))
      split <;> exact h
    | some i =>
      show P (after ((if l.tick.bare.overBudget s.limits then LinkedAction.fail _
        else LinkedAction.step s pc i >>= LinkedAction.runFrom s n : LinkedAction Bool) l.tick))
      split
      · exact htick l h
      · rcases LinkedAction.step_cases (hfits _ (htick l h)) pc i with
          ⟨next, l', hstep', hadvance⟩ | ⟨e, hstep', -⟩
        · rw [LinkedAction.bind_of_ok hstep']
          exact ih next (hstep (htick l h) hadvance)
        · simp only [bind, EStateM.bind, hstep']
          exact htick l h

theorem Session.fits (h : Session s known l) : l.Fits s := by
  induction h with
  | start => exact ⟨by simp [withBare, Machine.start], nofun, fun _ _ => Nat.zero_le _⟩
  | learn _ _ ih => exact ih
  | change _ _ ih => exact ⟨ih.registers, ih.frames, ih.depth⟩
  | setRegister _ _ hset ih =>
    obtain ⟨-, rfl⟩ := Machine.setRegister_eq_ok hset
    exact ih.put _ _
  | @loadInputs _ l input _ _ ih =>
    exact Machine.loadFields_keeps (P := fun m => (l.withBare m).Fits s)
      (fun k name tags hm => hm.put k ⟨input.get name, tags⟩) _ ih
  | run _ k ih =>
    exact runFrom_keeps (fun _ h => h) (fun _ h => ⟨h.registers, h.frames, h.depth⟩)
      (fun h hadvance => h.advance hadvance) k 0 ih

theorem Session.keeps (h : Session s known l) (hs : s.functions.Builds) : l.Keeps s known := by
  induction h with
  | @start store hstore =>
    have hheld := Machine.held_start (s := s) hstore
    refine ⟨?_, hheld, nofun, .nil, nofun, fun v hv => ⟨hv, nofun⟩⟩
    exact ⟨by simp [shadow, withBare, bare, Machine.start], nofun, fun _ _ => Nat.zero_le _⟩
  | learn _ hv ih => exact ih.learn hv
  | change _ hstore ih => exact ih.rework hstore
  | setRegister _ hvalue hset ih =>
    obtain ⟨-, rfl⟩ := Machine.setRegister_eq_ok hset
    exact ih.put _ (ih.known _ hvalue).1 (ih.known _ hvalue).2
  | loadInputs _ hinput ih => exact ih.loadInputs hinput
  | run h k ih =>
    refine (runFrom_keeps (P := fun l => l.Fits s ∧ l.Keeps s _) (fun _ h => h.1) (fun l h => ?_)
      (fun h hadvance => ⟨h.1.advance hadvance, h.2.advance hs hadvance⟩) k 0 ⟨h.fits, ih⟩).2
    obtain ⟨⟨hsize, hframes, hdepth⟩, hkeeps⟩ := h
    exact ⟨⟨hsize, hframes, hdepth⟩, { hkeeps with
      fits := hkeeps.fits.of_frames rfl rfl
      held := hkeeps.held.tick
      confined := fun f hf => (hkeeps.confined f hf).tick }⟩

/-- What an open iteration has collected is in a list that is reached from nowhere: not from a
register, not from another container, neither from the elements nor from the list of an iteration,
and not from what the user knows. -/
structure ResultsPrivate (known : Value → Prop) (l : LinkedMachine) : Prop where
  made : ∀ f ∈ l.frames, l.store.Has (.list f.results)
  size : ∀ f ∈ l.frames, f.mode.Collects f.cursor (l.store.items f.results).size
  register : ∀ f ∈ l.frames, ∀ k, ¬l.store.Reaches (l.bare.peek k).value (.list f.results)
  container : ∀ f ∈ l.frames, ∀ v ∈ l.store.containers, v ≠ .list f.results →
    ¬l.store.Reaches v (.list f.results)
  element : ∀ f ∈ l.frames, ∀ g ∈ l.frames, ∀ v ∈ g.items.toList,
    ¬l.store.Reaches v (.list f.results)
  result : l.frames.Pairwise fun f g => ¬l.store.Reaches (.list f.results) (.list g.results) ∧
    ¬l.store.Reaches (.list g.results) (.list f.results)
  user : ∀ f ∈ l.frames, ∀ v, known v → ¬l.store.Reaches v (.list f.results)

theorem Keeps.resultsPrivate (h : l.Keeps s known) : l.ResultsPrivate known := by
  have hnot (f) (hf : f ∈ l.frames) {v : Value} (hv : v ≠ .list f.results) :
      ¬l.store.Reaches v (.list f.results) :=
    fun hr => (h.confined f hf).store.reaches hr hv rfl
  have hshadow (f) (hf : f ∈ l.frames) : f.unlink l.store ∈ l.shadow.frames :=
    List.mem_map_of_mem hf
  refine ⟨h.made, fun f hf => (h.fits.frames _ (hshadow f hf)).results,
    fun f hf k => hnot f hf ((h.confined f hf).registers k), fun f hf v _ hv => hnot f hf hv,
    fun f hf g hg v hv => hnot f hf ((h.confined f hf).items _ (hshadow g hg) v hv), ?_,
    fun f hf v hv => hnot f hf ((h.known v hv).2 f hf)⟩
  refine (List.pairwise_map.1 h.distinct).imp_of_mem fun {f g} hf hg hne => ⟨?_, ?_⟩
  · exact hnot g hg fun heq => hne (Value.list.inj heq)
  · exact hnot f hf fun heq => hne (Value.list.inj heq).symm

/-- However a linked machine has been used, it fits its program, and no access to the registers of
an iteration is out of range. With functions that get hold of nothing but their arguments, what its
iterations have collected is private, and an instruction does to it what it does to the machine that
has the contents of these lists at hand. -/
theorem session_invariant (h : Session s known l) :
    l.Fits s ∧ (∀ pc i k l', LinkedAction.step s pc i l ≠ .error (.outside k) l') ∧
      (s.functions.Builds → l.ResultsPrivate known ∧
        (∀ pc i next l', LinkedAction.step s pc i l = .ok next l' →
          ∃ m, l.shadow.step s pc i = .ok (next, m) ∧ l.Mirrors m l') ∧
        ∀ pc i e l', LinkedAction.step s pc i l = .error (.error e) l' →
          l.shadow.step s pc i = .error e ∧ l' = l) := by
  have hfits := h.fits
  refine ⟨hfits, fun pc i k l' houtside => ?_, fun hs => ?_⟩
  · rcases LinkedAction.step_cases hfits pc i with ⟨_, _, hstep, -⟩ | ⟨_, hstep, -⟩
    · cases hstep.symm.trans houtside
    · cases hstep.symm.trans houtside
  · have hkeeps := h.keeps hs
    refine ⟨hkeeps.resultsPrivate, fun pc i next l' hok => ?_, fun pc i e l' herror => ?_⟩
    · rcases LinkedAction.step_cases hfits pc i with ⟨_, _, hstep, hadvance⟩ | ⟨_, hstep, -⟩
      · cases hstep.symm.trans hok
        exact hkeeps.mirrors hs hadvance
      · cases hstep.symm.trans hok
    · rcases LinkedAction.step_cases hfits pc i with ⟨_, _, hstep, -⟩ | ⟨_, hstep, hshadow⟩
      · cases hstep.symm.trans herror
      · cases hstep.symm.trans herror
        exact ⟨hshadow, rfl⟩

end Invariant

/-- Two failed runs leave two iterations open, each with the result of its first element in its
list. -/
theorem failingLoop_invariant :
    ∃ known l, Session Machine.failingLoop known l ∧
      l.frames.map (fun f => (f.cursor, f.results, (l.store.items f.results).size)) =
        [(1, ⟨3⟩, 1), (1, ⟨1⟩, 1)] ∧
      l.Fits Machine.failingLoop ∧ Machine.failingLoop.functions.Builds ∧
      l.ResultsPrivate known ∧ ∀ pc i k l',
        LinkedAction.step Machine.failingLoop pc i l ≠ .error (.outside k) l' := by
  have h : Session Machine.failingLoop _ (after (LinkedAction.runFrom Machine.failingLoop 20 0
      (after (LinkedAction.runFrom Machine.failingLoop 20 0
        (withBare {} (.start Machine.failingLoop.packet {})))))) :=
    .run (.run (.start Store.closed_empty) 20) 20
  obtain ⟨hfits, houtside, hkeeps⟩ := session_invariant h
  have hs : Machine.failingLoop.functions.Builds := FunctionTable.builds_standard
  refine ⟨_, _, h, ?_, hfits, hs, (hkeeps hs).1, houtside⟩
  decide +kernel

end LinkedMachine

end TagMachine
