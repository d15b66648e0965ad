import TagMachine.Proofs.Machine.Moves
import TagMachine.Proofs.Machine.Session

set_option autoImplicit false

/-! # Iterations are carried through

Nothing keeps the jumps of a program from leaving the body of an iteration, from entering one, or
from reaching the `collect` of another. Still no iteration is abandoned in a run that finishes
(`Machine.iterations_completed`): a `collect` is only executed for the innermost iteration, and a
run does not finish while one is open. So the moves of the run fall into the passes of each
iteration, as many as the list had elements when the iteration was opened, and whatever is opened
inside a pass is closed inside it.
-/

namespace TagMachine

/-- Two frames are of one iteration: they differ at most in how far it has come. -/
def Frame.SameIteration (f g : Frame) : Prop :=
  g = { f with cursor := g.cursor, results := g.results }

namespace Frame.SameIteration

variable {f g h : Frame}

theorem refl (f : Frame) : f.SameIteration f := rfl

/-- An iteration that comes further is the same. -/
theorem further (f : Frame) (cursor : Nat) (results : Array Value) :
    f.SameIteration { f with cursor, results } := rfl

theorem trans (hfg : f.SameIteration g) (hgh : g.SameIteration h) : f.SameIteration h := by
  unfold SameIteration at *
  rw [hgh, hfg]

end Frame.SameIteration

/-- What an open iteration keeps: its registers are in a scratchpad of some size, it is at an
element, and it has collected what is due. -/
structure Frame.Sound (f : Frame) (size : Nat) : Prop where
  element : f.element < size
  result : f.result < size
  cursor : f.cursor < f.items.size
  results : f.mode.Collects f.cursor f.results.size

namespace Move

/-- The elements of the list that an instruction iterates, as they are when it is executed. -/
def snapshot (e : Move) : Array Value :=
  match (e.before.peek e.instruction.op1.toNat).value with
  | .list a => e.before.store.items a
  | _ => #[]

/-- What a move can do to the open iterations. Only the innermost one is ever touched. -/
inductive StackChange (e : Move) : Prop
  /-- They stay. If the instruction opens an iteration, there is nothing to iterate. -/
  | keeps (hempty : e.executes .iterate = true → e.snapshot = #[])
      (hcollect : e.executes .collect = false) (hafter : e.after.frames = e.before.frames)
  /-- One is opened on top of them, with the elements of the list. -/
  | pushes {f : Frame} (hiterate : e.executes .iterate =
    true) (hcollect : e.executes .collect = false)
      (hitems : f.items = e.snapshot) (hcursor : f.cursor = 0) (hmore : 0 < f.items.size)
      (hafter : e.after.frames = f :: e.before.frames)
  /-- The innermost one goes on with its next element. -/
  | advances {f g : Frame} {fs : List Frame} (hcollect : e.executes .collect = true)
      (hplace : e.place = f.collectAt) (hbefore : e.before.frames = f :: fs)
      (hsame : f.SameIteration g) (hcursor : g.cursor = f.cursor + 1)
      (hmore : g.cursor < g.items.size) (hafter : e.after.frames = g :: fs)
  /-- The innermost one is closed, after its last element. -/
  | pops {f : Frame} {fs : List Frame} (hcollect : e.executes .collect = true)
      (hplace : e.place = f.collectAt) (hbefore : e.before.frames = f :: fs)
      (hlast : f.items.size ≤ f.cursor + 1) (hafter : e.after.frames = fs)

end Move

/-- A run of the body of an iteration. -/
structure Pass where
  /-- What is executed in the body. -/
  body : List Move
  /-- The `collect` that ends it. -/
  collect : Move

namespace Pass

def moves (p : Pass) : List Move := p.body ++ [p.collect]

/-- A pass belongs to an iteration that is open on top of others. -/
structure Of (f : Frame) (fs : List Frame) (p : Pass) : Prop where
  /-- The pass ends with the instruction that collects for the iteration. -/
  collects : p.collect.executes .collect = true ∧ p.collect.place = f.collectAt
  /-- During the body the iteration stays where it is, and it is innermost again at the end. -/
  stays : ∃ g, f.SameIteration g ∧ p.collect.before.frames = g :: fs ∧
    ∀ e ∈ p.body, (g :: fs) <:+ e.before.frames ∧ (g :: fs) <:+ e.after.frames
  /-- What is collected in the body is collected for an iteration that was opened inside. -/
  inner : ∀ e ∈ p.body, e.executes .collect = true → fs.length + 1 < e.before.frames.length

theorem Of.of_sameIteration {f g : Frame} {fs : List Frame} {p : Pass}
    (hfg : f.SameIteration g) (h : p.Of g fs) : p.Of f fs where
  collects := by
    have hplace : g.collectAt = f.collectAt := by rw [hfg]
    exact ⟨h.collects.1, h.collects.2.trans hplace⟩
  stays := by
    obtain ⟨x, hx, htop, hbody⟩ := h.stays
    exact ⟨x, hfg.trans hx, htop, hbody⟩
  inner := h.inner

end Pass

namespace Machine

variable {f : Frame} {fs : List Frame}

/-- A move opens an iteration that is carried through in the given passes. -/
structure Completes (s : Setting) (e : Move) (f : Frame) (passes : List Pass) : Prop where
  /-- The iteration is the one that the instruction asks for. -/
  planned : e.executes .iterate = true ∧ Planned s e.place e.instruction e.before f
  /-- It is over the elements that the list has when the iteration is opened. -/
  snapshot : f.items = e.snapshot
  /-- There is a pass for each element. -/
  count : passes.length = f.items.size
  each : ∀ p ∈ passes, p.Of f e.before.frames
  /-- The elements are put in the register of the iteration in turn, each once: the first when the
  iteration is opened and the others at the end of each pass but the last. -/
  seeds : (e :: passes.dropLast.map Pass.collect).map (fun x => x.after.peek f.element) =
    f.items.toList.map fun v => ⟨v, f.sourceTags⟩
  /-- The last pass closes the iteration. What was mapped has a result for each element. -/
  closes : ∃ p ∈ passes.getLast?, p.collect.after.frames = e.before.frames ∧
    (f.mode = .map → ∃ a, p.collect.after.peek f.result = ⟨.list a, f.sourceTags⟩ ∧
      (p.collect.after.store.items a).size = f.items.size)

/-- The number of times that an element is collected. -/
def collectCount (trace : List Move) : Nat := trace.countP (·.executes .collect)

/-- The number of elements of the lists that are to be iterated, each as it is then. -/
def snapshotCount (trace : List Move) : Nat :=
  ((trace.filter (·.executes .iterate)).map fun e => e.snapshot.size).sum

/-- No iteration is abandoned among the moves of a run. -/
structure IterationsCompleted (s : Setting) (trace : List Move) : Prop where
  /-- Iterations are opened and closed as on a stack. -/
  stack : ∀ e ∈ trace, e.StackChange
  /-- Every iteration that is opened is carried through. -/
  completes : ∀ earlier e later f, trace = earlier ++ e :: later →
    e.after.frames = f :: e.before.frames →
    ∃ passes rest, later = passes.flatMap Pass.moves ++ rest ∧ Completes s e f passes
  /-- As many elements are collected as there were in the lists to iterate. -/
  total : collectCount trace = snapshotCount trace

variable {s : Setting} {pc next k : Nat} {i : Instruction} {m n : Machine}

/-! ## What a move does to the stack -/

/-- The frame of a planned iteration has the elements of the list. -/
theorem Planned.items_eq_snapshot {e : Move}
    (h : Planned s e.place e.instruction e.before f) : f.items = e.snapshot := by
  obtain ⟨source, ref, -, hsource, href, -, hitems, -⟩ := h.operands
  rw [register_eq_ok hsource] at href
  rw [Move.snapshot, href, hitems]

theorem stackChange_of_advance (h : Advance s pc i m next n) : Move.StackChange ⟨pc, i, m, n⟩ := by
  -- the opcode tells which of the two ends of an iteration the instruction is, if any
  have hop {op op' : Opcode} (h : Opcode.ofByte? i.opcode = some op) (hne : op ≠ op') :
      Move.executes ⟨pc, i, m, n⟩ op' = false := by
    simp [Move.executes, h, hne]
  cases h with
  | plain hbyte hplain happly =>
    have hiterate := hop hbyte (show _ ≠ .iterate by rintro rfl; cases hplain)
    have hcollect := hop hbyte (show _ ≠ .collect by rintro rfl; cases hplain)
    exact .keeps (fun h => absurd (hiterate.symm.trans h) nofun) hcollect (apply_frames happly)
  | jump hbyte hjump =>
    have hiterate := hop hbyte (show _ ≠ .iterate by rintro rfl; cases hjump)
    have hcollect := hop hbyte (show _ ≠ .collect by rintro rfl; cases hjump)
    exact .keeps (fun h => absurd (hiterate.symm.trans h) nofun) hcollect rfl
  | @skip f hbyte hplan hitem =>
    refine .keeps (fun _ => ?_) (hop hbyte nofun) (close_frames ..)
    have hitems : f.items = Move.snapshot ⟨pc, i, m, m.close f #[]⟩ :=
      Planned.items_eq_snapshot (e := ⟨pc, i, m, m.close f #[]⟩) (planned_of_plan hplan)
    rw [← hitems, ← Array.size_eq_zero_iff]
    simpa using hitem
  | @enter f item hbyte hplan hitem hdepth =>
    have hf := planned_of_plan hplan
    exact .pushes (f := f) (by simpa using hbyte) (hop hbyte nofun)
      (Planned.items_eq_snapshot (e := ⟨pc, i, m, _⟩) hf) hf.cursor
      (Array.getElem?_eq_some_iff.1 hitem).1 rfl
  | @again f fs item hbyte hframes hpc hitem =>
    exact .advances (f := f) (by simpa using hbyte) hpc.symm hframes (.further f _ (m.gather f)) rfl
      (Array.getElem?_eq_some_iff.1 hitem).1 rfl
  | @leave f fs hbyte hframes hpc hitem =>
    exact .pops (f := f) (by simpa using hbyte) hpc.symm hframes
      (Array.getElem?_eq_none_iff.1 hitem) (close_frames ..)

/-- No iteration is open where a run finishes. -/
theorem frames_of_finished (fetch : s.packet.code[pc]? = none)
    (h : runFrom s (k + 1) pc m = (.finished, n)) : m.frames = [] := by
  rw [runFrom_out fetch, ending] at h
  split at h
  · simpa using ‹m.frames.isEmpty = true›
  · cases h

/-! ## Counting -/

/-- The number of elements that open iterations have still to collect. -/
def pending (fs : List Frame) : Nat := (fs.map fun f => f.items.size - f.cursor).sum

theorem collectCount_cons (e : Move) (trace : List Move) :
    collectCount (e :: trace) = collectCount [e] + collectCount trace := by
  show collectCount ([e] ++ trace) = _
  simp only [collectCount, List.countP_append]

theorem snapshotCount_cons (e : Move) (trace : List Move) :
    snapshotCount (e :: trace) = snapshotCount [e] + snapshotCount trace := by
  show snapshotCount ([e] ++ trace) = _
  simp only [snapshotCount, List.filter_append, List.map_append, List.sum_append]

/-- A move that collects does so for an element that was pending, and a move that opens an iteration
makes the elements of the list pending. -/
theorem pending_of_stackChange {e : Move} (h : e.StackChange)
    (hopen : ∀ f ∈ e.before.frames, f.cursor < f.items.size) :
    collectCount [e] + pending e.after.frames = pending e.before.frames + snapshotCount [e] ∧
      ∀ f ∈ e.after.frames, f.cursor < f.items.size := by
  -- what executes a `collect` does not open an iteration
  have hother (hcollect : e.executes .collect = true) : snapshotCount [e] = 0 := by
    have hiterate : e.executes .iterate = false := by
      rw [Move.executes_iff] at hcollect
      simp [Move.executes, hcollect]
    simp [snapshotCount, hiterate]
  cases h with
  | keeps hempty hcollect hafter =>
    rw [hafter]
    refine ⟨?_, hopen⟩
    cases hiterate : e.executes .iterate with
    | false => simp [collectCount, snapshotCount, hcollect, hiterate]
    | true => simp [collectCount, snapshotCount, hcollect, hiterate, hempty hiterate]
  | @pushes f hiterate hcollect hitems hcursor hmore hafter =>
    rw [hafter]
    constructor
    · simp [collectCount, snapshotCount, pending, hcollect, hiterate, ← hitems, hcursor]
      omega
    · exact List.forall_mem_cons.2 ⟨hcursor ▸ hmore, hopen⟩
  | @advances f g fs hcollect _ hbefore hsame hcursor hmore hafter =>
    rw [hbefore] at hopen ⊢
    rw [hafter, hother hcollect]
    have hitems : g.items = f.items := by rw [hsame]
    constructor
    · rw [hitems] at hmore
      simp only [collectCount, pending, List.countP_singleton, hcollect, List.map_cons,
        List.sum_cons, hitems, hcursor, if_true]
      omega
    · intro x hx
      rcases List.mem_cons.1 hx with rfl | hx
      · exact hmore
      · exact hopen x (List.mem_cons_of_mem _ hx)
  | @pops f fs hcollect _ hbefore hlast hafter =>
    rw [hbefore] at hopen ⊢
    rw [hafter, hother hcollect]
    obtain ⟨hf, hrest⟩ := List.forall_mem_cons.1 hopen
    refine ⟨?_, hrest⟩
    simp only [collectCount, pending, List.countP_singleton, hcollect, List.map_cons,
      List.sum_cons, if_true]
    omega

/-- A run that finishes collects what open iterations have still to collect, and all that it finds
to iterate. -/
theorem collectCount_of_finished (h : runFrom s k pc m = (.finished, n))
    (hopen : ∀ f ∈ m.frames, f.cursor < f.items.size) :
    collectCount (moves s k pc m) = pending m.frames + snapshotCount (moves s k pc m) := by
  induction k generalizing pc m with
  | zero => cases h
  | succ k ih =>
    rcases finished_cases h with ⟨fetch, -⟩ | ⟨i, next, m₁, hgo, hrest⟩
    · rw [moves_out fetch, frames_of_finished fetch h]
      rfl
    · have hchange := stackChange_of_advance (advance_of_step hgo.step)
      obtain ⟨hbalance, hopen₁⟩ := pending_of_stackChange hchange hopen
      -- counting an instruction leaves the open iterations alone
      have hfirst : collectCount [⟨pc, i, m.tick, m₁⟩] + pending m₁.frames =
          pending m.frames + snapshotCount [⟨pc, i, m.tick, m₁⟩] := hbalance
      rw [moves_go hgo, collectCount_cons, snapshotCount_cons, ih hrest hopen₁]
      omega

/-! ## Passes -/

/-- A run that finishes comes to collect for every iteration that is open, and until then keeps
it. -/
theorem exists_collect {gs : List Frame} (h : runFrom s k pc m = (.finished, n))
    (hframes : m.frames = gs ++ f :: fs) :
    ∃ body c rest, moves s k pc m = body ++ c :: rest ∧ c.executes .collect = true ∧
      c.before.frames = f :: fs ∧
      ∀ e ∈ body, (f :: fs) <:+ e.before.frames ∧ (f :: fs) <:+ e.after.frames ∧
        (e.executes .collect = true → fs.length + 1 < e.before.frames.length) := by
  -- `gs` are the iterations that were opened inside; the run cannot finish before they are closed
  induction k generalizing pc m gs with
  | zero => cases h
  | succ k ih =>
    rcases finished_cases h with ⟨fetch, -⟩ | ⟨i, next, m₁, hgo, hrest⟩
    · rw [frames_of_finished fetch h] at hframes
      simp at hframes
    · rw [moves_go hgo]
      have hbefore : (⟨pc, i, m.tick, m₁⟩ : Move).before.frames = gs ++ f :: fs := hframes
      -- one more move in the body, after which `gs'` are open inside
      have hmore (gs' : List Frame) (hafter : m₁.frames = gs' ++ f :: fs)
          (hinner : Move.executes ⟨pc, i, m.tick, m₁⟩ .collect = true → gs ≠ []) :
          ∃ body c rest, ⟨pc, i, m.tick, m₁⟩ :: moves s k next m₁ = body ++ c :: rest ∧
            c.executes .collect = true ∧ c.before.frames = f :: fs ∧
            ∀ e ∈ body, (f :: fs) <:+ e.before.frames ∧ (f :: fs) <:+ e.after.frames ∧
              (e.executes .collect = true → fs.length + 1 < e.before.frames.length) := by
        obtain ⟨body, c, rest, hmoves, hcollect, htop, hbody⟩ := ih hrest hafter
        refine ⟨⟨pc, i, m.tick, m₁⟩ :: body, c, rest, by rw [hmoves]; rfl, hcollect, htop, ?_⟩
        refine List.forall_mem_cons.2 ⟨⟨?_, ?_, ?_⟩, hbody⟩
        · rw [hbefore]
          exact List.suffix_append ..
        · show (f :: fs) <:+ m₁.frames
          rw [hafter]
          exact List.suffix_append ..
        · intro hop
          have := List.length_pos_of_ne_nil (hinner hop)
          rw [hbefore, List.length_append, List.length_cons]
          omega
      cases stackChange_of_advance (advance_of_step hgo.step) with
      | keeps _ hcollect hafter =>
        exact hmore gs (hafter.trans hbefore) fun hop => absurd (hcollect.symm.trans hop) nofun
      | @pushes g _ hcollect _ _ _ hafter =>
        refine hmore (g :: gs) ?_ fun hop => absurd (hcollect.symm.trans hop) nofun
        rw [hafter, hbefore]
        rfl
      | @advances g g' gs' hcollect _ htop _ _ _ hafter =>
        cases gs with
        | nil => exact ⟨[], _, _, rfl, hcollect, hbefore, nofun⟩
        | cons x gs =>
          obtain ⟨-, rfl⟩ := List.cons.inj (htop.symm.trans hbefore)
          exact hmore (g' :: gs) hafter nofun
      | @pops g gs' hcollect _ htop _ hafter =>
        cases gs with
        | nil => exact ⟨[], _, _, rfl, hcollect, hbefore, nofun⟩
        | cons x gs =>
          obtain ⟨-, rfl⟩ := List.cons.inj (htop.symm.trans hbefore)
          exact hmore gs hafter nofun

/-- The passes that an open iteration has still to come. -/
structure Remaining (f : Frame) (fs : List Frame) (passes : List Pass) : Prop where
  count : f.cursor + passes.length = f.items.size
  each : ∀ p ∈ passes, p.Of f fs
  seeds : passes.dropLast.map (fun p => p.collect.after.peek f.element) =
    (f.items.toList.drop (f.cursor + 1)).map fun v => ⟨v, f.sourceTags⟩
  closes : ∃ p ∈ passes.getLast?, p.collect.after.frames = fs ∧
    (f.mode = .map → ∃ a, p.collect.after.peek f.result = ⟨.list a, f.sourceTags⟩ ∧
      (p.collect.after.store.items a).size = f.items.size)

/-- What mapping leaves in the register of the result. -/
theorem peek_close_map (hmode : f.mode = .map) (hresult : f.result < m.registers.size)
    (results : Array Value) : ∃ a, (m.close f results).peek f.result = ⟨.list a, f.sourceTags⟩ ∧
      (m.close f results).store.items a = results := by
  refine ⟨(m.store.newList results).1, ?_, ?_⟩
  · simp only [close, finish, hmode, collected]
    exact peek_put_self (m := { m with store := _ }) hresult _
  · simp only [close, finish, hmode, collected, put_store]
    exact m.store.items_newList_self results

/-- The next pass of the innermost iteration, and what the run goes on with. -/
theorem exists_pass (h : runFrom s k pc m = (.finished, n)) (hframes : m.frames = f :: fs) :
    ∃ (p : Pass) (j next : Nat), p.Of f fs ∧ p.collect.before.frames = f :: fs ∧
      p.collect.before.registers.size = m.registers.size ∧
      Advance s p.collect.place p.collect.instruction p.collect.before next p.collect.after ∧
      moves s k pc m = p.moves ++ moves s j next p.collect.after ∧
      runFrom s j next p.collect.after = (.finished, n) := by
  have hinnermost : m.frames = [] ++ f :: fs := hframes
  obtain ⟨body, c, rest, hmoves, hcollect, htop, hbody⟩ := exists_collect h hinnermost
  obtain ⟨j, next, hadvance, rfl, hrun⟩ := moves_split hmoves
  have hplace : c.place = f.collectAt := by
    obtain ⟨g, gs, hg, hplace, -⟩ := hadvance.collect_cases ((c.executes_iff _).1 hcollect)
    obtain ⟨rfl, -⟩ := List.cons.inj (hg.symm.trans htop)
    exact hplace.symm
  have hsize : c.before.registers.size = m.registers.size := by
    have hall := forall_mem_moves (s := s) (P := fun x => x.registers.size = m.registers.size)
      (fun _ hx => hx) (fun _ hx hstep => hstep.size_registers.trans hx) k pc rfl
    exact (hall c (by simp [hmoves])).1
  refine ⟨⟨body, c⟩, j, next, ⟨⟨hcollect, hplace⟩, ?_, ?_⟩, htop, hsize, hadvance, ?_, ?_⟩
  · exact ⟨f, .refl f, htop, fun e he => ⟨(hbody e he).1, (hbody e he).2.1⟩⟩
  · exact fun e he => (hbody e he).2.2
  · rw [hmoves, Pass.moves, List.append_assoc]
    rfl
  · rw [← hrun, h]

theorem drop_eq_cons {xs : Array Value} {j : Nat} {v : Value} (h : xs[j]? = some v) :
    xs.toList.drop j = v :: xs.toList.drop (j + 1) := by
  obtain ⟨hlt, rfl⟩ := Array.getElem?_eq_some_iff.1 h
  exact List.drop_eq_getElem_cons (by simpa using hlt)

/-- A run that finishes carries every open iteration through. -/
theorem exists_passes (h : runFrom s k pc m = (.finished, n))
    (hframes : m.frames = f :: fs) (hf : f.Sound m.registers.size) :
    ∃ passes rest, moves s k pc m = passes.flatMap Pass.moves ++ rest ∧
      Remaining f fs passes := by
  -- induction on the number of elements behind the current one
  obtain ⟨d, hd⟩ : ∃ d, f.items.size = f.cursor + d + 1 :=
    ⟨f.items.size - f.cursor - 1, by have := hf.cursor; omega⟩
  induction d generalizing f m k pc with
  | zero =>
    obtain ⟨p, j, next, hp, htop, hsize, hadvance, hmoves, -⟩ := exists_pass h hframes
    obtain ⟨g, gs, hg, -, hcases⟩ :=
      hadvance.collect_cases ((p.collect.executes_iff _).1 hp.collects.1)
    obtain ⟨rfl, rfl⟩ := List.cons.inj (hg.symm.trans htop)
    have hnone : g.items[g.cursor + 1]? = none := Array.getElem?_eq_none (by omega)
    refine ⟨[p], _, by simpa using hmoves, ⟨by simp; omega, by simpa using hp, ?_, ?_⟩⟩
    · rw [List.drop_eq_nil_of_le (by simp; omega)]
      rfl
    · refine ⟨p, rfl, ?_⟩
      rcases hcases with ⟨item, hitem, -⟩ | ⟨-, -, hafter⟩
      · cases hnone.symm.trans hitem
      · rw [hafter]
        refine ⟨close_frames .., fun hmode => ?_⟩
        obtain ⟨a, hpeek, hitems⟩ := peek_close_map (m := p.collect.before.withFrames gs) hmode
          (hsize ▸ hf.result) (p.collect.before.gather g)
        refine ⟨a, hpeek, ?_⟩
        have hcount := collects_gather (m := p.collect.before) hf.results
        rw [hmode] at hcount
        rw [hitems, hd]
        exact hcount
  | succ d ih =>
    obtain ⟨p, j, next, hp, htop, hsize, hadvance, hmoves, hrun⟩ := exists_pass h hframes
    obtain ⟨g, gs, hg, -, hcases⟩ :=
      hadvance.collect_cases ((p.collect.executes_iff _).1 hp.collects.1)
    obtain ⟨rfl, rfl⟩ := List.cons.inj (hg.symm.trans htop)
    have hlt : g.cursor + 1 < g.items.size := by omega
    rcases hcases with ⟨item, hitem, -, hafter⟩ | ⟨hnone, -⟩
    · have hseed : p.collect.after.peek g.element = ⟨item, g.sourceTags⟩ := by
        rw [hafter]
        exact peek_put_self (hsize ▸ hf.element) _
      have hsize' : p.collect.after.registers.size = m.registers.size :=
        hadvance.size_registers.trans hsize
      have hsound : Frame.Sound
          { g with cursor := g.cursor + 1, results := p.collect.before.gather g }
          p.collect.after.registers.size :=
        ⟨hsize' ▸ hf.element, hsize' ▸ hf.result, hlt, collects_gather hf.results⟩
      obtain ⟨passes, rest, hpasses, hrem⟩ := ih hrun (by rw [hafter]; rfl) hsound
        (by dsimp only; omega)
      have hne : passes ≠ [] := by
        rintro rfl
        have := hrem.count
        simp only [List.length_nil] at this
        omega
      refine ⟨p :: passes, rest, ?_, ⟨?_, ?_, ?_, ?_⟩⟩
      · rw [hmoves, hpasses, List.flatMap_cons, List.append_assoc]
      · have := hrem.count
        simp only [List.length_cons] at this ⊢
        omega
      · intro x hx
        rcases List.mem_cons.1 hx with rfl | hx
        · exact hp
        · exact (hrem.each x hx).of_sameIteration (.further ..)
      · -- the next element is put in the register when this pass ends
        rw [List.dropLast_cons_of_ne_nil hne, List.map_cons, hrem.seeds, hseed,
          drop_eq_cons hitem, List.map_cons]
      · obtain ⟨x, hx, hclose⟩ := hrem.closes
        refine ⟨x, ?_, hclose⟩
        rw [List.getLast?_cons_of_ne_nil hne]
        exact hx
    · have := Array.getElem?_eq_none_iff.1 hnone
      omega

/-- The frame of an iteration that is opened is sound. -/
theorem sound_of_planned (h : Planned s pc i m f) (hmore : 0 < f.items.size) :
    f.Sound m.registers.size where
  element := by
    obtain ⟨-, -, -, -, -, -, -, -, helement, -⟩ := h.operands
    exact lt_size_of_slot helement
  result := by
    obtain ⟨_, _, _, -, -, -, -, -, -, hresult, -⟩ := h.operands
    exact lt_size_of_slot hresult
  cursor := by rw [h.cursor]; exact hmore
  results := by
    rw [h.cursor, h.results]
    cases f.mode <;> simp [IterMode.Collects]

/-- Only opening an iteration makes the stack longer. -/
theorem Advance.enter_of_cons (h : Advance s pc i m next n)
    (hframes : n.frames = f :: m.frames) : ∃ item, f.items[0]? = some item ∧
      Opcode.ofByte? i.opcode = some .iterate ∧ m.plan s pc i = .ok f ∧
      n = (m.seed f item).withFrames (f :: m.frames) := by
  cases h with
  | plain _ _ happly =>
    rw [apply_frames happly] at hframes
    simp at hframes
  | jump => simp at hframes
  | skip => simp at hframes
  | enter hop hplan hitem _ =>
    obtain ⟨rfl, -⟩ := List.cons.inj hframes
    exact ⟨_, hitem, hop, hplan, rfl⟩
  | again _ hbefore =>
    rw [hbefore] at hframes
    simp at hframes
  | leave _ hbefore =>
    rw [hbefore] at hframes
    have := congrArg List.length hframes
    simp only [close_frames, withFrames_frames, List.length_cons] at this
    omega

/-- **No iteration is abandoned in a run that finishes.** -/
theorem iterations_completed (hopen : m.frames = []) (h : runFrom s k pc m = (.finished, n)) :
    IterationsCompleted s (moves s k pc m) where
  stack e he := by
    have hall := forall_mem_moves (s := s) (P := fun _ => True) (fun _ _ => trivial)
      (fun _ _ _ => trivial) k pc (m := m) trivial
    obtain ⟨-, -, next, hadvance⟩ := hall e he
    exact stackChange_of_advance hadvance
  completes earlier e later f hmoves hframes := by
    obtain ⟨j, next, hadvance, rfl, hrun⟩ := moves_split hmoves
    obtain ⟨item, hitem, hop, hplan, hafter⟩ := hadvance.enter_of_cons hframes
    have hf := planned_of_plan hplan
    have hmore := (Array.getElem?_eq_some_iff.1 hitem).1
    have hsound := sound_of_planned hf hmore
    rw [← hadvance.size_registers] at hsound
    obtain ⟨passes, rest, hpasses, hrem⟩ := exists_passes (hrun.symm.trans h) hframes hsound
    refine ⟨passes, rest, hpasses, ⟨by simpa using hop, hf⟩, hf.items_eq_snapshot, ?_,
      hrem.each, ?_, hrem.closes⟩
    · have := hrem.count
      rw [hf.cursor] at this
      omega
    · have hseed : e.after.peek f.element = ⟨item, f.sourceTags⟩ := by
        rw [hafter]
        exact peek_put_self (hadvance.size_registers ▸ hsound.element) _
      have hitems := drop_eq_cons hitem
      rw [List.drop_zero] at hitems
      have hseeds := hrem.seeds
      rw [hf.cursor] at hseeds
      rw [hitems, List.map_cons, List.map_cons, hseed, List.map_map, ← hseeds]
      rfl
  total := by
    have hcount := collectCount_of_finished h (by simp [hopen])
    rw [hcount, hopen]
    exact Nat.zero_add _

/-- Two iterations over a list of two elements, one opened in the other, with one `collect` for
both. A jump leads back to the `collect` until the outer iteration is closed too. -/
def sharedCollect : Setting where
  packet := {
    contract := { size := 7 }
    constants := #[.integer 3]
    code := #[
      Opcode.newList.on 0 0 0 0,
      Opcode.append.on 0 0 1 0,
      Opcode.append.on 0 0 1 0,
      Opcode.newList.on 0 4 0 0,
      Opcode.loadConstant.on 0 6 0 0,
      Opcode.iterate.on 0 1 0 1,
      Opcode.iterate.on 0 2 0 0,
      Opcode.collect.on 0 3 2 2,
      Opcode.append.on 0 4 1 0,
      Opcode.listLength.on 0 5 4 0,
      (Opcode.jumpUnless .ge).on 0 7 5 6] }
  functions := .none
  timestamp := ""

/-- The inner iteration is opened twice, so two elements are collected three times. -/
theorem sharedCollect_completed :
    (start sharedCollect.packet {}).frames = [] ∧
      (runFrom sharedCollect 40 0 (start sharedCollect.packet {})).1 = .finished ∧
      IterationsCompleted sharedCollect (moves sharedCollect 40 0 (start sharedCollect.packet {})) ∧
      collectCount (moves sharedCollect 40 0 (start sharedCollect.packet {})) = 6 := by
  have hfinished : (runFrom sharedCollect 40 0 (start sharedCollect.packet {})).1 = .finished := by
    decide +kernel
  exact ⟨rfl, hfinished, iterations_completed rfl (Prod.ext hfinished rfl), by decide +kernel⟩

end Machine

end TagMachine
