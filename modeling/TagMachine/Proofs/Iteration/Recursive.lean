import TagMachine.Proofs.Machine.Run

set_option autoImplicit false

/-! # Recursive iteration

`Machine.runRange` is a second interpreter. It has no stack of open iterations: at an `iterate` it
takes the elements of the list once, runs the range of the body recursively for each of them, and
goes on behind the `collect`. It knows its depth only for the bound on open iterations. What an
iteration collects, and with which tags, is said of it directly (`runIteration_map`,
`runIteration_filter`, `runIteration_fold`).

Whatever `runRange` answers, the machine with the stack does (`simulates_runRange`): where the range
is left, the machine comes to the same place with the stack as it was, and where the run ends, the
machine ends the same way. The answer `unfinished` says nothing; it is given when the recursion is
too deep for the fuel, and when a body is left other than by its `collect`.
-/

namespace TagMachine.Machine

variable {s : Setting} {pc last : Nat} {m : Machine} {fs : List Frame} {i : Instruction}

/-- An answer, or the way a run ended before there was one. -/
abbrev Attempt (α : Type) := Except (Outcome × Machine) α

/-- What an operation on a machine answers; its failure ends the run. -/
def attempt {α : Type} (m : Machine) : Except Error α → Attempt α
  | .ok a => .ok a
  | .error e => .error (.failed e, m)

/-- Counts an instruction, within the budget. -/
def charge (s : Setting) (m : Machine) : Attempt Machine :=
  if m.tick.overBudget s.limits then .error (.failed (.program .budgetExhausted), m.tick)
  else .ok m.tick

/-- The error of a `collect` that does not end the range it is met in. -/
def strayCollect (depth last pc : Nat) : Error :=
  if depth = 0 then .program (.collectWithoutIteration pc)
  else .program (.collectMismatch pc last)

/-- Runs the body of an iteration for one element, and gathers the result. -/
def runElement (s : Setting) (f : Frame) (body : Machine → Attempt (Nat × Machine))
    (acc : Array Value × Machine) (item : Value) : Attempt (Array Value × Machine) := do
  let (left, m) ← body (acc.2.seed f item)
  if left ≠ f.collectAt then .error (.unfinished, m)
  else
    let m ← charge s m
    return (m.gather { f with results := acc.1 }, m)

/-- Runs an iteration: its body once for each element. It goes on behind the `collect`. -/
def runIteration (s : Setting) (depth : Nat) (f : Frame) (body : Machine → Attempt (Nat × Machine))
    (m : Machine) : Attempt (Nat × Machine) := do
  if f.items.size ≠ 0 then attempt m (depthAllowed s.limits depth)
  let (results, m) ← f.items.toList.foldlM (runElement s f body) (#[], m)
  return (f.collectAt + 1, m.close f results)

/-- Runs an instruction of a range inside `depth` iterations that ends at `last`. The body of an
iteration is run by `self`, from its first place on. -/
def runInstruction (s : Setting) (self : Nat → Nat → Nat → Nat → Machine → Attempt (Nat × Machine))
    (depth last pc : Nat) (i : Instruction) (m : Machine) : Attempt (Nat × Machine) :=
  match Opcode.ofByte? i.opcode with
  | some .iterate => do
    let f ← attempt m (m.plan s pc i)
    runIteration s depth f (self (depth + 1) f.bodyStart f.collectAt f.bodyStart) m
  | some .collect => .error (.failed (strayCollect depth last pc), m)
  | _ => attempt m (m.step s pc i)

/-- Runs from a place as long as the place is in the range from `first` up to `last`, and gives the
place where the range was left. The range is inside `depth` iterations. -/
def runRange (s : Setting) : Nat → Nat → Nat → Nat → Nat → Machine → Attempt (Nat × Machine)
  | 0, _, _, _, _, m => .error (.unfinished, m)
  | fuel + 1, depth, first, last, pc, m =>
    if pc < first ∨ last ≤ pc then .ok (pc, m)
    else
      match s.packet.code[pc]? with
      | none => .ok (pc, m)
      | some i => do
        let m ← charge s m
        let (next, m) ← runInstruction s (runRange s fuel) depth last pc i m
        runRange s fuel depth first last next m

/-- Runs a program recursively. -/
def runNested (s : Setting) (fuel : Nat) (m : Machine) : Outcome × Machine :=
  match runRange s fuel 0 0 s.packet.code.size 0 m with
  | .ok (_, m) => (.finished, m.withFrames [])
  | .error (o, m) => (o, m.withFrames [])

/-! ## Answers that the machine with the stack confirms -/

/-- The machine with the stack does what was answered: from a place with the iterations `fs` open it
comes to the place and machine of the answer, or ends as the answer says. -/
def Simulates (s : Setting) (pc : Nat) (m : Machine) (fs : List Frame) :
    Attempt (Nat × Machine) → Prop
  | .ok (left, m') => Steps s pc m left (m'.withFrames fs)
  | .error (o, m') => o ≠ .unfinished → ∃ gs, Ends s pc m o (m'.withFrames gs)

theorem Simulates.of_steps {next : Nat} {m₁ : Machine}
    {r : Attempt (Nat × Machine)} (h : Steps s pc m next m₁) (hr : Simulates s next m₁ fs r) :
    Simulates s pc m fs r := by
  cases r with
  | ok a => exact h.trans hr
  | error e =>
    intro ho
    obtain ⟨gs, hend⟩ := hr ho
    exact ⟨gs, h.ends hend⟩

theorem Simulates.andThen
    {x : Attempt (Nat × Machine)} {k : Nat × Machine → Attempt (Nat × Machine)}
    (hx : Simulates s pc m fs x)
    (hk : ∀ next m₁, Simulates s next (m₁.withFrames fs) fs (k (next, m₁))) :
    Simulates s pc m fs (x >>= k) := by
  cases x with
  | error e => exact hx
  | ok r => exact Simulates.of_steps hx (hk r.1 r.2)

theorem charge_cases (s : Setting) (m : Machine) :
    (m.tick.overBudget s.limits = true ∧
      charge s m = .error (.failed (.program .budgetExhausted), m.tick)) ∨
    (m.tick.overBudget s.limits = false ∧ charge s m = .ok m.tick) := by
  unfold charge
  cases m.tick.overBudget s.limits <;> simp

@[simp] theorem tick_withFrames (m : Machine) (fs : List Frame) :
    (m.withFrames fs).tick = m.tick.withFrames fs := rfl

theorem ofByte?_of_closing? {code : Array Instruction} (h : closing? code pc = some i) :
    code[pc]? = some i ∧ Opcode.ofByte? i.opcode = some .collect := by
  obtain ⟨hfetch, hbyte⟩ := Option.filter_eq_some_iff.1 h
  refine ⟨hfetch, ?_⟩
  rw [eq_of_beq hbyte]
  exact Opcode.ofByte?_byte .collect

/-! ## What an iteration gives -/

section Given

variable {f : Frame} {body : Machine → Attempt (Nat × Machine)} {n : Machine} {depth next : Nat}

/-- A body is run for the elements of a list in turn; `ends` are the machines at its `collect`. -/
inductive Passes (s : Setting) (f : Frame) (body : Machine → Attempt (Nat × Machine)) :
    Machine → List Value → List Machine → Machine → Prop
  | nil {m : Machine} : Passes s f body m [] [] m
  | cons {m m₁ n : Machine} {item : Value} {items : List Value} {ends : List Machine}
      (hbody : body (m.seed f item) = .ok (f.collectAt, m₁)) (hcharge : charge s m₁ = .ok m₁.tick)
      (rest : Passes s f body m₁.tick items ends n) :
      Passes s f body m (item :: items) (m₁.tick :: ends) n

theorem runElement_eq_ok {results results' : Array Value} {item : Value}
    (h : runElement s f body (results, m) item = .ok (results', n)) :
    ∃ m₁, body (m.seed f item) = .ok (f.collectAt, m₁) ∧ charge s m₁ = .ok m₁.tick ∧
      n = m₁.tick ∧ results'.toList = results.toList ++ (n.yield f.toLoop).toList := by
  obtain ⟨⟨left, m₁⟩, hbody, h⟩ := bind_eq_ok.1 h
  dsimp only at h
  split at h
  · cases h
  · next hleft =>
      rw [not_not.1 hleft] at hbody
      obtain ⟨m₂, hcharge, h⟩ := bind_eq_ok.1 h
      rcases charge_cases s m₁ with ⟨-, hover⟩ | ⟨-, htick⟩
      · rw [hover] at hcharge
        cases hcharge
      · obtain rfl := Except.ok.inj (htick.symm.trans hcharge)
        obtain ⟨rfl, rfl⟩ := Prod.mk.inj (pure_eq_ok.1 h)
        refine ⟨m₁, hbody, htick, rfl, ?_⟩
        rw [gather_eq_yield]
        cases m₁.tick.yield f.toLoop <;> simp

theorem foldlM_runElement_eq_ok {items : List Value} {results results' : Array Value}
    (h : items.foldlM (runElement s f body) (results, m) = .ok (results', n)) :
    ∃ ends, Passes s f body m items ends n ∧
      results'.toList = results.toList ++ ends.filterMap (·.yield f.toLoop) := by
  induction items generalizing results m with
  | nil =>
    obtain ⟨rfl, rfl⟩ := Prod.mk.inj (pure_eq_ok.1 h)
    exact ⟨[], .nil, by simp⟩
  | cons item items ih =>
    rw [List.foldlM_cons] at h
    obtain ⟨⟨results₁, m₁⟩, helement, h⟩ := bind_eq_ok.1 h
    obtain ⟨m₂, hbody, hcharge, rfl, hresults⟩ := runElement_eq_ok helement
    obtain ⟨ends, hpasses, hrest⟩ := ih h
    refine ⟨_, .cons hbody hcharge hpasses, ?_⟩
    rw [hrest, hresults, List.append_assoc, List.filterMap_cons]
    cases m₂.tick.yield f.toLoop <;> rfl

/-- An iteration ends with what the ends of its passes yield. -/
theorem runIteration_eq_ok (h : runIteration s depth f body m = .ok (next, n)) :
    ∃ ends m', Passes s f body m f.items.toList ends m' ∧
      n = m'.close f (ends.filterMap (·.yield f.toLoop)).toArray := by
  have hrest : (f.items.toList.foldlM (runElement s f body) (#[], m) >>= fun acc =>
      pure (f.collectAt + 1, acc.2.close f acc.1)) = Except.ok (next, n) := by
    unfold runIteration at h
    split at h
    · obtain ⟨_, -, h⟩ := bind_eq_ok.1 h
      exact h
    · exact h
  obtain ⟨⟨results, m'⟩, hfold, hclose⟩ := bind_eq_ok.1 hrest
  obtain ⟨-, rfl⟩ := Prod.mk.inj (pure_eq_ok.1 hclose)
  obtain ⟨ends, hpasses, hresults⟩ := foldlM_runElement_eq_ok hfold
  refine ⟨ends, m', hpasses, congrArg (m'.close f) ?_⟩
  have hlist : results.toList.toArray = results := Array.toArray_toList
  rw [← hlist, hresults]
  rfl

/-- The machine with a list of values in the result register of an iteration, with the tags of the
list that was iterated. -/
def listed (m : Machine) (f : Frame) (values : List Value) : Machine :=
  { m with store := (m.store.newList values.toArray).2 }.put f.result
    ⟨.list (m.store.newList values.toArray).1, f.sourceTags⟩

/-- `map` lists the values of its first register, one for each element. -/
theorem runIteration_map (hmode : f.mode = .map)
    (h : runIteration s depth f body m = .ok (next, n)) :
    ∃ ends m', Passes s f body m f.items.toList ends m' ∧
      n = m'.listed f (ends.map fun e => (e.peek f.first).value) := by
  obtain ⟨ends, m', hpasses, rfl⟩ := runIteration_eq_ok h
  refine ⟨ends, m', hpasses, ?_⟩
  rw [close_eq_put, delivered_of_ne_fold (by simp [hmode]), if_neg (by simp [hmode]), listed,
    ← List.filterMap_eq_map]
  simp only [yield, hmode]
  rfl

theorem filterMap_yield_of_filter {f : Loop} (hmode : f.mode = .filter ∨ f.mode = .mapFilter)
    (ends : List Machine) : ends.filterMap (·.yield f) =
      (ends.filter fun e => (e.peek f.first).value = .boolean true).map
        fun e => (e.peek f.second).value := by
  have hyield (e : Machine) : e.yield f =
      if (e.peek f.first).value = .boolean true then some (e.peek f.second).value else none := by
    rcases hmode with h | h <;> simp only [yield, h]
  simp only [hyield]
  induction ends with
  | nil => rfl
  | cons e ends ih => by_cases he : (e.peek f.first).value = .boolean true <;> simp [he, ih]

/-- `filter` and `mapFilter` list the values of the second register where the first one holds
true. -/
theorem runIteration_filter (hmode : f.mode = .filter ∨ f.mode = .mapFilter)
    (h : runIteration s depth f body m = .ok (next, n)) :
    ∃ ends m', Passes s f body m f.items.toList ends m' ∧
      n = m'.listed f ((ends.filter fun e => (e.peek f.first).value = .boolean true).map
        fun e => (e.peek f.second).value) := by
  obtain ⟨ends, m', hpasses, rfl⟩ := runIteration_eq_ok h
  refine ⟨ends, m', hpasses, ?_⟩
  have hfold : f.mode ≠ .fold := by rcases hmode with h | h <;> simp [h]
  rw [close_eq_put, delivered_of_ne_fold hfold, if_neg hfold, filterMap_yield_of_filter hmode]
  rfl

/-- `fold` hands on its accumulator with the tags that it has, and makes no list. -/
theorem runIteration_fold (hmode : f.mode = .fold)
    (h : runIteration s depth f body m = .ok (next, n)) :
    ∃ ends m', Passes s f body m f.items.toList ends m' ∧
      n = m'.put f.result (m'.peek f.first) := by
  obtain ⟨ends, m', hpasses, rfl⟩ := runIteration_eq_ok h
  refine ⟨ends, m', hpasses, ?_⟩
  rw [close_eq_put, delivered_of_fold hmode, if_pos hmode]

end Given

/-- A body is answered rightly, however far the iteration is. -/
def Simulated (s : Setting) (f : Frame) (fs : List Frame)
    (body : Machine → Attempt (Nat × Machine)) : Prop :=
  ∀ (cursor : Nat) (results : Array Value) (m : Machine),
    Simulates s f.bodyStart (m.withFrames ({ f with cursor, results } :: fs))
      ({ f with cursor, results } :: fs) (body m)

theorem getElem?_of_drop {xs : Array Value} {k : Nat} {x : Value} {rest : List Value}
    (h : xs.toList.drop k = x :: rest) : xs[k + 1]? = rest[0]? ∧ xs.toList.drop (k + 1) = rest := by
  constructor
  · rw [← Array.getElem?_toList, ← List.getElem?_drop, h]
    rfl
  · rw [← List.drop_drop, h]
    rfl

/-! ## The elements of an iteration -/

section Elements

variable {f : Frame} {close : Instruction} {body : Machine → Attempt (Nat × Machine)}

/-- One element: if the body is answered rightly, and so is what follows from its `collect` on. -/
theorem Simulates.element {g : Frame} {results : Array Value} {m : Machine} {item : Value}
    {k : Array Value × Machine → Attempt (Nat × Machine)}
    (hclose : closing? s.packet.code f.collectAt = some close)
    (hbody : Simulates s f.bodyStart ((m.seed f item).withFrames (g :: fs)) (g :: fs)
      (body (m.seed f item)))
    (hk : ∀ m₁ : Machine, m₁.tick.overBudget s.limits = false →
      Simulates s f.collectAt (m₁.withFrames (g :: fs)) fs
        (k (m₁.tick.gather { f with results }, m₁.tick))) :
    Simulates s f.bodyStart ((m.seed f item).withFrames (g :: fs)) fs
      (runElement s f body (results, m) item >>= k) := by
  unfold runElement
  cases hr : body (m.seed f item) with
  | error r =>
    rw [hr] at hbody
    exact hbody
  | ok r =>
    obtain ⟨left, m₁⟩ := r
    rw [hr] at hbody
    have harrive : Steps s f.bodyStart ((m.seed f item).withFrames (g :: fs)) left
        (m₁.withFrames (g :: fs)) := hbody
    by_cases hleft : left = f.collectAt
    · subst hleft
      refine Simulates.of_steps harrive ?_
      rcases charge_cases s m₁ with ⟨hover, hcharge⟩ | ⟨hunder, hcharge⟩
      · simp only [bind, Except.bind, ne_eq, not_true_eq_false, if_false, hcharge]
        exact fun _ => ⟨g :: fs, Ends.spent (ofByte?_of_closing? hclose).1 hover⟩
      · simp only [bind, Except.bind, ne_eq, not_true_eq_false, if_false, hcharge]
        exact hk m₁ hunder
    · simp only [bind, Except.bind, ne_eq, hleft, not_false_eq_true, if_true]
      exact fun ho => absurd rfl ho

/-- At the `collect` of an element the iteration goes on with the next one. -/
theorem dispatch_next (hclose : closing? s.packet.code f.collectAt = some close) {cursor : Nat}
    {results : Array Value} {next : Value} (hnext : f.items[cursor + 1]? = some next)
    (hunder : m.tick.overBudget s.limits = false) :
    Dispatch s f.collectAt close (m.withFrames ({ f with cursor, results } :: fs)) f.bodyStart
      ((m.tick.seed f next).withFrames ({ f with
        cursor := cursor + 1, results := m.tick.gather { f with results } } :: fs)) := by
  obtain ⟨fetch, hop⟩ := ofByte?_of_closing? hclose
  refine ⟨fetch, hunder, step_of_advance ?_⟩
  exact .again (f := { f with cursor, results })
    (m := m.tick.withFrames ({ f with cursor, results } :: fs)) hop rfl rfl hnext

/-- If the body is answered rightly for every element, the whole iteration is: from the start of
the body, with the first of the remaining elements in its register, the machine comes behind the
`collect` with the iteration closed. -/
theorem simulates_elements (hclose : closing? s.packet.code f.collectAt = some close)
    (hbody : Simulated s f fs body)
    (rest : List Value) (item : Value) (cursor : Nat) (results : Array Value) (m : Machine)
    (hitems : f.items.toList.drop cursor = item :: rest) :
    Simulates s f.bodyStart ((m.seed f item).withFrames ({ f with cursor, results } :: fs)) fs
      ((fun acc => (f.collectAt + 1, acc.2.close f acc.1)) <$>
        (item :: rest).foldlM (runElement s f body) (results, m)) := by
  obtain ⟨fetch, hop⟩ := ofByte?_of_closing? hclose
  induction rest generalizing item cursor results m with
  | nil =>
    rw [List.foldlM_cons, map_bind]
    refine Simulates.element hclose (hbody cursor results _) fun m₁ hunder => ?_
    have hleave : Advance s f.collectAt close
        (m₁.tick.withFrames ({ f with cursor, results } :: fs)) (f.collectAt + 1)
        ((m₁.tick.withFrames fs).close f (m₁.tick.gather { f with results })) :=
      .leave (f := { f with cursor, results })
        (m := m₁.tick.withFrames ({ f with cursor, results } :: fs)) hop rfl rfl
          (getElem?_of_drop hitems).1
    rw [close_withFrames] at hleave
    exact Steps.single ⟨fetch, hunder, step_of_advance hleave⟩
  | cons next rest ih =>
    rw [List.foldlM_cons, map_bind]
    refine Simulates.element hclose (hbody cursor results _) fun m₁ hunder => ?_
    obtain ⟨hnext, hrest⟩ := getElem?_of_drop hitems
    exact Simulates.of_steps (Steps.single (dispatch_next hclose hnext hunder))
      (ih next (cursor + 1) _ m₁.tick hrest)

end Elements

/-! ## Ranges -/

/-- The innermost of the open iterations has its `collect` at a place. -/
def ClosesAt (last : Nat) : List Frame → Prop
  | [] => True
  | f :: _ => f.collectAt = last

/-- The `collect` of another range fails. -/
theorem step_strayCollect (hop : Opcode.ofByte? i.opcode = some .collect) (htop : ClosesAt last fs)
    (hpc : pc < last) :
    (m.withFrames fs).step s pc i = .error (strayCollect fs.length last pc) := by
  rw [step_of_ofByte? hop, execute_collect, collect]
  cases fs with
  | nil => rfl
  | cons f fs =>
    have htop : f.collectAt = last := htop
    have hne : last ≠ pc := by omega
    simp [htop, hne, strayCollect]

section Iterations

variable {f : Frame} {body : Machine → Attempt (Nat × Machine)} {item : Value} {rest : List Value}

theorem runIteration_nil {depth : Nat} (hitems : f.items.toList = []) :
    runIteration s depth f body m = .ok (f.collectAt + 1, m.close f #[]) := by
  have hsize : f.items.size = 0 := by
    rw [← Array.length_toList, hitems]
    rfl
  unfold runIteration
  simp only [hsize, ne_eq, not_true_eq_false, if_false, hitems]
  rfl

theorem runIteration_cons {depth : Nat} (hitems : f.items.toList = item :: rest) :
    runIteration s depth f body m = attempt m (depthAllowed s.limits depth) >>= fun _ =>
      (fun acc => (f.collectAt + 1, acc.2.close f acc.1)) <$>
        (item :: rest).foldlM (runElement s f body) (#[], m) := by
  have hsize : f.items.size ≠ 0 := by
    rw [← Array.length_toList, hitems]
    exact Nat.succ_ne_zero _
  unfold runIteration
  simp only [hsize, ne_eq, not_false_eq_true, if_true, hitems]
  rfl

variable (fetch : s.packet.code[pc]? = some i) (hunder : m.tick.overBudget s.limits = false)
  (hop : Opcode.ofByte? i.opcode = some .iterate) (hplan : m.tick.plan s pc i = .ok f)
include fetch hunder hop hplan

/-- The machine with the stack passes over the iteration of an empty list. -/
theorem dispatch_skip (hitems : f.items.toList = []) :
    Dispatch s pc i (m.withFrames fs) (f.collectAt + 1) ((m.tick.close f #[]).withFrames fs) := by
  have hitem : f.items[0]? = none := by
    rw [← Array.getElem?_toList, hitems]
    rfl
  have hskip : Advance s pc i (m.tick.withFrames fs) (f.collectAt + 1)
      ((m.tick.withFrames fs).close f #[]) := .skip hop hplan hitem
  rw [close_withFrames] at hskip
  exact ⟨fetch, hunder, step_of_advance hskip⟩

/-- The machine with the stack opens the iteration of any other list. -/
theorem dispatch_enter (hitems : f.items.toList = item :: rest)
    (hdepth : depthAllowed s.limits fs.length = .ok ()) :
    Dispatch s pc i (m.withFrames fs) f.bodyStart
      ((m.tick.seed f item).withFrames ({ f with cursor := 0, results := #[] } :: fs)) := by
  have hf := planned_of_plan hplan
  have hitem : f.items[0]? = some item := by
    rw [← Array.getElem?_toList, hitems]
    rfl
  have henter : Advance s pc i (m.tick.withFrames fs) f.bodyStart
      ((m.tick.seed f item).withFrames (f :: fs)) := .enter hop hplan hitem hdepth
  rw [← hf.cursor, ← hf.results]
  exact ⟨fetch, hunder, step_of_advance henter⟩

/-- An iteration, if its body is answered rightly. -/
theorem simulates_runIteration (hbody : Simulated s f fs body) :
    Simulates s pc (m.withFrames fs) fs (runIteration s fs.length f body m.tick) := by
  cases hitems : f.items.toList with
  | nil =>
    rw [runIteration_nil hitems]
    exact Steps.single (dispatch_skip fetch hunder hop hplan hitems)
  | cons item rest =>
    rw [runIteration_cons hitems]
    cases hdepth : depthAllowed s.limits fs.length with
    | error e =>
      refine fun _ => ⟨fs, Ends.fail fetch hunder ?_⟩
      have hitem : f.items[0]? = some item := by
        rw [← Array.getElem?_toList, hitems]
        rfl
      rw [step_of_ofByte? hop, execute_iterate, iterate_eq, tick_withFrames, plan_withFrames, hplan]
      simp only [bind, Except.bind, hitem, withFrames_frames, hdepth]
    | ok _ =>
      obtain ⟨_, _, close, _, _, hclose, _⟩ := (planned_of_plan hplan).operands
      exact Simulates.of_steps
        (Steps.single (dispatch_enter fetch hunder hop hplan hitems hdepth))
        (simulates_elements hclose hbody rest item 0 #[] m.tick hitems)

end Iterations

/-- The instruction at a place, if the bodies of iterations are answered rightly. -/
theorem simulates_runInstruction {self : Nat → Nat → Nat → Nat → Machine → Attempt (Nat × Machine)}
    (fetch : s.packet.code[pc]? = some i) (hunder : m.tick.overBudget s.limits = false)
    (htop : ClosesAt last fs) (hpc : pc < last)
    (hself : ∀ (f : Frame) (m : Machine), Simulates s f.bodyStart (m.withFrames (f :: fs))
      (f :: fs) (self (fs.length + 1) f.bodyStart f.collectAt f.bodyStart m)) :
    Simulates s pc (m.withFrames fs) fs (runInstruction s self fs.length last pc i m.tick) := by
  unfold runInstruction
  split
  case h_1 hop =>
    cases hplan : m.tick.plan s pc i with
    | error e =>
      refine fun _ => ⟨fs, Ends.fail fetch hunder ?_⟩
      rw [step_of_ofByte? hop, execute_iterate, iterate_eq, tick_withFrames, plan_withFrames, hplan]
      rfl
    | ok f =>
      exact simulates_runIteration fetch hunder hop hplan fun cursor results =>
        hself { f with cursor, results }
  case h_2 hop =>
    have hstep := step_strayCollect (s := s) (m := m.tick) hop htop hpc
    exact fun _ => ⟨fs, Ends.fail fetch hunder hstep⟩
  case h_3 hiterate hcollect =>
    have hstep : (m.tick.withFrames fs).step s pc i =
        (m.tick.step s pc i).map fun r => (r.1, r.2.withFrames fs) :=
      step_withFrames hiterate hcollect
    cases hr : m.tick.step s pc i with
    | error e =>
      rw [hr] at hstep
      exact fun _ => ⟨fs, Ends.fail fetch hunder hstep⟩
    | ok r =>
      rw [hr] at hstep
      exact Steps.single ⟨fetch, hunder, hstep⟩

/-- A range is left to a place outside of it, or outside of the code. -/
theorem out_of_runRange {fuel depth first left : Nat} {m' : Machine}
    (h : runRange s fuel depth first last pc m = .ok (left, m')) :
    left < first ∨ last ≤ left ∨ s.packet.code[left]? = none := by
  induction fuel generalizing pc m with
  | zero => cases h
  | succ fuel ih =>
    rw [runRange] at h
    by_cases hout : pc < first ∨ last ≤ pc
    · rw [if_pos hout] at h
      cases h
      exact hout.imp_right .inl
    rw [if_neg hout] at h
    cases fetch : s.packet.code[pc]? with
    | none =>
      simp only [fetch] at h
      cases h
      exact .inr (.inr fetch)
    | some i =>
      simp only [fetch] at h
      obtain ⟨m₁, -, h⟩ := bind_eq_ok.1 h
      obtain ⟨⟨next, m₂⟩, -, h⟩ := bind_eq_ok.1 h
      exact ih h

/-- Whatever the recursive interpreter answers on a range, the machine with the stack does. -/
theorem simulates_runRange (s : Setting) (fuel : Nat) (fs : List Frame) (first last pc : Nat)
    (m : Machine) (htop : ClosesAt last fs) :
    Simulates s pc (m.withFrames fs) fs (runRange s fuel fs.length first last pc m) := by
  induction fuel generalizing fs first last pc m with
  | zero => exact fun ho => absurd rfl ho
  | succ fuel ih =>
    rw [runRange]
    by_cases hout : pc < first ∨ last ≤ pc
    · rw [if_pos hout]
      exact Steps.refl ..
    rw [if_neg hout]
    cases fetch : s.packet.code[pc]? with
    | none => exact Steps.refl ..
    | some i =>
      rcases charge_cases s m with ⟨hover, hcharge⟩ | ⟨hunder, hcharge⟩
      · simp only [hcharge]
        exact fun _ => ⟨fs, Ends.spent fetch hover⟩
      simp only [hcharge]
      refine Simulates.andThen (simulates_runInstruction fetch hunder htop (by omega)
        fun f m => ?_) fun next m₁ => ih fs first last next m₁ htop
      exact ih (f :: fs) f.bodyStart f.collectAt f.bodyStart m rfl

end TagMachine.Machine
