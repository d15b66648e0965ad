import TagMachine.Proofs.Iteration.Recursive

set_option autoImplicit false

/-! # Well-bracketed code

In well-bracketed code the loops are disjoint or nested and no jump crosses the border of a loop.
Then a run never leaves the range of a body except to its `collect` (`Level`), so the recursive
interpreter never gives up: it ends whenever the machine with the stack ends, in the same way
(`settled_runRange`).
-/

namespace TagMachine

variable {code : Array Instruction} {i : Instruction}

/-- The place of the `collect` of the loop that starts at a place. -/
def loopEnd? (code : Array Instruction) (pc : Nat) : Option Nat :=
  (code[pc]?.filter fun i => Opcode.ofByte? i.opcode == some .iterate).map fun i =>
    pc + 1 + i.op2.toNat

def jumpTarget? (code : Array Instruction) (pc : Nat) : Option Nat :=
  (code[pc]?.filter fun i => (Opcode.ofByte? i.opcode).any Opcode.isJump).map fun i =>
    i.dest.toNat

/-- Loops are closed, disjoint or nested, every `collect` closes a loop (one only, since no two
nested loops end together), and no jump crosses the border of a loop: a jump inside a body stays in
it or goes to its `collect`, and no jump goes into the inside of a loop that it is not in. -/
@[mk_iff] structure WellBracketed (code : Array Instruction) : Prop where
  closed : ∀ p < code.size, ∀ c ∈ loopEnd? code p, (Machine.closing? code c).isSome
  nested : ∀ p < code.size, ∀ c ∈ loopEnd? code p, ∀ q < code.size, ∀ d ∈ loopEnd? code q,
    p < q → c < q ∨ d < c
  collects : ∀ c < code.size, (Machine.closing? code c).isSome → ∃ p < c, loopEnd? code p = some c
  jumps : ∀ j < code.size, ∀ t ∈ jumpTarget? code j, ∀ p < code.size, ∀ c ∈ loopEnd? code p,
    if p < j ∧ j < c then p < t ∧ t ≤ c else ¬(p < t ∧ t < c)

instance (code : Array Instruction) : Decidable (WellBracketed code) :=
  decidable_of_iff' _ (wellBracketed_iff code)

theorem loopEnd?_eq_some {pc c : Nat} (h : loopEnd? code pc = some c) :
    pc < code.size ∧ pc < c := by
  obtain ⟨i, hi, rfl⟩ := Option.map_eq_some_iff.1 h
  exact ⟨(Array.getElem?_eq_some_iff.1 (Option.filter_eq_some_iff.1 hi).1).1, by omega⟩

theorem loopEnd?_of_fetch {pc : Nat}
    (fetch : code[pc]? = some i) (hop : Opcode.ofByte? i.opcode = some .iterate) :
    loopEnd? code pc = some (pc + 1 + i.op2.toNat) := by
  simp [loopEnd?, fetch, hop, Option.filter]

/-- At the start of a loop stands an instruction that opens it. -/
theorem ofByte?_of_loopEnd? {pc c : Nat}
    (h : loopEnd? code pc = some c) (fetch : code[pc]? = some i) :
    Opcode.ofByte? i.opcode = some .iterate := by
  obtain ⟨j, hj, -⟩ := Option.map_eq_some_iff.1 h
  obtain ⟨hfetch, hop⟩ := Option.filter_eq_some_iff.1 hj
  rw [fetch] at hfetch
  rw [Option.some.inj hfetch]
  exact eq_of_beq hop

theorem jumpTarget?_of_fetch {pc : Nat} {op : Opcode}
    (fetch : code[pc]? = some i) (hop : Opcode.ofByte? i.opcode = some op)
    (hjump : op.isJump = true) : jumpTarget? code pc = some i.dest.toNat := by
  simp [jumpTarget?, fetch, hop, hjump, Option.filter]

/-! ## Ranges and their levels -/

/-- A range is the whole code, from place 0 on, or the body of a loop. A place is at its level when
it is in the range, or at its end, and is inside of no loop that the range is not inside of. -/
structure Level (code : Array Instruction) (first last pc : Nat) : Prop where
  last_le : last ≤ code.size
  own : 0 < first → loopEnd? code (first - 1) = some last
  le : first ≤ pc
  le_last : 0 < first → pc ≤ last
  outer : ∀ p c, loopEnd? code p = some c → p < pc → pc < c → p < first ∧ last ≤ c

namespace Level

variable {first last pc : Nat}

theorem program (code : Array Instruction) : Level code 0 code.size 0 :=
  ⟨le_rfl, by omega, le_rfl, by omega, by omega⟩

theorem lt_size (h : Level code first last pc) (hpc : pc < last) : pc < code.size :=
  hpc.trans_le h.last_le

/-- The next place, behind an instruction that starts no loop. -/
theorem succ (h : Level code first last pc) (hpc : pc < last) (fetch : code[pc]? = some i)
    (hop : Opcode.ofByte? i.opcode ≠ some .iterate) : Level code first last (pc + 1) := by
  refine ⟨h.last_le, h.own, h.le.trans (Nat.le_succ pc), fun _ => hpc, fun p c hloop hp hc => ?_⟩
  have hne : p ≠ pc := by
    rintro rfl
    exact hop (ofByte?_of_loopEnd? hloop fetch)
  exact h.outer p c hloop (by omega) (by omega)

/-- The target of a jump. -/
theorem jump (hw : WellBracketed code) (h : Level code first last pc) (hpc : pc < last) {t : Nat}
    (ht : jumpTarget? code pc = some t) : Level code first last t := by
  have hcross := hw.jumps pc (h.lt_size hpc) t ht
  have hown : 0 < first → first - 1 < t ∧ t ≤ last := fun hfirst => by
    have hloop := h.own hfirst
    have hle := h.le
    have := hcross (first - 1) (loopEnd?_eq_some hloop).1 last hloop
    rwa [if_pos ⟨by omega, hpc⟩] at this
  refine ⟨h.last_le, h.own, ?_, fun hfirst => (hown hfirst).2, fun p c hloop hp hc => ?_⟩
  · rcases Nat.eq_zero_or_pos first with h0 | hfirst
    · omega
    · have := (hown hfirst).1
      omega
  · have hborder := hcross p (loopEnd?_eq_some hloop).1 c hloop
    by_cases hin : p < pc ∧ pc < c
    · exact h.outer p c hloop hin.1 hin.2
    · rw [if_neg hin] at hborder
      exact absurd ⟨hp, hc⟩ hborder

/-- The place behind a loop that starts at the level. -/
theorem behind (hw : WellBracketed code) (h : Level code first last pc) (hpc : pc < last) {c : Nat}
    (hloop : loopEnd? code pc = some c) : Level code first last (c + 1) := by
  have hsize := h.lt_size hpc
  have hlt := (loopEnd?_eq_some hloop).2
  have hle := h.le
  obtain ⟨close, hclose⟩ := Option.isSome_iff_exists.1 (hw.closed pc hsize c hloop)
  obtain ⟨fetch, hop⟩ := Machine.ofByte?_of_closing? hclose
  refine ⟨h.last_le, h.own, by omega, fun hfirst => ?_, fun p d hp hlow hhigh => ?_⟩
  · -- the loop is inside of the range's own loop
    have hown := h.own hfirst
    have := hw.nested (first - 1) (loopEnd?_eq_some hown).1 last hown pc hsize c hloop (by omega)
    omega
  · have hp_size := (loopEnd?_eq_some hp).1
    have hne : p ≠ c := by
      rintro rfl
      rw [ofByte?_of_loopEnd? hp fetch] at hop
      cases hop
    rcases Nat.lt_trichotomy p pc with hlt' | rfl | hgt
    · have := hw.nested p hp_size d hp pc hsize c hloop hlt'
      exact h.outer p d hp hlt' (by omega)
    · rw [hp] at hloop
      have := Option.some.inj hloop
      omega
    · have := hw.nested pc hsize c hloop p hp_size d hp hgt
      omega

/-- The body of a loop, from its first place on. -/
theorem body (hw : WellBracketed code) {c : Nat} (hloop : loopEnd? code pc = some c) :
    Level code (pc + 1) c (pc + 1) := by
  obtain ⟨hsize, hlt⟩ := loopEnd?_eq_some hloop
  obtain ⟨close, hclose⟩ := Option.isSome_iff_exists.1 (hw.closed pc hsize c hloop)
  have hc := (Array.getElem?_eq_some_iff.1 (Machine.ofByte?_of_closing? hclose).1).1
  refine ⟨hc.le, fun _ => hloop, le_rfl, fun _ => hlt, fun p d hp hlow hhigh => ?_⟩
  rcases Nat.lt_or_ge p pc with hlt' | hge
  · have := hw.nested p (loopEnd?_eq_some hp).1 d hp pc hsize c hloop hlt'
    omega
  · obtain rfl : p = pc := by omega
    rw [hp] at hloop
    have := Option.some.inj hloop
    omega

end Level

namespace Machine

/-! ## The recursive interpreter does not give up -/

/-- The answer on a range is not `unfinished`, and a body is left at its `collect`. -/
def Settled (first last : Nat) : Attempt (Nat × Machine) → Prop
  | .ok (left, _) => 0 < first → left = last
  | .error (o, _) => o ≠ .unfinished

/-- A body is not given up on where its run, however far the iteration is, ends in at most `n`
rounds. -/
def SettledWithin (s : Setting) (n : Nat) (f : Frame) (fs : List Frame)
    (body : Machine → Attempt (Nat × Machine)) : Prop :=
  ∀ k ≤ n, ∀ (cursor : Nat) (results : Array Value) (m : Machine),
    (runFrom s k f.bodyStart (m.withFrames ({ f with cursor, results } :: fs))).1 ≠ .unfinished →
      Settled f.bodyStart f.collectAt (body m)

section Elements

variable {s : Setting} {f : Frame} {fs : List Frame} {close : Instruction}
  {body : Machine → Attempt (Nat × Machine)}

/-- One element: the run of its body ends for good, or comes to the `collect` within the budget. -/
theorem settled_runElement {g : Frame} {n : Nat} {results : Array Value} {m m' : Machine}
    {item : Value} {o : Outcome} {k : Array Value × Machine → Attempt (Array Value × Machine)}
    (hstart : 0 < f.bodyStart)
    (hbody : Simulates s f.bodyStart ((m.seed f item).withFrames (g :: fs)) (g :: fs)
      (body (m.seed f item)))
    (hsettled : Settled f.bodyStart f.collectAt (body (m.seed f item)))
    (hrun : (runFrom s n f.bodyStart ((m.seed f item).withFrames (g :: fs))).1 ≠ .unfinished)
    (herror : runElement s f body (results, m) item >>= k = .error (o, m')) :
    o ≠ .unfinished ∨ ∃ m₁ : Machine, m₁.tick.overBudget s.limits = false ∧
      k (m₁.tick.gather { f with results }, m₁.tick) = .error (o, m') ∧
      ∃ j ≤ n, (runFrom s j f.collectAt (m₁.withFrames (g :: fs))).1 ≠ .unfinished := by
  unfold runElement at herror
  cases hr : body (m.seed f item) with
  | error r =>
    rw [hr] at hsettled herror
    cases herror
    exact .inl hsettled
  | ok r =>
    obtain ⟨left, m₁⟩ := r
    rw [hr] at hbody hsettled herror
    obtain rfl : left = f.collectAt := hsettled hstart
    have harrive : Steps s f.bodyStart ((m.seed f item).withFrames (g :: fs)) f.collectAt
        (m₁.withFrames (g :: fs)) := hbody
    rcases charge_cases s m₁ with ⟨_, hcharge⟩ | ⟨hunder, hcharge⟩ <;>
      simp only [bind, Except.bind, ne_eq, not_true_eq_false, if_false, hcharge] at herror
    · cases herror
      exact .inl nofun
    · exact .inr ⟨m₁, hunder, herror, harrive.remaining_rounds hrun⟩

/-- An iteration is not given up when the machine with the stack ends in `n` rounds, and the body is
not given up when it ends in at most as many. -/
theorem settled_elements {n : Nat} (hclose : closing? s.packet.code f.collectAt = some close)
    (hstart : 0 < f.bodyStart) (hbody : Simulated s f fs body)
    (hsettled : SettledWithin s n f fs body)
    (rest : List Value) (item : Value) (cursor : Nat) (results : Array Value) (m : Machine)
    (hitems : f.items.toList.drop cursor = item :: rest)
    (hrun : (runFrom s n f.bodyStart
      ((m.seed f item).withFrames ({ f with cursor, results } :: fs))).1 ≠ .unfinished)
    {o : Outcome} {m' : Machine}
    (herror : (item :: rest).foldlM (runElement s f body) (results, m) = .error (o, m')) :
    o ≠ .unfinished := by
  induction rest generalizing n item cursor results m with
  | nil =>
    rw [List.foldlM_cons] at herror
    rcases settled_runElement hstart (hbody cursor results _)
        (hsettled n le_rfl cursor results _ hrun) hrun herror with ho | ⟨m₁, -, hdone, -⟩
    · exact ho
    · cases hdone
  | cons next rest ih =>
    rw [List.foldlM_cons] at herror
    rcases settled_runElement hstart (hbody cursor results _)
        (hsettled n le_rfl cursor results _ hrun) hrun herror with
      ho | ⟨m₁, hunder, hmore, k, hk, hrun₁⟩
    · exact ho
    · obtain ⟨hnext, hrest⟩ := getElem?_of_drop hitems
      cases k with
      | zero => exact absurd rfl hrun₁
      | succ k =>
        rw [runFrom_go (dispatch_next hclose hnext hunder)] at hrun₁
        exact ih (fun j hj => hsettled j (by omega)) next (cursor + 1) _ m₁.tick hrest hrun₁ hmore

end Elements

/-! ## Instructions and ranges -/

section Ranges

variable {s : Setting} {n pc first last : Nat} {m : Machine} {fs : List Frame}
  {self : Nat → Nat → Nat → Nat → Machine → Attempt (Nat × Machine)}

/-- An instruction keeps the level of its range. -/
theorem level_of_advance (hw : WellBracketed s.packet.code) (fetch : s.packet.code[pc]? = some i)
    (hpc : pc < last) (hlevel : Level s.packet.code first last pc)
    (hiterate : Opcode.ofByte? i.opcode ≠ some .iterate)
    (hcollect : Opcode.ofByte? i.opcode ≠ some .collect) {next : Nat} {m' : Machine}
    (h : Advance s pc i m next m') : Level s.packet.code first last next := by
  cases h with
  | plain => exact hlevel.succ hpc fetch hiterate
  | @jump op taken hop hjump =>
    cases taken with
    | false => exact hlevel.succ hpc fetch hiterate
    | true =>
      have hisJump : op.isJump = true := by
        rw [isJump_iff_jumps? m op i, hjump]
        rfl
      exact hlevel.jump hw hpc (jumpTarget?_of_fetch fetch hop hisJump)
  | skip hop => exact absurd hop hiterate
  | enter hop => exact absurd hop hiterate
  | again hop => exact absurd hop hcollect
  | leave hop => exact absurd hop hcollect

/-- What the answer on an instruction has to be for a run that ends in `n` more rounds: the run ends
for good, or goes on at the level. -/
def Continues (s : Setting) (n first last : Nat) (fs : List Frame) :
    Attempt (Nat × Machine) → Prop
  | .ok (next, m') => Level s.packet.code first last next ∧
      ∃ k ≤ n, (runFrom s k next (m'.withFrames fs)).1 ≠ .unfinished
  | .error (o, _) => o ≠ .unfinished

theorem continues_runIteration {f : Frame} {body : Machine → Attempt (Nat × Machine)}
    (hw : WellBracketed s.packet.code) (fetch : s.packet.code[pc]? = some i)
    (hunder : m.tick.overBudget s.limits = false) (hpc : pc < last)
    (hlevel : Level s.packet.code first last pc)
    (hop : Opcode.ofByte? i.opcode = some .iterate) (hplan : m.tick.plan s pc i = .ok f)
    (hbody : Simulated s f fs body) (hsettled : SettledWithin s n f fs body)
    (hrun : (runFrom s (n + 1) pc (m.withFrames fs)).1 ≠ .unfinished) :
    Continues s n first last fs (runIteration s fs.length f body m.tick) := by
  have hf := planned_of_plan hplan
  have hbehind : Level s.packet.code first last (f.collectAt + 1) :=
    hlevel.behind hw hpc (hf.collectAt ▸ loopEnd?_of_fetch fetch hop)
  cases hitems : f.items.toList with
  | nil =>
    rw [runIteration_nil hitems]
    rw [runFrom_go (dispatch_skip fetch hunder hop hplan hitems)] at hrun
    exact ⟨hbehind, n, le_rfl, hrun⟩
  | cons item rest =>
    rw [runIteration_cons hitems]
    cases hdepth : depthAllowed s.limits fs.length with
    | error e => exact nofun
    | ok _ =>
      obtain ⟨_, _, close, _, _, hclose, _⟩ := hf.operands
      rw [runFrom_go (dispatch_enter fetch hunder hop hplan hitems hdepth)] at hrun
      have hstart : 0 < f.bodyStart := by
        rw [hf.bodyStart]
        exact Nat.succ_pos pc
      have hsim := simulates_elements hclose hbody rest item 0 #[] m.tick hitems
      cases hr : (item :: rest).foldlM (runElement s f body) (#[], m.tick) with
      | error r =>
        exact settled_elements hclose hstart hbody hsettled rest item 0 #[] m.tick hitems
          hrun hr
      | ok acc =>
        rw [hr] at hsim
        exact ⟨hbehind, Steps.remaining_rounds hsim hrun⟩

theorem continues_runInstruction (hw : WellBracketed s.packet.code)
    (fetch : s.packet.code[pc]? = some i) (hunder : m.tick.overBudget s.limits = false)
    (hpc : pc < last) (hlevel : Level s.packet.code first last pc)
    (hself : ∀ (f : Frame) (m : Machine), Simulates s f.bodyStart (m.withFrames (f :: fs))
      (f :: fs) (self (fs.length + 1) f.bodyStart f.collectAt f.bodyStart m))
    (hsettled : ∀ k ≤ n, ∀ (f : Frame) (m : Machine),
      Level s.packet.code f.bodyStart f.collectAt f.bodyStart →
      (runFrom s k f.bodyStart (m.withFrames (f :: fs))).1 ≠ .unfinished →
        Settled f.bodyStart f.collectAt
          (self (fs.length + 1) f.bodyStart f.collectAt f.bodyStart m))
    (hrun : (runFrom s (n + 1) pc (m.withFrames fs)).1 ≠ .unfinished) :
    Continues s n first last fs (runInstruction s self fs.length last pc i m.tick) := by
  unfold runInstruction
  split
  case h_1 hop =>
    cases hplan : m.tick.plan s pc i with
    | error e => exact nofun
    | ok f =>
      have hf := planned_of_plan hplan
      have hlevel' : Level s.packet.code f.bodyStart f.collectAt f.bodyStart := by
        rw [hf.bodyStart, hf.collectAt]
        exact Level.body hw (loopEnd?_of_fetch fetch hop)
      exact continues_runIteration hw fetch hunder hpc hlevel hop hplan
        (fun cursor results => hself { f with cursor, results })
        (fun k hk cursor results m => hsettled k hk { f with cursor, results } m hlevel') hrun
  case h_2 hop => exact nofun
  case h_3 hiterate hcollect =>
    cases hr : m.tick.step s pc i with
    | error e => exact nofun
    | ok r =>
      have hgo : Dispatch s pc i (m.withFrames fs) r.1 (r.2.withFrames fs) := by
        refine ⟨fetch, hunder, ?_⟩
        rw [tick_withFrames, step_withFrames hiterate hcollect, hr]
        rfl
      rw [runFrom_go hgo] at hrun
      exact ⟨level_of_advance hw fetch hpc hlevel hiterate hcollect (advance_of_step hr), n,
        le_rfl, hrun⟩

/-- In well-bracketed code the recursive interpreter does not give up on a range with as much fuel
as the machine with the stack takes rounds to end. -/
theorem settled_runRange (hw : WellBracketed s.packet.code) (fuel : Nat) (hfuel : n ≤ fuel)
    (htop : ClosesAt last fs) (hlevel : Level s.packet.code first last pc)
    (hrun : (runFrom s n pc (m.withFrames fs)).1 ≠ .unfinished) :
    Settled first last (runRange s fuel fs.length first last pc m) := by
  induction n using Nat.strongRecOn generalizing fuel fs first last pc m with
  | _ n ih =>
    obtain ⟨n, rfl⟩ : ∃ k, n = k + 1 := by
      cases n with
      | zero => exact absurd rfl hrun
      | succ k => exact ⟨k, rfl⟩
    obtain ⟨fuel, rfl⟩ : ∃ k, fuel = k + 1 := ⟨fuel - 1, by omega⟩
    rw [runRange]
    by_cases hout : pc < first ∨ last ≤ pc
    · rw [if_pos hout]
      intro hfirst
      have hle := hlevel.le
      have hle_last := hlevel.le_last hfirst
      omega
    rw [if_neg hout]
    have hpc : pc < last := by omega
    obtain ⟨i, fetch⟩ : ∃ i, s.packet.code[pc]? = some i :=
      ⟨_, Array.getElem?_eq_getElem (hlevel.lt_size hpc)⟩
    rw [fetch]
    rcases charge_cases s m with ⟨_, hcharge⟩ | ⟨hunder, hcharge⟩
    · simp only [hcharge]
      intro hunfinished
      cases hunfinished
    simp only [hcharge]
    have hcontinues : Continues s n first last fs
        (runInstruction s (runRange s fuel) fs.length last pc i m.tick) :=
      continues_runInstruction hw fetch hunder hpc hlevel
        (fun f m => simulates_runRange s fuel (f :: fs) f.bodyStart f.collectAt f.bodyStart m rfl)
        (fun k hk f m hlevel' => ih k (by omega) fuel (by omega) rfl hlevel') hrun
    change Settled first last (runInstruction s (runRange s fuel) fs.length last pc i m.tick >>=
      fun r => runRange s fuel fs.length first last r.1 r.2)
    cases hr : runInstruction s (runRange s fuel) fs.length last pc i m.tick with
    | error r =>
      rw [hr] at hcontinues
      exact hcontinues
    | ok r =>
      rw [hr] at hcontinues
      obtain ⟨hlevel', k, hk, hrun'⟩ := hcontinues
      exact ih k (by omega) fuel (by omega) htop hlevel' hrun'

end Ranges

/-! ## The two interpreters agree -/

/-- An answer of the recursive interpreter on a program is an outcome of the machine with the
stack. -/
theorem ends_of_runNested {s : Setting} {fuel : Nat} {m m' : Machine} {o : Outcome}
    (hm : m.frames = []) (ho : o ≠ .unfinished) (h : runNested s fuel m = (o, m')) :
    ∃ m₁, Ends s 0 m o m₁ ∧ m₁.withFrames [] = m' := by
  have hsim := simulates_runRange s fuel [] 0 s.packet.code.size 0 m trivial
  rw [← hm, withFrames_self, hm] at hsim
  unfold runNested at h
  cases hr : runRange s fuel 0 0 s.packet.code.size 0 m with
  | ok r =>
    obtain ⟨left, m₁⟩ := r
    rw [List.length_nil, hr] at hsim
    rw [hr] at h
    cases h
    have hout : s.packet.code[left]? = none := by
      rcases out_of_runRange hr with hlt | hle | hnone
      · omega
      · exact Array.getElem?_eq_none_iff.2 hle
      · exact hnone
    exact ⟨m₁.withFrames [], Steps.ends hsim (Ends.out hout), rfl⟩
  | error r =>
    rw [List.length_nil, hr] at hsim
    rw [hr] at h
    cases h
    obtain ⟨gs, hend⟩ := hsim ho
    exact ⟨r.2.withFrames gs, hend, rfl⟩

/-- In well-bracketed code, from a machine with no open iteration, the machine with the stack and
the recursive interpreter end in the same outcomes with the same registers, tags, store and count of
instructions; one of them runs forever only if the other does. -/
theorem runNested_iff_runFrom (s : Setting) (hw : WellBracketed s.packet.code) (m : Machine)
    (hm : m.frames = []) (o : Outcome) (ho : o ≠ .unfinished) (m' : Machine) :
    (∃ fuel, runNested s fuel m = (o, m')) ↔
      ∃ n m₁, runFrom s n 0 m = (o, m₁) ∧ m₁.withFrames [] = m' := by
  constructor
  · rintro ⟨fuel, h⟩
    obtain ⟨m₁, ⟨-, n, hn⟩, hm₁⟩ := ends_of_runNested hm ho h
    exact ⟨n, m₁, hn, hm₁⟩
  · rintro ⟨n, m₁, hn, rfl⟩
    have hself : m.withFrames [] = m := by rw [← hm, withFrames_self]
    have hsettled : Settled 0 s.packet.code.size
        (runRange s n ([] : List Frame).length 0 s.packet.code.size 0 m) := by
      refine settled_runRange hw n le_rfl trivial (Level.program _) ?_
      rw [hself, hn]
      exact ho
    -- the answer is an outcome, so by what was shown above it is the outcome of the run
    obtain ⟨o', m₂, h, ho'⟩ : ∃ o' m₂, runNested s n m = (o', m₂) ∧ o' ≠ .unfinished := by
      unfold runNested
      cases hr : runRange s n 0 0 s.packet.code.size 0 m with
      | ok r => exact ⟨_, _, rfl, nofun⟩
      | error r =>
        rw [List.length_nil, hr] at hsettled
        exact ⟨_, _, rfl, hsettled⟩
    obtain ⟨m₃, hend, rfl⟩ := ends_of_runNested hm ho' h
    obtain ⟨rfl, rfl⟩ := hend.unique ⟨ho, n, hn⟩
    exact ⟨n, h⟩

/-- A loop inside a loop: the outer body appends to the list that both iterate, and the inner one
jumps to its `collect`. -/
def nestedLoops : Setting where
  packet := {
    contract := { size := 7 }
    constants := #[.integer 2]
    code := #[
      Opcode.newList.on 0 0 0 0,
      Opcode.loadConstant.on 0 1 0 0,
      Opcode.append.on 0 0 1 0,
      Opcode.append.on 0 0 1 0,
      Opcode.iterate.on 0 2 0 5,
      Opcode.append.on 0 0 2 0,
      Opcode.iterate.on 1 3 0 2,
      (Opcode.compare .lt).on 0 4 3 1,
      Opcode.jumpIfNot.on 0 9 4 0,
      Opcode.collect.on 0 5 4 3,
      Opcode.collect.on 0 6 5 5] }
  functions := .none
  timestamp := ""

theorem nestedLoops_finish_recursively :
    WellBracketed nestedLoops.packet.code ∧ (start nestedLoops.packet {}).frames = [] ∧
      ∃ fuel, runNested nestedLoops fuel (start nestedLoops.packet {}) =
        (.finished, (runFrom nestedLoops 40 0 (start nestedLoops.packet {})).2) := by
  have hw : WellBracketed nestedLoops.packet.code := by decide
  exact ⟨hw, rfl, (runNested_iff_runFrom nestedLoops hw _ rfl .finished nofun _).2
    ⟨40, _, rfl, rfl⟩⟩

end Machine

end TagMachine
