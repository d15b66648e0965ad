import Mathlib.Data.DFinsupp.WellFounded
import TagMachine.Proofs.Machine.Run

set_option autoImplicit false

/-! # Runs without backward jumps end

If every jump goes forward, the only way back is that of a `collect` to the start of its body. No
bracketing is assumed: iterations may overlap and may be left by a jump.

The open iterations always start at different places, further out at smaller ones, and none of them
behind the current place (`Stacked`). So each place of the code has at most one open iteration, and
a state is measured place by place (`remaining`): an open iteration counts its remaining elements, a
place still ahead counts more than any iteration that may be opened there, and a place passed counts
nothing. A round leaves the measure of the places before some place as it is and makes that one
smaller (`rank_lt_of_advance`), whatever lists were appended to in the meantime.
-/

namespace TagMachine

/-- Every jump goes forward. -/
def ForwardJumps (code : Array Instruction) : Prop :=
  ∀ pc < code.size, ∀ i ∈ code[pc]?, ∀ op ∈ Opcode.ofByte? i.opcode,
    op.isJump = true → pc < i.dest.toNat

instance (code : Array Instruction) : Decidable (ForwardJumps code) :=
  inferInstanceAs (Decidable (∀ pc < code.size, ∀ i ∈ code[pc]?, ∀ op ∈ Opcode.ofByte? i.opcode,
    op.isJump = true → pc < i.dest.toNat))

namespace Machine

variable {pc next p size : Nat} {fs : List Frame} {f : Frame} {s : Setting}

/-! ## The stack of iterations -/

/-- The open iterations start at different places, none of them behind the current one, and each
has an element left. -/
structure Stacked (pc : Nat) (fs : List Frame) : Prop where
  sorted : fs.Pairwise fun inner outer => outer.bodyStart < inner.bodyStart
  pos : ∀ f ∈ fs, 0 < f.bodyStart
  le : ∀ f ∈ fs, f.bodyStart ≤ pc
  span : ∀ f ∈ fs, f.bodyStart ≤ f.collectAt
  items : ∀ f ∈ fs, f.cursor < f.items.size

theorem Stacked.nil (pc : Nat) : Stacked pc [] := by
  constructor <;> simp

theorem Stacked.mono (h : Stacked pc fs) (hle : pc ≤ next) : Stacked next fs :=
  ⟨h.sorted, h.pos, fun f hf => (h.le f hf).trans hle, h.span, h.items⟩

theorem Stacked.cons (h : Stacked pc fs)
    (hstart : f.bodyStart = pc + 1) (hspan : f.bodyStart ≤ f.collectAt)
    (hitems : f.cursor < f.items.size) : Stacked f.bodyStart (f :: fs) := by
  have hlt : ∀ g ∈ fs, g.bodyStart < f.bodyStart := fun g hg => by
    have := h.le g hg
    omega
  constructor
  · exact List.pairwise_cons.2 ⟨hlt, h.sorted⟩
  · exact List.forall_mem_cons.2 ⟨by omega, h.pos⟩
  · exact List.forall_mem_cons.2 ⟨le_rfl, fun g hg => (hlt g hg).le⟩
  · exact List.forall_mem_cons.2 ⟨hspan, h.span⟩
  · exact List.forall_mem_cons.2 ⟨hitems, h.items⟩

theorem Stacked.tail (h : Stacked pc (f :: fs)) : Stacked pc fs :=
  ⟨(List.pairwise_cons.1 h.sorted).2, fun g hg => h.pos g (.tail f hg),
    fun g hg => h.le g (.tail f hg), fun g hg => h.span g (.tail f hg),
    fun g hg => h.items g (.tail f hg)⟩

/-- The iterations further out start before the innermost one. -/
theorem Stacked.outer_lt (h : Stacked pc (f :: fs)) : ∀ g ∈ fs, g.bodyStart < f.bodyStart :=
  (List.pairwise_cons.1 h.sorted).1

/-! ## The measure -/

/-- What is left to do at a place of the code: the elements of the iteration open there, nothing
at a place passed, and more than anything at a place ahead. -/
def remaining (pc : Nat) : List Frame → Nat → WithTop Nat
  | [], p => if pc ≤ p then ⊤ else 0
  | f :: fs, p =>
    if f.bodyStart = p + 1 then ((f.items.size - f.cursor : Nat) : WithTop Nat)
    else remaining pc fs p

theorem remaining_of_ne (h : ∀ f ∈ fs, f.bodyStart ≠ p + 1) :
    remaining pc fs p = if pc ≤ p then ⊤ else 0 := by
  induction fs with
  | nil => rfl
  | cons f fs ih =>
    obtain ⟨hf, hfs⟩ := List.forall_mem_cons.1 h
    rw [remaining, if_neg hf, ih hfs]

/-- At a place already passed it does not matter how far the run has come. -/
theorem remaining_of_lt (fs : List Frame) (h : p < pc) (h' : p < next) :
    remaining pc fs p = remaining next fs p := by
  induction fs with
  | nil => rw [remaining, remaining, if_neg (by omega), if_neg (by omega)]
  | cons f fs ih => rw [remaining, remaining, ih]

/-- The measures of all places of a code, compared from the first place on. -/
def rank (size pc : Nat) (fs : List Frame) : Lex (Fin size → WithTop Nat) :=
  toLex fun p => remaining pc fs p

theorem rank_lt {gs : List Frame} (hp : p < size)
    (below : ∀ q < p, remaining next gs q = remaining pc fs q)
    (here : remaining next gs p < remaining pc fs p) : rank size next gs < rank size pc fs :=
  ⟨⟨p, hp⟩, fun q hq => below q hq, here⟩

/-- Going forward with the same open iterations. -/
theorem rank_lt_of_forward (h : Stacked pc fs)
    (hpc : pc < size) (hnext : pc < next) : rank size next fs < rank size pc fs := by
  have hne : ∀ f ∈ fs, f.bodyStart ≠ pc + 1 := fun f hf => by
    have := h.le f hf
    omega
  refine rank_lt hpc (fun q hq => remaining_of_lt fs (by omega) hq) ?_
  rw [remaining_of_ne hne, remaining_of_ne hne, if_pos le_rfl, if_neg (by omega)]
  exact WithTop.coe_lt_top 0

/-- Opening an iteration at the current place. -/
theorem rank_lt_of_cons (h : Stacked pc fs) (hpc : pc < size) (hstart : f.bodyStart = pc + 1) :
    rank size f.bodyStart (f :: fs) < rank size pc fs := by
  have hne : ∀ g ∈ fs, g.bodyStart ≠ pc + 1 := fun g hg => by
    have := h.le g hg
    omega
  refine rank_lt hpc (fun q hq => ?_) ?_
  · rw [remaining, if_neg (by omega)]
    exact remaining_of_lt fs (by omega) hq
  · rw [remaining, if_pos hstart, remaining_of_ne hne, if_pos le_rfl]
    exact WithTop.coe_lt_top _

/-- The innermost iteration going on with its next element. -/
theorem rank_lt_of_again {g : Frame}
    (h : Stacked pc (f :: fs)) (hpc : pc < size) (hstart : g.bodyStart = f.bodyStart)
    (hitems : g.items.size - g.cursor < f.items.size - f.cursor) :
    rank size f.bodyStart (g :: fs) < rank size pc (f :: fs) := by
  have hpos := h.pos f (.head fs)
  have hle := h.le f (.head fs)
  refine rank_lt (p := f.bodyStart - 1) (by omega) (fun q hq => ?_) ?_
  · rw [remaining, remaining, if_neg (by omega), if_neg (by omega)]
    exact remaining_of_lt fs (by omega) (by omega)
  · rw [remaining, remaining, if_pos (by omega), if_pos (by omega)]
    exact WithTop.coe_lt_coe.2 hitems

/-- The innermost iteration ending. -/
theorem rank_lt_of_leave (h : Stacked pc (f :: fs)) (hpc : pc < size) :
    rank size (pc + 1) fs < rank size pc (f :: fs) := by
  have hpos := h.pos f (.head fs)
  have hle := h.le f (.head fs)
  have hitems := h.items f (.head fs)
  refine rank_lt (p := f.bodyStart - 1) (by omega) (fun q hq => ?_) ?_
  · rw [remaining, if_neg (by omega)]
    exact remaining_of_lt fs (by omega) (by omega)
  · have hne : ∀ g ∈ fs, g.bodyStart ≠ f.bodyStart - 1 + 1 := fun g hg => by
      have := h.outer_lt g hg
      omega
    rw [remaining_of_ne hne, if_neg (by omega), remaining, if_pos (by omega)]
    have hleft : 0 < f.items.size - f.cursor := by omega
    exact_mod_cast hleft

/-! ## Rounds -/

@[simp] theorem close_frames (m : Machine) (f : Frame) (results : Array Value) :
    (m.close f results).frames = m.frames := by
  unfold close finish
  split <;> rfl

theorem apply_frames {op : Opcode} {i : Instruction} {m m' : Machine}
    (h : m.apply s op i = .ok m') : m'.frames = m.frames := by
  have hself := withFrames_apply m m.frames s op i
  rw [withFrames_self, h] at hself
  simp only [Except.map, Except.ok.injEq] at hself
  rw [hself, withFrames_frames]

/-- A round without backward jumps keeps the iterations stacked and makes the measure smaller. -/
theorem rank_lt_of_advance {i : Instruction} {m m' : Machine}
    (hcode : ForwardJumps s.packet.code) (fetch : s.packet.code[pc]? = some i)
    (hstack : Stacked pc m.frames) (h : Advance s pc i m next m') :
    Stacked next m'.frames ∧
      rank s.packet.code.size next m'.frames < rank s.packet.code.size pc m.frames := by
  have hpc : pc < s.packet.code.size := (Array.getElem?_eq_some_iff.1 fetch).1
  -- a round that keeps the open iterations goes forward
  have forward : ∀ {next : Nat}, pc < next → Stacked next m.frames ∧
      rank s.packet.code.size next m.frames < rank s.packet.code.size pc m.frames :=
    fun hnext => ⟨hstack.mono hnext.le, rank_lt_of_forward hstack hpc hnext⟩
  cases h with
  | plain _ _ happly =>
    rw [apply_frames happly]
    exact forward (Nat.lt_succ_self pc)
  | @jump op taken hop hjump =>
    apply forward
    cases taken with
    | false => exact Nat.lt_succ_self pc
    | true =>
      refine hcode pc hpc i fetch op hop ?_
      rw [isJump_iff_jumps? m op i, hjump]
      rfl
  | skip _ hplan _ =>
    rw [close_frames]
    have := (planned_of_plan hplan).collectAt
    exact forward (by omega)
  | @enter f item _ hplan hitem _ =>
    have hf := planned_of_plan hplan
    have hspan : f.bodyStart ≤ f.collectAt := by
      rw [hf.bodyStart, hf.collectAt]
      omega
    have hcursor : f.cursor < f.items.size := by
      rw [hf.cursor]
      exact (Array.getElem?_eq_some_iff.1 hitem).1
    exact ⟨hstack.cons hf.bodyStart hspan hcursor, rank_lt_of_cons hstack hpc hf.bodyStart⟩
  | @again f fs item _ hframes hcollect hitem =>
    rw [hframes] at hstack ⊢
    have hcursor : f.cursor + 1 < f.items.size := (Array.getElem?_eq_some_iff.1 hitem).1
    refine ⟨⟨?_, ?_, ?_, ?_, ?_⟩, rank_lt_of_again hstack hpc rfl (by dsimp only; omega)⟩
    · exact List.pairwise_cons.2 ⟨hstack.outer_lt, hstack.tail.sorted⟩
    · exact List.forall_mem_cons.2 ⟨hstack.pos f (.head fs), hstack.tail.pos⟩
    · exact List.forall_mem_cons.2 ⟨le_rfl, fun g hg => (hstack.outer_lt g hg).le⟩
    · exact List.forall_mem_cons.2 ⟨hstack.span f (.head fs), hstack.tail.span⟩
    · exact List.forall_mem_cons.2 ⟨hcursor, hstack.tail.items⟩
  | @leave f fs _ hframes _ _ =>
    rw [hframes] at hstack ⊢
    rw [close_frames, withFrames_frames]
    exact ⟨hstack.tail.mono (Nat.le_succ pc), rank_lt_of_leave hstack hpc⟩

/-! ## Runs -/

/-- From every state with its iterations stacked, a run without backward jumps ends. -/
theorem ends_of_stacked (hcode : ForwardJumps s.packet.code) (pc : Nat)
    (m : Machine) (hstack : Stacked pc m.frames) : ∃ o m', Ends s pc m o m' := by
  -- induction on the measure, which every round that goes on makes smaller
  induction hrank : rank s.packet.code.size pc m.frames using WellFoundedLT.induction
    generalizing pc m with
  | _ r ih =>
    subst hrank
    cases round s pc m with
    | out fetch => exact ⟨_, _, .out fetch⟩
    | spent fetch budget => exact ⟨_, _, .spent fetch budget⟩
    | fail fetch budget step => exact ⟨_, _, .fail fetch budget step⟩
    | @go i next m₁ h =>
      obtain ⟨hstack', hlt⟩ :=
        rank_lt_of_advance (m := m.tick) hcode h.fetch hstack (advance_of_step h.step)
      obtain ⟨o, m', hend⟩ := ih _ hlt next m₁ hstack' rfl
      exact ⟨o, m', .go h hend⟩

/-- A run without backward jumps, from a machine with no open iteration, takes finitely many rounds
and ends with success or an error: however many more rounds are allowed, the outcome is the same. -/
theorem forward_run_ends (s : Setting) (hcode : ForwardJumps s.packet.code) (m : Machine)
    (hframes : m.frames = []) :
    ∃ n o m', (o = .finished ∨ ∃ e, o = .failed e) ∧ ∀ k ≥ n, runFrom s k 0 m = (o, m') := by
  obtain ⟨o, m', ho, n, hn⟩ := ends_of_stacked hcode 0 m (hframes ▸ Stacked.nil 0)
  refine ⟨n, o, m', ?_, fun k hk => ?_⟩
  · cases o with
    | finished => exact .inl rfl
    | failed e => exact .inr ⟨e, rfl⟩
    | unfinished => exact absurd rfl ho
  · rw [runFrom_of_le (by rw [hn]; exact ho) hk, hn]

/-- A program whose loop appends to the list that it iterates, with a jump out of the loop. -/
def appendingLoop : Setting where
  packet := {
    contract := { size := 3 }
    constants := #[.integer 7]
    code := #[
      Opcode.newList.on 0 0 0 0,
      Opcode.loadConstant.on 0 1 0 0,
      Opcode.append.on 0 0 1 0,
      Opcode.iterate.on 0 2 0 2,
      Opcode.append.on 0 0 2 0,
      Opcode.jumpIfNothing.on 0 7 2 0,
      Opcode.collect.on 0 1 2 2] }
  functions := .none
  timestamp := ""

theorem appendingLoop_ends :
    ForwardJumps appendingLoop.packet.code ∧ (start appendingLoop.packet {}).frames = [] ∧
      ∃ n o m', (o = .finished ∨ ∃ e, o = .failed e) ∧
        ∀ k ≥ n, runFrom appendingLoop k 0 (start appendingLoop.packet {}) = (o, m') :=
  ⟨by decide, rfl, forward_run_ends appendingLoop (by decide) _ rfl⟩

end Machine

end TagMachine
