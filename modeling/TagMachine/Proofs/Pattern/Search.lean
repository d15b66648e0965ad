import TagMachine.Proofs.Pattern.Matching

set_option autoImplicit false

/-! # Searching finds matches

All runs of a program are followed at once. What is followed without taking a character is marked,
and a mark is never followed again; every run from a marked instruction that leads to the end goes
on from a thread, or from an instruction that is still to be followed and needs fewer steps
(`Closed`). So a thread leads to a match just where one of the instructions given did
(`follow_faithful`), and a search succeeds just where the pattern matches some part of the text
(`isMatch_iff`).
-/

namespace TagMachine.Pattern

section Search

variable (p : Program) (text : List Char)

/-- Some number of steps lead to the end of the program. -/
def Accepts (pc i : Nat) : Prop := ∃ n, Leads p text n pc i

/-- A thread leads to the end of the program. -/
def Threads.Accept (ts : Threads) (i : Nat) : Prop := ∃ t ∈ ts.list, Accepts p text t.pc i

/-- Runs from marked instructions go on from a thread, or need fewer steps from an instruction that
is still to be followed. -/
def Closed (i : Nat) (todo : List Nat) (ts : Threads) : Prop :=
  ∀ n pc, Leads p text n pc i → ts.seen.getD pc true = true →
    ts.Accept p text i ∨ ∃ m < n, ∃ pc' ∈ todo, Leads p text m pc' i

/-- Threads wait to take a character or have come to the end. -/
def Waits (pc : Nat) : Prop := pc = p.size ∨ ∃ s, p[pc]? = some (.take s)

end Search

/-- The number of instructions that are not marked. -/
def unmarked (seen : Array Bool) : Nat := seen.toList.countP (!·)

theorem unmarked_le (seen : Array Bool) : unmarked seen ≤ seen.size := List.countP_le_length

theorem lt_size_of_getD {seen : Array Bool} {pc : Nat} (h : seen.getD pc true = false) :
    ∃ hpc : pc < seen.size, seen[pc] = false := by
  rw [Array.getD_eq_getD_getElem?, Option.getD_eq_iff] at h
  exact Array.getElem?_eq_some_iff.1 (h.resolve_right (by simp))

theorem unmarked_mark {seen : Array Bool} {pc : Nat} (h : seen.getD pc true = false) :
    unmarked (seen.setIfInBounds pc true) + 1 = unmarked seen := by
  obtain ⟨hpc, hfalse⟩ := lt_size_of_getD h
  have hfalse' : seen.toList[pc] = false := hfalse
  have hpos : 0 < seen.toList.countP (!·) :=
    List.countP_pos_iff.2 ⟨_, List.getElem_mem hpc, by rw [hfalse']; rfl⟩
  rw [unmarked, unmarked, Array.toList_setIfInBounds, List.countP_set hpc, hfalse']
  simp only [Bool.not_false, Bool.not_true, if_true, Bool.false_eq_true, if_false]
  omega

section Follow

variable {p : Program} {text : List Char} {i : Nat}

theorem Leads.le_size {n pc : Nat} (h : Leads p text n pc i) : pc ≤ p.size := by
  cases h with
  | done => exact le_rfl
  | step first rest =>
    by_contra hout
    have hnone : p[pc]? = none := Array.getElem?_eq_none (by omega)
    cases first with
    | take inst | first inst | second inst | jump inst | look inst => cases hnone.symm.trans inst

/-! ## Following -/

section Closed

variable {todo : List Nat} {ts : Threads} {pc : Nat}

/-- A marked instruction need not be followed. -/
theorem Closed.tail (h : Closed p text i (pc :: todo) ts) (hseen : ts.seen.getD pc true = true) :
    Closed p text i todo ts := by
  intro n
  induction n using Nat.strong_induction_on with
  | _ n ih =>
    intro q hlead hq
    rcases h n q hlead hq with haccept | ⟨m, hm, pc', hmem, hlead'⟩
    · exact .inl haccept
    · rcases List.mem_cons.1 hmem with rfl | hmem
      · rcases ih m hm _ hlead' hseen with haccept | ⟨l, hl, rest⟩
        · exact .inl haccept
        · exact .inr ⟨l, hl.trans hm, rest⟩
      · exact .inr ⟨m, hm, pc', hmem, hlead'⟩

theorem getD_mark {seen : Array Bool} {q : Nat}
    (h : (seen.setIfInBounds pc true).getD q true = true) : q = pc ∨ seen.getD q true = true := by
  by_cases hq : q = pc
  · exact .inl hq
  · rw [Array.getD_eq_getD_getElem?, Array.getElem?_setIfInBounds_ne (Ne.symm hq)] at h
    exact .inr (by rwa [Array.getD_eq_getD_getElem?])

/-- An instruction that takes no character is followed to those after it. -/
theorem Closed.expand {next : List Nat} (h : Closed p text i (pc :: todo) ts)
    (hnext : ∀ n, Leads p text n pc i → ∃ m < n, ∃ q ∈ next, Leads p text m q i) :
    Closed p text i (next ++ todo) { ts with seen := ts.seen.setIfInBounds pc true } := by
  intro n q hlead hq
  have hhere : ∀ {n}, Leads p text n pc i → ∃ m < n, ∃ q ∈ next ++ todo, Leads p text m q i := by
    intro n hlead
    obtain ⟨m, hm, q, hmem, hrest⟩ := hnext n hlead
    exact ⟨m, hm, q, List.mem_append_left _ hmem, hrest⟩
  rcases getD_mark hq with rfl | hseen
  · exact .inr (hhere hlead)
  · rcases h n q hlead hseen with haccept | ⟨m, hm, pc', hmem, hlead'⟩
    · exact .inl haccept
    · rcases List.mem_cons.1 hmem with rfl | hmem
      · obtain ⟨l, hl, rest⟩ := hhere hlead'
        exact .inr ⟨l, hl.trans hm, rest⟩
      · exact .inr ⟨m, hm, pc', List.mem_append_right _ hmem, hlead'⟩

theorem accept_push {start : Nat} {seen : Array Bool} :
    Threads.Accept p text ⟨ts.list.push ⟨pc, start⟩, seen⟩ i ↔ ts.Accept p text i ∨
      Accepts p text pc i := by
  simp only [Threads.Accept, Array.mem_push]
  constructor
  · rintro ⟨t, hmem | rfl, haccept⟩
    · exact .inl ⟨t, hmem, haccept⟩
    · exact .inr haccept
  · rintro (⟨t, hmem, haccept⟩ | haccept)
    · exact ⟨t, .inl hmem, haccept⟩
    · exact ⟨_, .inr rfl, haccept⟩

/-- An instruction that takes a character becomes a thread. -/
theorem Closed.push (h : Closed p text i (pc :: todo) ts) (start : Nat) :
    Closed p text i todo ⟨ts.list.push ⟨pc, start⟩, ts.seen.setIfInBounds pc true⟩ := by
  intro n q hlead hq
  rw [accept_push]
  rcases getD_mark hq with rfl | hseen
  · exact .inl (.inr ⟨n, hlead⟩)
  · rcases h n q hlead hseen with haccept | ⟨m, hm, pc', hmem, hlead'⟩
    · exact .inl (.inl haccept)
    · rcases List.mem_cons.1 hmem with rfl | hmem
      · exact .inl (.inr ⟨m, hlead'⟩)
      · exact .inr ⟨m, hm, pc', hmem, hlead'⟩

end Closed

/-- Nothing is left to be followed. -/
structure Followed (p : Program) (text : List Char) (i : Nat) (ts : Threads) : Prop where
  size : ts.seen.size = p.size + 1
  closed : Closed p text i [] ts
  waits : ∀ t ∈ ts.list, Waits p t.pc

/-- The runs from an instruction are those from the instructions after it. -/
structure Passes (p : Program) (text : List Char) (i pc : Nat) (next : List Nat) : Prop where
  forward : ∀ n, Leads p text n pc i → ∃ m < n, ∃ q ∈ next, Leads p text m q i
  back : ∀ q ∈ next, Accepts p text q i → Accepts p text pc i

theorem Passes.accepts {pc : Nat} {next todo : List Nat} (h : Passes p text i pc next) :
    (∃ q ∈ next ++ todo, Accepts p text q i) ↔ ∃ q ∈ pc :: todo, Accepts p text q i := by
  constructor
  · rintro ⟨q, hmem, haccept⟩
    rcases List.mem_append.1 hmem with hmem | hmem
    · exact ⟨pc, List.mem_cons_self, h.back q hmem haccept⟩
    · exact ⟨q, List.mem_cons_of_mem _ hmem, haccept⟩
  · rintro ⟨q, hmem, n, hlead⟩
    rcases List.mem_cons.1 hmem with rfl | hmem
    · obtain ⟨m, -, q, hmem, hrest⟩ := h.forward n hlead
      exact ⟨q, List.mem_append_left _ hmem, m, hrest⟩
    · exact ⟨q, List.mem_append_right _ hmem, n, hlead⟩

theorem passes_fork {pc : Nat} {a b : Int} (hx : p[pc]? = some (.fork a b)) :
    Passes p text i pc [target pc a, target pc b] where
  forward n h := by
    obtain ⟨m, -, -, rfl, -⟩ := leads_cases hx h
    rcases (leads_fork hx).1 h with hrest | hrest
    · exact ⟨m, Nat.lt_succ_self m, _, List.mem_cons_self, hrest⟩
    · exact ⟨m, Nat.lt_succ_self m, _, List.mem_cons_of_mem _ List.mem_cons_self, hrest⟩
  back q hmem := by
    rintro ⟨n, hlead⟩
    simp only [List.mem_cons, List.not_mem_nil, or_false] at hmem
    rcases hmem with rfl | rfl
    · exact ⟨n + 1, (leads_fork hx).2 (.inl hlead)⟩
    · exact ⟨n + 1, (leads_fork hx).2 (.inr hlead)⟩

theorem passes_jump {pc : Nat} {d : Int} (hx : p[pc]? = some (.jump d)) :
    Passes p text i pc [target pc d] where
  forward n h := by
    obtain ⟨m, -, -, rfl, -⟩ := leads_cases hx h
    exact ⟨m, Nat.lt_succ_self m, _, List.mem_cons_self, (leads_jump hx).1 h⟩
  back q hmem := by
    rintro ⟨n, hlead⟩
    obtain rfl := List.mem_singleton.1 hmem
    exact ⟨n + 1, (leads_jump hx).2 hlead⟩

theorem passes_look {pc : Nat} {l : Look} {unicode : Bool} (hx : p[pc]? = some (.look l unicode)) :
    Passes p text i pc (if l.holds unicode (charBefore text i) text[i]? then [pc + 1] else []) where
  forward n h := by
    obtain ⟨m, pc', i', rfl, hstep, hrest⟩ := leads_cases hx h
    cases hstep with
    | look inst holds =>
      obtain ⟨rfl, rfl⟩ := Inst.look.inj (Option.some.inj (hx.symm.trans inst))
      exact ⟨m, Nat.lt_succ_self m, _, by rw [if_pos holds]; exact List.mem_cons_self, hrest⟩
    | take inst | first inst | second inst | jump inst => cases hx.symm.trans inst
  back q hmem := by
    rintro ⟨n, hlead⟩
    split_ifs at hmem with holds
    · obtain rfl := List.mem_singleton.1 hmem
      exact ⟨n + 1, .step (.look hx holds) hlead⟩
    · cases hmem

/-- Nothing is left to be followed, and a thread leads to the end just where a thread did before, or
an instruction that was to be followed. -/
def Faithful (p : Program) (text : List Char) (i : Nat) (todo : List Nat)
    (ts ts' : Threads) : Prop :=
  Followed p text i ts' ∧ (ts'.Accept p text i ↔ ts.Accept p text i ∨ ∃ q ∈ todo,
    Accepts p text q i)

section Faithful

variable {todo : List Nat} {ts ts' : Threads} {pc : Nat}

theorem Faithful.skip (h : Faithful p text i todo ts ts') (hclosed : Closed p text i todo ts)
    (hseen : ts.seen.getD pc true = true) : Faithful p text i (pc :: todo) ts ts' := by
  refine h.imp_right fun hiff => hiff.trans ?_
  constructor
  · rintro (haccept | ⟨q, hmem, hq⟩)
    · exact .inl haccept
    · exact .inr ⟨q, List.mem_cons_of_mem _ hmem, hq⟩
  · rintro (haccept | ⟨q, hmem, n, hlead⟩)
    · exact .inl haccept
    · rcases List.mem_cons.1 hmem with rfl | hmem
      · exact (hclosed n _ hlead hseen).imp_right fun ⟨m, _, q, hmem, hrest⟩ => ⟨q, hmem, m, hrest⟩
      · exact .inr ⟨q, hmem, n, hlead⟩

theorem Faithful.expand {next : List Nat} {seen : Array Bool}
    (h : Faithful p text i (next ++ todo) ⟨ts.list, seen⟩ ts') (hnext : Passes p text i pc next) :
    Faithful p text i (pc :: todo) ts ts' := by
  refine h.imp_right fun hiff => hiff.trans ?_
  rw [hnext.accepts]
  rfl

theorem Faithful.push {start : Nat} {seen : Array Bool}
    (h : Faithful p text i todo ⟨ts.list.push ⟨pc, start⟩, seen⟩ ts') :
    Faithful p text i (pc :: todo) ts ts' := by
  refine h.imp_right fun hiff => hiff.trans ?_
  rw [accept_push, or_assoc]
  simp

end Faithful

/-- What is to be followed and twice what is not marked bound the number of steps. -/
theorem follow_faithful (start fuel : Nat) {todo : List Nat} {ts : Threads}
    (hsize : ts.seen.size = p.size + 1) (hclosed : Closed p text i todo ts)
    (hwaits : ∀ t ∈ ts.list, Waits p t.pc) (hfuel : todo.length + 2 * unmarked ts.seen ≤ fuel) :
    Faithful p text i todo ts (follow p (charBefore text i) text[i]? start fuel todo ts) := by
  induction fuel generalizing todo ts with
  | zero =>
    obtain rfl : todo = [] := List.eq_nil_of_length_eq_zero (by omega)
    exact ⟨⟨hsize, hclosed, hwaits⟩, by simp [follow]⟩
  | succ fuel ih =>
    cases todo with
    | nil => exact ⟨⟨hsize, hclosed, hwaits⟩, by simp [follow]⟩
    | cons pc todo =>
      rw [List.length_cons] at hfuel
      unfold follow
      split_ifs with hseen
      · exact (ih hsize (hclosed.tail hseen) hwaits (by omega)).skip (hclosed.tail hseen) hseen
      · -- the mark that is set now pays for the two places to which the instruction may lead
        have hunseen := Bool.eq_false_of_not_eq_true hseen
        have hmark := unmarked_mark hunseen
        have hsize' : (ts.seen.setIfInBounds pc true).size = p.size + 1 := by simpa using hsize
        have hpass : ∀ {next}, Passes p text i pc next → next.length ≤ 2 →
            Faithful p text i (pc :: todo) ts (follow p (charBefore text i) text[i]? start fuel
              (next ++ todo) { ts with seen := ts.seen.setIfInBounds pc true }) := by
          intro next hnext hlength
          refine (ih hsize' (hclosed.expand hnext.forward) hwaits ?_).expand hnext
          simp only [List.length_append]
          omega
        split
        next a b hx => exact hpass (passes_fork hx) le_rfl
        next d hx => exact hpass (passes_jump hx) one_le_two
        next l unicode hx =>
          have hlook := hpass (passes_look hx)
          split_ifs at hlook ⊢
          · exact hlook one_le_two
          · exact hlook (Nat.zero_le 2)
        next x hfork hjump hlook =>
          have hpc : Waits p pc := by
            cases hx : p[pc]? with
            | none =>
              obtain ⟨hlt, -⟩ := lt_size_of_getD hunseen
              have hge := Array.getElem?_eq_none_iff.1 hx
              exact .inl (by omega)
            | some x =>
              cases x with
              | take s => exact .inr ⟨s, hx⟩
              | fork a b => exact absurd hx (hfork a b)
              | jump d => exact absurd hx (hjump d)
              | look l unicode => exact absurd hx (hlook l unicode)
          refine (ih hsize' (hclosed.push start) ?_ ?_).push
          · intro t ht
            rcases Array.mem_push.1 ht with ht | rfl
            · exact hwaits t ht
            · exact hpc
          · show _ + 2 * unmarked (ts.seen.setIfInBounds pc true) ≤ _
            omega

theorem followAll_accept (threads : List Thread) {ts : Threads} (h : Followed p text i ts) :
    Followed p text i (followAll p (charBefore text i) text[i]? threads ts) ∧
      ((followAll p (charBefore text i) text[i]? threads ts).Accept p text i ↔
        ts.Accept p text i ∨ ∃ t ∈ threads, Accepts p text t.pc i) := by
  induction threads generalizing ts with
  | nil => exact ⟨h, by simp [followAll]⟩
  | cons t threads ih =>
    have hfuel : [t.pc].length + 2 * unmarked ts.seen ≤ 2 * p.size + 3 := by
      have hle := unmarked_le ts.seen
      rw [h.size] at hle
      simp only [List.length_singleton]
      omega
    have hclosed : Closed p text i [t.pc] ts := fun n pc hlead hseen =>
      (h.closed n pc hlead hseen).imp_right fun ⟨_, _, _, hmem, _⟩ => absurd hmem List.not_mem_nil
    obtain ⟨hfollowed, hiff⟩ :=
      follow_faithful t.start (2 * p.size + 3) h.size hclosed h.waits hfuel
    obtain ⟨hall, hrest⟩ := ih hfollowed
    refine ⟨hall, hrest.trans ?_⟩
    rw [hiff]
    simp [or_assoc]

/-! ## Taking characters -/

theorem accepts_take {pc : Nat} {s : Text.CharSet} (hx : p[pc]? = some (.take s)) :
    Accepts p text pc i ↔ text[i]?.any s.contains = true ∧ Accepts p text (pc + 1) (i + 1) := by
  constructor
  · rintro ⟨n, hlead⟩
    obtain ⟨m, pc', i', rfl, hstep, hrest⟩ := leads_cases hx hlead
    cases hstep with
    | take inst char =>
      obtain rfl := Inst.take.inj (Option.some.inj (hx.symm.trans inst))
      exact ⟨char, m, hrest⟩
    | first inst | second inst | jump inst | look inst => cases hx.symm.trans inst
  · rintro ⟨hchar, n, hlead⟩
    exact ⟨n + 1, .step (.take hx hchar) hlead⟩

/-- A thread leads to the end if it has come there, or if it does so behind the next character.
Threads that are dropped come after one that has matched. -/
theorem advance_accept {threads : List Thread} (hwaits : ∀ t ∈ threads, Waits p t.pc) :
    (∃ t ∈ threads, Accepts p text t.pc i) ↔ (advance p text[i]? threads).2.isSome = true ∨
      ∃ t ∈ (advance p text[i]? threads).1, Accepts p text t.pc (i + 1) := by
  induction threads with
  | nil => simp [advance]
  | cons t threads ih =>
    have hrest := ih fun t ht => hwaits t (List.mem_cons_of_mem _ ht)
    rcases hwaits t List.mem_cons_self with hend | ⟨s, hx⟩
    · have hnone : p[t.pc]? = none := Array.getElem?_eq_none (by omega)
      have haccepts : Accepts p text t.pc i := ⟨0, hend ▸ .done⟩
      unfold advance
      rw [hnone]
      simp [haccepts]
    · have hadvance : advance p text[i]? (t :: threads) = if text[i]?.any s.contains then
          (⟨t.pc + 1, t.start⟩ :: (advance p text[i]? threads).1, (advance p text[i]? threads).2)
          else advance p text[i]? threads := by
        rw [advance, hx]
      rw [hadvance]
      simp only [List.exists_mem_cons_iff, accepts_take hx, hrest]
      split_ifs with hchar
      · simp only [hchar, true_and, List.exists_mem_cons_iff]
        exact or_left_comm
      · simp only [hchar, false_and, false_or, Bool.false_eq_true]

/-! ## Searching -/

theorem followed_start : Followed p text i { seen := Array.replicate (p.size + 1) false } where
  size := Array.size_replicate
  closed n pc hlead hseen := by
    have hlt : pc < p.size + 1 := Nat.lt_succ_of_le hlead.le_size
    simp [hlt] at hseen
  waits t ht := by simp at ht

/-- What the threads given lead to is found here, or goes on behind the next character. -/
theorem step_accept (threads : List Thread) :
    let ts := followAll p (charBefore text i) text[i]? threads
      { seen := Array.replicate (p.size + 1) false }
    (advance p text[i]? ts.list.toList).2.isSome = true ∨
        (∃ t ∈ (advance p text[i]? ts.list.toList).1, Accepts p text t.pc (i + 1)) ↔
      ∃ t ∈ threads, Accepts p text t.pc i := by
  intro ts
  obtain ⟨hfollowed, hiff⟩ := followAll_accept threads (@followed_start p text i)
  have hwaits : ∀ t ∈ ts.list.toList, Waits p t.pc := fun t ht =>
    hfollowed.waits t (Array.mem_toList_iff.1 ht)
  rw [← advance_accept hwaits]
  simpa [Threads.Accept] using hiff

theorem advance_none (threads : List Thread) : (advance p none threads).1 = [] := by
  induction threads with
  | nil => rfl
  | cons t threads ih =>
    unfold advance
    split
    · rfl
    · simpa using ih
    · exact ih

section From

variable (before : Option Char) (place : Nat) (threads : List Thread) (best : Option (Nat × Nat))

/-- The threads that are followed: another one begins as long as there is no match. -/
def begun : List Thread := if best.isNone then threads ++ [⟨0, place⟩] else threads

/-- The threads behind the next character and what was found before it. -/
def round (p : Program) (after : Option Char) : List Thread × Option Nat :=
  advance p after (followAll p before after (begun place threads best)
    { seen := Array.replicate (p.size + 1) false }).list.toList

theorem searchFrom_nil : searchFrom p before place threads best [] =
    ((round before place threads best p none).2.map (·, place)).or best := by
  simp only [searchFrom, round, begun]
  generalize advance p none _ = r
  obtain ⟨next, found⟩ := r
  cases found <;> rfl

theorem searchFrom_cons (c : Char) (rest : List Char) :
    let r := round before place threads best p (some c)
    let best' := (r.2.map (·, place)).or best
    searchFrom p before place threads best (c :: rest) =
      if r.1.isEmpty && best'.isSome then best'
      else searchFrom p (some c) (place + 1) r.1 best' rest := by
  cases hfound : (round before place threads best p (some c)).2 with
  | none | some start =>
    simp only [round, begun] at hfound
    simp only [searchFrom, round, begun, hfound]
    rfl

end From

/-- What the threads and a run that begins at a place lead to is found there, or goes on behind the
next character. -/
theorem round_accept (threads : List Thread) :
    (round (charBefore text i) i threads none p text[i]?).2.isSome = true ∨
        (∃ t ∈ (round (charBefore text i) i threads none p text[i]?).1,
          Accepts p text t.pc (i + 1)) ↔
      (∃ t ∈ threads, Accepts p text t.pc i) ∨ Accepts p text 0 i := by
  have hstep := @step_accept p text i (threads ++ [⟨0, i⟩])
  refine hstep.trans ?_
  simp [or_and_right, exists_or]

theorem searchFrom_some (rest : List Char) (before : Option Char) (place : Nat)
    (threads : List Thread)
    (best : Nat × Nat) : (searchFrom p before place threads (some best) rest).isSome = true := by
  induction rest generalizing before place threads best with
  | nil =>
    rw [searchFrom_nil]
    simp
  | cons c rest ih =>
    rw [searchFrom_cons]
    generalize round before place threads (some best) p (some c) = r
    obtain ⟨best', hbest⟩ : ∃ best', (r.2.map (·, place)).or (some best) = some best' := by
      cases r.2 with
      | none => exact ⟨best, rfl⟩
      | some start => exact ⟨(start, place), rfl⟩
    simp only [hbest]
    split_ifs
    · rfl
    · exact ih ..

/-- A search that has found nothing succeeds just where a thread leads to the end, or a run from the
start at this place or a later one does. -/
theorem searchFrom_none (rest : List Char) (threads : List Thread) (hrest : text.drop i = rest)
    (hi : i ≤ text.length) :
    (searchFrom p (charBefore text i) i threads none rest).isSome = true ↔
      (∃ t ∈ threads, Accepts p text t.pc i) ∨ ∃ k,
        i ≤ k ∧ k ≤ text.length ∧ Accepts p text 0 k := by
  induction rest generalizing i threads with
  | nil =>
    have hend : i = text.length := le_antisymm hi (List.drop_eq_nil_iff.1 hrest)
    have hround := @round_accept p text i threads
    have hnext : (round (charBefore text i) i threads none p none).1 = [] := advance_none _
    rw [List.getElem?_eq_none hend.ge, hnext] at hround
    simp only [List.not_mem_nil, false_and, exists_false, or_false] at hround
    rw [searchFrom_nil, Option.or_none, Option.isSome_map, hround]
    refine or_congr_right ⟨fun h => ⟨i, le_rfl, hi, h⟩, fun ⟨k, hk, hk', h⟩ => ?_⟩
    obtain rfl : i = k := by omega
    exact h
  | cons c rest ih =>
    have hafter : text[i]? = some c := by
      rw [← List.head?_drop, hrest]
      rfl
    have hlt : i < text.length := (List.getElem?_eq_some_iff.1 hafter).1
    have hnext : text.drop (i + 1) = rest := by
      rw [← List.tail_drop, hrest]
      rfl
    have hbefore : charBefore text (i + 1) = some c := hafter
    have hround := @round_accept p text i threads
    rw [hafter] at hround
    rw [searchFrom_cons]
    generalize round (charBefore text i) i threads none p (some c) = r at hround
    -- a run from the start begins at this place or at a later one
    have hstarts : (∃ k, i ≤ k ∧ k ≤ text.length ∧ Accepts p text 0 k) ↔
        Accepts p text 0 i ∨ ∃ k, i + 1 ≤ k ∧ k ≤ text.length ∧ Accepts p text 0 k := by
      constructor
      · rintro ⟨k, hk, hk', h⟩
        rcases Nat.eq_or_lt_of_le hk with rfl | hk
        · exact .inl h
        · exact .inr ⟨k, hk, hk', h⟩
      · rintro (h | ⟨k, hk, hk', h⟩)
        · exact ⟨i, le_rfl, hi, h⟩
        · exact ⟨k, by omega, hk', h⟩
    rw [hstarts, ← or_assoc, ← hround]
    obtain ⟨next, found⟩ := r
    cases found with
    | none =>
      have hlater := ih next hnext hlt
      rw [hbefore] at hlater
      simpa using hlater
    | some start =>
      simp only [Option.map_some, Option.isSome_some, true_or, iff_true]
      split_ifs
      · rfl
      · exact searchFrom_some ..

end Follow

theorem find_isSome {p : Program} {text : List Char} :
    (find p text 0).isSome = true ↔ ∃ k ≤ text.length, Accepts p text 0 k := by
  have hsearch := @searchFrom_none p text 0 text [] rfl (Nat.zero_le _)
  unfold find
  rw [if_neg (Nat.not_lt_zero _), List.drop_zero, hsearch]
  simp

/-- A search succeeds just where the pattern matches a part of the text. -/
theorem isMatch_iff (n : Node) (text : String) :
    isMatch n text = true ↔ ∃ i ≤ text.toList.length, ∃ j, n.Matches text.toList i j := by
  rw [isMatch, find_isSome]
  exact exists_congr fun i => and_congr_right fun _ => n.leads_iff text.toList i

end TagMachine.Pattern
