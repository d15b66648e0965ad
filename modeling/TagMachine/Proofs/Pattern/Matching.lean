import Mathlib.Tactic
import TagMachine.Pattern.Search

set_option autoImplicit false

/-! # What patterns match

`Node.Matches` says which parts of a text a pattern matches, by recursion on its tree. The program
of a pattern computes just that (`Node.computes`): from the start of its instructions, wherever they
stand in a program, the runs that lead on to a match are those that come to their end over a part
that the pattern matches.
-/

namespace TagMachine.Pattern

/-! ## Matches -/

/-- A number of steps of a relation one after another. -/
def Chain (R : Nat → Nat → Prop) : Nat → Nat → Nat → Prop
  | 0, i, j => i = j
  | k + 1, i, j => ∃ m, R i m ∧ Chain R k m j

mutual

/-- A pattern matches the part of a text between two places. -/
def Node.Matches (text : List Char) : Node → Nat → Nat → Prop
  | .empty => Eq
  | .set s => fun i j => text[i]?.any s.contains = true ∧ j = i + 1
  | .look l unicode => fun i j => l.holds unicode (charBefore text i) text[i]? = true ∧ j = i
  | .rep min more _ body => fun i j =>
    ∃ k, (∀ m ∈ more, k ≤ m) ∧ Chain (body.Matches text) (min + k) i j
  | .seq parts => MatchesAll text parts
  | .alt branches => MatchesAny text branches

/-- Patterns match one after another. -/
def Node.MatchesAll (text : List Char) : List Node → Nat → Nat → Prop
  | [] => Eq
  | n :: rest => fun i j => ∃ m, n.Matches text i m ∧ MatchesAll text rest m j

/-- One of several patterns matches. -/
def Node.MatchesAny (text : List Char) : List Node → Nat → Nat → Prop
  | [] => fun _ _ => False
  | n :: rest => fun i j => n.Matches text i j ∨ MatchesAny text rest i j

end

theorem chain_succ {R : Nat → Nat → Prop} {k i j : Nat} :
    Chain R (k + 1) i j ↔ ∃ m, Chain R k i m ∧ R m j := by
  induction k generalizing i with
  | zero => simp [Chain]
  | succ k ih =>
    constructor
    · rintro ⟨m, hm, hj⟩
      obtain ⟨l, hl, hj⟩ := ih.1 hj
      exact ⟨l, ⟨m, hm, hl⟩, hj⟩
    · rintro ⟨l, ⟨m, hm, hl⟩, hj⟩
      exact ⟨m, hm, ih.2 ⟨l, hl, hj⟩⟩

theorem chain_add {R : Nat → Nat → Prop} {k l i j : Nat} :
    Chain R (k + l) i j ↔ ∃ m, Chain R k i m ∧ Chain R l m j := by
  induction l generalizing j with
  | zero => simp [Chain]
  | succ l ih =>
    rw [← Nat.add_assoc, chain_succ]
    simp only [ih, chain_succ]
    constructor
    · rintro ⟨x, ⟨m, hm, hx⟩, hj⟩
      exact ⟨m, hm, x, hx, hj⟩
    · rintro ⟨m, hm, x, hx, hj⟩
      exact ⟨x, ⟨m, hm, hx⟩, hj⟩

/-! A match ends inside the text. -/

theorem Chain.le {R : Nat → Nat → Prop} {l : Nat} (hR : ∀ {i j}, R i j → i ≤ l → j ≤ l)
    {k i j : Nat}
    (h : Chain R k i j) (hi : i ≤ l) : j ≤ l := by
  induction k generalizing i with
  | zero =>
    obtain rfl : i = j := h
    exact hi
  | succ k ih =>
    obtain ⟨m, hm, hrest⟩ := h
    exact ih hrest (hR hm hi)

mutual

theorem Node.Matches.le {text : List Char} {n : Node} {i j : Nat} (h : n.Matches text i j)
    (hi : i ≤ text.length) : j ≤ text.length :=
  match n, h with
  | .empty, h => by
    obtain rfl : i = j := h
    exact hi
  | .set s, ⟨hchar, hj⟩ => by
    subst hj
    by_contra hlong
    rw [List.getElem?_eq_none (by omega)] at hchar
    cases hchar
  | .look _ _, ⟨_, hj⟩ => hj ▸ hi
  | .rep _ _ _ body, ⟨_, _, hchain⟩ =>
    hchain.le (fun hbody hi => Node.Matches.le (n := body) hbody hi) hi
  | .seq parts, h => Node.MatchesAll.le (show Node.MatchesAll text parts i j from h) hi
  | .alt branches, h => Node.MatchesAny.le (show Node.MatchesAny text branches i j from h) hi

theorem Node.MatchesAll.le {text : List Char} {parts : List Node} {i j : Nat}
    (h : Node.MatchesAll text parts i j) (hi : i ≤ text.length) : j ≤ text.length :=
  match parts, h with
  | [], h => by
    obtain rfl : i = j := h
    exact hi
  | _ :: _, ⟨_, hn, hrest⟩ => Node.MatchesAll.le hrest (hn.le hi)

theorem Node.MatchesAny.le {text : List Char} {branches : List Node} {i j : Nat}
    (h : Node.MatchesAny text branches i j) (hi : i ≤ text.length) : j ≤ text.length :=
  match branches, h with
  | _ :: _, .inl hn => hn.le hi
  | _ :: _, .inr hrest => Node.MatchesAny.le hrest hi

end

/-! ## Runs -/

section Runs

variable (p : Program) (text : List Char)

/-- A step of a program at a place in the text. -/
inductive Step : Nat → Nat → Nat → Nat → Prop
  | take {pc i s} (inst : p[pc]? = some (.take s)) (char : text[i]?.any s.contains = true) :
      Step pc i (pc + 1) (i + 1)
  | first {pc i a b} (inst : p[pc]? = some (.fork a b)) : Step pc i (target pc a) i
  | second {pc i a b} (inst : p[pc]? = some (.fork a b)) : Step pc i (target pc b) i
  | jump {pc i d} (inst : p[pc]? = some (.jump d)) : Step pc i (target pc d) i
  | look {pc i l unicode} (inst : p[pc]? = some (.look l unicode))
      (holds : l.holds unicode (charBefore text i) text[i]? = true) : Step pc i (pc + 1) i

/-- A number of steps lead from an instruction and a place in the text to the end of the program. -/
inductive Leads : Nat → Nat → Nat → Prop
  | done {i} : Leads 0 p.size i
  | step {n pc pc' i i'} (first : Step p text pc i pc' i') (rest : Leads n pc' i') :
    Leads (n + 1) pc i

/-- The instructions of a program stand in another from a place on. -/
def At (o : Nat) (q : Program) : Prop := ∀ k < q.size, p[o + k]? = q[k]?

/-- Wherever some instructions stand in a program, its runs pass through them over the parts of the
text that a relation has. -/
structure Computes (q : Program) (R : Nat → Nat → Prop) : Prop where
  sound : ∀ {o n i}, At p o q → Leads p text n o i → ∃ j m,
    R i j ∧ m ≤ n ∧ Leads p text m (o + q.size) j
  complete : ∀ {o m i j}, At p o q → R i j → Leads p text m (o + q.size) j → ∃ n, Leads p text n o i

end Runs

section Blocks

variable {p q r : Program} {text : List Char} {R S : Nat → Nat → Prop} {o n i : Nat}

theorem at_append : At p o (q ++ r) ↔ At p o q ∧ At p (o + q.size) r := by
  simp only [At, Array.size_append]
  constructor
  · intro h
    refine ⟨fun k hk => ?_, fun k hk => ?_⟩
    · rw [h k (by omega), Array.getElem?_append_left hk]
    · rw [Nat.add_assoc, h (q.size + k) (by omega), Array.getElem?_append_right (by omega),
        Nat.add_sub_cancel_left]
  · rintro ⟨hq, hr⟩ k hk
    rcases Nat.lt_or_ge k q.size with hlt | hge
    · rw [hq k hlt, Array.getElem?_append_left hlt]
    · obtain ⟨d, rfl⟩ := Nat.exists_eq_add_of_le hge
      rw [← Nat.add_assoc, hr d (by omega), Array.getElem?_append_right hge,
        Nat.add_sub_cancel_left]

theorem at_singleton {x : Inst} : At p o #[x] ↔ p[o]? = some x := by
  constructor
  · intro h
    exact h 0 Nat.one_pos
  · intro h k hk
    obtain rfl : k = 0 := Nat.lt_one_iff.1 hk
    exact h

/-- Not at the end, a run takes a step. -/
theorem leads_cases {x : Inst} (hx : p[o]? = some x) (h : Leads p text n o i) :
    ∃ m pc' i', n = m + 1 ∧ Step p text o i pc' i' ∧ Leads p text m pc' i' := by
  cases h with
  | done => simp at hx
  | step first rest => exact ⟨_, _, _, rfl, first, rest⟩

theorem leads_fork {a b : Int} (hx : p[o]? = some (.fork a b)) : Leads p text (n + 1) o i ↔
    Leads p text n (target o a) i ∨ Leads p text n (target o b) i := by
  constructor
  · intro h
    obtain ⟨m, pc', i', hm, hstep, hrest⟩ := leads_cases hx h
    obtain rfl := Nat.succ.inj hm
    cases hstep with
    | first inst =>
      obtain ⟨rfl, rfl⟩ := Inst.fork.inj (Option.some.inj (hx.symm.trans inst))
      exact .inl hrest
    | second inst =>
      obtain ⟨rfl, rfl⟩ := Inst.fork.inj (Option.some.inj (hx.symm.trans inst))
      exact .inr hrest
    | take inst | jump inst | look inst => cases hx.symm.trans inst
  · rintro (h | h)
    · exact .step (.first hx) h
    · exact .step (.second hx) h

theorem leads_choice {greedy : Bool} {a b : Int} (hx : p[o]? = some (choice greedy a b)) :
    Leads p text (n + 1) o i ↔ Leads p text n (target o a) i ∨ Leads p text n (target o b) i := by
  cases greedy with
  | true => exact leads_fork hx
  | false => exact (leads_fork hx).trans or_comm

theorem leads_jump {d : Int} (hx : p[o]? = some (.jump d)) :
    Leads p text (n + 1) o i ↔ Leads p text n (target o d) i := by
  constructor
  · intro h
    obtain ⟨m, pc', i', hm, hstep, hrest⟩ := leads_cases hx h
    obtain rfl := Nat.succ.inj hm
    cases hstep with
    | jump inst =>
      obtain rfl := Inst.jump.inj (Option.some.inj (hx.symm.trans inst))
      exact hrest
    | take inst | first inst | second inst | look inst => cases hx.symm.trans inst
  · exact .step (.jump hx)

/-! ### Instructions -/

theorem computes_nil : Computes p text #[] Eq where
  sound _ h := ⟨_, _, rfl, le_rfl, h⟩
  complete _ heq h := ⟨_, heq ▸ h⟩

theorem computes_take (s : Text.CharSet) :
    Computes p text #[.take s] fun i j => text[i]?.any s.contains = true ∧ j = i + 1 where
  sound hat h := by
    have hx := at_singleton.1 hat
    obtain ⟨m, pc', i', rfl, hstep, hrest⟩ := leads_cases hx h
    cases hstep with
    | take inst char =>
      obtain rfl := Inst.take.inj (Option.some.inj (hx.symm.trans inst))
      exact ⟨_, m, ⟨char, rfl⟩, Nat.le_succ m, hrest⟩
    | first inst | second inst | jump inst | look inst => cases hx.symm.trans inst
  complete hat hij h := by
    obtain ⟨hchar, rfl⟩ := hij
    exact ⟨_, .step (.take (at_singleton.1 hat) hchar) h⟩

theorem computes_look (l : Look) (unicode : Bool) : Computes p text #[.look l unicode] fun i j =>
    l.holds unicode (charBefore text i) text[i]? = true ∧ j = i where
  sound hat h := by
    have hx := at_singleton.1 hat
    obtain ⟨m, pc', i', rfl, hstep, hrest⟩ := leads_cases hx h
    cases hstep with
    | look inst holds =>
      obtain ⟨rfl, rfl⟩ := Inst.look.inj (Option.some.inj (hx.symm.trans inst))
      exact ⟨_, m, ⟨holds, rfl⟩, Nat.le_succ m, hrest⟩
    | take inst | first inst | second inst | jump inst => cases hx.symm.trans inst
  complete hat hij h := by
    obtain ⟨hholds, rfl⟩ := hij
    exact ⟨_, .step (.look (at_singleton.1 hat) hholds) h⟩

theorem Computes.congr (h : Computes p text q R) (heq : ∀ i j, R i j ↔ S i j) :
    Computes p text q S := by
  have hRS : R = S := funext₂ fun i j => propext (heq i j)
  exact hRS ▸ h

/-! ### One after another -/

theorem Computes.append (hq : Computes p text q R) (hr : Computes p text r S) :
    Computes p text (q ++ r) fun i j => ∃ m, R i m ∧ S m j where
  sound hat h := by
    obtain ⟨hatq, hatr⟩ := at_append.1 hat
    obtain ⟨k, n₁, hR, hle, hmid⟩ := hq.sound hatq h
    obtain ⟨j, n₂, hS, hle', hend⟩ := hr.sound hatr hmid
    rw [Array.size_append, ← Nat.add_assoc]
    exact ⟨j, n₂, ⟨k, hR, hS⟩, hle'.trans hle, hend⟩
  complete hat hij h := by
    obtain ⟨hatq, hatr⟩ := at_append.1 hat
    obtain ⟨k, hR, hS⟩ := hij
    rw [Array.size_append, ← Nat.add_assoc] at h
    obtain ⟨n₁, hmid⟩ := hr.complete hatr hS h
    exact hq.complete hatq hR hmid

theorem Computes.times (h : Computes p text q R) (k : Nat) :
    Computes p text (times q k) (Chain R k) := by
  induction k with
  | zero => exact computes_nil
  | succ k ih => exact (ih.append h).congr fun i j => chain_succ.symm

/-! ### Optional and repeated parts -/

theorem target_eq {o t : Nat} {d : Int} (h : o + d = t) : target o d = t := by
  rw [target, h, Int.toNat_natCast]

/-- A part that may be passed by. -/
theorem Computes.option (h : Computes p text q R) (greedy : Bool) {d : Int} (hd : d = q.size + 1) :
    Computes p text (#[choice greedy 1 d] ++ q) fun i j => i = j ∨ R i j := by
  have hstay : ∀ o : Nat, target o 1 = o + 1 := fun o => target_eq (by omega)
  have hleave : ∀ o : Nat, target o d = o + (q.size + 1) := fun o => target_eq (by omega)
  have hsize : (#[choice greedy 1 d] ++ q).size = q.size + 1 := by
    rw [Array.size_append, Nat.add_comm]
    rfl
  constructor
  · intro o n i hat hlead
    obtain ⟨hx, hq⟩ := at_append.1 hat
    obtain ⟨n, -, -, rfl, -⟩ := leads_cases (at_singleton.1 hx) hlead
    rw [leads_choice (at_singleton.1 hx), hstay, hleave] at hlead
    rw [hsize]
    rcases hlead with hin | hout
    · obtain ⟨j, m, hR, hle, hend⟩ := h.sound hq hin
      rw [Nat.add_comm q.size, ← Nat.add_assoc]
      exact ⟨j, m, .inr hR, by omega, hend⟩
    · exact ⟨i, n, .inl rfl, Nat.le_succ n, hout⟩
  · intro o m i j hat hij hlead
    obtain ⟨hx, hq⟩ := at_append.1 hat
    rw [hsize] at hlead
    rcases hij with rfl | hR
    · exact ⟨m + 1, (leads_choice (at_singleton.1 hx)).2 (.inr (by rwa [hleave]))⟩
    · rw [Nat.add_comm q.size, ← Nat.add_assoc] at hlead
      obtain ⟨n, hin⟩ := h.complete hq hR hlead
      exact ⟨n + 1, (leads_choice (at_singleton.1 hx)).2 (.inl (by rwa [hstay]))⟩

theorem Computes.upTo (h : Computes p text q R) (greedy : Bool) (k : Nat) :
    Computes p text (upTo greedy q k) fun i j => ∃ l ≤ k, Chain R l i j := by
  induction k with
  | zero =>
    refine computes_nil.congr fun i j => ?_
    simp [Chain]
  | succ k ih =>
    have hprogram : Pattern.upTo greedy q (k + 1) =
        #[choice greedy 1 (q.size + (Pattern.upTo greedy q k).size + 1)] ++
          (q ++ Pattern.upTo greedy q k) :=
      Array.append_assoc
    rw [hprogram]
    refine ((h.append ih).option greedy (by rw [Array.size_append]; push_cast; rfl)).congr
      fun i j => ?_
    constructor
    · rintro (rfl | ⟨m, hR, l, hl, hchain⟩)
      · exact ⟨0, Nat.zero_le _, rfl⟩
      · exact ⟨l + 1, by omega, m, hR, hchain⟩
    · rintro ⟨l, hl, hchain⟩
      cases l with
      | zero => exact .inl hchain
      | succ l =>
        obtain ⟨m, hR, hrest⟩ := hchain
        exact .inr ⟨m, hR, l, by omega, hrest⟩

/-- A part that is repeated at least once. The number of steps decreases with every round. -/
theorem Computes.plus (h : Computes p text q R) (greedy : Bool) :
    Computes p text (q ++ #[choice greedy (-q.size) 1]) fun i j => ∃ k, Chain R (k + 1) i j := by
  have hstay : ∀ o : Nat, target (o + q.size) (-q.size) = o := fun o => target_eq (by omega)
  have hleave : ∀ o : Nat, target o 1 = o + 1 := fun o => target_eq (by omega)
  have hsize : (q ++ #[choice greedy (-q.size) 1]).size = q.size + 1 := Array.size_append
  constructor
  · intro o n i hat hlead
    obtain ⟨hq, hx⟩ := at_append.1 hat
    rw [at_singleton] at hx
    rw [hsize, ← Nat.add_assoc]
    induction n using Nat.strong_induction_on generalizing i with
    | _ n ih =>
      obtain ⟨k, m, hR, hle, hmid⟩ := h.sound hq hlead
      obtain ⟨m, -, -, rfl, -⟩ := leads_cases hx hmid
      rw [leads_choice hx, hstay, hleave] at hmid
      rcases hmid with hagain | hout
      · obtain ⟨j, m', ⟨l, hchain⟩, hle', hend⟩ := ih m (by omega) hagain
        exact ⟨j, m', ⟨l + 1, k, hR, hchain⟩, by omega, hend⟩
      · exact ⟨k, m, ⟨0, k, hR, rfl⟩, by omega, hout⟩
  · rintro o m i j hat ⟨k, hchain⟩ hlead
    obtain ⟨hq, hx⟩ := at_append.1 hat
    rw [at_singleton] at hx
    rw [hsize, ← Nat.add_assoc] at hlead
    induction k generalizing i with
    | zero =>
      obtain ⟨k, hR, rfl⟩ := hchain
      exact h.complete hq hR ((leads_choice hx).2 (.inr (by rwa [hleave])))
    | succ l ih =>
      obtain ⟨k, hR, hrest⟩ := hchain
      obtain ⟨n, hagain⟩ := ih hrest
      exact h.complete hq hR ((leads_choice hx).2 (.inl (by rwa [hstay])))

/-- A part that is repeated any number of times. -/
theorem Computes.star (h : Computes p text q R) (greedy : Bool) :
    Computes p text (#[choice greedy 1 (q.size + 2)] ++ q ++ #[.jump (-q.size - 1)])
      fun i j => ∃ k, Chain R k i j := by
  have hstay : ∀ o : Nat, target o 1 = o + 1 := fun o => target_eq (by omega)
  have hleave : ∀ o : Nat, target o (q.size + 2) = o + (q.size + 2) := fun o => target_eq (by omega)
  have hback : ∀ o : Nat, target (o + 1 + q.size) (-q.size - 1) = o := fun o => target_eq (by omega)
  have hsize : (#[choice greedy 1 (q.size + 2)] ++ q ++ #[Inst.jump (-q.size - 1)]).size =
      q.size + 2 := by
    rw [Array.size_append, Array.size_append, Nat.add_comm q.size]
    exact Nat.add_right_comm ..
  have hparts : ∀ {o}, At p o (#[choice greedy 1 (q.size + 2)] ++ q ++ #[Inst.jump (-q.size - 1)]) →
      p[o]? = some (choice greedy 1 (q.size + 2)) ∧ At p (o + 1) q ∧
        p[o + 1 + q.size]? = some (.jump (-q.size - 1)) := by
    intro o hat
    obtain ⟨hhead, hjump⟩ := at_append.1 hat
    obtain ⟨hx, hq⟩ := at_append.1 hhead
    refine ⟨at_singleton.1 hx, hq, ?_⟩
    rw [at_singleton, Array.size_append, ← Nat.add_assoc] at hjump
    exact hjump
  constructor
  · intro o n i hat hlead
    obtain ⟨hx, hq, hjump⟩ := hparts hat
    rw [hsize]
    induction n using Nat.strong_induction_on generalizing i with
    | _ n ih =>
      obtain ⟨n, -, -, rfl, -⟩ := leads_cases hx hlead
      rw [leads_choice hx, hstay, hleave] at hlead
      rcases hlead with hin | hout
      · obtain ⟨k, m, hR, hle, hmid⟩ := h.sound hq hin
        obtain ⟨m, -, -, rfl, -⟩ := leads_cases hjump hmid
        rw [leads_jump hjump, hback] at hmid
        obtain ⟨j, m', ⟨l, hchain⟩, hle', hend⟩ := ih m (by omega) hmid
        exact ⟨j, m', ⟨l + 1, k, hR, hchain⟩, by omega, hend⟩
      · exact ⟨i, n, ⟨0, rfl⟩, Nat.le_succ n, hout⟩
  · rintro o m i j hat ⟨k, hchain⟩ hlead
    obtain ⟨hx, hq, hjump⟩ := hparts hat
    rw [hsize] at hlead
    induction k generalizing i with
    | zero =>
      obtain rfl : i = j := hchain
      exact ⟨m + 1, (leads_choice hx).2 (.inr (by rwa [hleave]))⟩
    | succ l ih =>
      obtain ⟨k, hR, hrest⟩ := hchain
      obtain ⟨n, hagain⟩ := ih hrest
      obtain ⟨n', hin⟩ := h.complete hq hR ((leads_jump hjump).2 (by rwa [hback]))
      exact ⟨n' + 1, (leads_choice hx).2 (.inl (by rwa [hstay]))⟩

theorem Computes.anyTimes (h : Computes p text q R) (greedy nullable : Bool) :
    Computes p text (anyTimes greedy nullable q) fun i j => ∃ k, Chain R k i j := by
  unfold Pattern.anyTimes
  split_ifs
  · rw [Array.append_assoc]
    refine ((h.plus greedy).option greedy (by rw [Array.size_append]; push_cast; rfl)).congr
      fun i j => ?_
    constructor
    · rintro (rfl | ⟨k, hchain⟩)
      · exact ⟨0, rfl⟩
      · exact ⟨k + 1, hchain⟩
    · rintro ⟨k, hchain⟩
      cases k with
      | zero => exact .inl hchain
      | succ k => exact .inr ⟨k, hchain⟩
  · exact h.star greedy

theorem Computes.repetition (h : Computes p text q R) (min : Nat) (more : Option Nat)
    (greedy nullable : Bool) :
    Computes p text (repetition min more greedy nullable q)
      fun i j => ∃ k, (∀ m ∈ more, k ≤ m) ∧ Chain R (min + k) i j := by
  cases more with
  | some more =>
    refine ((h.times min).append (h.upTo greedy more)).congr fun i j => ?_
    constructor
    · rintro ⟨m, hfirst, l, hl, hrest⟩
      exact ⟨l, fun _ hmore => Option.some.inj hmore ▸ hl, chain_add.2 ⟨m, hfirst, hrest⟩⟩
    · rintro ⟨l, hl, hchain⟩
      obtain ⟨m, hfirst, hrest⟩ := chain_add.1 hchain
      exact ⟨m, hfirst, l, hl more rfl, hrest⟩
  | none =>
    cases min with
    | zero =>
      refine (h.anyTimes greedy nullable).congr fun i j => ?_
      simp
    | succ min =>
      have hprogram : Pattern.repetition (min + 1) none greedy nullable q =
          Pattern.times q min ++ (q ++ #[choice greedy (-q.size) 1]) := Array.append_assoc
      have hcount (l : Nat) : min + 1 + l = min + (l + 1) := by omega
      rw [hprogram]
      refine ((h.times min).append (h.plus greedy)).congr fun i j => ?_
      constructor
      · rintro ⟨m, hfirst, l, hrest⟩
        exact ⟨l, by simp, hcount l ▸ chain_add.2 ⟨m, hfirst, hrest⟩⟩
      · rintro ⟨l, -, hchain⟩
        rw [hcount] at hchain
        obtain ⟨m, hfirst, hrest⟩ := chain_add.1 hchain
        exact ⟨m, hfirst, l, hrest⟩

/-! ### Alternatives -/

/-- One of two parts. -/
theorem Computes.either (hq : Computes p text q R) (hr : Computes p text r S) :
    Computes p text (#[.fork 1 (q.size + 2)] ++ q ++ #[.jump (r.size + 1)] ++ r)
      fun i j => R i j ∨ S i j := by
  have hfirst : ∀ o : Nat, target o 1 = o + 1 := fun o => target_eq (by omega)
  have hsecond : ∀ o : Nat, target o (q.size + 2) = o + (q.size + 2) := fun o =>
    target_eq (by omega)
  have hskip : ∀ o : Nat,
      target (o + 1 + q.size) (r.size + 1) = o + (q.size + 2) + r.size := fun o =>
    target_eq (by push_cast; ring)
  have hsize : (#[Inst.fork 1 (q.size + 2)] ++ q ++ #[Inst.jump (r.size + 1)] ++ r).size =
      q.size + 2 + r.size := by
    simp only [Array.size_append]
    show 1 + q.size + 1 + r.size = _
    omega
  have hparts : ∀ {o}, At p o (#[Inst.fork 1 (q.size + 2)] ++ q ++ #[Inst.jump (r.size + 1)] ++ r) →
      p[o]? = some (.fork 1 (q.size + 2)) ∧ At p (o + 1) q ∧
        p[o + 1 + q.size]? = some (.jump (r.size + 1)) ∧ At p (o + (q.size + 2)) r := by
    intro o hat
    obtain ⟨hhead, hlast⟩ := at_append.1 hat
    obtain ⟨hhead, hjump⟩ := at_append.1 hhead
    obtain ⟨hx, hbody⟩ := at_append.1 hhead
    rw [at_singleton, Array.size_append, ← Nat.add_assoc] at hjump
    have hplace : o + (#[Inst.fork 1 (q.size + 2)] ++ q ++ #[Inst.jump (r.size + 1)]).size =
        o + (q.size + 2) := by
      simp only [Array.size_append]
      show o + (1 + q.size + 1) = _
      omega
    exact ⟨at_singleton.1 hx, hbody, hjump, hplace ▸ hlast⟩
  constructor
  · intro o n i hat hlead
    obtain ⟨hx, hatq, hjump, hatr⟩ := hparts hat
    obtain ⟨n, -, -, rfl, -⟩ := leads_cases hx hlead
    rw [leads_fork hx, hfirst, hsecond] at hlead
    rw [hsize, ← Nat.add_assoc]
    rcases hlead with hin | hin
    · obtain ⟨j, m, hR, hle, hmid⟩ := hq.sound hatq hin
      obtain ⟨m, -, -, rfl, -⟩ := leads_cases hjump hmid
      rw [leads_jump hjump, hskip] at hmid
      exact ⟨j, m, .inl hR, by omega, hmid⟩
    · obtain ⟨j, m, hS, hle, hend⟩ := hr.sound hatr hin
      exact ⟨j, m, .inr hS, by omega, hend⟩
  · intro o m i j hat hij hlead
    obtain ⟨hx, hatq, hjump, hatr⟩ := hparts hat
    rw [hsize, ← Nat.add_assoc] at hlead
    rcases hij with hR | hS
    · obtain ⟨n, hin⟩ := hq.complete hatq hR ((leads_jump hjump).2 (by rwa [hskip]))
      exact ⟨n + 1, (leads_fork hx).2 (.inl (by rwa [hfirst]))⟩
    · obtain ⟨n, hin⟩ := hr.complete hatr hS hlead
      exact ⟨n + 1, (leads_fork hx).2 (.inr (by rwa [hsecond]))⟩

end Blocks

/-! ## Programs of patterns -/

section Programs

variable (p : Program) (text : List Char)

mutual

theorem Node.computes (n : Node) : Computes p text n.program (n.Matches text) :=
  match n with
  | .empty => computes_nil
  | .set s => computes_take s
  | .look l unicode => computes_look l unicode
  | .rep min more greedy body => body.computes.repetition min more greedy body.nullable
  | .seq parts => Node.computes_sequence parts
  | .alt branches => Node.computes_alternatives branches

theorem Node.computes_sequence (parts : List Node) :
    Computes p text (sequence parts) (MatchesAll text parts) :=
  match parts with
  | [] => computes_nil
  | n :: rest => n.computes.append (Node.computes_sequence rest)

theorem Node.computes_alternatives (branches : List Node) :
    Computes p text (alternatives branches) (MatchesAny text branches) :=
  match branches with
  | [] => (computes_take .empty).congr fun i _ => by
    cases text[i]? <;> simp [MatchesAny, Text.CharSet.contains, Text.CharSet.hasCode,
      Text.CharSet.empty]
  | [n] => n.computes.congr fun _ _ => (iff_of_eq (or_false _)).symm
  | n :: m :: rest => n.computes.either (Node.computes_alternatives (m :: rest))

end

end Programs

/-- A run from the start of the program of a pattern is a match. -/
theorem Node.leads_iff (n : Node) (text : List Char) (i : Nat) :
    (∃ k, Leads n.program text k 0 i) ↔ ∃ j, n.Matches text i j := by
  have hat : At n.program 0 n.program := fun k _ => by rw [Nat.zero_add]
  have hcomputes := n.computes n.program text
  constructor
  · rintro ⟨k, hlead⟩
    obtain ⟨j, -, hmatch, -⟩ := hcomputes.sound hat hlead
    exact ⟨j, hmatch⟩
  · rintro ⟨j, hmatch⟩
    exact hcomputes.complete hat hmatch (by rw [Nat.zero_add]; exact .done)

end TagMachine.Pattern
