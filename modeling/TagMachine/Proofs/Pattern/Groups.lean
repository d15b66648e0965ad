import TagMachine.Proofs.Pattern.Classes

set_option autoImplicit false

/-! # Groups inside a longer pattern

The reader of alternatives goes from one token to the next, and a token may be a group with
alternatives of its own. Inside a group it ends with a closing parenthesis, and at the top with the
end of the pattern (`Ending` compares the two).
-/

namespace TagMachine.Pattern

/-- What is known where a token begins. -/
structure Place where
  branches : List Item := []
  items : List Item := []
  flags : Flags
  names : List String := []

namespace Place

variable (p : Place)

/-- The alternatives read so far. -/
def close : Item := joinBranches (joinItems p.items :: p.branches)

/-- The alternatives read so far, with the names of groups. -/
def result : Item × List String := (p.close, p.names)

/-- The place behind another part. -/
def push (i : Item) : Place := { p with items := i :: p.items }

/-- The place behind a bar. -/
def alternative : Place := { p with branches := joinItems p.items :: p.branches, items := [] }

/-- The place behind a repetition of the last part, if it can be repeated. -/
def repeatLast (counts : Nat × Option Nat) (isLazy : Bool) : Option Place :=
  (repeatLast? p.flags counts.1 counts.2 isLazy p.items).map fun items => { p with items }

/-- The place behind flags for the rest of the group. -/
def switch (f : Flags) : Place := { p with items := ⟨.empty, 0, false⟩ :: p.items, flags := f }

/-- The place behind a group. -/
def enclose (capture : Capture) (body : Item × List String) : Place :=
  { p with items := groupItem capture body.1 :: p.items, names := body.2 }

end Place

/-! ## Tokens -/

theorem skip_unclosed {f : Flags} {r : List Char} (h : Unclosed f r) : skip f r = r := by
  obtain ⟨inside, rfl, -⟩ := h
  exact skip_of_visible f rfl (by decide) inside

section Token

variable (N : Place → Reader (Item × List String)) (p : Place)

def repeating (counts : Nat × Option Nat) : Reader Place :=
  thenMap (fun cs => some (readLazy cs)) (p.repeatLast counts)

theorem repeating_bind {β : Type} (p : Place) (m : Nat × Option Nat) (rest : List Char)
    (S : Place → List Char → Option β) : ((repeating p m rest).bind fun q => S q.1 q.2) =
      (repeatLast? p.flags m.1 m.2 (readLazy rest).1 p.items).elim none
        fun items => S { p with items } (readLazy rest).2 := by
  rw [repeating, thenMap, andThen, Option.bind_some, Place.repeatLast]
  cases repeatLast? p.flags m.1 m.2 (readLazy rest).1 p.items <;> rfl

theorem local_repeating (p : Place) (m : Nat × Option Nat) : Local (repeating p m) :=
  local_readLazy.thenMap _

/-- What an opening parenthesis begins. -/
def enclosed (o : Opened) : Reader Place :=
  match o.2 with
  | none => fun cs => some (p.switch o.1, cs)
  | some capture =>
    if capture.name?.any p.names.contains then fun _ => none
    else thenMap (N { flags := o.1, names := capture.name?.toList ++ p.names })
      fun body => some (p.enclose capture body)

theorem enclosed_suffix {N : Place → Reader (Item × List String)}
    (hN : ∀ {p cs a r}, N p cs = some (a, r) → r <:+ cs) {p q : Place} {o : Opened}
    {cs r : List Char}
    (h : enclosed N p o cs = some (q, r)) : r <:+ cs := by
  obtain ⟨inner, name⟩ := o
  cases name with
  | none =>
    cases h
    exact List.suffix_rfl
  | some name =>
    simp only [enclosed] at h
    split_ifs at h
    obtain ⟨body, hread, -⟩ := thenMap_eq_some.1 h
    exact hN hread

variable [v : Vocabulary]

/-- A token other than a closing parenthesis. -/
def token (cs : List Char) : Option (Place × List Char) :=
  match cs with
  | [] => none
  | c :: rest =>
    if c = '|' then some (p.alternative, rest)
    else if c = '(' then andThen (opening p.flags) (enclosed N p) rest
    else if c = '[' then thenMap (bracketed p.flags)
      (fun s => (setItem? p.flags s.1).map fun i => p.push { i with height := s.2 }) rest
    else if c = '?' then repeating p (0, some 1) rest
    else if c = '*' then repeating p (0, none) rest
    else if c = '+' then repeating p (1, none) rest
    else if c = '\x7b' then andThen (counts p.flags)
      (fun m => andThen (skipping p.flags) fun _ => repeating p m) rest
    else (readPrimitive? p.flags cs).map fun q => (p.push q.1, q.2)

variable (rest : List Char)

theorem token_open : token N p ('(' :: rest) = andThen (opening p.flags) (enclosed N p) rest := rfl

theorem token_bracket : token N p ('[' :: rest) = thenMap (bracketed p.flags)
    (fun s => (setItem? p.flags s.1).map fun i => p.push { i with height := s.2 }) rest := rfl

theorem token_question : token N p ('?' :: rest) = repeating p (0, some 1) rest := rfl

theorem token_star : token N p ('*' :: rest) = repeating p (0, none) rest := rfl

theorem token_plus : token N p ('+' :: rest) = repeating p (1, none) rest := rfl

theorem token_brace : token N p ('\x7b' :: rest) = andThen (counts p.flags)
    (fun m => andThen (skipping p.flags) fun _ => repeating p m) rest := rfl

/-- The characters that begin a token of their own kind. -/
def tokenChars : List Char := ['|', '(', '[', '?', '*', '+', '\x7b']

theorem token_primitive {c : Char} (hc : c ∉ tokenChars) : token N p (c :: rest) =
    (readPrimitive? p.flags (c :: rest)).map fun q => (p.push q.1, q.2) := by
  simp only [tokenChars, List.mem_cons, List.not_mem_nil, or_false, not_or] at hc
  obtain ⟨h₁, h₂, h₃, h₄, h₅, h₆, h₇⟩ := hc
  rw [token, if_neg h₁, if_neg h₂, if_neg h₃, if_neg h₄, if_neg h₅, if_neg h₆, if_neg h₇]

end Token

variable [v : Vocabulary] {r cs rest : List Char} {c : Char}
  {N : Place → Reader (Item × List String)} {p : Place} {a : Item × List String}

/-- Alternatives up to their end. -/
def branches (k : Nat) (inGroup : Bool) (p : Place) (cs : List Char) : Option (Item × State) :=
  readBranches? k inGroup p.branches p.items ⟨cs, p.flags, p.names⟩

/-- Alternatives inside a group as a reader. -/
def groups (k : Nat) (p : Place) (cs : List Char) : Option ((Item × List String) × List Char) :=
  (branches k true p cs).map fun q => ((q.1, q.2.names), q.2.rest)

theorem branches_token (k : Nat) (inGroup : Bool) (p : Place)
    (h : skip p.flags cs = c :: rest) (hc : c ≠ ')') : branches (k + 1) inGroup p cs =
      (token (groups k) p (c :: rest)).bind fun q => branches k inGroup q.1 q.2 := by
  rw [branches, readBranches?]
  simp only [h]
  split
  · next heq => cases heq
  · next heq => exact absurd (List.cons.inj heq).1 hc
  · next heq =>
      cases heq
      rfl
  · next heq =>
      cases heq
      rw [token_open, andThen, opening]
      cases readOpening? p.flags rest with
      | none => rfl
      | some o =>
        cases o with
        | flags inner rest => rfl
        | group inner capture rest =>
          simp only [Option.map_some, Option.bind_some, enclosed]
          split_ifs with hname
          · rfl
          · simp only [thenMap, andThen, groups, branches]
            cases readBranches? k true [] [] ⟨rest, inner, capture.name?.toList ++ p.names⟩ <;> rfl
  · next heq =>
      cases heq
      rw [token_bracket, thenMap, andThen, bracketed]
      cases Vocabulary.bracket p.flags rest with
      | none => rfl
      | some b =>
        simp only [Option.map_some, Option.bind_some]
        cases setItem? p.flags b.1 <;> rfl
  · next heq =>
      cases heq
      rw [token_question, repeating_bind]
      simp only
      cases repeatLast? p.flags 0 (some 1) (readLazy rest).1 p.items <;> rfl
  · next heq =>
      cases heq
      rw [token_star, repeating_bind]
      simp only
      cases repeatLast? p.flags 0 none (readLazy rest).1 p.items <;> rfl
  · next heq =>
      cases heq
      rw [token_plus, repeating_bind]
      simp only
      cases repeatLast? p.flags 1 none (readLazy rest).1 p.items <;> rfl
  · next heq =>
      cases heq
      rw [token_brace, andThen, counts]
      cases readCounts? p.flags rest with
      | none => rfl
      | some m =>
        simp only [Option.map_some, Option.bind_some, andThen_skipping, repeating_bind]
        cases repeatLast? p.flags m.1 m.2.1 (readLazy (skip p.flags m.2.2)).1 p.items <;> rfl
  · next hnil hparen hbar hopen hbracket hquestion hstar hplus hbrace =>
      have hprimitive : c ∉ tokenChars := by
        simp only [tokenChars, List.mem_cons, List.not_mem_nil, or_false, not_or]
        exact ⟨fun hc => hbar rest (hc ▸ rfl), fun hc => hopen rest (hc ▸ rfl),
          fun hc => hbracket rest (hc ▸ rfl), fun hc => hquestion rest (hc ▸ rfl),
          fun hc => hstar rest (hc ▸ rfl), fun hc => hplus rest (hc ▸ rfl),
          fun hc => hbrace rest (hc ▸ rfl)⟩
      rw [token_primitive _ _ _ hprimitive]
      cases readPrimitive? p.flags (c :: rest) <;> rfl

/-- A pattern ends with its text, and a group with its parenthesis. -/
theorem branches_end (k : Nat) (inGroup : Bool) (p : Place) :
    (skip p.flags cs = [] → branches (k + 1) inGroup p cs =
      if inGroup then none else some (p.close, ⟨[], p.flags, p.names⟩)) ∧
    ∀ rest, skip p.flags cs = ')' :: rest → branches (k + 1) inGroup p cs =
      if inGroup then some (p.close, ⟨rest, p.flags, p.names⟩) else none := by
  rw [branches, readBranches?]
  constructor
  · intro h
    simp only [h]
    rfl
  · intro rest h
    simp only [h]
    rfl

/-! ## Alternatives inside a group -/

theorem token_congr {N' : Place → Reader (Item × List String)}
    (h : ∀ p' cs', cs'.length ≤ rest.length → N p' cs' = N' p' cs') :
    token N p (c :: rest) = token N' p (c :: rest) := by
  have hopen : andThen (opening p.flags) (enclosed N p) rest =
      andThen (opening p.flags) (enclosed N' p) rest := by
    unfold andThen
    cases hopening : opening p.flags rest with
    | none => rfl
    | some q =>
      obtain ⟨⟨inner, name⟩, m⟩ := q
      have hle := ((local_opening p.flags).suffix hopening).length_le
      cases name with
      | none => rfl
      | some name =>
        simp only [Option.bind_some, enclosed]
        split_ifs
        · rfl
        · simp only [thenMap, andThen, h _ m hle]
  simp only [token, hopen]

/-- A token inside a group, or the end of the group. -/
def groupTail (N : Place → Reader (Item × List String)) (p : Place) :
    Reader (Place ⊕ (Item × List String)) :=
  onHead ')' (fun cs => some (.inr p.result, cs)) fun cs => (token N p cs).map fun q =>
    (.inl q.1, q.2)

def groupStep (N : Place → Reader (Item × List String)) (p : Place) :
    Reader (Place ⊕ (Item × List String)) :=
  andThen (skipping p.flags) fun _ => groupTail N p

theorem groups_zero (p : Place) (cs : List Char) : groups 0 p cs = none := rfl

theorem groups_succ (k : Nat) (p : Place) (cs : List Char) :
    groups (k + 1) p cs = looping (groupStep (groups (k + 1 - 1))) (groups k) p cs := by
  rw [looping, groupStep, andThen, andThen_skipping, Nat.add_sub_cancel, groups]
  cases h : skip p.flags cs with
  | nil =>
    rw [(branches_end k true p).1 h]
    rfl
  | cons c rest =>
    by_cases hc : c = ')'
    · subst hc
      rw [(branches_end k true p).2 rest h, groupTail, onHead_cons]
      rfl
    · rw [branches_token k true p h hc, groupTail, onHead_of_ne fun t ht => hc (List.cons.inj ht).1]
      cases token (groups k) p (c :: rest) <;> rfl

/-- Alternatives inside a group, with rounds enough. -/
def allGroups (p : Place) (cs : List Char) : Option ((Item × List String) × List Char) :=
  groups (cs.length + 1) p cs

theorem allGroups_nil (h : skip p.flags cs = []) : allGroups p cs = none := by
  rw [allGroups, groups, (branches_end _ _ _).1 h]
  rfl

theorem allGroups_paren (h : skip p.flags cs = ')' :: rest) :
    allGroups p cs = some (p.result, rest) := by
  rw [allGroups, groups, (branches_end _ _ _).2 _ h]
  rfl

/-- A brace with nothing behind it begins no token. -/
theorem token_unclosed (N : Place → Reader (Item × List String))
    (h : Unclosed p.flags r) : token N p r = none := by
  obtain ⟨inside, rfl, hskip⟩ := h
  rw [token_brace, andThen_of_none (counts_of_skip_nil _ hskip)]

theorem cut_enclosed (hcut : ∀ p', Cut (fun _ _ => False) (allGroups p') cs) (p : Place)
    (o : Opened) : Cut (fun _ _ => False) (enclosed allGroups p o) cs := by
  obtain ⟨inner, name⟩ := o
  cases name with
  | none => exact .clean rfl fun t => rfl
  | some name =>
    simp only [enclosed]
    split_ifs
    · exact .fail fun t => rfl
    · exact (hcut _).andThen (fun body r _ => (local_pure (p.enclose name body)).cut r)
        (fun body => (local_pure (p.enclose name body)).suffix) fun _ _ h => h.elim

/-- The alternatives of a whole pattern, from a place of it. -/
def allTop (p : Place) (cs : List Char) : Option (Item × List String) :=
  (branches (cs.length + 1) false p cs).map fun q => (q.1, q.2.names)

theorem allTop_nil (h : skip p.flags cs = []) : allTop p cs = some p.result := by
  rw [allTop, (branches_end _ _ _).1 h]
  rfl

theorem allTop_paren (h : skip p.flags cs = ')' :: rest) : allTop p cs = none := by
  rw [allTop, (branches_end _ _ _).2 _ h]
  rfl

variable [LawfulVocabulary v]

/-- A token takes a character. -/
theorem token_suffix (hN : ∀ {p cs a r}, N p cs = some (a, r) → r <:+ cs) {q : Place}
    (h : token N p (c :: rest) = some (q, r)) : r <:+ rest := by
  by_cases hc : c ∈ tokenChars
  · simp only [tokenChars, List.mem_cons, List.not_mem_nil, or_false] at hc
    obtain rfl | rfl | rfl | rfl | rfl | rfl | rfl := hc
    · cases h
      exact List.suffix_rfl
    · rw [token_open] at h
      obtain ⟨o, m, hopening, henclosed⟩ := andThen_eq_some.1 h
      exact (enclosed_suffix hN henclosed).trans ((local_opening p.flags).suffix hopening)
    · rw [token_bracket] at h
      exact ((local_bracketed p.flags).thenMap _).suffix h
    · exact (local_repeating p _).suffix h
    · exact (local_repeating p _).suffix h
    · exact (local_repeating p _).suffix h
    · exact ((local_counts p.flags).andThen fun m => (local_skipping p.flags).andThen fun _ =>
        local_repeating p m).suffix h
  · rw [token_primitive _ _ _ hc] at h
    obtain ⟨⟨i, r'⟩, hread, heq⟩ := Option.map_eq_some_iff.1 h
    cases heq
    exact readPrimitive_suffix p.flags hread

theorem groupStep_suffix (hN : ∀ {p cs a r}, N p cs = some (a, r) → r <:+ cs)
    {x : Place ⊕ (Item × List String)} (h : groupStep N p cs = some (x, r)) :
    r <:+ cs ∧ r.length < cs.length := by
  rw [groupStep, andThen_skipping] at h
  have hskip := skip_suffix p.flags cs
  cases hm : skip p.flags cs with
  | nil =>
    rw [hm] at h
    cases h
  | cons c rest =>
    rw [hm] at h hskip
    have hrest : r <:+ rest := by
      obtain ⟨t, heq, hread⟩ | hread := onHead_cases h
      · cases heq
        cases hread
        exact List.suffix_rfl
      · obtain ⟨⟨q, r'⟩, htoken, heq⟩ := Option.map_eq_some_iff.1 hread
        cases heq
        exact token_suffix hN htoken
    exact ⟨(hrest.trans (List.suffix_cons c rest)).trans hskip,
      Nat.lt_of_lt_of_le (Nat.lt_succ_of_le hrest.length_le) hskip.length_le⟩

theorem nested_groupStep : Nested groupStep where
  congr {N N' p cs} h := by
    rw [groupStep, groupStep, andThen_skipping, andThen_skipping]
    have hskip := (skip_suffix p.flags cs).length_le
    cases hm : skip p.flags cs with
    | nil => rfl
    | cons c rest =>
      rw [hm, List.length_cons] at hskip
      have htoken : token N p (c :: rest) = token N' p (c :: rest) :=
        token_congr fun p' cs' hle => h p' cs' (by omega)
      simp only [groupTail, onHead, htoken]
  suffix hN _ _ _ _ h := (groupStep_suffix hN h).1
  advances hN _ _ _ _ h := (groupStep_suffix hN h).2

theorem allGroups_eq (p : Place) (cs : List Char) :
    allGroups p cs = looping (groupStep allGroups) allGroups p cs :=
  nested_groupStep.eq_looping Nat.one_pos groups_zero groups_succ
    (fun p cs => by rw [allGroups, Nat.one_mul]) p cs

theorem allGroups_suffix
    (h : allGroups p cs = some (a, r)) : r <:+ cs :=
  nested_groupStep.suffix_of_fuel Nat.one_pos groups_zero groups_succ h

theorem allGroups_token
    (h : skip p.flags cs = c :: rest) (hc : c ≠ ')') :
    allGroups p cs = andThen (token allGroups p) allGroups (c :: rest) := by
  rw [allGroups_eq, looping, groupStep, andThen, andThen_skipping, h, groupTail,
    onHead_of_ne fun t ht => hc (List.cons.inj ht).1, andThen]
  cases token allGroups p (c :: rest) <;> rfl

/-- A group ends with a closing parenthesis. -/
theorem paren_mem_of_allGroups
    (h : allGroups p cs = some (a, r)) : ')' ∈ cs := by
  induction hn : cs.length using Nat.strong_induction_on generalizing p cs with
  | _ n ih =>
    subst hn
    have hskip := skip_suffix p.flags cs
    cases hm : skip p.flags cs with
    | nil =>
      rw [allGroups_nil hm] at h
      cases h
    | cons c rest =>
      rw [hm] at hskip
      by_cases hc : c = ')'
      · exact hskip.mem (hc ▸ List.mem_cons_self ..)
      · rw [allGroups_token hm hc] at h
        obtain ⟨q, m, htoken, hgroup⟩ := andThen_eq_some.1 h
        have hm' := (token_suffix allGroups_suffix htoken).trans (List.suffix_cons c rest)
        have hlt := Nat.lt_succ_of_le (token_suffix allGroups_suffix htoken).length_le
        have hle := hskip.length_le
        exact (hm'.trans hskip).mem (ih _ (Nat.lt_of_lt_of_le hlt hle) hgroup rfl)

theorem allGroups_unclosed (h : Unclosed p.flags r) : allGroups p r = none := by
  have htoken := token_unclosed allGroups h
  have hskip := skip_unclosed h
  obtain ⟨inside, rfl, -⟩ := h
  rw [allGroups_token hskip (by decide), andThen_of_none htoken]

theorem cut_token
    (hshorter : ∀ p' cs', cs'.length ≤ rest.length → Cut (fun _ _ => False) (allGroups p') cs')
    (p : Place) (c : Char) :
    Cut (fun q r => r.length < (c :: rest).length ∧ Unclosed q.flags r) (token allGroups p)
      (c :: rest) := by
  by_cases hc : c ∈ tokenChars
  · simp only [tokenChars, List.mem_cons, List.not_mem_nil, or_false] at hc
    obtain rfl | rfl | rfl | rfl | rfl | rfl | rfl := hc
    · exact .clean rfl fun t => rfl
    · have hopen : Cut (fun _ _ =>
          False) (andThen (opening p.flags) (enclosed allGroups p)) rest := by
        refine ((local_opening p.flags).cut rest).andThen (fun o r h =>
          cut_enclosed (fun p' => ?_) p o)
          (fun o => enclosed_suffix allGroups_suffix) fun _ _ h => h.elim
        exact hshorter p' r ((local_opening p.flags).suffix h).length_le
      exact (hopen.imp fun _ _ _ _ h => h.elim).congr (token_open allGroups p rest) fun t => rfl
    · exact (((local_bracketed p.flags).thenMap _).cut_of rest).congr
        (token_bracket allGroups p rest)
        fun t => rfl
    · exact ((local_repeating p _).cut_of rest).congr (token_question allGroups p rest) fun t => rfl
    · exact ((local_repeating p _).cut_of rest).congr (token_star allGroups p rest) fun t => rfl
    · exact ((local_repeating p _).cut_of rest).congr (token_plus allGroups p rest) fun t => rfl
    · exact (((local_counts p.flags).andThen fun m => (local_skipping p.flags).andThen fun _ =>
        local_repeating p m).cut_of rest).congr (token_brace allGroups p rest) fun t => rfl
  · have hprimitive := (cut_readPrimitive p.flags c rest).shrink fun {cs i r} hread => by
      cases cs with
      | nil => cases hread
      | cons d cs => exact Nat.lt_succ_of_le (readPrimitive_suffix p.flags hread).length_le
    exact (hprimitive.map p.push fun i r h => h).congr (token_primitive _ _ _ hc)
      fun t => token_primitive _ _ _ hc

theorem local_allGroups (p : Place) : Local (allGroups p) := by
  refine Local.loop_of_cut allGroups_eq (nested_groupStep.suffix allGroups_suffix)
    (nested_groupStep.advances allGroups_suffix) (fun p cs hshorter => ?_) p
  have htail : ∀ {cs : List Char} {x r}, groupTail allGroups p cs = some (x, r) → r <:+ cs := by
    intro cs x r h
    obtain ⟨t, rfl, hread⟩ | hread := onHead_cases h
    · cases hread
      exact List.suffix_cons _ _
    · obtain ⟨⟨q, r'⟩, htoken, heq⟩ := Option.map_eq_some_iff.1 hread
      cases heq
      cases cs with
      | nil => cases htoken
      | cons c rest => exact (token_suffix allGroups_suffix htoken).trans (List.suffix_cons c rest)
  refine (cut_skipping p.flags cs).andThen (fun _ m hskip => ?_) (fun _ => htail) fun _ _ h =>
    h.elim
  have hle := ((local_skipping p.flags).suffix hskip).length_le
  cases m with
  | nil =>
    refine .short rfl fun t x r hread => .inl ?_
    rw [List.nil_append, groupTail, onHead_cons] at hread
    cases hread
    exact List.suffix_rfl
  | cons c rest =>
    rw [List.length_cons] at hle
    by_cases hc : c = ')'
    · subst hc
      exact .clean (onHead_cons _) fun t => onHead_cons _
    · have hne : ∀ t t', c :: t ≠ ')' :: t' := fun t t' h => hc (List.cons.inj h).1
      have hrest : ∀ p' cs', cs'.length ≤ rest.length → Cut (fun _ _ => False) (allGroups p') cs' :=
        fun p' cs' hle' => hshorter p' cs' (by omega)
      have htoken := cut_token hrest p c
      refine Cut.congr (htoken.map Sum.inl fun q r h => ?_) (onHead_of_ne (hne _))
        fun t => onHead_of_ne (hne _)
      exact ⟨Nat.lt_of_lt_of_le h.1 hle, q, rfl, allGroups_unclosed h.2⟩

/-! ## Alternatives at the top -/

theorem token_groups {k : Nat} (hk : rest.length < k) :
    token (groups k) p (c :: rest) = token allGroups p (c :: rest) :=
  token_congr fun _ _ hle =>
    nested_groupStep.fuel_irrelevant Nat.one_pos groups_zero groups_succ (by omega) (by omega)

theorem branches_fuel {k k' : Nat} (hk : cs.length < k) (hk' : cs.length < k') :
    branches k false p cs = branches k' false p cs := by
  induction k generalizing k' p cs with
  | zero => cases hk
  | succ k ih =>
    obtain ⟨k', rfl⟩ := Nat.exists_eq_add_one_of_ne_zero (Nat.ne_zero_of_lt hk')
    cases h : skip p.flags cs with
    | nil => rw [(branches_end _ _ _).1 h, (branches_end _ _ _).1 h]
    | cons c rest =>
      by_cases hc : c = ')'
      · subst hc
        rw [(branches_end _ _ _).2 _ h, (branches_end _ _ _).2 _ h]
      have hskip := (skip_suffix p.flags cs).length_le
      rw [h, List.length_cons] at hskip
      rw [branches_token _ _ _ h hc, branches_token _ _ _ h hc, token_groups (by omega),
        token_groups (by omega)]
      cases hread : token allGroups p (c :: rest) with
      | none => rfl
      | some q =>
        have hle := (token_suffix allGroups_suffix hread).length_le
        exact ih (by omega) (by omega)

theorem allTop_token
    (h : skip p.flags cs = c :: rest) (hc : c ≠ ')') :
    allTop p cs = (token allGroups p (c :: rest)).bind fun q => allTop q.1 q.2 := by
  have hskip := (skip_suffix p.flags cs).length_le
  rw [h, List.length_cons] at hskip
  rw [allTop, branches_token _ _ _ h hc, token_groups (by omega)]
  cases hread : token allGroups p (c :: rest) with
  | none => rfl
  | some q =>
    have hle := (token_suffix allGroups_suffix hread).length_le
    exact congrArg (Option.map _) (branches_fuel (by omega) (by omega))

/-! ## The end of a group and of a pattern -/

/-- What is left of the alternatives of a pattern, and of those with a closing parenthesis behind
them. -/
inductive Ending (p : Place) (cs : List Char) : Prop
  /-- They end; the parenthesis would close a group. -/
  | clean {a : Item × List String} (alone : allTop p cs = some a)
      (closed : ∀ t, allGroups p (cs ++ ')' :: t) = some (a, t))
      (stray : ∀ t, allTop p (cs ++ ')' :: t) = none)
  /-- They end with a comment; the parenthesis would belong to it. -/
  | commented {a : Item × List String} (alone : allTop p cs = some a)
      (unclosed : ∀ t, '\n' ∉ t → allGroups p (cs ++ ')' :: t) = none)
      (swallowed : ∀ t, '\n' ∉ t → allTop p (cs ++ ')' :: t) = some a)
  /-- They are not well formed, and the parenthesis does not close a group. -/
  | short (alone : allTop p cs = none)
      (unclosed : ∀ t, '\n' ∉ t → ')' ∉ t → allGroups p (cs ++ ')' :: t) = none)
  /-- They have a closing parenthesis too many. -/
  | stray {front back : List Char} (alone : allTop p cs = none) (split : cs = front ++ ')' :: back)
      (ended : (allTop p front).isSome) (stray : allTop p (front ++ [')']) = none)

theorem allTop_unclosed (h : Unclosed p.flags r) : allTop p r = none := by
  have htoken := token_unclosed allGroups h
  have hskip := skip_unclosed h
  obtain ⟨inside, rfl, -⟩ := h
  rw [allTop_token hskip (by decide), htoken, Option.bind_none]

/-- A brace with nothing behind it does not become a count with a parenthesis behind it. -/
theorem allGroups_unclosed_before {t : List Char} (h : Unclosed p.flags r) (ht : ')' ∉ t) :
    allGroups p (r ++ ')' :: t) = none := by
  have htoken := token_unclosed allGroups h
  obtain ⟨inside, rfl, -⟩ := h
  have hcut := ((local_counts p.flags).andThen fun m => (local_skipping p.flags).andThen fun _ =>
    local_repeating p m).cut inside
  rw [List.cons_append, allGroups_token (skip_of_visible _ rfl (by decide) _) (by decide)]
  refine Option.eq_none_iff_forall_ne_some.2 fun a hread => ?_
  obtain ⟨q, m, hm, hgroup⟩ := andThen_eq_some.1 hread
  have hsuffix := (hcut.beyond_of_none htoken hm).resolve_right fun ⟨_, h, _⟩ => h
  exact ht (hsuffix.mem (paren_mem_of_allGroups hgroup))

/-- A closing parenthesis too many behind a token. -/
theorem ending_of_stray {q : Place} {front back : List Char}
    (hskip : skip p.flags cs = c :: rest) (hc : c ≠ ')')
    (htoken : token allGroups p (c :: rest) = some (q, front ++ ')' :: back))
    (halone : allTop q (front ++ ')' :: back) = none) (hended : (allTop q front).isSome)
    (hstray : allTop q (front ++ [')']) = none) : Ending p cs := by
  obtain ⟨x, hx⟩ := skip_suffix p.flags cs
  obtain ⟨y, rfl⟩ := token_suffix allGroups_suffix htoken
  rw [hskip] at hx
  have hcs : cs = (x ++ c :: (y ++ front)) ++ ')' :: back := by simp [← hx]
  obtain ⟨hfront, hbefore⟩ : skip p.flags (x ++ c :: (y ++ front)) = c :: (y ++ front) ∧
      ∀ t, skip p.flags ((x ++ c :: (y ++ front)) ++ ')' :: t) = c :: (y ++ front) ++ ')' :: t := by
    refine skip_stops p.flags (t := back) ?_
    rw [← hcs, hskip]
    simp
  have hcut : Cut _ (token allGroups p) (c :: (y ++ front)) :=
    cut_token (fun p' cs' _ => (local_allGroups p').cut cs') p c
  have hread : token allGroups p (c :: (y ++ front) ++ ')' :: back) =
      some (q, front ++ ')' :: back) := by
    rw [← htoken]
    simp
  obtain ⟨htoken', hbefore'⟩ | ⟨-, hunclosed⟩ := hcut.stops hread
  · refine .stray ?_ hcs ?_ ?_
    · rw [allTop_token hskip hc, htoken, Option.bind_some, halone]
    · rwa [allTop_token hfront hc, htoken', Option.bind_some]
    · rw [allTop_token (hbefore []) hc]
      exact (congrArg (Option.bind · _) (hbefore' [])).trans hstray
  · rw [allTop_unclosed hunclosed] at hended
    cases hended

/-- A token, and the rest of the alternatives behind it. -/
theorem ending_of_token (hskip : skip p.flags cs = c :: rest)
    (hbefore : ∀ t, skip p.flags (cs ++ ')' :: t) = c :: (rest ++ ')' :: t)) (hc : c ≠ ')')
    (ih : ∀ q r, r.length < cs.length → Ending q r) : Ending p cs := by
  have hlength := (skip_suffix p.flags cs).length_le
  rw [hskip, List.length_cons] at hlength
  have hcut : ∀ rest' : List Char,
    Cut (fun q r => r.length < (c :: rest').length ∧ Unclosed q.flags r)
      (token allGroups p) (c :: rest') :=
    fun rest' => cut_token (fun p' cs' _ => (local_allGroups p').cut cs') p c
  cases hcut rest with
  | @clean q r alone before =>
    have hle := (token_suffix allGroups_suffix alone).length_le
    have htop : allTop p cs = allTop q r := by rw [allTop_token hskip hc, alone, Option.bind_some]
    have hgroup : ∀ t, allGroups p (cs ++ ')' :: t) = allGroups q (r ++ ')' :: t) := fun t => by
      rw [allGroups_token (hbefore t) hc]
      exact andThen_of_some (before t)
    have htop' : ∀ t, allTop p (cs ++ ')' :: t) = allTop q (r ++ ')' :: t) := fun t => by
      rw [allTop_token (hbefore t) hc]
      exact congrArg (Option.bind · _) (before t)
    cases ih q r (by omega) with
    | clean alone' closed stray =>
      exact .clean (htop.trans alone') (fun t => (hgroup t).trans (closed t))
        fun t => (htop' t).trans (stray t)
    | commented alone' unclosed swallowed =>
      exact .commented (htop.trans alone') (fun t ht => (hgroup t).trans (unclosed t ht))
        fun t ht => (htop' t).trans (swallowed t ht)
    | short alone' unclosed =>
      exact .short (htop.trans alone') fun t ht hparen => (hgroup t).trans (unclosed t ht hparen)
    | stray alone' split ended stray =>
      subst split
      exact ending_of_stray hskip hc alone alone' ended stray
  | @commented q alone before =>
    have hend : allTop q [] = some q.result := allTop_nil (skip_nil _)
    refine .commented (a := q.result) ?_ (fun t ht => ?_) fun t ht => ?_
    · rw [allTop_token hskip hc, alone, Option.bind_some, hend]
    · rw [allGroups_token (hbefore t) hc]
      exact (andThen_of_some (before t ht)).trans (allGroups_nil (skip_nil _))
    · rw [allTop_token (hbefore t) hc]
      exact (congrArg (Option.bind · _) (before t ht)).trans hend
  | short alone beyond =>
    refine .short (by rw [allTop_token hskip hc, alone, Option.bind_none]) fun t _ hparen => ?_
    rw [allGroups_token (hbefore t) hc]
    refine Option.eq_none_iff_forall_ne_some.2 fun a hread => ?_
    obtain ⟨q, m, hm, hgroup⟩ := andThen_eq_some.1 hread
    rcases beyond t q m hm with hsuffix | ⟨r', ⟨-, hunclosed⟩, rfl⟩
    · exact hparen (hsuffix.mem (paren_mem_of_allGroups hgroup))
    · cases (allGroups_unclosed_before hunclosed hparen).symm.trans hgroup

theorem ending (p : Place) (cs : List Char) : Ending p cs := by
  induction hn : cs.length using Nat.strong_induction_on generalizing p cs with
  | _ n ih =>
    subst hn
    rcases skip_cut p.flags cs with hbefore | ⟨hnil, hbefore, -⟩
    · obtain ⟨taken, hcs⟩ := skip_suffix p.flags cs
      cases hskip : skip p.flags cs with
      | nil =>
        rw [hskip] at hbefore
        exact .clean (allTop_nil hskip) (fun t => allGroups_paren (hbefore t))
          fun t => allTop_paren (hbefore t)
      | cons c rest =>
        rw [hskip] at hbefore hcs
        by_cases hc : c = ')'
        · subst hc
          have htaken : skip p.flags (taken ++ ')' :: rest) = [] ++ ')' :: rest := by
            rw [hcs, hskip]
            rfl
          have hstops := skip_stops p.flags htaken
          exact .stray (allTop_paren hskip) hcs.symm (by rw [allTop_nil hstops.1]; rfl)
            (allTop_paren (hstops.2 []))
        · exact ending_of_token hskip hbefore hc fun q r hlt => ih _ hlt q r rfl
    · exact .commented (allTop_nil hnil) (fun t ht => allGroups_nil (hbefore t ht))
        fun t ht => allTop_nil (hbefore t ht)

/-- Alternatives that end before a closing parenthesis are those of the group it closes. -/
theorem allGroups_of_allTop (h : allTop p cs = some a)
    (hparen : allTop p (cs ++ [')']) = none) (t : List Char) :
    allGroups p (cs ++ ')' :: t) = some (a, t) := by
  cases ending p cs with
  | clean alone closed => exact Option.some.inj (alone.symm.trans h) ▸ closed t
  | commented _ _ swallowed => cases hparen.symm.trans (swallowed [] List.not_mem_nil)
  | short alone => cases alone.symm.trans h
  | stray alone => cases alone.symm.trans h

end TagMachine.Pattern
