import Mathlib.Tactic
import TagMachine.Pattern.Bracket

set_option autoImplicit false

/-! # Reading a part of a longer pattern

What a reader makes of some characters, and what it makes of them with a closing parenthesis and
more behind them, can be compared (`Cut`). Either it stops before the parenthesis both times, with
the same result; or it has come to the end inside a comment, which goes on up to the next line; or
it needs more than there is. Readers that are put together from such readers are such readers
(`Local.andThen`).
-/

namespace TagMachine.Pattern

/-- A reader takes characters from the front of a text, makes something of them and leaves the
rest. -/
abbrev Reader (α : Type) : Type := List Char → Option (α × List Char)

variable {α β : Type} {R : Reader α} {cs : List Char}

/-- A reader that was given a closing parenthesis and `t` behind other characters has taken the
parenthesis, or it stops before it at a place where nothing can go on without it. -/
def Beyond (dead : α → List Char → Prop) (t : List Char) (a : α) (r : List Char) : Prop :=
  r <:+ t ∨ ∃ r', dead a r' ∧ r = r' ++ ')' :: t

/-- What a reader makes of some characters alone and before a closing parenthesis. -/
inductive Cut (dead : α → List Char → Prop) (R : Reader α) (cs : List Char) : Prop
  /-- It stops before the parenthesis. -/
  | clean {a r} (alone : R cs = some (a, r))
      (before : ∀ t, R (cs ++ ')' :: t) = some (a, r ++ ')' :: t))
  /-- It ends in a comment. -/
  | commented {a} (alone : R cs = some (a, []))
      (before : ∀ t, '\n' ∉ t → R (cs ++ ')' :: t) = some (a, []))
      (beyond : ∀ t a r, R (cs ++ ')' :: t) = some (a, r) → r <:+ t)
  /-- It needs the parenthesis, or it fails. -/
  | short (alone : R cs = none)
    (beyond : ∀ t a r, R (cs ++ ')' :: t) = some (a, r) → Beyond dead t a r)

/-- A reader takes characters from the front, and what is behind a closing parenthesis does not
matter unless it takes that. -/
structure Local (R : Reader α) : Prop where
  suffix : ∀ {cs a r}, R cs = some (a, r) → r <:+ cs
  cut : ∀ cs, Cut (fun _ _ => False) R cs

/-- A reader that goes on from what another has read. -/
def andThen (R : Reader α) (S : α → Reader β)
    (cs : List Char) : Option (β × List Char) :=
  (R cs).bind fun p => S p.1 p.2

section Calculus

variable {S : α → Reader β} {dead : α → List Char → Prop} {dead' : β → List Char → Prop}
  {r t : List Char} {a : α}

theorem andThen_eq_some {b : β} : andThen R S cs = some (b, r) ↔
    ∃ a rest, R cs = some (a, rest) ∧ S a rest = some (b, r) := by
  rw [andThen, Option.bind_eq_some_iff, Prod.exists]

theorem andThen_of_some (h : R cs = some (a, r)) : andThen R S cs = S a r := by
  rw [andThen, h, Option.bind_some]

theorem andThen_of_none (h : R cs = none) : andThen R S cs = none := by
  rw [andThen, h, Option.bind_none]

theorem Cut.beyond_of_none (h : Cut dead R cs) (hnone : R cs = none)
    (hread : R (cs ++ ')' :: t) = some (a, r)) : Beyond dead t a r := by
  cases h with
  | clean alone => cases hnone.symm.trans alone
  | commented alone => cases hnone.symm.trans alone
  | short _ beyond => exact beyond t a r hread

/-- A reader that stops before the parenthesis once stops there always. -/
theorem Cut.stops (h : Cut dead R cs)
    (hread : R (cs ++ ')' :: t) = some (a, r ++ ')' :: t)) :
    (R cs = some (a, r) ∧ ∀ t', R (cs ++ ')' :: t') = some (a, r ++ ')' :: t')) ∨ dead a r := by
  have hnot : ¬ r ++ ')' :: t <:+ t := fun hsuffix => by
    have hle := hsuffix.length_le
    rw [List.length_append, List.length_cons] at hle
    omega
  cases h with
  | clean alone before =>
    obtain ⟨rfl, hrest⟩ := Prod.mk.inj (Option.some.inj ((before t).symm.trans hread))
    obtain rfl := List.append_cancel_right hrest
    exact .inl ⟨alone, before⟩
  | commented _ _ beyond => exact absurd (beyond t a _ hread) hnot
  | short _ beyond =>
    rcases beyond t a _ hread with hsuffix | ⟨r', hdead, hrest⟩
    · exact absurd hsuffix hnot
    · exact .inr (List.append_cancel_right hrest ▸ hdead)

/-- Another reader that makes the same of what it is given. -/
theorem Cut.congr {R' : Reader α} {cs' : List Char} (h : Cut dead R cs)
    (halone : R' cs' = R cs) (hbefore : ∀ t, R' (cs' ++ ')' :: t) = R (cs ++ ')' :: t)) :
    Cut dead R' cs' := by
  cases h with
  | clean alone before => exact .clean (halone.trans alone) fun t => (hbefore t).trans (before t)
  | commented alone before beyond =>
    exact .commented (halone.trans alone) (fun t ht => (hbefore t).trans (before t ht))
      fun t a r h => beyond t a r ((hbefore t).symm.trans h)
  | short alone beyond =>
    exact .short (halone.trans alone) fun t a r h => beyond t a r ((hbefore t).symm.trans h)

/-- What goes on from a reader that needs the parenthesis takes it, or needs it too. -/
theorem Beyond.andThen {b : β} {rest : List Char} (h : Beyond dead t a rest)
    (hread : S a rest = some (b, r)) (hsuffix : ∀ a {cs b r}, S a cs = some (b, r) → r <:+ cs)
    (hdead : ∀ a r, dead a r → S a r = none ∧ Cut dead' (S a) r) : Beyond dead' t b r := by
  rcases h with hrest | ⟨r', hr', rfl⟩
  · exact .inl ((hsuffix a hread).trans hrest)
  · obtain ⟨hnone, hcut⟩ := hdead a r' hr'
    exact hcut.beyond_of_none hnone hread

theorem Cut.andThen (hR : Cut dead R cs) (hS : ∀ a r, R cs = some (a, r) → Cut dead' (S a) r)
    (hsuffix : ∀ a {cs b r}, S a cs = some (b, r) → r <:+ cs)
    (hdead : ∀ a r, dead a r → S a r = none ∧ Cut dead' (S a) r) : Cut dead' (andThen R S) cs := by
  cases hR with
  | @clean a r alone before =>
    exact (hS a r alone).congr (andThen_of_some alone) fun t => andThen_of_some (before t)
  | @commented a alone before beyond =>
    have hend : Pattern.andThen R S cs = S a [] := andThen_of_some alone
    have hbeyond : ∀ t b r, Pattern.andThen R S (cs ++ ')' :: t) = some (b, r) → r <:+ t := by
      intro t b r hread
      obtain ⟨a', rest, hR, hrest⟩ := andThen_eq_some.1 hread
      exact (hsuffix a' hrest).trans (beyond t a' rest hR)
    cases hread : S a [] with
    | none => exact .short (hend.trans hread) fun t b r h => .inl (hbeyond t b r h)
    | some p =>
      obtain ⟨b, r⟩ := p
      obtain rfl := List.suffix_nil.1 (hsuffix a hread)
      exact .commented (hend.trans hread) (fun t ht => (andThen_of_some (before t ht)).trans hread)
        hbeyond
  | short alone beyond =>
    refine .short (andThen_of_none alone) fun t b r hread => ?_
    obtain ⟨a, rest, hR, hrest⟩ := andThen_eq_some.1 hread
    exact (beyond t a rest hR).andThen hrest hsuffix hdead

theorem Local.andThen (hR : Local R) (hS : ∀ a, Local (S a)) : Local (andThen R S) where
  suffix h := by
    obtain ⟨a, rest, hread, hrest⟩ := andThen_eq_some.1 h
    exact ((hS a).suffix hrest).trans (hR.suffix hread)
  cut cs := (hR.cut cs).andThen (fun a r _ => (hS a).cut r) (fun a => (hS a).suffix) fun _ _ h =>
    h.elim

theorem Local.congr {R' : Reader α} (h : Local R) (heq : ∀ cs, R' cs = R cs) : Local R' :=
  (funext heq : R' = R) ▸ h

theorem Cut.imp {dead₂ : α → List Char → Prop} (h : Cut dead R cs)
    (himp : ∀ t a r, R (cs ++ ')' :: t) = some (a, r ++ ')' :: t) → dead a r → dead₂ a r) :
      Cut dead₂ R cs := by
  cases h with
  | clean alone before => exact .clean alone before
  | commented alone before beyond => exact .commented alone before beyond
  | short alone beyond =>
    refine .short alone fun t a r hread => (beyond t a r hread).imp_right ?_
    rintro ⟨r', hdead, rfl⟩
    exact ⟨r', himp t a r' hread hdead, rfl⟩

/-- Where a `Local` reader stops, there is nothing that needs the parenthesis. -/
theorem Local.cut_of (h : Local R) (cs : List Char) : Cut dead R cs :=
  (h.cut cs).imp fun _ _ _ _ h => h.elim

/-- A reader that takes a character leaves less than there was. -/
theorem Cut.shrink (h : Cut dead R cs) (hR : ∀ {cs a r},
    R cs = some (a, r) → r.length < cs.length) :
    Cut (fun a r => r.length < cs.length ∧ dead a r) R cs := by
  refine h.imp fun t a r hread hdead => ⟨?_, hdead⟩
  have hlt := hR hread
  rw [List.length_append, List.length_append] at hlt
  omega

theorem Cut.fail (h : ∀ t, R (cs ++ t) = none) : Cut dead R cs :=
  .short (by simpa using h []) fun t a r hread => by rw [h] at hread; cases hread

theorem local_pure (a : α) : Local fun cs => some (a, cs) where
  suffix h := by
    obtain ⟨-, rfl⟩ := Prod.mk.inj (Option.some.inj h)
    exact List.suffix_rfl
  cut _ := .clean rfl fun _ => rfl

theorem local_fail : Local fun _ => (none : Option (α × List Char)) where
  suffix h := by cases h
  cut _ := .fail fun _ => rfl

/-- A reader that looks at the next character first and takes it. -/
theorem Local.head {S : Char → Reader α} (hnil : R [] = none)
    (hcons : ∀ c t, R (c :: t) = S c t) (hS : ∀ c, Local (S c)) : Local R where
  suffix {cs} a r h := by
    cases cs with
    | nil => cases hnil.symm.trans h
    | cons c cs => exact ((hS c).suffix ((hcons c cs).symm.trans h)).trans (List.suffix_cons c cs)
  cut cs := by
    cases cs with
    | nil => exact .short hnil fun t a r h => .inl ((hS ')').suffix ((hcons ')' t).symm.trans h))
    | cons c cs => exact ((hS c).cut cs).congr (hcons c cs) fun t => hcons c (cs ++ ')' :: t)

/-- Nothing is read, and the result is there or not. -/
theorem local_option (o : Option α) : Local fun cs => o.map (·, cs) := by
  cases o with
  | none => exact local_fail
  | some a => exact local_pure a

/-- Takes the next character and makes something of it. -/
def first (g : Char → Option α) : Reader α
  | [] => none
  | c :: rest => (g c).map (·, rest)

theorem local_first (g : Char → Option α) : Local (first g) :=
  Local.head rfl (fun _ _ => rfl) fun c => local_option (g c)

end Calculus

/-- A reader whose result is made from that of another, or none. -/
def thenMap (R : Reader α) (g : α → Option β) : Reader β :=
  andThen R fun a cs => (g a).map (·, cs)

theorem thenMap_eq_some {g : α → Option β} {r : List Char} {b : β} :
    thenMap R g cs = some (b, r) ↔ ∃ a, R cs = some (a, r) ∧ g a = some b := by
  rw [thenMap, andThen_eq_some]
  constructor
  · rintro ⟨a, rest, hread, hg⟩
    obtain ⟨b', hb', heq⟩ := Option.map_eq_some_iff.1 hg
    cases heq
    exact ⟨a, hread, hb'⟩
  · rintro ⟨a, hread, hg⟩
    exact ⟨a, r, hread, by rw [hg]; rfl⟩

theorem thenMap_some (R : Reader α) (g : α → β) (cs : List Char) :
    thenMap R (fun a => some (g a)) cs = (R cs).map fun p => (g p.1, p.2) := by
  rw [thenMap, andThen]
  cases R cs <;> rfl

theorem Cut.thenMap {dead : α → List Char → Prop}
    {dead' : β → List Char → Prop} (h : Cut dead R cs) (g : α → Option β)
    (hg : ∀ a b r, g a = some b → dead a r → dead' b r) : Cut dead' (thenMap R g) cs := by
  have hnone (h : ∀ a r, R cs = some (a, r) → g a = none) : Pattern.thenMap R g cs = none := by
    refine Option.eq_none_iff_forall_ne_some.2 fun x hread => ?_
    obtain ⟨a, hR, hb⟩ := thenMap_eq_some.1 hread
    cases (h a _ hR).symm.trans hb
  cases h with
  | @clean a r alone before =>
    cases hb : g a with
    | none =>
      refine .short (hnone fun a' r' hR => ?_) fun t b r' hread => ?_
      · cases alone.symm.trans hR
        exact hb
      · obtain ⟨a', hR, hb'⟩ := thenMap_eq_some.1 hread
        cases (before t).symm.trans hR
        cases hb.symm.trans hb'
    | some b =>
      exact .clean (thenMap_eq_some.2 ⟨a, alone, hb⟩) fun t => thenMap_eq_some.2 ⟨a, before t, hb⟩
  | @commented a alone before beyond =>
    have hbeyond : ∀ t b r, Pattern.thenMap R g (cs ++ ')' :: t) = some (b, r) → r <:+ t := by
      intro t b r hread
      obtain ⟨a, hR, -⟩ := thenMap_eq_some.1 hread
      exact beyond t a r hR
    cases hb : g a with
    | none =>
      refine .short (hnone fun a' r' hR => ?_) fun t b r hread => .inl (hbeyond t b r hread)
      cases alone.symm.trans hR
      exact hb
    | some b =>
      exact .commented (thenMap_eq_some.2 ⟨a, alone, hb⟩)
        (fun t ht => thenMap_eq_some.2 ⟨a, before t ht, hb⟩) hbeyond
  | short alone beyond =>
    refine .short (hnone fun a r hR => ?_) fun t b r hread => ?_
    · cases alone.symm.trans hR
    · obtain ⟨a, hR, hb⟩ := thenMap_eq_some.1 hread
      refine (beyond t a r hR).imp_right ?_
      rintro ⟨r', hdead, heq⟩
      exact ⟨r', hg a b r' hb hdead, heq⟩

/-- Results may be renamed. -/
theorem Cut.map {dead : α → List Char → Prop}
    {dead' : β → List Char → Prop} (h : Cut dead R cs) (g : α → β)
    (hg : ∀ a r, dead a r → dead' (g a) r) :
    Cut dead' (fun cs => (R cs).map fun p => (g p.1, p.2)) cs := by
  have hmap : Cut dead' (Pattern.thenMap R fun a => some (g a)) cs :=
    h.thenMap _ fun a b r hb hdead => Option.some.inj hb ▸ hg a r hdead
  exact hmap.congr (thenMap_some R g cs).symm fun t => (thenMap_some R g _).symm

/-! ## Choices -/

/-- A reader that takes a certain character where it follows, and goes on in its own way from
there. -/
def onHead (c : Char) (S R : Reader α) (cs : List Char) : Option (α × List Char) :=
  if cs.head? = some c then S cs.tail else R cs

section OnHead

variable {c : Char} {S : Reader α}

@[simp] theorem onHead_cons (t : List Char) : onHead c S R (c :: t) = S t := if_pos rfl

theorem onHead_of_ne {cs : List Char} (h : ∀ t, cs ≠ c :: t) : onHead c S R cs = R cs := by
  refine if_neg fun hhead => ?_
  cases cs with
  | nil => cases hhead
  | cons d t => exact h t (by rw [Option.some.inj hhead])

theorem onHead_cases {cs : List Char} {p : α × List Char} (h : onHead c S R cs = some p) :
    (∃ t, cs = c :: t ∧ S t = some p) ∨ R cs = some p := by
  by_cases hhead : ∃ t, cs = c :: t
  · obtain ⟨t, rfl⟩ := hhead
    exact .inl ⟨t, rfl, (onHead_cons t).symm.trans h⟩
  · push Not at hhead
    exact .inr ((onHead_of_ne hhead).symm.trans h)

theorem Local.onHead (hS : Local S) (hR : Local R) (hc : c ≠ ')') : Local (onHead c S R) where
  suffix h := by
    obtain ⟨t, rfl, hread⟩ | hread := onHead_cases h
    · exact (hS.suffix hread).trans (List.suffix_cons c t)
    · exact hR.suffix hread
  cut cs := by
    cases cs with
    | nil =>
      refine (hR.cut []).congr (onHead_of_ne (by simp)) fun t => onHead_of_ne fun t' h => ?_
      exact hc (List.cons.inj h).1.symm
    | cons d cs =>
      by_cases hd : d = c
      · subst hd
        exact (hS.cut cs).congr (onHead_cons cs) fun t => onHead_cons _
      · have hne : ∀ t t', d :: t ≠ c :: t' := fun t t' h => hd (List.cons.inj h).1
        exact (hR.cut (d :: cs)).congr (onHead_of_ne (hne _)) fun t => onHead_of_ne (hne _)

end OnHead

/-! ## Loops -/

section Loop

variable {σ : Type} {step : σ → Reader (σ ⊕ α)} {F : σ → Reader α} {G : Nat → σ → Reader α} {s : σ}
  {r : List Char} {k k' : Nat}

/-- A round of a loop, which goes on from a new state or ends. -/
def looping (step : σ → Reader (σ ⊕ α)) (F : σ → Reader α) (s : σ) : Reader α :=
  andThen (step s) fun x cs => x.elim (fun s' => F s' cs) fun a => some (a, cs)

/-- Every round that goes on takes a character. -/
def Advances (step : σ → Reader (σ ⊕ α)) : Prop :=
  ∀ {s cs s' r}, step s cs = some (.inl s', r) → r.length < cs.length

theorem looping_congr {step' : σ → Reader (σ ⊕ α)} {F' : σ → Reader α}
    (hstep : step s cs = step' s cs)
    (h : ∀ s' r, step s cs = some (.inl s', r) → F s' r = F' s' r) :
    looping step F s cs = looping step' F' s cs := by
  unfold looping andThen
  rw [← hstep]
  cases hread : step s cs with
  | none => rfl
  | some p =>
    obtain ⟨x, r⟩ := p
    cases x with
    | inl s' => exact h s' r hread
    | inr a => rfl

theorem looping_suffix (hstep : ∀ {s cs x r}, step s cs = some (x, r) → r <:+ cs)
    (hF : ∀ {s cs a r}, F s cs = some (a, r) → r <:+ cs) {a : α}
    (h : looping step F s cs = some (a, r)) : r <:+ cs := by
  obtain ⟨x, rest, hread, hrest⟩ := andThen_eq_some.1 h
  refine List.IsSuffix.trans ?_ (hstep hread)
  cases x with
  | inl s' => exact hF hrest
  | inr b => exact (local_pure b).suffix hrest

theorem loop_suffix (hF : ∀ s cs, F s cs = looping step F s cs)
    (hsuffix : ∀ {s cs x r}, step s cs = some (x, r) → r <:+ cs) (hstep : Advances step)
    {a : α} (h : F s cs = some (a, r)) : r <:+ cs := by
  induction hn : cs.length using Nat.strong_induction_on generalizing s cs with
  | _ n ih =>
    subst hn
    rw [hF] at h
    obtain ⟨x, rest, hread, hrest⟩ := andThen_eq_some.1 h
    refine List.IsSuffix.trans ?_ (hsuffix hread)
    cases x with
    | inl s' => exact ih _ (hstep hread) hrest rfl
    | inr b => exact (local_pure b).suffix hrest

/-- A round has stopped where the next one fails. -/
def Stuck (F : σ → Reader α) (cs : List Char) (x : σ ⊕ α) (r : List Char) : Prop :=
  r.length < cs.length ∧ ∃ s, x = .inl s ∧ F s r = none

/-- A loop whose rounds may read inner loops from what is left. -/
theorem Local.loop_of_cut (hF : ∀ s cs, F s cs = looping step F s cs)
    (hsuffix : ∀ {s cs x r}, step s cs = some (x, r) → r <:+ cs) (hstep : Advances step)
    (hcut : ∀ s cs, (∀ s' cs', cs'.length < cs.length → Cut (fun _ _ => False) (F s') cs') →
      Cut (Stuck F cs) (step s) cs) (s : σ) : Local (F s) := by
  refine ⟨loop_suffix hF hsuffix hstep, fun cs => ?_⟩
  induction hn : cs.length using Nat.strong_induction_on generalizing s cs with
  | _ n ih =>
    subst hn
    have hshorter : ∀ s' cs', cs'.length < cs.length → Cut (fun _ _ => False) (F s') cs' :=
      fun s' cs' hlt => ih _ hlt s' cs' rfl
    have hround : F s = looping step F s := funext (hF s)
    rw [hround]
    refine (hcut s cs hshorter).andThen (fun x r hread => ?_) (fun x cs' b r h => ?_) fun x r h =>
      ?_
    · cases x with
      | inl s' => exact hshorter s' r (hstep hread)
      | inr a => exact (local_pure a).cut r
    · cases x with
      | inl s' => exact loop_suffix hF hsuffix hstep h
      | inr a => exact (local_pure a).suffix h
    · obtain ⟨hlt, s', rfl, hnone⟩ := h
      exact ⟨hnone, hshorter s' r hlt⟩

theorem Local.loop (hF : ∀ s cs, F s cs = looping step F s cs) (hlocal : ∀ s, Local (step s))
    (hstep : Advances step) (s : σ) : Local (F s) :=
  Local.loop_of_cut hF (fun h => (hlocal _).suffix h) hstep (fun s cs _ => (hlocal s).cut_of cs) s

/-- A loop may be given more rounds than there are characters. -/
theorem fuel_irrelevant (hG : ∀ k s cs, G (k + 1) s cs = looping step (G k) s cs)
    (hstep : Advances step) (hk : cs.length < k) (hk' : cs.length < k') : G k s cs = G k' s cs := by
  induction k generalizing k' s cs with
  | zero => cases hk
  | succ k ih =>
    obtain ⟨k', rfl⟩ := Nat.exists_eq_add_one_of_ne_zero (Nat.ne_zero_of_lt hk')
    rw [hG, hG]
    refine looping_congr rfl fun s' r hread => ?_
    have hlt := hstep hread
    exact ih (by omega) (by omega)

/-- A loop that ends by itself may be given as many rounds as there are characters. -/
theorem fuel_irrelevant_of_nil (hG : ∀ k s cs, G (k + 1) s cs = looping step (G k) s cs)
    (hstep : Advances step) (hnil : ∀ k s, G k s [] = G 0 s [])
    (hk : cs.length ≤ k) (hk' : cs.length ≤ k') : G k s cs = G k' s cs := by
  induction k generalizing k' s cs with
  | zero =>
    obtain rfl := List.eq_nil_of_length_eq_zero (Nat.le_zero.1 hk)
    rw [hnil k']
  | succ k ih =>
    cases cs with
    | nil => rw [hnil, hnil k']
    | cons c cs =>
      obtain ⟨k', rfl⟩ := Nat.exists_eq_add_one_of_ne_zero (Nat.ne_zero_of_lt hk')
      rw [hG, hG]
      refine looping_congr rfl fun s' r hread => ?_
      have hlt := hstep hread
      rw [List.length_cons] at hlt hk hk'
      exact ih (by omega) (by omega)

/-- A loop that is given as many rounds as there are characters, and one more. -/
theorem Local.fueled (G : Nat → σ → Reader α) (step : σ → Reader (σ ⊕ α))
    (hG : ∀ k s cs, G (k + 1) s cs = looping step (G k) s cs) (hlocal : ∀ s, Local (step s))
    (hstep : Advances step) (s : σ) : Local fun cs => G (cs.length + 1) s cs := by
  refine Local.loop (F := fun s cs => G (cs.length + 1) s cs) (fun s cs => ?_) hlocal hstep s
  rw [hG]
  exact looping_congr rfl fun s' r hread =>
    fuel_irrelevant hG hstep (hstep hread) (Nat.lt_succ_self _)

/-- A loop that ends by itself, given as many rounds as there are characters. -/
theorem Local.fueled_of_nil (G : Nat → σ → Reader α) (step : σ → Reader (σ ⊕ α))
    (hG : ∀ k s cs, G (k + 1) s cs = looping step (G k) s cs) (hlocal : ∀ s, Local (step s))
    (hstep : Advances step) (hnil : ∀ k s, G k s [] = G 0 s []) (s : σ) : Local fun cs =>
      G cs.length s cs :=
  (Local.fueled G step hG hlocal hstep s).congr fun _ =>
    fuel_irrelevant_of_nil hG hstep hnil le_rfl (Nat.le_succ _)

/-! A round may read inner loops of the same kind, with fewer rounds left to them. -/

variable {nest : (σ → Reader α) → σ → Reader (σ ⊕ α)} {c : Nat}

/-- Inner loops are read from less than what there is. -/
structure Nested (nest : (σ → Reader α) → σ → Reader (σ ⊕ α)) : Prop where
  congr : ∀ {N N' : σ → Reader α} {s : σ} {cs : List Char},
    (∀ s' cs', cs'.length < cs.length → N s' cs' = N' s' cs') → nest N s cs = nest N' s cs
  suffix : ∀ {N : σ → Reader α}, (∀ {s cs a r}, N s cs = some (a, r) → r <:+ cs) →
    ∀ {s cs x r}, nest N s cs = some (x, r) → r <:+ cs
  advances : ∀ {N : σ → Reader α}, (∀ {s cs a r}, N s cs = some (a, r) → r <:+ cs) →
    Advances (nest N)

namespace Nested

variable (h : Nested nest) (hc : 0 < c) (hzero : ∀ s cs, G 0 s cs = none)
  (hG : ∀ k s cs, G (k + 1) s cs = looping (nest (G (k + 1 - c))) (G k) s cs)

include h hc hzero hG

theorem suffix_of_fuel {a : α} (hread : G k s cs = some (a, r)) : r <:+ cs := by
  induction k using Nat.strong_induction_on generalizing s cs a r with
  | _ k ih =>
    cases k with
    | zero =>
      rw [hzero] at hread
      cases hread
    | succ k =>
      rw [hG] at hread
      exact looping_suffix (h.suffix fun h => ih (k + 1 - c) (by omega) h)
        (fun h => ih k (Nat.lt_succ_self k) h) hread

/-- A loop is determined by what is made of texts for which `c` rounds fewer are needed. -/
theorem looping_eq {N : σ → Reader α}
    (hN : ∀ s' r, c * r.length + c ≤ c * cs.length → G (k + 1 - c) s' r = N s' r)
    (hF : ∀ s' r, c * r.length + c ≤ c * cs.length → G k s' r = F s' r) :
    G (k + 1) s cs = looping (nest N) F s cs := by
  have hless {r : List Char} (hlt : r.length < cs.length) : c * r.length + c ≤ c * cs.length :=
    Nat.mul_succ c _ ▸ Nat.mul_le_mul_left c hlt
  rw [hG]
  exact looping_congr (h.congr fun s' r hlt => hN s' r (hless hlt)) fun s' r hread =>
    hF s' r (hless (h.advances (h.suffix_of_fuel hc hzero hG) hread))

/-- Every character takes `c` rounds at most, those of inner loops included. -/
theorem fuel_irrelevant (hk : c * cs.length < k) (hk' : c * cs.length < k') :
    G k s cs = G k' s cs := by
  induction k using Nat.strong_induction_on generalizing k' s cs with
  | _ k ih =>
    obtain ⟨k, rfl⟩ := Nat.exists_eq_add_one_of_ne_zero (Nat.ne_zero_of_lt hk)
    obtain ⟨k', rfl⟩ := Nat.exists_eq_add_one_of_ne_zero (Nat.ne_zero_of_lt hk')
    rw [hG k']
    exact h.looping_eq hc hzero hG (fun _ _ hle => ih _ (by omega) (by omega) (by omega))
      fun _ _ hle => ih _ (by omega) (by omega) (by omega)

/-- With rounds enough, what a loop makes of a text is the same at every depth. -/
theorem eq_looping (hF : ∀ s cs, F s cs = G (c * cs.length + 1) s cs) (s : σ) (cs : List Char) :
    F s cs = looping (nest F) F s cs := by
  have henough {n : Nat} (s' : σ) {r : List Char} (hn : c * r.length < n) : G n s' r = F s' r := by
    rw [hF]
    exact h.fuel_irrelevant hc hzero hG hn (Nat.lt_succ_self _)
  rw [hF s cs]
  exact h.looping_eq hc hzero hG (fun s' _ hle => henough s' (by omega)) fun s' _ hle =>
    henough s' (by omega)

end Nested

end Loop

theorem Local.thenMap (hR : Local R) (g : α → Option β) : Local (thenMap R g) :=
  hR.andThen fun a => local_option (g a)

theorem Local.map (hR : Local R) (g : α → β) : Local fun cs => (R cs).map fun p => (g p.1, p.2) :=
  (hR.thenMap fun a => some (g a)).congr fun cs => (thenMap_some R g cs).symm

/-! ## Blanks and comments -/

theorem skipComment_suffix (cs : List Char) : skipComment cs <:+ cs := by
  induction cs with
  | nil => exact List.suffix_rfl
  | cons c cs ih =>
    unfold skipComment
    split_ifs
    · exact List.suffix_cons c cs
    · exact ih.trans (List.suffix_cons c cs)

theorem skipComment_of_not_mem (h : '\n' ∉ cs) (t : List Char) :
    skipComment (cs ++ t) = skipComment t := by
  induction cs with
  | nil => rfl
  | cons c cs ih =>
    obtain ⟨hc, hcs⟩ := List.ne_and_not_mem_of_not_mem_cons h
    rw [List.cons_append, skipComment, if_neg hc.symm, ih hcs]

theorem skipComment_of_mem (h : '\n' ∈ cs) (t : List Char) :
    skipComment (cs ++ t) = skipComment cs ++ t := by
  induction cs with
  | nil => cases h
  | cons c cs ih =>
    rw [List.cons_append, skipComment, skipComment]
    split_ifs with hc
    · rfl
    · exact ih ((List.mem_cons.1 h).resolve_left (Ne.symm hc))

theorem skipBlankIn_of_le {fuel fuel' : Nat} (h : cs.length ≤ fuel)
    (h' : cs.length ≤ fuel') : skipBlankIn fuel cs = skipBlankIn fuel' cs := by
  induction fuel generalizing fuel' cs with
  | zero =>
    obtain rfl := List.eq_nil_of_length_eq_zero (Nat.le_zero.1 h)
    cases fuel' <;> rfl
  | succ fuel ih =>
    cases cs with
    | nil => cases fuel' <;> rfl
    | cons c cs =>
      cases fuel' with
      | zero => cases h'
      | succ fuel' =>
        rw [List.length_cons] at h h'
        have hlength := (skipComment_suffix cs).length_le
        have hrest : skipBlankIn fuel cs = skipBlankIn fuel' cs := ih (by omega) (by omega)
        have hcomment : skipBlankIn fuel (skipComment cs) = skipBlankIn fuel' (skipComment cs) :=
          ih (by omega) (by omega)
        simp only [skipBlankIn, hrest, hcomment]

section Skip

variable (f : Flags) {r : List Char}

theorem skip_nil : skip f [] = [] := by
  unfold skip
  split_ifs <;> rfl

theorem skip_cons (c : Char) (cs : List Char) : skip f (c :: cs) =
    if f.verbose = true ∧ Text.isBlank c = true then skip f cs
    else if f.verbose = true ∧ c = '#' then skip f (skipComment cs) else c :: cs := by
  unfold skip
  cases f.verbose with
  | false => simp
  | true =>
    have hcomment := (skipComment_suffix cs).length_le
    simp only [if_true, true_and]
    rw [List.length_cons, skipBlankIn, skipBlankIn_of_le hcomment le_rfl]

theorem skip_of_visible {c : Char} (hblank : Text.isBlank c = false) (hcomment : c ≠ '#')
    (cs : List Char) : skip f (c :: cs) = c :: cs := by
  rw [skip_cons, if_neg (by simp [hblank]), if_neg (by simp [hcomment])]

theorem skip_paren (t : List Char) : skip f (')' :: t) = ')' :: t :=
  skip_of_visible f rfl (by decide) t

/-- What does not count, as a reader. -/
def skipping (cs : List Char) : Option (Unit × List Char) := some ((), skip f cs)

theorem skip_suffix (cs : List Char) : skip f cs <:+ cs := by
  induction hn : cs.length using Nat.strong_induction_on generalizing cs with
  | _ n ih =>
    subst hn
    cases cs with
    | nil => exact (skip_nil f).symm ▸ List.suffix_rfl
    | cons c cs =>
      have hcomment := skipComment_suffix cs
      rw [skip_cons]
      split_ifs
      · exact (ih _ (Nat.lt_succ_self _) cs rfl).trans (List.suffix_cons c cs)
      · exact (ih _ (Nat.lt_succ_of_le hcomment.length_le) _ rfl).trans
          (hcomment.trans (List.suffix_cons c cs))
      · exact List.suffix_rfl

theorem cut_skipping (cs : List Char) : Cut (fun _ _ => False) (skipping f) cs := by
  induction hn : cs.length using Nat.strong_induction_on generalizing cs with
  | _ n ih =>
    subst hn
    cases cs with
    | nil =>
      refine .clean (a := ()) (r := []) (by rw [skipping, skip_nil]) fun t => ?_
      rw [List.nil_append, skipping, skip_paren]
    | cons c cs =>
      by_cases hblank : f.verbose = true ∧ Text.isBlank c = true
      · have hcons : ∀ t, skipping f (c :: t) = skipping f t := fun t => by
          rw [skipping, skip_cons, if_pos hblank, skipping]
        exact (ih _ (Nat.lt_succ_self _) cs rfl).congr (hcons cs) fun t => hcons (cs ++ ')' :: t)
      have hcons : ∀ t, skipping f (c :: t) = if f.verbose = true ∧ c = '#' then
          skipping f (skipComment t) else some ((), c :: t) := by
        intro t
        rw [skipping, skip_cons, if_neg hblank]
        split_ifs <;> rfl
      by_cases hcomment : f.verbose = true ∧ c = '#'
      · simp only [if_pos hcomment] at hcons
        have hlength := (skipComment_suffix cs).length_le
        by_cases hline : '\n' ∈ cs
        · refine (ih _ (Nat.lt_succ_of_le hlength) (skipComment cs) rfl).congr (hcons cs) fun t =>
            ?_
          rw [List.cons_append, hcons, skipComment_of_mem hline]
        · have hrest : ∀ t,
              skipping f (c :: cs ++ ')' :: t) = skipping f (skipComment t) := fun t => by
            rw [List.cons_append, hcons, skipComment_of_not_mem hline]
            rfl
          have hend : ∀ t, '\n' ∉ t → skipComment t = [] := fun t ht => by
            have hnil := skipComment_of_not_mem ht []
            rwa [List.append_nil] at hnil
          refine .commented (a := ()) ?_ (fun t ht => ?_) fun t _ r h => ?_
          · rw [hcons, hend cs hline, skipping, skip_nil]
          · rw [hrest, hend t ht, skipping, skip_nil]
          · rw [hrest] at h
            obtain ⟨-, rfl⟩ := Prod.mk.inj (Option.some.inj h)
            exact (skip_suffix f _).trans (skipComment_suffix t)
      · simp only [hcomment, if_false] at hcons
        exact .clean (hcons cs) fun t => hcons (cs ++ ')' :: t)

theorem skipping_eq_some {cs : List Char} {u : Unit} : skipping f cs = some (u, r) ↔
    skip f cs = r := by
  simp [skipping]

/-- Before a closing parenthesis `skip` leaves what it leaves of the text on its own, unless a
comment takes the parenthesis in. -/
theorem skip_cut (cs : List Char) : (∀ t, skip f (cs ++ ')' :: t) = skip f cs ++ ')' :: t) ∨
    skip f cs = [] ∧ (∀ t, '\n' ∉ t → skip f (cs ++ ')' :: t) = []) ∧ ∀ t,
      skip f (cs ++ ')' :: t) <:+ t := by
  cases cut_skipping f cs with
  | clean alone before =>
    refine .inl fun t => ?_
    rw [(skipping_eq_some f).1 alone]
    exact (skipping_eq_some f).1 (before t)
  | commented alone before beyond =>
    exact .inr ⟨(skipping_eq_some f).1 alone, fun t ht => (skipping_eq_some f).1 (before t ht),
      fun t => beyond t () _ rfl⟩
  | short alone => cases alone

/-- What `skip` leaves of a text that goes on with a closing parenthesis. -/
theorem skip_stops {cs t : List Char} (h : skip f (cs ++ ')' :: t) = r ++ ')' :: t) :
    skip f cs = r ∧ ∀ t', skip f (cs ++ ')' :: t') = r ++ ')' :: t' := by
  rcases skip_cut f cs with hbefore | ⟨-, -, hbeyond⟩
  · have hr : skip f cs = r := List.append_cancel_right ((hbefore t).symm.trans h)
    exact ⟨hr, fun t' => hr ▸ hbefore t'⟩
  · have hlength := (hbeyond t).length_le
    rw [h] at hlength
    simp only [List.length_append, List.length_cons] at hlength
    omega

theorem local_skipping : Local (skipping f) where
  suffix h := (skipping_eq_some f).1 h ▸ skip_suffix f _
  cut := cut_skipping f

theorem andThen_skipping {R : Unit → Reader α} (cs : List Char) :
    andThen (skipping f) R cs = R () (skip f cs) := rfl

/-- Takes the next character that counts and makes something of it. -/
def taking (g : Char → Option α) (cs : List Char) : Option (α × List Char) := first g (skip f cs)

variable {f} {g : Char → Option α}

theorem taking_eq_some {a : α} :
    taking f g cs = some (a, r) ↔ ∃ c, skip f cs = c :: r ∧ g c = some a := by
  unfold taking
  cases skip f cs with
  | nil => simp [first]
  | cons c rest =>
    simp only [first, Option.map_eq_some_iff, Prod.mk.injEq, List.cons.injEq]
    constructor
    · rintro ⟨b, hg, rfl, rfl⟩
      exact ⟨c, ⟨rfl, rfl⟩, hg⟩
    · rintro ⟨d, ⟨rfl, rfl⟩, hg⟩
      exact ⟨a, hg, rfl, rfl⟩

theorem length_lt_of_taking {a : α} (h : taking f g cs = some (a, r)) : r.length < cs.length := by
  obtain ⟨c, hskip, -⟩ := taking_eq_some.1 h
  have hle := (skip_suffix f cs).length_le
  rw [hskip, List.length_cons] at hle
  omega

theorem local_taking (f : Flags) (g : Char → Option α) : Local (taking f g) :=
  (local_skipping f).andThen fun _ => local_first g

end Skip

end TagMachine.Pattern
