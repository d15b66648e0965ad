import TagMachine.Proofs.Builtin.Calls
import TagMachine.Proofs.Store.Equality

set_option autoImplicit false

/-! # First representatives

The function `unique` keeps of the elements that are written alike the first. It goes through the
list once with the texts that it has seen; what it keeps from there on has none of these texts
(`key_notMem_of_mem_firstsBy`), and what it leaves out has one of them or that of an earlier element
(`exists_first_firstsBy`). The text of a value is that of its tree, so it is the same in every store
that has the containers the value leads to.
-/

namespace TagMachine.Builtin

/-! ## Elements with a new key -/

section Firsts

variable {key : Value → String} {seen : List String} {xs ys : List Value}

/-- The second list has of each key in the first list the first element with it, in the order of
these elements. -/
structure FirstsOf (key : Value → String) (xs ys : List Value) : Prop where
  sublist : ys.Sublist xs
  distinct : ys.Pairwise fun a b => key a ≠ key b
  first : ∀ x ∈ xs, ∃ y ∈ ys, xs.find? (fun z => key z == key x) = some y
  order : ys.Pairwise fun a b => (xs.map key).idxOf (key a) < (xs.map key).idxOf (key b)

theorem firstsBy_of_mem {x : Value} (h : key x ∈ seen) (xs : List Value) :
    firstsBy key seen (x :: xs) = firstsBy key seen xs :=
  if_pos (List.contains_iff_mem.2 h)

theorem firstsBy_of_notMem {x : Value} (h : key x ∉ seen) (xs : List Value) :
    firstsBy key seen (x :: xs) = x :: firstsBy key (key x :: seen) xs :=
  if_neg (mt List.contains_iff_mem.1 h)

theorem sublist_firstsBy (key : Value → String) (seen : List String) (xs : List Value) :
    (firstsBy key seen xs).Sublist xs := by
  induction xs generalizing seen with
  | nil => exact .slnil
  | cons x xs ih =>
    by_cases hx : key x ∈ seen
    · rw [firstsBy_of_mem hx]
      exact (ih seen).cons x
    · rw [firstsBy_of_notMem hx]
      exact (ih _).cons_cons x

theorem key_notMem_of_mem_firstsBy {y : Value} (h : y ∈ firstsBy key seen xs) : key y ∉ seen := by
  induction xs generalizing seen with
  | nil => cases h
  | cons x xs ih =>
    by_cases hx : key x ∈ seen
    · rw [firstsBy_of_mem hx] at h
      exact ih h
    · rw [firstsBy_of_notMem hx] at h
      rcases List.mem_cons.1 h with rfl | hrest
      · exact hx
      · exact fun hmem => ih hrest (List.mem_cons_of_mem _ hmem)

/-- The first element with a key that was not seen is kept. -/
theorem exists_first_firstsBy {x : Value} (hx : x ∈ xs) (h : key x ∉ seen) :
    ∃ y ∈ firstsBy key seen xs, xs.find? (fun z => key z == key x) = some y := by
  induction xs generalizing seen with
  | nil => cases hx
  | cons z xs ih =>
    -- another key in front becomes a seen one, and that of `x` is still new
    by_cases hz : key z = key x
    · refine ⟨z, ?_, by rw [List.find?_cons, beq_iff_eq.2 hz]⟩
      rw [firstsBy_of_notMem (hz ▸ h)]
      exact List.mem_cons_self
    · have hrest : x ∈ xs := (List.mem_cons.1 hx).resolve_left fun heq => hz (heq ▸ rfl)
      rw [List.find?_cons, beq_eq_false_iff_ne.2 hz]
      by_cases hseen : key z ∈ seen
      · rw [firstsBy_of_mem hseen]
        exact ih hrest h
      · have hnew : key x ∉ key z :: seen := fun hmem =>
          (List.mem_cons.1 hmem).elim (fun heq => hz heq.symm) h
        obtain ⟨y, hy, hfind⟩ := ih hrest hnew
        rw [firstsBy_of_notMem hseen]
        exact ⟨y, List.mem_cons_of_mem _ hy, hfind⟩

/-- Of two elements that are kept, the key of the first comes up before that of the second. -/
theorem pairwise_idxOf_firstsBy (key : Value → String) (seen : List String) (xs : List Value) :
    (firstsBy key seen xs).Pairwise fun a b =>
      (xs.map key).idxOf (key a) < (xs.map key).idxOf (key b) := by
  induction xs generalizing seen with
  | nil => exact .nil
  | cons x xs ih =>
    have hlater : ∀ {a : Value}, key a ≠ key x →
        ((x :: xs).map key).idxOf (key a) = (xs.map key).idxOf (key a) + 1 := fun hne => by
      rw [List.map_cons, List.idxOf_cons_ne _ hne.symm]
    have hrest : ∀ {seen}, key x ∈ seen → (firstsBy key seen xs).Pairwise fun a b =>
        ((x :: xs).map key).idxOf (key a) < ((x :: xs).map key).idxOf (key b) := by
      intro seen hx
      -- nothing that is kept behind `x` has its key, so every place is one further on
      refine (ih seen).imp_of_mem fun {a b} ha hb hlt => ?_
      rw [hlater fun heq => key_notMem_of_mem_firstsBy ha (heq ▸ hx),
        hlater fun heq => key_notMem_of_mem_firstsBy hb (heq ▸ hx)]
      exact Nat.succ_lt_succ hlt
    by_cases hx : key x ∈ seen
    · rw [firstsBy_of_mem hx]
      exact hrest hx
    · rw [firstsBy_of_notMem hx]
      refine .cons (fun b hb => ?_) (hrest List.mem_cons_self)
      rw [hlater fun heq => key_notMem_of_mem_firstsBy hb (heq ▸ List.mem_cons_self), List.map_cons,
        List.idxOf_cons_self]
      exact Nat.succ_pos _

theorem firstsOf_firstsBy (key : Value → String) (xs : List Value) :
    FirstsOf key xs (firstsBy key [] xs) where
  sublist := sublist_firstsBy key [] xs
  distinct := (pairwise_idxOf_firstsBy key [] xs).imp fun hlt heq => hlt.ne (by rw [heq])
  first x hx := exists_first_firstsBy hx List.not_mem_nil
  order := pairwise_idxOf_firstsBy key [] xs

/-- Elements with different keys are all kept. -/
theorem firstsBy_eq_self (hdistinct : ys.Pairwise fun a b => key a ≠ key b) (hnew : ∀ y ∈ ys,
    key y ∉ seen) :
    firstsBy key seen ys = ys := by
  induction ys generalizing seen with
  | nil => rfl
  | cons y ys ih =>
    obtain ⟨hy, hrest⟩ := List.pairwise_cons.1 hdistinct
    rw [firstsBy_of_notMem (hnew y List.mem_cons_self), ih hrest fun z hz hmem => ?_]
    rcases List.mem_cons.1 hmem with heq | hseen
    · exact hy z hz heq.symm
    · exact hnew z (List.mem_cons_of_mem _ hz) hseen

/-- What comes later does not change what is kept before. -/
theorem firstsBy_append (key : Value → String) (seen : List String) (xs zs : List Value) :
    ∃ seen', firstsBy key seen (xs ++ zs) = firstsBy key seen xs ++ firstsBy key seen' zs := by
  induction xs generalizing seen with
  | nil => exact ⟨seen, rfl⟩
  | cons x xs ih =>
    rw [List.cons_append]
    by_cases hx : key x ∈ seen
    · rw [firstsBy_of_mem hx, firstsBy_of_mem hx]
      exact ih seen
    · obtain ⟨seen', heq⟩ := ih (key x :: seen)
      exact ⟨seen', by rw [firstsBy_of_notMem hx, firstsBy_of_notMem hx, heq, List.cons_append]⟩

theorem firstsBy_congr {key' : Value → String} (h : ∀ v ∈ xs, key v = key' v) :
    firstsBy key seen xs = firstsBy key' seen xs := by
  induction xs generalizing seen with
  | nil => rfl
  | cons x xs ih =>
    obtain ⟨hx, hrest⟩ := List.forall_mem_cons.1 h
    rw [firstsBy, firstsBy, hx, ih hrest, ih hrest]

end Firsts

/-! ## Calls -/

variable {s : Store} {xs ys zs : List Value}

/-- The function `unique` returns a new list of `ys` for the list of `xs`, in every store in which
the containers of `s` are as they were. -/
def Uniques (s : Store) (xs ys : List Value) : Prop :=
  ∀ c : Call, s.Extends c.store → c.given.items "list" = xs → c.ReturnsList 0x33 ys

theorem text_eq_of_extends {t : Store} (hs : s.Closed) (h : s.Extends t) {v : Value}
    (hv : s.Has v) : t.text v = s.text v := by
  rw [Store.text, h.datum?_eq hs hv, Store.text]

theorem uniques_firstsBy (hs : s.Closed) (h : ∀ v ∈ xs, s.Has v) :
    Uniques s xs (firstsBy s.text [] xs) := by
  rintro c hext rfl
  refine Call.returnsList_of_give rfl ?_
  show giveList (firstsBy c.store.text [] (c.given.items "list")) = _
  rw [firstsBy_congr fun v hv => text_eq_of_extends hs hext (h v hv)]

/-- Every value that leads to no container which holds itself is written as its tree is. Of values
that are written alike, `unique` returns the first one: its result is a new list of such values, in
the order of the list. It returns the same for its result, and for a longer list what it returns
begins with the result. -/
theorem unique_first_representatives (hs : s.Closed) (hxs : ∀ v ∈ xs, s.Acyclic v)
    (hzs : ∀ v ∈ zs, s.Acyclic v) :
    (∀ v ∈ xs ++ zs, ∃ d, s.datum? v = some d ∧ s.text v = d.render) ∧
    ∃ ys more, Uniques s xs ys ∧ FirstsOf s.text xs ys ∧ Uniques s ys ys ∧
      Uniques s (xs ++ zs) (ys ++ more) := by
  have hall : ∀ v ∈ xs ++ zs, s.Acyclic v := List.forall_mem_append.2 ⟨hxs, hzs⟩
  refine ⟨fun v hv => ?_, ?_⟩
  · obtain ⟨d, hd⟩ := (hall v hv).exists_datum? hs
    exact ⟨d, hd, by rw [Store.text, hd]⟩
  · have hfirsts := firstsOf_firstsBy s.text xs
    obtain ⟨seen, happend⟩ := firstsBy_append s.text [] xs zs
    refine ⟨_, firstsBy s.text seen zs, uniques_firstsBy hs fun v hv => (hxs v hv).has,
      hfirsts, ?_, ?_⟩
    · have hagain := uniques_firstsBy hs fun v hv => (hxs v (hfirsts.sublist.subset hv)).has
      rwa [firstsBy_eq_self hfirsts.distinct fun _ _ => List.not_mem_nil] at hagain
    · rw [← happend]
      exact uniques_firstsBy hs fun v hv => (hall v hv).has

/-- Two lists of the same number, and strings that are written like them and like the number. -/
def lookalikes : List Value := [.integer 1, .list ⟨1⟩, .string "[1]", .list ⟨2⟩, .string "1"]

def Call.lookalikes : Call where
  context := ⟨"", 0⟩
  args := ⟨0⟩
  store := { lists := #[Builtin.lookalikes.toArray, #[.integer 1], #[.integer 1]],
             records := #[⟨[("list", .list ⟨0⟩)]⟩] }

/-- The number and the first of the lists are kept, in this order, also before further values. -/
theorem unique_lookalikes :
    Call.lookalikes.store.Closed ∧ (∀ v ∈ lookalikes, Call.lookalikes.store.Acyclic v) ∧
    ∃ ys, Call.lookalikes.ReturnsList 0x33 ys ∧ FirstsOf Call.lookalikes.store.text lookalikes ys ∧
      Value.integer 1 ∈ ys ∧ Value.list ⟨1⟩ ∈ ys ∧ Value.list ⟨2⟩ ∉ ys := by
  have hclosed : Call.lookalikes.store.Closed := by decide
  have hacyclic {v : Value} (hv : Call.lookalikes.store.Has v)
    (h : (Call.lookalikes.store.datum? v).isSome) :
      Call.lookalikes.store.Acyclic v := ⟨hv, (Store.isSome_datum?_iff hclosed hv).1 h⟩
  have hall : ∀ v ∈ lookalikes, Call.lookalikes.store.Acyclic v := by
    simp only [lookalikes, List.forall_mem_cons]
    exact ⟨hacyclic (by decide) (by decide), hacyclic (by decide) (by decide),
      hacyclic (by decide) (by decide), hacyclic (by decide) (by decide),
      hacyclic (by decide) (by decide), nofun⟩
  obtain ⟨-, ys, -, hunique, hfirsts, -⟩ :=
    unique_first_representatives hclosed hall (List.forall_mem_nil Call.lookalikes.store.Acyclic)
  have hone : Value.integer 1 ∈ ys := by
    obtain ⟨y, hy, hfind⟩ := hfirsts.first (.string "1") (by decide)
    obtain rfl := Option.some.inj ((show _ = some (Value.integer 1) by decide).symm.trans hfind)
    exact hy
  have hlist : Value.list ⟨1⟩ ∈ ys := by
    obtain ⟨y, hy, hfind⟩ := hfirsts.first (.list ⟨2⟩) (by decide)
    obtain rfl := Option.some.inj ((show _ = some (Value.list ⟨1⟩) by decide).symm.trans hfind)
    exact hy
  refine ⟨hclosed, hall, ys, hunique _ (.refl _ _) rfl, hfirsts, hone, hlist, fun hother => ?_⟩
  have hsame :=
    List.inj_on_of_nodup_map (List.pairwise_map.2 hfirsts.distinct) hlist hother (by decide)
  cases hsame

end TagMachine.Builtin
