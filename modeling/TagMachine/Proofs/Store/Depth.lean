import TagMachine.Datum.Render
import TagMachine.Proofs.Store.Reach
import TagMachine.Value.Compare

set_option autoImplicit false

/-! # How deep values are followed

The tree of a value and the equality of values follow references to a bounded depth. Trees that are
found and equalities that hold at one depth are so at any greater one (`datumWithin_of_le`,
`equalWithin_of_le`), and the bounds that `Store.datum?` and `Store.equal` use lose nothing
(`datum?_eq_some`, `equalWithin_eq_equal`).
-/

namespace TagMachine

/-- Whether a value refers to a container. -/
def Value.isContainer : Value → Bool
  | list _ => true
  | record _ => true
  | _ => false

theorem mapM_eq_some_iff {α β : Type} {f : α → Option β} {xs : List α} {ys : List β} :
    xs.mapM f = some ys ↔ List.Forall₂ (fun x y => f x = some y) xs ys := by
  induction xs generalizing ys with
  | nil => cases ys <;> simp
  | cons x xs ih =>
    rw [List.mapM_cons]
    cases hx : f x with
    | none => cases ys <;> simp [hx]
    | some y =>
      cases hxs : xs.mapM f with
      | none => cases ys <;> simp [hx, ← ih, hxs]
      | some ys' => cases ys <;> simp [hx, ← ih, hxs]

theorem exists_of_forall₂_of_mem {α β : Type} {R : α → β → Prop} {xs : List α} {ys : List β}
    (h : List.Forall₂ R xs ys) {x : α} (hx : x ∈ xs) : ∃ y ∈ ys, R x y := by
  induction h with
  | nil => cases hx
  | cons hxy _ ih =>
    rcases List.mem_cons.1 hx with rfl | hx
    · exact ⟨_, List.mem_cons_self .., hxy⟩
    · obtain ⟨y, hy, hR⟩ := ih hx
      exact ⟨y, List.mem_cons_of_mem _ hy, hR⟩

theorem isSome_mapM {α β : Type} {f : α → Option β} {xs : List α} :
    (xs.mapM f).isSome ↔ ∀ x ∈ xs, (f x).isSome := by
  induction xs with
  | nil => simp
  | cons x xs ih =>
    rw [List.mapM_cons, List.forall_mem_cons, ← ih]
    cases f x <;> cases xs.mapM f <;> simp

theorem all_any_eq {α β γ : Type} {f : α → γ} {g : α → Option β} {p : γ → β → Bool}
    {xs : List α} : (xs.all fun x => (g x).any (p (f x))) =
      (xs.mapM fun x => (g x).map (f x, ·)).any fun ps => ps.all fun q => p q.1 q.2 := by
  induction xs with
  | nil => rfl
  | cons x xs ih =>
    rw [List.all_cons, ih, List.mapM_cons]
    cases g x with
    | none => rfl
    | some y =>
      cases xs.mapM fun x => (g x).map (f x, ·) with
      | none => simp
      | some ps => simp

namespace Store

variable {s t : Store} {v w : Value}

theorem equalWithin_list (n : Nat) (a b : ListRef) :
    s.equalWithin (n + 1) (.list a) (.list b) =
      (a == b || ((s.items a).toList.length == (s.items b).toList.length &&
        ((s.items a).toList.zip (s.items b).toList).all fun p => s.equalWithin n p.1 p.2)) := by
  have hunfold : s.equalWithin (n + 1) (.list a) (.list b) =
      (a == b || ((s.items a).size == (s.items b).size &&
        ((s.items a).zip (s.items b)).all fun p => s.equalWithin n p.1 p.2)) := rfl
  rw [hunfold, ← Array.all_toList, Array.toList_zip, Array.length_toList, Array.length_toList]

theorem equalWithin_record (n : Nat) (a b : RecordRef) :
    s.equalWithin (n + 1) (.record a) (.record b) =
      (a == b || ((s.record a).fields.length == (s.record b).fields.length &&
        (s.record a).fields.all fun f =>
          ((s.record b).fields.lookup f.1).any (s.equalWithin n f.2))) := by
  refine congrArg (_ || ·) (congrArg (_ && ·) (congrArg _ (funext fun f => ?_)))
  unfold Record.get?
  cases (s.record b).fields.lookup f.1 <;> rfl

/-- Whether a value without references equals another does not depend on the store. -/
theorem equalWithin_scalar (hv : v.isContainer = false) (n m : Nat) :
    s.equalWithin n v w = t.equalWithin m v w := by
  cases v with
  | list _ | record _ => cases hv
  | _ => cases w <;> cases n <;> cases m <;> rfl

theorem equalWithin_scalar_container (hv : v.isContainer = false) (hw : w.isContainer = true)
    (n : Nat) : s.equalWithin n v w = false := by
  cases w with
  | list _ | record _ => cases v <;> cases n <;> first | rfl | cases hv
  | _ => cases hw

theorem equalWithin_container_scalar (hv : v.isContainer = true) (hw : w.isContainer = false)
    (n : Nat) : s.equalWithin n v w = false := by
  cases v with
  | list _ | record _ => cases w <;> cases n <;> first | rfl | cases hw
  | _ => cases hv

/-! ## Trees -/

theorem datumWithin_list (n : Nat) (a : ListRef) (d : Datum) :
    s.datumWithin (n + 1) (.list a) = some d ↔
      ∃ ds, List.Forall₂ (fun v d => s.datumWithin n v = some d) (s.items a).toList ds ∧
        d = .list ds := by
  rw [datumWithin, Option.map_eq_some_iff]
  exact exists_congr fun ds => and_congr mapM_eq_some_iff eq_comm

theorem datumWithin_record (n : Nat) (a : RecordRef) (d : Datum) :
    s.datumWithin (n + 1) (.record a) = some d ↔
      ∃ ds, List.Forall₂ (fun f g => (s.datumWithin n f.2).map (f.1, ·) = some g)
        (s.record a).fields ds ∧ d = .record ds := by
  rw [datumWithin, Option.map_eq_some_iff]
  exact exists_congr fun ds => and_congr mapM_eq_some_iff eq_comm

/-- A tree does not change when references are followed deeper. -/
theorem datumWithin_of_le {n m : Nat} {d : Datum} (h : s.datumWithin n v = some d) (hle : n ≤ m) :
    s.datumWithin m v = some d := by
  induction n generalizing v d m with
  | zero =>
    cases v <;> cases m <;> first | exact h | cases h
  | succ n ih =>
    obtain ⟨m, rfl⟩ : ∃ k, m = k + 1 := ⟨m - 1, by omega⟩
    have hle' : n ≤ m := by omega
    cases v with
    | list a =>
      obtain ⟨ds, hds, rfl⟩ := (datumWithin_list n a d).1 h
      exact (datumWithin_list m a _).2 ⟨ds, hds.imp fun _ _ hd => ih hd hle', rfl⟩
    | record a =>
      obtain ⟨ds, hds, rfl⟩ := (datumWithin_record n a d).1 h
      refine (datumWithin_record m a _).2 ⟨ds, hds.imp fun f g hd => ?_, rfl⟩
      obtain ⟨d, htree, rfl⟩ := Option.map_eq_some_iff.1 hd
      rw [ih htree hle']
      rfl
    | _ => exact h

/-- A container has a tree one deeper than all that it holds. -/
theorem isSome_datumWithin_succ (n : Nat) (v : Value) :
    (s.datumWithin (n + 1) v).isSome ↔ ∀ w ∈ s.children v, (s.datumWithin n w).isSome := by
  cases v with
  | list a => rw [datumWithin, Option.isSome_map, isSome_mapM, children]
  | record a =>
    rw [datumWithin, Option.isSome_map, isSome_mapM, children, Record.values]
    simp only [Option.isSome_map, List.forall_mem_map]
  | _ => simp [datumWithin, children]

/-- A container that needs some depth holds one that needs one less. -/
theorem exists_child_shallower {k : Nat}
    (h : Minimal (fun n => (s.datumWithin n v).isSome) (k + 2)) :
    ∃ w ∈ s.children v, Minimal (fun n => (s.datumWithin n w).isSome) (k + 1) := by
  obtain ⟨h, hleast⟩ := h
  rw [isSome_datumWithin_succ] at h
  have hdeep : ∃ w ∈ s.children v, ¬(s.datumWithin k w).isSome := by
    by_contra hall
    push Not at hall
    have := hleast ((isSome_datumWithin_succ k v).2 hall) (by omega)
    omega
  obtain ⟨w, hw, hnone⟩ := hdeep
  refine ⟨w, hw, h w hw, fun j hj hle => ?_⟩
  by_contra hlt
  obtain ⟨d, hd⟩ := Option.isSome_iff_exists.1 hj
  exact hnone (Option.isSome_iff_exists.2 ⟨d, datumWithin_of_le hd (by omega)⟩)

/-- A value that lies in the store with all that it holds has its tree within the size of the store,
if it has one. -/
theorem datum?_eq_some {q : Value → Prop} (hq : ∀ v, q v → v.isContainer = true →
    v ∈ s.containers ∧ ∀ w ∈ s.children v, q w) (hv : q v) {n : Nat} {d : Datum}
    (h : s.datumWithin n v = some d) : s.datum? v = some d := by
  have hbound : ∃ k ≤ s.containers.length,
      (v.isContainer = true → q v) ∧ (s.datumWithin k v).isSome := by
    refine exists_le_length
      (fun v n => (v.isContainer = true → q v) ∧ (s.datumWithin n v).isSome) _ ?_
      ⟨fun _ => hv, Option.isSome_iff_exists.2 ⟨d, h⟩⟩
    rintro v k ⟨⟨hv, hsome⟩, hleast⟩
    have hcontainer : v.isContainer = true := by
      by_contra hscalar
      have hzero : (s.datumWithin 0 v).isSome := by
        cases v <;> first | rfl | exact absurd rfl hscalar
      have := hleast ⟨hv, hzero⟩ (by omega)
      omega
    obtain ⟨hmem, hchildren⟩ := hq v (hv hcontainer) hcontainer
    refine ⟨hmem, ?_⟩
    cases k with
    | zero => exact ⟨.nothing, ⟨nofun, rfl⟩, fun _ _ _ => Nat.zero_le _⟩
    | succ k =>
      obtain ⟨w, hw, hsome, hleast⟩ := exists_child_shallower
        ⟨hsome, fun j hj hle => hleast ⟨hv, hj⟩ hle⟩
      exact ⟨w, ⟨fun _ => hchildren w hw, hsome⟩, fun j hj hle => hleast hj.2 hle⟩
  obtain ⟨k, hk, -, hsome⟩ := hbound
  obtain ⟨e, he⟩ := Option.isSome_iff_exists.1 hsome
  have hde : e = d := by
    have hd' := datumWithin_of_le h (Nat.le_max_left n k)
    rw [datumWithin_of_le he (Nat.le_max_right n k)] at hd'
    exact Option.some.inj hd'
  rw [← hde]
  exact datumWithin_of_le he (s.length_containers ▸ hk)

/-! ## Comparisons -/

/-- The pairs of values that are compared in turn when two containers are. There are none when the
containers have different lengths or keys. -/
def aligned (s : Store) : Value → Value → Option (List (Value × Value))
  | .list a, .list b =>
    if (s.items a).toList.length = (s.items b).toList.length then
      some ((s.items a).toList.zip (s.items b).toList)
    else none
  | .record a, .record b =>
    if (s.record a).fields.length = (s.record b).fields.length then
      (s.record a).fields.mapM fun f => ((s.record b).fields.lookup f.1).map (f.2, ·)
    else none
  | _, _ => none

theorem equalWithin_succ (n : Nat) (v w : Value) :
    s.equalWithin (n + 1) v w = (s.equalWithin 0 v w ||
      (s.aligned v w).any fun ps => ps.all fun p => s.equalWithin n p.1 p.2) := by
  cases v with
  | list a =>
    cases w with
    | list b =>
      rw [equalWithin_list, aligned]
      by_cases h : (s.items a).toList.length = (s.items b).toList.length
      · rw [if_pos h, beq_iff_eq.2 h, Bool.true_and]
        rfl
      · rw [if_neg h, beq_eq_false_iff_ne.2 h, Bool.false_and]
        rfl
    | _ => rfl
  | record a =>
    cases w with
    | record b =>
      rw [equalWithin_record, aligned, all_any_eq]
      by_cases h : (s.record a).fields.length = (s.record b).fields.length
      · rw [if_pos h, beq_iff_eq.2 h, Bool.true_and]
        rfl
      · rw [if_neg h, beq_eq_false_iff_ne.2 h, Bool.false_and]
        rfl
    | _ => rfl
  | _ => cases w <;> exact (Bool.or_false _).symm

theorem mem_children_of_aligned {ps : List (Value × Value)} (h : s.aligned v w = some ps)
    {p : Value × Value} (hp : p ∈ ps) : p.1 ∈ s.children v ∧ p.2 ∈ s.children w := by
  unfold aligned at h
  split at h
  · split at h
    · obtain rfl := Option.some.inj h
      exact List.of_mem_zip hp
    · cases h
  · split at h
    · obtain ⟨f, hf, hpair⟩ := exists_of_forall₂_of_mem (mapM_eq_some_iff.1 h).flip hp
      obtain ⟨w, hw, rfl⟩ := Option.map_eq_some_iff.1 hpair
      obtain ⟨before, after, hfields, -⟩ := List.lookup_eq_some_iff.1 hw
      exact ⟨List.mem_map_of_mem hf, List.mem_map.2 ⟨(f.1, w), by simp [hfields], rfl⟩⟩
    · cases h
  · cases h

/-- Values that are equal to some depth are equal to any greater one. -/
theorem equalWithin_of_le {n m : Nat} (h : s.equalWithin n v w = true) (hle : n ≤ m) :
    s.equalWithin m v w = true := by
  induction n generalizing v w m with
  | zero =>
    cases m with
    | zero => exact h
    | succ m => rw [equalWithin_succ, h, Bool.true_or]
  | succ n ih =>
    obtain ⟨m, rfl⟩ : ∃ k, m = k + 1 := ⟨m - 1, by omega⟩
    rw [equalWithin_succ, Bool.or_eq_true, Option.any_eq_true] at h ⊢
    refine h.imp_right fun ⟨ps, hps, hall⟩ => ⟨ps, hps, List.all_eq_true.2 fun p hp => ?_⟩
    exact ih (List.all_eq_true.1 hall p hp) (by omega)

/-- Containers that are equal to some depth only hold values that are equal to one less only. -/
theorem exists_aligned_of_minimal {k : Nat} (h : Minimal (s.equalWithin · v w = true) (k + 2)) :
    ∃ ps p, s.aligned v w = some ps ∧ p ∈ ps ∧
      Minimal (s.equalWithin · p.1 p.2 = true) (k + 1) := by
  obtain ⟨h, hleast⟩ := h
  have hzero : s.equalWithin 0 v w = false := by
    by_contra htrue
    have := hleast (Bool.eq_true_of_not_eq_false htrue) (by omega)
    omega
  rw [equalWithin_succ, hzero, Bool.false_or, Option.any_eq_true] at h
  obtain ⟨ps, hps, hall⟩ := h
  have hdeep : ∃ p ∈ ps, ¬s.equalWithin k p.1 p.2 = true := by
    by_contra hnone
    push Not at hnone
    have hshallow : s.equalWithin (k + 1) v w = true := by
      rw [equalWithin_succ, hps, Option.any_some, List.all_eq_true.2 hnone, Bool.or_true]
    have := hleast hshallow (by omega)
    omega
  obtain ⟨p, hp, hfalse⟩ := hdeep
  refine ⟨ps, p, hps, hp, List.all_eq_true.1 hall p hp, fun j hj hle => ?_⟩
  by_contra hlt
  exact hfalse (equalWithin_of_le hj (by omega))

/-- Equality does not depend on how far references are followed. -/
theorem equalWithin_eq_equal {n : Nat} (h : s.size * s.size + 1 ≤ n) :
    s.equalWithin n v w = s.equal v w := by
  rw [Bool.eq_iff_iff]
  refine ⟨fun hn => ?_, fun hequal => equalWithin_of_le hequal h⟩
  obtain ⟨n, rfl⟩ : ∃ k, n = k + 1 := ⟨n - 1, by omega⟩
  have hbound : ∃ k ≤ (s.containers ×ˢ s.containers).length,
      s.equalWithin (k + 1) v w = true := by
    refine exists_le_length (fun x n => s.equalWithin (n + 1) x.1 x.2 = true) _ ?_ (x := (v, w)) hn
    rintro x k ⟨htrue, hleast⟩
    obtain ⟨ps, p, hps, hp, htrue', hleast'⟩ := exists_aligned_of_minimal (k := k)
      ⟨htrue, fun j hj hle => by
        have := hleast (y := j - 1) (equalWithin_of_le hj (by omega)) (by omega)
        omega⟩
    obtain ⟨hleft, hright⟩ := mem_children_of_aligned hps hp
    refine ⟨List.mem_product.2 ⟨mem_containers hleft, mem_containers hright⟩, p, htrue', ?_⟩
    intro j hj hle
    have := hleast' hj (by omega)
    omega
  obtain ⟨k, hk, htrue⟩ := hbound
  rw [List.length_product, length_containers] at hk
  exact equalWithin_of_le htrue (by omega)

end Store

end TagMachine
