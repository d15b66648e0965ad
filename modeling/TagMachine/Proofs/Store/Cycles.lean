import TagMachine.Json.Write
import TagMachine.Proofs.Store.Closed

set_option autoImplicit false

/-! # Containers that hold themselves

A container that holds itself at some depth has no tree, and a value from which no such container is
reached has one (`isSome_datum?_iff`). `Store.Unfolds` says what this is good for: texts can be
written and comparisons come to an end.

New containers do not close a cycle (`Grows.onCycle_iff`). Putting a value into a container closes
one exactly if the value reaches the container (`onCycle_of_link`, `onCycle_push`,
`onCycle_setField`).
-/

namespace TagMachine

theorem allM_eq_some {α : Type} {f : α → Option Bool} {g : α → Bool} {xs : List α}
    (h : ∀ x ∈ xs, f x = some (g x)) : xs.allM f = some (xs.all g) := by
  induction xs with
  | nil => rfl
  | cons x xs ih =>
    obtain ⟨hx, hxs⟩ := List.forall_mem_cons.1 h
    have hcons : (x :: xs).allM f = f x >>= fun b => if b then xs.allM f else some false := by
      rw [List.allM]
      cases f x with
      | none => rfl
      | some b => cases b <;> rfl
    rw [hcons, hx, ih hxs, List.all_cons]
    cases g x <;> rfl

namespace Store

variable {s s' : Store} {v w c x : Value} {n m : Nat}

/-- A container holds itself at some depth. -/
def OnCycle (s : Store) (v : Value) : Prop := ∃ w ∈ s.children v, s.Reaches w v

instance (s : Store) (v : Value) : Decidable (s.OnCycle v) :=
  inferInstanceAs (Decidable (∃ w ∈ s.children v, s.Reaches w v))

theorem OnCycle.has (h : s.OnCycle v) : s.Has v := by
  obtain ⟨w, hw, -⟩ := h
  exact has_of_mem_children hw

theorem OnCycle.isContainer (h : s.OnCycle v) : v.isContainer = true := by
  obtain ⟨w, hw, -⟩ := h
  exact isContainer_of_mem_children hw

theorem Reaches.trans {u : Value} (h : s.Reaches u v) (h' : s.Reaches v w) : s.Reaches u w := by
  induction h with
  | refl => exact h'
  | item hmem _ ih => exact .item hmem (ih h')
  | field hmem _ ih => exact .field hmem (ih h')

theorem reaches_child (hw : w ∈ s.children v) : s.Reaches v w := reaches_of_child hw (.refl w)

/-! ## Adding containers -/

/-- Containers that hold only what was there before are on no cycle. -/
theorem Extends.onCycle_iff (h : s.Extends s') (hs : s.Closed)
    (hnew : ∀ v w, ¬s.Has v → w ∈ s'.children v → s.Has w) : s'.OnCycle v ↔ s.OnCycle v := by
  constructor
  · rintro ⟨w, hw, hr⟩
    by_cases hv : s.Has v
    · rw [h.children hv] at hw
      exact ⟨w, hw, (h.reaches_iff hs (hs v w hw)).1 hr⟩
    · exact absurd (h.has_of_reaches hs hr (hnew v w hv hw)) hv
  · rintro ⟨w, hw, hr⟩
    have hv := has_of_mem_children hw
    exact ⟨w, by rwa [h.children hv], (h.reaches_iff hs (hs v w hw)).2 hr⟩

theorem Grows.onCycle_iff (h : s.Grows s') (hs : s.Closed) : s'.OnCycle v ↔ s.OnCycle v := by
  induction h with
  | refl => rfl
  | @list t xs ht hxs ih =>
    rw [← ih]
    refine (t.extends_newList xs).onCycle_iff (ht.closed hs) fun v w hv hw => ?_
    rcases mem_children_newList hw with ⟨hhas, -⟩ | ⟨-, hw⟩
    · exact absurd hhas hv
    · exact hxs w hw
  | @record t r ht hr ih =>
    rw [← ih]
    refine (t.extends_newRecord r).onCycle_iff (ht.closed hs) fun v w hv hw => ?_
    rcases mem_children_newRecord hw with ⟨hhas, -⟩ | ⟨-, hw⟩
    · exact absurd hhas hv
    · exact hr w hw

/-! ## Changing containers -/

/-- Where only `c` can have got something new to hold, and this is `x`, new ways lead from `c` to
`x`. -/
theorem reaches_of_link (hlink : ∀ v w, w ∈ s'.children v → w ∈ s.children v ∨ (v = c ∧ w = x))
    (h : s'.Reaches v w) : s.Reaches v w ∨ (s.Reaches v c ∧ s.Reaches x w) := by
  have hstep {v u w : Value} (hu : u ∈ s'.children v)
      (ih : s.Reaches u w ∨ (s.Reaches u c ∧ s.Reaches x w)) :
      s.Reaches v w ∨ (s.Reaches v c ∧ s.Reaches x w) := by
    rcases hlink v u hu with hold | ⟨rfl, rfl⟩
    · exact ih.imp (reaches_of_child hold) fun hway => ⟨reaches_of_child hold hway.1, hway.2⟩
    · exact .inr ⟨.refl v, ih.elim id And.right⟩
  induction h with
  | refl v => exact .inl (.refl v)
  | item hmem _ ih => exact hstep hmem ih
  | field hmem _ ih => exact hstep (List.mem_map_of_mem hmem) ih

/-- A new cycle goes through the new place. -/
theorem onCycle_of_link (hlink : ∀ v w, w ∈ s'.children v → w ∈ s.children v ∨ (v = c ∧ w = x))
    (h : s'.OnCycle v) : s.OnCycle v ∨ s.Reaches x c := by
  obtain ⟨w, hw, hr⟩ := h
  rcases hlink v w hw with hold | ⟨rfl, rfl⟩
  · rcases reaches_of_link hlink hr with hway | ⟨hto, hfrom⟩
    · exact .inl ⟨w, hold, hway⟩
    · exact .inr (hfrom.trans (reaches_of_child hold hto))
  · exact .inr ((reaches_of_link hlink hr).elim id And.left)

/-- A way to a container does not need what the container holds. -/
theorem SameOn.reaches (h : SameOn (· ≠ c) s s') (hr : s.Reaches v c) : s'.Reaches v c := by
  induction hr with
  | refl => exact .refl _
  | @item a v c hmem _ ih =>
    by_cases hc : .list a = c
    · rw [hc]
      exact .refl c
    · refine .item ?_ (ih h)
      rwa [(h.lists a (has_of_mem_children (v := .list a) hmem) hc).2]
  | @field a f c hmem _ ih =>
    by_cases hc : .record a = c
    · rw [hc]
      exact .refl c
    · refine .field ?_ (ih h)
      have hhas : s.Has (.record a) :=
        has_of_mem_children (v := .record a) (List.mem_map_of_mem hmem)
      rwa [(h.records a hhas hc).2]

theorem onCycle_push {a : ListRef} (ha : a.index < s.lists.size) (h : s.Reaches x (.list a)) :
    (s.push a x).OnCycle (.list a) := by
  refine ⟨x, ?_, (sameOn_push s a x).reaches h⟩
  simp [children, items_push_self s ha]

theorem mem_values_set (r : Record) (key : String) (v : Value) : v ∈ (r.set key v).values := by
  obtain ⟨fs⟩ := r
  induction fs with
  | nil => simp [Record.set, Record.values, TagMachine.setField]
  | cons f fs ih =>
    obtain ⟨k, old⟩ := f
    simp only [Record.set, Record.values, TagMachine.setField] at ih ⊢
    by_cases hk : k = key
    · simp [hk]
    · rw [if_neg hk, List.map_cons]
      exact List.mem_cons_of_mem _ ih

theorem onCycle_setField {a : RecordRef} (ha : a.index < s.records.size) (key : String)
    (h : s.Reaches x (.record a)) : (s.setField a key x).OnCycle (.record a) := by
  refine ⟨x, ?_, (sameOn_setField s a key x).reaches h⟩
  rw [children, record_setField_self s ha]
  exact mem_values_set _ key x

/-! ## Trees -/

theorem isSome_datumWithin_of_le {k : Nat} (h : (s.datumWithin n v).isSome) (hle : n ≤ k) :
    (s.datumWithin k v).isSome := by
  obtain ⟨d, hd⟩ := Option.isSome_iff_exists.1 h
  exact Option.isSome_iff_exists.2 ⟨d, datumWithin_of_le hd hle⟩

theorem isSome_datumWithin_scalar (hv : v.isContainer = false) (n : Nat) :
    (s.datumWithin n v).isSome := by
  cases v <;> cases n <;> first | rfl | cases hv

/-- What a value with a tree holds has a tree that is less deep. -/
theorem exists_depth_of_child (h : (s.datumWithin n v).isSome) (hw : w ∈ s.children v) :
    ∃ k, n = k + 1 ∧ (s.datumWithin k w).isSome := by
  cases n with
  | zero => cases v <;> first | cases hw | cases h
  | succ k => exact ⟨k, rfl, (isSome_datumWithin_succ k v).1 h w hw⟩

theorem isSome_datumWithin_of_reaches (h : (s.datumWithin n v).isSome)
    (hr : s.Reaches v w) : (s.datumWithin n w).isSome := by
  have hchild {v u : Value} (h : (s.datumWithin n v).isSome) (hu : u ∈ s.children v) :
      (s.datumWithin n u).isSome := by
    obtain ⟨k, rfl, hk⟩ := exists_depth_of_child h hu
    exact isSome_datumWithin_of_le hk (by omega)
  induction hr with
  | refl => exact h
  | @item a _ _ hmem _ ih => exact ih (hchild (v := .list a) h hmem)
  | @field a _ _ hmem _ ih => exact ih (hchild (v := .record a) h (List.mem_map_of_mem hmem))

/-- A container that holds itself would have a tree less deep than its own. -/
theorem not_onCycle_of_datumWithin (h : (s.datumWithin n v).isSome) : ¬s.OnCycle v := by
  rintro ⟨w, hw, hr⟩
  induction n with
  | zero =>
    obtain ⟨k, hk, -⟩ := exists_depth_of_child h hw
    omega
  | succ n ih =>
    obtain ⟨k, hk, hdeep⟩ := exists_depth_of_child h hw
    obtain rfl : n = k := by omega
    exact ih (isSome_datumWithin_of_reaches hdeep hr)

/-- The containers that a value reaches. -/
def reached (s : Store) (v : Value) : Finset Value :=
  s.containers.toFinset.filter (s.Reaches v)

theorem mem_containers_of_has (hv : s.Has v) (hcontainer : v.isContainer = true) :
    v ∈ s.containers := by
  cases v with
  | list a => exact list_mem_containers hv
  | record a => exact record_mem_containers hv
  | _ => cases hcontainer

theorem not_onCycle_of_forall_containers (h : ∀ v ∈ s.containers, ¬s.OnCycle v) (v : Value) :
    ¬s.OnCycle v :=
  fun hcycle => h v (mem_containers_of_has hcycle.has hcycle.isContainer) hcycle

/-- What a container off all cycles holds reaches fewer containers. -/
theorem card_reached_lt (hw : w ∈ s.children v) (hv : ¬s.OnCycle v) :
    (s.reached w).card < (s.reached v).card := by
  refine Finset.card_lt_card ⟨fun u hu => ?_, fun hsub => ?_⟩
  · simp only [reached, Finset.mem_filter] at hu ⊢
    exact ⟨hu.1, reaches_of_child hw hu.2⟩
  · have hself : v ∈ s.reached v := by
      simp only [reached, Finset.mem_filter, List.mem_toFinset]
      exact ⟨mem_containers hw, .refl v⟩
    have hback := hsub hself
    simp only [reached, Finset.mem_filter] at hback
    exact hv ⟨w, hw, hback.2⟩

theorem card_reached_le (s : Store) (v : Value) : (s.reached v).card ≤ s.size := by
  calc (s.reached v).card ≤ s.containers.toFinset.card := Finset.card_filter_le _ _
    _ ≤ s.containers.length := List.toFinset_card_le _
    _ = s.size := s.length_containers

/-- Away from cycles, a value has a tree as deep as it reaches containers. -/
theorem isSome_datumWithin_card (hs : s.Closed) (hv : s.Has v)
    (h : ∀ w, s.Reaches v w → ¬s.OnCycle w) : (s.datumWithin (s.reached v).card v).isSome := by
  induction hn : (s.reached v).card using Nat.strong_induction_on generalizing v with
  | _ n ih =>
    subst hn
    by_cases hcontainer : v.isContainer = true
    · have hpos : 0 < (s.reached v).card := by
        refine Finset.card_pos.2 ⟨v, ?_⟩
        simp only [reached, Finset.mem_filter, List.mem_toFinset]
        exact ⟨mem_containers_of_has hv hcontainer, .refl v⟩
      obtain ⟨k, hk⟩ : ∃ k, (s.reached v).card = k + 1 := ⟨_, (Nat.succ_pred_eq_of_pos hpos).symm⟩
      rw [hk, isSome_datumWithin_succ]
      intro w hw
      have hless := card_reached_lt hw (h v (.refl v))
      have hdeep := ih _ hless (hs v w hw) (fun u hu => h u (reaches_of_child hw hu)) rfl
      exact isSome_datumWithin_of_le hdeep (by omega)
    · exact isSome_datumWithin_scalar (Bool.eq_false_of_not_eq_true hcontainer) _

/-- The values that have a tree are those from which no cycle is reached. -/
theorem isSome_datum?_iff (hs : s.Closed) (hv : s.Has v) :
    (s.datum? v).isSome ↔ ∀ w, s.Reaches v w → ¬s.OnCycle w := by
  constructor
  · exact fun h w hr => not_onCycle_of_datumWithin (isSome_datumWithin_of_reaches h hr)
  · exact fun h => isSome_datumWithin_of_le (isSome_datumWithin_card hs hv h) (s.card_reached_le v)

/-! ## Comparisons -/

/-- Equality of values that gives up where it would have to follow references deeper than `depth`.
Lengths are compared first, then elements and fields in their order up to the first that differ. -/
def equalWithin? (s : Store) : Nat → Value → Value → Option Bool
  | 0, .list a, .list b => if a = b then some true else none
  | 0, .record a, .record b => if a = b then some true else none
  | depth + 1, .list a, .list b =>
    if a = b then some true
    else if (s.items a).size ≠ (s.items b).size then some false
    else ((s.items a).toList.zip (s.items b).toList).allM fun p => s.equalWithin? depth p.1 p.2
  | depth + 1, .record a, .record b =>
    if a = b then some true
    else if (s.record a).size ≠ (s.record b).size then some false
    else (s.record a).fields.allM fun f =>
      match (s.record b).get? f.1 with
      | some w => s.equalWithin? depth f.2 w
      | none => some false
  | _, v, w => some (s.equalWithin 0 v w)

theorem equalWithin?_scalar (h : v.isContainer = false ∨ w.isContainer = false) (n m : Nat) :
    s.equalWithin? n v w = some (s.equalWithin m v w) := by
  have hfirst : s.equalWithin? n v w = some (s.equalWithin 0 v w) := by
    cases v <;> cases w <;> cases n <;> first | rfl | simp [Value.isContainer] at h
  rw [hfirst]
  by_cases hv : v.isContainer = false
  · rw [equalWithin_scalar (t := s) hv 0 m]
  · have hw := h.resolve_left hv
    have hv' := Bool.eq_true_of_not_eq_false hv
    rw [equalWithin_container_scalar hv' hw, equalWithin_container_scalar hv' hw]

theorem equalWithin?_list {a b : ListRef}
    (h : ∀ x ∈ s.children (.list a), ∀ y ∈ s.children (.list b),
      s.equalWithin? n x y = some (s.equalWithin m x y)) :
    s.equalWithin? (n + 1) (.list a) (.list b) =
      some (s.equalWithin (m + 1) (.list a) (.list b)) := by
  rw [equalWithin_list, equalWithin?]
  by_cases hab : a = b
  · simp [hab]
  · by_cases hsize : (s.items a).size = (s.items b).size
    · have hall : ((s.items a).toList.zip (s.items b).toList).allM
          (fun p => s.equalWithin? n p.1 p.2) =
          some (((s.items a).toList.zip (s.items b).toList).all fun p =>
            s.equalWithin m p.1 p.2) :=
        allM_eq_some fun p hp => h _ (List.of_mem_zip hp).1 _ (List.of_mem_zip hp).2
      rw [if_neg hab, if_neg (not_not.2 hsize), hall]
      simp [hab, hsize]
    · simp [hab, hsize]

theorem equalWithin?_record {a b : RecordRef}
    (h : ∀ x ∈ s.children (.record a), ∀ y ∈ s.children (.record b),
      s.equalWithin? n x y = some (s.equalWithin m x y)) :
    s.equalWithin? (n + 1) (.record a) (.record b) =
      some (s.equalWithin (m + 1) (.record a) (.record b)) := by
  have hfield : ∀ f ∈ (s.record a).fields, (match (s.record b).get? f.1 with
      | some w => s.equalWithin? n f.2 w
      | none => some false) =
      some (((s.record b).fields.lookup f.1).any (s.equalWithin m f.2)) := by
    intro f hf
    unfold Record.get?
    cases hlookup : (s.record b).fields.lookup f.1 with
    | none => rfl
    | some y =>
      obtain ⟨before, after, hfields, -⟩ := List.lookup_eq_some_iff.1 hlookup
      exact h f.2 (List.mem_map_of_mem hf) y (List.mem_map.2 ⟨(f.1, y), by simp [hfields], rfl⟩)
  rw [equalWithin_record, equalWithin?, allM_eq_some hfield]
  simp only [Record.size]
  by_cases hab : a = b
  · simp [hab]
  · by_cases hsize : (s.record a).fields.length = (s.record b).fields.length
    · simp [hab, hsize]
    · simp [hab, hsize]

/-- A comparison goes no deeper than the tree of one of its sides. -/
theorem equalWithin?_eq (hle : n ≤ m)
    (h : (s.datumWithin n v).isSome ∨ (s.datumWithin n w).isSome) :
    s.equalWithin? n v w = some (s.equalWithin m v w) := by
  induction n generalizing v w m with
  | zero =>
    refine equalWithin?_scalar (h.imp ?_ ?_) 0 m
    · cases v <;> first | exact fun _ => rfl | exact nofun
    · cases w <;> first | exact fun _ => rfl | exact nofun
  | succ n ih =>
    obtain ⟨m, rfl⟩ : ∃ k, m = k + 1 := ⟨m - 1, by omega⟩
    have hpair : ∀ x ∈ s.children v, ∀ y ∈ s.children w,
        s.equalWithin? n x y = some (s.equalWithin m x y) := by
      intro x hx y hy
      refine ih (by omega) ?_
      rw [isSome_datumWithin_succ, isSome_datumWithin_succ] at h
      exact h.imp (fun h => h x hx) fun h => h y hy
    cases v with
    | list a =>
      cases w with
      | list b => exact equalWithin?_list hpair
      | record b => rfl
      | _ => exact equalWithin?_scalar (.inr rfl) _ _
    | record a =>
      cases w with
      | record b => exact equalWithin?_record hpair
      | list b => rfl
      | _ => exact equalWithin?_scalar (.inr rfl) _ _
    | _ => exact equalWithin?_scalar (.inl rfl) _ _

/-! ## What can be shown -/

/-- Following all references of a value comes to an end. It has a tree, which is what its texts
show, and a comparison with any other value ends within a bounded depth. -/
structure Unfolds (s : Store) (v : Value) : Prop where
  tree : ∃ d, s.datum? v = some d ∧ s.text v = d.render ∧ s.jsonText v = Json.write d
  equal : ∃ n, ∀ w, s.equalWithin? n v w = some (s.equal v w) ∧
    s.equalWithin? n w v = some (s.equal w v)

theorem unfolds_iff : s.Unfolds v ↔ (s.datum? v).isSome := by
  constructor
  · intro h
    obtain ⟨d, hd, -⟩ := h.tree
    rw [hd]
    rfl
  · intro h
    obtain ⟨d, hd⟩ := Option.isSome_iff_exists.1 h
    refine ⟨⟨d, hd, by rw [text, hd], by rw [jsonText, hd]⟩, s.size, fun w => ?_⟩
    -- deep enough for the trees and for equality
    let m := s.size + (s.size * s.size + 1)
    rw [← equalWithin_eq_equal (n := m) (by omega), ← equalWithin_eq_equal (n := m) (by omega)]
    exact ⟨equalWithin?_eq (by omega) (.inl h), equalWithin?_eq (by omega) (.inr h)⟩

end Store

end TagMachine
