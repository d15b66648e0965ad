import Mathlib.Tactic
import TagMachine.Value.Record

set_option autoImplicit false

/-! # Fields and their names

Fields are set one after another: their names stand in the order in which they came first
(`keys_collectFields`), and each has the value that it was given last (`lookup_collectFields`).
Fields whose names are all different stay as they are (`collectFields_of_nodup`), and they are told
by what is found under each name, up to their order (`perm_of_lookup_eq`).
-/

namespace TagMachine

variable {α : Type} {fs gs : List (String × α)}

/-! ## Names -/

theorem keys_setField (key : String) (v : α) (fs : List (String × α)) :
    (setField key v fs).map Prod.fst =
      if key ∈ fs.map Prod.fst then fs.map Prod.fst else fs.map Prod.fst ++ [key] := by
  induction fs with
  | nil => rfl
  | cons f fs ih =>
    obtain ⟨k, old⟩ := f
    unfold setField
    by_cases hk : k = key
    · simp [hk]
    · rw [if_neg hk, List.map_cons, ih]
      by_cases hmem : key ∈ fs.map Prod.fst
      · rw [if_pos hmem, List.map_cons, if_pos (List.mem_cons_of_mem _ hmem)]
      · have hcons : key ∉ k :: fs.map Prod.fst := by
          rw [List.mem_cons, not_or]
          exact ⟨Ne.symm hk, hmem⟩
        rw [if_neg hmem, List.map_cons, if_neg hcons, List.cons_append]

theorem nodup_keys_setField (key : String) (v : α) (h : (fs.map Prod.fst).Nodup) :
    ((setField key v fs).map Prod.fst).Nodup := by
  rw [keys_setField]
  split
  · exact h
  · rename_i hmem
    rw [← List.concat_eq_append]
    exact h.concat hmem

theorem setField_of_notMem {key : String} (h : key ∉ fs.map Prod.fst) (v : α) :
    setField key v fs = fs ++ [(key, v)] := by
  induction fs with
  | nil => rfl
  | cons f fs ih =>
    rw [List.map_cons, List.mem_cons, not_or] at h
    rw [setField, if_neg (Ne.symm h.1), ih h.2, List.cons_append]

theorem collectFields_concat (fs : List (String × α)) (f : String × α) :
    collectFields (fs ++ [f]) = setField f.1 f.2 (collectFields fs) :=
  List.foldl_append

theorem nodup_keys_collectFields (fs : List (String × α)) :
    ((collectFields fs).map Prod.fst).Nodup := by
  induction fs using List.reverseRecOn with
  | nil => exact .nil
  | append_singleton fs f ih =>
    rw [collectFields_concat]
    exact nodup_keys_setField f.1 f.2 ih

/-- Fields with distinct keys stay as they are when they are set one after another. -/
theorem collectFields_of_nodup (h : (fs.map Prod.fst).Nodup) : collectFields fs = fs := by
  induction fs using List.reverseRecOn with
  | nil => rfl
  | append_singleton fs f ih =>
    rw [List.map_append, List.nodup_append] at h
    have hnew : f.1 ∉ fs.map Prod.fst := fun hmem => h.2.2 _ hmem _ (List.mem_singleton_self _) rfl
    rw [collectFields_concat, ih h.1, setField_of_notMem hnew]

theorem eraseDups_of_nodup {β : Type} [BEq β] [LawfulBEq β] {xs : List β} (h : xs.Nodup) :
    xs.eraseDups = xs := by
  induction xs with
  | nil => rfl
  | cons x xs ih =>
    obtain ⟨hx, hrest⟩ := List.nodup_cons.1 h
    have hothers : xs.filter (fun y => !y == x) = xs :=
      List.filter_eq_self.2 fun y hy => by simpa using fun heq : y = x => hx (heq ▸ hy)
    rw [List.eraseDups_cons, hothers, ih hrest]

/-- The names stand in the order in which they were first set. -/
theorem keys_collectFields (fs : List (String × α)) :
    (collectFields fs).map Prod.fst = (fs.map Prod.fst).eraseDups := by
  induction fs using List.reverseRecOn with
  | nil => rfl
  | append_singleton fs f ih =>
    rw [collectFields_concat, keys_setField, ih, List.map_append, List.eraseDups_append]
    by_cases hmem : f.1 ∈ fs.map Prod.fst
    · rw [if_pos (List.mem_eraseDups.2 hmem)]
      simp [List.removeAll, hmem]
    · have hnew : [f.1].removeAll (fs.map Prod.fst) = [f.1] := by simp [List.removeAll, hmem]
      rw [if_neg (mt List.mem_eraseDups.1 hmem), List.map_singleton, hnew,
        eraseDups_of_nodup (List.nodup_singleton _)]

/-! ## Values -/

theorem mem_of_lookup {key : String} {a : α} (h : fs.lookup key = some a) : (key, a) ∈ fs := by
  obtain ⟨before, after, hfields, -⟩ := List.lookup_eq_some_iff.1 h
  simp [hfields]

theorem lookup_of_nodup (h : (fs.map Prod.fst).Nodup) {f : String × α} (hf : f ∈ fs) :
    fs.lookup f.1 = some f.2 := by
  induction fs with
  | nil => cases hf
  | cons g fs ih =>
    obtain ⟨key, d⟩ := g
    obtain ⟨hkey, hrest⟩ := List.nodup_cons.1 h
    rw [List.lookup_cons]
    rcases List.mem_cons.1 hf with rfl | hmem
    · rw [beq_self_eq_true]
    · have hne : (f.1 == key) = false := by
        rw [beq_eq_false_iff_ne]
        intro heq
        have hname : f.1 ∈ fs.map Prod.fst := List.mem_map_of_mem hmem
        rw [heq] at hname
        exact hkey hname
      rw [hne]
      exact ih hrest hmem

theorem lookup_cons_eq_if (key name : String) (v : α) (fs : List (String × α)) :
    ((name, v) :: fs).lookup key = if key = name then some v else fs.lookup key := by
  rw [List.lookup_cons]
  by_cases h : key = name
  · rw [if_pos h, beq_iff_eq.2 h]
  · rw [if_neg h, beq_eq_false_iff_ne.2 h]

theorem lookup_setField (key name : String) (v : α) (fs : List (String × α)) :
    (setField name v fs).lookup key = if key = name then some v else fs.lookup key := by
  induction fs with
  | nil => exact lookup_cons_eq_if key name v []
  | cons f fs ih =>
    obtain ⟨k, old⟩ := f
    rw [setField]
    by_cases hk : k = name
    · rw [if_pos hk, lookup_cons_eq_if, lookup_cons_eq_if, hk]
      split <;> rfl
    · rw [if_neg hk, lookup_cons_eq_if, lookup_cons_eq_if, ih]
      grind

/-- A name has the value that it was given last. -/
theorem lookup_collectFields (key : String) (fs : List (String × α)) :
    (collectFields fs).lookup key = fs.reverse.lookup key := by
  induction fs using List.reverseRecOn with
  | nil => rfl
  | append_singleton fs f ih =>
    obtain ⟨name, v⟩ := f
    rw [collectFields_concat, lookup_setField, ih, List.reverse_append, List.reverse_singleton,
      List.singleton_append, lookup_cons_eq_if]

theorem lookup_reverse (h : (fs.map Prod.fst).Nodup) (key : String) :
    fs.reverse.lookup key = fs.lookup key := by
  rw [← lookup_collectFields, collectFields_of_nodup h]

/-- What is found among fields that were looked up under some names. -/
theorem lookup_filterMap (find : String → Option α) (names : List String) (key : String) :
    (names.filterMap fun name => (find name).map (name, ·)).lookup key =
      if key ∈ names then find key else none := by
  induction names with
  | nil => rfl
  | cons name names ih =>
    rw [List.filterMap_cons]
    by_cases hkey : key = name
    · subst hkey
      cases hfind : find key with
      | none => simp [ih, hfind]
      | some v => simp
    · cases hfind : find name with
      | none => simp [ih, hkey]
      | some v => simp [lookup_cons_eq_if, ih, hkey]

theorem lookup_filter_keys (p : String → Bool) (fs : List (String × α)) (key : String) :
    (fs.filter fun f => p f.1).lookup key = if p key then fs.lookup key else none := by
  induction fs with
  | nil => simp
  | cons f fs ih =>
    obtain ⟨name, v⟩ := f
    rw [List.filter_cons, lookup_cons_eq_if]
    by_cases hkey : key = name
    · subst hkey
      cases hp : p key <;> simp [ih, hp]
    · rw [if_neg hkey]
      cases p name <;> simp [ih, hkey, lookup_cons_eq_if]

/-- Fields with distinct names are the same up to their order if the same is found under every
name. -/
theorem perm_of_lookup_eq (hfs : (fs.map Prod.fst).Nodup) (hgs : (gs.map Prod.fst).Nodup)
    (h : ∀ key, fs.lookup key = gs.lookup key) : fs.Perm gs := by
  refine (List.perm_ext_iff_of_nodup (.of_map _ hfs) (.of_map _ hgs)).2 fun f => ⟨fun hf => ?_,
    fun hf => ?_⟩
  · exact mem_of_lookup ((h f.1).symm.trans (lookup_of_nodup hfs hf))
  · exact mem_of_lookup ((h f.1).trans (lookup_of_nodup hgs hf))

/-! ## Records -/

namespace Record

theorem nodup_keys_set {r : Record} (h : r.keys.Nodup) (key : String) (v : Value) :
    (r.set key v).keys.Nodup := nodup_keys_setField key v h

theorem nodup_keys_ofList (fs : List (String × Value)) : (ofList fs).keys.Nodup :=
  nodup_keys_collectFields fs

theorem ofList_fields {r : Record} (h : r.keys.Nodup) : ofList r.fields = r :=
  congrArg mk (collectFields_of_nodup h)

/-- A record of fields is what setting them one after another gives. -/
theorem foldl_set (fs : List (String × Value)) :
    fs.foldl (fun r f => r.set f.1 f.2) empty = ofList fs := by
  induction fs using List.reverseRecOn with
  | nil => rfl
  | append_singleton fs f ih =>
    rw [List.foldl_append, ih]
    exact congrArg mk (collectFields_concat fs f).symm

end Record

end TagMachine
