import TagMachine.Proofs.Store.Basic
import TagMachine.Proofs.Value.Record

set_option autoImplicit false

/-! # Records in the order of insertion

What a record has, by the fields that were set in it one after another. The record that results is
the one that these fields make, whether they are collected all at once or set in a record of a
store, with other writes to the store in between (`Store.record_of_filled`). So one description fits
both (`Record.insertionOrdered_ofList`).
-/

namespace TagMachine

/-- The different elements of a list stand in the order in which each comes first. -/
theorem pairwise_idxOf_eraseDups {α : Type} [BEq α] [LawfulBEq α] (xs : List α) :
    xs.eraseDups.Pairwise fun a b => xs.idxOf a < xs.idxOf b := by
  -- from the end: the last element is among those in front, or comes after all of them
  induction xs using List.reverseRecOn with
  | nil => exact .nil
  | append_singleton xs x ih =>
    have hfront : ∀ {a}, a ∈ xs.eraseDups → (xs ++ [x]).idxOf a = xs.idxOf a := fun ha =>
      List.idxOf_append_of_mem (List.mem_eraseDups.1 ha)
    have hold : xs.eraseDups.Pairwise fun a b => (xs ++ [x]).idxOf a < (xs ++ [x]).idxOf b :=
      ih.imp_of_mem fun ha hb hlt => by rwa [hfront ha, hfront hb]
    rw [List.eraseDups_append]
    by_cases hx : x ∈ xs
    · have hnone : [x].removeAll xs = [] := by simp [List.removeAll, hx]
      rwa [hnone, List.eraseDups_nil, List.append_nil]
    · have hnew : [x].removeAll xs = [x] := by simp [List.removeAll, hx]
      rw [hnew, eraseDups_of_nodup (List.nodup_singleton x), List.pairwise_append]
      refine ⟨hold, List.pairwise_singleton .., fun a ha b hb => ?_⟩
      obtain rfl := List.mem_singleton.1 hb
      rw [hfront ha, List.idxOf_append_of_notMem hx]
      exact (List.idxOf_lt_length_of_mem (List.mem_eraseDups.1 ha)).trans_le (Nat.le_add_right ..)

namespace Record

/-- The record has the fields that were set one after another. Its names are those that were set,
each once, in the order in which they came first. A name has the value that it was given last, and
the values and the entries are in the order of the names. -/
structure InsertionOrdered (r : Record) (sets : List (String × Value)) : Prop where
  nodup : r.keys.Nodup
  mem_keys : ∀ key, key ∈ r.keys ↔ key ∈ sets.map Prod.fst
  order : r.keys.Pairwise fun a b => (sets.map Prod.fst).idxOf a < (sets.map Prod.fst).idxOf b
  get_last : ∀ before key v after, sets = before ++ (key, v) :: after → key ∉ after.map Prod.fst →
    r.get key = v
  get_absent : ∀ key, key ∉ sets.map Prod.fst → r.get key = .nothing
  has_iff : ∀ key, r.has key = true ↔ key ∈ sets.map Prod.fst
  size : r.size = r.keys.length
  values : r.values = r.keys.map r.get
  entries : r.fields = r.keys.map fun key => (key, r.get key)

theorem fields_eq_map_keys {r : Record} (h : r.keys.Nodup) :
    r.fields = r.keys.map fun key => (key, r.get key) := by
  rw [keys, List.map_map]
  refine (List.map_id r.fields).symm.trans (List.map_congr_left fun f hf => ?_)
  have hget : r.get f.1 = f.2 := by rw [get, get?, lookup_of_nodup h hf, Option.getD_some]
  exact Prod.ext rfl hget.symm

theorem has_iff_mem_keys {r : Record} (h : r.keys.Nodup) (key : String) :
    r.has key = true ↔ key ∈ r.keys := by
  rw [has, get?, keys]
  constructor
  · intro hsome
    obtain ⟨v, hv⟩ := Option.isSome_iff_exists.1 hsome
    exact List.mem_map_of_mem (mem_of_lookup hv)
  · intro hmem
    obtain ⟨f, hf, rfl⟩ := List.mem_map.1 hmem
    rw [lookup_of_nodup h hf, Option.isSome_some]

theorem mem_keys_ofList (sets : List (String × Value)) (key : String) :
    key ∈ (ofList sets).keys ↔ key ∈ sets.map Prod.fst := by
  rw [keys, ofList, keys_collectFields, List.mem_eraseDups]

theorem get_ofList_last {before after : List (String × Value)} {key : String} (v : Value)
    (h : key ∉ after.map Prod.fst) : (ofList (before ++ (key, v) :: after)).get key = v := by
  have hlast : (ofList (before ++ (key, v) :: after)).get? key = some v := by
    refine (lookup_collectFields ..).trans ?_
    refine List.lookup_eq_some_iff.2 ⟨after.reverse, before.reverse, by simp, fun f hf => ?_⟩
    have hne : key ≠ f.1 := fun heq => h (heq ▸ List.mem_map_of_mem (List.mem_reverse.1 hf))
    simpa using hne
  rw [get, hlast, Option.getD_some]

/-- Fields that are collected are kept in the order of insertion. -/
theorem insertionOrdered_ofList (sets : List (String × Value)) :
    (ofList sets).InsertionOrdered sets where
  nodup := nodup_keys_ofList sets
  mem_keys := mem_keys_ofList sets
  order := by
    rw [keys, ofList, keys_collectFields]
    exact pairwise_idxOf_eraseDups _
  get_last := by
    rintro before key v after rfl
    exact get_ofList_last v
  get_absent key hkey := by
    have hnone : (ofList sets).get? key = none := by
      rwa [← Option.not_isSome_iff_eq_none, ← has, has_iff_mem_keys (nodup_keys_ofList sets),
        mem_keys_ofList]
    rw [get, hnone, Option.getD_none]
  has_iff key := (has_iff_mem_keys (nodup_keys_ofList sets) key).trans (mem_keys_ofList sets key)
  size := (List.length_map _).symm
  values := by
    have hfields := fields_eq_map_keys (nodup_keys_ofList sets)
    rw [Record.values, hfields, List.map_map]
    rfl
  entries := fields_eq_map_keys (nodup_keys_ofList sets)

theorem set_ofList (sets : List (String × Value)) (key : String) (v : Value) :
    (ofList sets).set key v = ofList (sets ++ [(key, v)]) :=
  congrArg mk (collectFields_concat sets (key, v)).symm

end Record

namespace Store

/-- The stores in which a record that was made without fields has had some set, one after another.
In between anything was written that left the record alone. -/
inductive Filled (a : RecordRef) : List (String × Value) → Store → Prop
  | new {s : Store} (h : (s.newRecord .empty).1 = a) : Filled a [] (s.newRecord .empty).2
  | set {sets : List (String × Value)} {s : Store} (h : Filled a sets s) (key : String)
    (v : Value) :
      Filled a (sets ++ [(key, v)]) (s.setField a key v)
  | aside {sets : List (String × Value)} {s t : Store} (h : Filled a sets s)
      (hsame : SameOn (· = .record a) s t) : Filled a sets t

variable {a : RecordRef} {sets : List (String × Value)} {s : Store}

/-- The record is there, and is the one that the fields make. -/
theorem record_of_filled (h : Filled a sets s) :
    a.index < s.records.size ∧ s.record a = .ofList sets := by
  induction h with
  | @new s h =>
    subst h
    exact ⟨by simp [newRecord], s.record_newRecord_self _⟩
  | @set sets s _ key v ih =>
    obtain ⟨hlt, hrecord⟩ := ih
    refine ⟨by simpa [setField] using hlt, ?_⟩
    rw [record_setField_self s hlt, hrecord, Record.set_ofList]
  | aside _ hsame ih =>
    obtain ⟨hlt, hrecord⟩ := ih
    obtain ⟨hlt', hrecord'⟩ := hsame.records a hlt rfl
    exact ⟨hlt', hrecord'.trans hrecord⟩

/-- A record is an insertion-ordered map of what was set in it, whether its fields were collected or
set one after another, with other writes in between. -/
theorem records_insertion_ordered (sets : List (String × Value)) :
    (Record.ofList sets).InsertionOrdered sets ∧
      ∀ (a : RecordRef) (s : Store), Filled a sets s → (s.record a).InsertionOrdered sets := by
  refine ⟨Record.insertionOrdered_ofList sets, fun a s h => ?_⟩
  rw [(record_of_filled h).2]
  exact Record.insertionOrdered_ofList sets

/-- A store with a list, and a record whose field `b` is set twice, with a write to the list in
between. -/
theorem repeated_insertion_ordered :
    let start : Store := { lists := #[#[]] }
    let done :=
      ((((start.newRecord .empty).2.setField ⟨0⟩ "b" (.integer 1)).setField
        ⟨0⟩ "a" .nothing).push ⟨0⟩
      (.record ⟨0⟩)).setField ⟨0⟩ "b" (.list ⟨0⟩)
    Filled ⟨0⟩ [("b", .integer 1), ("a", .nothing), ("b", .list ⟨0⟩)] done ∧
      (done.record ⟨0⟩).get "b" = .list ⟨0⟩ ∧ (done.record ⟨0⟩).has "a" = true ∧
      (done.record ⟨0⟩).get "c" = .nothing ∧ (done.record ⟨0⟩).has "c" = false ∧
      (done.record ⟨0⟩).keys = ["b", "a"] ∧ (done.record ⟨0⟩).values = [.list ⟨0⟩, .nothing] := by
  intro start done
  have hnew : Filled ⟨0⟩ [] (start.newRecord .empty).2 := .new rfl
  have hpush :=
    sameOn_push (((start.newRecord .empty).2.setField ⟨0⟩ "b" (.integer 1)).setField
      ⟨0⟩ "a" .nothing)
    ⟨0⟩ (.record ⟨0⟩)
  have hfilled : Filled ⟨0⟩ [("b", .integer 1), ("a", .nothing), ("b", .list ⟨0⟩)] done :=
    (((hnew.set "b" (.integer 1)).set "a" .nothing).aside
      (hpush.of_imp (by rintro _ rfl; exact nofun))).set "b"
      (.list ⟨0⟩)
  have h := (records_insertion_ordered _).2 _ _ hfilled
  have hb := h.get_last [("b", .integer 1), ("a", .nothing)] "b" (.list ⟨0⟩) [] rfl (by decide)
  have ha := h.get_last [("b", .integer 1)] "a" .nothing [("b", .list ⟨0⟩)] rfl (by decide)
  have hkeys : (done.record ⟨0⟩).keys = ["b", "a"] := rfl
  refine ⟨hfilled, hb, (h.has_iff "a").2 (by decide), h.get_absent "c" (by decide), ?_, hkeys, ?_⟩
  · rw [← Bool.not_eq_true, h.has_iff]
    decide
  · rw [h.values, hkeys, List.map_cons, List.map_singleton, hb, ha]

end Store

end TagMachine
