import TagMachine.Execution
import TagMachine.Proofs.Json.Nested
import TagMachine.Proofs.Store.Cycles

set_option autoImplicit false

/-! # JSON texts of values

A value that leads to no cycle and to no float has a tree, and the text of the tree is read as that
tree, unless it is too deep (`Store.json_round_trip`). What is made from the tree in any store shows
it again (`Store.placeable_of_every`). Containers that were shared are so no longer, and nothing
else is lost.
-/

namespace TagMachine

namespace Store

variable {s : Store} {v : Value} {d : Datum}

/-- What holds of the trees of all that a value reaches holds throughout its own tree. -/
theorem every_of_datumWithin {p : Datum → Prop} {n : Nat} (h : s.datumWithin n v = some d)
    (hp : ∀ w k e, s.Reaches v w → s.datumWithin k w = some e → p e) : d.Every p := by
  induction n using Nat.strong_induction_on generalizing v d with
  | _ n ih =>
    refine .intro (hp v n d (.refl v) h) ?_
    cases v with
    | list a =>
      obtain ⟨k, ds, rfl, rfl, hds⟩ := exists_tree_of_list h
      intro e he
      obtain ⟨w, hw, hdatum⟩ := exists_of_forall₂_of_mem hds.flip he
      exact ih k (Nat.lt_succ_self k) hdatum fun u j e hu => hp u j e (.item hw hu)
    | record a =>
      obtain ⟨k, ds, rfl, rfl, hds⟩ := exists_tree_of_record h
      intro e he
      obtain ⟨g, hg, rfl⟩ := List.mem_map.1 he
      obtain ⟨f, hf, -, hdatum⟩ := exists_of_forall₂_of_mem (List.Forall₂.flip hds) hg
      exact ih k (Nat.lt_succ_self k) hdatum fun u j e hu => hp u j e (.field hf hu)
    | _ =>
      rw [datumWithin_scalar rfl n 0 (t := s)] at h
      cases h
      exact nofun

/-- The tree of a record has its names once. -/
theorem nodup_keys_of_datumWithin (hkeys : s.Distinct) {n : Nat} {fields : List (String × Datum)}
    (h : s.datumWithin n v = some (.record fields)) : (fields.map Prod.fst).Nodup := by
  cases v with
  | list a =>
    obtain ⟨_, _, -, heq, -⟩ := exists_tree_of_list h
    cases heq
  | record a =>
    obtain ⟨k, ds, -, heq, hds⟩ := exists_tree_of_record h
    obtain rfl := Datum.record.inj heq
    exact hds.keys_eq ▸ hkeys a
  | _ =>
    rw [datumWithin_scalar rfl n 0 (t := s)] at h
    cases h

/-- The tree of a value that leads to no float is faithful. -/
theorem every_faithful_of_datumWithin (hkeys : s.Distinct) {n : Nat}
    (h : s.datumWithin n v = some d) (hfloat : ∀ w, s.Reaches v w → w.kind ≠ .float) :
    d.Every Datum.Faithful := by
  refine every_of_datumWithin h fun w k e hr he => ?_
  cases e with
  | record fields => exact nodup_keys_of_datumWithin hkeys he
  | float x => exact hfloat w hr (kind_eq_of_datumWithin he).symm
  | _ => trivial

/-- A value of a closed store and its tree. -/
structure Shows (s : Store) (v : Value) (d : Datum) : Prop where
  closed : s.Closed
  has : s.Has v
  datum : s.datum? v = some d

theorem Shows.of_extends {t : Store} (h : s.Shows v d) (hext : s.Extends t) (ht : t.Closed) :
    t.Shows v d :=
  ⟨ht, hext.has h.has, (hext.datum?_eq h.closed h.has).trans h.datum⟩

theorem shows_newList (hs : s.Closed) {xs : Array Value} {ds : List Datum}
    (h : List.Forall₂ s.Shows xs.toList ds) :
    (s.newList xs).2.Shows (.list (s.newList xs).1) (.list ds) where
  closed := by
    refine closed_newList hs fun v hv => ?_
    obtain ⟨d, -, hd⟩ := exists_of_forall₂_of_mem h hv
    exact hd.has
  has := has_newList_self ..
  datum := datum?_newList hs (h.imp fun v d hd => ⟨hd.has, hd.datum⟩)

theorem shows_newRecord (hs : s.Closed) {r : Record} {ds : List (String × Datum)}
    (h : List.Forall₂ (fun f g => f.1 = g.1 ∧ s.Shows f.2 g.2) r.fields ds) :
    (s.newRecord r).2.Shows (.record (s.newRecord r).1) (.record ds) where
  closed := by
    refine closed_newRecord hs fun v hv => ?_
    obtain ⟨f, hf, rfl⟩ := List.mem_map.1 hv
    obtain ⟨g, -, hg⟩ := exists_of_forall₂_of_mem h hf
    exact hg.2.has
  has := has_newRecord_self ..
  datum := datum?_newRecord hs (h.imp fun f g hfg => ⟨hfg.1, hfg.2.has, hfg.2.datum⟩)

/-- What is made from a tree in any closed store shows that tree. -/
def Placeable (d : Datum) : Prop := ∀ t : Store, t.Closed → (t.place d).2.Shows (t.place d).1 d

theorem shows_items {items : List Datum} (hitems : ∀ d ∈ items, Placeable d) (t : Store)
    (ht : t.Closed) (done : Array Value) (ds : List Datum)
    (hdone : List.Forall₂ t.Shows done.toList ds) :
    (t.buildItems (Datum.blueprints items) done).2.Closed ∧
      List.Forall₂ (t.buildItems (Datum.blueprints items) done).2.Shows
        (t.buildItems (Datum.blueprints items) done).1.toList (ds ++ items) := by
  induction items generalizing t done ds with
  | nil =>
    rw [List.append_nil]
    exact ⟨ht, hdone⟩
  | cons d items ih =>
    obtain ⟨hd, hitems⟩ := List.forall_mem_cons.1 hitems
    have hplaced := hd t ht
    have hext := t.extends_build d.blueprint
    have hdone' : List.Forall₂ (t.place d).2.Shows (done.push (t.place d).1).toList
        (ds ++ [d]) := by
      rw [Array.toList_push]
      exact List.rel_append (hdone.imp fun v e hv => hv.of_extends hext hplaced.closed)
        (.cons hplaced .nil)
    have hrest := ih hitems (t.place d).2 hplaced.closed _ _ hdone'
    rw [List.append_assoc, List.singleton_append] at hrest
    exact hrest

theorem shows_fields {fields : List (String × Datum)} (hfields : ∀ f ∈ fields, Placeable f.2)
    (t : Store) (ht : t.Closed) (done : Array (String × Value)) (ds : List (String × Datum))
    (hdone : List.Forall₂ (fun f g => f.1 = g.1 ∧ t.Shows f.2 g.2) done.toList ds) :
    (t.buildFields (Datum.fieldBlueprints fields) done).2.Closed ∧
      List.Forall₂ (fun f g => f.1 = g.1 ∧
          (t.buildFields (Datum.fieldBlueprints fields) done).2.Shows f.2 g.2)
        (t.buildFields (Datum.fieldBlueprints fields) done).1.toList (ds ++ fields) := by
  induction fields generalizing t done ds with
  | nil =>
    rw [List.append_nil]
    exact ⟨ht, hdone⟩
  | cons f fields ih =>
    obtain ⟨hf, hfields⟩ := List.forall_mem_cons.1 hfields
    have hplaced := hf t ht
    have hext := t.extends_build f.2.blueprint
    have hdone' : List.Forall₂ (fun g h => g.1 = h.1 ∧ (t.place f.2).2.Shows g.2 h.2)
        (done.push (f.1, (t.place f.2).1)).toList (ds ++ [f]) := by
      rw [Array.toList_push]
      exact List.rel_append
        (hdone.imp fun g h hgh => ⟨hgh.1, hgh.2.of_extends hext hplaced.closed⟩)
        (.cons ⟨rfl, hplaced⟩ .nil)
    have hrest := ih hfields (t.place f.2).2 hplaced.closed _ _ hdone'
    rw [List.append_assoc, List.singleton_append] at hrest
    exact hrest

theorem placeable_of_every (h : d.Every Datum.Faithful) : Placeable d := by
  induction h with
  | @intro d here inside ih =>
    intro t ht
    cases d with
    | list items =>
      obtain ⟨hclosed, hitems⟩ := shows_items ih t ht #[] [] .nil
      exact shows_newList hclosed hitems
    | record fields =>
      obtain ⟨hclosed, hfields⟩ := shows_fields (fun f hf => ih f.2 (List.mem_map_of_mem hf)) t ht
        #[] [] .nil
      have hkeys : ((t.buildFields (Datum.fieldBlueprints fields) #[]).1.toList.map
          Prod.fst).Nodup := by
        rw [keys_eq_of_forall₂ hfields]
        exact here
      refine shows_newRecord hclosed (r := Record.ofList _) ?_
      rw [Record.ofList, collectFields_of_nodup hkeys]
      exact hfields
    | float x => cases here
    | _ => exact ⟨ht, trivial, datumWithin_scalar rfl t.size 0 (t := t)⟩

/-- Values without floats go through their JSON text unchanged as long as they are at most 127
containers deep: the text is read as the tree of the value, which can be made again in any store.
The text of a value that is deeper is refused. -/
theorem json_round_trip (hclosed : s.Closed) (hhas : s.Has v) (hkeys : s.Distinct)
    (hacyclic : ∀ w, s.Reaches v w → ¬ s.OnCycle w)
    (hfloat : ∀ w, s.Reaches v w → w.kind ≠ .float) :
    ∃ d, s.datum? v = some d ∧
      (d.depth ≤ 127 → Config.readJson (s.jsonText v) = .ok d ∧
        ∀ t : Store, t.Closed → (t.place d).2.datum? (t.place d).1 = some d) ∧
      (128 ≤ d.depth → ∃ e, Config.readJson (s.jsonText v) = .error (.json e) ∧
        e.fault = .tooDeep) := by
  obtain ⟨d, hd⟩ := Option.isSome_iff_exists.1 ((isSome_datum?_iff hclosed hhas).2 hacyclic)
  have hfaithful := every_faithful_of_datumWithin hkeys hd hfloat
  have htext : s.jsonText v = Json.write d := by
    unfold jsonText
    rw [hd]
  obtain ⟨hshallow, hdeep⟩ := Json.read_write hfaithful
  unfold Config.readJson
  rw [htext]
  refine ⟨d, hd, fun hdepth => ⟨?_, fun t ht => (placeable_of_every hfaithful t ht).datum⟩,
    fun hdepth => ?_⟩
  · rw [hshallow hdepth]
  · obtain ⟨e, he, hfault⟩ := hdeep hdepth
    exact ⟨e, by rw [he], hfault⟩

/-- What holds of everything that the containers of a store hold, as they are listed. -/
theorem forall_children {p : Value → Prop} (hlists : ∀ xs ∈ s.lists.toList, ∀ w ∈ xs.toList, p w)
    (hrecords : ∀ r ∈ s.records.toList, ∀ w ∈ r.values, p w) : ∀ u, ∀ w ∈ s.children u, p w := by
  intro u w hw
  cases u with
  | list a =>
    change w ∈ (s.items a).toList at hw
    rw [items_eq] at hw
    cases hxs : s.lists[a.index]? with
    | none => simp [hxs] at hw
    | some xs =>
      rw [hxs, Option.getD_some] at hw
      exact hlists xs (Array.mem_toList_iff.2 (Array.mem_of_getElem? hxs)) w hw
  | record a =>
    change w ∈ (s.record a).values at hw
    rw [record_eq] at hw
    cases hr : s.records[a.index]? with
    | none => simp [hr, Record.values, Record.empty] at hw
    | some r =>
      rw [hr, Option.getD_some] at hw
      exact hrecords r (Array.mem_toList_iff.2 (Array.mem_of_getElem? hr)) w hw
  | _ => cases hw

theorem forall_reaches {p : Value → Prop} (h : ∀ u, ∀ w ∈ s.children u, p w) (hv : p v) {w : Value}
    (hr : s.Reaches v w) : p w := by
  induction hr with
  | refl => exact hv
  | item hmem _ ih => exact ih (h (.list _) _ hmem)
  | field hmem _ ih => exact ih (h (.record _) _ (List.mem_map_of_mem hmem))

/-- A list with a string of all sorts of characters and the least and the greatest integer, twice in
another list, which is in a record whose keys are not in order. -/
def sharing : Store where
  lists := #[#[.string "\x00\"\\/\n\x1f é😀", .integer Int64.minValue, .integer Int64.maxValue],
    #[.list ⟨0⟩, .list ⟨0⟩]]
  records := #[⟨[("b", .list ⟨1⟩), ("", .nothing), ("a", .boolean false)]⟩]

/-- Lists one inside the other, 128 deep. -/
def tower : Store where
  lists := (Array.range 128).map fun k => if k = 0 then #[] else #[.list ⟨k - 1⟩]

theorem distinct_sharing : sharing.Distinct := by
  intro a
  rw [record_eq]
  by_cases ha : a.index = 0
  · rw [ha]
    decide
  · have hnone : sharing.records[a.index]? = none := by
      simp only [sharing, Array.getElem?_eq_none_iff, List.size_toArray, List.length_singleton]
      omega
    rw [hnone]
    exact List.nodup_nil

theorem children_sharing : ∀ u, ∀ w ∈ sharing.children u, sharing.Has w ∧ w.kind ≠ .float := by
  refine forall_children ?_ ?_
  · simp [sharing, Has, Value.kind]
  · intro r hr w hw
    obtain rfl : r = ⟨[("b", .list ⟨1⟩), ("", .nothing), ("a", .boolean false)]⟩ := by
      simpa [sharing] using hr
    obtain rfl | rfl | rfl : w = .list ⟨1⟩ ∨ w = .nothing ∨ w = .boolean false := by
      simpa [Record.values] using hw
    all_goals simp [sharing, Has, Value.kind]

theorem children_tower : ∀ u, ∀ w ∈ tower.children u, tower.Has w ∧ w.kind ≠ .float := by
  refine forall_children ?_ nofun
  intro xs hxs w hw
  obtain ⟨k, hk, rfl⟩ : ∃ k < 128, (if k = 0 then #[] else #[Value.list ⟨k - 1⟩]) = xs := by
    simpa [tower] using hxs
  by_cases hzero : k = 0
  · simp [hzero] at hw
  · obtain rfl : w = .list ⟨k - 1⟩ := by simpa [hzero] using hw
    refine ⟨?_, nofun⟩
    show k - 1 < tower.lists.size
    simp only [tower, Array.size_map, Array.size_range]
    omega

/-- The record is read back from its text, and the text of the lists is refused. -/
theorem sharing_round_trip :
    (∃ d, sharing.datum? (.record ⟨0⟩) = some d ∧ d.depth = 3 ∧
      Config.readJson (sharing.jsonText (.record ⟨0⟩)) = .ok d) ∧
    ∃ e, Config.readJson (tower.jsonText (.list ⟨127⟩)) = .error (.json e) ∧ e.fault =
      .tooDeep := by
  have hsharing : (sharing.datum? (.record ⟨0⟩)).map Datum.depth = some 3 := by decide +kernel
  have htower : (tower.datum? (.list ⟨127⟩)).map Datum.depth = some 128 := by decide +kernel
  constructor
  · have hclosed : sharing.Closed := fun u w hw => (children_sharing u w hw).1
    have hhas : sharing.Has (.record ⟨0⟩) := by decide
    have hsome : (sharing.datum? (.record ⟨0⟩)).isSome := by
      rw [← Option.isSome_map, hsharing]
      rfl
    obtain ⟨d, hd, hshallow, -⟩ := json_round_trip hclosed hhas distinct_sharing
      ((isSome_datum?_iff hclosed hhas).1 hsome)
      (fun w hw => forall_reaches (fun u w hw => (children_sharing u w hw).2) (by decide) hw)
    have hdepth : d.depth = 3 := by simpa [hd] using hsharing
    exact ⟨d, hd, hdepth, (hshallow (by omega)).1⟩
  · have hclosed : tower.Closed := fun u w hw => (children_tower u w hw).1
    have hhas : tower.Has (.list ⟨127⟩) := by
      show 127 < tower.lists.size
      simp [tower]
    have hsome : (tower.datum? (.list ⟨127⟩)).isSome := by
      rw [← Option.isSome_map, htower]
      rfl
    obtain ⟨d, hd, -, hdeep⟩ := json_round_trip hclosed hhas (fun _ => List.nodup_nil)
      ((isSome_datum?_iff hclosed hhas).1 hsome)
      (fun w hw => forall_reaches (fun u w hw => (children_tower u w hw).2) (by decide) hw)
    have hdepth : d.depth = 128 := by simpa [hd] using htower
    exact hdeep (by omega)

end Store

end TagMachine
