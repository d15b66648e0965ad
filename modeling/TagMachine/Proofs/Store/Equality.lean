import TagMachine.Proofs.Binary64.Order
import TagMachine.Proofs.Json.RoundTrip

set_option autoImplicit false

/-! # Equality and order of values

Equality of values is that of their trees, which is symmetric (`Datum.equal_comm`): each of two
records with equally many fields has a field for every field of the other, if one has it for all of
the other's. Between trees without floats it is sameness after the fields of all records were put in
the order of their names (`Datum.equal_iff_ordered`), so it is an equivalence. With floats it is
not: an integer equals both zeros, which are not equal.
-/

namespace TagMachine

/-! ## Fields that match -/

section

variable {α β : Type}

/-- Fields that all have a partner of the same name among equally many are the partners of all
those. -/
theorem exists_partner {fs : List (String × α)} {gs : List (String × β)} {R : α → β → Prop}
    (hfs : (fs.map Prod.fst).Nodup) (hgs : (gs.map Prod.fst).Nodup)
    (hlength : fs.length = gs.length)
    (h : ∀ f ∈ fs, ∃ g ∈ gs, f.1 = g.1 ∧ R f.2 g.2) : ∀ g ∈ gs, ∃ f ∈ fs,
      f.1 = g.1 ∧ R f.2 g.2 := by
  intro g hg
  have hsub : fs.map Prod.fst ⊆ gs.map Prod.fst := by
    intro key hkey
    obtain ⟨f, hf, rfl⟩ := List.mem_map.1 hkey
    obtain ⟨g, hg, hfg, -⟩ := h f hf
    exact hfg ▸ List.mem_map_of_mem hg
  -- as many different names on both sides
  have hperm : (fs.map Prod.fst).Perm (gs.map Prod.fst) :=
    (hfs.subperm hsub).perm_of_length_le (by simp [hlength])
  obtain ⟨f, hf, hfg⟩ := List.mem_map.1 (hperm.mem_iff.2 (List.mem_map_of_mem hg))
  obtain ⟨g', hg', hname, hR⟩ := h f hf
  obtain rfl : g' = g := List.inj_on_of_nodup_map hgs hg' hg (hname.symm.trans hfg)
  exact ⟨f, hf, hname, hR⟩

end

theorem Binary64.same_comm (x y : Binary64) : x.same y = y.same x := by
  rw [same, same, BEq.comm, Bool.and_comm]

namespace Datum

variable {d e : Datum} {fs gs : List (String × Datum)}

/-! ## Equality of trees is symmetric -/

/-- A record has no name twice. -/
def Keyed : Datum → Prop
  | .record fields => (fields.map Prod.fst).Nodup
  | _ => True

theorem equalItems_iff {xs ys : List Datum} :
    equalItems xs ys = true ↔ List.Forall₂ (fun x y => x.equal y = true) xs ys := by
  induction xs generalizing ys with
  | nil => cases ys <;> simp [equalItems]
  | cons x xs ih => cases ys <;> simp [equalItems, ih]

theorem equalFields_iff (hgs : (gs.map Prod.fst).Nodup) :
    equalFields fs gs = true ↔ ∀ f ∈ fs, ∃ g ∈ gs, f.1 = g.1 ∧ f.2.equal g.2 = true := by
  induction fs with
  | nil => simp [equalFields]
  | cons f fs ih =>
    obtain ⟨key, d⟩ := f
    rw [equalFields, Bool.and_eq_true, ih, List.forall_mem_cons, Option.any_eq_true]
    refine and_congr_left fun _ => ⟨?_, ?_⟩
    · rintro ⟨e, hlookup, hequal⟩
      exact ⟨(key, e), mem_of_lookup hlookup, rfl, hequal⟩
    · rintro ⟨g, hg, rfl, hequal⟩
      exact ⟨g.2, lookup_of_nodup hgs hg, hequal⟩

theorem equal_record_iff (hgs : (gs.map Prod.fst).Nodup) :
    (record fs).equal (record gs) = true ↔
      fs.length = gs.length ∧ ∀ f ∈ fs, ∃ g ∈ gs, f.1 = g.1 ∧ f.2.equal g.2 = true := by
  rw [equal, Bool.and_eq_true, beq_iff_eq, equalFields_iff hgs]

theorem equal_symm (hd : d.Every Keyed) (he : e.Every Keyed) (h : d.equal e = true) :
    e.equal d = true := by
  induction hd generalizing e with
  | @intro d hkeys _ ih =>
    obtain ⟨hkeys', hinside⟩ := he
    cases d with
    | list xs =>
      cases e with
      | list ys =>
        rw [equal, equalItems_iff] at h ⊢
        refine (Pairing.forall₂_imp_of_mem h fun x hx y hy hxy => ?_).flip
        exact ih x hx (hinside y hy) hxy
      | _ => simp [equal] at h
    | record fs =>
      cases e with
      | record gs =>
        rw [equal_record_iff hkeys'] at h
        rw [equal_record_iff hkeys]
        obtain ⟨hlength, hfields⟩ := h
        refine ⟨hlength.symm, fun g hg => ?_⟩
        obtain ⟨f, hf, hfg, hequal⟩ := exists_partner
          (R := fun d e => d.equal e = true) hkeys hkeys' hlength hfields g hg
        exact ⟨f, hf, hfg.symm, ih f.2 (List.mem_map_of_mem hf)
          (hinside g.2 (List.mem_map_of_mem hg)) hequal⟩
      | _ => simp [equal] at h
    | float x =>
      cases e with
      | float y =>
        rw [equal] at h ⊢
        rwa [Binary64.same_comm]
      | integer n => exact h
      | _ => simp [equal] at h
    | integer m =>
      cases e with
      | float y => exact h
      | integer n =>
        rw [equal] at h ⊢
        rwa [BEq.comm]
      | _ => simp [equal] at h
    | _ => cases e <;> simp_all [equal]

theorem equal_comm (hd : d.Every Keyed) (he : e.Every Keyed) : d.equal e = e.equal d :=
  Bool.eq_iff_iff.2 ⟨equal_symm hd he, equal_symm he hd⟩

/-! ## Fields in the order of their names -/

mutual

/-- The tree with the fields of all records in the order of their names. -/
def ordered : Datum → Datum
  | .list items => .list (orderedItems items)
  | .record fields => .record ((orderedFields fields).mergeSort fun f g => f.1 ≤ g.1)
  | d => d

def orderedItems : List Datum → List Datum
  | [] => []
  | d :: rest => d.ordered :: orderedItems rest

def orderedFields : List (String × Datum) → List (String × Datum)
  | [] => []
  | (key, d) :: rest => (key, d.ordered) :: orderedFields rest

end

theorem orderedItems_eq (items : List Datum) : orderedItems items = items.map ordered := by
  induction items with
  | nil => rfl
  | cons d rest ih => rw [orderedItems, ih, List.map_cons]

theorem orderedFields_eq (fields : List (String × Datum)) :
    orderedFields fields = fields.map fun f => (f.1, f.2.ordered) := by
  induction fields with
  | nil => rfl
  | cons f rest ih => rw [orderedFields, ih, List.map_cons]

/-- Fields with different names have one order by name. -/
theorem mergeSort_names_eq_iff (hfs : (fs.map Prod.fst).Nodup) :
    fs.mergeSort (fun f g => f.1 ≤ g.1) = gs.mergeSort (fun f g => f.1 ≤ g.1) ↔ fs.Perm gs := by
  constructor
  · intro h
    exact (List.mergeSort_perm fs _).symm.trans (h ▸ List.mergeSort_perm gs _)
  · intro h
    have hsorted : ∀ hs : List (String × Datum),
        (hs.mergeSort fun f g => f.1 ≤ g.1).Pairwise fun f g => decide (f.1 ≤ g.1) = true :=
      List.pairwise_mergeSort (fun a b c => by simpa using String.le_trans)
        (fun a b => by simpa using String.le_total a.1 b.1)
    refine List.Perm.eq_of_pairwise ?_ (hsorted fs) (hsorted gs)
      ((List.mergeSort_perm fs _).trans (h.trans (List.mergeSort_perm gs _).symm))
    intro f g hf hg hle hge
    refine List.inj_on_of_nodup_map hfs (List.mem_mergeSort.1 hf)
      (h.mem_iff.2 (List.mem_mergeSort.1 hg)) ?_
    exact String.le_antisymm (by simpa using hle) (by simpa using hge)

theorem ordered_record_eq_iff (hfs : (fs.map Prod.fst).Nodup) :
    (record fs).ordered = (record gs).ordered ↔
      fs.length = gs.length ∧ ∀ f ∈ fs, ∃ g ∈ gs, f.1 = g.1 ∧ f.2.ordered = g.2.ordered := by
  have hkeys : ∀ hs : List (String × Datum),
      (hs.map fun f => (f.1, f.2.ordered)).map Prod.fst = hs.map Prod.fst := by simp
  rw [ordered, ordered, record.injEq, orderedFields_eq, orderedFields_eq,
    mergeSort_names_eq_iff (by rwa [hkeys])]
  constructor
  · intro h
    refine ⟨by simpa using h.length_eq, fun f hf => ?_⟩
    obtain ⟨g, hg, heq⟩ := List.mem_map.1 (h.subset (List.mem_map_of_mem hf))
    obtain ⟨hname, hordered⟩ := Prod.mk.inj heq
    exact ⟨g, hg, hname.symm, hordered.symm⟩
  · rintro ⟨hlength, hfields⟩
    have hnodup : (fs.map fun f => (f.1, f.2.ordered)).Nodup := .of_map Prod.fst (by rwa [hkeys])
    refine (hnodup.subperm fun x hx => ?_).perm_of_length_le (by simp [hlength])
    obtain ⟨f, hf, rfl⟩ := List.mem_map.1 hx
    obtain ⟨g, hg, hname, hordered⟩ := hfields f hf
    exact List.mem_map.2 ⟨g, hg, by rw [hname, hordered]⟩

/-- Trees without floats are equal if they are the same but for the order of fields. -/
theorem equal_iff_ordered (hd : d.Every Faithful) (he : e.Every Faithful) :
    d.equal e = true ↔ d.ordered = e.ordered := by
  induction hd generalizing e with
  | @intro d hkeys _ ih =>
    obtain ⟨hkeys', hinside⟩ := he
    cases d with
    | list xs =>
      cases e with
      | list ys =>
        rw [equal, equalItems_iff, ordered, ordered, list.injEq, orderedItems_eq,
          orderedItems_eq, ← List.forall₂_eq_eq_eq, List.forall₂_map_left_iff,
          List.forall₂_map_right_iff]
        constructor
        · exact fun h => Pairing.forall₂_imp_of_mem h fun x hx y hy =>
            (ih x hx (hinside y hy)).1
        · exact fun h => Pairing.forall₂_imp_of_mem h fun x hx y hy =>
            (ih x hx (hinside y hy)).2
      | _ => simp [equal, ordered]
    | record fs =>
      cases e with
      | record gs =>
        rw [equal_record_iff hkeys', ordered_record_eq_iff hkeys]
        refine and_congr_right fun _ => forall₂_congr fun f hf => exists_congr fun g =>
          and_congr_right fun hg => and_congr_right fun _ => ?_
        exact ih f.2 (List.mem_map_of_mem hf) (hinside g.2 (List.mem_map_of_mem hg))
      | _ => simp [equal, ordered]
    | float x => exact absurd hkeys id
    | _ =>
      cases e with
      | float y => exact absurd hkeys' id
      | _ => simp [equal, ordered]

end Datum

/-! ## The order of values -/

/-- Comparing the other way round gives the reverse, or an error again. -/
theorem Value.compare_swap (a b : Value) :
    (b.compare a).toOption = (a.compare b).toOption.map Ordering.swap := by
  cases a with
  | integer m =>
    cases b with
    | integer n => exact congrArg some Std.OrientedOrd.eq_swap
    | float y => exact congrArg some (Binary64.totalCompare_swap _ y).symm
    | _ => rfl
  | float x =>
    cases b with
    | integer n => exact congrArg some (Binary64.totalCompare_swap x _).symm
    | float y => exact congrArg some (Binary64.totalCompare_swap x y).symm
    | _ => rfl
  | string s =>
    cases b with
    | string t => exact congrArg some Std.OrientedOrd.eq_swap
    | _ => rfl
  | _ => cases b <;> rfl

/-! ## Values -/

namespace Store

variable {s : Store} {u v w : Value} {d e : Datum}

/-- A value of the store that leads to no container which holds itself. -/
structure Acyclic (s : Store) (v : Value) : Prop where
  has : s.Has v
  noCycle : ∀ w, s.Reaches v w → ¬s.OnCycle w

/-- A value of the store that leads to no such container and to no float. -/
structure FloatFree (s : Store) (v : Value) : Prop extends s.Acyclic v where
  noFloat : ∀ w, s.Reaches v w → w.kind ≠ .float

theorem Acyclic.exists_datum? (hs : s.Closed) (h : s.Acyclic v) : ∃ d, s.datum? v = some d :=
  Option.isSome_iff_exists.1 ((isSome_datum?_iff hs h.has).2 h.noCycle)

theorem every_keyed_of_datum? (hkeys : s.Distinct) (h : s.datum? v = some d) :
    d.Every Datum.Keyed := by
  refine every_of_datumWithin h fun w k e _ he => ?_
  cases e with
  | record fields => exact nodup_keys_of_datumWithin hkeys he
  | _ => trivial

theorem equalWithin_self (n : Nat) (v : Value) : s.equalWithin n v v = true := by
  -- no look inside containers is needed
  have hzero : s.equalWithin 0 v v = true := by
    cases v with
    | nothing => rfl
    | float x =>
      show x.same x = true
      rw [Binary64.same, beq_self_eq_true, Bool.true_or]
    | string a | integer a | boolean a | list a | record a => exact beq_self_eq_true a
  exact equalWithin_of_le hzero (Nat.zero_le _)

theorem equal_refl (v : Value) : s.equal v v = true := equalWithin_self _ v

/-- Records with the same fields are equal, in whatever order these stand. -/
theorem equal_of_perm {a b : RecordRef} (hkeys : (s.record b).keys.Nodup)
    (h : (s.record a).fields.Perm (s.record b).fields) :
    s.equal (.record a) (.record b) = true := by
  rw [equal, equalWithin_record, h.length_eq, beq_self_eq_true, Bool.true_and, Bool.or_eq_true,
    List.all_eq_true]
  refine .inr fun f hf => ?_
  rw [lookup_of_nodup hkeys (h.mem_iff.1 hf), Option.any_some]
  exact equalWithin_self _ f.2

theorem equal_comm (hs : s.Closed) (hkeys : s.Distinct) (hv : s.Acyclic v) (hw : s.Acyclic w) :
    s.equal v w = s.equal w v := by
  obtain ⟨d, hd⟩ := hv.exists_datum? hs
  obtain ⟨e, he⟩ := hw.exists_datum? hs
  calc s.equal v w = d.equal e := equal_eq_of_datum? hkeys hd he
    _ = e.equal d :=
      Datum.equal_comm (every_keyed_of_datum? hkeys hd) (every_keyed_of_datum? hkeys he)
    _ = s.equal w v := (equal_eq_of_datum? hkeys he hd).symm

/-- Without floats, equality is sameness of trees but for the order of fields. -/
theorem equal_iff_ordered (hkeys : s.Distinct) (hv : s.FloatFree v) (hw : s.FloatFree w)
    (hd : s.datum? v = some d) (he : s.datum? w = some e) :
    s.equal v w = true ↔ d.ordered = e.ordered := by
  rw [equal_eq_of_datum? hkeys hd he]
  exact Datum.equal_iff_ordered (every_faithful_of_datumWithin hkeys hd hv.noFloat)
    (every_faithful_of_datumWithin hkeys he hw.noFloat)

theorem equal_trans (hs : s.Closed) (hkeys : s.Distinct) (hu : s.FloatFree u) (hv : s.FloatFree v)
    (hw : s.FloatFree w) (huv : s.equal u v = true) (hvw : s.equal v w = true) :
    s.equal u w = true := by
  obtain ⟨c, hc⟩ := hu.exists_datum? hs
  obtain ⟨d, hd⟩ := hv.exists_datum? hs
  obtain ⟨e, he⟩ := hw.exists_datum? hs
  rw [equal_iff_ordered hkeys hu hv hc hd] at huv
  rw [equal_iff_ordered hkeys hv hw hd he] at hvw
  rw [equal_iff_ordered hkeys hu hw hc he, huv, hvw]

/-- Equality and order are symmetric. A value equals itself, and two values without cycles are equal
both ways or neither way. Whether they are depends on their trees alone, not on which containers
they refer to; without floats it depends on the trees with all fields in the order of their names,
and then equality is transitive too. Of any two values, both or neither of the comparisons fail, and
one is the reverse of the other. -/
theorem equality_and_order_symmetric (hs : s.Closed) (hkeys : s.Distinct) :
    (∀ v, s.equal v v = true) ∧
    (∀ v w, s.Acyclic v → s.Acyclic w → s.equal v w = s.equal w v ∧
      ∃ d e, s.datum? v = some d ∧ s.datum? w = some e ∧ s.equal v w = d.equal e ∧
        (s.FloatFree v → s.FloatFree w → (s.equal v w = true ↔ d.ordered = e.ordered))) ∧
    (∀ u v w, s.FloatFree u → s.FloatFree v → s.FloatFree w →
      s.equal u v = true → s.equal v w = true → s.equal u w = true) ∧
    ∀ a b : Value, ((∃ e, a.compare b = .error e) ↔ ∃ e, b.compare a = .error e) ∧
      ∀ o, a.compare b = .ok o → b.compare a = .ok o.swap := by
  refine ⟨equal_refl, fun v w hv hw => ⟨equal_comm hs hkeys hv hw, ?_⟩,
    fun u v w => equal_trans hs hkeys, fun a b => ?_⟩
  · obtain ⟨d, hd⟩ := hv.exists_datum? hs
    obtain ⟨e, he⟩ := hw.exists_datum? hs
    exact ⟨d, e, hd, he, equal_eq_of_datum? hkeys hd he,
      fun hv hw => equal_iff_ordered hkeys hv hw hd he⟩
  · have hswap := Value.compare_swap a b
    cases hab : a.compare b with
    | error e =>
      cases hba : b.compare a with
      | error e' => simp
      | ok o => simp [hab, hba, Except.toOption] at hswap
    | ok o =>
      cases hba : b.compare a with
      | error e' => simp [hab, hba, Except.toOption] at hswap
      | ok o' => simpa [hab, hba, Except.toOption] using hswap

-- transitive only without floats
example : equal {} (.float (.zero false)) (.integer 0) = true ∧
    equal {} (.integer 0) (.float (.zero true)) = true ∧
    equal {} (.float (.zero false)) (.float (.zero true)) = false := by decide

theorem distinct_of_forall_records (h : ∀ r ∈ s.records.toList, r.keys.Nodup) : s.Distinct := by
  intro a
  rw [record_eq]
  cases hr : s.records[a.index]? with
  | none => exact .nil
  | some r => exact h r (Array.mem_toList_iff.2 (Array.mem_of_getElem? hr))

/-- Three records with the same fields, in two orders and with two lists of the same elements. -/
def mirrored : Store where
  lists := #[#[.integer 1, .string "x"], #[.integer 1, .string "x"]]
  records := #[⟨[("a", .list ⟨0⟩), ("b", .nothing)]⟩, ⟨[("b", .nothing), ("a", .list ⟨1⟩)]⟩,
    ⟨[("a", .list ⟨1⟩), ("b", .nothing)]⟩]

/-- Two lists of different numbers that are equal. -/
def signed : Store where
  lists := #[#[.float (.nan false), .integer 0], #[.float (.nan true), .float (.zero true)]]

/-- The first and the last record are equal since both equal the second, and the lists are equal
both ways. -/
theorem mirrored_symmetric :
    mirrored.Closed ∧ mirrored.Distinct ∧ (∀ k < 3, mirrored.FloatFree (.record ⟨k⟩)) ∧
    mirrored.equal (.record ⟨0⟩) (.record ⟨1⟩) = true ∧
    mirrored.equal (.record ⟨1⟩) (.record ⟨2⟩) = true ∧
    mirrored.equal (.record ⟨0⟩) (.record ⟨2⟩) = true ∧
    signed.Acyclic (.list ⟨0⟩) ∧ signed.Acyclic (.list ⟨1⟩) ∧
    signed.equal (.list ⟨0⟩) (.list ⟨1⟩) = true ∧ signed.equal (.list ⟨1⟩) (.list ⟨0⟩) = true := by
  have hacyclic {s : Store} {v : Value} (hs : s.Closed) (hv : s.Has v) (h : (s.datum? v).isSome) :
      s.Acyclic v := ⟨hv, (isSome_datum?_iff hs hv).1 h⟩
  have hmirrored : mirrored.Closed := by decide
  have hsigned : signed.Closed := by decide
  have hkeys : mirrored.Distinct := distinct_of_forall_records (by decide)
  have hrecords : ∀ k < 3, mirrored.FloatFree (.record ⟨k⟩) := by
    intro k hk
    have htree : ∀ k < 3, (mirrored.datum? (.record ⟨k⟩)).isSome := by decide
    have hfloat : ∀ u, ∀ w ∈ mirrored.children u, w.kind ≠ .float :=
      forall_children (by decide) (by decide)
    have hrecord : (Value.record ⟨k⟩).kind ≠ .float := nofun
    exact ⟨hacyclic hmirrored hk (htree k hk), fun w => forall_reaches hfloat hrecord⟩
  obtain ⟨-, -, htrans, -⟩ := equality_and_order_symmetric hmirrored hkeys
  obtain ⟨-, hsymm, -⟩ := equality_and_order_symmetric hsigned (fun _ => List.nodup_nil)
  have hfirst := hacyclic hsigned (v := .list ⟨0⟩) (by decide) (by decide)
  have hsecond := hacyclic hsigned (v := .list ⟨1⟩) (by decide) (by decide)
  have h01 : mirrored.equal (.record ⟨0⟩) (.record ⟨1⟩) = true := by decide +kernel
  have h12 : mirrored.equal (.record ⟨1⟩) (.record ⟨2⟩) = true := by decide +kernel
  have hequal : signed.equal (.list ⟨0⟩) (.list ⟨1⟩) = true := by decide +kernel
  exact ⟨hmirrored, hkeys, hrecords, h01, h12, htrans _ _ _ (hrecords 0 (by decide))
    (hrecords 1 (by decide)) (hrecords 2 (by decide)) h01 h12, hfirst, hsecond, hequal,
    (hsymm _ _ hfirst hsecond).1 ▸ hequal⟩

end Store

end TagMachine
