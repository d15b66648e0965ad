import TagMachine.Proofs.Builtin.Parametric
import TagMachine.Proofs.Value.Record

set_option autoImplicit false

/-! # Values that show the same tree

Equality of values has a shortcut for references to one container, and a bound on how deep it looks.
For values that have a tree neither is seen: they are equal when their trees are
(`equal_eq_of_datum?`), if no record has a name twice.

`Store.trees` pairs the containers of two stores that show the same tree. What is made of values
that show the same trees shows the same tree (`lasts_trees`).
-/

namespace TagMachine

namespace Store

/-- No record has two fields of one name. -/
def Distinct (s : Store) : Prop := ∀ a, (s.record a).keys.Nodup

variable {s t : Store} {v w : Value}

theorem distinct_empty : Distinct {} := fun _ => List.nodup_nil

theorem distinct_newList (h : s.Distinct) (xs : Array Value) : (s.newList xs).2.Distinct := h

theorem distinct_newRecord (h : s.Distinct) {r : Record} (hr : r.keys.Nodup) :
    (s.newRecord r).2.Distinct := by
  intro a
  by_cases ha : a.index < s.records.size
  · rw [((s.extends_newRecord r).records a ha trivial).2]
    exact h a
  · by_cases hnew : a.index = s.records.size
    · obtain rfl : a = ⟨s.records.size⟩ := by rw [← hnew]
      rw [record_newRecord_self]
      exact hr
    · have hnone : (s.newRecord r).2.records[a.index]? = none := by
        rw [newRecord, Array.getElem?_eq_none_iff, Array.size_push]
        omega
      rw [record_eq, hnone]
      exact .nil

theorem distinct_push (h : s.Distinct) (a : ListRef) (x : Value) : (s.push a x).Distinct := h

theorem distinct_setField (h : s.Distinct) (a : RecordRef) (key : String) (x : Value) :
    (s.setField a key x).Distinct := by
  intro b
  by_cases hlt : b.index < s.records.size
  · by_cases hb : b = a
    · subst hb
      rw [record_setField_self s hlt]
      exact Record.nodup_keys_set (h b) key x
    · rw [((sameOn_setField s a key x).records b hlt (by simpa using hb)).2]
      exact h b
  · have hnone : (s.setField a key x).records[b.index]? = none := by
      rw [setField, Array.getElem?_eq_none_iff, Array.size_modify]
      omega
    rw [record_eq, hnone]
    exact .nil

theorem distinct_build (hs : s.Distinct) (b : Blueprint) : (s.build b).2.Distinct :=
  have hkept : Kept Distinct := ⟨fun xs h => distinct_newList h xs,
    fun _ h => distinct_newRecord h (Record.nodup_keys_ofList _)⟩
  hkept.build hs b

end Store

/-! ## Equality of trees -/

mutual

/-- Equality of trees: the order of fields does not count, and numbers are compared as in
`Store.equal`. -/
def Datum.equal : Datum → Datum → Bool
  | .string a, .string b => a == b
  | .integer a, .integer b => a == b
  | .float a, .float b => a.same b
  | .integer a, .float b => (Binary64.ofInt64 a).numEq b
  | .float a, .integer b => (Binary64.ofInt64 b).numEq a
  | .boolean a, .boolean b => a == b
  | .nothing, .nothing => true
  | .list xs, .list ys => equalItems xs ys
  | .record fs, .record gs => fs.length == gs.length && equalFields fs gs
  | _, _ => false

/-- Whether lists of trees are equal element by element. -/
def Datum.equalItems : List Datum → List Datum → Bool
  | [], [] => true
  | x :: xs, y :: ys => x.equal y && equalItems xs ys
  | _, _ => false

/-- Whether all fields are equal to those of the same name. -/
def Datum.equalFields : List (String × Datum) → List (String × Datum) → Bool
  | [], _ => true
  | (key, d) :: fs, gs => (gs.lookup key).any d.equal && equalFields fs gs

end

namespace Store

variable {s t : Store} {v w : Value} {d e : Datum} {n k N : Nat} {fs : List (String × Value)}
  {ds : List (String × Datum)}

/-- The fields of a record beside those of its tree. -/
def FieldTrees (s : Store) (n : Nat) (fs : List (String × Value)) (ds : List (String × Datum)) :
    Prop :=
  List.Forall₂ (fun f g => f.1 = g.1 ∧ s.datumWithin n f.2 = some g.2) fs ds

theorem datumWithin_record_iff (n : Nat) (a : RecordRef) :
    s.datumWithin (n + 1) (.record a) = some d ↔
      ∃ ds, s.FieldTrees n (s.record a).fields ds ∧ d = .record ds := by
  rw [datumWithin_record]
  refine exists_congr fun ds => and_congr_left fun _ => ?_
  have hfield : ∀ (f : String × Value) (g : String × Datum),
      (s.datumWithin n f.2).map (f.1, ·) = some g ↔ f.1 = g.1 ∧ s.datumWithin n f.2 = some g.2 := by
    rintro f ⟨key, e⟩
    rw [Option.map_eq_some_iff]
    constructor
    · rintro ⟨e', he', heq⟩
      obtain ⟨hkey, rfl⟩ := Prod.mk.inj heq
      exact ⟨hkey, he'⟩
    · rintro ⟨hkey, he⟩
      exact ⟨e, he, by rw [hkey]⟩
  simp only [FieldTrees, hfield]

theorem keys_eq_of_forall₂ {α β : Type} {R : α → β → Prop} {fs : List (String × α)}
    {gs : List (String × β)} (h : List.Forall₂ (fun f g => f.1 = g.1 ∧ R f.2 g.2) fs gs) :
    fs.map Prod.fst = gs.map Prod.fst := by
  induction h with
  | nil => rfl
  | cons hfg _ ih => rw [List.map_cons, List.map_cons, hfg.1, ih]

theorem FieldTrees.keys_eq
    (h : s.FieldTrees n fs ds) : fs.map Prod.fst = ds.map Prod.fst :=
  keys_eq_of_forall₂ (R := fun v d => s.datumWithin n v = some d) h

theorem FieldTrees.lookup (h : s.FieldTrees n fs ds) (key : String) :
    Option.Rel (fun v d => s.datumWithin n v = some d) (fs.lookup key) (ds.lookup key) := by
  unfold FieldTrees at h
  induction h with
  | nil => exact .none
  | @cons f g fs ds hfg _ ih =>
    obtain ⟨k, v⟩ := f
    obtain ⟨k', d⟩ := g
    obtain ⟨rfl, hd⟩ : k = k' ∧ s.datumWithin n v = some d := hfg
    rw [List.lookup_cons, List.lookup_cons]
    cases key == k with
    | true => exact .some hd
    | false => exact ih

/-! ### A tree equals itself -/

theorem equalItems_self {ds : List Datum} (h : ∀ d ∈ ds, d.equal d = true) :
    Datum.equalItems ds ds = true := by
  induction ds with
  | nil => rw [Datum.equalItems]
  | cons d ds ih =>
    obtain ⟨hd, hrest⟩ := List.forall_mem_cons.1 h
    rw [Datum.equalItems, hd, ih hrest]
    rfl

/-- Fields of different names are all found among them. -/
theorem equalFields_of_lookup {fs gs : List (String × Datum)}
    (h : ∀ f ∈ fs, gs.lookup f.1 = some f.2 ∧ f.2.equal f.2 = true) :
    Datum.equalFields fs gs = true := by
  induction fs with
  | nil => rw [Datum.equalFields]
  | cons f fs ih =>
    obtain ⟨key, d⟩ := f
    obtain ⟨⟨hlookup, hd⟩, hrest⟩ := List.forall_mem_cons.1 h
    rw [Datum.equalFields, hlookup, ih hrest, Option.any_some, hd]
    rfl

theorem equal_self (hs : s.Distinct) (h : s.datumWithin n v = some d) : d.equal d = true := by
  induction n generalizing v d with
  | zero => cases v <;> cases h <;> simp [Datum.equal, Binary64.same]
  | succ n ih =>
    cases v with
    | list a =>
      obtain ⟨ds, hds, rfl⟩ := (datumWithin_list n a d).1 h
      rw [Datum.equal]
      refine equalItems_self fun d hd => ?_
      obtain ⟨v, -, hv⟩ := exists_of_forall₂_of_mem hds.flip hd
      exact ih hv
    | record a =>
      obtain ⟨ds, hds, rfl⟩ := (datumWithin_record_iff n a).1 h
      have hnodup : (ds.map Prod.fst).Nodup := hds.keys_eq ▸ hs a
      rw [Datum.equal, beq_self_eq_true, Bool.true_and]
      refine equalFields_of_lookup fun f hf => ⟨lookup_of_nodup hnodup hf, ?_⟩
      obtain ⟨g, -, hg⟩ := exists_of_forall₂_of_mem (List.Forall₂.flip hds) hf
      exact ih hg.2
    | _ =>
      cases h
      simp [Datum.equal, Binary64.same]

/-! ### Comparing values is comparing trees -/

theorem all_zip_eq_equalItems {vs ws : List Value} {ds es : List Datum}
    (hvs : List.Forall₂ (fun v d => s.datumWithin n v = some d) vs ds)
    (hws : List.Forall₂ (fun w e => s.datumWithin k w = some e) ws es)
    (h : ∀ v w d e, s.datumWithin n v = some d → s.datumWithin k w = some e →
      s.equalWithin N v w = d.equal e) :
    (vs.length == ws.length && (vs.zip ws).all fun p => s.equalWithin N p.1 p.2) =
      Datum.equalItems ds es := by
  induction hvs generalizing ws es with
  | nil =>
    cases hws with
    | nil => simp [Datum.equalItems]
    | cons => simp [Datum.equalItems]
  | @cons v d vs ds hv _ ih =>
    cases hws with
    | nil => simp [Datum.equalItems]
    | @cons w e ws es hw hrest =>
      rw [Datum.equalItems, ← ih hrest, ← h v w d e hv hw, List.zip_cons_cons, List.all_cons,
        List.length_cons, List.length_cons]
      have hlength : (vs.length + 1 == ws.length + 1) = (vs.length == ws.length) := by
        simp [beq_eq_decide]
      rw [hlength, Bool.and_left_comm]

theorem all_lookup_eq_equalFields {gs : List (String × Value)}
    {es : List (String × Datum)} (hfs : s.FieldTrees n fs ds) (hgs : s.FieldTrees k gs es)
    (h : ∀ v w d e, s.datumWithin n v = some d → s.datumWithin k w = some e →
      s.equalWithin N v w = d.equal e) :
    (fs.all fun f => (gs.lookup f.1).any (s.equalWithin N f.2)) = Datum.equalFields ds es := by
  unfold FieldTrees at hfs
  induction hfs with
  | nil => rw [Datum.equalFields, List.all_nil]
  | @cons f g fs ds hfg _ ih =>
    obtain ⟨key, v⟩ := f
    obtain ⟨key', d⟩ := g
    obtain ⟨rfl, hd⟩ : key = key' ∧ s.datumWithin n v = some d := hfg
    rw [Datum.equalFields, List.all_cons, ih]
    have hlookup := hgs.lookup key
    generalize gs.lookup key = x, es.lookup key = y at hlookup
    cases hlookup with
    | none => rfl
    | some he => rw [Option.any_some, Option.any_some, h _ _ _ _ hd he]

/-- The tree of a container is a list or a record. -/
theorem exists_tree_of_list {a : ListRef} (h : s.datumWithin n (.list a) = some d) :
    ∃ k ds, n = k + 1 ∧ d = .list ds ∧
      List.Forall₂ (fun v d => s.datumWithin k v = some d) (s.items a).toList ds := by
  cases n with
  | zero => cases h
  | succ k =>
    obtain ⟨ds, hds, rfl⟩ := (datumWithin_list k a d).1 h
    exact ⟨k, ds, rfl, rfl, hds⟩

theorem exists_tree_of_record {a : RecordRef} (h : s.datumWithin n (.record a) = some d) :
    ∃ k ds, n = k + 1 ∧ d = .record ds ∧ s.FieldTrees k (s.record a).fields ds := by
  cases n with
  | zero => cases h
  | succ k =>
    obtain ⟨ds, hds, rfl⟩ := (datumWithin_record_iff k a).1 h
    exact ⟨k, ds, rfl, rfl, hds⟩

theorem datumWithin_scalar (hv : v.isContainer = false) (n k : Nat) :
    s.datumWithin n v = t.datumWithin k v := by
  cases v with
  | list a | record a => cases hv
  | _ => cases n <;> cases k <;> rfl

theorem kind_eq_of_datumWithin (h : s.datumWithin n v = some d) : d.kind = v.kind := by
  cases v with
  | list a =>
    obtain ⟨_, _, _, rfl, -⟩ := exists_tree_of_list h
    rfl
  | record a =>
    obtain ⟨_, _, _, rfl, -⟩ := exists_tree_of_record h
    rfl
  | _ =>
    rw [datumWithin_scalar rfl n 0 (t := s)] at h
    cases h
    rfl

theorem equalWithin_eq_of_scalar (hv : v.isContainer = false)
    (h : s.datumWithin n v = some d) (hw : s.datumWithin k w = some e) :
    s.equalWithin N v w = d.equal e := by
  rw [datumWithin_scalar hv n 0 (t := s)] at h
  cases w with
  | list b =>
    obtain ⟨-, -, -, rfl, -⟩ := exists_tree_of_list hw
    rw [equalWithin_scalar_container hv rfl]
    cases v <;> cases h <;> rfl
  | record b =>
    obtain ⟨-, -, -, rfl, -⟩ := exists_tree_of_record hw
    rw [equalWithin_scalar_container hv rfl]
    cases v <;> cases h <;> rfl
  | _ =>
    rw [datumWithin_scalar rfl k 0 (t := s)] at hw
    cases hw
    rw [equalWithin_scalar hv N 0 (t := s)]
    cases v <;> cases h <;> rfl

theorem beq_or_of_imp {α : Type} [DecidableEq α] {a b : α} {c : Bool} (h : a = b → c = true) :
    (a == b || c) = c := by
  by_cases hab : a = b
  · rw [h hab, Bool.or_true]
  · rw [beq_false_of_ne hab, Bool.false_or]

/-- Looking as deep as the tree of one value tells whether it equals another. -/
theorem equalWithin_eq_of_datumWithin (hs : s.Distinct)
    (hv : s.datumWithin n v = some d) (hw : s.datumWithin k w = some e) (hN : n ≤ N) :
    s.equalWithin N v w = d.equal e := by
  induction n generalizing v w d e k N with
  | zero =>
    have hscalar : v.isContainer = false := by cases v <;> first | rfl | cases hv
    exact equalWithin_eq_of_scalar hscalar hv hw
  | succ n ih =>
    obtain ⟨N, rfl⟩ := Nat.exists_eq_add_of_le' (Nat.lt_of_lt_of_le n.succ_pos hN)
    have hrec : ∀ j v w d e, s.datumWithin n v = some d → s.datumWithin j w = some e →
        s.equalWithin N v w = d.equal e := fun j v w d e hv hw => ih hv hw (by omega)
    by_cases hscalar : v.isContainer = false
    · exact equalWithin_eq_of_scalar hscalar hv hw
    -- one container shows one tree, so the shortcut gives what a look inside would give
    have hsame : v = w → d.equal e = true := by
      rintro rfl
      have hde : d = e := by
        have hd := datumWithin_of_le hv (Nat.le_max_left (n + 1) k)
        rw [datumWithin_of_le hw (Nat.le_max_right (n + 1) k)] at hd
        exact (Option.some.inj hd).symm
      rw [← hde]
      exact equal_self hs hv
    cases v with
    | list a =>
      obtain ⟨_, ds, hn, rfl, hds⟩ := exists_tree_of_list hv
      obtain rfl := Nat.succ.inj hn
      cases w with
      | list b =>
        obtain ⟨j, es, rfl, rfl, hes⟩ := exists_tree_of_list hw
        rw [equalWithin_list, all_zip_eq_equalItems hds hes (hrec j)]
        rw [Datum.equal] at hsame ⊢
        exact beq_or_of_imp fun hab => hsame (by rw [hab])
      | record b =>
        obtain ⟨-, -, -, rfl, -⟩ := exists_tree_of_record hw
        rfl
      | _ =>
        rw [datumWithin_scalar rfl k 0 (t := s)] at hw
        cases hw
        rfl
    | record a =>
      obtain ⟨_, ds, hn, rfl, hds⟩ := exists_tree_of_record hv
      obtain rfl := Nat.succ.inj hn
      cases w with
      | record b =>
        obtain ⟨j, es, rfl, rfl, hes⟩ := exists_tree_of_record hw
        have hlength : ∀ {i fs gs}, s.FieldTrees i fs gs → fs.length = gs.length :=
          fun h => List.Forall₂.length_eq h
        rw [equalWithin_record, all_lookup_eq_equalFields hds hes (hrec j), hlength hds,
          hlength hes]
        rw [Datum.equal] at hsame ⊢
        exact beq_or_of_imp fun hab => hsame (by rw [hab])
      | list b =>
        obtain ⟨-, -, -, rfl, -⟩ := exists_tree_of_list hw
        rfl
      | _ =>
        rw [datumWithin_scalar rfl k 0 (t := s)] at hw
        cases hw
        rfl
    | _ => exact absurd rfl hscalar

/-- Values that have a tree are equal when their trees are. -/
theorem equal_eq_of_datum? (hs : s.Distinct) (hv : s.datum? v = some d) (hw : s.datum? w = some e) :
    s.equal v w = d.equal e :=
  equalWithin_eq_of_datumWithin hs hv hw (by nlinarith [Nat.le_mul_self s.size])

/-! ## Containers that show the same tree -/

/-- The containers of two stores that show the same tree. -/
def trees (s t : Store) : Pairing where
  lists a b := s.Has (.list a) ∧ t.Has (.list b) ∧
    ∃ d, s.datum? (.list a) = some d ∧ t.datum? (.list b) = some d
  records a b := s.Has (.record a) ∧ t.Has (.record b) ∧
    ∃ d, s.datum? (.record a) = some d ∧ t.datum? (.record b) = some d

/-- Values are related when they exist and show the same tree. -/
theorem trees_rel : (s.trees t).Rel v w ↔
    s.Has v ∧ t.Has w ∧ ∃ d, s.datum? v = some d ∧ t.datum? w = some d := by
  constructor
  · rintro (hv | h | h)
    · obtain ⟨d, hd⟩ : ∃ d, s.datumWithin 0 v = some d := by
        cases v <;> first | exact ⟨_, rfl⟩ | cases hv
      refine ⟨has_of_scalar hv, has_of_scalar hv, d, ?_, ?_⟩
      · exact (datumWithin_scalar hv _ _).trans hd
      · exact (datumWithin_scalar hv _ _).trans hd
    · exact h
    · exact h
  · rintro ⟨hv, hw, d, hd, he⟩
    have hkind : v.kind = w.kind :=
      (kind_eq_of_datumWithin hd).symm.trans (kind_eq_of_datumWithin he)
    cases v with
    | list a =>
      cases w with
      | list b => exact .list ⟨hv, hw, d, hd, he⟩
      | _ => cases hkind
    | record a =>
      cases w with
      | record b => exact .record ⟨hv, hw, d, hd, he⟩
      | _ => cases hkind
    | _ =>
      have hscalar : w.isContainer = false := by cases w <;> first | rfl | cases hkind
      rw [datum?, datumWithin_scalar rfl _ 0 (t := t)] at hd
      rw [datum?, datumWithin_scalar hscalar _ 0 (t := t)] at he
      cases w <;> cases hkind
      cases hd
      cases he
      exact .scalar rfl

/-- The elements of a list that has a tree have theirs. -/
theorem datum?_items (hs : s.Closed) {a : ListRef} {ds : List Datum}
    (h : s.datum? (.list a) = some (.list ds)) :
    List.Forall₂ (fun v d => s.Has v ∧ s.datum? v = some d) (s.items a).toList ds := by
  obtain ⟨k, es, hk, hde, hes⟩ := exists_tree_of_list h
  obtain rfl := Datum.list.inj hde
  refine Pairing.forall₂_imp_of_mem hes fun v hv d _ hd => ⟨hs (.list a) v hv, ?_⟩
  exact datumWithin_of_le hd (by omega)

theorem datum?_fields (hs : s.Closed) {a : RecordRef}
    (h : s.datum? (.record a) = some (.record ds)) :
    List.Forall₂ (fun f g => f.1 = g.1 ∧ s.Has f.2 ∧ s.datum? f.2 = some g.2)
      (s.record a).fields ds := by
  obtain ⟨k, es, hk, hde, hes⟩ := exists_tree_of_record h
  obtain rfl := Datum.record.inj hde
  refine Pairing.forall₂_imp_of_mem hes fun f hf g _ hfg => ⟨hfg.1, ?_, ?_⟩
  · exact hs (.record a) f.2 (List.mem_map_of_mem hf)
  · exact datumWithin_of_le hfg.2 (by omega)

/-- Lists that are related to one list are related. -/
theorem forall₂_of_common {α β γ : Type} {R : α → γ → Prop} {S : β → γ → Prop} {T : α → β → Prop}
    {xs : List α} {ys : List β} {zs : List γ} (hxs : List.Forall₂ R xs zs)
    (hys : List.Forall₂ S ys zs) (h : ∀ x y z, R x z → S y z → T x y) : List.Forall₂ T xs ys := by
  induction hxs generalizing ys with
  | nil =>
    cases hys
    exact .nil
  | cons hx _ ih =>
    cases hys with
    | cons hy hrest => exact .cons (h _ _ _ hx hy) (ih hrest)

/-- Closed stores match along the containers that show the same tree. -/
theorem trees_matches (hs : s.Closed) (ht : t.Closed) : (s.trees t).Matches s t where
  list_lt h := ⟨h.1, h.2.1⟩
  record_lt h := ⟨h.1, h.2.1⟩
  items := by
    rintro a b ⟨-, -, d, hd, he⟩
    obtain ⟨-, ds, -, rfl, -⟩ := exists_tree_of_list hd
    exact forall₂_of_common (datum?_items hs hd) (datum?_items ht he) fun v w d hv hw =>
      trees_rel.2 ⟨hv.1, hw.1, d, hv.2, hw.2⟩
  fields := by
    rintro a b ⟨-, -, d, hd, he⟩
    obtain ⟨-, ds, -, rfl, -⟩ := exists_tree_of_record hd
    exact forall₂_of_common (datum?_fields hs hd) (datum?_fields ht he) fun f g d hf hg =>
      ⟨hf.1.trans hg.1.symm, trees_rel.2 ⟨hf.2.1, hg.2.1, d.2, hf.2.2, hg.2.2⟩⟩

/-! ## Trees of new containers -/

/-- The tree of a value does not change when containers are added. -/
theorem Extends.datum?_eq (h : s.Extends t) (hs : s.Closed) (hv : s.Has v) :
    t.datum? v = s.datum? v :=
  ((hs.diagonal_matches s.sealed_true h).datum?_eq
    (s.sealed_true.diagonal_rel.2 ⟨rfl, hv, trivial⟩)).symm

theorem trees_mono {s' t' : Store} (hs : s.Closed) (ht : t.Closed) (hss : s.Extends s')
    (htt : t.Extends t') (h : (s.trees t).Rel v w) : (s'.trees t').Rel v w := by
  obtain ⟨hv, hw, d, hd, he⟩ := trees_rel.1 h
  refine trees_rel.2 ⟨hss.has hv, htt.has hw, d, ?_, ?_⟩
  · rw [hss.datum?_eq hs hv, hd]
  · rw [htt.datum?_eq ht hw, he]

theorem trees_le {s' t' : Store} (hs : s.Closed) (ht : t.Closed) (hss : s.Extends s')
    (htt : t.Extends t') : s.trees t ≤ s'.trees t' :=
  ⟨fun _ _ h => (trees_mono hs ht hss htt (.list h)).lists_of_list,
    fun _ _ h => (trees_mono hs ht hss htt (.record h)).records_of_record⟩

/-- In a closed store a value has its tree within any depth that suffices. -/
theorem Closed.datum?_eq_some (hs : s.Closed) (hv : s.Has v)
    (h : s.datumWithin n v = some d) : s.datum? v = some d := by
  refine Store.datum?_eq_some (q := s.Has) (fun v hv hcontainer => ⟨?_, fun w hw => hs v w hw⟩) hv h
  cases v with
  | list a => exact list_mem_containers hv
  | record a => exact record_mem_containers hv
  | _ => cases hcontainer

theorem datum?_newList (hs : s.Closed) {xs : Array Value} {ds : List Datum}
    (h : List.Forall₂ (fun v d => s.Has v ∧ s.datum? v = some d) xs.toList ds) :
    (s.newList xs).2.datum? (.list (s.newList xs).1) = some (.list ds) := by
  have hext := s.extends_newList xs
  have hhas : ∀ v ∈ xs.toList, s.Has v := by
    intro v hv
    obtain ⟨d, -, hd⟩ := exists_of_forall₂_of_mem h hv
    exact hd.1
  refine (closed_newList hs hhas).datum?_eq_some (n := (s.newList xs).2.size + 1)
    (has_newList_self s xs) ?_
  refine (datumWithin_list _ _ _).2 ⟨ds, ?_, rfl⟩
  rw [show (s.newList xs).1 = ⟨s.lists.size⟩ from rfl, items_newList_self]
  exact h.imp fun v d hd => (hext.datum?_eq hs hd.1).trans hd.2

theorem datum?_newRecord (hs : s.Closed) {r : Record}
    (h : List.Forall₂ (fun f g => f.1 = g.1 ∧ s.Has f.2 ∧ s.datum? f.2 = some g.2) r.fields ds) :
    (s.newRecord r).2.datum? (.record (s.newRecord r).1) = some (.record ds) := by
  have hext := s.extends_newRecord r
  have hhas : ∀ v ∈ r.values, s.Has v := by
    intro v hv
    obtain ⟨f, hf, rfl⟩ := List.mem_map.1 hv
    obtain ⟨g, -, hg⟩ := exists_of_forall₂_of_mem h hf
    exact hg.2.1
  refine (closed_newRecord hs hhas).datum?_eq_some (n := (s.newRecord r).2.size + 1)
    (has_newRecord_self s r) ?_
  refine (datumWithin_record_iff _ _).2 ⟨ds, ?_, rfl⟩
  rw [show (s.newRecord r).1 = ⟨s.records.size⟩ from rfl, record_newRecord_self]
  exact h.imp fun f g hfg => ⟨hfg.1, (hext.datum?_eq hs hfg.2.1).trans hfg.2.2⟩

/-- New lists of values that show the same trees show the same tree. -/
theorem trees_newList (hs : s.Closed) (ht : t.Closed) {xs ys : Array Value}
    (h : List.Forall₂ (s.trees t).Rel xs.toList ys.toList) :
    ((s.newList xs).2.trees (t.newList ys).2).Rel (.list (s.newList xs).1)
      (.list (t.newList ys).1) := by
  obtain ⟨ds, hxs, hys⟩ : ∃ ds,
    List.Forall₂ (fun v d => s.Has v ∧ s.datum? v = some d) xs.toList ds ∧
      List.Forall₂ (fun w d => t.Has w ∧ t.datum? w = some d) ys.toList ds := by
    generalize xs.toList = vs, ys.toList = ws at h
    induction h with
    | nil => exact ⟨[], .nil, .nil⟩
    | cons hvw _ ih =>
      obtain ⟨ds, hxs, hys⟩ := ih
      obtain ⟨hv, hw, d, hd, he⟩ := trees_rel.1 hvw
      exact ⟨d :: ds, .cons ⟨hv, hd⟩ hxs, .cons ⟨hw, he⟩ hys⟩
  exact trees_rel.2 ⟨has_newList_self s xs, has_newList_self t ys, .list ds, datum?_newList hs hxs,
    datum?_newList ht hys⟩

theorem trees_newRecord (hs : s.Closed) (ht : t.Closed) {r r' : Record}
    (h : List.Forall₂ (s.trees t).FieldRel r.fields r'.fields) :
    ((s.newRecord r).2.trees (t.newRecord r').2).Rel (.record (s.newRecord r).1)
      (.record (t.newRecord r').1) := by
  obtain ⟨ds, hfs, hgs⟩ : ∃ ds : List (String × Datum),
      List.Forall₂ (fun f g => f.1 = g.1 ∧ s.Has f.2 ∧ s.datum? f.2 = some g.2) r.fields ds ∧
      List.Forall₂ (fun f g => f.1 = g.1 ∧ t.Has f.2 ∧ t.datum? f.2 = some g.2) r'.fields ds := by
    generalize r.fields = fs, r'.fields = gs at h
    induction h with
    | nil => exact ⟨[], .nil, .nil⟩
    | @cons f g fs gs hfg _ ih =>
      obtain ⟨ds, hfs, hgs⟩ := ih
      obtain ⟨hv, hw, d, hd, he⟩ := trees_rel.1 hfg.2
      exact ⟨(f.1, d) :: ds, .cons ⟨rfl, hv, hd⟩ hfs, .cons ⟨hfg.1.symm, hw, he⟩ hgs⟩
  exact trees_rel.2 ⟨has_newRecord_self s r, has_newRecord_self t r', .record ds,
    datum?_newRecord hs hfs, datum?_newRecord ht hgs⟩

/-! ## Trees of what is built -/

/-- What is built of values that show the same trees shows the same tree. -/
theorem lasts_trees : Lasts fun s t β => s.Closed ∧ t.Closed ∧ β = s.trees t where
  list := by
    rintro s t _ xs ys ⟨hs, ht, rfl⟩ hxs
    refine ⟨_, trees_le hs ht (s.extends_newList xs) (t.extends_newList ys),
      ⟨closed_newList hs fun v hv => ?_, closed_newList ht fun w hw => ?_, rfl⟩,
      (trees_newList hs ht hxs).lists_of_list⟩
    · obtain ⟨w, -, hvw⟩ := exists_of_forall₂_of_mem hxs hv
      exact (trees_rel.1 hvw).1
    · obtain ⟨v, -, hvw⟩ := exists_of_forall₂_of_mem hxs.flip hw
      exact (trees_rel.1 hvw).2.1
  record := by
    rintro s t _ r r' ⟨hs, ht, rfl⟩ hr
    have hvalues := Pairing.values_rel hr
    refine ⟨_, trees_le hs ht (s.extends_newRecord r) (t.extends_newRecord r'),
      ⟨closed_newRecord hs fun v hv => ?_, closed_newRecord ht fun w hw => ?_, rfl⟩,
      (trees_newRecord hs ht hr).records_of_record⟩
    · obtain ⟨w, -, hvw⟩ := exists_of_forall₂_of_mem hvalues hv
      exact (trees_rel.1 hvw).1
    · obtain ⟨v, -, hvw⟩ := exists_of_forall₂_of_mem hvalues.flip hw
      exact (trees_rel.1 hvw).2.1

end Store

/-! ## Calls -/

namespace FunctionTable

theorem distinct_standard {id : UInt16} {context : CallContext} {args : RecordRef} {s s' : Store}
    {v : Value} (hs : s.Distinct) (h : standard.call id context args s = .ok (v, s')) :
    s'.Distinct := by
  obtain ⟨-, -, b, -, -, hbuild⟩ := standard_call_eq_ok h
  have hdistinct := Store.distinct_build hs b
  rwa [hbuild] at hdistinct

/-- Standard functions give results that show the same tree for arguments that do. -/
theorem trees_standard {id : UInt16} {context : CallContext} {a b : RecordRef} {s t s' t' : Store}
    {v w : Value} (hs : s.Closed) (ht : t.Closed) (hargs : (s.trees t).Rel (.record a) (.record b))
    (h : standard.call id context a s = .ok (v, s'))
    (h' : standard.call id context b t = .ok (w, t')) : (s'.trees t').Rel v w := by
  obtain ⟨e, he, x, hfind, hrun, hbuild⟩ := standard_call_eq_ok h
  obtain ⟨e', -, y, hfind', hrun', hbuild'⟩ := standard_call_eq_ok h'
  obtain rfl : e = e' := Option.some.inj (hfind.symm.trans hfind')
  have hmatches := Store.trees_matches hs ht
  have halike : Arguments.Alike (s.trees t) ⟨s, s.record a, context⟩ ⟨t, t.record b, context⟩ :=
    ⟨hmatches, hmatches.fields hargs.records_of_record, rfl⟩
  have hgives := Builtin.gives_of_mem_entries halike e he
  rw [hrun, hrun'] at hgives
  cases hgives with
  | ok hdraws =>
    obtain ⟨_, -, ⟨-, -, rfl⟩, hrel⟩ :=
      Store.lasts_trees.build hdraws (Pairing.le_refl _) ⟨hs, ht, rfl⟩
    rwa [hbuild, hbuild'] at hrel

end FunctionTable

end TagMachine
