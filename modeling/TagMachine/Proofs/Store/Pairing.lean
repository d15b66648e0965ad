import TagMachine.Proofs.Store.Depth

set_option autoImplicit false

/-! # Corresponding containers

A `Pairing` relates containers of two stores, and with them values that are the same up to which
container they refer to. It matches the stores when paired containers hold related values
(`Pairing.Matches`). Related values then have the same tree (`datum?_eq`), and where containers are
paired one to one, they are equal to related values (`equal_eq`).

A pairing grows when a container is added to both stores (`addList`, `addRecord`). When the stores
change at containers that have nothing to do with each other, it shrinks to the pairs from which
these cannot be reached (`without`).
-/

namespace TagMachine

/-- A relation between the containers of two stores. -/
structure Pairing where
  lists : ListRef → ListRef → Prop
  records : RecordRef → RecordRef → Prop

namespace Pairing

/-- Two values are the same, or refer to paired containers. -/
inductive Rel (β : Pairing) : Value → Value → Prop
  | scalar {v : Value} (h : v.isContainer = false) : Rel β v v
  | list {a b : ListRef} (h : β.lists a b) : Rel β (.list a) (.list b)
  | record {a b : RecordRef} (h : β.records a b) : Rel β (.record a) (.record b)

/-- Fields have the same name and related values. -/
def FieldRel (β : Pairing) (f g : String × Value) : Prop := f.1 = g.1 ∧ β.Rel f.2 g.2

instance : LE Pairing where
  le β γ := (∀ a b, β.lists a b → γ.lists a b) ∧ ∀ a b, β.records a b → γ.records a b

variable {β γ : Pairing} {v w v' w' : Value}

theorem le_refl (β : Pairing) : β ≤ β := ⟨fun _ _ => id, fun _ _ => id⟩

theorem le_trans {δ : Pairing} (hβ : β ≤ γ) (hγ : γ ≤ δ) : β ≤ δ :=
  ⟨fun a b hab => hγ.1 a b (hβ.1 a b hab), fun a b hab => hγ.2 a b (hβ.2 a b hab)⟩

/-! ## Related values -/

namespace Rel

theorem mono (hle : β ≤ γ) (h : β.Rel v w) : γ.Rel v w := by
  cases h with
  | scalar hv => exact .scalar hv
  | list hab => exact .list (hle.1 _ _ hab)
  | record hab => exact .record (hle.2 _ _ hab)

theorem kind_eq (h : β.Rel v w) : v.kind = w.kind := by
  cases h <;> rfl

theorem isContainer_eq (h : β.Rel v w) : v.isContainer = w.isContainer := by
  cases h <;> rfl

theorem truthy_eq (h : β.Rel v w) : v.truthy = w.truthy := by
  cases h <;> rfl

theorem eq_of_scalar (h : β.Rel v w) (hv : v.isContainer = false) : v = w := by
  cases h with
  | scalar => rfl
  | list => cases hv
  | record => cases hv

theorem lists_of_list {a b : ListRef} (h : β.Rel (.list a) (.list b)) : β.lists a b := by
  cases h with
  | scalar hv => cases hv
  | list hab => exact hab

theorem records_of_record {a b : RecordRef} (h : β.Rel (.record a) (.record b)) :
    β.records a b := by
  cases h with
  | scalar hv => cases hv
  | record hab => exact hab

end Rel

theorem FieldRel.mono (hle : β ≤ γ) {f g : String × Value} (h : β.FieldRel f g) : γ.FieldRel f g :=
  ⟨h.1, h.2.mono hle⟩

/-! ## Related fields -/

section Fields

variable {fs gs : List (String × Value)}

theorem lookup_rel (h : List.Forall₂ β.FieldRel fs gs) (key : String) :
    Option.Rel β.Rel (fs.lookup key) (gs.lookup key) := by
  induction h with
  | nil => exact .none
  | @cons f g fs gs hfg _ ih =>
    obtain ⟨k, v⟩ := f
    obtain ⟨k', w⟩ := g
    obtain ⟨rfl, hvw⟩ : k = k' ∧ β.Rel v w := hfg
    rw [List.lookup_cons, List.lookup_cons]
    cases key == k with
    | true => exact .some hvw
    | false => exact ih

theorem get_rel {r r' : Record} (h : List.Forall₂ β.FieldRel r.fields r'.fields) (key : String) :
    β.Rel (r.get key) (r'.get key) := by
  have hlookup := lookup_rel h key
  unfold Record.get Record.get?
  generalize r.fields.lookup key = x, r'.fields.lookup key = y at hlookup
  cases hlookup with
  | none => exact .scalar rfl
  | some hvw => exact hvw

theorem has_eq {r r' : Record} (h : List.Forall₂ β.FieldRel r.fields r'.fields) (key : String) :
    r.has key = r'.has key := by
  have hlookup := lookup_rel h key
  unfold Record.has Record.get?
  generalize r.fields.lookup key = x, r'.fields.lookup key = y at hlookup
  cases hlookup <;> rfl

theorem setField_rel (h : List.Forall₂ β.FieldRel fs gs) (key : String) (hvw : β.Rel v w) :
    List.Forall₂ β.FieldRel (setField key v fs) (setField key w gs) := by
  induction h with
  | nil => exact .cons ⟨rfl, hvw⟩ .nil
  | @cons f g fs gs hfg hrest ih =>
    obtain ⟨k, x⟩ := f
    obtain ⟨k', y⟩ := g
    obtain ⟨rfl, hxy⟩ : k = k' ∧ β.Rel x y := hfg
    simp only [setField]
    split
    · exact .cons ⟨rfl, hvw⟩ hrest
    · exact .cons ⟨rfl, hxy⟩ ih

end Fields

/-! ## Matching stores -/

/-- Paired containers exist and hold related values. -/
structure Matches (β : Pairing) (s t : Store) : Prop where
  list_lt : ∀ {a b}, β.lists a b → a.index < s.lists.size ∧ b.index < t.lists.size
  record_lt : ∀ {a b}, β.records a b → a.index < s.records.size ∧ b.index < t.records.size
  items : ∀ {a b}, β.lists a b → List.Forall₂ β.Rel (s.items a).toList (t.items b).toList
  fields : ∀ {a b}, β.records a b → List.Forall₂ β.FieldRel (s.record a).fields (t.record b).fields

/-- No container is paired with two. -/
structure OneToOne (β : Pairing) : Prop where
  list_iff : ∀ {a b a' b'}, β.lists a b → β.lists a' b' → (a = a' ↔ b = b')
  record_iff : ∀ {a b a' b'}, β.records a b → β.records a' b' → (a = a' ↔ b = b')

variable {s t s' t' : Store}

theorem mapM_eq_of_forall₂ {α α' δ : Type} {R : α → α' → Prop} {f : α → Option δ}
    {g : α' → Option δ} {xs : List α} {ys : List α'} (h : List.Forall₂ R xs ys)
    (hfg : ∀ x y, R x y → f x = g y) : xs.mapM f = ys.mapM g := by
  induction h with
  | nil => rfl
  | cons hxy _ ih => rw [List.mapM_cons, List.mapM_cons, hfg _ _ hxy, ih]

/-- Related values show the same tree. -/
theorem Matches.datumWithin_eq (h : β.Matches s t) (n : Nat) (hvw : β.Rel v w) :
    s.datumWithin n v = t.datumWithin n w := by
  induction n generalizing v w with
  | zero =>
    cases hvw with
    | scalar => cases v <;> rfl
    | list => rfl
    | record => rfl
  | succ n ih =>
    cases hvw with
    | scalar hv => cases v <;> first | rfl | cases hv
    | list hab =>
      rw [Store.datumWithin, Store.datumWithin,
        mapM_eq_of_forall₂ (h.items hab) fun _ _ hxy => ih hxy]
    | record hab =>
      rw [Store.datumWithin, Store.datumWithin, mapM_eq_of_forall₂ (h.fields hab) ?_]
      rintro ⟨k, x⟩ ⟨k', y⟩ ⟨rfl, hxy⟩
      rw [ih hxy]

/-- Paired lists have related elements at every index. -/
theorem getElem?_rel {xs ys : List Value} (h : List.Forall₂ β.Rel xs ys) (n : Nat) :
    Option.Rel β.Rel xs[n]? ys[n]? := by
  induction h generalizing n with
  | nil => exact .none
  | cons hxy _ ih =>
    cases n with
    | zero => exact .some hxy
    | succ n => exact ih n

theorem rel_of_getElem? {xs ys : Array Value} (h : List.Forall₂ β.Rel xs.toList ys.toList) {n : Nat}
    (hv : xs[n]? = some v) (hw : ys[n]? = some w) : β.Rel v w := by
  have hitem := getElem?_rel h n
  rw [Array.getElem?_toList, Array.getElem?_toList, hv, hw] at hitem
  cases hitem with
  | some hvw => exact hvw

theorem itemAt_rel (h : β.Matches s t) {a b : ListRef} (hab : β.lists a b) (n : Int64) :
    β.Rel (s.itemAt a n) (t.itemAt b n) := by
  unfold Store.itemAt
  split
  · exact .scalar rfl
  · have hitem := getElem?_rel (h.items hab) n.toInt.toNat
    rw [Array.getElem?_toList, Array.getElem?_toList] at hitem
    generalize (s.items a)[n.toInt.toNat]? = x, (t.items b)[n.toInt.toNat]? = y at hitem
    cases hitem with
    | none => exact .scalar rfl
    | some hxy => exact hxy

/-! ## Equality -/

theorem all_zip_eq {α α' : Type} {R : α → α' → Prop} {f : α × α → Bool} {g : α' × α' → Bool}
    {xs₁ xs₂ : List α} {ys₁ ys₂ : List α'} (h₁ : List.Forall₂ R xs₁ ys₁)
    (h₂ : List.Forall₂ R xs₂ ys₂)
    (hfg : ∀ x₁ y₁ x₂ y₂, R x₁ y₁ → R x₂ y₂ → f (x₁, x₂) = g (y₁, y₂)) :
    (xs₁.zip xs₂).all f = (ys₁.zip ys₂).all g := by
  induction h₁ generalizing xs₂ ys₂ with
  | nil => rfl
  | cons hxy _ ih =>
    cases h₂ with
    | nil => rfl
    | cons hxy' h₂ =>
      rw [List.zip_cons_cons, List.zip_cons_cons, List.all_cons, List.all_cons,
        hfg _ _ _ _ hxy hxy', ih h₂]

theorem all_fields_eq {f g : Value → Value → Bool} {fs gs fs' gs' : List (String × Value)}
    (h : List.Forall₂ β.FieldRel fs gs) (h' : List.Forall₂ β.FieldRel fs' gs')
    (hfg : ∀ x y x' y', β.Rel x y → β.Rel x' y' → f x x' = g y y') :
    (fs.all fun p => (fs'.lookup p.1).any (f p.2)) =
      gs.all fun p => (gs'.lookup p.1).any (g p.2) := by
  induction h with
  | nil => rfl
  | @cons p q fs gs hpq _ ih =>
    obtain ⟨hname, hvalue⟩ := hpq
    have hlookup := lookup_rel h' p.1
    rw [List.all_cons, List.all_cons, ih, ← hname]
    generalize fs'.lookup p.1 = x, gs'.lookup p.1 = y at hlookup
    cases hlookup with
    | none => rfl
    | some hxy => rw [Option.any_some, Option.any_some, hfg _ _ _ _ hvalue hxy]

theorem OneToOne.list_beq (hone : β.OneToOne) {a b a' b' : ListRef} (h : β.lists a b)
    (h' : β.lists a' b') : (a == a') = (b == b') := by
  rw [Bool.eq_iff_iff, beq_iff_eq, beq_iff_eq]
  exact hone.list_iff h h'

theorem OneToOne.record_beq (hone : β.OneToOne) {a b a' b' : RecordRef} (h : β.records a b)
    (h' : β.records a' b') : (a == a') = (b == b') := by
  rw [Bool.eq_iff_iff, beq_iff_eq, beq_iff_eq]
  exact hone.record_iff h h'

/-- It is enough to compare lists with lists and records with records. -/
theorem equalWithin_eq_of_containers {n : Nat}
    (hlist : ∀ {a b a' b'}, β.lists a b → β.lists a' b' →
      s.equalWithin n (.list a) (.list a') = t.equalWithin n (.list b) (.list b'))
    (hrecord : ∀ {a b a' b'}, β.records a b → β.records a' b' →
      s.equalWithin n (.record a) (.record a') = t.equalWithin n (.record b) (.record b'))
    (hvw : β.Rel v w) (hvw' : β.Rel v' w') : s.equalWithin n v v' = t.equalWithin n w w' := by
  cases hvw with
  | scalar hv =>
    cases hvw' with
    | scalar => exact Store.equalWithin_scalar hv n n
    | _ => rw [Store.equalWithin_scalar_container hv rfl, Store.equalWithin_scalar_container hv rfl]
  | list hab =>
    cases hvw' with
    | scalar hv' =>
      rw [Store.equalWithin_container_scalar rfl hv', Store.equalWithin_container_scalar rfl hv']
    | list hab' => exact hlist hab hab'
    | record => cases n <;> rfl
  | record hab =>
    cases hvw' with
    | scalar hv' =>
      rw [Store.equalWithin_container_scalar rfl hv', Store.equalWithin_container_scalar rfl hv']
    | list => cases n <;> rfl
    | record hab' => exact hrecord hab hab'

/-- Related values are equal to the same values, to any depth. -/
theorem Matches.equalWithin_eq (h : β.Matches s t) (hone : β.OneToOne) (n : Nat)
    (hvw : β.Rel v w) (hvw' : β.Rel v' w') : s.equalWithin n v v' = t.equalWithin n w w' := by
  induction n generalizing v w v' w' with
  | zero => exact equalWithin_eq_of_containers hone.list_beq hone.record_beq hvw hvw'
  | succ n ih =>
    refine equalWithin_eq_of_containers (fun hab hab' => ?_) (fun hab hab' => ?_) hvw hvw'
    · have hall := all_zip_eq (f := fun p => s.equalWithin n p.1 p.2)
        (g := fun p => t.equalWithin n p.1 p.2) (h.items hab) (h.items hab')
        fun _ _ _ _ hxy hxy' => ih hxy hxy'
      rw [Store.equalWithin_list, Store.equalWithin_list, hone.list_beq hab hab',
        (h.items hab).length_eq, (h.items hab').length_eq, hall]
    · have hall := all_fields_eq (f := s.equalWithin n) (g := t.equalWithin n)
        (h.fields hab) (h.fields hab') fun _ _ _ _ hxy hxy' => ih hxy hxy'
      rw [Store.equalWithin_record, Store.equalWithin_record, hone.record_beq hab hab',
        (h.fields hab).length_eq, (h.fields hab').length_eq, hall]

theorem Matches.equal_eq (h : β.Matches s t) (hone : β.OneToOne) (hvw : β.Rel v w)
    (hvw' : β.Rel v' w') : s.equal v v' = t.equal w w' := by
  -- The two stores may differ in size: both comparisons are looked at from the greater depth.
  rw [← Store.equalWithin_eq_equal (Nat.le_max_left _ (t.size * t.size + 1)),
    ← Store.equalWithin_eq_equal (Nat.le_max_right (s.size * s.size + 1) _)]
  exact h.equalWithin_eq hone _ hvw hvw'

/-! ## The other way round -/

/-- The pairing seen from the second store. -/
def flip (β : Pairing) : Pairing := ⟨fun a b => β.lists b a, fun a b => β.records b a⟩

theorem Rel.flip (h : β.Rel v w) : β.flip.Rel w v := by
  cases h with
  | scalar hv => exact .scalar hv
  | list hab => exact .list hab
  | record hab => exact .record hab

theorem Matches.flip (h : β.Matches s t) : β.flip.Matches t s where
  list_lt hab := (h.list_lt hab).symm
  record_lt hab := (h.record_lt hab).symm
  items hab := ((h.items hab).imp fun _ _ => Rel.flip).flip
  fields hab := ((h.fields hab).imp fun _ _ hfg => ⟨hfg.1.symm, hfg.2.flip⟩).flip

/-- What related values hold is related. -/
theorem Matches.children_rel (h : β.Matches s t) (hvw : β.Rel v w) :
    List.Forall₂ β.Rel (s.children v) (t.children w) := by
  cases hvw with
  | scalar hv => cases v <;> first | exact .nil | cases hv
  | list hab => exact h.items hab
  | record hab =>
    refine List.forall₂_map_left_iff.2 (List.forall₂_map_right_iff.2 ?_)
    exact (h.fields hab).imp fun _ _ hfg => hfg.2

/-- Paired containers are in the first store, with all that they hold. -/
theorem Matches.closed (h : β.Matches s t) (v : Value) (hv : ∃ w, β.Rel v w)
    (hcontainer : v.isContainer = true) :
    v ∈ s.containers ∧ ∀ c ∈ s.children v, ∃ w, β.Rel c w := by
  obtain ⟨w, hvw⟩ := hv
  refine ⟨?_, fun c hc => ?_⟩
  · cases hvw with
    | scalar hv => rw [hv] at hcontainer; cases hcontainer
    | list hab => exact Store.list_mem_containers (h.list_lt hab).1
    | record hab => exact Store.record_mem_containers (h.record_lt hab).1
  · obtain ⟨w, -, hcw⟩ := exists_of_forall₂_of_mem (h.children_rel hvw) hc
    exact ⟨w, hcw⟩

theorem Matches.datum?_eq_some (h : β.Matches s t) (hvw : β.Rel v w) {d : Datum}
    (hd : s.datum? v = some d) : t.datum? w = some d := by
  refine Store.datum?_eq_some h.flip.closed ⟨v, hvw.flip⟩ (n := s.size) ?_
  rw [← h.datumWithin_eq s.size hvw]
  exact hd

/-- Related values have the same tree, or none. -/
theorem Matches.datum?_eq (h : β.Matches s t) (hvw : β.Rel v w) : s.datum? v = t.datum? w :=
  Option.ext fun _ => ⟨h.datum?_eq_some hvw, h.flip.datum?_eq_some hvw.flip⟩

theorem Matches.text_eq (h : β.Matches s t) (hvw : β.Rel v w) : s.text v = t.text w := by
  rw [Store.text, Store.text, h.datum?_eq hvw]

/-! ## Changes of both stores -/

/-- Containers that stay as they are stay matched. -/
theorem Matches.of_sameOn (h : β.Matches s t) {q q' : Value → Prop} (hs : s.SameOn q s')
    (ht : t.SameOn q' t') (hlists : ∀ {a b}, β.lists a b → q (.list a) ∧ q' (.list b))
    (hrecords : ∀ {a b}, β.records a b → q (.record a) ∧ q' (.record b)) : β.Matches s' t' where
  list_lt hab :=
    ⟨(hs.lists _ (h.list_lt hab).1 (hlists hab).1).1,
      (ht.lists _ (h.list_lt hab).2 (hlists hab).2).1⟩
  record_lt hab :=
    ⟨(hs.records _ (h.record_lt hab).1 (hrecords hab).1).1,
      (ht.records _ (h.record_lt hab).2 (hrecords hab).2).1⟩
  items hab := by
    rw [(hs.lists _ (h.list_lt hab).1 (hlists hab).1).2,
      (ht.lists _ (h.list_lt hab).2 (hlists hab).2).2]
    exact h.items hab
  fields hab := by
    rw [(hs.records _ (h.record_lt hab).1 (hrecords hab).1).2,
      (ht.records _ (h.record_lt hab).2 (hrecords hab).2).2]
    exact h.fields hab

theorem Matches.of_extends (h : β.Matches s t) (hs : s.Extends s') (ht : t.Extends t') :
    β.Matches s' t' :=
  h.of_sameOn hs ht (fun _ => ⟨trivial, trivial⟩) fun _ => ⟨trivial, trivial⟩

def addList (β : Pairing) (a b : ListRef) : Pairing :=
  { β with lists := fun x y => β.lists x y ∨ x = a ∧ y = b }

def addRecord (β : Pairing) (a b : RecordRef) : Pairing :=
  { β with records := fun x y => β.records x y ∨ x = a ∧ y = b }

theorem le_addList (β : Pairing) (a b : ListRef) : β ≤ β.addList a b :=
  ⟨fun _ _ => .inl, fun _ _ => id⟩

theorem le_addRecord (β : Pairing) (a b : RecordRef) : β ≤ β.addRecord a b :=
  ⟨fun _ _ => id, fun _ _ => .inl⟩

/-- A list is added to both stores. -/
theorem Matches.newList (h : β.Matches s t) {xs ys : Array Value}
    (hxs : List.Forall₂ β.Rel xs.toList ys.toList) :
    (β.addList ⟨s.lists.size⟩ ⟨t.lists.size⟩).Matches (s.newList xs).2 (t.newList ys).2 := by
  have hold := h.of_extends (s.extends_newList xs) (t.extends_newList ys)
  have hle := le_addList β ⟨s.lists.size⟩ ⟨t.lists.size⟩
  refine ⟨?_, hold.record_lt, ?_, fun hab => (hold.fields hab).imp fun _ _ => FieldRel.mono hle⟩
  · rintro a b (hab | ⟨rfl, rfl⟩)
    · exact hold.list_lt hab
    · simp [Store.newList]
  · rintro a b (hab | ⟨rfl, rfl⟩)
    · exact (hold.items hab).imp fun _ _ => Rel.mono hle
    · rw [Store.items_newList_self, Store.items_newList_self]
      exact hxs.imp fun _ _ => Rel.mono hle

theorem Matches.newRecord (h : β.Matches s t) {r r' : Record}
    (hr : List.Forall₂ β.FieldRel r.fields r'.fields) :
    (β.addRecord ⟨s.records.size⟩ ⟨t.records.size⟩).Matches (s.newRecord r).2
      (t.newRecord r').2 := by
  have hold := h.of_extends (s.extends_newRecord r) (t.extends_newRecord r')
  have hle := le_addRecord β ⟨s.records.size⟩ ⟨t.records.size⟩
  refine ⟨hold.list_lt, ?_, fun hab => (hold.items hab).imp fun _ _ => Rel.mono hle, ?_⟩
  · rintro a b (hab | ⟨rfl, rfl⟩)
    · exact hold.record_lt hab
    · simp [Store.newRecord]
  · rintro a b (hab | ⟨rfl, rfl⟩)
    · exact (hold.fields hab).imp fun _ _ => FieldRel.mono hle
    · rw [Store.record_newRecord_self, Store.record_newRecord_self]
      exact hr.imp fun _ _ => FieldRel.mono hle

/-- A one-to-one relation is so with a pair of which neither part is in another. -/
theorem eq_iff_of_added {α α' : Type} {R : α → α' → Prop} {x : α} {y : α'}
    (hone : ∀ {a b a' b'}, R a b → R a' b' → (a = a' ↔ b = b'))
    (hfresh : ∀ {a b}, R a b → a ≠ x ∧ b ≠ y) {a b a' b'} (h : R a b ∨ a = x ∧ b = y)
    (h' : R a' b' ∨ a' = x ∧ b' = y) : a = a' ↔ b = b' := by
  rcases h with h | ⟨rfl, rfl⟩ <;> rcases h' with h' | ⟨rfl, rfl⟩
  · exact hone h h'
  · exact iff_of_false (hfresh h).1 (hfresh h).2
  · exact iff_of_false (hfresh h').1.symm (hfresh h').2.symm
  · exact iff_of_true rfl rfl

theorem OneToOne.addList (hone : β.OneToOne) (h : β.Matches s t) :
    (β.addList ⟨s.lists.size⟩ ⟨t.lists.size⟩).OneToOne where
  list_iff := eq_iff_of_added hone.list_iff fun hab => by
    obtain ⟨ha, hb⟩ := h.list_lt hab
    exact ⟨fun heq => by simp [heq] at ha, fun heq => by simp [heq] at hb⟩
  record_iff := hone.record_iff

theorem OneToOne.addRecord (hone : β.OneToOne) (h : β.Matches s t) :
    (β.addRecord ⟨s.records.size⟩ ⟨t.records.size⟩).OneToOne where
  list_iff := hone.list_iff
  record_iff := eq_iff_of_added hone.record_iff fun hab => by
    obtain ⟨ha, hb⟩ := h.record_lt hab
    exact ⟨fun heq => by simp [heq] at ha, fun heq => by simp [heq] at hb⟩

/-- Related values are added to paired lists. -/
theorem Matches.push (h : β.Matches s t) (hone : β.OneToOne) {a b : ListRef} (hab : β.lists a b)
    (hvw : β.Rel v w) : β.Matches (s.push a v) (t.push b w) where
  list_lt hxy := by
    simpa [Store.push] using h.list_lt hxy
  record_lt hxy := h.record_lt hxy
  items := by
    intro x y hxy
    by_cases hxa : x = a
    · obtain rfl := hxa
      obtain rfl := (hone.list_iff hxy hab).1 rfl
      rw [Store.items_push_self s (h.list_lt hab).1, Store.items_push_self t (h.list_lt hab).2,
        Array.toList_push, Array.toList_push]
      exact List.rel_append (h.items hab) (.cons hvw .nil)
    · have hyb : y ≠ b := fun heq => hxa ((hone.list_iff hxy hab).2 heq)
      rw [((s.sameOn_push a v).lists x (h.list_lt hxy).1 (by simpa using hxa)).2,
        ((t.sameOn_push b w).lists y (h.list_lt hxy).2 (by simpa using hyb)).2]
      exact h.items hxy
  fields hxy := h.fields hxy

/-- A field of paired records is set to related values. -/
theorem Matches.setField (h : β.Matches s t) (hone : β.OneToOne) {a b : RecordRef}
    (hab : β.records a b) (key : String) (hvw : β.Rel v w) :
    β.Matches (s.setField a key v) (t.setField b key w) where
  list_lt hxy := h.list_lt hxy
  record_lt hxy := by
    simpa [Store.setField] using h.record_lt hxy
  items hxy := h.items hxy
  fields := by
    intro x y hxy
    by_cases hxa : x = a
    · obtain rfl := hxa
      obtain rfl := (hone.record_iff hxy hab).1 rfl
      rw [Store.record_setField_self s (h.record_lt hab).1,
        Store.record_setField_self t (h.record_lt hab).2]
      exact setField_rel (h.fields hab) key hvw
    · have hyb : y ≠ b := fun heq => hxa ((hone.record_iff hxy hab).2 heq)
      rw [((s.sameOn_setField a key v).records x (h.record_lt hxy).1 (by simpa using hxa)).2,
        ((t.sameOn_setField b key w).records y (h.record_lt hxy).2 (by simpa using hyb)).2]
      exact h.fields hxy

/-! ## Changes apart -/

/-- The pairs from which neither of two values is reached. -/
def without (β : Pairing) (s t : Store) (c d : Value) : Pairing where
  lists a b := β.lists a b ∧ ¬s.Reaches (.list a) c ∧ ¬t.Reaches (.list b) d
  records a b := β.records a b ∧ ¬s.Reaches (.record a) c ∧ ¬t.Reaches (.record b) d

theorem Rel.without {c d : Value} (h : β.Rel v w) (hv : ¬s.Reaches v c) (hw : ¬t.Reaches w d) :
    (β.without s t c d).Rel v w := by
  cases h with
  | scalar hscalar => exact .scalar hscalar
  | list hab => exact .list ⟨hab, hv, hw⟩
  | record hab => exact .record ⟨hab, hv, hw⟩

theorem OneToOne.without (hone : β.OneToOne) (s t : Store) (c d : Value) :
    (β.without s t c d).OneToOne where
  list_iff h h' := hone.list_iff h.1 h'.1
  record_iff h h' := hone.record_iff h.1 h'.1

theorem forall₂_imp_of_mem {α α' : Type} {R S : α → α' → Prop} {xs : List α} {ys : List α'}
    (h : List.Forall₂ R xs ys) (himp : ∀ x ∈ xs, ∀ y ∈ ys, R x y → S x y) :
    List.Forall₂ S xs ys := by
  induction h with
  | nil => exact .nil
  | cons hxy _ ih =>
    refine .cons (himp _ (List.mem_cons_self ..) _ (List.mem_cons_self ..) hxy) (ih ?_)
    exact fun x hx y hy => himp x (List.mem_cons_of_mem _ hx) y (List.mem_cons_of_mem _ hy)

/-- Whatever happens to two containers, the pairs from which they are not reached stay matched. -/
theorem Matches.without (h : β.Matches s t) {c d : Value} (hs : s.SameOn (· ≠ c) s')
    (ht : t.SameOn (· ≠ d) t') : (β.without s t c d).Matches s' t' := by
  have hinside : (β.without s t c d).Matches s t := by
    refine ⟨fun hab => h.list_lt hab.1, fun hab => h.record_lt hab.1, ?_, ?_⟩
    · rintro a b ⟨hab, ha, hb⟩
      refine forall₂_imp_of_mem (h.items hab) fun x hx y hy hxy => hxy.without ?_ ?_
      · exact fun hreach => ha (.item hx hreach)
      · exact fun hreach => hb (.item hy hreach)
    · rintro a b ⟨hab, ha, hb⟩
      refine forall₂_imp_of_mem (h.fields hab) fun f hf g hg hfg => ⟨hfg.1, hfg.2.without ?_ ?_⟩
      · exact fun hreach => ha (.field hf hreach)
      · exact fun hreach => hb (.field hg hreach)
  refine hinside.of_sameOn hs ht ?_ ?_
  · rintro a b ⟨-, ha, hb⟩
    exact ⟨fun heq => ha (heq ▸ .refl _), fun heq => hb (heq ▸ .refl _)⟩
  · rintro a b ⟨-, ha, hb⟩
    exact ⟨fun heq => ha (heq ▸ .refl _), fun heq => hb (heq ▸ .refl _)⟩

end Pairing

end TagMachine
