import TagMachine.Proofs.Store.Depth

set_option autoImplicit false

/-! # Stores without dangling references

A reference to a container that a store does not have reads as empty. `Store.Closed` says that no
container of a store holds such a reference. A store stays closed when containers are made of values
that exist, and when they are changed to hold values that exist. What was added to such a store
cannot be reached from what was there before (`Extends.has_of_reaches`).

`Store.Sealed` is the same for any sort of values in the place of those that exist: a program that
starts with values of the sort stays among them.
-/

namespace TagMachine

/-- What a field list holds after a field was set. -/
theorem mem_values_setField {key : String} {v w : Value} {fs : List (String × Value)}
    (h : w ∈ (setField key v fs).map Prod.snd) : w = v ∨ w ∈ fs.map Prod.snd := by
  induction fs with
  | nil => exact .inl (by simpa [setField] using h)
  | cons f fs ih =>
    obtain ⟨k, old⟩ := f
    unfold setField at h
    split at h
    · rcases List.mem_cons.1 h with rfl | h
      · exact .inl rfl
      · exact .inr (List.mem_cons_of_mem _ h)
    · rcases List.mem_cons.1 h with rfl | h
      · exact .inr (List.mem_cons_self ..)
      · exact (ih h).imp_right (List.mem_cons_of_mem _)

/-- A record that is made of fields holds only what they hold. -/
theorem mem_values_ofList {fs : List (String × Value)} {v : Value}
    (h : v ∈ (Record.ofList fs).values) : v ∈ fs.map Prod.snd := by
  have hfold : ∀ (fs acc : List (String × Value)),
      v ∈ (fs.foldl (fun acc f => setField f.1 f.2 acc) acc).map Prod.snd →
        v ∈ acc.map Prod.snd ∨ v ∈ fs.map Prod.snd := by
    intro fs
    induction fs with
    | nil => exact fun acc h => .inl h
    | cons f fs ih =>
      intro acc h
      rcases ih _ h with h | h
      · rcases mem_values_setField h with rfl | h
        · exact .inr (List.mem_cons_self ..)
        · exact .inl h
      · exact .inr (List.mem_cons_of_mem _ h)
  exact (hfold fs [] h).resolve_left (by simp)

/-- A record with one field holds one value. -/
theorem Record.mem_values_single {key : String} {v w : Value}
    (h : w ∈ (Record.empty.set key v).values) : w = v := by
  simpa [Record.set, Record.empty, setField, Record.values] using h

/-- What a field reads as is a value of the record, or nothing. -/
theorem Record.get_mem_values (r : Record) (key : String) :
    r.get key ∈ r.values ∨ r.get key = .nothing := by
  unfold Record.get Record.get?
  cases hv : r.fields.lookup key with
  | none => exact .inr rfl
  | some v =>
    obtain ⟨before, after, hfields, -⟩ := List.lookup_eq_some_iff.1 hv
    exact .inl (List.mem_map.2 ⟨(key, v), by simp [hfields], rfl⟩)

namespace Store

variable {s s' : Store} {v w : Value}

/-- The store has the container that a value refers to, if it refers to one. -/
def Has (s : Store) : Value → Prop
  | .list a => a.index < s.lists.size
  | .record a => a.index < s.records.size
  | _ => True

/-- What the containers of the store hold exists. -/
def Closed (s : Store) : Prop := ∀ v, ∀ w ∈ s.children v, s.Has w

/-- Only containers hold anything. -/
theorem isContainer_of_mem_children (h : w ∈ s.children v) : v.isContainer = true := by
  cases v <;> first | rfl | cases h

theorem has_of_scalar (hv : v.isContainer = false) : s.Has v := by
  cases v <;> trivial

/-- Only containers that exist hold anything. -/
theorem has_of_mem_children (h : w ∈ s.children v) : s.Has v := by
  rcases List.mem_append.1 (mem_containers h) with h | h
  · obtain ⟨k, hk, rfl⟩ := List.mem_map.1 h
    exact List.mem_range.1 hk
  · obtain ⟨k, hk, rfl⟩ := List.mem_map.1 h
    exact List.mem_range.1 hk

/-- What a field of a record reads as is held by the record, or nothing. -/
theorem get_mem_children (a : RecordRef) (key : String) :
    (s.record a).get key ∈ s.children (.record a) ∨ (s.record a).get key = .nothing :=
  (s.record a).get_mem_values key

/-- What an element of a list reads as is held by the list, or nothing. -/
theorem itemAt_mem_children (a : ListRef) (n : Int64) :
    s.itemAt a n ∈ s.children (.list a) ∨ s.itemAt a n = .nothing := by
  unfold itemAt
  split
  · exact .inr rfl
  · cases hv : (s.items a)[n.toInt.toNat]? with
    | none => exact .inr rfl
    | some v => exact .inl (Array.mem_toList_iff.2 (Array.mem_of_getElem? hv))

instance (s : Store) : DecidablePred s.Has
  | .list a => inferInstanceAs (Decidable (a.index < s.lists.size))
  | .record a => inferInstanceAs (Decidable (a.index < s.records.size))
  | .string _ | .integer _ | .float _ | .boolean _ | .nothing => .isTrue trivial

instance (s : Store) : Decidable s.Closed :=
  decidable_of_iff (∀ v ∈ s.containers, ∀ w ∈ s.children v, s.Has w)
    ⟨fun h v w hw => h v (mem_containers hw) w hw, fun h v _ => h v⟩

theorem closed_empty : Closed {} := by
  intro v w hw
  simpa [containers] using mem_containers hw

/-! ## Growing stores -/

theorem Extends.has (h : s.Extends s') (hv : s.Has v) : s'.Has v := by
  cases v with
  | list a => exact (h.lists a hv trivial).1
  | record a => exact (h.records a hv trivial).1
  | _ => trivial

theorem SameOn.children {q : Value → Prop} (h : s.SameOn q s') (hv : s.Has v) (hq : q v) :
    s'.children v = s.children v := by
  cases v with
  | list a => simp only [Store.children, (h.lists a hv hq).2]
  | record a => simp only [Store.children, (h.records a hv hq).2]
  | _ => rfl

theorem Extends.children (h : s.Extends s') (hv : s.Has v) : s'.children v = s.children v :=
  SameOn.children h hv trivial

/-- In a store that extends one without dangling references, what that one has reaches only what it
has. -/
theorem Extends.has_of_reaches (h : s.Extends s') (hs : s.Closed) (hr : s'.Reaches v w)
    (hv : s.Has v) : s.Has w := by
  induction hr with
  | refl => exact hv
  | @item a v w hmem _ ih =>
    have hchildren := h.children hv
    exact ih (hs (.list a) v (hchildren ▸ hmem))
  | @field a f w hmem _ ih =>
    have hchildren := h.children hv
    exact ih (hs (.record a) f.2 (hchildren ▸ List.mem_map_of_mem hmem))

/-- In a store that extends one without dangling references, what that one has reaches the same. -/
theorem Extends.reaches_iff (h : s.Extends s') (hs : s.Closed) (hv : s.Has v) :
    s'.Reaches v w ↔ s.Reaches v w := by
  constructor
  · intro hr
    induction hr with
    | refl => exact .refl _
    | @item a v w hmem _ ih =>
      rw [(h.lists a hv trivial).2] at hmem
      exact .item hmem (ih (hs (.list a) v hmem))
    | @field a f w hmem _ ih =>
      rw [(h.records a hv trivial).2] at hmem
      exact .field hmem (ih (hs (.record a) f.2 (List.mem_map_of_mem hmem)))
  · intro hr
    induction hr with
    | refl => exact .refl _
    | @item a v w hmem _ ih =>
      refine .item ?_ (ih (hs (.list a) v hmem))
      rwa [(h.lists a hv trivial).2]
    | @field a f w hmem _ ih =>
      refine .field ?_ (ih (hs (.record a) f.2 (List.mem_map_of_mem hmem)))
      rwa [(h.records a hv trivial).2]

/-- What values hold after a list was added. -/
theorem mem_children_newList {xs : Array Value} (h : w ∈ (s.newList xs).2.children v) :
    (s.Has v ∧ w ∈ s.children v) ∨ (¬s.Has v ∧ w ∈ xs.toList) := by
  by_cases hv : s.Has v
  · rw [(s.extends_newList xs).children hv] at h
    exact .inl ⟨hv, h⟩
  · -- the only container that was not there is the new list
    have hv' := has_of_mem_children h
    cases v with
    | list a =>
      have hindex : a.index = s.lists.size := by
        simp only [Has, newList, Array.size_push] at hv hv'
        omega
      obtain rfl : a = ⟨s.lists.size⟩ := by rw [← hindex]
      simp only [Store.children, items_newList_self] at h
      exact .inr ⟨hv, h⟩
    | record a => exact absurd hv' hv
    | _ => cases h

/-- What values hold after a record was added. -/
theorem mem_children_newRecord {r : Record} (h : w ∈ (s.newRecord r).2.children v) :
    (s.Has v ∧ w ∈ s.children v) ∨ (¬s.Has v ∧ w ∈ r.values) := by
  by_cases hv : s.Has v
  · rw [(s.extends_newRecord r).children hv] at h
    exact .inl ⟨hv, h⟩
  · have hv' := has_of_mem_children h
    cases v with
    | list a => exact absurd hv' hv
    | record a =>
      have hindex : a.index = s.records.size := by
        simp only [Has, newRecord, Array.size_push] at hv hv'
        omega
      obtain rfl : a = ⟨s.records.size⟩ := by rw [← hindex]
      simp only [Store.children, record_newRecord_self] at h
      exact .inr ⟨hv, h⟩
    | _ => cases h

theorem closed_newList (h : s.Closed) {xs : Array Value} (hxs : ∀ v ∈ xs.toList, s.Has v) :
    (s.newList xs).2.Closed := by
  intro v w hw
  refine (s.extends_newList xs).has ?_
  rcases mem_children_newList hw with ⟨-, hw⟩ | ⟨-, hw⟩
  · exact h v w hw
  · exact hxs w hw

theorem closed_newRecord (h : s.Closed) {r : Record} (hr : ∀ v ∈ r.values, s.Has v) :
    (s.newRecord r).2.Closed := by
  intro v w hw
  refine (s.extends_newRecord r).has ?_
  rcases mem_children_newRecord hw with ⟨-, hw⟩ | ⟨-, hw⟩
  · exact h v w hw
  · exact hr w hw

theorem has_newList_self (s : Store) (xs : Array Value) :
    (s.newList xs).2.Has (.list (s.newList xs).1) := by
  simp [Has, newList]

theorem has_newRecord_self (s : Store) (r : Record) :
    (s.newRecord r).2.Has (.record (s.newRecord r).1) := by
  simp [Has, newRecord]

/-! ## Changing containers -/

@[simp] theorem has_push (a : ListRef) (x : Value) : (s.push a x).Has v ↔ s.Has v := by
  cases v <;> simp [Has, push]

@[simp] theorem has_setField (a : RecordRef) (key : String) (x : Value) :
    (s.setField a key x).Has v ↔ s.Has v := by
  cases v <;> simp [Has, setField]

/-- What values hold after a value was added to a list. -/
theorem mem_children_push {a : ListRef} {x : Value} (h : w ∈ (s.push a x).children v) :
    w ∈ s.children v ∨ (v = .list a ∧ w = x) := by
  have hv := (has_push a x).1 (has_of_mem_children h)
  cases v with
  | list b =>
    by_cases hb : b = a
    · subst hb
      simp only [Store.children, items_push_self s hv, Array.toList_push, List.mem_append,
        List.mem_singleton] at h
      exact h.imp_right fun hw => ⟨rfl, hw⟩
    · simp only [Store.children, ((sameOn_push s a x).lists b hv (by simpa using hb)).2] at h
      exact .inl h
  | record b => exact .inl h
  | _ => cases h

/-- What values hold after a field was set. -/
theorem mem_children_setField {a : RecordRef} {key : String} {x : Value}
    (h : w ∈ (s.setField a key x).children v) : w ∈ s.children v ∨ (v = .record a ∧ w = x) := by
  have hv := (has_setField a key x).1 (has_of_mem_children h)
  cases v with
  | list b => exact .inl h
  | record b =>
    by_cases hb : b = a
    · subst hb
      simp only [Store.children, record_setField_self s hv] at h
      rcases mem_values_setField h with rfl | hw
      · exact .inr ⟨rfl, rfl⟩
      · exact .inl hw
    · simp only [Store.children,
        ((sameOn_setField s a key x).records b hv (by simpa using hb)).2] at h
      exact .inl h
  | _ => cases h

theorem closed_push (h : s.Closed) (a : ListRef) {x : Value} (hx : s.Has x) :
    (s.push a x).Closed := by
  intro v w hw
  rw [has_push]
  rcases mem_children_push hw with hw | ⟨-, rfl⟩
  · exact h v w hw
  · exact hx

theorem closed_setField (h : s.Closed) (a : RecordRef) (key : String) {x : Value}
    (hx : s.Has x) : (s.setField a key x).Closed := by
  intro v w hw
  rw [has_setField]
  rcases mem_children_setField hw with hw | ⟨-, rfl⟩
  · exact h v w hw
  · exact hx

/-! ## Adding containers -/

/-- The stores that another becomes when containers of values that exist are added. -/
inductive Grows (s : Store) : Store → Prop
  | refl : Grows s s
  | list {t : Store} {xs : Array Value} (h : Grows s t) (hxs : ∀ v ∈ xs.toList, t.Has v) :
      Grows s (t.newList xs).2
  | record {t : Store} {r : Record} (h : Grows s t) (hr : ∀ v ∈ r.values, t.Has v) :
      Grows s (t.newRecord r).2

theorem Grows.trans {s₁ s₂ s₃ : Store} (h : s₁.Grows s₂) (h' : s₂.Grows s₃) : s₁.Grows s₃ := by
  induction h' with
  | refl => exact h
  | list _ hxs ih => exact .list ih hxs
  | record _ hr ih => exact .record ih hr

theorem Grows.extends (h : s.Grows s') : s.Extends s' := by
  induction h with
  | refl => exact .refl _ _
  | list _ _ ih => exact ih.trans (extends_newList _ _)
  | record _ _ ih => exact ih.trans (extends_newRecord _ _)

theorem Grows.closed (h : s.Grows s') (hs : s.Closed) : s'.Closed := by
  induction h with
  | refl => exact hs
  | list _ hxs ih => exact closed_newList ih hxs
  | record _ hr ih => exact closed_newRecord ih hr

/-! ## Sorts of values -/

/-- Nothing leads out of a sort of values, to which the scalars and all containers belong that are
yet to be made. -/
structure Sealed (s : Store) (P : Value → Prop) : Prop where
  scalar : ∀ {v}, v.isContainer = false → P v
  fresh : ∀ {v}, ¬s.Has v → P v
  children : ∀ {v w}, P v → w ∈ s.children v → P w

section Sealed

variable {P : Value → Prop}

theorem sealed_true (s : Store) : s.Sealed fun _ => True := ⟨fun _ => trivial, fun _ => trivial,
  fun _ _ => trivial⟩

/-- The containers of a store that have some property, with the scalars and all that is yet to be
made. -/
def Among (s : Store) (P : Value → Prop) (v : Value) : Prop :=
  v.isContainer = true → s.Has v → P v

theorem sealed_among (h : ∀ v w, P v → w ∈ s.children v → P w) : s.Sealed (s.Among P) where
  scalar hv hcontainer := absurd (hv.symm.trans hcontainer) nofun
  fresh hv _ hhas := absurd hhas hv
  children hv hw _ _ :=
    h _ _ (hv (isContainer_of_mem_children hw) (has_of_mem_children hw)) hw

theorem Sealed.reaches (h : s.Sealed P) (hr : s.Reaches v w) (hv : P v) : P w := by
  induction hr with
  | refl => exact hv
  | @item a v w hmem _ ih => exact ih (h.children (v := .list a) hv hmem)
  | @field a f w hmem _ ih => exact ih (h.children (v := .record a) hv (List.mem_map_of_mem hmem))

theorem Sealed.newList (h : s.Sealed P) {xs : Array Value} (hxs : ∀ v ∈ xs.toList, P v) :
    (s.newList xs).2.Sealed P where
  scalar := h.scalar
  fresh hv := h.fresh fun hhas => hv ((s.extends_newList xs).has hhas)
  children hv hw := by
    rcases mem_children_newList hw with ⟨-, hw⟩ | ⟨-, hw⟩
    · exact h.children hv hw
    · exact hxs _ hw

theorem Sealed.newRecord (h : s.Sealed P) {r : Record} (hr : ∀ v ∈ r.values, P v) :
    (s.newRecord r).2.Sealed P where
  scalar := h.scalar
  fresh hv := h.fresh fun hhas => hv ((s.extends_newRecord r).has hhas)
  children hv hw := by
    rcases mem_children_newRecord hw with ⟨-, hw⟩ | ⟨-, hw⟩
    · exact h.children hv hw
    · exact hr _ hw

theorem Sealed.list_new (h : s.Sealed P) (xs : Array Value) : P (.list (s.newList xs).1) :=
  h.fresh (by simp [Has, Store.newList])

theorem Sealed.record_new (h : s.Sealed P) (r : Record) : P (.record (s.newRecord r).1) :=
  h.fresh (by simp [Has, Store.newRecord])

theorem Sealed.push (h : s.Sealed P) (a : ListRef) {x : Value} (hx : P x) :
    (s.push a x).Sealed P where
  scalar := h.scalar
  fresh hv := h.fresh fun hhas => hv ((has_push a x).2 hhas)
  children hv hw := by
    rcases mem_children_push hw with hw | ⟨-, rfl⟩
    · exact h.children hv hw
    · exact hx

theorem Sealed.setField (h : s.Sealed P) (a : RecordRef) (key : String) {x : Value} (hx : P x) :
    (s.setField a key x).Sealed P where
  scalar := h.scalar
  fresh hv := h.fresh fun hhas => hv ((has_setField a key x).2 hhas)
  children hv hw := by
    rcases mem_children_setField hw with hw | ⟨-, rfl⟩
    · exact h.children hv hw
    · exact hx

end Sealed

/-! ## Building values -/

/-- A property of stores that new containers keep. -/
structure Kept (Q : Store → Prop) : Prop where
  list : ∀ {s} xs, Q s → Q (s.newList xs).2
  record : ∀ {s} fs, Q s → Q (s.newRecord (Record.ofList fs)).2

mutual

/-- What new containers keep, making a value keeps. -/
theorem Kept.build {Q : Store → Prop} (h : Kept Q) {s : Store} (hs : Q s) :
    (b : Blueprint) → Q (s.build b).2
  | .value _ => by
    unfold Store.build
    exact hs
  | .list items => by
    unfold Store.build
    exact h.list _ (h.buildItems hs items #[])
  | .record fields => by
    unfold Store.build
    exact h.record _ (h.buildFields hs fields #[])

theorem Kept.buildItems {Q : Store → Prop} (h : Kept Q) {s : Store} (hs : Q s) :
    (bs : List Blueprint) → (done : Array Value) → Q (s.buildItems bs done).2
  | [], _ => by
    unfold Store.buildItems
    exact hs
  | b :: bs, done => by
    unfold Store.buildItems
    exact h.buildItems (h.build hs b) bs _

theorem Kept.buildFields {Q : Store → Prop} (h : Kept Q) {s : Store} (hs : Q s) :
    (fs : List (String × Blueprint)) → (done : Array (String × Value)) →
      Q (s.buildFields fs done).2
  | [], _ => by
    unfold Store.buildFields
    exact hs
  | (key, b) :: fs, done => by
    unfold Store.buildFields
    exact h.buildFields (h.build hs b) fs _

end

theorem kept_extends (s : Store) : Kept s.Extends :=
  ⟨fun _ h => h.trans (extends_newList _ _), fun _ h => h.trans (extends_newRecord _ _)⟩

/-- Making a value changes no container. -/
theorem extends_build (s : Store) (b : Blueprint) : s.Extends (s.build b).2 :=
  s.kept_extends.build (.refl _ _) b

/-- Nothing is made for elements that exist. -/
theorem buildItems_values (s : Store) (xs : List Value) (done : Array Value) :
    s.buildItems (xs.map .value) done = (done ++ xs, s) := by
  induction xs generalizing done with
  | nil => simp [buildItems]
  | cons v xs ih =>
    rw [List.map_cons, buildItems, build, Array.appendList_cons]
    exact ih (done.push v)

theorem buildFields_values (s : Store) (fs : List (String × Value))
    (done : Array (String × Value)) :
    s.buildFields (fs.map fun f => (f.1, .value f.2)) done = (done ++ fs, s) := by
  induction fs generalizing done with
  | nil => simp [buildFields]
  | cons f fs ih =>
    rw [List.map_cons, buildFields, build, Array.appendList_cons]
    exact ih (done.push f)

end Store

end TagMachine
