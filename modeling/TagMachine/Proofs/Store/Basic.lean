import Mathlib.Tactic
import TagMachine.Datum.Basic

set_option autoImplicit false

/-! # Reading a store after a write

What the containers of a store hold after a container was added or changed. `Store.SameOn` says that
one store still has the containers of another that are of some sort, with what they held: all of
them after a container was added, all but one after a change.
-/

namespace TagMachine.Store

variable (s : Store)

/-! ## Reading after writing -/

theorem items_eq (a : ListRef) : s.items a = s.lists[a.index]?.getD #[] :=
  Array.getD_eq_getD_getElem?

theorem record_eq (a : RecordRef) : s.record a = s.records[a.index]?.getD Record.empty :=
  Array.getD_eq_getD_getElem?

theorem items_newList_self (xs : Array Value) : (s.newList xs).2.items ⟨s.lists.size⟩ = xs := by
  simp [items_eq, newList]

theorem record_newRecord_self (r : Record) : (s.newRecord r).2.record ⟨s.records.size⟩ = r := by
  simp [record_eq, newRecord]

theorem items_push_self {a : ListRef} (h : a.index < s.lists.size) (v : Value) :
    (s.push a v).items a = (s.items a).push v := by
  simp [items_eq, push, Array.getElem_modify, h]

theorem record_setField_self {a : RecordRef} (h : a.index < s.records.size) (key : String)
    (v : Value) : (s.setField a key v).record a = (s.record a).set key v := by
  simp [record_eq, setField, Array.getElem_modify, h]

/-- Adding to a list that was just made is making a longer one. -/
theorem push_newList (xs : Array Value) (v : Value) :
    (s.newList xs).2.push (s.newList xs).1 v = (s.newList (xs.push v)).2 := by
  simp only [newList, push]
  congr 1
  grind

/-- Setting a field of a record that was just made is making a record with it. -/
theorem setField_newRecord (r : Record) (key : String) (v : Value) :
    (s.newRecord r).2.setField (s.newRecord r).1 key v = (s.newRecord (r.set key v)).2 := by
  simp only [newRecord, setField]
  congr 1
  grind

/-! ## What stays -/

/-- The second store has the containers of the first that are of some sort, and they hold the
same. -/
structure SameOn (q : Value → Prop) (s s' : Store) : Prop where
  lists : ∀ a : ListRef, a.index < s.lists.size → q (.list a) →
    a.index < s'.lists.size ∧ s'.items a = s.items a
  records : ∀ a : RecordRef, a.index < s.records.size → q (.record a) →
    a.index < s'.records.size ∧ s'.record a = s.record a

/-- Every container stays as it is. -/
def Extends (s s' : Store) : Prop := SameOn (fun _ => True) s s'

variable {s}

theorem SameOn.refl (q : Value → Prop) (s : Store) : SameOn q s s where
  lists _ h _ := ⟨h, rfl⟩
  records _ h _ := ⟨h, rfl⟩

theorem SameOn.trans {q : Value → Prop} {s₁ s₂ s₃ : Store} (h : SameOn q s₁ s₂)
    (h' : SameOn q s₂ s₃) : SameOn q s₁ s₃ where
  lists a ha hq := by
    obtain ⟨hlt, heq⟩ := h.lists a ha hq
    obtain ⟨hlt', heq'⟩ := h'.lists a hlt hq
    exact ⟨hlt', heq'.trans heq⟩
  records a ha hq := by
    obtain ⟨hlt, heq⟩ := h.records a ha hq
    obtain ⟨hlt', heq'⟩ := h'.records a hlt hq
    exact ⟨hlt', heq'.trans heq⟩

theorem SameOn.of_imp {q r : Value → Prop} {s s' : Store} (h : SameOn q s s')
    (hr : ∀ v, r v → q v) : SameOn r s s' where
  lists a ha hra := h.lists a ha (hr _ hra)
  records a ha hra := h.records a ha (hr _ hra)

theorem Extends.trans {s₁ s₂ s₃ : Store} (h : Extends s₁ s₂) (h' : Extends s₂ s₃) :
    Extends s₁ s₃ := SameOn.trans h h'

theorem extends_newList (s : Store) (xs : Array Value) : Extends s (s.newList xs).2 where
  lists a ha _ := by
    simp only [items_eq, newList, Array.size_push, Array.getElem?_push_lt ha]
    exact ⟨by omega, by simp [ha]⟩
  records a ha _ := ⟨ha, rfl⟩

theorem extends_newRecord (s : Store) (r : Record) : Extends s (s.newRecord r).2 where
  lists a ha _ := ⟨ha, rfl⟩
  records a ha _ := by
    simp only [record_eq, newRecord, Array.size_push, Array.getElem?_push_lt ha]
    exact ⟨by omega, by simp [ha]⟩

theorem sameOn_push (s : Store) (ref : ListRef) (v : Value) :
    SameOn (· ≠ .list ref) s (s.push ref v) where
  lists a ha hne := by
    have hindex : ref.index ≠ a.index := fun h => hne (by cases a; cases ref; simp_all)
    simp [items_eq, push, Array.getElem_modify, ha, hindex]
  records a ha _ := ⟨ha, rfl⟩

theorem sameOn_setField (s : Store) (ref : RecordRef) (key : String) (v : Value) :
    SameOn (· ≠ .record ref) s (s.setField ref key v) where
  lists a ha _ := ⟨ha, rfl⟩
  records a ha hne := by
    have hindex : ref.index ≠ a.index := fun h => hne (by cases a; cases ref; simp_all)
    simp [record_eq, setField, Array.getElem_modify, ha, hindex]

end TagMachine.Store
