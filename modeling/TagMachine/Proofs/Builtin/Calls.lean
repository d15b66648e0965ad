import TagMachine.Proofs.Builtin.InPlace

set_option autoImplicit false

/-! # Calls of standard functions

What a call returns, by what its function gives for the arguments: a value as it is, or a new list
or record. In no case a container that existed is changed.
-/

namespace TagMachine.Builtin

open Procedure (argumentsIn build_ofValues build_ofRecord)

section Entry

variable {id : UInt16} {entry : Entry} {context : CallContext} {args : RecordRef} {s : Store}

/-- A call runs its function on the arguments read, and makes the result in the store. -/
theorem call_eq_map (hentry : find? id = some entry) :
    FunctionTable.standard.call id context args s =
      (entry.run (argumentsIn context args s)).map s.build := by
  simp only [FunctionTable.standard, hentry]
  rfl

/-- A call that gives a value leaves the store as it is. -/
theorem call_eq_of_give {v : Value} (hentry : find? id = some entry)
    (h : entry.run (argumentsIn context args s) = give v) :
    FunctionTable.standard.call id context args s = .ok (v, s) := by
  rw [call_eq_map hentry, h]
  rfl

/-- A call of a function that fails fails. -/
theorem call_eq_of_error {e : Error} (hentry : find? id = some entry)
    (h : entry.run (argumentsIn context args s) = .error e) :
    FunctionTable.standard.call id context args s = .error e := by
  rw [call_eq_map hentry, h]
  rfl

end Entry

/-- The result that is a fresh list, once it is made. -/
theorem giveList_makes (s : Store) (xs : List Value) :
    ∃ ref t, (giveList xs).map s.build = .ok (.list ref, t) ∧ ¬s.Has (.list ref) ∧
      t.Has (.list ref) ∧
      s.Extends t ∧ (t.items ref).toList = xs := by
  refine ⟨(s.newList #[]).1, (s.newList ((#[] : Array Value) ++ xs)).2, ?_, Nat.lt_irrefl _,
    s.has_newList_self _, s.extends_newList _, ?_⟩
  · simp only [giveList, Except.map, build_ofValues]
  · exact (congrArg Array.toList (Store.items_newList_self ..)).trans (by simp)

/-- The result that is a fresh record, once it is made. -/
theorem giveRecord_makes (s : Store) {r : Record} (h : r.keys.Nodup) :
    ∃ ref t, (giveRecord r).map s.build = .ok (.record ref, t) ∧ ¬s.Has (.record ref) ∧
      s.Extends t ∧
      t.record ref = r := by
  refine ⟨(s.newRecord r).1, (s.newRecord r).2, ?_, Nat.lt_irrefl _, s.extends_newRecord r,
    s.record_newRecord_self r⟩
  simp only [giveRecord, Except.map, build_ofRecord s h]

/-- A call of a standard function. -/
structure Call where
  context : CallContext
  args : RecordRef
  store : Store

namespace Call

/-- The arguments as the function reads them. -/
def given (c : Call) : Arguments := argumentsIn c.context c.args c.store

/-- What the function with a number returns, and the store after the call. -/
def run (c : Call) (id : UInt16) : Except Error (Value × Store) :=
  FunctionTable.standard.call id c.context c.args c.store

/-- The call returns a text. -/
def ReturnsText (c : Call) (id : UInt16) (s : String) : Prop := c.run id = .ok (.string s, c.store)

/-- The call returns a new list of values. -/
def ReturnsList (c : Call) (id : UInt16) (xs : List Value) : Prop :=
  ∃ ref t, c.run id = .ok (.list ref, t) ∧ ¬c.store.Has (.list ref) ∧ c.store.Extends t ∧
    (t.items ref).toList = xs

/-- The call returns a new record with some fields. -/
def ReturnsRecord (c : Call) (id : UInt16) (r : Record) : Prop :=
  ∃ ref t, c.run id = .ok (.record ref, t) ∧ ¬c.store.Has (.record ref) ∧ c.store.Extends t ∧
    t.record ref = r

variable {c : Call} {id : UInt16} {entry : Entry}

theorem run_eq_error (hentry : find? id = some entry) {e : Error}
    (h : entry.run c.given = .error e) : c.run id = .error e :=
  call_eq_of_error hentry h

theorem returnsText_of_give (hentry : find? id = some entry) {s : String}
    (h : entry.run c.given = giveText s) : c.ReturnsText id s :=
  call_eq_of_give hentry h

theorem returnsList_of_give (hentry : find? id = some entry) {xs : List Value}
    (h : entry.run c.given = giveList xs) : c.ReturnsList id xs := by
  obtain ⟨ref, t, hmake, hnew, -, hext, hitems⟩ := giveList_makes c.store xs
  refine ⟨ref, t, ?_, hnew, hext, hitems⟩
  rw [← hmake, ← h]
  exact call_eq_map hentry

theorem returnsRecord_of_give (hentry : find? id = some entry) {r : Record} (hr : r.keys.Nodup)
    (h : entry.run c.given = giveRecord r) : c.ReturnsRecord id r := by
  obtain ⟨ref, t, hmake, hnew, hext, hfields⟩ := giveRecord_makes c.store hr
  refine ⟨ref, t, ?_, hnew, hext, hfields⟩
  rw [← hmake, ← h]
  exact call_eq_map hentry

/-- Calls with a list of their own beside the other arguments. -/
def passing (xs : List Value) (fields : List (String × Value)) : Call where
  context := ⟨"", 0⟩
  args := ⟨0⟩
  store := { lists := #[xs.toArray], records := #[⟨("list", .list ⟨0⟩) :: fields⟩] }

end Call

end TagMachine.Builtin
