import TagMachine.Value.Record

set_option autoImplicit false

/-! # Stores

A store holds the lists and records that values refer to. Objects are added and changed, never
removed, so a reference stays good. A reference that the store does not know reads as empty.
-/

namespace TagMachine

/-- The lists and records that values refer to. -/
structure Store where
  lists : Array (Array Value) := #[]
  records : Array Record := #[]
deriving Inhabited

namespace Store

/-- The elements of a list. -/
def items (s : Store) (ref : ListRef) : Array Value := s.lists.getD ref.index #[]

/-- The contents of a record. -/
def record (s : Store) (ref : RecordRef) : Record := s.records.getD ref.index Record.empty

def newList (s : Store) (items : Array Value) : ListRef × Store :=
  (⟨s.lists.size⟩, { s with lists := s.lists.push items })

def newRecord (s : Store) (r : Record) : RecordRef × Store :=
  (⟨s.records.size⟩, { s with records := s.records.push r })

/-- The store after an element was added to the end of a list. -/
def push (s : Store) (ref : ListRef) (v : Value) : Store :=
  { s with lists := s.lists.modify ref.index (·.push v) }

def setField (s : Store) (ref : RecordRef) (key : String) (v : Value) : Store :=
  { s with records := s.records.modify ref.index (·.set key v) }

/-- The element of a list at an index, or nothing when there is none. -/
def itemAt (s : Store) (ref : ListRef) (index : Int64) : Value :=
  if index < 0 then .nothing else (s.items ref)[index.toInt.toNat]?.getD .nothing

/-- The number of containers. No chain of distinct containers, each inside the one before, is
longer. -/
def size (s : Store) : Nat := s.lists.size + s.records.size

end Store

end TagMachine
