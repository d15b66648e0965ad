import TagMachine.Proofs.Store.Trees

set_option autoImplicit false

/-! # Functions in place

A standard function gives the description of its result, or an error and no store. `Procedure.call`
is the same call on a store that is changed in place. Most functions read first and make their
result at the end. Some make an empty list or record first and fill it while they read on; one of
these can meet an error when its record is there already. Everything such a function reads is read
from the store as it is then.

The two agree (`Procedure.call_follows`) if no reference dangles: the container that is being filled
is none of those that the arguments reach. So a call changes nothing that existed, whether it gives
a result or an error, and what the functions on lists and records return is detached from all that
existed (`Store.Detached`): what is put into one is not seen through the other.
-/

namespace TagMachine

/-- A function on a store that is changed in place. -/
abbrev Procedure := EStateM Error Store

namespace Procedure

/-! ## Single accesses -/

def look {α : Type} (f : Store → α) : Procedure α := fun s => .ok (f s) s

/-- Goes on with a result, or meets its error. -/
def lift {α : Type} : Except Error α → Procedure α
  | .ok a => fun s => .ok a s
  | .error e => fun s => .error e s

def newList (items : Array Value) : Procedure ListRef := fun s =>
  .ok (s.newList items).1 (s.newList items).2

def newRecord (r : Record) : Procedure RecordRef := fun s =>
  .ok (s.newRecord r).1 (s.newRecord r).2

def push (ref : ListRef) (v : Value) : Procedure Unit := fun s => .ok () (s.push ref v)

def setField (ref : RecordRef) (key : String) (v : Value) : Procedure Unit := fun s =>
  .ok () (s.setField ref key v)

/-- Makes a value from its description. -/
def build (b : Blueprint) : Procedure Value := fun s => .ok (s.build b).1 (s.build b).2

/-! ## Filling containers -/

def pushAll (result : ListRef) : List Value → Procedure Unit
  | [] => pure ()
  | v :: rest => do
    push result v
    pushAll result rest

/-- Adds values to a list, and the elements of those that are lists in their place. -/
def spill (result : ListRef) : List Value → Procedure Unit
  | [] => pure ()
  | v :: rest => do
    let inner ← look fun s => Builtin.unnest s v
    pushAll result inner
    spill result rest

def setAll (result : RecordRef) : List (String × Value) → Procedure Unit
  | [] => pure ()
  | f :: rest => do
    setField result f.1 f.2
    setAll result rest

/-- The contents of a value that is a record. -/
def contents (s : Store) : Value → Record
  | .record ref => s.record ref
  | _ => .empty

/-- Sets the fields of a record that another has, by their names. -/
def copyFields (source : Value) (result : RecordRef) : List String → Procedure Unit
  | [] => pure ()
  | name :: rest => do
    match ← look fun s => (contents s source).get? name with
    | some v => setField result name v
    | none => pure ()
    copyFields source result rest

/-! ## Functions -/

section Functions

variable (context : CallContext) (args : RecordRef)

/-- The arguments of a call as a store has them. -/
def argumentsIn (s : Store) : Arguments := ⟨s, s.record args, context⟩

/-- Reads the arguments as they are. -/
def arguments : Procedure Arguments := look (argumentsIn context args)

/-- A function that reads its arguments and then makes its result. -/
def consult (function : Builtin) : Procedure Value := do
  let b ← lift (function (← arguments context args))
  build b

def flatten : Procedure Value := do
  let result ← newList #[]
  let items := (← arguments context args).items "list"
  spill result items
  pure (.list result)

def merge : Procedure Value := do
  let merged ← newRecord .empty
  let a ← arguments context args
  setAll merged ((a.fields "a").fields ++ (a.fields "b").fields)
  pure (.record merged)

def pickFields : Procedure Value := do
  let source := (← arguments context args).value "record"
  let picked ← newRecord .empty
  let names ← lift (Builtin.fieldNames "pick" ((← arguments context args).items "fields"))
  copyFields source picked names
  pure (.record picked)

def omitFields : Procedure Value := do
  let names ← lift (Builtin.fieldNames "omit" ((← arguments context args).items "fields"))
  let fields := ((← arguments context args).fields "record").fields
  let kept ← newRecord .empty
  setAll kept (fields.filter fun f => !names.contains f.1)
  pure (.record kept)

/-- A call of a standard function by its number. -/
def call (id : UInt16) : Procedure Value :=
  match Builtin.find? id with
  | none => lift (.error (.unknownFunction id))
  | some entry =>
    if id = 0x34 then flatten context args
    else if id = 0x42 then merge context args
    else if id = 0x43 then pickFields context args
    else if id = 0x44 then omitFields context args
    else consult context args entry.run

end Functions

/-! ## Agreement -/

/-- A call in place goes as one that gives a new store, and changes no container that existed. -/
inductive Follows (s : Store) :
    EStateM.Result Error Store Value → Except Error (Value × Store) → Prop
  | ok {v : Value} {t : Store} (h : s.Extends t) : Follows s (.ok v t) (.ok (v, t))
  | error {e : Error} {t : Store} (h : s.Extends t) : Follows s (.error e t) (.error e)

/-! ### What filling does -/

/-- Filling a list that was just made is making a longer one. -/
theorem pushAll_newList (s : Store) (xs : Array Value) (vs : List Value) :
    pushAll (s.newList xs).1 vs (s.newList xs).2 = .ok () (s.newList (xs ++ vs)).2 := by
  induction vs generalizing xs with
  | nil => simp [pushAll, pure, EStateM.pure]
  | cons v vs ih =>
    show pushAll _ vs ((s.newList xs).2.push _ v) = _
    rw [s.push_newList, Array.appendList_cons]
    exact ih (xs.push v)

theorem setAll_newRecord (s : Store) (r : Record) (fs : List (String × Value)) :
    setAll (s.newRecord r).1 fs (s.newRecord r).2 =
      .ok () (s.newRecord (fs.foldl (fun r f => r.set f.1 f.2) r)).2 := by
  induction fs generalizing r with
  | nil => rfl
  | cons f fs ih =>
    show setAll _ fs ((s.newRecord r).2.setField _ f.1 f.2) = _
    rw [s.setField_newRecord]
    exact ih (r.set f.1 f.2)

section Reads

variable {s t : Store}

/-- The elements of a value that exists do not change when containers are added. -/
theorem unnest_eq (h : s.Extends t) {v : Value} (hv : s.Has v) :
    Builtin.unnest t v = Builtin.unnest s v := by
  cases v with
  | list a => exact congrArg Array.toList (h.lists a hv trivial).2
  | _ => rfl

theorem contents_eq (h : s.Extends t) {v : Value} (hv : s.Has v) : contents t v = contents s v := by
  cases v with
  | record a => exact (h.records a hv trivial).2
  | _ => rfl

/-- The list that is being filled is none of those that are read, since they existed before it. -/
theorem spill_newList (xs : Array Value) {vs : List Value} (hvs : ∀ v ∈ vs, s.Has v) :
    spill (s.newList xs).1 vs (s.newList xs).2 =
      .ok () (s.newList (xs ++ vs.flatMap (Builtin.unnest s))).2 := by
  induction vs generalizing xs with
  | nil => simp [spill, pure, EStateM.pure]
  | cons v vs ih =>
    -- the element is read when others were pushed before it, but what it holds is as it was in `s`
    have hinner := unnest_eq (s.extends_newList xs) (hvs v (List.mem_cons_self ..))
    have hpush := pushAll_newList s xs (Builtin.unnest s v)
    have hrest := ih (xs ++ Builtin.unnest s v) fun w hw => hvs w (List.mem_cons_of_mem _ hw)
    simp only [spill, look, bind, EStateM.bind, hinner, hpush]
    have happend : xs ++ (v :: vs).flatMap (Builtin.unnest s) =
        xs ++ Builtin.unnest s v ++ vs.flatMap (Builtin.unnest s) :=
      Array.toList_inj.1 (by simp)
    rw [happend]
    exact hrest

theorem copyFields_newRecord {source : Value} (hsource : s.Has source) (r : Record)
    (names : List String) :
    copyFields source (s.newRecord r).1 names (s.newRecord r).2 =
      .ok () (s.newRecord ((names.filterMap fun name =>
        ((contents s source).get? name).map (name, ·)).foldl (fun r f => r.set f.1 f.2) r)).2 := by
  induction names generalizing r with
  | nil => rfl
  | cons name names ih =>
    have hcontents := contents_eq (s.extends_newRecord r) hsource
    simp only [copyFields, look, bind, EStateM.bind, hcontents]
    cases hget : (contents s source).get? name with
    | none =>
      rw [List.filterMap_cons_none (by rw [hget]; rfl)]
      exact ih r
    | some v =>
      rw [List.filterMap_cons_some (by rw [hget]; rfl)]
      show copyFields source _ names ((s.newRecord r).2.setField _ name v) = _
      rw [s.setField_newRecord]
      exact ih (r.set name v)

/-- An argument exists. -/
theorem has_value (hs : s.Closed) (context : CallContext) (args : RecordRef) (name : String) :
    s.Has ((argumentsIn context args s).value name) := by
  rcases Store.get_mem_children args name with hmem | hnothing
  · exact hs (.record args) _ hmem
  · rw [show (argumentsIn context args s).value name = .nothing from hnothing]
    trivial

theorem has_items (hs : s.Closed) (context : CallContext) (args : RecordRef) (name : String) :
    ∀ v ∈ (argumentsIn context args s).items name, s.Has v := by
  intro v hv
  unfold Arguments.items at hv
  split at hv
  · exact hs (.list _) v hv
  · cases hv

variable {args : RecordRef}

theorem value_eq (h : s.Extends t) (context : CallContext) (hargs : s.Has (.record args))
    (name : String) :
    (argumentsIn context args t).value name = (argumentsIn context args s).value name :=
  congrArg (Record.get · name) (h.records args hargs trivial).2

theorem items_eq (h : s.Extends t) (hs : s.Closed) (context : CallContext)
    (hargs : s.Has (.record args)) (name : String) :
    (argumentsIn context args t).items name = (argumentsIn context args s).items name := by
  have hhas := has_value hs context args name
  unfold Arguments.items
  rw [value_eq h context hargs]
  split
  · rename_i ref hvalue
    rw [hvalue] at hhas
    exact congrArg Array.toList (h.lists ref hhas trivial).2
  · rfl

theorem fields_eq (h : s.Extends t) (hs : s.Closed) (context : CallContext)
    (hargs : s.Has (.record args)) (name : String) :
    (argumentsIn context args t).fields name = (argumentsIn context args s).fields name := by
  have hvalue := value_eq h context hargs name
  have hcontents := contents_eq h (has_value hs context args name)
  exact (congrArg (contents t) hvalue).trans hcontents

end Reads

/-! ### What descriptions make -/

theorem build_ofValues (s : Store) (xs : List Value) :
    s.build (.ofValues xs) =
      (.list (s.newList #[]).1, (s.newList ((#[] : Array Value) ++ xs)).2) := by
  rw [Blueprint.ofValues, Store.build, Store.buildItems_values]
  rfl

theorem build_ofRecord (s : Store) {r : Record} (h : r.keys.Nodup) :
    s.build (.ofRecord r) = (.record (s.newRecord r).1, (s.newRecord r).2) := by
  rw [Blueprint.ofRecord, Store.build, Store.buildFields_values]
  simp only [Array.toList_appendList, List.nil_append, Record.ofList_fields h]

theorem follows_giveList (s : Store) (xs : List Value) :
    Follows s (.ok (.list (s.newList #[]).1) (s.newList ((#[] : Array Value) ++ xs)).2)
      ((Builtin.giveList xs).map s.build) := by
  simp only [Builtin.giveList, Except.map, build_ofValues]
  exact .ok (s.extends_newList _)

theorem follows_giveRecord (s : Store) (fs : List (String × Value)) :
    Follows s (.ok (.record (s.newRecord .empty).1)
        (s.newRecord (fs.foldl (fun r f => r.set f.1 f.2) .empty)).2)
      ((Builtin.giveRecord (.ofList fs)).map s.build) := by
  rw [Record.foldl_set]
  simp only [Builtin.giveRecord, Except.map, build_ofRecord s (Record.nodup_keys_ofList fs)]
  exact .ok (s.extends_newRecord _)

/-! ### The functions -/

section Functions

variable {s : Store} {context : CallContext} {args : RecordRef}

theorem consult_follows (function : Builtin) :
    Follows s (consult context args function s)
      ((function (argumentsIn context args s)).map s.build) := by
  simp only [consult, arguments, look, bind, EStateM.bind]
  cases function (argumentsIn context args s) with
  | ok b => exact .ok (s.extends_build b)
  | error e => exact .error (.refl _ s)

theorem flatten_follows (hs : s.Closed) (hargs : s.Has (.record args)) :
    Follows s (flatten context args s)
      ((Builtin.flatten (argumentsIn context args s)).map s.build) := by
  have hitems := items_eq (s.extends_newList #[]) hs context hargs "list"
  have hspill := spill_newList #[] (has_items hs context args "list")
  simp only [flatten, newList, arguments, look, bind, EStateM.bind, hitems, hspill]
  exact follows_giveList s _

theorem merge_follows (hs : s.Closed) (hargs : s.Has (.record args)) :
    Follows s (merge context args s)
      ((Builtin.merge (argumentsIn context args s)).map s.build) := by
  have hfields := fields_eq (s.extends_newRecord .empty) hs context hargs
  simp only [merge, newRecord, arguments, look, bind, EStateM.bind, hfields, setAll_newRecord]
  exact follows_giveRecord s _

theorem pickFields_follows (hs : s.Closed) (hargs : s.Has (.record args)) :
    Follows s (pickFields context args s)
      ((Builtin.pickFields (argumentsIn context args s)).map s.build) := by
  have hitems := items_eq (s.extends_newRecord .empty) hs context hargs "fields"
  simp only [pickFields, newRecord, arguments, look, bind, EStateM.bind, hitems]
  rw [Builtin.pickFields]
  cases hnames : Builtin.fieldNames "pick" ((argumentsIn context args s).items "fields") with
  | error e =>
    -- the record that was to be filled is there already, and nothing refers to it
    exact .error (s.extends_newRecord _)
  | ok names =>
    simp only [lift, copyFields_newRecord (has_value hs context args "record")]
    exact follows_giveRecord s _

theorem omitFields_follows :
    Follows s (omitFields context args s)
      ((Builtin.omitFields (argumentsIn context args s)).map s.build) := by
  simp only [omitFields, newRecord, arguments, look, bind, EStateM.bind]
  rw [Builtin.omitFields]
  cases hnames : Builtin.fieldNames "omit" ((argumentsIn context args s).items "fields") with
  | error e => exact .error (.refl _ s)
  | ok names =>
    simp only [lift, setAll_newRecord]
    exact follows_giveRecord s _

/-- A call in place gives what the call of the table gives. -/
theorem call_follows (hs : s.Closed) (hargs : s.Has (.record args)) (id : UInt16) :
    Follows s (call context args id s) (FunctionTable.standard.call id context args s) := by
  unfold call FunctionTable.standard
  dsimp only
  cases hentry : Builtin.find? id with
  | none => exact .error (.refl _ s)
  | some entry =>
    dsimp only
    split_ifs with hflatten hmerge hpick homit
    · subst hflatten
      obtain rfl := Option.some.inj hentry
      exact flatten_follows hs hargs
    · subst hmerge
      obtain rfl := Option.some.inj hentry
      exact merge_follows hs hargs
    · subst hpick
      obtain rfl := Option.some.inj hentry
      exact pickFields_follows hs hargs
    · subst homit
      obtain rfl := Option.some.inj hentry
      exact omitFields_follows
    · exact consult_follows entry.run

end Functions

end Procedure

/-! ## Detached results -/

namespace Store

variable {s t u : Store} {q : Value → Prop} {v : Value}

/-- The stores that another becomes when containers of some sort are changed and others are made. -/
inductive Edits (q : Value → Prop) (s : Store) : Store → Prop
  | refl : Edits q s s
  | push {t : Store} {a : ListRef} {x : Value} (h : Edits q s t) (ha : q (.list a)) :
      Edits q s (t.push a x)
  | setField {t : Store} {a : RecordRef} {key : String} {x : Value} (h : Edits q s t)
      (ha : q (.record a)) : Edits q s (t.setField a key x)
  | newList {t : Store} {xs : Array Value} (h : Edits q s t) : Edits q s (t.newList xs).2
  | newRecord {t : Store} {r : Record} (h : Edits q s t) : Edits q s (t.newRecord r).2

/-- Containers of another sort stay as they are. -/
theorem Edits.sameOn (h : Edits q s t) : SameOn (fun c => ¬q c) s t := by
  induction h with
  | refl => exact .refl _ s
  | @push t a x _ ha ih =>
    exact ih.trans ((sameOn_push t a x).of_imp fun c hc heq => hc (heq ▸ ha))
  | @setField t a key x _ ha ih =>
    exact ih.trans ((sameOn_setField t a key x).of_imp fun c hc heq => hc (heq ▸ ha))
  | @newList t xs _ ih => exact ih.trans ((t.extends_newList xs).of_imp fun _ _ => trivial)
  | @newRecord t r _ ih => exact ih.trans ((t.extends_newRecord r).of_imp fun _ _ => trivial)

theorem extends_of_sameOn_has (h : SameOn s.Has s t) : s.Extends t where
  lists a ha _ := h.lists a ha ha
  records a ha _ := h.records a ha ha

/-- A container was made between two stores, and what is done later with it and with the others is
not seen from one to the other. Its elements may be shared. -/
structure Detached (s t : Store) (v : Value) : Prop where
  container : v.isContainer = true
  new : ¬s.Has v
  made : t.Has v
  /-- As long as only what was made since is changed, all that existed holds what it held and leads
  to nothing that was made. -/
  unseen : ∀ u, t.Edits (fun c => ¬s.Has c) u →
    s.Extends u ∧ ∀ w x, s.Has w → u.Reaches w x → s.Has x
  /-- As long as only other containers are changed, it holds what it held. -/
  steady : ∀ u, t.Edits (· ≠ v) u → SameOn (· = v) t u

theorem Extends.detached (h : s.Extends t) (hs : s.Closed) (hnew : ¬s.Has v) (hmade : t.Has v) :
    s.Detached t v where
  container := by
    cases hv : v.isContainer with
    | true => rfl
    | false => exact absurd (has_of_scalar hv) hnew
  new := hnew
  made := hmade
  unseen u hu := by
    have hsame : SameOn s.Has t u := hu.sameOn.of_imp fun _ hc => not_not_intro hc
    have hext : s.Extends u := extends_of_sameOn_has ((h.of_imp fun _ _ => trivial).trans hsame)
    exact ⟨hext, fun w x hw hr => hext.has_of_reaches hs hr hw⟩
  steady u hu := hu.sameOn.of_imp fun _ hc => not_not_intro hc

end Store

/-- The description of a fresh container. -/
def Blueprint.isFresh : Blueprint → Bool
  | value _ => false
  | list _ | record _ => true

/-- A fresh container is none of those that existed. -/
theorem Store.has_build (s : Store) {b : Blueprint} (h : b.isFresh = true) :
    ¬s.Has (s.build b).1 ∧ (s.build b).2.Has (s.build b).1 := by
  cases b with
  | value v => cases h
  | list items =>
    -- the list is made after what its elements need, so it is newer still
    rw [Store.build]
    have hext := s.kept_extends.buildItems (.refl _ _) items #[]
    refine ⟨fun hhas => ?_, has_newList_self _ _⟩
    have hlater := hext.has hhas
    simp [Has, newList] at hlater
  | record fields =>
    rw [Store.build]
    have hext := s.kept_extends.buildFields (.refl _ _) fields #[]
    refine ⟨fun hhas => ?_, has_newRecord_self _ _⟩
    have hlater := hext.has hhas
    simp [Has, newRecord] at hlater

namespace Builtin

/-- The functions that return a fresh container: `split` and those on lists and records. -/
def makers : List UInt16 :=
  [0x08, 0x30, 0x31, 0x32, 0x33, 0x34, 0x35, 0x36, 0x37, 0x40, 0x41, 0x42, 0x43, 0x44]

/-- A function returns nothing but fresh containers. -/
def Makes (function : Builtin) : Prop := ∀ a b, function a = .ok b → b.isFresh = true

theorem isFresh_giveList {xs : List Value} {b : Blueprint} (h : giveList xs = .ok b) :
    b.isFresh = true := by
  cases h
  rfl

theorem isFresh_giveRecord {r : Record} {b : Blueprint} (h : giveRecord r = .ok b) :
    b.isFresh = true := by
  cases h
  rfl

theorem makes_list (items : Arguments → List Value) : Makes fun a => giveList (items a) :=
  fun _ _ => isFresh_giveList

theorem makes_zip : Makes zip := by
  intro a b h
  cases h
  rfl

theorem makes_range : Makes range := by
  intro a b h
  unfold range at h
  dsimp only at h
  split at h
  · cases h
  · exact isFresh_giveList h

theorem makes_merge : Makes merge := fun _ _ => isFresh_giveRecord

theorem makes_pickFields : Makes pickFields := by
  intro a b h
  obtain ⟨names, -, hgive⟩ := bind_eq_ok.1 h
  exact isFresh_giveRecord hgive

theorem makes_omitFields : Makes omitFields := by
  intro a b h
  obtain ⟨names, -, hgive⟩ := bind_eq_ok.1 h
  exact isFresh_giveRecord hgive

theorem makes_of_mem_makers : ∀ id ∈ makers, ∃ entry, find? id = some entry ∧ Makes entry.run := by
  simp only [makers, List.forall_mem_cons, List.not_mem_nil, false_implies, implies_true, and_true]
  exact ⟨⟨_, rfl, makes_list _⟩, ⟨_, rfl, makes_list _⟩, ⟨_, rfl, makes_list _⟩,
    ⟨_, rfl, makes_list _⟩, ⟨_, rfl, makes_list _⟩, ⟨_, rfl, makes_list _⟩, ⟨_, rfl, makes_zip⟩,
    ⟨_, rfl, makes_range⟩, ⟨_, rfl, makes_list _⟩, ⟨_, rfl, makes_list _⟩, ⟨_, rfl, makes_list _⟩,
    ⟨_, rfl, makes_merge⟩, ⟨_, rfl, makes_pickFields⟩, ⟨_, rfl, makes_omitFields⟩⟩

end Builtin

namespace Procedure

variable {id : UInt16} {context : CallContext} {args : RecordRef} {s t : Store} {v : Value}

theorem detached_of_call (hs : s.Closed) (hid : id ∈ Builtin.makers)
    (h : FunctionTable.standard.call id context args s = .ok (v, t)) : s.Detached t v := by
  obtain ⟨entry, -, b, hentry, hrun, hbuild⟩ := FunctionTable.standard_call_eq_ok h
  obtain ⟨entry', hentry', hmakes⟩ := Builtin.makes_of_mem_makers id hid
  obtain rfl := Option.some.inj (hentry.symm.trans hentry')
  obtain ⟨hnew, hmade⟩ := s.has_build (hmakes _ b hrun)
  have hext := s.extends_build b
  rw [hbuild] at hnew hmade hext
  exact hext.detached hs hnew hmade

/-- No standard function touches its arguments. A call on a store that is changed in place gives the
same result or error as the call of the table, and in either case every list and record that existed
holds what it held, however the arguments share containers. What `split` and the functions on lists
and records return is a new container, detached from all that existed. -/
theorem arguments_untouched (id : UInt16) (context : CallContext) (args : RecordRef) {s : Store}
    (hs : s.Closed) (hargs : s.Has (.record args)) :
    (∀ v t, call context args id s = .ok v t →
      FunctionTable.standard.call id context args s = .ok (v, t) ∧ s.Extends t ∧
        (id ∈ Builtin.makers → s.Detached t v)) ∧
    ∀ e t, call context args id s = .error e t →
      FunctionTable.standard.call id context args s = .error e ∧ s.Extends t := by
  have hfollows : Follows s (call context args id s) _ := call_follows hs hargs id
  constructor
  · intro v t hcall
    rw [hcall] at hfollows
    generalize hstandard : FunctionTable.standard.call id context args s = y at hfollows
    cases hfollows with
    | ok hext => exact ⟨rfl, hext, fun hid => detached_of_call hs hid hstandard⟩
  · intro e t hcall
    rw [hcall] at hfollows
    generalize FunctionTable.standard.call id context args s = y at hfollows
    cases hfollows with
    | error hext => exact ⟨rfl, hext⟩

/-- A list that holds itself, and two records of arguments: the list to be flattened, and a record
whose fields are to be picked by a name that is none. -/
def entangled : Store where
  lists := #[#[.list ⟨0⟩, .integer 1], #[.integer 7]]
  records := #[⟨[("list", .list ⟨0⟩)]⟩, ⟨[("record", .record ⟨0⟩), ("fields", .list ⟨1⟩)]⟩]

/-- The list is flattened into a new one. The record is not picked from, and leaves an empty one
behind. -/
theorem entangled_untouched :
    entangled.Closed ∧ entangled.Has (.record ⟨0⟩) ∧ entangled.Has (.record ⟨1⟩) ∧
      (∃ t, call ⟨"", 0⟩ ⟨0⟩ 0x34 entangled = .ok (.list ⟨2⟩) t ∧
        t.items ⟨2⟩ = #[.list ⟨0⟩, .integer 1, .integer 1] ∧
        entangled.Detached t (.list ⟨2⟩)) ∧
      ∃ e t, call ⟨"", 0⟩ ⟨1⟩ 0x43 entangled = .error e t ∧ t.records.size = 3 ∧
        entangled.Extends t := by
  have hclosed : entangled.Closed := by decide
  have hflatten := arguments_untouched 0x34 ⟨"", 0⟩ ⟨0⟩ hclosed (by decide)
  have hpick := arguments_untouched 0x43 ⟨"", 0⟩ ⟨1⟩ hclosed (by decide)
  exact ⟨hclosed, by decide, by decide, ⟨_, rfl, rfl, (hflatten.1 _ _ rfl).2.2 (by decide)⟩,
    ⟨_, _, rfl, rfl, (hpick.2 _ _ rfl).2⟩⟩

end Procedure

end TagMachine
