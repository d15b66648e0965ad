import TagMachine.Proofs.Flow.Operations

set_option autoImplicit false

/-! # Standard functions do not see references

A standard function reads what its arguments hold and puts values of theirs into fresh containers.
It cannot tell one reference from another: called with related arguments in two stores whose
containers match, it meets the same error or describes related results
(`Builtin.gives_of_mem_entries`). The pairing need not be one to one.

So every value in the result of a function is one that its arguments reach, or a scalar; and results
in matching stores are matched again, one to one if the stores were
(`FunctionTable.uniform_standard`).
-/

namespace TagMachine

namespace Pairing

variable {β : Pairing}

/-! ## Related descriptions -/

mutual

/-- Two descriptions have the same shape and related values at their leaves. -/
inductive Draws (β : Pairing) : Blueprint → Blueprint → Prop
  | value {v w : Value} (h : β.Rel v w) : Draws β (.value v) (.value w)
  | list {bs cs : List Blueprint} (h : DrawsItems β bs cs) : Draws β (.list bs) (.list cs)
  | record {fs gs : List (String × Blueprint)} (h : DrawsFields β fs gs) :
      Draws β (.record fs) (.record gs)

inductive DrawsItems (β : Pairing) : List Blueprint → List Blueprint → Prop
  | nil : DrawsItems β [] []
  | cons {b c : Blueprint} {bs cs : List Blueprint} (h : Draws β b c) (rest : DrawsItems β bs cs) :
      DrawsItems β (b :: bs) (c :: cs)

inductive DrawsFields (β : Pairing) :
    List (String × Blueprint) → List (String × Blueprint) → Prop
  | nil : DrawsFields β [] []
  | cons {key : String} {b c : Blueprint} {fs gs : List (String × Blueprint)} (h : Draws β b c)
      (rest : DrawsFields β fs gs) : DrawsFields β ((key, b) :: fs) ((key, c) :: gs)

end

theorem drawsItems_of_forall₂ {bs cs : List Blueprint} (h : List.Forall₂ β.Draws bs cs) :
    β.DrawsItems bs cs := by
  induction h with
  | nil => exact .nil
  | cons hbc _ ih => exact .cons hbc ih

theorem draws_ofValues {xs ys : List Value} (h : List.Forall₂ β.Rel xs ys) :
    β.Draws (.ofValues xs) (.ofValues ys) := by
  refine .list (drawsItems_of_forall₂ ?_)
  induction h with
  | nil => exact .nil
  | cons hvw _ ih => exact .cons (.value hvw) ih

theorem draws_ofRecord {r r' : Record} (h : List.Forall₂ β.FieldRel r.fields r'.fields) :
    β.Draws (.ofRecord r) (.ofRecord r') := by
  refine .record ?_
  generalize r.fields = fs, r'.fields = gs at h
  induction h with
  | nil => exact .nil
  | @cons f g fs gs hfg _ ih =>
    obtain ⟨key, v⟩ := f
    obtain ⟨key', w⟩ := g
    obtain ⟨rfl, hvw⟩ : key = key' ∧ β.Rel v w := hfg
    exact .cons (.value hvw) ih

mutual

/-- The description of a tree has scalars at its leaves. -/
theorem draws_blueprint : (d : Datum) → β.Draws d.blueprint d.blueprint
  | .string _ | .integer _ | .float _ | .boolean _ | .nothing => by
    unfold Datum.blueprint
    exact .value (.scalar rfl)
  | .list items => by
    unfold Datum.blueprint
    exact .list (drawsItems_blueprints items)
  | .record fields => by
    unfold Datum.blueprint
    exact .record (drawsFields_blueprints fields)

theorem drawsItems_blueprints : (ds : List Datum) →
    β.DrawsItems (Datum.blueprints ds) (Datum.blueprints ds)
  | [] => by
    unfold Datum.blueprints
    exact .nil
  | d :: ds => by
    unfold Datum.blueprints
    exact .cons (draws_blueprint d) (drawsItems_blueprints ds)

theorem drawsFields_blueprints : (fs : List (String × Datum)) →
    β.DrawsFields (Datum.fieldBlueprints fs) (Datum.fieldBlueprints fs)
  | [] => by
    unfold Datum.fieldBlueprints
    exact .nil
  | (key, d) :: fs => by
    unfold Datum.fieldBlueprints
    exact .cons (draws_blueprint d) (drawsFields_blueprints fs)

end

/-- Two calls meet the same error, or describe related results. -/
inductive Gives (β : Pairing) : Except Error Blueprint → Except Error Blueprint → Prop
  | ok {b c : Blueprint} (h : β.Draws b c) : Gives β (.ok b) (.ok c)
  | error (e : Error) : Gives β (.error e) (.error e)

namespace Gives

theorem value {v w : Value} (h : β.Rel v w) : β.Gives (Builtin.give v) (Builtin.give w) :=
  .ok (.value h)

theorem scalar {v w : Value} (hvw : v = w) (hv : v.isContainer = false) :
    β.Gives (Builtin.give v) (Builtin.give w) := hvw ▸ .value (.scalar hv)

theorem text {s t : String} (h : s = t) : β.Gives (Builtin.giveText s) (Builtin.giveText t) :=
  .scalar (congrArg _ h) rfl

theorem chars {cs ds : List Char} (h : cs = ds) :
    β.Gives (Builtin.giveChars cs) (Builtin.giveChars ds) := .text (congrArg _ h)

theorem bool {x y : Bool} (h : x = y) : β.Gives (Builtin.giveBool x) (Builtin.giveBool y) :=
  .scalar (congrArg _ h) rfl

theorem int {m n : Int64} (h : m = n) : β.Gives (Builtin.giveInt m) (Builtin.giveInt n) :=
  .scalar (congrArg _ h) rfl

theorem list {xs ys : List Value} (h : List.Forall₂ β.Rel xs ys) :
    β.Gives (Builtin.giveList xs) (Builtin.giveList ys) := .ok (draws_ofValues h)

theorem record {r r' : Record} (h : List.Forall₂ β.FieldRel r.fields r'.fields) :
    β.Gives (Builtin.giveRecord r) (Builtin.giveRecord r') := .ok (draws_ofRecord h)

/-- Computations that start alike. -/
theorem bind {α : Type} {x : Except Error α} {f g : α → Except Error Blueprint}
    (h : ∀ a, β.Gives (f a) (g a)) : β.Gives (x >>= f) (x >>= g) := by
  cases x with
  | error e => exact .error e
  | ok a => exact h a

end Gives

/-! ## Lists of related values -/

variable {xs ys : List Value} {fs gs : List (String × Value)}

/-- Lists of scalars are related to themselves. -/
theorem forall₂_scalars (h : ∀ v ∈ xs, v.isContainer = false) : List.Forall₂ β.Rel xs xs :=
  List.forall₂_same.2 fun v hv => .scalar (h v hv)

/-- Sorting keeps lists related when the orders agree. -/
theorem forall₂_mergeSort {α α' : Type} {R : α → α' → Prop} {le : α → α → Bool}
    {le' : α' → α' → Bool} {as : List α} {bs : List α'} (h : List.Forall₂ R as bs)
    (hle : ∀ a b a' b', R a a' → R b b' → le a b = le' a' b') :
    List.Forall₂ R (as.mergeSort le) (bs.mergeSort le') := by
  -- the pairs of related elements are sorted, and both lists are read off
  have hlength := h.length_eq
  have hzip : ∀ p ∈ as.zip bs, R p.1 p.2 := fun p hp => List.forall₂_zip h hp
  have hfst : ((as.zip bs).mergeSort fun p q => le p.1 q.1).map Prod.fst = as.mergeSort le := by
    rw [List.map_mergeSort (s := le) fun _ _ _ _ => rfl, List.map_fst_zip hlength.le]
  have hsnd : ((as.zip bs).mergeSort fun p q => le p.1 q.1).map Prod.snd = bs.mergeSort le' := by
    rw [List.map_mergeSort (s := le') fun p hp q hq => hle _ _ _ _ (hzip p hp) (hzip q hq),
      List.map_snd_zip hlength.ge]
  rw [← hfst, ← hsnd, List.forall₂_map_left_iff, List.forall₂_map_right_iff]
  exact List.forall₂_same.2 fun p hp => hzip p (List.mem_mergeSort.1 hp)

theorem values_rel (h : List.Forall₂ β.FieldRel fs gs) :
    List.Forall₂ β.Rel (fs.map Prod.snd) (gs.map Prod.snd) := by
  rw [List.forall₂_map_left_iff, List.forall₂_map_right_iff]
  exact h.imp fun _ _ hfg => hfg.2

theorem keys_eq (h : List.Forall₂ β.FieldRel fs gs) : fs.map Prod.fst = gs.map Prod.fst := by
  induction h with
  | nil => rfl
  | cons hfg _ ih => rw [List.map_cons, List.map_cons, hfg.1, ih]

theorem foldl_setField_rel {acc acc' : List (String × Value)} (h : List.Forall₂ β.FieldRel fs gs)
    (hacc : List.Forall₂ β.FieldRel acc acc') :
    List.Forall₂ β.FieldRel (fs.foldl (fun acc f => setField f.1 f.2 acc) acc)
      (gs.foldl (fun acc f => setField f.1 f.2 acc) acc') := by
  induction h generalizing acc acc' with
  | nil => exact hacc
  | @cons f g fs gs hfg _ ih =>
    rw [List.foldl_cons, List.foldl_cons, hfg.1]
    exact ih (setField_rel hacc _ hfg.2)

theorem ofList_rel (h : List.Forall₂ β.FieldRel fs gs) :
    List.Forall₂ β.FieldRel (Record.ofList fs).fields (Record.ofList gs).fields :=
  foldl_setField_rel h .nil

end Pairing

/-! ## Related arguments -/

/-- The arguments of two calls are related. -/
structure Arguments.Alike (β : Pairing) (a a' : Arguments) : Prop where
  stores : β.Matches a.store a'.store
  record : List.Forall₂ β.FieldRel a.record.fields a'.record.fields
  context : a.context = a'.context

namespace Arguments.Alike

variable {β : Pairing} {a a' : Arguments}

theorem value_rel (h : Alike β a a') (name : String) : β.Rel (a.value name) (a'.value name) :=
  Pairing.get_rel h.record name

theorem text_eq (h : Alike β a a') (name : String) : a.text name = a'.text name := by
  unfold text
  have hrel := h.value_rel name
  have htext := h.stores.text_eq hrel
  generalize a.value name = v, a'.value name = w at hrel htext
  cases hrel with
  | scalar hv => cases v <;> first | rfl | exact htext
  | list | record => exact htext

theorem chars_eq (h : Alike β a a') (name : String) : a.chars name = a'.chars name := by
  unfold chars
  rw [h.text_eq]

theorem textOr_eq (h : Alike β a a') (name other : String) :
    a.textOr name other = a'.textOr name other := by
  unfold textOr
  rw [h.text_eq, h.text_eq]

theorem integer_eq (h : Alike β a a') (name : String) : a.integer name = a'.integer name := by
  unfold integer
  have hrel := h.value_rel name
  generalize a.value name = v, a'.value name = w at hrel
  cases hrel <;> rfl

theorem numberOrZero_eq {v w : Value} (h : β.Rel v w) : v.numberOrZero = w.numberOrZero := by
  cases h <;> rfl

theorem number_eq (h : Alike β a a') (name : String) : a.number name = a'.number name :=
  numberOrZero_eq (h.value_rel name)

theorem isNothing_eq (h : Alike β a a') (name : String) :
    (a.value name).isNothing = (a'.value name).isNothing := by
  have hrel := h.value_rel name
  generalize a.value name = v, a'.value name = w at hrel
  cases hrel <;> rfl

theorem items_rel (h : Alike β a a') (name : String) :
    List.Forall₂ β.Rel (a.items name) (a'.items name) := by
  unfold items
  have hrel := h.value_rel name
  generalize a.value name = v, a'.value name = w at hrel
  cases hrel with
  | scalar hv => cases v <;> first | exact .nil | cases hv
  | list hab => exact h.stores.items hab
  | record => exact .nil

theorem fields_rel (h : Alike β a a') (name : String) :
    List.Forall₂ β.FieldRel (a.fields name).fields (a'.fields name).fields := by
  unfold fields
  have hrel := h.value_rel name
  generalize a.value name = v, a'.value name = w at hrel
  cases hrel with
  | scalar hv => cases v <;> first | exact .nil | cases hv
  | list => exact .nil
  | record hab => exact h.stores.fields hab

theorem bytes_eq (h : Alike β a a') (name : String) :
    Builtin.bytes a name = Builtin.bytes a' name := by
  unfold Builtin.bytes
  rw [h.text_eq]

end Arguments.Alike

/-! ## The functions -/

namespace Builtin

variable {β : Pairing} {a a' : Arguments}

theorem inKindOf_rel {v w : Value} (hvw : β.Rel v w) (x : Binary64) :
    β.Rel (inKindOf v x) (inKindOf w x) := by
  cases hvw with
  | scalar => cases v <;> exact .scalar rfl
  | list | record => exact .scalar rfl

theorem combine_rel (op : ArithmeticOp) {v w x y : Value} (hvw : β.Rel v w) (hxy : β.Rel x y) :
    β.Rel (combine op v x) (combine op w y) := by
  have hcombine : combine op v x = combine op w y := by
    cases hvw with
    | scalar =>
      cases hxy with
      | scalar => rfl
      | list | record => cases v <;> rfl
    | list | record => cases hxy <;> rfl
  rw [hcombine]
  refine .scalar ?_
  cases w <;> cases y <;> rfl

theorem foldl_combine_rel (op : ArithmeticOp) {v w : Value} {xs ys : List Value}
    (hvw : β.Rel v w) (hxs : List.Forall₂ β.Rel xs ys) :
    β.Rel (xs.foldl (combine op) v) (ys.foldl (combine op) w) := by
  induction hxs generalizing v w with
  | nil => exact hvw
  | cons hxy _ ih => exact ih (combine_rel op hvw hxy)

theorem sortOrder_eq {v w x y : Value} (hvw : β.Rel v w) (hxy : β.Rel x y) :
    sortOrder v x = sortOrder w y := by
  cases hvw with
  | scalar =>
    cases hxy with
    | scalar => rfl
    | list | record => cases v <;> rfl
  | list | record => cases hxy <;> rfl

/-- Sorting by keys that related elements have related. -/
theorem sortOn_rel {key key' : Value → Value} {xs ys : List Value}
    (hkey : ∀ v w, β.Rel v w → β.Rel (key v) (key' w)) (hxs : List.Forall₂ β.Rel xs ys) :
    List.Forall₂ β.Rel (sortOn key xs) (sortOn key' ys) := by
  refine Pairing.forall₂_mergeSort hxs fun v x w y hvw hxy => ?_
  rw [sortOrder_eq (hkey v w hvw) (hkey x y hxy)]

theorem firstsBy_rel {key key' : Value → String} {xs ys : List Value}
    (hkey : ∀ v w, β.Rel v w → key v = key' w) (hxs : List.Forall₂ β.Rel xs ys)
    (seen : List String) : List.Forall₂ β.Rel (firstsBy key seen xs) (firstsBy key' seen ys) := by
  induction hxs generalizing seen with
  | nil => exact .nil
  | cons hvw _ ih =>
    unfold firstsBy
    rw [hkey _ _ hvw]
    split
    · exact ih seen
    · exact .cons hvw (ih _)

theorem fieldNames_eq (function : String) {xs ys : List Value} (hxs : List.Forall₂ β.Rel xs ys) :
    fieldNames function xs = fieldNames function ys := by
  unfold fieldNames
  induction hxs with
  | nil => rfl
  | @cons v w xs ys hvw _ ih =>
    rw [List.mapM_cons, List.mapM_cons, ih]
    cases hvw <;> rfl

section Gives

variable (h : a.Alike β a')

include h

theorem gives_substring : β.Gives (substring a) (substring a') := by
  unfold substring
  rw [h.integer_eq, h.integer_eq, h.chars_eq]
  dsimp only
  split
  · exact .text rfl
  · exact .chars rfl

theorem gives_split : β.Gives (split a) (split a') := by
  unfold split
  rw [h.chars_eq, h.chars_eq]
  refine .list (Pairing.forall₂_scalars fun v hv => ?_)
  obtain ⟨piece, -, rfl⟩ := List.mem_map.1 hv
  rfl

theorem gives_join : β.Gives (join a) (join a') := by
  refine .text ?_
  have htexts : (a.items "list").map a.store.text = (a'.items "list").map a'.store.text := by
    have hitems := h.items_rel "list"
    generalize a.items "list" = xs, a'.items "list" = ys at hitems
    induction hitems with
    | nil => rfl
    | cons hvw _ ih => rw [List.map_cons, List.map_cons, h.stores.text_eq hvw, ih]
  rw [h.text_eq, htexts]

theorem gives_contains : β.Gives (contains a) (contains a') := by
  unfold contains
  have hpart : β.Rel (if (a.value "substring").isNothing then a.value "search"
      else a.value "substring") (if (a'.value "substring").isNothing then a'.value "search"
      else a'.value "substring") := by
    rw [h.isNothing_eq]
    split
    · exact h.value_rel _
    · exact h.value_rel _
  dsimp only
  generalize (if (a.value "substring").isNothing then a.value "search"
      else a.value "substring") = v, (if (a'.value "substring").isNothing then a'.value "search"
      else a'.value "substring") = w at hpart
  rw [h.chars_eq]
  cases hpart with
  | scalar => cases v <;> first | exact .error _ | exact .bool rfl
  | list | record => exact .error _

theorem gives_length : β.Gives (length a) (length a') := by
  unfold length
  have hrel := h.value_rel "list"
  generalize a.value "list" = v, a'.value "list" = w at hrel
  rw [h.chars_eq]
  refine .int ?_
  cases hrel with
  | list hab =>
    have hsize := (h.stores.items hab).length_eq
    rw [Array.length_toList, Array.length_toList] at hsize
    dsimp only
    rw [hsize]
  | scalar hv => cases v <;> first | rfl | cases hv
  | record => rfl

theorem gives_pad (left : Bool) : β.Gives (pad left a) (pad left a') :=
  .chars (by rw [fill, fill, h.integer_eq, h.chars_eq, h.chars_eq])

theorem gives_regexMatch (engine : Pattern.Engine) :
    β.Gives (regexMatch engine a) (regexMatch engine a') := by
  unfold regexMatch
  rw [h.text_eq, h.text_eq]
  dsimp only
  split
  · exact .bool rfl
  · exact .error _

theorem gives_regexReplace (engine : Pattern.Engine) :
    β.Gives (regexReplace engine a) (regexReplace engine a') := by
  unfold regexReplace
  rw [h.text_eq, h.text_eq, h.text_eq]
  dsimp only
  split
  · exact .text rfl
  · exact .error _

theorem gives_abs : β.Gives (abs a) (abs a') := by
  unfold abs
  have hrel := h.value_rel "value"
  generalize a.value "value" = v, a'.value "value" = w at hrel
  cases hrel with
  | scalar => cases v <;> first | exact .int rfl | exact .scalar rfl rfl | exact .error _
  | list | record => exact .error _

/-- The smaller and the larger of two values are one of them. -/
theorem gives_min_max :
    β.Gives (Builtin.min a) (Builtin.min a') ∧ β.Gives (Builtin.max a) (Builtin.max a') := by
  unfold Builtin.min Builtin.max
  dsimp only
  rw [Arguments.Alike.numberOrZero_eq (h.value_rel "a"),
    Arguments.Alike.numberOrZero_eq (h.value_rel "b")]
  constructor <;> split <;> exact .value (h.value_rel _)

theorem bound_eq (name other : String) : bound a name other = bound a' name other := by
  unfold bound
  rw [h.isNothing_eq, h.number_eq, h.number_eq]

theorem gives_clamp : β.Gives (clamp a) (clamp a') := by
  unfold clamp
  dsimp only
  have hrel := h.value_rel "value"
  rw [bound_eq h, bound_eq h, Arguments.Alike.numberOrZero_eq hrel]
  refine .value ?_
  split
  · exact inKindOf_rel hrel _
  · split
    · exact inKindOf_rel hrel _
    · exact hrel

theorem gives_fold : β.Gives (fold a) (fold a') := by
  unfold fold
  rw [h.text_eq]
  dsimp only
  split
  · exact .value (foldl_combine_rel _ (h.value_rel _) (h.items_rel _))
  · exact .value (foldl_combine_rel _ (h.value_rel _) (h.items_rel _))
  · exact .error _

theorem fieldOf_rel (name : String) {v w : Value} (hvw : β.Rel v w) :
    β.Rel (fieldOf a.store name v) (fieldOf a'.store name w) := by
  cases hvw with
  | scalar hv => cases v <;> first | exact .scalar rfl | cases hv
  | list => exact .scalar rfl
  | record hab => exact Pairing.get_rel (h.stores.fields hab) name

theorem gives_sortBy : β.Gives (sortBy a) (sortBy a') := by
  unfold sortBy
  rw [h.text_eq]
  exact .list (sortOn_rel (fun _ _ hvw => fieldOf_rel h _ hvw) (h.items_rel _))

theorem unnest_rel {v w : Value} (hvw : β.Rel v w) :
    List.Forall₂ β.Rel (unnest a.store v) (unnest a'.store w) := by
  cases hvw with
  | scalar hv => cases v <;> first | exact .cons (.scalar rfl) .nil | cases hv
  | list hab => exact h.stores.items hab
  | record hab => exact .cons (.record hab) .nil

theorem gives_zip : β.Gives (zip a) (zip a') := by
  refine .ok (.list (Pairing.drawsItems_of_forall₂ ?_))
  have hfirst := h.items_rel "a"
  have hsecond := h.items_rel "b"
  generalize a.items "a" = xs, a'.items "a" = ys at hfirst
  generalize a.items "b" = xs', a'.items "b" = ys' at hsecond
  induction hfirst generalizing xs' ys' with
  | nil => exact .nil
  | cons hvw _ ih =>
    cases hsecond with
    | nil => exact .nil
    | cons hvw' hrest =>
      exact .cons (.record (.cons (.value hvw) (.cons (.value hvw') .nil))) (ih _ _ hrest)

theorem gives_range : β.Gives (range a) (range a') := by
  unfold range
  rw [h.integer_eq, h.integer_eq]
  dsimp only
  split
  · exact .error _
  · refine .list (Pairing.forall₂_scalars fun v hv => ?_)
    obtain ⟨k, -, rfl⟩ := List.mem_map.1 hv
    rfl

theorem gives_slice : β.Gives (slice a) (slice a') := by
  have hitems := h.items_rel "list"
  unfold slice
  dsimp only
  rw [h.integer_eq, h.integer_eq, hitems.length_eq]
  refine .list ?_
  split
  · exact List.forall₂_take _ (List.forall₂_drop _ hitems)
  · exact .nil

theorem gives_keys : β.Gives (keys a) (keys a') := by
  unfold keys Record.keys
  rw [Pairing.keys_eq (h.fields_rel _)]
  refine .list (Pairing.forall₂_scalars fun v hv => ?_)
  obtain ⟨key, -, rfl⟩ := List.mem_map.1 hv
  rfl

theorem gives_pickFields : β.Gives (pickFields a) (pickFields a') := by
  unfold pickFields
  rw [fieldNames_eq "pick" (h.items_rel _)]
  refine .bind fun names => .record (Pairing.ofList_rel ?_)
  have hfields := h.fields_rel "record"
  induction names with
  | nil => exact .nil
  | cons name names ih =>
    have hlookup := Pairing.lookup_rel hfields name
    rw [List.filterMap_cons, List.filterMap_cons]
    unfold Record.get? at ih ⊢
    generalize (a.fields "record").fields.lookup name = x,
      (a'.fields "record").fields.lookup name = y at hlookup
    cases hlookup with
    | none => exact ih
    | some hvw => exact .cons ⟨rfl, hvw⟩ ih

theorem gives_omitFields : β.Gives (omitFields a) (omitFields a') := by
  unfold omitFields
  rw [fieldNames_eq "omit" (h.items_rel _)]
  refine .bind fun names => .record (Pairing.ofList_rel ?_)
  refine List.rel_filter (fun f g hfg => ?_) (h.fields_rel _)
  dsimp only
  rw [hfg.1]

theorem gives_parseDate : β.Gives (parseDate a) (parseDate a') := by
  unfold parseDate
  rw [h.text_eq, h.text_eq]
  dsimp only
  split
  · refine .record (List.forall₂_same.2 fun f hf => ⟨rfl, ?_⟩)
    obtain ⟨p, -, rfl⟩ := List.mem_map.1 hf
    exact .scalar rfl
  · exact .error _

theorem datePart_eq (name part : String) :
    datePart (a.fields name) part = datePart (a'.fields name) part := by
  unfold datePart
  have hrel := Pairing.get_rel (h.fields_rel name) part
  generalize (a.fields name).get part = v, (a'.fields name).get part = w at hrel
  cases hrel <;> rfl

theorem gives_formatDate : β.Gives (formatDate a) (formatDate a') := by
  unfold formatDate
  have hparts : ofDateParts? (a.fields "date") = ofDateParts? (a'.fields "date") := by
    simp only [ofDateParts?, yearPart?, unsignedPart?, datePart_eq h]
  rw [h.text_eq, hparts]
  dsimp only
  split
  · exact .error _
  · split
    · exact .text rfl
    · exact .error _

theorem gives_dateDiff : β.Gives (dateDiff a) (dateDiff a') := by
  unfold dateDiff
  rw [h.textOr_eq, h.textOr_eq, h.text_eq]
  refine .bind fun start => .bind fun stop => ?_
  dsimp only
  split
  · exact .int rfl
  · exact .error _

theorem gives_dateAdd : β.Gives (dateAdd a) (dateAdd a') := by
  unfold dateAdd
  rw [h.text_eq, h.text_eq, h.integer_eq]
  dsimp only
  refine .bind fun t => ?_
  split
  · exact .error _
  · exact .error _
  · exact .text rfl

theorem gives_base64Decode : β.Gives (base64Decode a) (base64Decode a') := by
  unfold base64Decode
  rw [h.bytes_eq]
  split
  · exact .text rfl
  · exact .error _

theorem gives_jsonEncode : β.Gives (jsonEncode a) (jsonEncode a') :=
  .text (by rw [Store.jsonText, Store.jsonText, h.stores.datum?_eq (h.value_rel "value")])

theorem gives_jsonParse : β.Gives (jsonParse a) (jsonParse a') := by
  unfold jsonParse
  rw [h.text_eq]
  dsimp only
  split
  · exact .scalar rfl rfl
  · split
    · exact .ok (Pairing.draws_blueprint _)
    · exact .error _

theorem gives_toFloat : β.Gives (toFloat a) (toFloat a') := by
  unfold toFloat
  rw [(h.value_rel "value").toFloat_eq]
  cases (a'.value "value").toFloat with
  | error e => exact .error e
  | ok x => exact .ok (.value (.scalar rfl))

theorem gives_toInteger : β.Gives (toInteger a) (toInteger a') := by
  unfold toInteger
  have hrel := h.value_rel "value"
  have hint := hrel.toInteger_eq
  generalize a.value "value" = v, a'.value "value" = w at hrel hint
  have hmap : β.Gives (v.toInteger.map fun n => .value (.integer n))
      (w.toInteger.map fun n => .value (.integer n)) := by
    rw [hint]
    cases w.toInteger with
    | error e => exact .error e
    | ok n => exact .ok (.value (.scalar rfl))
  cases hrel with
  | scalar => cases v <;> first | exact hmap | exact .error _
  | list | record => exact hmap

end Gives

/-- Every standard function gives related results for related arguments. -/
theorem gives_of_mem_entries (h : a.Alike β a') : ∀ e ∈ entries, β.Gives (e.run a) (e.run a') := by
  simp only [entries, List.forall_mem_cons, List.not_mem_nil, false_implies, implies_true, and_true]
  -- those that stand for no function above only look at texts, numbers or elements
  exact ⟨.text (by rw [h.text_eq]), .text (by rw [h.text_eq]), .text (by rw [h.text_eq]),
    .text (by rw [h.text_eq]), .text (by rw [h.text_eq]), gives_substring h,
    .chars (by rw [h.chars_eq, h.chars_eq, h.chars_eq]), gives_split h, gives_join h,
    .bool (by rw [h.chars_eq, h.chars_eq]), .bool (by rw [h.chars_eq, h.chars_eq]),
    gives_contains h, gives_length h, gives_pad h true, gives_pad h false, gives_regexMatch h _,
    gives_regexReplace h _, gives_abs h, .int (by rw [h.number_eq]), .int (by rw [h.number_eq]),
    .int (by rw [h.number_eq]), (gives_min_max h).1, (gives_min_max h).2, gives_clamp h,
    .list (sortOn_rel (fun _ _ hvw => hvw) (h.items_rel _)), gives_sortBy h,
    .list (List.forall₂_reverse_iff.2 (h.items_rel _)),
    .list (firstsBy_rel (fun _ _ hvw => h.stores.text_eq hvw) (h.items_rel _) []),
    .list (List.rel_flatMap (h.items_rel _) fun _ _ hvw => unnest_rel h hvw), gives_zip h,
    gives_range h, gives_slice h, gives_keys h, .list (Pairing.values_rel (h.fields_rel _)),
    .record (Pairing.ofList_rel (List.rel_append (h.fields_rel _) (h.fields_rel _))),
    gives_pickFields h, gives_omitFields h, gives_parseDate h, gives_formatDate h, gives_dateDiff h,
    gives_dateAdd h, .text (by rw [h.context]), .text (by rw [h.bytes_eq]), gives_base64Decode h,
    .text (by rw [h.text_eq]), .text (by rw [h.text_eq]), gives_jsonEncode h, gives_jsonParse h,
    .text (by rw [h.bytes_eq]), .text (by rw [h.bytes_eq, h.bytes_eq]), .text (by rw [h.context]),
    .text (h.stores.text_eq (h.value_rel _)), gives_toFloat h, gives_toInteger h, gives_fold h⟩

end Builtin

/-! ## What functions return exists -/

namespace Store

variable {β : Pairing} {s t : Store} {P : Value → Prop}

/-- The containers of a store that are of some sort, each paired with itself. -/
def diagonal (s : Store) (P : Value → Prop) : Pairing where
  lists a b := a = b ∧ a.index < s.lists.size ∧ P (.list a)
  records a b := a = b ∧ a.index < s.records.size ∧ P (.record a)

theorem Sealed.diagonal_rel (h : s.Sealed P) {v w : Value} :
    (s.diagonal P).Rel v w ↔ v = w ∧ s.Has v ∧ P v := by
  constructor
  · rintro (hv | ⟨rfl, ha⟩ | ⟨rfl, ha⟩)
    · exact ⟨rfl, has_of_scalar hv, h.scalar hv⟩
    · exact ⟨rfl, ha⟩
    · exact ⟨rfl, ha⟩
  · rintro ⟨rfl, hv⟩
    cases v with
    | list a => exact .list ⟨rfl, hv⟩
    | record a => exact .record ⟨rfl, hv⟩
    | _ => exact .scalar rfl

/-- A store without dangling references matches every store that extends it. -/
theorem Closed.diagonal_matches (h : s.Closed) (hP : s.Sealed P) (hext : s.Extends t) :
    (s.diagonal P).Matches s t where
  list_lt := by
    rintro a _ ⟨rfl, ha, -⟩
    exact ⟨ha, (hext.lists a ha trivial).1⟩
  record_lt := by
    rintro a _ ⟨rfl, ha, -⟩
    exact ⟨ha, (hext.records a ha trivial).1⟩
  items := by
    rintro a _ ⟨rfl, ha, hPa⟩
    rw [(hext.lists a ha trivial).2]
    exact List.forall₂_same.2 fun v hv => hP.diagonal_rel.2
      ⟨rfl, h (.list a) v hv, hP.children hPa hv⟩
  fields := by
    rintro a _ ⟨rfl, ha, hPa⟩
    rw [(hext.records a ha trivial).2]
    refine List.forall₂_same.2 fun f hf => ⟨rfl, ?_⟩
    have hmem : f.2 ∈ s.children (.record a) := List.mem_map_of_mem hf
    exact hP.diagonal_rel.2 ⟨rfl, h _ _ hmem, hP.children hPa hmem⟩

/-! ### Building in two stores -/

/-- A property of two stores and a pairing lasts, with a greater pairing, when a list of related
values or a record with related fields is added to both. -/
structure Lasts (I : Store → Store → Pairing → Prop) : Prop where
  list : ∀ {s t β} {xs ys : Array Value}, I s t β → List.Forall₂ β.Rel xs.toList ys.toList →
    ∃ γ, β ≤ γ ∧ I (s.newList xs).2 (t.newList ys).2 γ ∧ γ.lists (s.newList xs).1 (t.newList ys).1
  record : ∀ {s t β} {r r' : Record}, I s t β → List.Forall₂ β.FieldRel r.fields r'.fields →
    ∃ γ, β ≤ γ ∧ I (s.newRecord r).2 (t.newRecord r').2 γ ∧
      γ.records (s.newRecord r).1 (t.newRecord r').1

variable {I : Store → Store → Pairing → Prop} {α : Pairing}

mutual

/-- Building related descriptions keeps what lasts, and gives related values. The descriptions may
be related by less than what is paired by then. -/
theorem Lasts.build (hI : Lasts I) {s t : Store} {β : Pairing} {b c : Blueprint} (h : α.Draws b c)
    (hle : α ≤ β) (hst : I s t β) :
    ∃ γ, β ≤ γ ∧ I (s.build b).2 (t.build c).2 γ ∧ γ.Rel (s.build b).1 (t.build c).1 := by
  cases h with
  | value hvw =>
    unfold Store.build
    exact ⟨β, β.le_refl, hst, hvw.mono hle⟩
  | list hitems =>
    unfold Store.build
    obtain ⟨γ, hγ, hst, hrel⟩ := hI.buildItems hitems hle hst #[] #[] .nil
    obtain ⟨δ, hδ, hst, hlists⟩ := hI.list hst hrel
    exact ⟨δ, Pairing.le_trans hγ hδ, hst, .list hlists⟩
  | record hfields =>
    unfold Store.build
    obtain ⟨γ, hγ, hst, hrel⟩ := hI.buildFields hfields hle hst #[] #[] .nil
    obtain ⟨δ, hδ, hst, hrecords⟩ := hI.record hst (Pairing.ofList_rel hrel)
    exact ⟨δ, Pairing.le_trans hγ hδ, hst, .record hrecords⟩

theorem Lasts.buildItems (hI : Lasts I) {s t : Store} {β : Pairing} {bs cs : List Blueprint}
    (h : α.DrawsItems bs cs) (hle : α ≤ β) (hst : I s t β) (done done' : Array Value)
    (hdone : List.Forall₂ β.Rel done.toList done'.toList) :
    ∃ γ, β ≤ γ ∧ I (s.buildItems bs done).2 (t.buildItems cs done').2 γ ∧
      List.Forall₂ γ.Rel (s.buildItems bs done).1.toList (t.buildItems cs done').1.toList := by
  cases h with
  | nil =>
    unfold Store.buildItems
    exact ⟨β, β.le_refl, hst, hdone⟩
  | cons hbc hrest =>
    unfold Store.buildItems
    obtain ⟨γ, hγ, hst, hrel⟩ := hI.build hbc hle hst
    obtain ⟨δ, hδ, hresult⟩ := hI.buildItems hrest (Pairing.le_trans hle hγ) hst
      (done.push _) (done'.push _) (by
        rw [Array.toList_push, Array.toList_push]
        exact List.rel_append (hdone.imp fun _ _ => .mono hγ) (.cons hrel .nil))
    exact ⟨δ, Pairing.le_trans hγ hδ, hresult⟩

theorem Lasts.buildFields (hI : Lasts I) {s t : Store} {β : Pairing}
    {fs gs : List (String × Blueprint)} (h : α.DrawsFields fs gs) (hle : α ≤ β) (hst : I s t β)
    (done done' : Array (String × Value))
    (hdone : List.Forall₂ β.FieldRel done.toList done'.toList) :
    ∃ γ, β ≤ γ ∧ I (s.buildFields fs done).2 (t.buildFields gs done').2 γ ∧
      List.Forall₂ γ.FieldRel (s.buildFields fs done).1.toList
        (t.buildFields gs done').1.toList := by
  cases h with
  | nil =>
    unfold Store.buildFields
    exact ⟨β, β.le_refl, hst, hdone⟩
  | @cons key b c fs gs hbc hrest =>
    unfold Store.buildFields
    obtain ⟨γ, hγ, hst, hrel⟩ := hI.build hbc hle hst
    obtain ⟨δ, hδ, hresult⟩ := hI.buildFields hrest (Pairing.le_trans hle hγ) hst
      (done.push (key, (s.build b).1)) (done'.push (key, (t.build c).1)) (by
        rw [Array.toList_push, Array.toList_push]
        exact List.rel_append (hdone.imp fun _ _ => .mono hγ) (.cons ⟨rfl, hrel⟩ .nil))
    exact ⟨δ, Pairing.le_trans hγ hδ, hresult⟩

end

/-- Stores stay matched, one to one. -/
theorem lasts_oneToOne : Lasts fun s t β => β.Matches s t ∧ β.OneToOne where
  list h hxs := ⟨_, Pairing.le_addList _ _ _, ⟨h.1.newList hxs, h.2.addList h.1⟩, .inr ⟨rfl, rfl⟩⟩
  record h hr :=
    ⟨_, Pairing.le_addRecord _ _ _, ⟨h.1.newRecord hr, h.2.addRecord h.1⟩, .inr ⟨rfl, rfl⟩⟩

/-- The first store grows by containers of values that exist and are of a sort, if the values that
are paired are so. -/
theorem lasts_grows (s₀ : Store) (P : Value → Prop) : Lasts fun s _ β =>
    s₀.Grows s ∧ s.Sealed P ∧ ∀ v w, β.Rel v w → s.Has v ∧ P v where
  list := by
    rintro s t β xs ys ⟨hgrows, hsealed, hβ⟩ hxs
    have hall : ∀ v ∈ xs.toList, s.Has v ∧ P v := fun v hv =>
      let ⟨w, _, hvw⟩ := exists_of_forall₂_of_mem hxs hv
      hβ v w hvw
    refine ⟨_, Pairing.le_addList _ (s.newList xs).1 (t.newList ys).1,
      ⟨.list hgrows fun v hv => (hall v hv).1, hsealed.newList fun v hv => (hall v hv).2, ?_⟩,
      .inr ⟨rfl, rfl⟩⟩
    have hkeep {v w : Value} (h : β.Rel v w) : (s.newList xs).2.Has v ∧ P v :=
      ⟨(s.extends_newList xs).has (hβ v w h).1, (hβ v w h).2⟩
    rintro v w (hv | hab | hab)
    · exact hkeep (.scalar hv)
    · rcases hab with hab | ⟨rfl, rfl⟩
      · exact hkeep (.list hab)
      · exact ⟨has_newList_self _ _, hsealed.list_new _⟩
    · exact hkeep (.record hab)
  record := by
    rintro s t β r r' ⟨hgrows, hsealed, hβ⟩ hr
    have hall : ∀ v ∈ r.values, s.Has v ∧ P v := fun v hv =>
      let ⟨w, _, hvw⟩ := exists_of_forall₂_of_mem (Pairing.values_rel hr) hv
      hβ v w hvw
    refine ⟨_, Pairing.le_addRecord _ (s.newRecord r).1 (t.newRecord r').1,
      ⟨.record hgrows fun v hv => (hall v hv).1, hsealed.newRecord fun v hv => (hall v hv).2, ?_⟩,
      .inr ⟨rfl, rfl⟩⟩
    have hkeep {v w : Value} (h : β.Rel v w) : (s.newRecord r).2.Has v ∧ P v :=
      ⟨(s.extends_newRecord r).has (hβ v w h).1, (hβ v w h).2⟩
    rintro v w (hv | hab | hab)
    · exact hkeep (.scalar hv)
    · exact hkeep (.list hab)
    · rcases hab with hab | ⟨rfl, rfl⟩
      · exact hkeep (.record hab)
      · exact ⟨has_newRecord_self _ _, hsealed.record_new _⟩

end Store

/-! ## Function tables -/

namespace FunctionTable

/-- Every function leaves the containers that exist as they are. -/
def Preserves (functions : FunctionTable) : Prop :=
  ∀ id context args s v s', functions.call id context args s = .ok (v, s') → s.Extends s'

/-- Called with a record that exists, every function gives a value that exists, keeps what exists
and leaves no reference dangling. -/
def Safe (functions : FunctionTable) : Prop :=
  ∀ id context args s v s', s.Closed → s.Has (.record args) →
    functions.call id context args s = .ok (v, s') →
    s'.Closed ∧ s'.Has v ∧ ∀ w, s.Has w → s'.Has w

/-- A call of a standard function is a call of its entry, whose result is built. -/
theorem standard_call_eq_ok {id : UInt16} {context : CallContext} {args : RecordRef} {s s' : Store}
    {v : Value} (h : standard.call id context args s = .ok (v, s')) :
    ∃ e ∈ Builtin.entries, ∃ b, Builtin.find? id = some e ∧
      e.run ⟨s, s.record args, context⟩ = .ok b ∧ s.build b = (v, s') := by
  unfold standard at h
  dsimp only at h
  cases hentry : Builtin.find? id with
  | none => simp [hentry] at h
  | some entry =>
    rw [hentry] at h
    dsimp only at h
    cases hrun : entry.run ⟨s, s.record args, context⟩ with
    | error e => simp [hrun, Except.map] at h
    | ok b =>
      simp only [hrun, Except.map, Except.ok.injEq] at h
      exact ⟨entry, List.mem_of_find?_eq_some hentry, b, rfl, hrun, h⟩

theorem preserves_standard : standard.Preserves := by
  intro id context args s v s' h
  obtain ⟨-, -, b, -, -, hbuild⟩ := standard_call_eq_ok h
  have hext := s.extends_build b
  rwa [hbuild] at hext

theorem preserves_none : none.Preserves := nofun

theorem preserves_of_eq {functions : FunctionTable}
    (h : functions = .standard ∨ functions = .none) : functions.Preserves := by
  rcases h with rfl | rfl
  · exact preserves_standard
  · exact preserves_none

/-- Called with a record that exists, every function adds containers of values that exist, and it
gives a value of every sort that has the record. -/
def Builds (functions : FunctionTable) : Prop :=
  ∀ id context args s v s', s.Closed → s.Has (.record args) →
    functions.call id context args s = .ok (v, s') →
    s.Grows s' ∧ s'.Has v ∧ ∀ P, s.Sealed P → P (.record args) → s'.Sealed P ∧ P v

theorem builds_standard : standard.Builds := by
  intro id context args s v s' hclosed hargs h
  obtain ⟨e, he, b, -, hrun, hbuild⟩ := standard_call_eq_ok h
  -- a call is related to itself, so its result is made of what exists and is of the sort
  have hresult {P : Value → Prop} (hP : s.Sealed P) (hrecord : P (.record args)) :
      s.Grows s' ∧ s'.Sealed P ∧ s'.Has v ∧ P v := by
    have hmatches := hclosed.diagonal_matches hP (.refl _ s)
    have halike : Arguments.Alike (s.diagonal P) ⟨s, s.record args, context⟩
        ⟨s, s.record args, context⟩ :=
      ⟨hmatches, hmatches.fields ⟨rfl, hargs, hrecord⟩, rfl⟩
    have hgives := Builtin.gives_of_mem_entries halike e he
    rw [hrun] at hgives
    cases hgives with
    | ok hdraws =>
      obtain ⟨γ, -, ⟨hgrows, hsealed, hγ⟩, hrel⟩ := (Store.lasts_grows s P).build (t := s) hdraws
        (Pairing.le_refl _) ⟨.refl, hP, fun v w hvw => (hP.diagonal_rel.1 hvw).2⟩
      have hv := hγ _ _ hrel
      rw [hbuild] at hgrows hsealed hv
      exact ⟨hgrows, hsealed, hv⟩
  obtain ⟨hgrows, -, hhas, -⟩ := hresult s.sealed_true trivial
  refine ⟨hgrows, hhas, fun P hP hrecord => ?_⟩
  obtain ⟨-, hsealed, -, hv⟩ := hresult hP hrecord
  exact ⟨hsealed, hv⟩

theorem builds_none : none.Builds := nofun

/-- Standard functions depend on their arguments up to the places of containers only. -/
theorem uniform_standard : standard.Uniform where
  extends_call := preserves_standard _ _ _ _ _ _
  rel_call := by
    intro β id context a b s t v w s' t' hst hone hab ha hb
    obtain ⟨e, he, x, hfind, hrun, hbuild⟩ := standard_call_eq_ok ha
    obtain ⟨e', -, y, hfind', hrun', hbuild'⟩ := standard_call_eq_ok hb
    obtain rfl := Option.some.inj (hfind.symm.trans hfind')
    have halike : Arguments.Alike β ⟨s, s.record a, context⟩ ⟨t, t.record b, context⟩ :=
      ⟨hst, hst.fields hab, rfl⟩
    have hgives := Builtin.gives_of_mem_entries halike e he
    rw [hrun, hrun'] at hgives
    cases hgives with
    | ok hdraws =>
      obtain ⟨γ, hle, hγ, hrel⟩ := Store.lasts_oneToOne.build hdraws β.le_refl ⟨hst, hone⟩
      rw [hbuild, hbuild'] at hγ hrel
      exact ⟨γ, hle, hγ.1, hγ.2, hrel⟩

theorem Builds.safe {functions : FunctionTable} (h : functions.Builds) : functions.Safe := by
  intro id context args s v s' hclosed hargs hcall
  obtain ⟨hgrows, hhas, -⟩ := h id context args s v s' hclosed hargs hcall
  exact ⟨hgrows.closed hclosed, hhas, fun w hw => hgrows.extends.has hw⟩

theorem safe_standard : standard.Safe := builds_standard.safe

end FunctionTable

end TagMachine
