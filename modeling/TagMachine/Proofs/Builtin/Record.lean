import TagMachine.Proofs.Builtin.Calls
import TagMachine.Proofs.Store.Equality

set_option autoImplicit false

/-! # Merging, picking and omitting fields

What `merge`, `pick` and `omit` return, by the names of the fields and by what is found under each
name. The fields that are picked and those that are omitted make up the record again, in another
order perhaps. No name stands twice in a record: making one and setting a field keep it so
(`Record.nodup_keys_ofList`, `Record.nodup_keys_set`).
-/

namespace TagMachine.Builtin

/-- Merging the records `a` and `b` returns the record `m`. -/
def Merges (a b m : Record) : Prop :=
  ∀ c : Call, c.given.fields "a" = a → c.given.fields "b" = b → c.ReturnsRecord 0x42 m

/-- Picking the fields `xs` of the record `r` returns the record `p`. -/
def Picks (r : Record) (xs : List Value) (p : Record) : Prop :=
  ∀ c : Call, c.given.fields "record" = r → c.given.items "fields" = xs → c.ReturnsRecord 0x43 p

/-- Omitting the fields `xs` of the record `r` returns the record `o`. -/
def Omits (r : Record) (xs : List Value) (o : Record) : Prop :=
  ∀ c : Call, c.given.fields "record" = r → c.given.items "fields" = xs → c.ReturnsRecord 0x44 o

variable {a b r : Record}

/-! ## Merging -/

theorem merges_merged (a b : Record) : Merges a b (merged a b) := by
  rintro c rfl rfl
  exact Call.returnsRecord_of_give rfl (Record.nodup_keys_ofList _) rfl

theorem keys_merged (ha : a.keys.Nodup) (hb : b.keys.Nodup) :
    (merged a b).keys = a.keys ++ b.keys.filter (· ∉ a.keys) := by
  have hnew : b.keys.removeAll a.keys = b.keys.filter (· ∉ a.keys) := by
    simp [List.removeAll]
  calc (merged a b).keys = (a.keys ++ b.keys).eraseDups := by
        rw [merged, Record.keys, Record.ofList, keys_collectFields, List.map_append]
        rfl
    _ = a.keys ++ b.keys.filter (· ∉ a.keys) := by
        rw [List.eraseDups_append, eraseDups_of_nodup ha, hnew, eraseDups_of_nodup (hb.filter _)]

theorem get?_merged (ha : a.keys.Nodup) (hb : b.keys.Nodup) (key : String) :
    (merged a b).get? key = (b.get? key).or (a.get? key) := by
  rw [Record.get?, merged, Record.ofList, lookup_collectFields, List.reverse_append,
    List.lookup_append, lookup_reverse ha, lookup_reverse hb]
  rfl

/-! ## Names of fields -/

theorem fieldNames_strings (function : String) (names : List String) :
    fieldNames function (names.map .string) = .ok names := by
  induction names with
  | nil => rfl
  | cons name names ih =>
    rw [fieldNames] at ih ⊢
    rw [List.map_cons, List.mapM_cons, ih]
    rfl

/-- The first value that is no string is refused. -/
theorem fieldNames_of_find? (function : String) {xs : List Value} {v : Value}
    (h : xs.find? (fun x => x.kind != .string) = some v) :
    fieldNames function xs = .error (.type (.fieldName function v.kind)) := by
  induction xs with
  | nil => cases h
  | cons x xs ih =>
    rw [List.find?_cons] at h
    rw [fieldNames] at ih ⊢
    rw [List.mapM_cons]
    cases x with
    | string name =>
      rw [ih h]
      rfl
    | _ =>
      cases h
      rfl

/-! ## Picking and omitting -/

theorem picks_picked (r : Record) (names : List String) :
    Picks r (names.map .string) (picked r names) := by
  rintro c rfl hnames
  refine Call.returnsRecord_of_give rfl (Record.nodup_keys_ofList _) ?_
  show pickFields c.given = _
  rw [pickFields, hnames, fieldNames_strings]
  rfl

theorem omits_omitted (r : Record) (names : List String) :
    Omits r (names.map .string) (omitted r names) := by
  rintro c rfl hnames
  refine Call.returnsRecord_of_give rfl (Record.nodup_keys_ofList _) ?_
  show omitFields c.given = _
  rw [omitFields, hnames, fieldNames_strings]
  rfl

theorem keys_picked (r : Record) (names : List String) :
    (picked r names).keys = (names.filter r.has).eraseDups := by
  have hnames : (names.filterMap fun name => (r.get? name).map (name, ·)).map Prod.fst =
      names.filter r.has := by
    induction names with
    | nil => rfl
    | cons name names ih =>
      rw [List.filterMap_cons, List.filter_cons, Record.has]
      cases r.get? name with
      | none => exact ih
      | some v => exact congrArg (name :: ·) ih
  rw [picked, Record.keys, Record.ofList, keys_collectFields, hnames]

theorem get?_picked (r : Record) (names : List String) (key : String) :
    (picked r names).get? key = if key ∈ names then r.get? key else none := by
  rw [Record.get?, picked, Record.ofList, lookup_collectFields, ← List.filterMap_reverse,
    lookup_filterMap]
  simp

theorem fields_omitted (h : r.keys.Nodup) (names : List String) :
    (omitted r names).fields = r.fields.filter fun f => !names.contains f.1 :=
  collectFields_of_nodup (h.sublist (List.filter_sublist.map Prod.fst))

theorem keys_omitted (h : r.keys.Nodup) (names : List String) :
    (omitted r names).keys = r.keys.filter (· ∉ names) := by
  rw [Record.keys, fields_omitted h, Record.keys, List.filter_map]
  simp [Function.comp_def]

theorem get?_omitted (h : r.keys.Nodup) (names : List String) (key : String) :
    (omitted r names).get? key = if key ∈ names then none else r.get? key := by
  rw [Record.get?, fields_omitted h, lookup_filter_keys (fun name => !names.contains name)]
  by_cases hkey : key ∈ names
  · simp [hkey]
  · simp [hkey, Record.get?]

/-! ## All together -/

/-- The fields that are picked and those that are omitted are those of the record. -/
theorem perm_merged (h : r.keys.Nodup) (names : List String) :
    (merged (picked r names) (omitted r names)).fields.Perm r.fields := by
  have hpicked : (picked r names).keys.Nodup := Record.nodup_keys_ofList _
  have homitted : (omitted r names).keys.Nodup := Record.nodup_keys_ofList _
  refine perm_of_lookup_eq (Record.nodup_keys_ofList _) h fun key => ?_
  show (merged (picked r names) (omitted r names)).get? key = r.get? key
  rw [get?_merged hpicked homitted, get?_picked, get?_omitted h]
  by_cases hkey : key ∈ names
  · rw [if_pos hkey, if_pos hkey, Option.none_or]
  · rw [if_neg hkey, if_neg hkey, Option.or_none]

/-- A merged record has the names of the first record and then the others of the second, and the
second goes before the first in the values. A list of names may repeat some and have some that the
record lacks: the fields it picks are in the order of the names, those it leaves in the order of the
record, and merged they equal the record, even if containers in it hold themselves. Where the list
has a value that is no string, the first such is an error. -/
theorem merge_pick_omit :
    (∀ a b : Record, a.keys.Nodup → b.keys.Nodup → ∃ m, Merges a b m ∧
      m.keys = a.keys ++ b.keys.filter (· ∉ a.keys) ∧ ∀ key,
        m.get? key = (b.get? key).or (a.get? key)) ∧
    (∀ (r : Record) (names : List String), r.keys.Nodup → ∃ p o m,
      Picks r (names.map .string) p ∧ Omits r (names.map .string) o ∧ Merges p o m ∧
      p.keys = (names.filter r.has).eraseDups ∧ (∀ key ∈ p.keys, p.get? key = r.get? key) ∧
      o.keys = r.keys.filter (· ∉ names) ∧ (∀ key ∈ o.keys, o.get? key = r.get? key) ∧
      ∀ (s : Store) (x y : RecordRef), s.record x = m → s.record y = r →
        s.equal (.record x) (.record y) = true) ∧
    ∀ xs : List Value, (∃ v ∈ xs, v.kind ≠ .string) → ∃ v,
      xs.find? (fun x => x.kind != .string) = some v ∧
      ∀ c : Call, c.given.items "fields" = xs →
        c.run 0x43 = .error (.type (.fieldName "pick" v.kind)) ∧
        c.run 0x44 = .error (.type (.fieldName "omit" v.kind)) := by
  refine ⟨fun a b ha hb => ?_, fun r names hr => ?_, fun xs hxs => ?_⟩
  · exact ⟨_, merges_merged a b, keys_merged ha hb, get?_merged ha hb⟩
  · refine ⟨_, _, _, picks_picked r names, omits_omitted r names, merges_merged _ _,
      keys_picked r names,
      fun key hkey => ?_, keys_omitted hr names, fun key hkey => ?_, ?_⟩
    · rw [keys_picked, List.mem_eraseDups, List.mem_filter] at hkey
      rw [get?_picked, if_pos hkey.1]
    · rw [keys_omitted hr, List.mem_filter, decide_eq_true_iff] at hkey
      rw [get?_omitted hr, if_neg hkey.2]
    · rintro s x y hx rfl
      exact Store.equal_of_perm hr (hx ▸ perm_merged hr names)
  · obtain ⟨v, hv⟩ : ∃ v, xs.find? (fun x => x.kind != .string) = some v := by
      rw [← Option.isSome_iff_exists, List.find?_isSome]
      simpa using hxs
    refine ⟨v, hv, fun c hc => ⟨Call.run_eq_error rfl ?_, Call.run_eq_error rfl ?_⟩⟩
    · show pickFields c.given = _
      rw [pickFields, hc, fieldNames_of_find? "pick" hv]
      rfl
    · show omitFields c.given = _
      rw [omitFields, hc, fieldNames_of_find? "omit" hv]
      rfl

def Call.choosing (r : Record) (xs : List Value) : Call where
  context := ⟨"", 0⟩
  args := ⟨0⟩
  store :=
    { lists := #[xs.toArray], records := #[⟨[("record", .record ⟨1⟩), ("fields", .list ⟨0⟩)]⟩, r] }

def Call.joining (a b : Record) : Call where
  context := ⟨"", 0⟩
  args := ⟨0⟩
  store := { records := #[⟨[("a", .record ⟨1⟩), ("b", .record ⟨2⟩)]⟩, a, b] }

/-- A record with a list in it, and a field that is nothing. -/
def profile : Record := ⟨[("id", .integer 1), ("roles", .list ⟨0⟩), ("email", .nothing)]⟩

/-- Names that are repeated or not there, a field that is there with nothing in it, and a name that
is a number. -/
theorem merge_pick_omit_profile :
    profile.keys.Nodup ∧
    (∃ m,
      (Call.joining profile ⟨[("email", .string "a@b"), ("age", .nothing)]⟩).ReturnsRecord 0x42 m ∧
      m.keys = ["id", "roles", "email", "age"] ∧ m.get? "email" = some (.string "a@b")) ∧
    (∃ p o m,
      (Call.choosing profile (["email", "age", "id", "email"].map .string)).ReturnsRecord 0x43 p ∧
      (Call.choosing profile (["email", "age", "id", "email"].map .string)).ReturnsRecord 0x44 o ∧
      (Call.joining p o).ReturnsRecord 0x42 m ∧ p.keys = ["email", "id"] ∧ o.keys = ["roles"] ∧
      Store.equal { lists := #[#[.nothing]], records := #[m, profile] } (.record ⟨0⟩)
        (.record ⟨1⟩) = true) ∧
    (Call.choosing profile [.string "id", .integer 7]).run 0x43 =
      .error (.type (.fieldName "pick" .integer)) ∧
    (Call.choosing profile [.string "id", .integer 7]).run 0x44 =
      .error (.type (.fieldName "omit" .integer)) := by
  obtain ⟨hmerge, hchoose, hfail⟩ := merge_pick_omit
  have hnodup : profile.keys.Nodup := by decide
  refine ⟨hnodup, ?_, ?_, ?_⟩
  · obtain ⟨m, hm, hkeys, hget⟩ :=
      hmerge profile ⟨[("email", .string "a@b"), ("age", .nothing)]⟩ hnodup (by decide)
    exact ⟨m, hm _ rfl rfl, hkeys.trans (by decide), (hget "email").trans (by decide)⟩
  · obtain ⟨p, o, m, hp, ho, hm, hpkeys, -, hokeys, -, hequal⟩ :=
      hchoose profile ["email", "age", "id", "email"] hnodup
    exact ⟨p, o, m, hp _ rfl rfl, ho _ rfl rfl, hm _ rfl rfl, hpkeys.trans (by decide),
      hokeys.trans (by decide), hequal _ _ _ rfl rfl⟩
  · obtain ⟨v, hv, herror⟩ := hfail [.string "id", .integer 7] ⟨.integer 7, by simp, by decide⟩
    obtain rfl := Option.some.inj hv
    exact herror _ rfl

end TagMachine.Builtin
