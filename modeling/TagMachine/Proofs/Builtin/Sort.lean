import TagMachine.Proofs.Binary64.Order
import TagMachine.Proofs.Builtin.Calls

set_option autoImplicit false

/-! # Sorting

The order of `sort` is lexicographic in three keys (`sortOrder_eq_lex`), so it is a total preorder.
What sorting gives ascends, and the elements of one class are in the order they had
(`StablySorted`). Numbers are ordered as floats. For integers this agrees with how the machine
compares them, except for different integers that are widened to the same float: these are one
class.
-/

namespace TagMachine.Builtin

open Procedure (argumentsIn has_items)

/-! ## The order -/

/-- What numbers are ordered by. -/
def numberKey (v : Value) : Option Int := v.asNumber?.map Binary64.orderKey

/-- What strings are ordered by. -/
def textKey (v : Value) : Option String :=
  match v with
  | .string s => some s
  | _ => none

/-- Values of one rank are told apart by one of the other two keys at most. -/
theorem sortOrder_eq_lex : sortOrder =
    compareLex (compareOn rank) (compareLex (compareOn numberKey) (compareOn textKey)) := by
  funext a b
  have hthen (x y : Binary64) : x.totalCompare y = (x.totalCompare y).then .eq :=
    Ordering.then_eq.symm
  cases a with
  | integer _ | float _ => cases b with
    | integer _ | float _ => exact hthen ..
    | _ => rfl
  | _ => cases b <;> rfl

instance : Std.TransCmp sortOrder := by
  rw [sortOrder_eq_lex]
  infer_instance

theorem sortOrder_total (a b : Value) : sortOrder a b ≠ .gt ∨ sortOrder b a ≠ .gt := by
  have hswap : sortOrder b a = (sortOrder a b).swap := Std.OrientedCmp.eq_swap
  rw [hswap]
  cases sortOrder a b <;> decide

/-! ## Stable sorting -/

/-- A list has the elements of another, ascending by their keys, and those with equivalent keys in
the order they had. -/
structure StablySorted (key : Value → Value) (xs ys : List Value) : Prop where
  perm : ys.Perm xs
  sorted : ys.Pairwise fun a b => sortOrder (key a) (key b) ≠ .gt
  stable : ∀ k, ys.filter (fun a => sortOrder k (key a) == .eq) =
    xs.filter fun a => sortOrder k (key a) == .eq

section Stable

variable {key : Value → Value} {xs ys : List Value}

theorem stablySorted_sortOn (key : Value → Value) (xs : List Value) :
    StablySorted key xs (sortOn key xs) := by
  have htrans : ∀ a b c, (sortOrder (key a) (key b) != .gt) = true →
      (sortOrder (key b) (key c) != .gt) = true → (sortOrder (key a) (key c) != .gt) = true := by
    intro a b c hab hbc
    rw [bne_iff_ne] at *
    exact Std.TransCmp.le_trans hab hbc
  have htotal : ∀ a b,
      (sortOrder (key a) (key b) != .gt || sortOrder (key b) (key a) != .gt) = true := by
    intro a b
    rw [Bool.or_eq_true, bne_iff_ne, bne_iff_ne]
    exact sortOrder_total _ _
  refine ⟨List.mergeSort_perm .., ?_, fun k => ?_⟩
  · exact (List.pairwise_mergeSort htrans htotal xs).imp bne_iff_ne.1
  · -- the class is sorted as it stands, so it is part of the result, which has no more of the class
    have hclass : (xs.filter fun a => sortOrder k (key a) == .eq).Pairwise fun a b =>
        (sortOrder (key a) (key b) != .gt) = true := by
      refine List.pairwise_filter.2 (List.pairwise_of_forall fun a b ha hb => ?_)
      rw [beq_iff_eq] at ha hb
      rw [← Std.TransCmp.congr_left ha, hb]
      rfl
    have hsublist := (List.sublist_mergeSort htrans htotal hclass List.filter_sublist).filter
      fun a => sortOrder k (key a) == .eq
    rw [List.filter_filter] at hsublist
    simp only [Bool.and_self] at hsublist
    exact (hsublist.eq_of_length ((List.mergeSort_perm ..).filter _).length_eq.symm).symm

/-- What is sorted already stays as it is. -/
theorem StablySorted.sortOn_eq (h : StablySorted key xs ys) : sortOn key ys = ys :=
  List.mergeSort_of_pairwise (h.sorted.imp bne_iff_ne.2)

theorem sortOn_congr {key' : Value → Value} (h : ∀ v ∈ xs, key v = key' v) :
    sortOn key xs = sortOn key' xs := by
  have hmap := List.map_mergeSort (f := id) (l := xs)
    (r := fun a b => sortOrder (key a) (key b) != .gt)
    (s := fun a b => sortOrder (key' a) (key' b) != .gt)
    fun a ha b hb => by rw [h a ha, h b hb]; rfl
  rwa [List.map_id, List.map_id] at hmap

/-- A relation within classes holds along a list where it holds along each class. -/
theorem pairwise_equivalent_iff {R : Value → Value → Prop} :
    (xs.Pairwise fun a b => sortOrder (key a) (key b) = .eq → R a b) ↔
      ∀ k, (xs.filter fun a => sortOrder k (key a) == .eq).Pairwise R := by
  simp only [List.pairwise_filter, beq_iff_eq]
  constructor
  · intro h k
    exact h.imp fun hR ha hb => hR ((Std.TransCmp.congr_left ha).symm.trans hb)
  · intro h
    refine List.pairwise_iff_forall_sublist.2 fun {a b} hab heq => ?_
    exact List.pairwise_iff_forall_sublist.1 (h (key a)) hab Std.ReflCmp.compare_self heq

/-- Within classes a sorted list is as the list it was made from. -/
theorem StablySorted.pairwise_iff (h : StablySorted key xs ys) {R : Value → Value → Prop} :
    (ys.Pairwise fun a b => sortOrder (key a) (key b) = .eq → R a b) ↔
      xs.Pairwise fun a b => sortOrder (key a) (key b) = .eq → R a b := by
  simp only [pairwise_equivalent_iff, h.stable]

end Stable

/-! ## Calls -/

/-- The value of a field that is there, and nothing for other values. -/
theorem fieldOf_cases (s : Store) (name : String) (v : Value) :
    (∃ ref, v = .record ref ∧ (s.record ref).get? name = some (fieldOf s name v)) ∨
      (∀ ref, v = .record ref → (s.record ref).get? name = none) ∧ fieldOf s name v = .nothing := by
  cases v with
  | record ref =>
    cases hget : (s.record ref).get? name with
    | some w => exact .inl ⟨ref, rfl, by rw [hget, fieldOf, Record.get, hget]; rfl⟩
    | none =>
      refine .inr ⟨?_, by rw [fieldOf, Record.get, hget]; rfl⟩
      rintro _ ⟨⟩
      exact hget
  | _ => exact .inr ⟨nofun, rfl⟩

theorem fieldOf_eq {s t : Store} (h : s.Extends t) (name : String) {v : Value} (hv : s.Has v) :
    fieldOf t name v = fieldOf s name v := by
  cases v with
  | record ref => exact congrArg (Record.get · name) (h.records ref hv trivial).2
  | _ => rfl

/-- The functions that sort. -/
inductive Sorter
  | sort
  | sortBy

namespace Sorter

/-- The number a function is called by. -/
def number : Sorter → UInt16
  | sort => 0x30
  | sortBy => 0x31

/-- What the elements are ordered by: they themselves, or one field of theirs. -/
def key (f : Sorter) (a : Arguments) : Value → Value :=
  match f with
  | sort => id
  | sortBy => fieldOf a.store (a.text "field")

variable {f : Sorter} {s t : Store} {context : CallContext} {args : RecordRef}

/-- Arguments that a function takes its keys from in the same way. -/
def SameKey (f : Sorter) (a b : Arguments) : Prop := f = sortBy → a.text "field" = b.text "field"

theorem key_eq {a b : Arguments} (h : a.store.Extends b.store) (hsame : f.SameKey b a) {v : Value}
    (hv : a.store.Has v) : f.key b v = f.key a v := by
  cases f with
  | sort => rfl
  | sortBy =>
    show fieldOf b.store (b.text "field") v = _
    rw [hsame rfl]
    exact fieldOf_eq h _ hv

/-- A call gives a new list of the elements in order. -/
theorem call_eq (f : Sorter) (context : CallContext) (args : RecordRef) (s : Store) :
    ∃ ref t, FunctionTable.standard.call f.number context args s = .ok (.list ref, t) ∧
      ¬s.Has (.list ref) ∧ t.Has (.list ref) ∧ s.Extends t ∧ (t.items ref).toList =
        sortOn (f.key (argumentsIn context args s))
          ((argumentsIn context args s).items "list") := by
  cases f with
  | sort | sortBy => exact giveList_makes s _

/-- Sorting what a call gave by the same keys gives the same again, as long as the containers are as
they were. -/
theorem call_again (hs : s.Closed) {ref : ListRef}
    (hcall : FunctionTable.standard.call f.number context args s = .ok (.list ref, t))
    {context' : CallContext} {args' : RecordRef} {t' : Store} (hext : t.Extends t')
    (hlist : (argumentsIn context' args' t').value "list" = .list ref)
    (hsame : f.SameKey (argumentsIn context' args' t') (argumentsIn context args s)) :
    ∃ ref' u, FunctionTable.standard.call f.number context' args' t' = .ok (.list ref', u) ∧
      u.items ref' = t.items ref := by
  obtain ⟨_, _, hmake, -, hhas, hmade, hitems⟩ := f.call_eq context args s
  obtain ⟨⟨⟩, ⟨⟩⟩ := Prod.mk.inj (Except.ok.inj (hmake.symm.trans hcall))
  obtain ⟨ref', u, hcall', -, -, -, hitems'⟩ := f.call_eq context' args' t'
  have hread : (argumentsIn context' args' t').items "list" = (t.items ref).toList := by
    rw [Arguments.items, hlist]
    exact congrArg Array.toList (hext.lists ref hhas trivial).2
  have hsorted := stablySorted_sortOn (f.key (argumentsIn context args s))
    ((argumentsIn context args s).items "list")
  rw [← hitems] at hsorted
  -- the elements existed before the first call, so their fields are still the same
  have hkeys : ∀ v ∈ (t.items ref).toList,
      f.key (argumentsIn context' args' t') v = f.key (argumentsIn context args s) v :=
    fun v hv => key_eq (hmade.trans hext) hsame
      (has_items hs context args "list" v (hsorted.perm.mem_iff.1 hv))
  refine ⟨ref', u, hcall', Array.toList_inj.1 ?_⟩
  calc (u.items ref').toList
      = sortOn (f.key (argumentsIn context' args' t')) (t.items ref).toList := by
        rw [hitems', hread]
    _ = sortOn (f.key (argumentsIn context args s)) (t.items ref).toList := sortOn_congr hkeys
    _ = (t.items ref).toList := hsorted.sortOn_eq

end Sorter

/-- The order of sorting is a total preorder. Both functions that sort give a new list of the same
elements, ascending by their keys, in which elements with equivalent keys are in the order they had;
a key that is not there is nothing. Sorting the result once more gives the same list. -/
theorem sorting_stable {s : Store} (hs : s.Closed) (f : Sorter) (context : CallContext)
    (args : RecordRef) :
    (∀ a b c, sortOrder a a = .eq ∧ sortOrder b a = (sortOrder a b).swap ∧
      (sortOrder a b ≠ .gt ∨ sortOrder b a ≠ .gt) ∧
      (sortOrder a b ≠ .gt → sortOrder b c ≠ .gt → sortOrder a c ≠ .gt)) ∧
    (∀ name v, (∃ ref, v = .record ref ∧ (s.record ref).get? name = some (fieldOf s name v)) ∨
      (∀ ref, v = .record ref → (s.record ref).get? name = none) ∧ fieldOf s name v = .nothing) ∧
    ∃ ref t, FunctionTable.standard.call f.number context args s = .ok (.list ref, t) ∧
      ¬s.Has (.list ref) ∧ s.Extends t ∧
      StablySorted (f.key (argumentsIn context args s)) ((argumentsIn context args s).items "list")
        (t.items ref).toList ∧
      ∀ context' args' t', t.Extends t' → (argumentsIn context' args' t').value "list" = .list ref →
        f.SameKey (argumentsIn context' args' t') (argumentsIn context args s) →
        ∃ ref' u, FunctionTable.standard.call f.number context' args' t' = .ok (.list ref', u) ∧
          u.items ref' = t.items ref := by
  refine ⟨fun a b c => ⟨Std.ReflCmp.compare_self, Std.OrientedCmp.eq_swap, sortOrder_total a b,
    Std.TransCmp.le_trans⟩, fieldOf_cases s, ?_⟩
  obtain ⟨ref, t, hcall, hnew, -, hext, hitems⟩ := f.call_eq context args s
  refine ⟨ref, t, hcall, hnew, hext, ?_, fun _ _ _ => f.call_again hs hcall⟩
  rw [hitems]
  exact stablySorted_sortOn ..

/-- A hand of cards, two of them of one rank and two without a rank. -/
def hand : Store where
  lists := #[#[.record ⟨0⟩, .string "joker", .record ⟨1⟩, .record ⟨2⟩, .record ⟨3⟩]]
  records := #[⟨[("suit", .string "spades"), ("rank", .integer 2)]⟩,
    ⟨[("rank", .float (.ofInt 1))]⟩, ⟨[("rank", .integer 2), ("suit", .string "clubs")]⟩,
    ⟨[("suit", .string "hearts")]⟩, ⟨[("list", .list ⟨0⟩), ("field", .string "rank")]⟩]

/-- The cards of rank two, and those without a rank, are in the order they had. -/
theorem hand_sorted : hand.Closed ∧
    ∃ ref t, FunctionTable.standard.call 0x31 ⟨"", 0⟩ ⟨4⟩ hand = .ok (.list ref, t) ∧
      (t.items ref).toList.filter
        (fun v => sortOrder (.integer 2) (fieldOf hand "rank" v) == .eq) =
          [.record ⟨0⟩, .record ⟨2⟩] ∧
      (t.items ref).toList.filter (fun v => sortOrder .nothing (fieldOf hand "rank" v) == .eq) =
        [.string "joker", .record ⟨3⟩] ∧
      let again := t.newRecord ⟨[("field", .string "rank"), ("list", .list ref)]⟩
      ∃ ref' u, FunctionTable.standard.call 0x31 ⟨"", 1⟩ again.1 again.2 = .ok (.list ref', u) ∧
        u.items ref' = t.items ref := by
  have hclosed : hand.Closed := by decide
  obtain ⟨-, -, ref, t, hcall, -, hext, hsorted, hagain⟩ :=
    sorting_stable hclosed .sortBy ⟨"", 0⟩ ⟨4⟩
  refine ⟨hclosed, ref, t, hcall, ?_, ?_, ?_⟩
  · exact (hsorted.stable (.integer 2)).trans (by decide)
  · exact (hsorted.stable .nothing).trans (by decide)
  · have hrecord := Store.record_newRecord_self (s := t)
      ⟨[("field", .string "rank"), ("list", .list ref)]⟩
    refine hagain _ _ _ (t.extends_newRecord _) ?_ fun _ => ?_
    · exact congrArg (Record.get · "list") hrecord
    · exact congrArg (fun r => Arguments.text ⟨_, r, _⟩ "field") hrecord

/-! ## Integers -/

section Integers

variable {s : Store} {m n : Int64} {ns : List Int64}

/-- No integer is below an earlier one, as the machine compares. -/
def Ascending (s : Store) (ns : List Int64) : Prop :=
  ns.Pairwise fun m n => CompareOp.lt.holds s (.integer n) (.integer m) = .ok false

theorem lt_holds_integer (s : Store) (m n : Int64) :
    CompareOp.lt.holds s (.integer m) (.integer n) = .ok (decide (m < n)) := by
  have horder : (Ord.compare m.toInt n.toInt == .lt) = decide (m < n) := by
    rw [Bool.eq_iff_iff, beq_iff_eq, decide_eq_true_iff, Int64.lt_iff_toInt_lt]
    exact Std.compare_eq_lt
  exact congrArg Except.ok horder

theorem ascending_iff : Ascending s ns ↔ ns.Pairwise (· ≤ ·) := by
  simp only [Ascending, lt_holds_integer, Except.ok.injEq, decide_eq_false_iff_not, Int64.not_lt]

/-- Small integers are not rounded. -/
theorem eq_of_ofInt64_eq (hm : m.toInt.natAbs ≤ 2 ^ 53) (hn : n.toInt.natAbs ≤ 2 ^ 53)
    (h : Binary64.ofInt64 m = Binary64.ofInt64 n) : m = n := by
  have hkey : (Binary64.ofInt m.toInt).orderKey = (Binary64.ofInt n.toInt).orderKey :=
    congrArg Binary64.orderKey h
  rcases lt_trichotomy m.toInt n.toInt with hlt | heq | hgt
  · exact absurd hkey (Binary64.orderKey_ofInt_lt hlt hm hn).ne
  · exact Int64.toInt_inj.1 heq
  · exact absurd hkey.symm (Binary64.orderKey_ofInt_lt hgt hn hm).ne

theorem sortOrder_integer_eq_eq :
    sortOrder (.integer m) (.integer n) = .eq ↔ Binary64.ofInt64 m = Binary64.ofInt64 n :=
  Binary64.totalCompare_eq_eq

/-- Integers are the wrong way round only if they are widened to the same float. -/
theorem ofInt64_eq_of_sorted (h : sortOrder (.integer m) (.integer n) ≠ .gt) (hlt : n < m) :
    Binary64.ofInt64 m = Binary64.ofInt64 n := by
  have hle := Binary64.orderKey_ofInt_le (Int64.lt_iff_toInt_lt.1 hlt).le
  have hge : (Binary64.ofInt64 m).orderKey ≤ (Binary64.ofInt64 n).orderKey :=
    Std.isLE_compare.1 (Ordering.ne_gt_iff_isLE.1 h)
  exact Binary64.orderKey_inj.1 (le_antisymm hge hle)

theorem exists_sortOn_integers (ns : List Int64) :
    ∃ ms : List Int64, ms.Perm ns ∧ sortOn id (ns.map .integer) = ms.map .integer :=
  ⟨ns.mergeSort fun m n => sortOrder (.integer m) (.integer n) != .gt, List.mergeSort_perm ..,
    (List.map_mergeSort (f := Value.integer) fun _ _ _ _ => rfl).symm⟩

section Sorted

variable {ms : List Int64} (h : StablySorted id (ns.map .integer) (ms.map .integer))
include h

theorem StablySorted.pairwise_ofInt64_eq :
    ms.Pairwise fun m n => n < m → Binary64.ofInt64 m = Binary64.ofInt64 n :=
  (List.pairwise_map.1 h.sorted).imp ofInt64_eq_of_sorted

/-- Integers that are widened to the same float are one class, and only within a class can one be
below an earlier one. -/
theorem StablySorted.pairwise_le_iff : ms.Pairwise (· ≤ ·) ↔
    ns.Pairwise fun m n => Binary64.ofInt64 m = Binary64.ofInt64 n → m ≤ n := by
  have hclasses := h.pairwise_iff (R := fun v w => CompareOp.lt.holds {} w v = .ok false)
  simp only [List.pairwise_map, id, sortOrder_integer_eq_eq, lt_holds_integer, Except.ok.injEq,
    decide_eq_false_iff_not, Int64.not_lt] at hclasses
  rw [← hclasses]
  constructor
  · exact fun hle => hle.imp fun {m n} hmn (_ : Binary64.ofInt64 m = Binary64.ofInt64 n) => hmn
  · intro hwithin
    refine (h.pairwise_ofInt64_eq.and hwithin).imp fun {m n} ⟨hsame, hle⟩ => ?_
    by_contra hnot
    exact hnot (hle (hsame (Int64.not_le.1 hnot)))

end Sorted

/-- Sorting integers sorts them as floats. So an integer is below an earlier one in the result only
if both are widened to the same float, and the result ascends just where such integers came in
ascending order; it always does up to `2 ^ 53`. -/
theorem integers_ascending_iff (context : CallContext) (args : RecordRef)
    (h : (argumentsIn context args s).items "list" = ns.map .integer) :
    ∃ ref t ms, FunctionTable.standard.call 0x30 context args s = .ok (.list ref, t) ∧
      (t.items ref).toList = ms.map .integer ∧ ms.Perm ns ∧
      (ms.Pairwise fun m n => CompareOp.lt.holds t (.integer n) (.integer m) = .ok true →
        Binary64.ofInt64 m = Binary64.ofInt64 n) ∧
      (Ascending t ms ↔ ms.Pairwise (· ≤ ·)) ∧
      (Ascending t ms ↔
        ns.Pairwise fun m n => Binary64.ofInt64 m = Binary64.ofInt64 n → m ≤ n) ∧
      ((∀ n ∈ ns, n.toInt.natAbs ≤ 2 ^ 53) → Ascending t ms) := by
  obtain ⟨ref, t, hcall, -, -, -, hitems⟩ := Sorter.sort.call_eq context args s
  obtain ⟨ms, hperm, hms⟩ := exists_sortOn_integers ns
  have hsorted := stablySorted_sortOn id (ns.map Value.integer)
  rw [hms] at hsorted
  rw [h] at hitems
  refine ⟨ref, t, ms, hcall, hitems.trans hms, hperm, ?_, ascending_iff,
    ascending_iff.trans hsorted.pairwise_le_iff, fun hsmall => ?_⟩
  · simp only [lt_holds_integer, Except.ok.injEq, decide_eq_true_iff]
    exact hsorted.pairwise_ofInt64_eq
  · refine ascending_iff.2 (hsorted.pairwise_le_iff.2 ?_)
    exact List.pairwise_of_forall_mem_list fun m hm n hn heq =>
      eq_of_ofInt64_eq (hsmall m hm) (hsmall n hn) heq ▸ Int64.le_refl m

/-- Has a list of integers, and a record of arguments with it. -/
def holding (ns : List Int64) : Store where
  lists := #[(ns.map Value.integer).toArray]
  records := #[⟨[("list", .list ⟨0⟩)]⟩]

/-- Of these integers around `2 ^ 53` the second and the last are widened to the same float, and
they come in ascending order. -/
theorem holding_ascending :
    let ns := [9007199254740994, 9007199254740992, -9007199254740993, 9007199254740993]
    (argumentsIn ⟨"", 0⟩ ⟨0⟩ (holding ns)).items "list" = ns.map .integer ∧
    ∃ ref t ms, FunctionTable.standard.call 0x30 ⟨"", 0⟩ ⟨0⟩ (holding ns) = .ok (.list ref, t) ∧
      (t.items ref).toList = ms.map .integer ∧ ms.Perm ns ∧ Ascending t ms := by
  intro ns
  have hread : (argumentsIn ⟨"", 0⟩ ⟨0⟩ (holding ns)).items "list" = ns.map .integer := rfl
  obtain ⟨ref, t, ms, hcall, hitems, hperm, -, -, hiff, -⟩ := integers_ascending_iff _ _ hread
  exact ⟨hread, ref, t, ms, hcall, hitems, hperm, hiff.2 (by decide)⟩

/-- In descending order these stay as they are. -/
theorem holding_not_ascending :
    ∃ ref t, FunctionTable.standard.call 0x30 ⟨"", 0⟩ ⟨0⟩
        (holding [9007199254740993, 9007199254740992]) = .ok (.list ref, t) ∧
      (t.items ref).toList = [.integer 9007199254740993, .integer 9007199254740992] ∧
      CompareOp.lt.holds t (.integer 9007199254740992) (.integer 9007199254740993) = .ok true := by
  obtain ⟨ref, t, hcall, -, -, -, hitems⟩ :=
    Sorter.sort.call_eq ⟨"", 0⟩ ⟨0⟩ (holding [9007199254740993, 9007199254740992])
  exact ⟨ref, t, hcall, hitems.trans (List.mergeSort_of_pairwise (by decide)), rfl⟩

end Integers

end TagMachine.Builtin
