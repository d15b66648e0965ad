import TagMachine.Proofs.Store.Basic

set_option autoImplicit false

/-! # What values reach

`Store.Reaches` says that a value is, or holds at some depth, another. It can be decided: the
shortest way from one to the other goes through different containers of the store, so it is no
longer than the store is large. Behind this is a counting argument (`exists_le_length`), which also
bounds the depth of trees and of comparisons.
-/

namespace TagMachine.Store

variable {s : Store} {v w c : Value}

/-- A value is, or holds at some depth, another. -/
inductive Reaches (s : Store) : Value → Value → Prop
  | refl (v : Value) : Reaches s v v
  | item {a : ListRef} {v w : Value} (hmem : v ∈ (s.items a).toList) (h : Reaches s v w) :
      Reaches s (.list a) w
  | field {a : RecordRef} {f : String × Value} {w : Value} (hmem : f ∈ (s.record a).fields)
      (h : Reaches s f.2 w) : Reaches s (.record a) w

/-! ## The containers of a store -/

/-- The values that a value holds. -/
def children (s : Store) : Value → List Value
  | .list a => (s.items a).toList
  | .record a => (s.record a).values
  | _ => []

def containers (s : Store) : List Value :=
  (List.range s.lists.size).map (fun k => .list ⟨k⟩) ++
    (List.range s.records.size).map fun k => .record ⟨k⟩

theorem length_containers (s : Store) : s.containers.length = s.size := by
  simp [containers, size]

theorem list_mem_containers {a : ListRef} (h : a.index < s.lists.size) : .list a ∈ s.containers :=
  List.mem_append_left _ (List.mem_map.2 ⟨a.index, List.mem_range.2 h, rfl⟩)

theorem record_mem_containers {a : RecordRef} (h : a.index < s.records.size) :
    .record a ∈ s.containers :=
  List.mem_append_right _ (List.mem_map.2 ⟨a.index, List.mem_range.2 h, rfl⟩)

/-- Only containers of the store hold anything. -/
theorem mem_containers (h : w ∈ s.children v) : v ∈ s.containers := by
  cases v with
  | list a =>
    refine list_mem_containers ?_
    by_contra hlarge
    simp [children, items, Array.getD, hlarge] at h
  | record a =>
    refine record_mem_containers ?_
    by_contra hlarge
    simp [children, record, Array.getD, hlarge, Record.values, Record.empty] at h
  | _ => cases h

/-- What holds at some depth holds at one up to the length of a list, if everything that needs a
positive depth is on the list and leads to something that needs one less. -/
theorem exists_le_length {α : Type} (p : α → Nat → Prop) (all : List α)
    (hstep : ∀ {x k}, Minimal (p x) (k + 1) → x ∈ all ∧ ∃ y, Minimal (p y) k)
    {x : α} {n : Nat} (h : p x n) : ∃ k ≤ all.length, p x k := by
  -- There is one element of the list for each depth up to the least one of `x`.
  have hchain : ∀ {x k}, Minimal (p x) k → ∃ xs : List α, xs.length = k ∧ xs.Nodup ∧
      xs ⊆ all ∧ ∀ y ∈ xs, ∃ j ≤ k, Minimal (p y) j := by
    intro x k hk
    induction k generalizing x with
    | zero => exact ⟨[], rfl, .nil, nofun, nofun⟩
    | succ k ih =>
      obtain ⟨hx, y, hy⟩ := hstep hk
      obtain ⟨xs, hlength, hnodup, hsub, hleast⟩ := ih hy
      refine ⟨x :: xs, by simp [hlength], List.nodup_cons.2 ⟨fun hmem => ?_, hnodup⟩,
        List.cons_subset.2 ⟨hx, hsub⟩, ?_⟩
      · obtain ⟨j, hj, hleast⟩ := hleast x hmem
        have := hk.2 hleast.1
        omega
      · intro z hz
        rcases List.mem_cons.1 hz with rfl | hz
        · exact ⟨k + 1, le_rfl, hk⟩
        · obtain ⟨j, hj, hleast⟩ := hleast z hz
          exact ⟨j, by omega, hleast⟩
  classical
  have hex : ∃ n, p x n := ⟨n, h⟩
  obtain ⟨xs, hlength, hnodup, hsub, -⟩ :=
    hchain (x := x) (k := Nat.find hex) ⟨Nat.find_spec hex, fun _ hn _ => Nat.find_min' hex hn⟩
  exact ⟨Nat.find hex, hlength ▸ (hnodup.subperm hsub).length_le, Nat.find_spec hex⟩

/-! ## Deciding -/

/-- Whether a value reaches another in at most so many steps. -/
def reachesWithin (s : Store) : Nat → Value → Value → Bool
  | 0, v, c => v = c
  | n + 1, v, c => v = c || (s.children v).any fun w => s.reachesWithin n w c

theorem reaches_of_child (hw : w ∈ s.children v) (h : s.Reaches w c) : s.Reaches v c := by
  cases v with
  | list a => exact .item hw h
  | record a =>
    obtain ⟨f, hf, rfl⟩ := List.mem_map.1 hw
    exact .field hf h
  | _ => cases hw

theorem reaches_of_reachesWithin {n : Nat} (h : s.reachesWithin n v c = true) : s.Reaches v c := by
  induction n generalizing v with
  | zero =>
    obtain rfl : v = c := by simpa [reachesWithin] using h
    exact .refl v
  | succ n ih =>
    simp only [reachesWithin, Bool.or_eq_true, decide_eq_true_eq, List.any_eq_true] at h
    rcases h with rfl | ⟨w, hw, h⟩
    · exact .refl v
    · exact reaches_of_child hw (ih h)

theorem exists_reachesWithin (h : s.Reaches v c) : ∃ n, s.reachesWithin n v c = true := by
  induction h with
  | refl v => exact ⟨0, by simp [reachesWithin]⟩
  | @item a v w hmem h ih =>
    obtain ⟨n, hn⟩ := ih
    have hany : ((s.children (.list a)).any fun v => s.reachesWithin n v w) = true :=
      List.any_eq_true.2 ⟨v, hmem, hn⟩
    exact ⟨n + 1, by rw [reachesWithin, hany, Bool.or_true]⟩
  | @field a f w hmem h ih =>
    obtain ⟨n, hn⟩ := ih
    have hany : ((s.children (.record a)).any fun v => s.reachesWithin n v w) = true :=
      List.any_eq_true.2 ⟨f.2, List.mem_map_of_mem hmem, hn⟩
    exact ⟨n + 1, by rw [reachesWithin, hany, Bool.or_true]⟩

theorem reachesWithin_of_le {n k : Nat} (h : s.reachesWithin n v c = true) (hle : n ≤ k) :
    s.reachesWithin k v c = true := by
  induction n generalizing v k with
  | zero =>
    obtain rfl : v = c := by simpa [reachesWithin] using h
    cases k <;> simp [reachesWithin]
  | succ n ih =>
    obtain ⟨k, rfl⟩ : ∃ j, k = j + 1 := ⟨k - 1, by omega⟩
    simp only [reachesWithin, Bool.or_eq_true, List.any_eq_true] at h ⊢
    exact h.imp_right fun ⟨w, hw, h⟩ => ⟨w, hw, ih h (by omega)⟩

/-- The first step of a shortest way leads one nearer. -/
theorem exists_child_nearer {k : Nat} (h : Minimal (s.reachesWithin · v c = true) (k + 1)) :
    ∃ w ∈ s.children v, Minimal (s.reachesWithin · w c = true) k := by
  obtain ⟨h, hleast⟩ := h
  have hne : v ≠ c := by
    rintro rfl
    have hzero := hleast (y := 0) (by simp [reachesWithin]) (by omega)
    omega
  simp only [reachesWithin, decide_eq_false hne, Bool.false_or, List.any_eq_true] at h
  obtain ⟨w, hw, h⟩ := h
  refine ⟨w, hw, h, fun j hj hle => ?_⟩
  have hlonger : s.reachesWithin (j + 1) v c = true := by
    rw [reachesWithin, List.any_eq_true.2 ⟨w, hw, hj⟩, Bool.or_true]
  have := hleast hlonger (by omega)
  omega

theorem reaches_iff : s.Reaches v c ↔ s.reachesWithin s.size v c = true := by
  refine ⟨fun h => ?_, reaches_of_reachesWithin⟩
  obtain ⟨n, hn⟩ := exists_reachesWithin h
  obtain ⟨k, hk, hreaches⟩ := exists_le_length (fun v n => s.reachesWithin n v c = true)
    s.containers (fun hleast => by
      obtain ⟨w, hw, hnearer⟩ := exists_child_nearer hleast
      exact ⟨mem_containers hw, w, hnearer⟩) hn
  exact reachesWithin_of_le hreaches (s.length_containers ▸ hk)

instance : Decidable (s.Reaches v c) := decidable_of_iff _ reaches_iff.symm

end TagMachine.Store
