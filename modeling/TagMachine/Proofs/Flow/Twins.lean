import TagMachine.Proofs.Machine.Operands
import TagMachine.Proofs.Machine.Run
import TagMachine.Proofs.Store.Pairing

set_option autoImplicit false

/-! # Machines that agree but for a tag

Two machines are twins for a tag when all their registers have the same tags, and those without the
tag hold the same values up to a pairing of containers (`Machine.Twins`). Nothing is said of the
values of registers that carry the tag.

Twins stay twins when both write a register alike (`Twins.put`), when containers are added or paired
ones are changed alike (`Twins.withStore`), and when containers are changed that no register without
the tag shows (`Twins.hide`).
-/

namespace TagMachine

variable {b : Nat} {β γ : Pairing}

/-- The tags do not include the one with number `b`. -/
def TagSet.Lacks (b : Nat) (t : TagSet) : Prop := t.getLsbD b = false

instance (b : Nat) : DecidablePred (TagSet.Lacks b) := fun _ => inferInstanceAs (Decidable (_ = _))

theorem TagSet.lacks_or {t u : TagSet} : Lacks b (t ||| u) ↔ Lacks b t ∧ Lacks b u := by
  simp [Lacks]

theorem TagSet.lacks_zero : Lacks b 0 := by
  simp [Lacks]

/-- Registers have the same tags and, without the tag, related values. -/
structure Register.Alike (b : Nat) (β : Pairing) (c d : Register) : Prop where
  tags : c.tags = d.tags
  value : TagSet.Lacks b c.tags → β.Rel c.value d.value

/-- Iterations are the same up to their values, and these are related where the list does not carry
the tag. -/
structure Frame.Alike (b : Nat) (β : Pairing) (f g : Frame) : Prop where
  shape : ∃ xs ys, g = { f with items := xs, results := ys }
  body : f.bodyStart ≤ f.collectAt
  items : TagSet.Lacks b f.sourceTags → List.Forall₂ β.Rel f.items.toList g.items.toList
  results : TagSet.Lacks b f.sourceTags → List.Forall₂ β.Rel f.results.toList g.results.toList

theorem Register.Alike.mono (hle : β ≤ γ) {c d : Register} (h : c.Alike b β d) : c.Alike b γ d :=
  ⟨h.tags, fun hlow => (h.value hlow).mono hle⟩

theorem Frame.Alike.mono (hle : β ≤ γ) {f g : Frame} (h : f.Alike b β g) : f.Alike b γ g :=
  ⟨h.shape, h.body, fun hlow => (h.items hlow).imp fun _ _ => Pairing.Rel.mono hle,
    fun hlow => (h.results hlow).imp fun _ _ => Pairing.Rel.mono hle⟩

namespace Machine

/-- The register in a place lacks the tag. -/
def Low (b : Nat) (m : Machine) (k : Nat) : Prop := TagSet.Lacks b (m.peek k).tags

instance (b : Nat) (m : Machine) : DecidablePred (m.Low b) := fun _ =>
  inferInstanceAs (Decidable (TagSet.Lacks _ _))

/-- Registers that are alike stay so when both machines write a register alike. -/
theorem alike_put {m m' : Machine} (hsize : m.registers.size = m'.registers.size)
    (h : ∀ j, (m.peek j).Alike b β (m'.peek j)) (k : Nat) {c d : Register} (hcd : c.Alike b β d)
    (j : Nat) : ((m.put k c).peek j).Alike b β ((m'.put k d).peek j) := by
  by_cases hk : k < m.registers.size
  · by_cases hjk : k = j
    · obtain rfl := hjk
      rw [peek_put_self hk, peek_put_self (hsize ▸ hk)]
      exact hcd
    · rw [peek_put_of_ne hjk, peek_put_of_ne hjk]
      exact h j
  · rw [put_of_le (by omega), put_of_le (by omega)]
    exact h j

/-- The machines have related stores and the same tags, and agree where the tag is missing. -/
structure Twins (b : Nat) (β : Pairing) (m m' : Machine) : Prop where
  stores : β.Matches m.store m'.store
  oneToOne : β.OneToOne
  size : m.registers.size = m'.registers.size
  registers : ∀ k, (m.peek k).Alike b β (m'.peek k)
  frames : List.Forall₂ (Frame.Alike b β) m.frames m'.frames
  executed : m.executed = m'.executed

namespace Twins

variable {m m' : Machine}

theorem low_iff (h : Twins b β m m') (k : Nat) : m.Low b k ↔ m'.Low b k := by
  unfold Low
  rw [(h.registers k).tags]

theorem put (h : Twins b β m m') (k : Nat) {c d : Register} (hcd : c.Alike b β d) :
    Twins b β (m.put k c) (m'.put k d) where
  stores := h.stores
  oneToOne := h.oneToOne
  size := by rw [size_put, size_put, h.size]
  registers := alike_put h.size h.registers k hcd
  frames := h.frames
  executed := h.executed

/-- The stores become others that a larger pairing matches. -/
theorem withStore (h : Twins b β m m') (hle : β ≤ γ) {s t : Store} (hst : γ.Matches s t)
    (hone : γ.OneToOne) : Twins b γ { m with store := s } { m' with store := t } where
  stores := hst
  oneToOne := hone
  size := h.size
  registers k := (h.registers k).mono hle
  frames := h.frames.imp fun _ _ => Frame.Alike.mono hle
  executed := h.executed

theorem withFrames (h : Twins b β m m') {fs gs : List Frame}
    (hfs : List.Forall₂ (Frame.Alike b β) fs gs) : Twins b β (m.withFrames fs) (m'.withFrames gs) :=
  { h with frames := hfs, registers := h.registers }

theorem tick (h : Twins b β m m') : Twins b β m.tick m'.tick :=
  { h with executed := congrArg (· + 1) h.executed, registers := h.registers }

end Twins

/-! ## Containers that are not shown -/

/-- A value is reached neither from a register without the tag, but for the one in place `k`, nor
from what an iteration over a list without the tag holds. -/
def Hides (b : Nat) (m : Machine) (k : Nat) (c : Value) : Prop :=
  (∀ j < m.registers.size, j ≠ k → m.Low b j → ¬m.store.Reaches (m.peek j).value c) ∧
    ∀ f ∈ m.frames, TagSet.Lacks b f.sourceTags →
      ∀ v ∈ f.items.toList ++ f.results.toList, ¬m.store.Reaches v c

instance (b : Nat) (m : Machine) (k : Nat) (c : Value) : Decidable (m.Hides b k c) :=
  inferInstanceAs (Decidable (_ ∧ _))

/-- Containers that the machines hide change, and the register in place `k`, which may show them,
gets the tag. -/
theorem Twins.hide {m m' : Machine} (h : Twins b β m m') {k : Nat} {c d : Value}
    (hc : m.Hides b k c) (hd : m'.Hides b k d) {s t : Store}
    (hs : m.store.SameOn (· ≠ c) s) (ht : m'.store.SameOn (· ≠ d) t) {x y : Register}
    (htags : x.tags = y.tags) (hhigh : ¬TagSet.Lacks b x.tags) (hk : k < m.registers.size) :
    Twins b (β.without m.store m'.store c d) ({ m with store := s }.put k x)
      ({ m' with store := t }.put k y) where
  stores := h.stores.without hs ht
  oneToOne := h.oneToOne.without _ _ _ _
  size := by
    rw [size_put, size_put]
    exact h.size
  registers j := by
    show ((m.put k x).peek j).Alike b _ ((m'.put k y).peek j)
    by_cases hjk : k = j
    · obtain rfl := hjk
      rw [peek_put_self hk, peek_put_self (h.size ▸ hk)]
      exact ⟨htags, fun hlow => absurd hlow hhigh⟩
    · rw [peek_put_of_ne hjk, peek_put_of_ne hjk]
      refine ⟨(h.registers j).tags, fun hlow => ?_⟩
      by_cases hj : j < m.registers.size
      · refine ((h.registers j).value hlow).without ?_ ?_
        · exact hc.1 j hj (Ne.symm hjk) hlow
        · exact hd.1 j (h.size ▸ hj) (Ne.symm hjk) ((h.low_iff j).1 hlow)
      · rw [peek_of_le (by omega), peek_of_le (by rw [← h.size]; omega)]
        exact .scalar rfl
  frames := by
    refine Pairing.forall₂_imp_of_mem h.frames fun f hf g hg hfg => ?_
    have hsource : f.sourceTags = g.sourceTags := by
      obtain ⟨xs, ys, rfl⟩ := hfg.shape
      rfl
    refine ⟨hfg.shape, hfg.body, fun hlow => ?_, fun hlow => ?_⟩
    · refine Pairing.forall₂_imp_of_mem (hfg.items hlow) fun v hv w hw hvw => hvw.without ?_ ?_
      · exact hc.2 f hf hlow v (List.mem_append_left _ hv)
      · exact hd.2 g hg (hsource ▸ hlow) w (List.mem_append_left _ hw)
    · refine Pairing.forall₂_imp_of_mem (hfg.results hlow) fun v hv w hw hvw => hvw.without ?_ ?_
      · exact hc.2 f hf hlow v (List.mem_append_right _ hv)
      · exact hd.2 g hg (hsource ▸ hlow) w (List.mem_append_right _ hw)
  executed := h.executed

end Machine

end TagMachine
