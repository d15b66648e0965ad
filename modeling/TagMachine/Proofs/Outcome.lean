import Mathlib.Tactic

set_option autoImplicit false

/-! # Outcomes of computations

Computations that may fail, one after another, and two of them side by side.
-/

namespace TagMachine

variable {ε α β : Type}

/-- What a sequence of two computations gives, by what each of them gives. -/
theorem bind_eq_ok {x : Except ε α} {f : α → Except ε β} {b : β} :
    (x >>= f) = .ok b ↔ ∃ a, x = .ok a ∧ f a = .ok b := by
  cases x <;> simp [bind, Except.bind]

/-- A sequence of two computations fails in one of the two. -/
theorem bind_eq_error {x : Except ε α} {f : α → Except ε β} {e : ε} :
    (x >>= f) = .error e ↔ x = .error e ∨ ∃ a, x = .ok a ∧ f a = .error e := by
  cases x <;> simp [bind, Except.bind]

theorem pure_eq_ok {a b : α} : (pure a : Except ε α) = .ok b ↔ a = b := by
  simp [pure, Except.pure]

@[simp] theorem ok_bind (a : α) (f : α → Except ε β) : (Except.ok a >>= f) = f a := rfl

/-- What fails in the end fails. -/
theorem exists_error_bind {x : Except ε α} {f : α → Except ε β}
    (h : ∀ a, ∃ e, f a = .error e) : ∃ e, (x >>= f) = .error e := by
  cases x with
  | error e => exact ⟨e, rfl⟩
  | ok a => exact h a

/-- Two computations that start alike and go on to results that a function links. -/
theorem bind_map_congr {γ : Type} {x : Except ε α} {f : α → Except ε γ}
    {g : α → Except ε β} {h : β → γ} (hfg : ∀ a, f a = (g a).map h) :
    (x >>= f) = (x >>= g).map h := by
  cases x with
  | error e => rfl
  | ok a => exact hfg a

/-- Two computations both succeed, with related results, or both fail. -/
inductive Alike {ε α β : Type} (R : α → β → Prop) : Except ε α → Except ε β → Prop
  | ok {a : α} {b : β} (h : R a b) : Alike R (.ok a) (.ok b)
  | error (e e' : ε) : Alike R (.error e) (.error e')

theorem Alike.bind {α' β' : Type} {R : α → β → Prop} {S : α' → β' → Prop} {x : Except ε α}
    {y : Except ε β} {f : α → Except ε α'} {g : β → Except ε β'} (h : Alike R x y)
    (hfg : ∀ a b, R a b → Alike S (f a) (g b)) : Alike S (x >>= f) (y >>= g) := by
  cases h with
  | ok hab => exact hfg _ _ hab
  | error e e' => exact .error e e'

theorem Alike.imp {R S : α → β → Prop} {x : Except ε α} {y : Except ε β}
    (h : Alike R x y) (hRS : ∀ a b, x = .ok a → R a b → S a b) : Alike S x y := by
  cases h with
  | ok hab => exact .ok (hRS _ _ rfl hab)
  | error e e' => exact .error e e'

theorem Alike.of_map {γ : Type} {R : α → β → Prop} {f : γ → α} {x : Except ε γ}
    {y : Except ε β} (h : Alike R (x.map f) y) : Alike (fun c b => R (f c) b) x y := by
  cases x with
  | error e =>
    cases h
    exact .error ..
  | ok c =>
    cases h with
    | ok hab => exact .ok hab

end TagMachine
