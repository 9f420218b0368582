import Mathlib.Data.Option.Basic
import Mathlib.Logic.Basic

/-!
# Library — inverting partial computations

A guard in an `Option` block returns exactly when its condition holds; an `Except` computation
read as an `Option` returns exactly when it does not fail; and a sequence of two `Except`
computations returns exactly when both do, and fails only as one of them does.  A search that
finds an element splits the list into that element and the others.
-/

namespace Lib

variable {ε α β : Type}

@[simp]
theorem guard_eq_some {p : Prop} [Decidable p] {u : Unit} : (guard p : Option Unit) = some u ↔ p := by
  by_cases h : p <;> simp [guard, h]

@[simp]
theorem toOption_eq_some {x : Except ε α} {a : α} : x.toOption = some a ↔ x = .ok a := by
  cases x <;> simp [Except.toOption]

theorem bind_eq_ok {x : Except ε α} {f : α → Except ε β} {b : β} :
    x.bind f = .ok b ↔ ∃ a, x = .ok a ∧ f a = .ok b := by
  cases x <;> simp [Except.bind]

theorem bind_eq_error {x : Except ε α} {f : α → Except ε β} {e : ε} :
    x.bind f = .error e ↔ x = .error e ∨ ∃ a, x = .ok a ∧ f a = .error e := by
  cases x <;> simp [Except.bind]

theorem bind_ne_error {x : Except ε α} {f : α → Except ε β} {e : ε} (hx : x ≠ .error e)
    (hf : ∀ a, x = .ok a → f a ≠ .error e) : x.bind f ≠ .error e := by
  cases x with
  | error e' => simpa [Except.bind] using hx
  | ok a => exact hf a rfl

theorem mapError_eq_ok {δ : Type} {x : Except ε α} {f : ε → δ} {a : α} :
    x.mapError f = .ok a ↔ x = .ok a := by
  cases x with
  | error e => exact iff_of_false (fun h => by cases h) fun h => by cases h
  | ok b => exact ⟨fun h => by cases h; rfl, fun h => by cases h; rfl⟩

theorem perm_of_find? {l : List α} {f : α → Bool} {a : α} (h : l.find? f = some a) :
    l.Perm (a :: l.eraseP f) := by
  obtain ⟨ha, pre, post, hl, hpre⟩ := List.find?_eq_some_iff_append.mp h
  have hrest : l.eraseP f = pre ++ post := by
    rw [hl, List.eraseP_append_right _ (by simpa using hpre), List.eraseP_cons_of_pos ha]
  rw [hrest, hl]
  exact List.perm_middle

end Lib
