import Mathlib.Logic.Function.Basic
import Mathlib.Data.List.Induction

/-!
# Library — redo records over a store

A store is a function `κ → β`.  `applyWrites` performs a list of writes in order.  `Redo` relates
a store `d` to the store `H` it stands for when a list `bs` of keys has been logged, the value
of the `j`-th in `slot j`: a logged key stands for its slot, and every other key of interest for
itself.  Copying a slot to its key keeps the relation (`Redo.install`), so that a recovery that
is cut short can be run again; once every slot has been copied the store is `H` (`Redo.done`).
-/

namespace Lib

variable {κ β : Type*} [DecidableEq κ]

/-- The writes of `ws`, in order. -/
def applyWrites (ws : List (κ × β)) (d : κ → β) : κ → β :=
  ws.foldl (fun d w => Function.update d w.1 w.2) d

@[simp] theorem applyWrites_nil (d : κ → β) : applyWrites [] d = d := rfl

theorem applyWrites_append (ws vs : List (κ × β)) (d : κ → β) :
    applyWrites (ws ++ vs) d = applyWrites vs (applyWrites ws d) :=
  List.foldl_append

theorem applyWrites_snoc (ws : List (κ × β)) (k : κ) (v : β) (d : κ → β) :
    applyWrites (ws ++ [(k, v)]) d = Function.update (applyWrites ws d) k v :=
  applyWrites_append ws _ d

/-- A value in the result is an old value or a written one. -/
theorem applyWrites_cases (ws : List (κ × β)) (d : κ → β) (k : κ) :
    applyWrites ws d k = d k ∨ (k, applyWrites ws d k) ∈ ws := by
  induction ws using List.reverseRecOn with
  | nil => exact Or.inl rfl
  | append_singleton ws w ih =>
      obtain ⟨k', v⟩ := w
      rw [applyWrites_snoc]
      by_cases hk : k = k'
      · subst hk
        rw [Function.update_self]
        exact Or.inr (by simp)
      · rw [Function.update_of_ne hk]
        rcases ih with ih | ih
        · exact Or.inl ih
        · exact Or.inr (List.mem_append_left _ ih)

theorem applyWrites_of_not_mem {ws : List (κ × β)} {k : κ} (h : ∀ w ∈ ws, w.1 ≠ k) (d : κ → β) :
    applyWrites ws d k = d k := by
  rcases applyWrites_cases ws d k with h' | h'
  · exact h'
  · exact absurd rfl (h _ h')

/-- The store `d` stands for `H` on `home`, the keys `bs` being logged in `slot`. -/
structure Redo (home : κ → Prop) (bs : List κ) (slot : ℕ → β) (d H : κ → β) : Prop where
  logged : ∀ (j : ℕ) (b : κ), bs[j]? = some b → slot j = H b
  rest : ∀ b, home b → b ∉ bs → d b = H b

namespace Redo

variable {home : κ → Prop} {bs : List κ} {slot : ℕ → β} {d H : κ → β}

omit [DecidableEq κ] in
/-- With nothing logged, the store stands for itself. -/
theorem nil (h : ∀ b, home b → d b = H b) : Redo home [] slot d H where
  logged := fun j b hb => by simp at hb
  rest := fun b hb _ => h b hb

/-- **Installing one slot.** -/
theorem install {j : ℕ} {b : κ} (h : Redo home bs slot d H) (hb : bs[j]? = some b) :
    Redo home bs slot (Function.update d b (slot j)) H where
  logged := h.logged
  rest := fun c hc hn => by
    have hcb : c ≠ b := by rintro rfl; exact hn (List.mem_of_getElem? hb)
    rw [Function.update_of_ne hcb, h.rest c hc hn]

/-- **All slots installed.** -/
theorem done (h : Redo home bs slot d H) (hall : ∀ (j : ℕ) (b : κ), bs[j]? = some b → d b = H b)
    {b : κ} (hb : home b) : d b = H b := by
  by_cases hmem : b ∈ bs
  · obtain ⟨j, hj⟩ := List.getElem?_of_mem hmem
    exact hall j b hj
  · exact h.rest b hb hmem

end Redo

end Lib
