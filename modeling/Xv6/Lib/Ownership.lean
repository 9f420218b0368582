import Mathlib.Tactic.Common
import Mathlib.Logic.Function.Basic
import Mathlib.Data.Nat.Notation

/-!
# Library — places that hold addresses, and a map of the addresses in use

A place holds an address, or `0` for none.  `Owns at used lo hi`: the addresses held lie in
`lo ≤ · < hi`, no two places hold one address, and the addresses marked used from `lo` on are
exactly those held; all below `lo` are marked used.

* `Owns.assign` — an empty place may be given an unused address, which is marked used.
* `Owns.release` — any set of places may be emptied together, their addresses becoming unused.
-/

namespace Lib

variable {P : Type*} {hold hold' : P → ℕ} {used used' : ℕ → Bool} {lo hi : ℕ}

/-- The pointers that are not 0 lie in a range, are marked, and are all different. -/
structure Owns (hold : P → ℕ) (used : ℕ → Bool) (lo hi : ℕ) : Prop where
  range : ∀ p, hold p ≠ 0 → lo ≤ hold p ∧ hold p < hi
  marked : ∀ p, hold p ≠ 0 → used (hold p)
  unique : ∀ p q, hold p ≠ 0 → hold p = hold q → p = q
  owned : ∀ b, lo ≤ b → used b → ∃ p, hold p = b
  below : ∀ b, b < lo → used b

namespace Owns

/-- An address no place holds is unused, or below the places. -/
theorem ne_of_unused (h : Owns hold used lo hi) {b : ℕ} (hb : used b = false) (hb0 : b ≠ 0) (p : P) :
    hold p ≠ b := by
  rintro rfl
  simpa [hb] using h.marked p hb0

theorem le_of_unused (h : Owns hold used lo hi) {b : ℕ} (hb : used b = false) : lo ≤ b := by
  by_contra hlt
  simpa [hb] using h.below b (by omega)

/-- A block that was free gets an owner. -/
theorem assign [DecidableEq P] (h : Owns hold used lo hi) {p₀ : P} {b : ℕ} (hp : hold p₀ = 0)
    (hb : used b = false) (hlo : 0 < lo) (hhi : b < hi) :
    Owns (Function.update hold p₀ b) (Function.update used b true) lo hi := by
  have hle := h.le_of_unused hb
  have hne := h.ne_of_unused hb (by omega)
  constructor
  · intro p hp'
    by_cases e : p = p₀
    · subst e
      simpa using ⟨hle, hhi⟩
    · rw [Function.update_of_ne e] at hp' ⊢
      exact h.range p hp'
  · intro p hp'
    by_cases e : p = p₀
    · subst e
      simp
    · rw [Function.update_of_ne e] at hp' ⊢
      rw [Function.update_of_ne (hne p)]
      exact h.marked p hp'
  · intro p q hp' hpq
    by_cases e : p = p₀ <;> by_cases e' : q = p₀
    · rw [e, e']
    · subst e
      rw [Function.update_self, Function.update_of_ne e'] at hpq
      exact absurd hpq.symm (hne q)
    · subst e'
      rw [Function.update_self, Function.update_of_ne e] at hpq
      exact absurd hpq (hne p)
    · rw [Function.update_of_ne e] at hp' hpq
      rw [Function.update_of_ne e'] at hpq
      exact h.unique p q hp' hpq
  · intro b' hle' hb'
    by_cases e : b' = b
    · exact ⟨p₀, by rw [Function.update_self, e]⟩
    · rw [Function.update_of_ne e] at hb'
      obtain ⟨p, hp'⟩ := h.owned b' hle' hb'
      have : p ≠ p₀ := by
        rintro rfl
        omega
      exact ⟨p, by rw [Function.update_of_ne this, hp']⟩
  · intro b' hlt
    rw [Function.update_of_ne (by omega)]
    exact h.below b' hlt

/-- The blocks of some owners become free. -/
theorem release (h : Owns hold used lo hi) (S : P → Prop) (hlo : 0 < lo)
    (hS : ∀ p, S p → hold' p = 0) (hS' : ∀ p, ¬ S p → hold' p = hold p)
    (hused : ∀ b, used' b ↔ used b ∧ ¬ ∃ p, S p ∧ hold p ≠ 0 ∧ hold p = b) :
    Owns hold' used' lo hi := by
  have hkeep : ∀ p, hold' p ≠ 0 → ¬ S p ∧ hold' p = hold p := by
    intro p hp
    have : ¬ S p := fun hs => hp (hS p hs)
    exact ⟨this, hS' p this⟩
  constructor
  · intro p hp
    obtain ⟨-, e⟩ := hkeep p hp
    rw [e] at hp ⊢
    exact h.range p hp
  · intro p hp
    obtain ⟨hs, e⟩ := hkeep p hp
    rw [e] at hp ⊢
    refine (hused _).mpr ⟨h.marked p hp, ?_⟩
    rintro ⟨q, hq, hq0, hqp⟩
    exact hs (h.unique q p hq0 hqp ▸ hq)
  · intro p q hp hpq
    obtain ⟨-, e⟩ := hkeep p hp
    obtain ⟨-, e'⟩ := hkeep q (hpq ▸ hp)
    rw [e] at hp hpq
    exact h.unique p q hp (hpq.trans e')
  · intro b hle hb
    obtain ⟨hb, hno⟩ := (hused b).mp hb
    obtain ⟨p, hp⟩ := h.owned b hle hb
    have : ¬ S p := fun hs => hno ⟨p, hs, by omega, hp⟩
    exact ⟨p, by rw [hS' p this, hp]⟩
  · intro b hlt
    refine (hused b).mpr ⟨h.below b hlt, ?_⟩
    rintro ⟨p, -, hp0, hp⟩
    have := h.range p hp0
    omega

end Owns

end Lib
