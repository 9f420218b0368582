import Mathlib.Algebra.BigOperators.Group.Finset.Basic
import Mathlib.Tactic.Common

/-!
# Library — computations with a state, and books that balance

Computations of `StateT σ (Except ε)`: with a state, and with failures that end them.

* `wp E x Q s` — `x`, run in `s`, returns with `Q` or fails with a failure in `E`; with the rules
  of sequencing and consequence.
* `Balances held g x post` — the ledger rule.  The state holds a sum of goods, `held`; a computation
  that is given the goods `g` returns goods `r` of which `post` speaks, and what the state holds
  with the goods returned is what it held with the goods given.  Nothing is made or lost on the
  way, on any path that returns.  The rules are those of sequencing, of consequence and of the
  frame: goods not mentioned stay with the caller.
* `sum_update` — a sum of which one term changes.
-/

namespace Lib

variable {ε σ α β γ M ι : Type}

/-! ### Correctness up to admitted failures -/

/-- `x`, run in `s`, ends with `Q`, or fails as `E` allows. -/
def wp (E : ε → Prop) (x : StateT σ (Except ε) α) (Q : α → σ → Prop) (s : σ) : Prop :=
  match x s with
  | .ok (a, t) => Q a t
  | .error e => E e

section

variable {E : ε → Prop} {x : StateT σ (Except ε) α} {f : α → StateT σ (Except ε) β}
  {Q Q' : α → σ → Prop} {s t : σ}

@[simp]
theorem wp_pure {a : α} : wp E (pure a) Q s ↔ Q a s := Iff.rfl

@[simp]
theorem wp_throw {e : ε} : wp E (throw e : StateT σ (Except ε) α) Q s ↔ E e := Iff.rfl

@[simp]
theorem wp_get {Q : σ → σ → Prop} : wp E get Q s ↔ Q s s := Iff.rfl

@[simp]
theorem wp_modify {u : σ → σ} {Q : PUnit → σ → Prop} : wp E (modify u) Q s ↔ Q ⟨⟩ (u s) := Iff.rfl

theorem wp_bind {Q : β → σ → Prop} :
    wp E (x >>= f) Q s ↔ wp E x (fun a t => wp E (f a) Q t) s := by
  simp only [wp, bind, StateT.bind, Except.bind]
  cases x s <;> rfl

theorem wp_mono (hx : wp E x Q s) (hQ : ∀ a t, Q a t → Q' a t) : wp E x Q' s := by
  unfold wp at *
  split at hx
  · exact hQ _ _ hx
  · exact hx

/-- More failures may be admitted. -/
theorem wp_weaken {E' : ε → Prop} (hx : wp E x Q s) (h : ∀ e, E e → E' e) : wp E' x Q s := by
  unfold wp at *
  split at hx
  · exact hx
  · exact h _ hx

/-- The rule of sequencing. -/
theorem wp_seq {Q : β → σ → Prop} (hx : wp E x Q' s) (hf : ∀ a t, Q' a t → wp E (f a) Q t) :
    wp E (x >>= f) Q s :=
  wp_bind.mpr (wp_mono hx hf)

/-- What returns has run. -/
theorem wp_run (hx : wp E x Q s) : wp E x (fun a t => Q a t ∧ x s = .ok (a, t)) s := by
  unfold wp at *
  cases hr : x s with
  | error e => simpa [hr] using hx
  | ok r => exact ⟨by simpa [hr] using hx, rfl⟩

theorem wp_of_ok {a : α} (hx : wp E x Q s) (hr : x s = .ok (a, t)) : Q a t := by
  simpa [wp, hr] using hx

theorem wp_of_error {e : ε} (hx : wp E x Q s) (hr : x s = .error e) : E e := by
  simpa [wp, hr] using hx

/-- Where no failure is admitted, there is a result. -/
theorem wp_returns (hx : wp E x Q s) (hE : ∀ e, ¬ E e) : ∃ a t, x s = .ok (a, t) ∧ Q a t := by
  unfold wp at hx
  cases hr : x s with
  | error e =>
      rw [hr] at hx
      exact absurd hx (hE e)
  | ok r =>
      rw [hr] at hx
      exact ⟨r.1, r.2, rfl, hx⟩

end

/-! ### Books that balance -/

/-- A sum of which one term changes. -/
theorem sum_update [AddCommMonoid M] [DecidableEq ι] {S : Finset ι} {i : ι} (hi : i ∈ S)
    (F : ι → γ → M) (f : ι → γ) (b : γ) :
    ∑ j ∈ S, F j (Function.update f i b j) + F i (f i) = ∑ j ∈ S, F j (f j) + F i b := by
  have hrest : ∑ j ∈ S.erase i, F j (Function.update f i b j) = ∑ j ∈ S.erase i, F j (f j) :=
    Finset.sum_congr rfl fun j hj => by rw [Function.update_of_ne (Finset.ne_of_mem_erase hj)]
  rw [← Finset.add_sum_erase S _ hi, ← Finset.add_sum_erase S (fun j => F j (f j)) hi, hrest,
    Function.update_self, add_comm (F i b), add_comm (F i (f i)), add_right_comm]

/-- What `x` leaves held, with what it gives, is what was held and what it was given. -/
def Balances [Add M] (held : σ → M) (g : M) (x : StateT σ (Except ε) α) (post : α → M → Prop) :
    Prop :=
  ∀ s a t, x s = .ok (a, t) → ∃ r, post a r ∧ held t + r = held s + g

namespace Balances

variable [AddCommMonoid M] {held : σ → M} {g g' r : M} {x : StateT σ (Except ε) α}
  {f : α → StateT σ (Except ε) β} {post post' : α → M → Prop}

theorem pure {a : α} (h : post a g) : Balances held g (pure a : StateT σ (Except ε) α) post := by
  rintro s _ _ ⟨⟩
  exact ⟨g, h, rfl⟩

theorem throw {e : ε} : Balances held g (throw e : StateT σ (Except ε) α) post := by
  intro s a t h
  cases h

/-- **The rule of sequencing.** -/
theorem bind {post : β → M → Prop} (hx : Balances held g x post')
    (hf : ∀ a r, post' a r → Balances held r (f a) post) : Balances held g (x >>= f) post := by
  intro s b u h
  cases hs : x s with
  | error e => simp [Bind.bind, StateT.bind, Except.bind, hs] at h
  | ok y =>
      obtain ⟨r, hr, ht⟩ := hx s y.1 y.2 hs
      obtain ⟨r', hr', hu⟩ := hf _ _ hr y.2 b u
        (by simpa [Bind.bind, StateT.bind, Except.bind, hs] using h)
      exact ⟨r', hr', hu.trans ht⟩

theorem mono (hx : Balances held g x post') (h : ∀ a r, post' a r → post a r) :
    Balances held g x post := by
  intro s a t hs
  obtain ⟨r, hr, e⟩ := hx s a t hs
  exact ⟨r, h a r hr, e⟩

/-- **The frame rule.** -/
theorem frame (hx : Balances held g x post) (c : M) :
    Balances held (g + c) x fun a r => ∃ r', post a r' ∧ r = r' + c := by
  intro s a t hs
  obtain ⟨r, hr, e⟩ := hx s a t hs
  exact ⟨r + c, ⟨r, hr, rfl⟩, by rw [← add_assoc, e, add_assoc]⟩

/-- Sequencing, with the goods `c` kept aside during the first computation. -/
theorem seq {post : β → M → Prop} (c : M) (hx : Balances held g x post')
    (hf : ∀ a r, post' a r → Balances held (r + c) (f a) post) (hg : g' = g + c) :
    Balances held g' (x >>= f) post := by
  subst hg
  refine bind (hx.frame c) fun a r ⟨r', hr, e⟩ => ?_
  subst e
  exact hf a r' hr

end Balances

end Lib
