import Mathlib.Tactic.Linarith
import Mathlib.Tactic.Ring

/-!
# Library — Bresenham's line algorithm

A line from `(0, 0)` to `(a, b)`, with `0 ≤ b ≤ a`, drawn along the first coordinate: in each
pass the other coordinate stays or goes up by one, as the sign of an error term says.

* `At.le` — while the first coordinate is at most `a`, the other is between `0` and `b`.
* `At.error_le` — the error term stays within the doubled length of the line.
* `next_track` — after `k` passes the other coordinate is `b * k / a`, rounded to a nearest
  integer.
-/

namespace Lib.Bresenham

/-- One pass: the other coordinate and the error term. -/
def next (a b : ℤ) (s : ℤ × ℤ) : ℤ × ℤ :=
  if 0 ≤ s.2 then (s.1 + 1, s.2 - 2 * a + 2 * b) else (s.1, s.2 + 2 * b)

/-- The other coordinate and the error term after `k` passes. -/
structure At (a b k : ℤ) (s : ℤ × ℤ) : Prop where
  pos : 0 ≤ s.1
  passes : s.1 ≤ k
  /-- the other coordinate is no more than half a step above the line -/
  upper : 2 * (a * s.1) ≤ 2 * (b * k) + a
  error : s.2 = 2 * (b * k) + 2 * b - a - 2 * (a * s.1)
  error_ge : -(2 * a) ≤ s.2
  error_le : s.2 ≤ 2 * b

variable {a b k : ℤ} {s : ℤ × ℤ}

theorem At.start (hb : 0 ≤ b) (hab : b ≤ a) : At a b 0 (0, 2 * b - a) where
  pos := le_refl _
  passes := le_refl _
  upper := by simp; omega
  error := by simp
  error_ge := by simp only; omega
  error_le := by simp only; omega

/-- **One pass.** -/
theorem At.next (h : At a b k s) (hb : 0 ≤ b) (hab : b ≤ a) : At a b (k + 1) (next a b s) := by
  obtain ⟨hpos, hpasses, hupper, herror, hge, hle⟩ := h
  have hk : b * (k + 1) = b * k + b := by ring
  have hc : a * (s.1 + 1) = a * s.1 + a := by ring
  rw [Bresenham.next]
  split
  · constructor <;> simp only [hk, hc] <;> omega
  · constructor <;> simp only [hk] <;> omega

/-- **The other coordinate stays within the line.** -/
theorem At.le (h : At a b k s) (hb : 0 ≤ b) (hab : b ≤ a) (hk : k ≤ a) : s.1 ≤ b := by
  rcases eq_or_lt_of_le (hb.trans hab) with ha | ha
  · exact h.passes.trans (hk.trans (ha ▸ hb))
  · by_contra hlt
    have hac : a * (b + 1) ≤ a * s.1 := Int.mul_le_mul_of_nonneg_left (by omega) ha.le
    have hbk : b * k ≤ b * a := Int.mul_le_mul_of_nonneg_left hk hb
    have hab' : a * (b + 1) = b * a + a := by ring
    have hupper := h.upper
    omega

/-! ### In closed form -/

/-- A nearest integer to `b * k / a`, the greater of two. -/
def height (a b k : ℤ) : ℤ := (2 * b * k + a) / (2 * a)

/-- The other coordinate and the error term after `k` passes. -/
def track (a b k : ℤ) : ℤ × ℤ := (height a b k, 2 * b * (k + 1) - a - 2 * a * height a b k)

/-- The height is the nearest to the line, and the upper of two. -/
theorem height_spec (ha : 0 < a) :
    2 * a * height a b k ≤ 2 * b * k + a ∧ 2 * b * k + a < 2 * a * height a b k + 2 * a := by
  have h2 : 0 < 2 * a := by omega
  have hdiv := Int.mul_ediv_add_emod (2 * b * k + a) (2 * a)
  have hnonneg := Int.emod_nonneg (2 * b * k + a) h2.ne'
  have hlt := Int.emod_lt_of_pos (2 * b * k + a) h2
  unfold height
  constructor <;> omega

/-- No other is. -/
theorem height_unique {c : ℤ} (ha : 0 < a) (hlo : 2 * a * c ≤ 2 * b * k + a)
    (hhi : 2 * b * k + a < 2 * a * c + 2 * a) : height a b k = c := by
  have h2 : 0 < 2 * a := by omega
  refine Int.le_antisymm (Int.lt_add_one_iff.mp ?_) ?_
  · refine Int.ediv_lt_of_lt_mul h2 ?_
    calc 2 * b * k + a < 2 * a * c + 2 * a := hhi
      _ = (c + 1) * (2 * a) := by ring
  · refine Int.le_ediv_of_mul_le h2 ?_
    calc c * (2 * a) = 2 * a * c := by ring
      _ ≤ 2 * b * k + a := hlo

/-- **One pass, in closed form.** -/
theorem next_track (ha : 0 < a) (hb : 0 ≤ b) (hab : b ≤ a) :
    next a b (track a b k) = track a b (k + 1) := by
  obtain ⟨hlo, hhi⟩ := height_spec (b := b) (k := k) ha
  have hk : 2 * b * (k + 1) = 2 * b * k + 2 * b := by ring
  have hk' : 2 * b * (k + 1 + 1) = 2 * b * k + 4 * b := by ring
  rw [next]
  split
  · rename_i hD
    simp only [track, hk] at hD
    have hup : 2 * a * (height a b k + 1) = 2 * a * height a b k + 2 * a := by ring
    have hnew : height a b (k + 1) = height a b k + 1 :=
      height_unique ha (by rw [hup, hk]; omega) (by rw [hup, hk]; omega)
    simp only [track, hnew, hup, hk, hk', Prod.mk.injEq, true_and]
    omega
  · rename_i hD
    simp only [track, hk] at hD
    have hnew : height a b (k + 1) = height a b k :=
      height_unique ha (by rw [hk]; omega) (by rw [hk]; omega)
    simp only [track, hnew, hk, hk', Prod.mk.injEq, true_and]
    omega

/-- The error term is never more than the doubled length of the line away from zero. -/
theorem track_error (ha : 0 < a) (hb : 0 ≤ b) (hab : b ≤ a) :
    -(2 * a) ≤ (track a b k).2 ∧ (track a b k).2 < 2 * a := by
  obtain ⟨hlo, hhi⟩ := height_spec (b := b) (k := k) ha
  have hk : 2 * b * (k + 1) = 2 * b * k + 2 * b := by ring
  simp only [track, hk]
  constructor <;> omega

theorem height_zero (ha : 0 < a) : height a b 0 = 0 :=
  height_unique ha (by simp; omega) (by simp; omega)

theorem height_self (ha : 0 < a) : height a b a = b :=
  height_unique ha (by linarith [mul_comm (2 * a) b, mul_assoc 2 a b, mul_assoc 2 b a, mul_comm a b])
    (by linarith [mul_assoc 2 a b, mul_assoc 2 b a, mul_comm a b])

/-- From pass to pass the other coordinate stays or goes up by one. -/
theorem height_succ (ha : 0 < a) (hb : 0 ≤ b) (hab : b ≤ a) :
    height a b (k + 1) = height a b k ∨ height a b (k + 1) = height a b k + 1 := by
  have h := congrArg Prod.fst (next_track (k := k) ha hb hab)
  rw [next] at h
  split at h
  · exact .inr h.symm
  · exact .inl h.symm

theorem height_mono (ha : 0 < a) (hb : 0 ≤ b) {j : ℤ} (hjk : j ≤ k) : height a b j ≤ height a b k := by
  refine Int.ediv_le_ediv (by omega) ?_
  have := Int.mul_le_mul_of_nonneg_left hjk (show 0 ≤ 2 * b by omega)
  omega

/-- It is within half a step of the line. -/
theorem height_nearest (ha : 0 < a) : 2 * |a * height a b k - b * k| ≤ a := by
  obtain ⟨hlo, hhi⟩ := height_spec (b := b) (k := k) ha
  have hA : 2 * a * height a b k = 2 * (a * height a b k) := by ring
  have hB : 2 * b * k = 2 * (b * k) := by ring
  rw [hA, hB] at hlo hhi
  rcases abs_cases (a * height a b k - b * k) with ⟨h, -⟩ | ⟨h, -⟩ <;> omega

end Lib.Bresenham
