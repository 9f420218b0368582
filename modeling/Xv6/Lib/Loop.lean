import Mathlib.Algebra.Order.Ring.Int
import Mathlib.Tactic.Common

/-!
# Library — a counting loop over a machine integer

`forLE out lo hi body`: `for (i = lo; i <= hi; i++) body`, with a 32-bit counter that wraps
around.  A loop whose bound is the greatest integer never ends: after `2 ^ 32` passes the counter
is back where it was, and the loop is `out`.  Any other ends once the counter has passed its bound.

* `forLE_ok` — the total rule: below the greatest bound, a body that always succeeds and keeps
  an invariant makes a loop that succeeds and keeps it.
* `forLE_inv` — the partial rule: what the body keeps wherever it succeeds, the loop keeps.
* `forLE_map` — a change of state that commutes with the body commutes with the loop.
* `forLE_eq_foldlM` — below the greatest bound, the loop is a fold over its counters.
* `forLE_maxValue` — with the greatest bound it does not end.
-/

namespace Lib

variable {ε σ : Type*}

/-- At most `fuel` tests of the bound, from counter `i`. -/
def forLEFrom (out : ε) (hi : Int32) (body : Int32 → σ → Except ε σ) :
    ℕ → Int32 → σ → Except ε σ
  | 0, _, _ => .error out
  | fuel + 1, i, s =>
      if i ≤ hi then body i s >>= forLEFrom out hi body fuel (i + 1) else .ok s

/-- The tests of the bound a loop may need. -/
def tests (lo hi : Int32) : ℕ :=
  if hi = Int32.maxValue then 2 ^ 32 else (hi.toInt - lo.toInt + 1).toNat + 1

/-- `for (i = lo; i <= hi; i++)`.  It has no end where `hi` is the largest `int`. -/
def forLE (out : ε) (lo hi : Int32) (body : Int32 → σ → Except ε σ) (s : σ) : Except ε σ :=
  forLEFrom out hi body (tests lo hi) lo s

/-- A sum that does not wrap around. -/
theorem toInt_add_eq {a b : Int32} (hlo : -2 ^ 31 ≤ a.toInt + b.toInt)
    (hhi : a.toInt + b.toInt < 2 ^ 31) : (a + b).toInt = a.toInt + b.toInt := by
  rw [Int32.toInt_add]
  exact Int.bmod_eq_of_le hlo hhi

/-- Below the largest value the counter does not wrap. -/
theorem toInt_succ {i hi : Int32} (hle : i ≤ hi) (hmax : hi < Int32.maxValue) :
    (i + 1).toInt = i.toInt + 1 := by
  have h₁ := Int32.le_iff_toInt_le.mp hle
  have h₂ := Int32.lt_iff_toInt_lt.mp hmax
  have h₃ : Int32.maxValue.toInt = 2 ^ 31 - 1 := rfl
  have h₄ := i.le_toInt
  have h₅ : (1 : Int32).toInt = 1 := rfl
  rw [toInt_add_eq (by omega) (by omega), h₅]

/-- A loop that does not reach the largest value ends, if its body returns each time. -/
theorem forLEFrom_ok {out : ε} {hi : Int32} {body : Int32 → σ → Except ε σ} {P : σ → Prop}
    (hmax : hi < Int32.maxValue) (hbody : ∀ i s, i ≤ hi → P s → ∃ t, body i s = .ok t ∧ P t)
    (fuel : ℕ) :
    ∀ (i : Int32) (s : σ), hi.toInt - i.toInt + 1 ≤ fuel → P s →
      ∃ t, forLEFrom out hi body (fuel + 1) i s = .ok t ∧ P t := by
  induction fuel with
  | zero =>
      intro i s hf hs
      have : ¬ i ≤ hi := by
        intro hle
        have := Int32.le_iff_toInt_le.mp hle
        omega
      exact ⟨s, by rw [forLEFrom, if_neg this], hs⟩
  | succ fuel ih =>
      intro i s hf hs
      rw [forLEFrom]
      by_cases hle : i ≤ hi
      · obtain ⟨t, ht, hPt⟩ := hbody i s hle hs
        have hi1 := toInt_succ hle hmax
        obtain ⟨u, hu, hPu⟩ := ih (i + 1) t (by omega) hPt
        refine ⟨u, ?_, hPu⟩
        rw [if_pos hle, ht]
        exact hu
      · exact ⟨s, by rw [if_neg hle], hs⟩

/-- **The total rule.** -/
theorem forLE_ok {out : ε} {lo hi : Int32} {body : Int32 → σ → Except ε σ} {P : σ → Prop} {s : σ}
    (hmax : hi < Int32.maxValue) (hs : P s)
    (hbody : ∀ i s, i ≤ hi → P s → ∃ t, body i s = .ok t ∧ P t) :
    ∃ t, forLE out lo hi body s = .ok t ∧ P t := by
  rw [forLE, tests, if_neg (Int32.ne_of_lt hmax)]
  exact forLEFrom_ok hmax hbody _ lo s (Int.self_le_toNat _) hs

/-- What the body keeps, the loop keeps. -/
theorem forLEFrom_inv {out : ε} {hi : Int32} {body : Int32 → σ → Except ε σ} {P : σ → Prop}
    (hbody : ∀ i s t, body i s = .ok t → P s → P t) (fuel : ℕ) :
    ∀ (i : Int32) (s t : σ), forLEFrom out hi body fuel i s = .ok t → P s → P t := by
  induction fuel with
  | zero => intro i s t h; cases h
  | succ fuel ih =>
      intro i s t h hs
      rw [forLEFrom] at h
      split at h
      · cases hb : body i s with
        | error e => rw [hb] at h; cases h
        | ok s' =>
            rw [hb] at h
            exact ih (i + 1) s' t h (hbody i s s' hb hs)
      · cases h
        exact hs

/-- **The partial rule.** -/
theorem forLE_inv {out : ε} {lo hi : Int32} {body : Int32 → σ → Except ε σ} {P : σ → Prop}
    {s t : σ} (h : forLE out lo hi body s = .ok t) (hs : P s)
    (hbody : ∀ i s t, body i s = .ok t → P s → P t) : P t :=
  forLEFrom_inv hbody _ lo s t h hs

/-- A map that goes through the body goes through the loop. -/
theorem forLEFrom_map {τ : Type*} {out : ε} {hi : Int32} {body : Int32 → σ → Except ε σ}
    {body' : Int32 → τ → Except ε τ} {f : σ → τ} (h : ∀ i s, body' i (f s) = (body i s).map f)
    (fuel : ℕ) : ∀ (i : Int32) (s : σ),
      forLEFrom out hi body' fuel i (f s) = (forLEFrom out hi body fuel i s).map f := by
  induction fuel with
  | zero => intros; rfl
  | succ fuel ih =>
      intro i s
      simp only [forLEFrom]
      split
      · rw [h i s]
        cases body i s with
        | error e => rfl
        | ok t => exact ih (i + 1) t
      · rfl

theorem forLE_map {τ : Type*} {out : ε} {lo hi : Int32} {body : Int32 → σ → Except ε σ}
    {body' : Int32 → τ → Except ε τ} {f : σ → τ} (h : ∀ i s, body' i (f s) = (body i s).map f)
    (s : σ) : forLE out lo hi body' (f s) = (forLE out lo hi body s).map f :=
  forLEFrom_map h _ lo s

/-- The counters of the loop from `lo` to `hi`. -/
def counters (lo hi : Int32) : List Int32 :=
  (List.range (hi.toInt - lo.toInt + 1).toNat).map fun k => lo + Int32.ofNat k

theorem counters_of_lt {lo hi : Int32} (h : hi < lo) : counters lo hi = [] := by
  have := Int32.lt_iff_toInt_lt.mp h
  rw [counters, show (hi.toInt - lo.toInt + 1).toNat = 0 by omega]
  rfl

/-- The first value of the counter, and the others. -/
theorem counters_of_le {lo hi : Int32} (h : lo ≤ hi) (hmax : hi < Int32.maxValue) :
    counters lo hi = lo :: counters (lo + 1) hi := by
  have hle := Int32.le_iff_toInt_le.mp h
  have hsucc : (hi.toInt - lo.toInt + 1).toNat = (hi.toInt - (lo + 1).toInt + 1).toNat + 1 := by
    rw [toInt_succ h hmax]
    omega
  rw [counters, hsucc, List.range_succ_eq_map, List.map_cons, List.map_map, counters]
  congr 1
  · exact Int32.add_zero lo
  · refine List.map_congr_left fun k _ => ?_
    show lo + Int32.ofNat (k + 1) = lo + 1 + Int32.ofNat k
    rw [Int32.ofNat_add, Int32.add_assoc, Int32.add_comm (Int32.ofNat k)]
    rfl

theorem mem_counters {lo hi i : Int32} (h : i ∈ counters lo hi) : lo ≤ i ∧ i ≤ hi := by
  obtain ⟨k, hk, rfl⟩ := List.mem_map.mp h
  have hk := List.mem_range.mp hk
  have hlo := lo.le_toInt
  have hhi := hi.toInt_lt
  have hsum : (lo + Int32.ofNat k).toInt = lo.toInt + k := by
    rw [Int32.toInt_add, Int32.toInt_ofNat', show Int32.size = 2 ^ 32 from rfl,
      Int.add_bmod_bmod]
    exact Int.bmod_eq_of_le (by omega) (by omega)
  exact ⟨Int32.le_iff_toInt_le.mpr (by omega), Int32.le_iff_toInt_le.mpr (by omega)⟩

/-- Below the largest value, the loop is a fold over the values of its counter. -/
theorem forLEFrom_eq_foldlM {out : ε} {hi : Int32} {body : Int32 → σ → Except ε σ}
    (hmax : hi < Int32.maxValue) (fuel : ℕ) :
    ∀ (i : Int32) (s : σ), hi.toInt - i.toInt + 1 ≤ fuel →
      forLEFrom out hi body (fuel + 1) i s = (counters i hi).foldlM (fun s i => body i s) s := by
  induction fuel with
  | zero =>
      intro i s hf
      have hlt : hi < i := Int32.lt_iff_toInt_lt.mpr (by omega)
      rw [forLEFrom, if_neg (Int32.not_le.mpr hlt), counters_of_lt hlt]
      rfl
  | succ fuel ih =>
      intro i s hf
      rw [forLEFrom]
      by_cases hle : i ≤ hi
      · rw [if_pos hle, counters_of_le hle hmax, List.foldlM_cons]
        have hi1 := toInt_succ hle hmax
        exact bind_congr fun t => ih (i + 1) t (by omega)
      · rw [if_neg hle, counters_of_lt (Int32.not_le.mp hle)]
        rfl

/-- **The loop as a fold.** -/
theorem forLE_eq_foldlM {out : ε} {lo hi : Int32} {body : Int32 → σ → Except ε σ}
    (hmax : hi < Int32.maxValue) (s : σ) :
    forLE out lo hi body s = (counters lo hi).foldlM (fun s i => body i s) s := by
  rw [forLE, tests, if_neg (Int32.ne_of_lt hmax)]
  exact forLEFrom_eq_foldlM hmax _ lo s (Int.self_le_toNat _)

/-- A loop up to the largest value never ends. -/
theorem forLEFrom_maxValue {out : ε} {body : Int32 → σ → Except ε σ} (fuel : ℕ) :
    ∀ (i : Int32) (s t : σ), forLEFrom out Int32.maxValue body fuel i s ≠ .ok t := by
  induction fuel with
  | zero => intro i s t h; cases h
  | succ fuel ih =>
      intro i s t
      have hle : i ≤ Int32.maxValue := Int32.le_iff_toInt_le.mpr (Int32.toInt_le i)
      rw [forLEFrom, if_pos hle]
      cases body i s with
      | error e => intro h; cases h
      | ok s' => exact ih (i + 1) s' t

/-- **The loop that does not end.** -/
theorem forLE_maxValue {out : ε} {lo : Int32} {body : Int32 → σ → Except ε σ} {s t : σ} :
    forLE out lo Int32.maxValue body s ≠ .ok t :=
  forLEFrom_maxValue _ lo s t

end Lib
