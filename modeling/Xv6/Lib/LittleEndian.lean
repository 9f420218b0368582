import Mathlib.Algebra.Order.Ring.Int
import Mathlib.Data.Nat.Notation
import Mathlib.Tactic.Common

/-!
# Library — little-endian numbers in lists of bytes

`toLE w v` is the number `v` in `w` bytes, the lowest first, and `ofLE` reads such a list.  A number
that fits is read back (`ofLE_toLE`), also as one of a list of them (`take_drop_flatMap_toLE`).
-/

namespace Lib

/-- The `w` low bytes of a number, the lowest first. -/
def toLE : ℕ → ℕ → List UInt8
  | 0, _ => []
  | w + 1, v => UInt8.ofNat v :: toLE w (v / 256)

/-- The number of these bytes, the low one first. -/
def ofLE : List UInt8 → ℕ
  | [] => 0
  | b :: bs => b.toNat + 256 * ofLE bs

@[simp]
theorem length_toLE (w v : ℕ) : (toLE w v).length = w := by
  induction w generalizing v with
  | zero => rfl
  | succ w ih => simp [toLE, ih]

/-- A number can be read back from its bytes. -/
theorem ofLE_toLE {w v : ℕ} (h : v < 256 ^ w) : ofLE (toLE w v) = v := by
  induction w generalizing v with
  | zero => simp [toLE, ofLE] at h ⊢; omega
  | succ w ih =>
      have hdiv : v / 256 < 256 ^ w := by
        rw [Nat.div_lt_iff_lt_mul (by decide), ← Nat.pow_succ]
        exact h
      rw [toLE, ofLE, ih hdiv, UInt8.toNat_ofNat']
      omega

theorem length_flatMap_of_width {α β : Type} {f : α → List β} {w : ℕ} {l : List α}
    (hw : ∀ a ∈ l, (f a).length = w) : (l.flatMap f).length = w * l.length := by
  induction l with
  | nil => simp
  | cons a l ih =>
      rw [List.flatMap_cons, List.length_append, hw a (List.mem_cons_self ..),
        ih fun b hb => hw b (List.mem_cons_of_mem _ hb), List.length_cons, Nat.mul_succ, Nat.add_comm]

/-- In a list of records of one width, the `k`th one is where it should be. -/
theorem take_drop_flatMap {α β : Type} {f : α → List β} {w : ℕ} {l : List α}
    (hw : ∀ a ∈ l, (f a).length = w) {k : ℕ} (h : k < l.length) :
    ((l.flatMap f).drop (w * k)).take w = f l[k] := by
  induction l generalizing k with
  | nil => cases h
  | cons a l ih =>
      have ha := hw a (List.mem_cons_self ..)
      cases k with
      | zero => simp [List.take_left', ha]
      | succ k =>
          have hsucc : w * (k + 1) = w + w * k := by rw [Nat.mul_add, Nat.mul_one, Nat.add_comm]
          rw [List.flatMap_cons, hsucc, List.drop_append, List.drop_of_length_le (by omega),
            List.nil_append, ha, Nat.add_sub_cancel_left]
          exact ih (fun b hb => hw b (List.mem_cons_of_mem _ hb)) (by simpa using h)

theorem take_drop_flatMap_toLE (w : ℕ) (vs : List ℕ) {k : ℕ} (h : k < vs.length) :
    ((vs.flatMap (toLE w)).drop (w * k)).take w = toLE w vs[k] :=
  take_drop_flatMap (fun v _ => length_toLE w v) h

end Lib
