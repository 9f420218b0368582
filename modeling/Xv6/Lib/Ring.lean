import Mathlib.Data.Int.ModEq
import Mathlib.Data.List.Basic
import Mathlib.Data.List.Range
import Mathlib.Logic.Function.Basic

/-!
# Library — a ring buffer with free-running counters

A ring of `N` slots through which a stream passes: element `k` of the stream is put in slot
`k % N` and taken from there.  `Holds` relates the slots to the two histories, what was put in
(`put`) and what was taken out (`got`); `push`, `pop` and `unput` keep it, and `put_eq` reads the
undelivered part of the stream off the slots.  The counters themselves may wrap: `ofNat_eq_iff`
and its neighbours say that 32-bit copies of two counters that are less than `2 ^ 32` apart still
tell empty from full, and `sub_toNat` that their difference is exact.
-/

namespace Lib.Ring

variable {α : Type*} {N : ℕ} {slot : ℕ → α} {put got : List α}

/-- The slots hold what was put and not yet taken. -/
structure Holds (N : ℕ) (slot : ℕ → α) (put got : List α) : Prop where
  got_prefix : got <+: put
  room : put.length ≤ got.length + N
  slot_eq : ∀ k (h : k < put.length), got.length ≤ k → slot (k % N) = put[k]

theorem Holds.nil (N : ℕ) (slot : ℕ → α) : Holds N slot [] [] where
  got_prefix := List.prefix_rfl
  room := Nat.zero_le _
  slot_eq := by simp

/-- Two positions less than `N` apart have different slots. -/
theorem mod_ne {a b : ℕ} (hab : a < b) (hb : b < a + N) : a % N ≠ b % N := by
  intro h
  have hd : N ∣ b - a := (Nat.modEq_iff_dvd' hab.le).mp h
  have := Nat.le_of_dvd (by omega) hd
  omega

/-- One element is put into the ring. -/
theorem Holds.push (h : Holds N slot put got) (hr : put.length < got.length + N) (a : α) :
    Holds N (Function.update slot (put.length % N) a) (put ++ [a]) got where
  got_prefix := h.got_prefix.trans (List.prefix_append _ _)
  room := by rw [List.length_append]; exact hr
  slot_eq := by
    intro k hk hgk
    rw [List.length_append, List.length_singleton] at hk
    rcases Nat.lt_succ_iff_lt_or_eq.mp hk with hlt | rfl
    · rw [Function.update_of_ne (mod_ne hlt (by omega)), List.getElem_append_left hlt]
      exact h.slot_eq k hlt hgk
    · simp

/-- One element is taken from the ring. -/
theorem Holds.pop (h : Holds N slot put got) (hl : got.length < put.length) :
    Holds N slot put (got ++ [slot (got.length % N)]) where
  got_prefix := by
    have hg : put.take got.length = got := (List.prefix_iff_eq_take.mp h.got_prefix).symm
    rw [h.slot_eq _ hl le_rfl]
    nth_rewrite 1 [← hg]
    rw [List.take_append_getElem hl]
    exact List.take_prefix _ _
  room := by
    have := h.room
    simp only [List.length_append, List.length_singleton]
    omega
  slot_eq := by
    intro k hk hgk
    rw [List.length_append, List.length_singleton] at hgk
    exact h.slot_eq k hk (by omega)

/-- The last element is taken back. -/
theorem Holds.unput {a : α} (h : Holds N slot (put ++ [a]) got) (hl : got.length ≤ put.length) :
    Holds N slot put got where
  got_prefix := List.prefix_of_prefix_length_le h.got_prefix (List.prefix_append _ _) hl
  room := by
    have := h.room
    simp only [List.length_append, List.length_singleton] at this
    omega
  slot_eq := by
    intro k hk hgk
    have := h.slot_eq k (by rw [List.length_append]; omega) hgk
    rwa [List.getElem_append_left hk] at this

variable {a b : ℕ}

/-- Counters that are less than 2^32 apart are told apart. -/
theorem ofNat_eq_iff (hab : a ≤ b) (hb : b < a + 2 ^ 32) :
    UInt32.ofNat b = UInt32.ofNat a ↔ b = a := by
  constructor
  · intro h
    have hm := congrArg UInt32.toNat h
    simp only [UInt32.toNat_ofNat'] at hm
    omega
  · rintro rfl
    rfl

theorem sub_toNat (hab : a ≤ b) (hb : b < a + 2 ^ 32) :
    (UInt32.ofNat b - UInt32.ofNat a).toNat = b - a := by
  rw [UInt32.toNat_sub, UInt32.toNat_ofNat', UInt32.toNat_ofNat']
  omega

/-- The slot index survives the wrap when `N` divides the modulus. -/
theorem toNat_mod (hN : N ∣ 2 ^ 32) (a : ℕ) : (UInt32.ofNat a).toNat % N = a % N := by
  rw [UInt32.toNat_ofNat', Nat.mod_mod_of_dvd _ hN]

end Lib.Ring
