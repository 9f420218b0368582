import Mathlib.Algebra.Order.Ring.Int
import Mathlib.Logic.Function.Basic
import Xv6.Console.Display

/-!
# Kernel — `memmove` of `string.c`

The ranges of `memmove` may overlap.  It copies from the end if the source begins first and reaches
into the destination, and from the start otherwise: either way a byte is read before it is
overwritten.

* `copyDown_eq`, `copyUp_eq` — the two loops, under the condition that no byte is overwritten before
  it is read.
* `memmove_moves` — the call.
* `textAt_memmove` — the scrolling of the console is such a call.
-/

namespace Xv6.Memory

/-- A pointer: addresses are computed in 32 bits. -/
abbrev Ptr := BitVec 32

/-- The memory that `memmove` works on. -/
abbrev Mem := Ptr → UInt8

/-- The loop from the end, for the `n` bytes that are left. -/
def copyDown : ℕ → Mem → Ptr → Ptr → Mem
  | 0, m, _, _ => m
  | n + 1, m, d, s => copyDown n (Function.update m (d - 1) (m (s - 1))) (d - 1) (s - 1)

/-- The loop from the start, for the `n` bytes that are left. -/
def copyUp : ℕ → Mem → Ptr → Ptr → Mem
  | 0, m, _, _ => m
  | n + 1, m, d, s => copyUp n (Function.update m d (m s)) (d + 1) (s + 1)

/-- `memmove`: downwards where the ranges overlap so. -/
def memmove (m : Mem) (dst src : Ptr) (n : BitVec 32) : Mem :=
  if src < dst ∧ src + n > dst then copyDown n.toNat m (dst + n) (src + n)
  else copyUp n.toNat m dst src

/-- `a` is one of the `n` addresses from `p` on. -/
def InRange (p : Ptr) (n : ℕ) (a : Ptr) : Prop := p.toNat ≤ a.toNat ∧ a.toNat < p.toNat + n

instance (p : Ptr) (n : ℕ) (a : Ptr) : Decidable (InRange p n a) := inferInstanceAs (Decidable (_ ∧ _))

variable {m : Mem} {dst src a : Ptr} {n : ℕ}

/-- The place of the byte that is copied to `a`. -/
def source (dst src a : Ptr) : Ptr := src + (a - dst)

theorem toNat_add_ofNat (p : Ptr) (h : p.toNat + n < 2 ^ 32) :
    (p + BitVec.ofNat 32 n).toNat = p.toNat + n := by
  rw [BitVec.toNat_add, BitVec.toNat_ofNat]
  omega

theorem toNat_source (hs : src.toNat + n ≤ 2 ^ 32) (ha : InRange dst n a) :
    (source dst src a).toNat = src.toNat + (a.toNat - dst.toNat) := by
  obtain ⟨hlo, hhi⟩ := ha
  rw [source]
  bv_omega

/-- The last of `n + 1` addresses. -/
theorem inRange_succ (hd : dst.toNat + n < 2 ^ 32) :
    InRange dst (n + 1) a ↔ InRange dst n a ∨ a = dst + BitVec.ofNat 32 n := by
  have hlast := toNat_add_ofNat dst hd
  rw [← BitVec.toNat_inj, hlast]
  unfold InRange
  omega

/-- The first of `n + 1` addresses. -/
theorem inRange_succ' (hd : dst.toNat + n < 2 ^ 32) :
    InRange dst (n + 1) a ↔ a = dst ∨ (n ≠ 0 ∧ InRange (dst + 1) n a) := by
  rw [← BitVec.toNat_inj]
  unfold InRange
  rcases Nat.eq_zero_or_pos n with rfl | hn
  · omega
  · have hnext : (dst + 1).toNat = dst.toNat + 1 := toNat_add_ofNat (n := 1) dst (by omega)
    omega

/-- From the end: the source is not after the destination. -/
theorem copyDown_eq (hs : src.toNat + n ≤ 2 ^ 32) (hd : dst.toNat + n ≤ 2 ^ 32)
    (h : src.toNat ≤ dst.toNat) (a : Ptr) :
    copyDown n m (dst + BitVec.ofNat 32 n) (src + BitVec.ofNat 32 n) a =
      if InRange dst n a then m (source dst src a) else m a := by
  induction n generalizing m with
  | zero => exact (if_neg fun ha : InRange dst 0 a => absurd ha.2 (Nat.not_lt.mpr ha.1)).symm
  | succ n ih =>
      have hlast : ∀ p : Ptr, p + BitVec.ofNat 32 (n + 1) - 1 = p + BitVec.ofNat 32 n := fun p => by
        bv_omega
      have hdst := toNat_add_ofNat (n := n) dst (by omega)
      rw [copyDown, hlast, hlast, ih (by omega) (by omega)]
      by_cases ha : InRange dst n a
      · -- The byte for `a` is before the one that has been overwritten.
        have hne : source dst src a ≠ dst + BitVec.ofNat 32 n := by
          have hsrc := @toNat_source dst src a n (by omega) ha
          have := ha.1
          have := ha.2
          rw [Ne, ← BitVec.toNat_inj]
          omega
        rw [if_pos ha, if_pos ((inRange_succ (by omega)).mpr (.inl ha)), Function.update_of_ne hne]
      · rw [if_neg ha]
        by_cases he : a = dst + BitVec.ofNat 32 n
        · rw [if_pos ((inRange_succ (by omega)).mpr (.inr he)), he, Function.update_self, source]
          congr 1
          bv_omega
        · rw [if_neg (mt (inRange_succ (by omega)).mp (not_or.mpr ⟨ha, he⟩)),
            Function.update_of_ne he]

/-- From the start: the source is not before the destination, or ends before it. -/
theorem copyUp_eq (hs : src.toNat + n ≤ 2 ^ 32) (hd : dst.toNat + n ≤ 2 ^ 32)
    (h : dst.toNat ≤ src.toNat ∨ src.toNat + n ≤ dst.toNat) (a : Ptr) :
    copyUp n m dst src a = if InRange dst n a then m (source dst src a) else m a := by
  induction n generalizing m dst src with
  | zero => exact (if_neg fun ha : InRange dst 0 a => absurd ha.2 (Nat.not_lt.mpr ha.1)).symm
  | succ n ih =>
      rw [copyUp]
      rcases Nat.eq_zero_or_pos n with rfl | hn
      · rw [copyUp]
        by_cases he : a = dst
        · rw [he, Function.update_self, if_pos ⟨Nat.le_refl _, Nat.lt_succ_self _⟩, source]
          congr 1
          bv_omega
        · rw [Function.update_of_ne he,
            if_neg fun ha => he (((inRange_succ' (by omega)).mp ha).resolve_right (by simp))]
      · have hnext : ∀ p : Ptr, p.toNat + 1 < 2 ^ 32 → (p + 1).toNat = p.toNat + 1 := fun p hp =>
          toNat_add_ofNat (n := 1) p hp
        have hdst := hnext dst (by omega)
        have hsrc := hnext src (by omega)
        have hsource : source (dst + 1) (src + 1) a = source dst src a := by
          unfold source
          bv_omega
        rw [ih (by omega) (by omega) (by omega), hsource]
        by_cases ha : InRange (dst + 1) n a
        · -- The byte for `a` is after the one that has been overwritten, or before all of them.
          have hne : source dst src a ≠ dst := by
            have hat := @toNat_source (dst + 1) (src + 1) a n (by omega) ha
            have := ha.1
            have := ha.2
            rw [hsource] at hat
            rw [Ne, ← BitVec.toNat_inj]
            omega
          rw [if_pos ha, if_pos ((inRange_succ' (by omega)).mpr (.inr ⟨Nat.ne_of_gt hn, ha⟩)),
            Function.update_of_ne hne]
        · rw [if_neg ha]
          by_cases he : a = dst
          · rw [if_pos ((inRange_succ' (by omega)).mpr (.inl he)), he, Function.update_self, source]
            congr 1
            bv_omega
          · rw [if_neg (mt (inRange_succ' (by omega)).mp (not_or.mpr ⟨he, fun h => ha h.2⟩)),
              Function.update_of_ne he]

/-- Either way a byte of the destination is what the byte of the source was. -/
theorem memmove_apply (m : Mem) {dst src : Ptr} {n : BitVec 32}
    (hs : src.toNat + n.toNat ≤ 2 ^ 32) (hd : dst.toNat + n.toNat ≤ 2 ^ 32) (a : Ptr) :
    memmove m dst src n a = if InRange dst n.toNat a then m (source dst src a) else m a := by
  unfold memmove
  split
  · rename_i hover
    have hn : BitVec.ofNat 32 n.toNat = n := by simp
    have := copyDown_eq (m := m) hs hd (Nat.le_of_lt hover.1) a
    rwa [hn] at this
  · rename_i hno
    refine copyUp_eq hs hd ?_ a
    by_contra hover
    obtain ⟨hlt, hover⟩ := not_or.mp hover
    refine hno ⟨Nat.not_le.mp hlt, ?_⟩
    have hend := BitVec.toNat_add src n
    rw [Nat.mod_eq_of_lt (by omega)] at hend
    show dst.toNat < (src + n).toNat
    omega

/-- What is moved, byte by byte, where nothing wraps. -/
theorem memmove_inside (m : Mem) {dst src : Ptr} {n : BitVec 32}
    (hs : src.toNat + n.toNat ≤ 2 ^ 32) (hd : dst.toNat + n.toNat ≤ 2 ^ 32) {i : ℕ}
    (hi : i < n.toNat) :
    memmove m dst src n (dst + BitVec.ofNat 32 i) = m (src + BitVec.ofNat 32 i) := by
  have hat := toNat_add_ofNat (n := i) dst (by omega)
  have hin : InRange dst n.toNat (dst + BitVec.ofNat 32 i) := ⟨by omega, by omega⟩
  rw [memmove_apply m hs hd, if_pos hin, source]
  congr 1
  bv_omega

/-- **`memmove` moves**: each byte of the destination is what the byte of the source was before the
call, and no other byte changes, however the ranges overlap. -/
theorem memmove_moves (m : Mem) (dst src : Ptr) (n : BitVec 32)
    (hs : src.toNat + n.toNat ≤ 2 ^ 32) (hd : dst.toNat + n.toNat ≤ 2 ^ 32) :
    (∀ i < n.toNat, memmove m dst src n (dst + BitVec.ofNat 32 i) = m (src + BitVec.ofNat 32 i)) ∧
      ∀ a, ¬ InRange dst n.toNat a → memmove m dst src n a = m a :=
  ⟨fun _ hi => memmove_inside m hs hd hi, fun a ha => by rw [memmove_apply m hs hd, if_neg ha]⟩

theorem memmove_moves_overlapping :
    memmove (fun a => UInt8.ofNat a.toNat) 12 10 3 12 = 10 ∧
      memmove (fun a => UInt8.ofNat a.toNat) 12 10 3 13 = 11 ∧
      memmove (fun a => UInt8.ofNat a.toNat) 12 10 3 14 = 12 := by
  have h := (memmove_moves (fun a => UInt8.ofNat a.toNat) 12 10 3 (by decide) (by decide)).1
  exact ⟨h 0 (by decide), h 1 (by decide), h 2 (by decide)⟩

/-! ### The console -/

/-- The cells of the text memory at `base`. -/
def textAt (m : Mem) (base : Ptr) : Console.Text := fun k =>
  (m (base + BitVec.ofNat 32 (2 * k))).toUInt16 |||
    (m (base + BitVec.ofNat 32 (2 * k + 1))).toUInt16 <<< 8

/-- What `cgaputc` moves when it scrolls. -/
theorem textAt_memmove (m : Mem) {base : Ptr} (h : base.toNat + 2 * (25 * 80) ≤ 2 ^ 32) {k : ℕ}
    (hk : k < 25 * 80) :
    textAt (memmove m base (base + BitVec.ofNat 32 160) (BitVec.ofNat 32 (2 * (23 * 80)))) base k =
      Console.scrollUp (textAt m base) k := by
  have hsrc := toNat_add_ofNat (n := 160) base (by omega)
  have hn : (BitVec.ofNat 32 (2 * (23 * 80))).toNat = 2 * (23 * 80) := rfl
  have hs : (base + BitVec.ofNat 32 160).toNat + (BitVec.ofNat 32 (2 * (23 * 80))).toNat ≤ 2 ^ 32 := by
    omega
  have hd : base.toNat + (BitVec.ofNat 32 (2 * (23 * 80))).toNat ≤ 2 ^ 32 := by omega
  unfold Console.scrollUp
  split
  · have hcell : ∀ i < 2 * (23 * 80), memmove m base (base + BitVec.ofNat 32 160)
        (BitVec.ofNat 32 (2 * (23 * 80))) (base + BitVec.ofNat 32 i) =
          m (base + BitVec.ofNat 32 (i + 160)) := fun i hi => by
      rw [memmove_inside m hs hd (hn ▸ hi), BitVec.add_assoc, ← BitVec.ofNat_add, Nat.add_comm]
    rw [textAt, hcell _ (by omega), hcell _ (by omega), textAt,
      show 2 * (k + 80) = 2 * k + 160 by omega, show 2 * k + 160 + 1 = 2 * k + 1 + 160 by omega]
  · have hcell : ∀ i, 2 * (23 * 80) ≤ i → i < 2 * (25 * 80) →
        memmove m base (base + BitVec.ofNat 32 160) (BitVec.ofNat 32 (2 * (23 * 80)))
          (base + BitVec.ofNat 32 i) = m (base + BitVec.ofNat 32 i) := fun i hlo hhi => by
      rw [memmove_apply m hs hd, if_neg]
      intro hr
      have := toNat_add_ofNat (n := i) base (by omega)
      have := hr.2
      omega
    rw [textAt, hcell _ (by omega) (by omega), hcell _ (by omega) (by omega), textAt]

end Xv6.Memory
