import Xv6.Graphics.Raster
import Xv6.Lib.Partial
import Mathlib.Algebra.Order.Ring.Abs
import Mathlib.Data.List.Chain
import Mathlib.Data.List.Nodup
import Mathlib.Data.List.Range
import Mathlib.Tactic.LinearCombination

/-!
# Graphics — the pixels of a line

What `LineDraw` plots, in closed form over the integers: along the longer of the two differences
the line has one pixel for each value, and the other coordinate is the one on the ideal line,
rounded.

* `linePoints_eq` — the points of `linePoints` are these, in order, wherever the doubled
  differences do not overflow; the sums of the error term may wrap around, its sign does not.
* `line_rasterised` — the main result, for `LineDraw` and for the queued `LineDrawFunc`.
* `line_to_the_last_column` — at the greatest integer the counting loop does not end.
-/

namespace Xv6

open Lib

/-! ### The pixels of a line -/

/-- From `(a0, b0)` to `(a1, b1)` along the first coordinate. -/
def majorPixels (a0 b0 a1 b1 : ℤ) : List (ℤ × ℤ) :=
  let n := |a1 - a0|
  let m := |b1 - b0|
  let s := if b0 > b1 then -1 else 1
  (List.range (n.toNat + 1)).map fun k : ℕ => (a0 + k, b0 + s * ((2 * m * k + n) / (2 * n)))

/-- The longer difference decides the coordinate the line goes along, from its smaller end. -/
def linePixels (x0 y0 x1 y1 : ℤ) : List (ℤ × ℤ) :=
  if |y1 - y0| < |x1 - x0| then
    if x0 ≤ x1 then majorPixels x0 y0 x1 y1 else majorPixels x1 y1 x0 y0
  else
    (if y0 ≤ y1 then majorPixels y0 x0 y1 x1 else majorPixels y1 x1 y0 x0).map Prod.swap

/-- What is expected of the pixels of a line from `(x0, y0)` to `(x1, y1)`. -/
structure Rasterises (x0 y0 x1 y1 : ℤ) (ps : List (ℤ × ℤ)) : Prop where
  nodup : ps.Nodup
  ends : (x0, y0) ∈ ps ∧ (x1, y1) ∈ ps
  box : ∀ p ∈ ps, (min x0 x1 ≤ p.1 ∧ p.1 ≤ max x0 x1) ∧ min y0 y1 ≤ p.2 ∧ p.2 ≤ max y0 y1
  neighbours : ps.IsChain fun p q => p ≠ q ∧ |q.1 - p.1| ≤ 1 ∧ |q.2 - p.2| ≤ 1
  /-- no further from the ideal line than half a pixel, in the coordinate it is rounded in -/
  nearest : ∀ p ∈ ps,
    2 * |(x1 - x0) * (p.2 - y0) - (y1 - y0) * (p.1 - x0)| ≤ max |x1 - x0| |y1 - y0|

section

variable {a0 b0 a1 b1 x0 y0 x1 y1 : ℤ} {ps : List (ℤ × ℤ)}

/-- The direction of the other coordinate. -/
theorem sign_mul_abs (b0 b1 : ℤ) : (if b0 > b1 then -1 else 1) * |b1 - b0| = b1 - b0 := by
  split
  · rw [abs_of_neg (by omega)]
    ring
  · rw [abs_of_nonneg (by omega)]
    ring

/-- The pixels by `Bresenham.height`. -/
theorem majorPixels_eq (ha : a0 < a1) : majorPixels a0 b0 a1 b1 =
    (List.range ((a1 - a0).toNat + 1)).map fun k : ℕ => (a0 + k, b0 +
      (if b0 > b1 then -1 else 1) * Bresenham.height (a1 - a0) |b1 - b0| k) := by
  simp only [majorPixels, abs_of_pos (show 0 < a1 - a0 by omega), Bresenham.height]

theorem majorPixels_self (a0 b0 b1 : ℤ) : majorPixels a0 b0 a0 b1 = [(a0, b0)] := by
  simp [majorPixels]

/-- The pixel for `k`. -/
theorem mem_majorPixels (ha : a0 < a1) {p : ℤ × ℤ} : p ∈ majorPixels a0 b0 a1 b1 ↔
    ∃ k : ℤ, 0 ≤ k ∧ k ≤ a1 - a0 ∧ p = (a0 + k, b0 +
      (if b0 > b1 then -1 else 1) * Bresenham.height (a1 - a0) |b1 - b0| k) := by
  rw [majorPixels_eq ha]
  constructor
  · intro hp
    obtain ⟨k, hk, rfl⟩ := List.mem_map.mp hp
    have := List.mem_range.mp hk
    exact ⟨k, by omega, by omega, rfl⟩
  · rintro ⟨k, hk0, hk, rfl⟩
    obtain ⟨k, rfl⟩ := Int.eq_ofNat_of_zero_le hk0
    exact List.mem_map.mpr ⟨k, List.mem_range.mpr (by omega), rfl⟩

/-- The pixels along the major axis rasterise the line. -/
theorem Rasterises.major (ha : a0 ≤ a1) (hm : |b1 - b0| ≤ a1 - a0) :
    Rasterises a0 b0 a1 b1 (majorPixels a0 b0 a1 b1) := by
  rcases eq_or_lt_of_le ha with rfl | ha
  · obtain rfl : b1 = b0 := by
      have : b1 - b0 = 0 := by simpa using hm
      omega
    rw [majorPixels_self]
    refine ⟨by simp, by simp, by simp, by simp, by simp⟩
  · have hn : 0 < a1 - a0 := by omega
    have hb : 0 ≤ |b1 - b0| := abs_nonneg _
    have hs := sign_mul_abs b0 b1
    have hs1 : (if b0 > b1 then (-1 : ℤ) else 1) = 1 ∨ (if b0 > b1 then (-1 : ℤ) else 1) = -1 := by
      split <;> simp
    -- The minor axis goes up or down, as the sign `s` says.
    generalize hsg : (if b0 > b1 then (-1 : ℤ) else 1) = s at hs hs1
    refine ⟨?_, ⟨?_, ?_⟩, ?_, ?_, ?_⟩
    · rw [majorPixels_eq ha]
      refine List.Nodup.map (fun j k h => ?_) List.nodup_range
      have := congrArg Prod.fst h
      simpa using this
    · refine (mem_majorPixels ha).mpr ⟨0, le_rfl, hn.le, ?_⟩
      simp [Bresenham.height_zero hn]
    · refine (mem_majorPixels ha).mpr ⟨a1 - a0, hn.le, le_rfl, ?_⟩
      rw [Bresenham.height_self hn, hsg, hs]
      simp
    · intro p hp
      obtain ⟨k, hk0, hk, rfl⟩ := (mem_majorPixels ha).mp hp
      have hlo := Bresenham.height_mono hn hb hk0
      have hhi := Bresenham.height_mono hn hb hk
      rw [Bresenham.height_zero hn] at hlo
      rw [Bresenham.height_self hn] at hhi
      rw [hsg]
      refine ⟨by constructor <;> simp only <;> omega, ?_⟩
      rcases hs1 with rfl | rfl <;> constructor <;> simp only <;> omega
    · rw [majorPixels_eq ha, List.isChain_map, List.isChain_range]
      intro k _
      have hstep := Bresenham.height_succ (k := k) hn hb hm
      simp only [Nat.succ_eq_add_one, Nat.cast_add, Nat.cast_one, hsg]
      refine ⟨fun h => by simpa using congrArg Prod.fst h, ?_, ?_⟩
      · exact abs_le.mpr ⟨by omega, by omega⟩
      · rcases hs1 with rfl | rfl <;> exact abs_le.mpr ⟨by omega, by omega⟩
    · intro p hp
      obtain ⟨k, hk0, hk, rfl⟩ := (mem_majorPixels ha).mp hp
      have hnear := Bresenham.height_nearest (b := |b1 - b0|) (k := k) hn
      rw [max_eq_left (by rw [abs_of_pos hn]; exact hm), abs_of_pos hn, hsg]
      simp only [add_sub_cancel_left]
      generalize Bresenham.height (a1 - a0) |b1 - b0| k = c at hnear
      have hfactor : (a1 - a0) * (s * c) - (b1 - b0) * k = s * ((a1 - a0) * c - |b1 - b0| * k) := by
        linear_combination k * hs
      have habs : |s| = 1 := by rcases hs1 with rfl | rfl <;> rfl
      rw [hfactor, abs_mul, habs, one_mul]
      exact hnear

/-- The other way round. -/
theorem Rasterises.symm (h : Rasterises x0 y0 x1 y1 ps) : Rasterises x1 y1 x0 y0 ps where
  nodup := h.nodup
  ends := h.ends.symm
  box := by simpa only [min_comm, max_comm] using h.box
  neighbours := h.neighbours
  nearest := fun p hp => by
    have := h.nearest p hp
    rw [abs_sub_comm x0 x1, abs_sub_comm y0 y1]
    refine le_of_eq_of_le ?_ this
    rw [← abs_neg]
    ring_nf

/-- With the coordinates exchanged. -/
theorem Rasterises.swap (h : Rasterises x0 y0 x1 y1 ps) :
    Rasterises y0 x0 y1 x1 (ps.map Prod.swap) where
  nodup := h.nodup.map Prod.swap_injective
  ends := ⟨List.mem_map.mpr ⟨_, h.ends.1, rfl⟩, List.mem_map.mpr ⟨_, h.ends.2, rfl⟩⟩
  box := fun p hp => by
    obtain ⟨q, hq, rfl⟩ := List.mem_map.mp hp
    exact (h.box q hq).symm
  neighbours := by
    rw [List.isChain_map]
    refine h.neighbours.imp fun p q hpq => ⟨fun he => hpq.1 (Prod.swap_injective he), ?_⟩
    exact hpq.2.symm
  nearest := fun p hp => by
    obtain ⟨q, hq, rfl⟩ := List.mem_map.mp hp
    rw [max_comm, abs_sub_comm]
    exact h.nearest q hq

/-- **The pixels of a line** are what they should be. -/
theorem linePixels_rasterises (x0 y0 x1 y1 : ℤ) :
    Rasterises x0 y0 x1 y1 (linePixels x0 y0 x1 y1) := by
  have hx := abs_cases (x1 - x0)
  have hy := abs_cases (y1 - y0)
  unfold linePixels
  split
  · split
    · exact .major (by omega) (by omega)
    · refine (Rasterises.major (by omega) ?_).symm
      rw [abs_sub_comm]
      omega
  · split
    · exact (Rasterises.major (by omega) (by omega)).swap
    · refine (Rasterises.major (by omega) ?_).symm.swap
      rw [abs_sub_comm]
      omega

/-- The set of pixels does not depend on the direction. -/
theorem linePixels_comm (x0 y0 x1 y1 : ℤ) : linePixels x1 y1 x0 y0 = linePixels x0 y0 x1 y1 := by
  have hx := abs_cases (x1 - x0)
  have hy := abs_cases (y1 - y0)
  unfold linePixels
  rw [abs_sub_comm x0 x1, abs_sub_comm y0 y1]
  by_cases hmajor : |y1 - y0| < |x1 - x0|
  · rw [if_pos hmajor, if_pos hmajor]
    by_cases hle : x0 ≤ x1
    · rw [if_pos hle, if_neg (by omega)]
    · rw [if_neg hle, if_pos (by omega)]
  · rw [if_neg hmajor, if_neg hmajor]
    rcases lt_trichotomy y0 y1 with hlt | heq | hgt
    · rw [if_pos hlt.le, if_neg (by omega)]
    · obtain rfl : x0 = x1 := by omega
      rw [heq]
    · rw [if_pos hgt.le, if_neg (by omega)]

end

/-! ### In the arithmetic of the code -/

section

variable {a0 b0 a1 b1 x0 y0 x1 y1 : Int32} {a b : ℤ}

/-- A pixel, from the coordinates passed to `PixelSetterFunc`. -/
def toPixel (p : Int32 × Int32) : ℤ × ℤ := (p.1.toInt, p.2.toInt)

/-- One pass, on the representations of integers.  Only the sign of the error term is looked at,
so that the sums may wrap around. -/
theorem plotNext_ofInt {c dir : ℤ} {t : ℤ × ℤ} (hlo : -2 ^ 31 ≤ t.2) (hhi : t.2 < 2 ^ 31) :
    plotNext (.ofInt dir) (.ofInt a) (.ofInt b) (.ofInt (c + dir * t.1), .ofInt t.2) =
      (.ofInt (c + dir * (Bresenham.next a b t).1), .ofInt (Bresenham.next a b t).2) := by
  have hsign : Int32.ofInt t.2 ≥ 0 ↔ 0 ≤ t.2 := by
    rw [ge_iff_le, Int32.le_iff_toInt_le, Int32.toInt_ofInt_of_le hlo hhi]
    rfl
  have h2 : (2 : Int32) = .ofInt 2 := rfl
  unfold plotNext Bresenham.next
  by_cases hD : 0 ≤ t.2
  · simp only [if_pos (hsign.mpr hD), if_pos hD, h2, ← Int32.ofInt_add, ← Int32.ofInt_sub,
      ← Int32.ofInt_mul, Prod.mk.injEq]
    exact ⟨congrArg _ (by ring), trivial⟩
  · simp only [if_neg (hsign.not.mpr hD), if_neg hD, h2, ← Int32.ofInt_add, ← Int32.ofInt_mul]

/-- The passes from `j` on. -/
theorem trackPoints_ofInt (a0 : Int32) (c dir : ℤ) (ha : 0 < a) (hb : 0 ≤ b) (hab : b ≤ a) (ha' : a ≤ 2 ^ 30)
    (len : ℕ) : ∀ j : ℕ, trackPoints (.ofInt dir) (.ofInt a) (.ofInt b)
        ((List.range' j len).map fun k => a0 + Int32.ofNat k)
        (.ofInt (c + dir * (Bresenham.track a b j).1), .ofInt (Bresenham.track a b j).2) =
      (List.range' j len).map fun k : ℕ =>
        (a0 + Int32.ofNat k, .ofInt (c + dir * Bresenham.height a b k)) := by
  induction len with
  | zero => intro j; rfl
  | succ len ih =>
      intro j
      have herr := Bresenham.track_error (k := j) ha hb hab
      rw [List.range'_succ, List.map_cons, List.map_cons, trackPoints,
        plotNext_ofInt (by omega) (by omega), Bresenham.next_track ha hb hab]
      have := ih (j + 1)
      rw [Nat.cast_add, Nat.cast_one] at this
      rw [this]
      rfl

/-- `SimpleAbs`, where nothing overflows. -/
theorem SimpleAbs_ofInt {d : ℤ} (hd : |d| ≤ 2 ^ 30) : SimpleAbs (.ofInt d) = .ofInt |d| := by
  have hcases := abs_cases d
  have hto : (Int32.ofInt d).toInt = d := Int32.toInt_ofInt_of_le (by omega) (by omega)
  have hneg : Int32.ofInt d < 0 ↔ d < 0 := by
    rw [Int32.lt_iff_toInt_lt, hto]
    rfl
  unfold SimpleAbs
  by_cases h : d < 0
  · rw [if_pos (hneg.mpr h), show (-1 : Int32) = .ofInt (-1) from rfl, ← Int32.ofInt_mul,
      abs_of_neg h, Int.mul_neg_one]
  · rw [if_neg (hneg.not.mpr h), abs_of_nonneg (by omega)]

theorem sub_ofInt (a b : Int32) : a - b = .ofInt (a.toInt - b.toInt) := by
  rw [Int32.ofInt_sub, Int32.ofInt_toInt, Int32.ofInt_toInt]

/-- The passes of a line that is not a point. -/
theorem incPoints_ofInt (ha : a0.toInt < a1.toInt) (hn : a1.toInt - a0.toInt ≤ 2 ^ 30)
    (hm : |b1.toInt - b0.toInt| ≤ a1.toInt - a0.toInt) :
    incPoints a0 b0 a1 b1 = (List.range ((a1.toInt - a0.toInt).toNat + 1)).map fun k : ℕ =>
      (a0 + Int32.ofNat k, .ofInt (b0.toInt + (if b0.toInt > b1.toInt then -1 else 1) *
        Bresenham.height (a1.toInt - a0.toInt) |b1.toInt - b0.toInt| k)) := by
  have hpos : 0 < a1.toInt - a0.toInt := by omega
  have hA : SimpleAbs (a1 - a0) = .ofInt (a1.toInt - a0.toInt) := by
    rw [sub_ofInt, SimpleAbs_ofInt (by rw [abs_of_pos hpos]; exact hn), abs_of_pos hpos]
  have hB : SimpleAbs (b1 - b0) = .ofInt |b1.toInt - b0.toInt| := by
    rw [sub_ofInt, SimpleAbs_ofInt (hm.trans hn)]
  have hdir : (if b0 > b1 then (-1 : Int32) else 1) =
      .ofInt (if b0.toInt > b1.toInt then -1 else 1) := by
    simp only [gt_iff_lt, Int32.lt_iff_toInt_lt]
    split <;> rfl
  have hlen : (a1.toInt - a0.toInt + 1).toNat = (a1.toInt - a0.toInt).toNat + 1 := by omega
  have h2 : (2 : Int32) = .ofInt 2 := rfl
  have htrack := trackPoints_ofInt a0 b0.toInt (if b0.toInt > b1.toInt then -1 else 1) hpos
    (abs_nonneg _) hm hn ((a1.toInt - a0.toInt).toNat + 1) 0
  simp only [Bresenham.track, Nat.cast_zero, Bresenham.height_zero hpos, mul_zero, add_zero,
    Int32.ofInt_toInt, zero_add, mul_one, sub_zero, ← List.range_eq_range'] at htrack
  simp only [incPoints, hA, hB, hdir, counters, hlen, h2, ← Int32.ofInt_mul, ← Int32.ofInt_sub]
  exact htrack

theorem counters_self (a0 : Int32) : counters a0 a0 = [a0] := by
  simp [counters]

/-- **The points of `incPlotter`.** -/
theorem incPoints_eq (ha : a0.toInt ≤ a1.toInt) (hn : a1.toInt - a0.toInt ≤ 2 ^ 30)
    (hm : |b1.toInt - b0.toInt| ≤ a1.toInt - a0.toInt) :
    (incPoints a0 b0 a1 b1).map toPixel =
      majorPixels a0.toInt b0.toInt a1.toInt b1.toInt := by
  rcases eq_or_lt_of_le ha with heq | hlt
  · obtain rfl := Int32.toInt_inj.mp heq
    rw [majorPixels_self, incPoints, counters_self]
    rfl
  · have hpos : 0 < a1.toInt - a0.toInt := by omega
    have hbox := (Rasterises.major ha hm).box
    have hmem := fun p => @mem_majorPixels _ b0.toInt _ b1.toInt hlt p
    rw [incPoints_ofInt hlt hn hm, majorPixels_eq hlt, List.map_map]
    refine List.map_congr_left fun k hk => ?_
    have hk := List.mem_range.mp hk
    have hp := hbox _ ((hmem _).mpr ⟨k, by omega, by omega, rfl⟩)
    have ha0 := a0.le_toInt
    have ha1 := a1.toInt_lt
    have hb0 := And.intro b0.le_toInt b0.toInt_lt
    have hb1 := And.intro b1.le_toInt b1.toInt_lt
    simp only [Function.comp, toPixel, Prod.mk.injEq]
    constructor
    · rw [Int32.toInt_add, Int32.toInt_ofNat', show Int32.size = 2 ^ 32 from rfl, Int.add_bmod_bmod]
      exact Int.bmod_eq_of_le (by omega) (by omega)
    · exact Int32.toInt_ofInt_of_le (by omega) (by omega)

/-- The test for the longer difference. -/
theorem simpleAbs_lt (hx : |x1.toInt - x0.toInt| ≤ 2 ^ 30)
    (hy : |y1.toInt - y0.toInt| ≤ 2 ^ 30) : SimpleAbs (y1 - y0) < SimpleAbs (x1 - x0) ↔
      |y1.toInt - y0.toInt| < |x1.toInt - x0.toInt| := by
  have hsmall : ∀ d : ℤ, |d| ≤ 2 ^ 30 → (Int32.ofInt |d|).toInt = |d| := fun d hd =>
    Int32.toInt_ofInt_of_le (by have := abs_nonneg d; omega) (by omega)
  rw [sub_ofInt, sub_ofInt, SimpleAbs_ofInt hx, SimpleAbs_ofInt hy, Int32.lt_iff_toInt_lt,
    hsmall _ hx, hsmall _ hy]

/-- **The points of a line**, for differences whose doubles do not overflow. -/
theorem linePoints_eq (hx : |x1.toInt - x0.toInt| ≤ 2 ^ 30) (hy : |y1.toInt - y0.toInt| ≤ 2 ^ 30) :
    (linePoints x0 y0 x1 y1).map toPixel =
      linePixels x0.toInt y0.toInt x1.toInt y1.toInt := by
  have hcx := abs_cases (x1.toInt - x0.toInt)
  have hcy := abs_cases (y1.toInt - y0.toInt)
  have hx' := abs_sub_comm x0.toInt x1.toInt
  have hy' := abs_sub_comm y0.toInt y1.toInt
  have hleft : x1 - x0 ≤ 0 ↔ x1.toInt ≤ x0.toInt := by
    rw [sub_ofInt, Int32.le_iff_toInt_le, Int32.toInt_ofInt_of_le (by omega) (by omega),
      show (0 : Int32).toInt = 0 from rfl]
    omega
  have hdown : y1 - y0 ≤ 0 ↔ y1.toInt ≤ y0.toInt := by
    rw [sub_ofInt, Int32.le_iff_toInt_le, Int32.toInt_ofInt_of_le (by omega) (by omega),
      show (0 : Int32).toInt = 0 from rfl]
    omega
  have hswap : ∀ l : List (Int32 × Int32), (l.map Prod.swap).map toPixel =
      (l.map toPixel).map Prod.swap := fun l => by simp [List.map_map, Function.comp_def, toPixel]
  simp only [linePoints, simpleAbs_lt hx hy, hleft, hdown]
  by_cases hm : |y1.toInt - y0.toInt| < |x1.toInt - x0.toInt|
  · rw [if_pos hm, linePixels, if_pos hm]
    by_cases hle : x1.toInt ≤ x0.toInt
    · rw [if_pos hle, if_neg (by omega), incPoints_eq (by omega) (by omega) (by omega)]
    · rw [if_neg hle, if_pos (by omega), incPoints_eq (by omega) (by omega) (by omega)]
  · rw [if_neg hm, hswap, linePixels, if_neg hm]
    by_cases hle : y1.toInt ≤ y0.toInt
    · rw [if_pos hle, incPoints_eq (by omega) (by omega) (by omega)]
      by_cases heq : y0.toInt ≤ y1.toInt
      · have hxeq : x0.toInt = x1.toInt := by omega
        rw [if_pos heq, hxeq, show y0.toInt = y1.toInt by omega]
      · rw [if_neg heq]
    · rw [if_neg hle, if_pos (by omega), incPoints_eq (by omega) (by omega) (by omega)]

/-- The counter of a line passes the greater end without wrapping around. -/
def CounterEnds (x0 y0 x1 y1 : Int32) : Prop :=
  if |y1.toInt - y0.toInt| < |x1.toInt - x0.toInt| then x0 < Int32.maxValue ∧ x1 < Int32.maxValue
  else y0 < Int32.maxValue ∧ y1 < Int32.maxValue

variable {g : Gfx} {h : Fin 5}

/-- `LineDraw` paints its points, where the counter of its loop ends. -/
theorem LineDraw_counted (hx : |x1.toInt - x0.toInt| ≤ 2 ^ 30)
    (hy : |y1.toInt - y0.toInt| ≤ 2 ^ 30) (hend : CounterEnds x0 y0 x1 y1) :
    LineDraw x0 y0 x1 y1 (Int32.ofNat h) g =
      .ok (g.paint (stroke (g.pen h) (linePoints x0 y0 x1 y1))) := by
  simp only [LineDraw, linePoints, simpleAbs_lt hx hy]
  unfold CounterEnds at hend
  split
  · rename_i hm
    rw [if_pos hm] at hend
    split
    · exact XIncPlotter_eq hend.1
    · exact XIncPlotter_eq hend.2
  · rename_i hm
    rw [if_neg hm] at hend
    split
    · exact YIncPlotter_eq hend.1
    · exact YIncPlotter_eq hend.2

theorem toPixel_injective : Function.Injective toPixel := by
  rintro ⟨a, b⟩ ⟨c, d⟩ h
  simp only [toPixel, Prod.mk.injEq, Int32.toInt_inj] at h
  rw [h.1, h.2]

theorem linePoints_comm (hx : |x1.toInt - x0.toInt| ≤ 2 ^ 30)
    (hy : |y1.toInt - y0.toInt| ≤ 2 ^ 30) : linePoints x1 y1 x0 y0 = linePoints x0 y0 x1 y1 := by
  refine List.map_injective_iff.mpr toPixel_injective ?_
  rw [linePoints_eq hx hy, linePoints_eq (by rwa [abs_sub_comm]) (by rwa [abs_sub_comm]),
    linePixels_comm]

/-- The condition does not depend on the direction. -/
theorem CounterEnds.symm (hend : CounterEnds x0 y0 x1 y1) : CounterEnds x1 y1 x0 y0 := by
  unfold CounterEnds at *
  rw [abs_sub_comm x0.toInt, abs_sub_comm y0.toInt]
  split
  · rename_i hm
    rw [if_pos hm] at hend
    exact hend.symm
  · rename_i hm
    rw [if_neg hm] at hend
    exact hend.symm

/-- **Line rasterisation.**  For differences whose doubles do not overflow, and unless the counter
would have to pass the greatest integer, `LineDraw` stores the pen at the pixels of the line, each
once, and the same from either end; the queued `LineDrawFunc` does so from the cursor, and moves
it.  The pixels are those of an ideal line, rounded. -/
theorem line_rasterised (hx : |x1.toInt - x0.toInt| ≤ 2 ^ 30)
    (hy : |y1.toInt - y0.toInt| ≤ 2 ^ 30) (hend : CounterEnds x0 y0 x1 y1) :
    ∃ ps : List (Int32 × Int32),
      ps.map toPixel = linePixels x0.toInt y0.toInt x1.toInt y1.toInt ∧
      Rasterises x0.toInt y0.toInt x1.toInt y1.toInt (ps.map toPixel) ∧
      LineDraw x0 y0 x1 y1 (Int32.ofNat h) g = .ok (g.paint (stroke (g.pen h) ps)) ∧
      LineDraw x1 y1 x0 y0 (Int32.ofNat h) g = .ok (g.paint (stroke (g.pen h) ps)) ∧
      ∀ args : Fin 20 → ArgVal, readArg args 0 = .ok (Int32.ofNat h) → readArg args 1 = .ok x1 →
        readArg args 2 = .ok y1 → (g.hdcObjects h).x = x0 → (g.hdcObjects h).y = y0 →
        LineDrawFunc args g = MovePos (Int32.ofNat h) x1 y1 (g.paint (stroke (g.pen h) ps)) := by
  have hdraw := LineDraw_counted (g := g) (h := h) hx hy hend
  refine ⟨linePoints x0 y0 x1 y1, linePoints_eq hx hy, ?_, hdraw, ?_, ?_⟩
  · rw [linePoints_eq hx hy]
    exact linePixels_rasterises ..
  · rw [← linePoints_comm hx hy]
    exact LineDraw_counted (by rwa [abs_sub_comm]) (by rwa [abs_sub_comm]) hend.symm
  · rintro args h0 h1 h2 rfl rfl
    rw [LineDrawFunc_eq h0 h1 h2, hdraw]
    rfl

/-- From `(0, 0)` to `(3, 1)`. -/
theorem line_rasterised_short : ∃ ps : List (Int32 × Int32),
    ps.map toPixel = [(0, 0), (1, 0), (2, 1), (3, 1)] ∧
      LineDraw 0 0 3 1 0 (.boot fun _ => 0) = .ok ((Gfx.boot fun _ => 0).paint (stroke 0 ps)) := by
  obtain ⟨ps, hps, -, hdraw, -⟩ := @line_rasterised 0 0 3 1 (.boot fun _ => 0) 0 (by decide)
    (by decide) (by unfold CounterEnds; decide)
  exact ⟨ps, hps.trans (by decide), hdraw⟩

/-- The plotter does not end where its counter would have to pass the greatest integer. -/
theorem XIncPlotter_maxValue {g' : Gfx} {hdc : Int32} :
    XIncPlotter x0 y0 Int32.maxValue y1 hdc g ≠ .ok g' := by
  intro hplot
  obtain ⟨r, hr, -⟩ := bind_eq_ok.mp hplot
  exact forLE_maxValue hr

/-- A line to the last column an `int` has. -/
theorem line_to_the_last_column : ¬ ∀ (x0 y0 x1 y1 : Int32) (h : Fin 5) (g : Gfx),
    |x1.toInt - x0.toInt| ≤ 2 ^ 30 → |y1.toInt - y0.toInt| ≤ 2 ^ 30 →
      ∃ ps : List (Int32 × Int32),
        ps.map toPixel = linePixels x0.toInt y0.toInt x1.toInt y1.toInt ∧
        LineDraw x0 y0 x1 y1 (Int32.ofNat h) g = .ok (g.paint (stroke (g.pen h) ps)) := by
  intro hall
  obtain ⟨ps, -, hdraw⟩ := hall (Int32.maxValue - 1) 0 Int32.maxValue 0 0
    (.boot fun _ => 0) (by decide) (by decide)
  have hmajor : SimpleAbs (0 - 0 : Int32) < SimpleAbs (Int32.maxValue - (Int32.maxValue - 1)) := by
    decide
  have hright : ¬ Int32.maxValue - (Int32.maxValue - 1) ≤ 0 := by decide
  rw [LineDraw, if_pos hmajor, if_neg hright] at hdraw
  exact XIncPlotter_maxValue hdraw

end

end Xv6
