import Xv6.Lib.Bresenham
import Xv6.Graphics.Spec

/-!
# Graphics — the points that drawing stores

`linePoints` and `rectPoints` list the points that `LineDraw` and the loop of a rectangle pass
to `PixelSetterFunc`, in the order they do; drawing is then painting these points
(`LineDraw_eq`, `fillRows_eq`).

* `mem_linePoints`, `mem_rectPoints` — between points of the screen every point is one of the
  screen.
* `offset_inScreen` — there the 16-bit offset is `320 * y + x`, below 64000.
-/

namespace Xv6

open Lib

/-! ### Points -/

/-- A point of the screen. -/
def InScreen (x y : Int32) : Prop := (0 ≤ x ∧ x ≤ 319) ∧ 0 ≤ y ∧ y ≤ 199

instance (x y : Int32) : Decidable (InScreen x y) := by unfold InScreen; infer_instance

/-- A byte stored to the video memory. -/
structure Store where
  x : Int32
  y : Int32
  value : UInt8

/-- One byte of the screen is written. -/
def Store.write (pixMem : UInt16 → UInt8) (s : Store) : UInt16 → UInt8 :=
  Function.update pixMem (offset s.x s.y) s.value

/-- The stores, in order. -/
def Gfx.paint (g : Gfx) (ss : List Store) : Gfx :=
  { g with pixMem := ss.foldl Store.write g.pixMem }

/-- The byte `PixelSetterFunc` stores on handle `h`. -/
def Gfx.pen (g : Gfx) (h : Fin 5) : UInt8 := (g.hdcObjects h).penIndex.toInt8.toUInt8

/-- Points in one colour. -/
def stroke (value : UInt8) (ps : List (Int32 × Int32)) : List Store :=
  ps.map fun p => ⟨p.1, p.2, value⟩

/-- The other coordinate and the error term after one pass of Bresenham's algorithm. -/
def plotNext (direc aInc bInc : Int32) (s : Int32 × Int32) : Int32 × Int32 :=
  let (curB, D) := if s.2 ≥ 0 then (s.1 + direc, s.2 - 2 * aInc) else s
  (curB, D + 2 * bInc)

/-- The points of the passes with counters `as`. -/
def trackPoints (direc aInc bInc : Int32) : List Int32 → Int32 × Int32 → List (Int32 × Int32)
  | [], _ => []
  | a :: as, s => (a, s.1) :: trackPoints direc aInc bInc as (plotNext direc aInc bInc s)

/-- The points of `incPlotter`. -/
def incPoints (a0 b0 a1 b1 : Int32) : List (Int32 × Int32) :=
  let aInc := SimpleAbs (a1 - a0)
  let bInc := SimpleAbs (b1 - b0)
  trackPoints (if b0 > b1 then -1 else 1) aInc bInc (counters a0 a1) (b0, 2 * bInc - aInc)

/-- The points of a line, in the order in which they are drawn. -/
def linePoints (x0 y0 x1 y1 : Int32) : List (Int32 × Int32) :=
  let xDif := x1 - x0
  let yDif := y1 - y0
  if SimpleAbs yDif < SimpleAbs xDif then
    if xDif ≤ 0 then incPoints x1 y1 x0 y0 else incPoints x0 y0 x1 y1
  else
    (if yDif ≤ 0 then incPoints y1 x1 y0 x0 else incPoints y0 x0 y1 x1).map Prod.swap

/-- The points of a rectangle, row by row. -/
def rectPoints (top left bottom right : Int32) : List (Int32 × Int32) :=
  (counters bottom top).flatMap fun y => linePoints left y right y

/-! ### Drawing paints them -/

section

variable {g : Gfx} {h : Fin 5}

theorem Gfx.paint_append (g : Gfx) (ss ts : List Store) :
    g.paint (ss ++ ts) = (g.paint ss).paint ts := by
  simp [Gfx.paint, List.foldl_append]

theorem PixelSetterFunc_eq (g : Gfx) (x y : Int32) :
    PixelSetterFunc (Int32.ofNat h) x y g = .ok (g.paint [⟨x, y, g.pen h⟩]) := by
  simp only [PixelSetterFunc, hdcAt_ofNat]
  rfl

/-- The passes of Bresenham's algorithm, where plotting `a`, `b` stores `at a b`. -/
theorem foldlM_plotStep {plot : Int32 → Int32 → Gfx → Except Fault Gfx}
    {store : Int32 × Int32 → Store} (direc aInc bInc : Int32)
    (hplot : ∀ a b ss, plot a b (g.paint ss) = .ok (g.paint (ss ++ [store (a, b)])))
    (as : List Int32) : ∀ (s : Int32 × Int32) (ss : List Store), ∃ t : Int32 × Int32,
      as.foldlM (fun s a => plotStep plot direc aInc bInc a s) (s.1, s.2, g.paint ss) =
        .ok (t.1, t.2, g.paint (ss ++ (trackPoints direc aInc bInc as s).map store)) := by
  induction as with
  | nil =>
      intro s ss
      exact ⟨s, by simp [trackPoints]; rfl⟩
  | cons a as ih =>
      intro s ss
      obtain ⟨t, ht⟩ := ih (plotNext direc aInc bInc s) (ss ++ [store (a, s.1)])
      have hstep : plotStep plot direc aInc bInc a (s.1, s.2, g.paint ss) =
          .ok ((plotNext direc aInc bInc s).1, (plotNext direc aInc bInc s).2,
            g.paint (ss ++ [store (a, s.1)])) := by
        simp only [plotStep, hplot, plotNext]
        rfl
      rw [List.append_assoc] at ht
      refine ⟨t, ?_⟩
      rw [List.foldlM_cons, hstep, trackPoints, List.map_cons]
      exact ht

/-- A plotter that paints, paints its points in order. -/
theorem incPlotter_eq {plot : Int32 → Int32 → Gfx → Except Fault Gfx}
    (store : Int32 × Int32 → Store) {a0 b0 a1 b1 : Int32}
    (hplot : ∀ a b ss, plot a b (g.paint ss) = .ok (g.paint (ss ++ [store (a, b)])))
    (hmax : a1 < Int32.maxValue) :
    incPlotter plot a0 b0 a1 b1 g = .ok (g.paint ((incPoints a0 b0 a1 b1).map store)) := by
  obtain ⟨t, ht⟩ := foldlM_plotStep (if b0 > b1 then -1 else 1) (SimpleAbs (a1 - a0))
    (SimpleAbs (b1 - b0)) hplot (counters a0 a1)
    (b0, 2 * SimpleAbs (b1 - b0) - SimpleAbs (a1 - a0)) []
  simp only [incPlotter, cFor, forLE_eq_foldlM hmax]
  rw [show g.paint [] = g from rfl] at ht
  simp only [ht]
  rfl

variable {x0 y0 x1 y1 : Int32}

theorem plot_eq (g : Gfx) (x y : Int32) (ss : List Store) :
    PixelSetterFunc (Int32.ofNat h) x y (g.paint ss) =
      .ok (g.paint (ss ++ [⟨x, y, g.pen h⟩])) := by
  rw [PixelSetterFunc_eq, Gfx.paint_append]
  rfl

theorem XIncPlotter_eq (hx : x1 < Int32.maxValue) :
    XIncPlotter x0 y0 x1 y1 (Int32.ofNat h) g =
      .ok (g.paint (stroke (g.pen h) (incPoints x0 y0 x1 y1))) :=
  incPlotter_eq (fun p => ⟨p.1, p.2, g.pen h⟩) (fun a b ss => plot_eq g a b ss) hx

theorem YIncPlotter_eq (hy : y1 < Int32.maxValue) :
    YIncPlotter x0 y0 x1 y1 (Int32.ofNat h) g =
      .ok (g.paint (stroke (g.pen h) ((incPoints y0 x0 y1 x1).map Prod.swap))) := by
  refine (incPlotter_eq (fun p => ⟨p.2, p.1, g.pen h⟩)
    (fun a b ss => plot_eq g b a ss) hy).trans ?_
  rw [stroke, List.map_map]
  rfl

/-- **A line paints its points.** -/
theorem LineDraw_eq (hx0 : x0 < Int32.maxValue) (hy0 : y0 < Int32.maxValue)
    (hx1 : x1 < Int32.maxValue) (hy1 : y1 < Int32.maxValue) :
    LineDraw x0 y0 x1 y1 (Int32.ofNat h) g =
      .ok (g.paint (stroke (g.pen h) (linePoints x0 y0 x1 y1))) := by
  simp only [LineDraw, linePoints]
  split
  · split
    · exact XIncPlotter_eq hx0
    · exact XIncPlotter_eq hx1
  · split
    · exact YIncPlotter_eq hy0
    · exact YIncPlotter_eq hy1

theorem stroke_append (v : UInt8) (ps qs : List (Int32 × Int32)) :
    stroke v (ps ++ qs) = stroke v ps ++ stroke v qs := List.map_append

/-- The rows of a rectangle, one after the other. -/
theorem foldlM_LineDraw {left right : Int32} (hl : left < Int32.maxValue)
    (hr : right < Int32.maxValue) (ys : List Int32) :
    ∀ ss : List Store, (∀ y ∈ ys, y < Int32.maxValue) →
      ys.foldlM (fun g y => LineDraw left y right y (Int32.ofNat h) g) (g.paint ss) =
        .ok (g.paint (ss ++ stroke (g.pen h) (ys.flatMap fun y => linePoints left y right y))) := by
  induction ys with
  | nil =>
      intro ss _
      rw [List.flatMap_nil, show stroke (g.pen h) [] = [] from rfl, List.append_nil]
      rfl
  | cons y ys ih =>
      intro ss hys
      have hy : y < Int32.maxValue := hys y (by simp)
      have hrow : LineDraw left y right y (Int32.ofNat h) (g.paint ss) =
          .ok (g.paint (ss ++ stroke (g.pen h) (linePoints left y right y))) := by
        rw [LineDraw_eq hl hy hr hy, Gfx.paint_append]
        rfl
      rw [List.foldlM_cons, hrow, List.flatMap_cons, stroke_append, ← List.append_assoc]
      exact ih _ fun y hy => hys y (by simp [hy])

/-- **A rectangle paints its points.** -/
theorem fillRows_eq {top left right : Int32} (bottom : Int32) (ht : top < Int32.maxValue)
    (hl : left < Int32.maxValue) (hr : right < Int32.maxValue) :
    fillRows top left bottom right (Int32.ofNat h) g =
      .ok (g.paint (stroke (g.pen h) (rectPoints top left bottom right))) := by
  rw [fillRows, cFor, forLE_eq_foldlM ht]
  exact foldlM_LineDraw hl hr (counters bottom top) [] fun y hy =>
    Int32.lt_of_le_of_lt (mem_counters hy).2 ht

end

/-! ### They are on the screen -/

section

variable {a b x y : Int32}

/-- A difference that does not wrap around. -/
theorem toInt_sub_eq (hlo : -2 ^ 31 ≤ a.toInt - b.toInt) (hhi : a.toInt - b.toInt < 2 ^ 31) :
    (a - b).toInt = a.toInt - b.toInt := by
  rw [Int32.toInt_sub]
  exact Int.bmod_eq_of_le hlo hhi

theorem toInt_two_mul (hlo : -2 ^ 30 ≤ a.toInt) (hhi : a.toInt < 2 ^ 30) :
    (2 * a).toInt = 2 * a.toInt := by
  rw [Int32.toInt_mul, show (2 : Int32).toInt = 2 from rfl]
  exact Int.bmod_eq_of_le (by omega) (by omega)

/-- `SimpleAbs` of a difference that does not overflow. -/
theorem toInt_SimpleAbs_sub (ha : 0 ≤ a.toInt) (hb : 0 ≤ b.toInt) :
    (SimpleAbs (a - b)).toInt = |a.toInt - b.toInt| := by
  have ha' := a.toInt_lt
  have hb' := b.toInt_lt
  have hsub : (a - b).toInt = a.toInt - b.toInt := toInt_sub_eq (by omega) (by omega)
  rw [SimpleAbs]
  split
  · rename_i hneg
    have hneg := Int32.lt_iff_toInt_lt.mp hneg
    rw [hsub, show (0 : Int32).toInt = 0 from rfl] at hneg
    rw [abs_of_neg hneg, Int32.toInt_mul, hsub, show (-1 : Int32).toInt = -1 from rfl,
      Int.mul_neg_one]
    exact Int.bmod_eq_of_le (by omega) (by omega)
  · rename_i hpos
    have hpos := Int32.le_iff_toInt_le.mp (Int32.not_lt.mp hpos)
    rw [hsub, show (0 : Int32).toInt = 0 from rfl] at hpos
    rw [abs_of_nonneg hpos, hsub]

/-- The passes, over the integers. -/
structure Tracks (b0 direc : Int32) (s : Int32 × Int32) (t : ℤ × ℤ) : Prop where
  coord : s.1.toInt = b0.toInt + direc.toInt * t.1
  error : s.2.toInt = t.2

variable {b0 direc aInc bInc : Int32} {s : Int32 × Int32} {t : ℤ × ℤ} {k : ℤ}

/-- A step of the loop is a step of the algorithm over the integers. -/
theorem Tracks.next (h : Tracks b0 direc s t) (hat : Bresenham.At aInc.toInt bInc.toInt k t)
    (hb : 0 ≤ bInc.toInt) (hab : bInc.toInt ≤ aInc.toInt) (ha : aInc.toInt < 2 ^ 28)
    (hb0 : 0 ≤ b0.toInt ∧ b0.toInt < 2 ^ 30) (hc : t.1 ≤ bInc.toInt)
    (hdir : direc = 1 ∨ direc = -1) :
    Tracks b0 direc (plotNext direc aInc bInc s) (Bresenham.next aInc.toInt bInc.toInt t) := by
  obtain ⟨hcoord, herror⟩ := h
  have hpos := hat.pos
  have hge := hat.error_ge
  have hle := hat.error_le
  have h2a : (2 * aInc).toInt = 2 * aInc.toInt := toInt_two_mul (by omega) (by omega)
  have h2b : (2 * bInc).toInt = 2 * bInc.toInt := toInt_two_mul (by omega) (by omega)
  have hsign : s.2 ≥ 0 ↔ 0 ≤ t.2 := by
    rw [ge_iff_le, Int32.le_iff_toInt_le, herror]
    rfl
  rw [plotNext, Bresenham.next]
  by_cases hD : 0 ≤ t.2
  · rw [if_pos (hsign.mpr hD), if_pos hD]
    have hsub : (s.2 - 2 * aInc).toInt = t.2 - 2 * aInc.toInt := by
      rw [toInt_sub_eq (by omega) (by omega), herror, h2a]
    constructor
    · rcases hdir with rfl | rfl
      · have h1 : (1 : Int32).toInt = 1 := rfl
        rw [h1] at hcoord ⊢
        rw [toInt_add_eq (by omega) (by omega), h1]
        omega
      · have h1 : (-1 : Int32).toInt = -1 := rfl
        rw [h1] at hcoord ⊢
        rw [toInt_add_eq (by omega) (by omega), h1]
        omega
    · rw [toInt_add_eq (by omega) (by omega), hsub, h2b]
  · rw [if_neg (hsign.not.mpr hD), if_neg hD]
    refine ⟨hcoord, ?_⟩
    rw [toInt_add_eq (by omega) (by omega), herror, h2b]

/-- Along the passes the other coordinate stays within `bInc` of where it starts. -/
theorem mem_trackPoints (hb : 0 ≤ bInc.toInt) (hab : bInc.toInt ≤ aInc.toInt)
    (ha : aInc.toInt < 2 ^ 28) (hb0 : 0 ≤ b0.toInt ∧ b0.toInt < 2 ^ 30)
    (hdir : direc = 1 ∨ direc = -1) (as : List Int32) :
    ∀ (k : ℤ) (s : Int32 × Int32) (t : ℤ × ℤ), Tracks b0 direc s t →
      Bresenham.At aInc.toInt bInc.toInt k t → k + as.length ≤ aInc.toInt + 1 →
      ∀ p ∈ trackPoints direc aInc bInc as s, p.1 ∈ as ∧
        ∃ c, 0 ≤ c ∧ c ≤ bInc.toInt ∧ p.2.toInt = b0.toInt + direc.toInt * c := by
  induction as with
  | nil => intro k s t _ _ _ p hp; cases hp
  | cons a as ih =>
      intro k s t htr hat hk p hp
      rw [List.length_cons, Nat.cast_add, Nat.cast_one] at hk
      have hc : t.1 ≤ bInc.toInt := hat.le hb hab (by omega)
      rw [trackPoints] at hp
      rcases List.mem_cons.mp hp with rfl | hp
      · exact ⟨by simp, t.1, hat.pos, hc, htr.coord⟩
      · obtain ⟨hmem, hrest⟩ := ih (k + 1) _ _ (htr.next hat hb hab ha hb0 hc hdir)
          (hat.next hb hab) (by omega) p hp
        exact ⟨List.mem_cons_of_mem _ hmem, hrest⟩

theorem counters_length (lo hi : Int32) :
    (counters lo hi).length = (hi.toInt - lo.toInt + 1).toNat := by
  rw [counters, List.length_map, List.length_range]

/-- **The points of a line** that is at least as long as it is high. -/
theorem mem_incPoints {a0 a1 b1 : Int32} (ha0 : 0 ≤ a0.toInt) (ha : a0.toInt ≤ a1.toInt)
    (ha1 : a1.toInt < 2 ^ 28) (hb0 : 0 ≤ b0.toInt ∧ b0.toInt < 2 ^ 28) (hb1 : 0 ≤ b1.toInt)
    (hsteep : |b1.toInt - b0.toInt| ≤ |a1.toInt - a0.toInt|) {p : Int32 × Int32}
    (hp : p ∈ incPoints a0 b0 a1 b1) :
    (a0 ≤ p.1 ∧ p.1 ≤ a1) ∧ min b0.toInt b1.toInt ≤ p.2.toInt ∧
      p.2.toInt ≤ max b0.toInt b1.toInt := by
  have hA := toInt_SimpleAbs_sub (a := a1) (b := a0) (by omega) ha0
  have hB := toInt_SimpleAbs_sub (a := b1) (b := b0) hb1 hb0.1
  have hA' : |a1.toInt - a0.toInt| = a1.toInt - a0.toInt := abs_of_nonneg (by omega)
  rw [hA'] at hA hsteep
  have hB0 : 0 ≤ (SimpleAbs (b1 - b0)).toInt := hB ▸ abs_nonneg _
  have hAB : (SimpleAbs (b1 - b0)).toInt ≤ (SimpleAbs (a1 - a0)).toInt := by rw [hA, hB]; exact hsteep
  have hstart : Tracks b0 (if b0 > b1 then -1 else 1)
      (b0, 2 * SimpleAbs (b1 - b0) - SimpleAbs (a1 - a0))
      (0, 2 * (SimpleAbs (b1 - b0)).toInt - (SimpleAbs (a1 - a0)).toInt) := by
    have h2 : (2 * SimpleAbs (b1 - b0)).toInt = 2 * (SimpleAbs (b1 - b0)).toInt :=
      toInt_two_mul (by omega) (by omega)
    refine ⟨by simp, ?_⟩
    rw [toInt_sub_eq (by omega) (by omega), h2]
  have hdir : (if b0 > b1 then (-1 : Int32) else 1) = 1 ∨
      (if b0 > b1 then (-1 : Int32) else 1) = -1 := by
    split
    · exact Or.inr rfl
    · exact Or.inl rfl
  obtain ⟨hmem, c, hc0, hc, hcoord⟩ := mem_trackPoints hB0 hAB (by omega) ⟨hb0.1, by omega⟩ hdir
    (counters a0 a1) 0 _ _ hstart (.start hB0 hAB) (by rw [counters_length]; omega) p hp
  refine ⟨mem_counters hmem, ?_⟩
  rw [hB] at hc
  by_cases hlt : b0 > b1
  · have hlt' := Int32.lt_iff_toInt_lt.mp hlt
    rw [if_pos hlt, show (-1 : Int32).toInt = -1 from rfl] at hcoord
    rw [abs_of_neg (by omega)] at hc
    omega
  · have hle' := Int32.le_iff_toInt_le.mp (Int32.not_lt.mp hlt)
    rw [if_neg hlt, show (1 : Int32).toInt = 1 from rfl] at hcoord
    rw [abs_of_nonneg (by omega)] at hc
    omega

theorem inScreen_iff : InScreen x y ↔
    (0 ≤ x.toInt ∧ x.toInt ≤ 319) ∧ 0 ≤ y.toInt ∧ y.toInt ≤ 199 := by
  simp only [InScreen, Int32.le_iff_toInt_le]
  exact Iff.rfl

variable {x0 y0 x1 y1 : Int32}

/-- **Every point of a line** between points of the screen is one of the screen. -/
theorem mem_linePoints (h0 : InScreen x0 y0) (h1 : InScreen x1 y1) {p : Int32 × Int32}
    (hp : p ∈ linePoints x0 y0 x1 y1) : InScreen p.1 p.2 := by
  rw [inScreen_iff] at h0 h1 ⊢
  have hx : (x1 - x0).toInt = x1.toInt - x0.toInt := toInt_sub_eq (by omega) (by omega)
  have hy : (y1 - y0).toInt = y1.toInt - y0.toInt := toInt_sub_eq (by omega) (by omega)
  have hX := toInt_SimpleAbs_sub h1.1.1 h0.1.1
  have hY := toInt_SimpleAbs_sub h1.2.1 h0.2.1
  have hxs := abs_sub_comm x0.toInt x1.toInt
  have hys := abs_sub_comm y0.toInt y1.toInt
  have h0' : (0 : Int32).toInt = 0 := rfl
  simp only [linePoints, Int32.lt_iff_toInt_lt, Int32.le_iff_toInt_le, hX, hY, hx, hy, h0'] at hp
  -- the endpoints are swapped where the line goes down
  have key : ∀ a0 b0 a1 b1 : Int32, ∀ q ∈ incPoints a0 b0 a1 b1, 0 ≤ a0.toInt →
      a0.toInt ≤ a1.toInt → a1.toInt ≤ 319 → 0 ≤ b0.toInt → b0.toInt ≤ 319 → 0 ≤ b1.toInt →
      |b1.toInt - b0.toInt| ≤ |a1.toInt - a0.toInt| →
      (a0.toInt ≤ q.1.toInt ∧ q.1.toInt ≤ a1.toInt) ∧ min b0.toInt b1.toInt ≤ q.2.toInt ∧
        q.2.toInt ≤ max b0.toInt b1.toInt := by
    intro a0 b0 a1 b1 q hq ha0 ha ha1 hb0 hb0' hb1 hsteep
    have := mem_incPoints ha0 ha (by omega) ⟨hb0, by omega⟩ hb1 hsteep hq
    exact ⟨⟨Int32.le_iff_toInt_le.mp this.1.1, Int32.le_iff_toInt_le.mp this.1.2⟩, this.2⟩
  split at hp
  · split at hp
    · have := key _ _ _ _ p hp (by omega) (by omega) (by omega) (by omega) (by omega) (by omega)
        (by omega)
      omega
    · have := key _ _ _ _ p hp (by omega) (by omega) (by omega) (by omega) (by omega) (by omega)
        (by omega)
      omega
  · obtain ⟨q, hq, rfl⟩ := List.mem_map.mp hp
    simp only [Prod.fst_swap, Prod.snd_swap]
    split at hq
    · have := key _ _ _ _ q hq (by omega) (by omega) (by omega) (by omega) (by omega) (by omega)
        (by omega)
      omega
    · have := key _ _ _ _ q hq (by omega) (by omega) (by omega) (by omega) (by omega) (by omega)
        (by omega)
      omega

/-- **Every point of a rectangle** with its corners on the screen is one of the screen. -/
theorem mem_rectPoints {top left bottom right : Int32} (h0 : InScreen left bottom)
    (h1 : InScreen right top) {p : Int32 × Int32} (hp : p ∈ rectPoints top left bottom right) :
    InScreen p.1 p.2 := by
  obtain ⟨y, hy, hp⟩ := List.mem_flatMap.mp hp
  obtain ⟨hlo, hhi⟩ := mem_counters hy
  have hy' : 0 ≤ y ∧ y ≤ 199 := ⟨Int32.le_trans h0.2.1 hlo, Int32.le_trans hhi h1.2.2⟩
  exact mem_linePoints ⟨h0.1, hy'⟩ ⟨h1.1, hy'⟩ hp

/-- **The offset is not truncated.** -/
theorem offset_inScreen (h : InScreen x y) :
    ((offset x y).toNat : ℤ) = 320 * y.toInt + x.toInt ∧ (offset x y).toNat < 64000 := by
  obtain ⟨X, hX, rfl⟩ := exists_ofNat h.1.1
  obtain ⟨Y, hY, rfl⟩ := exists_ofNat h.2.1
  have hX' : X ≤ 319 := (Int32.ofNat_le_iff_le hX (by decide)).mp h.1.2
  have hY' : Y ≤ 199 := (Int32.ofNat_le_iff_le hY (by decide)).mp h.2.2
  have hoff : offset (Int32.ofNat X) (Int32.ofNat Y) = UInt16.ofNat (320 * Y + X) := by
    rw [offset, show (320 : Int32) = Int32.ofNat 320 from rfl, ← Int32.ofNat_mul, ← Int32.ofNat_add,
      Int32.toInt16_ofNat', Int16.toUInt16_ofNat']
  rw [hoff, UInt16.toNat_ofNat_of_lt' (by simp [UInt16.size]; omega), Int32.toInt_ofNat_of_lt hX,
    Int32.toInt_ofNat_of_lt hY]
  exact ⟨by push_cast; rfl, by omega⟩

end

end Xv6
