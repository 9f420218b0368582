import Xv6.Graphics.Line
import Xv6.Graphics.Queued

/-!
# Graphics — the pixels of a rectangle

`sys_fillrect` draws each row of a rectangle as a line, and so does the queued `DrawRect`.  A row
of more than one pixel is drawn along `x`; one of a single pixel, whose ends are equal, along `y`.

* `mem_rectPoints_iff` — the points drawn are those of the rectangle.
* `rectangle_filled` — the main result: the pixels of the capped rectangle get the pen, and nothing
  else changes; the command that `Painter` queues for the same numbers does the same.
-/

namespace Xv6

open Lib

/-! ### Rows and rectangles -/

/-- The pixels of a row. -/
theorem mem_linePixels_row {x0 x1 y : ℤ} {p : ℤ × ℤ} :
    p ∈ linePixels x0 y x1 y ↔ p.2 = y ∧ min x0 x1 ≤ p.1 ∧ p.1 ≤ max x0 x1 := by
  have key : ∀ {a0 a1 : ℤ}, a0 < a1 →
      (p ∈ majorPixels a0 y a1 y ↔ p.2 = y ∧ a0 ≤ p.1 ∧ p.1 ≤ a1) := by
    intro a0 a1 ha
    have hflat : ∀ k, Bresenham.height (a1 - a0) 0 k = 0 := fun k =>
      Bresenham.height_unique (by omega) (by simp; omega) (by simp; omega)
    rw [mem_majorPixels ha]
    constructor
    · rintro ⟨k, hk0, hk, rfl⟩
      exact ⟨by simp [hflat], by simp only; omega, by simp only; omega⟩
    · rintro ⟨hy, hlo, hhi⟩
      refine ⟨p.1 - a0, by omega, by omega, Prod.ext (by simp only; omega) ?_⟩
      simp [hflat, hy]
  rcases lt_trichotomy x0 x1 with hlt | rfl | hgt
  · have hm : |y - y| < |x1 - x0| := by rw [sub_self, abs_zero]; exact abs_pos.mpr (by omega)
    rw [linePixels, if_pos hm, if_pos hlt.le, key hlt, min_eq_left hlt.le, max_eq_right hlt.le]
  · simp [linePixels, majorPixels_self, Prod.ext_iff]
    omega
  · have hm : |y - y| < |x1 - x0| := by rw [sub_self, abs_zero]; exact abs_pos.mpr (by omega)
    rw [linePixels, if_pos hm, if_neg (by omega), key hgt, min_eq_right hgt.le, max_eq_left hgt.le]

section

variable {top left bottom right x y : Int32} {p : Int32 × Int32} {g : Gfx} {h : Fin 5}

/-- Numbers that a row of the screen can have. -/
theorem mem_linePoints_row (hl : 0 ≤ left.toInt ∧ left.toInt ≤ 319)
    (hr : 0 ≤ right.toInt ∧ right.toInt ≤ 319) : p ∈ linePoints left y right y ↔
      p.2 = y ∧ min left.toInt right.toInt ≤ p.1.toInt ∧
        p.1.toInt ≤ max left.toInt right.toInt := by
  have hx : |right.toInt - left.toInt| ≤ 2 ^ 30 := abs_le.mpr ⟨by omega, by omega⟩
  have hy : |y.toInt - y.toInt| ≤ 2 ^ 30 := by simp
  rw [← List.mem_map_of_injective toPixel_injective, linePoints_eq hx hy, mem_linePixels_row]
  simp only [toPixel, Int32.toInt_inj]

theorem mem_counters_iff {lo hi i : Int32} : i ∈ counters lo hi ↔ lo ≤ i ∧ i ≤ hi := by
  refine ⟨mem_counters, fun ⟨hlo, hhi⟩ => ?_⟩
  have hlo := Int32.le_iff_toInt_le.mp hlo
  have hhi := Int32.le_iff_toInt_le.mp hhi
  refine List.mem_map.mpr ⟨(i.toInt - lo.toInt).toNat, List.mem_range.mpr (by omega), ?_⟩
  rw [← Int32.ofInt_eq_ofNat, Int.toNat_of_nonneg (by omega), Int32.ofInt_sub, Int32.ofInt_toInt,
    Int32.ofInt_toInt, Int32.add_comm, Int32.sub_add_cancel]

/-- **The points of a rectangle.** -/
theorem mem_rectPoints_iff (hl : 0 ≤ left.toInt ∧ left.toInt ≤ 319)
    (hr : 0 ≤ right.toInt ∧ right.toInt ≤ 319) : p ∈ rectPoints top left bottom right ↔
      (min left.toInt right.toInt ≤ p.1.toInt ∧ p.1.toInt ≤ max left.toInt right.toInt) ∧
        bottom.toInt ≤ p.2.toInt ∧ p.2.toInt ≤ top.toInt := by
  simp only [rectPoints, List.mem_flatMap, mem_linePoints_row hl hr, mem_counters_iff,
    Int32.le_iff_toInt_le]
  constructor
  · rintro ⟨y, hy, rfl, hx⟩
    exact ⟨hx, hy⟩
  · rintro ⟨hx, hy⟩
    exact ⟨p.2, hy, rfl, hx⟩

/-! ### Painting in one colour -/

/-- A stroke colours its points and nothing else. -/
theorem paint_stroke (g : Gfx) (v : UInt8) (ps : List (Int32 × Int32)) (o : UInt16) :
    (g.paint (stroke v ps)).pixMem o =
      if ∃ p ∈ ps, offset p.1 p.2 = o then v else g.pixMem o := by
  induction ps generalizing g with
  | nil => simp [stroke, Gfx.paint]
  | cons q ps ih =>
      have hcons : g.paint (stroke v (q :: ps)) = (g.paint [⟨q.1, q.2, v⟩]).paint (stroke v ps) := rfl
      rw [hcons, ih]
      by_cases hq : offset q.1 q.2 = o
      · subst hq
        simp [Gfx.paint, Store.write]
      · have hex : (∃ p ∈ q :: ps, offset p.1 p.2 = o) ↔ ∃ p ∈ ps, offset p.1 p.2 = o := by
          simp only [List.mem_cons, exists_eq_or_imp, hq, false_or]
        simp only [hex, Gfx.paint, Store.write, List.foldl_cons, List.foldl_nil,
          Function.update_of_ne (Ne.symm hq)]

/-- On the screen, pixels have addresses of their own. -/
theorem offset_injective {x' y' : Int32} (h : InScreen x y) (h' : InScreen x' y')
    (he : offset x y = offset x' y') : x = x' ∧ y = y' := by
  have ho := (offset_inScreen h).1
  have ho' := (offset_inScreen h').1
  rw [inScreen_iff] at h h'
  rw [he] at ho
  simp only [← Int32.toInt_inj]
  omega

/-! ### The calls -/

/-- The pixel `(x, y)` is in the capped rectangle. -/
def Rect.Covers (r : Rect) (x y : ℤ) : Prop :=
  (min (clamp r.left.toInt 319) (clamp r.right.toInt 319) ≤ x ∧
      x ≤ max (clamp r.left.toInt 319) (clamp r.right.toInt 319)) ∧
    clamp r.bottom.toInt 199 ≤ y ∧ y ≤ clamp r.top.toInt 199

/-- `g'` is `g` with the pen of `h` in the rectangle: no other byte of the video memory, and nothing
else, is changed. -/
structure Gfx.Filled (g : Gfx) (h : Fin 5) (r : Rect) (g' : Gfx) : Prop where
  inside : ∀ x y, InScreen x y → r.Covers x.toInt y.toInt → g'.pixMem (offset x y) = g.pen h
  outside : ∀ x y, InScreen x y → ¬ r.Covers x.toInt y.toInt →
    g'.pixMem (offset x y) = g.pixMem (offset x y)
  beyond : ∀ o : UInt16, 64000 ≤ o.toNat → g'.pixMem o = g.pixMem o
  hdcs : g'.hdcObjects = g.hdcObjects
  dac : g'.dac = g.dac

theorem Rect.Covers.inScreen {r : Rect} (hc : r.Covers x.toInt y.toInt) : InScreen x y := by
  rw [inScreen_iff]
  simp only [Rect.Covers, clamp] at hc
  omega

/-- Painting exactly the points of the rectangle. -/
theorem Gfx.Filled.paint {r : Rect} {ps : List (Int32 × Int32)}
    (hps : ∀ p, p ∈ ps ↔ r.Covers p.1.toInt p.2.toInt) :
    g.Filled h r (g.paint (stroke (g.pen h) ps)) where
  inside := fun x y _ hc => by
    rw [paint_stroke, if_pos ⟨(x, y), (hps (x, y)).mpr hc, rfl⟩]
  outside := fun x y hxy hc => by
    rw [paint_stroke, if_neg]
    rintro ⟨p, hp, hoff⟩
    have hp := (hps p).mp hp
    obtain ⟨rfl, rfl⟩ := offset_injective hp.inScreen hxy hoff
    exact hc hp
  beyond := fun o ho => by
    rw [paint_stroke, if_neg]
    rintro ⟨p, hp, rfl⟩
    have := (offset_inScreen ((hps p).mp hp).inScreen).2
    omega
  hdcs := rfl
  dac := rfl

/-- The rows that `sys_fillrect` and `DrawRect` draw. -/
theorem fillRows_filled (g : Gfx) (h : Fin 5) (r : Rect) :
    ∃ g', fillRows (ValueCapper r.top 199) (ValueCapper r.left 319) (ValueCapper r.bottom 199)
        (ValueCapper r.right 319) (Int32.ofNat h) g = .ok g' ∧ g.Filled h r g' := by
  have hmax : ∀ v : Int32, ValueCapper v 319 < Int32.maxValue ∧ ValueCapper v 199 < Int32.maxValue :=
    fun v => ⟨Int32.lt_of_le_of_lt (ValueCapper_le (by decide)) (by decide),
      Int32.lt_of_le_of_lt (ValueCapper_le (by decide)) (by decide)⟩
  have h319 : ∀ v : Int32, (ValueCapper v 319).toInt = clamp v.toInt 319 := fun v =>
    toInt_ValueCapper (by decide)
  have h199 : ∀ v : Int32, (ValueCapper v 199).toInt = clamp v.toInt 199 := fun v =>
    toInt_ValueCapper (by decide)
  have hclamp : ∀ v : ℤ, 0 ≤ clamp v 319 ∧ clamp v 319 ≤ 319 := fun v => by unfold clamp; omega
  refine ⟨_, fillRows_eq _ (hmax _).2 (hmax _).1 (hmax _).1, .paint fun p => ?_⟩
  rw [mem_rectPoints_iff (by rw [h319]; exact hclamp _) (by rw [h319]; exact hclamp _), h319, h319,
    h199, h199]
  rfl

theorem sys_fillrect_eq (g : Gfx) (h : Fin 5) (r : Rect) :
    g.sys_fillrect (Int32.ofNat h) r =
      (fillRows (ValueCapper r.top 199) (ValueCapper r.left 319) (ValueCapper r.bottom 199)
        (ValueCapper r.right 319) (Int32.ofNat h) g).map fun g' => (0, g') := by
  have hpos : ¬ Int32.ofNat h < 0 := (show ∀ h : Fin 5, ¬ Int32.ofNat h < 0 by decide) h
  rw [Gfx.sys_fillrect, if_neg hpos]
  rfl

/-- **Rectangle fill.**  Whatever the numbers of a rectangle, `sys_fillrect` puts the pen of the
handle into exactly the pixels of the capped rectangle, and changes nothing else.  The strings that
`Painter` makes of four typed numbers are queued as a `DrawRect`, which does to any state what
`sys_fillrect` does for the rectangle `Painter` makes of the same numbers. -/
theorem rectangle_filled (g : Gfx) (h : Fin 5) :
    (∀ r : Rect, ∃ g', g.sys_fillrect (Int32.ofNat h) r = .ok (0, g') ∧ g.Filled h r g') ∧
    ∀ (x0 x1 y0 y1 : CStr) (junk : Junk) (n : ℕ) (hn : n < 50),
      junk.commandItemTemp.buffset ≠ 1 → (g.hdcObjects h).queueEnd = Int32.ofNat n →
      ∃ cmd : CommandBuffer,
        (g.call ((Drawing.rect x0 x1 y0 y1).queued (Int32.ofNat h) junk)).map Prod.snd =
          .ok (g.withQueue h (Function.update (g.hdcObjects h).commandQueue ⟨n, hn⟩ cmd) (n + 1)) ∧
        cmd.queuedAction = some .DrawRect ∧
        ∀ g₁ : Gfx, ∃ g₂, DrawRect cmd.args g₁ = .ok g₂ ∧
          g₁.sys_fillrect (Int32.ofNat h) (Drawing.sort (atoi x0) (atoi x1) (atoi y0) (atoi y1)) =
            .ok (0, g₂) := by
  refine ⟨fun r => ?_, fun x0 x1 y0 y1 junk n hn hset hend => ?_⟩
  · obtain ⟨g', hg', hf⟩ := fillRows_filled g h r
    exact ⟨g', by rw [sys_fillrect_eq, hg']; rfl, hf⟩
  · obtain ⟨cmd, hcmd, hdec⟩ := appendCommand_spec .DrawRect (h := h) (g := g) hset
      (Drawing.strings_length (.rect x0 x1 y0 y1)) (Drawing.rect_numerals x0 x1 y0 y1) hend hn
    refine ⟨cmd, by rw [Drawing.queued_call]; exact hcmd, hdec.action, fun g₁ => ?_⟩
    obtain ⟨g₂, hg₂, -⟩ := fillRows_filled g₁ h (Drawing.sort (atoi x0) (atoi x1) (atoi y0) (atoi y1))
    refine ⟨g₂, ?_, by rw [sys_fillrect_eq, hg₂]; rfl⟩
    rw [DrawRect_eq (hdec.args 0 _ rfl) (hdec.args 1 _ rfl) (hdec.args 2 _ rfl)
      (hdec.args 3 _ rfl) (hdec.args 4 _ rfl)]
    exact hg₂

/-- The numbers 1, 2, 1 and 2, typed for a rectangle on a screen that is white all over. -/
theorem rectangle_filled_square : ∃ (cmd : CommandBuffer) (g₂ : Gfx),
    cmd.queuedAction = some .DrawRect ∧ DrawRect cmd.args (.boot fun _ => 15) = .ok g₂ ∧
      g₂.pixMem (offset 1 2) = 0 ∧ g₂.pixMem (offset 3 2) = 15 := by
  obtain ⟨hfill, hqueue⟩ := rectangle_filled (.boot fun _ => 15) 0
  obtain ⟨cmd, -, hact, hdraw⟩ := hqueue [49] [50] [49] [50] ⟨.zero, fun _ _ => 0⟩ 0 (by decide)
    (by decide) rfl
  obtain ⟨g₂, hg₂, hrect⟩ := hdraw (.boot fun _ => 15)
  obtain ⟨g', hg', hin⟩ := hfill (Drawing.sort (atoi [49]) (atoi [50]) (atoi [49]) (atoi [50]))
  obtain rfl : g' = g₂ := by simpa using hg'.symm.trans hrect
  refine ⟨cmd, g', hact, hg₂, ?_, ?_⟩
  · exact hin.inside 1 2 (by decide) (by unfold Rect.Covers; decide)
  · exact hin.outside 3 2 (by decide) (by unfold Rect.Covers; decide)

end

end Xv6
