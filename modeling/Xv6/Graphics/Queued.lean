import Xv6.Graphics.Spec

/-!
# Graphics — queued drawing is immediate drawing

`Painter` sends a drawing either at once (`Drawing.immediate`) or to the queue
(`Drawing.queued`), where it is capped, printed, stored, and read again by `endpaint`.  The
command queue of a handle is not read by the drawing functions, so that each of them commutes
with a change of it (`…_withQueue`); a queued command then does to the state with the queue what
the call does to the state without it (`Decodes.call`), and `endpaint` runs the calls in order
(`execQueue_eq`).

* `queued_eq_immediate` — the two leave the same video memory.
-/

namespace Xv6

open Lib

/-! ### `Painter` -/

/-- The drawing commands of `Painter`, with their numbers as they are typed. -/
inductive Drawing where
  | pixel (x y : CStr)
  | line (x y : CStr)
  | move (x y : CStr)
  | rect (x0 x1 y0 y1 : CStr)

namespace Drawing

/-- Every number is typed in decimal digits. -/
def Typed : Drawing → Prop
  | pixel x y | line x y | move x y => (∀ c ∈ x, isDigit c) ∧ ∀ c ∈ y, isDigit c
  | rect x0 x1 y0 y1 => ((∀ c ∈ x0, isDigit c) ∧ ∀ c ∈ x1, isDigit c) ∧
      (∀ c ∈ y0, isDigit c) ∧ ∀ c ∈ y1, isDigit c

/-- `Painter` sorts the corners of a rectangle. -/
def sort (x0 x1 y0 y1 : Int32) : Rect where
  top := if y0 > y1 then y0 else y1
  left := if x0 > x1 then x1 else x0
  bottom := if y0 > y1 then y1 else y0
  right := if x0 > x1 then x0 else x1

/-- The system call of a drawing in system-call mode. -/
def immediate (hdc : Int32) : Drawing → Gfx.Call
  | pixel x y => .setpixel hdc (atoi x) (atoi y)
  | line x y => .lineto hdc (atoi x) (atoi y)
  | move x y => .moveto hdc (atoi x) (atoi y)
  | rect x0 x1 y0 y1 => .fillrect hdc (sort (atoi x0) (atoi x1) (atoi y0) (atoi y1))

/-- The system call of a drawing in queue mode; the pointers it leaves unset are not read. -/
def queued (hdc : Int32) (junk : Junk) : Drawing → Gfx.Call
  | pixel x y => .writeQueue hdc 0 ⟨x, y, [], []⟩ junk
  | line x y => .writeQueue hdc 1 ⟨x, y, [], []⟩ junk
  | move x y => .writeQueue hdc 2 ⟨x, y, [], []⟩ junk
  | rect x0 x1 y0 y1 =>
      let r := sort (atoi x0) (atoi x1) (atoi y0) (atoi y1)
      .writeQueue hdc 5
        ⟨ParseChar r.top, ParseChar r.bottom, ParseChar r.right, ParseChar r.left⟩ junk

/-- The action a drawing is queued as. -/
def action : Drawing → Action
  | pixel .. => .PixelSetterFuncQueue
  | line .. => .LineDrawFunc
  | move .. => .MovePosFunc
  | rect .. => .DrawRect

/-- The strings stored for it, after the handle. -/
def strings : Drawing → List CStr
  | pixel x y | line x y | move x y => [capped x 319, capped y 199]
  | rect x0 x1 y0 y1 =>
      let r := sort (atoi x0) (atoi x1) (atoi y0) (atoi y1)
      [capped (ParseChar r.top) 199, capped (ParseChar r.left) 319,
        capped (ParseChar r.bottom) 199, capped (ParseChar r.right) 319]

/-- The numbers the action gets, after the handle. -/
def values : Drawing → List Int32
  | pixel x y | line x y | move x y => [ValueCapper (atoi x) 319, ValueCapper (atoi y) 199]
  | rect x0 x1 y0 y1 =>
      let r := sort (atoi x0) (atoi x1) (atoi y0) (atoi y1)
      [ValueCapper r.top 199, ValueCapper r.left 319, ValueCapper r.bottom 199,
        ValueCapper r.right 319]

end Drawing

/-- A list of calls, in order. -/
def Gfx.calls (g : Gfx) (cs : List Gfx.Call) : Except Fault Gfx :=
  cs.foldlM (fun g c => (g.call c).map Prod.snd) g

/-! ### Queuing -/

section

variable {g : Gfx} {h : Fin 5} {junk : Junk} {queue : Fin 50 → CommandBuffer} {n : ℕ}

theorem Numeral.typed {a : CStr} {cap : Int32} (ha : ∀ c ∈ a, isDigit c) (h : 0 ≤ cap)
    (h' : cap < 1000) : Numeral (Xv6.capped a cap) (ValueCapper (atoi a) cap) := by
  rw [atoi_eq_ParseInt ha]
  exact Numeral.capped a h h'

theorem Numeral.printed (v : Int32) {cap : Int32} (h : 0 ≤ cap) (h' : cap < 1000) :
    Numeral (Xv6.capped (Xv6.ParseChar v) cap) (ValueCapper v cap) := by
  rw [← ValueCapperChar_ParseChar v h]
  exact Numeral.capped _ h h'

theorem Drawing.rect_numerals (x0 x1 y0 y1 : CStr) :
    List.Forall₂ Numeral (Drawing.rect x0 x1 y0 y1).strings (Drawing.rect x0 x1 y0 y1).values := by
  have h319 : (0 : Int32) ≤ 319 ∧ (319 : Int32) < 1000 := by decide
  have h199 : (0 : Int32) ≤ 199 ∧ (199 : Int32) < 1000 := by decide
  exact .cons (.printed _ h199.1 h199.2) (.cons (.printed _ h319.1 h319.2)
    (.cons (.printed _ h199.1 h199.2) (.cons (.printed _ h319.1 h319.2) .nil)))

/-- The strings of a drawing are its values, as numerals. -/
theorem Drawing.numerals {d : Drawing} (hd : d.Typed) :
    List.Forall₂ Numeral d.strings d.values := by
  have h319 : (0 : Int32) ≤ 319 ∧ (319 : Int32) < 1000 := by decide
  have h199 : (0 : Int32) ≤ 199 ∧ (199 : Int32) < 1000 := by decide
  cases d with
  | pixel x y | line x y | move x y =>
      exact .cons (.typed hd.1 h319.1 h319.2) (.cons (.typed hd.2 h199.1 h199.2) .nil)
  | rect x0 x1 y0 y1 => exact rect_numerals x0 x1 y0 y1

theorem Drawing.strings_length (d : Drawing) : d.strings.length < 20 := by
  cases d <;> exact Nat.lt_of_sub_eq_succ rfl

theorem map_snd_return {x : Except Fault Gfx} (r : Int32) :
    (x >>= fun g => pure (r, g)).map Prod.snd = x := by
  cases x <;> rfl

theorem Drawing.queued_call (d : Drawing) (hdc : Int32) :
    (g.call (d.queued hdc junk)).map Prod.snd = appendCommand d.action d.strings junk hdc g := by
  cases d with
  | pixel x y | line x y | move x y | rect x0 x1 y0 y1 => exact map_snd_return 1

/-- A list of drawings fills the queue from entry `n` on, and changes nothing else. -/
theorem queued_calls (ds : List (Drawing × Junk)) :
    ∀ (g : Gfx) (n : ℕ), (g.hdcObjects h).queueEnd = Int32.ofNat n → n + ds.length ≤ 50 →
      (∀ d ∈ ds, d.1.Typed ∧ d.2.commandItemTemp.buffset ≠ 1) →
      ∃ queue, g.calls (ds.map fun d => d.1.queued (Int32.ofNat h) d.2) =
          .ok (g.withQueue h queue (n + ds.length)) ∧
        (∀ k : Fin 50, k.1 < n → queue k = (g.hdcObjects h).commandQueue k) ∧
        ∀ (k : Fin 50) (d : Drawing × Junk), n ≤ k.1 → ds[k.1 - n]? = some d →
          Decodes (queue k) d.1.action (Int32.ofNat h :: d.1.values) := by
  induction ds with
  | nil =>
      intro g n hend hlen hds
      refine ⟨(g.hdcObjects h).commandQueue, ?_, fun _ _ => rfl, fun k d _ hd => by simp at hd⟩
      simp only [Gfx.withQueue, List.length_nil, Nat.add_zero, ← hend, Gfx.setHdc,
        Function.update_eq_self]
      rfl
  | cons d ds ih =>
      intro g n hend hlen hds
      simp only [List.length_cons] at hlen
      have hn : n < 50 := by omega
      obtain ⟨hd, hset⟩ := hds d (by simp)
      obtain ⟨cmd, hcmd, hdec⟩ := appendCommand_spec d.1.action (h := h) (g := g) hset
        (Drawing.strings_length d.1) (Drawing.numerals hd) hend hn
      obtain ⟨queue, hq, hold, hnew⟩ := ih
        (g.withQueue h (Function.update (g.hdcObjects h).commandQueue ⟨n, hn⟩ cmd) (n + 1)) (n + 1)
        (by simp [Gfx.withQueue, Gfx.setHdc]) (by omega) fun e he => hds e (by simp [he])
      refine ⟨queue, ?_, fun k hk => ?_, fun k e hk he => ?_⟩
      · rw [List.map_cons, Gfx.calls, List.foldlM_cons, Drawing.queued_call, hcmd]
        refine hq.trans ?_
        simp [Gfx.withQueue, Gfx.setHdc, Nat.add_assoc, Nat.add_comm 1]
      · rw [hold k (by omega)]
        have : k ≠ ⟨n, hn⟩ := by rintro rfl; exact absurd hk (lt_irrefl _)
        simp [Gfx.withQueue, Gfx.setHdc, this]
      · rcases Nat.eq_or_lt_of_le hk with hk' | hlt
        · subst hk'
          obtain rfl : d = e := by simpa using he
          rw [hold k (Nat.lt_succ_self _)]
          simpa [Gfx.withQueue, Gfx.setHdc] using hdec
        · refine hnew k e hlt ?_
          rw [show k.1 - n = k.1 - (n + 1) + 1 by omega] at he
          simpa using he

end

/-! ### Drawing does not read the queue -/

section

variable {h : Fin 5} {queue : Fin 50 → CommandBuffer} {n : ℕ}

/-- Setting a pixel does not look at the queue. -/
theorem PixelSetterFunc_withQueue (hdc x y : Int32) (g : Gfx) :
    PixelSetterFunc hdc x y (g.withQueue h queue n) =
      (PixelSetterFunc hdc x y g).map (·.withQueue h queue n) := by
  simp only [PixelSetterFunc]
  cases hdcAt hdc with
  | error e => rfl
  | ok i =>
      have hpen : ((g.withQueue h queue n).hdcObjects i).penIndex = (g.hdcObjects i).penIndex := by
        by_cases hi : i = h
        · subst hi; simp [Gfx.withQueue, Gfx.setHdc]
        · simp [Gfx.withQueue, Gfx.setHdc, hi]
      show Except.ok _ = Except.ok _
      rw [hpen]
      rfl

/-- A step of the plotter does not look at the queue. -/
theorem plotStep_withQueue {plot : Int32 → Int32 → Gfx → Except Fault Gfx}
    (hplot : ∀ a b g, plot a b (g.withQueue h queue n) = (plot a b g).map (·.withQueue h queue n))
    (direc aInc bInc curA : Int32) (s : Int32 × Int32 × Gfx) :
    plotStep plot direc aInc bInc curA (s.1, s.2.1, s.2.2.withQueue h queue n) =
      (plotStep plot direc aInc bInc curA s).map
        fun s => (s.1, s.2.1, s.2.2.withQueue h queue n) := by
  simp only [plotStep, hplot]
  cases plot curA s.1 s.2.2 <;> rfl

/-- The plotter does not look at the queue. -/
theorem incPlotter_withQueue {plot : Int32 → Int32 → Gfx → Except Fault Gfx}
    (hplot : ∀ a b g, plot a b (g.withQueue h queue n) = (plot a b g).map (·.withQueue h queue n))
    (a0 b0 a1 b1 : Int32) (g : Gfx) :
    incPlotter plot a0 b0 a1 b1 (g.withQueue h queue n) =
      (incPlotter plot a0 b0 a1 b1 g).map (·.withQueue h queue n) := by
  simp only [incPlotter, cFor]
  rw [forLE_map (f := fun s : Int32 × Int32 × Gfx => (s.1, s.2.1, s.2.2.withQueue h queue n))
    (s := (b0, _, g)) (plotStep_withQueue hplot _ _ _)]
  cases forLE Fault.diverges a0 a1 _ (b0, _, g) <;> rfl

/-- Drawing a line does not look at the queue. -/
theorem LineDraw_withQueue (x0 y0 x1 y1 hdc : Int32) (g : Gfx) :
    LineDraw x0 y0 x1 y1 hdc (g.withQueue h queue n) =
      (LineDraw x0 y0 x1 y1 hdc g).map (·.withQueue h queue n) := by
  have hx : ∀ a0 b0 a1 b1, XIncPlotter a0 b0 a1 b1 hdc (g.withQueue h queue n) =
      (XIncPlotter a0 b0 a1 b1 hdc g).map (·.withQueue h queue n) := fun a0 b0 a1 b1 =>
    incPlotter_withQueue (fun a b g => PixelSetterFunc_withQueue hdc a b g) a0 b0 a1 b1 g
  have hy : ∀ a0 b0 a1 b1, YIncPlotter a0 b0 a1 b1 hdc (g.withQueue h queue n) =
      (YIncPlotter a0 b0 a1 b1 hdc g).map (·.withQueue h queue n) := fun a0 b0 a1 b1 =>
    incPlotter_withQueue (fun a b g => PixelSetterFunc_withQueue hdc b a g) b0 a0 b1 a1 g
  simp only [LineDraw]
  split
  · split
    · exact hx _ _ _ _
    · exact hx _ _ _ _
  · split
    · exact hy _ _ _ _
    · exact hy _ _ _ _

theorem fillRows_withQueue (top left bottom right hdc : Int32) (g : Gfx) :
    fillRows top left bottom right hdc (g.withQueue h queue n) =
      (fillRows top left bottom right hdc g).map (·.withQueue h queue n) :=
  forLE_map (fun _ g => LineDraw_withQueue _ _ _ _ _ g) g

theorem MovePos_withQueue (x y : Int32) (g : Gfx) :
    MovePos (Int32.ofNat h) x y (g.withQueue h queue n) =
      (MovePos (Int32.ofNat h) x y g).map (·.withQueue h queue n) := by
  simp [MovePos, Gfx.withQueue, Gfx.setHdc, Except.map, bind, Except.bind, pure, Except.pure]

/-! ### Running the queue -/

variable {cmd : CommandBuffer} {d : Drawing}

/-- **A queued command does what the call does.** -/
theorem Decodes.call (hdec : Decodes cmd d.action (Int32.ofNat h :: d.values)) (g : Gfx) :
    d.action.call cmd.args (g.withQueue h queue n) =
      (g.call (d.immediate (Int32.ofNat h))).map (·.2.withQueue h queue n) := by
  have hpos : ¬ Int32.ofNat h < 0 := (show ∀ h : Fin 5, ¬ Int32.ofNat h < 0 by decide) h
  have h0 := hdec.args 0 _ rfl
  have hx : ((g.withQueue h queue n).hdcObjects h).x = (g.hdcObjects h).x := by
    simp [Gfx.withQueue, Gfx.setHdc]
  have hy : ((g.withQueue h queue n).hdcObjects h).y = (g.hdcObjects h).y := by
    simp [Gfx.withQueue, Gfx.setHdc]
  cases d with
  | pixel x y =>
      rw [show (Drawing.pixel x y).action.call cmd.args = PixelSetterFuncQueue cmd.args from rfl,
        PixelSetterFuncQueue_eq h0 (hdec.args 1 _ rfl) (hdec.args 2 _ rfl),
        PixelSetterFunc_withQueue]
      simp only [Drawing.immediate, Gfx.call, Gfx.sys_setpixel, if_neg hpos]
      cases PixelSetterFunc (Int32.ofNat h) _ _ g <;> rfl
  | line x y =>
      rw [show (Drawing.line x y).action.call cmd.args = LineDrawFunc cmd.args from rfl,
        LineDrawFunc_eq h0 (hdec.args 1 _ rfl) (hdec.args 2 _ rfl), hx, hy, LineDraw_withQueue]
      simp only [Drawing.immediate, Gfx.call, Gfx.sys_lineto, if_neg hpos, hdcAt_ofNat, bind,
        Except.bind]
      cases LineDraw (g.hdcObjects h).x (g.hdcObjects h).y _ _ (Int32.ofNat h) g with
      | error e => rfl
      | ok g' =>
          refine (MovePos_withQueue _ _ g').trans ?_
          simp only [Except.map]
          cases MovePos (Int32.ofNat h) (ValueCapper (atoi x) 319) (ValueCapper (atoi y) 199) g' <;>
            rfl
  | move x y =>
      rw [show (Drawing.move x y).action.call cmd.args = MovePosFunc cmd.args from rfl,
        MovePosFunc_eq h0 (hdec.args 1 _ rfl) (hdec.args 2 _ rfl), MovePos_withQueue]
      simp only [Drawing.immediate, Gfx.call, Gfx.sys_moveto, if_neg hpos]
      cases MovePos (Int32.ofNat h) _ _ g <;> rfl
  | rect x0 x1 y0 y1 =>
      rw [show (Drawing.rect x0 x1 y0 y1).action.call cmd.args = DrawRect cmd.args from rfl,
        DrawRect_eq h0 (hdec.args 1 _ rfl) (hdec.args 2 _ rfl) (hdec.args 3 _ rfl)
          (hdec.args 4 _ rfl), fillRows_withQueue]
      simp only [Drawing.immediate, Gfx.call, Gfx.sys_fillrect, if_neg hpos]
      cases fillRows _ _ _ _ (Int32.ofNat h) g <;> rfl

/-- **The loop of `endpaint`** runs the rest of the queue, from entry `i`, as the calls. -/
theorem execQueue_eq (ds : List Drawing) :
    ∀ (i fuel : ℕ) (g : Gfx), i + ds.length = n → n ≤ 50 → ds.length < fuel →
      (∀ (k : Fin 50) (d : Drawing), i ≤ k.1 → ds[k.1 - i]? = some d →
        Decodes (queue k) d.action (Int32.ofNat h :: d.values)) →
      Gfx.execQueue (Int32.ofNat h) fuel (Int32.ofNat i) (g.withQueue h queue n) =
        (g.calls (ds.map (·.immediate (Int32.ofNat h)))).map (·.withQueue h queue n) := by
  induction ds with
  | nil =>
      intro i fuel g hi hn hfuel hq
      obtain ⟨fuel, rfl⟩ := Nat.exists_eq_succ_of_ne_zero (Nat.ne_zero_of_lt hfuel)
      obtain rfl : i = n := hi
      have hend : ((g.withQueue h queue i).hdcObjects h).queueEnd = Int32.ofNat i := by
        simp [Gfx.withQueue, Gfx.setHdc]
      simp only [Gfx.execQueue, hdcAt_ofNat, bind, Except.bind, hend, if_neg (Int32.lt_irrefl)]
      rfl
  | cons d ds ih =>
      intro i fuel g hi hn hfuel hq
      obtain ⟨fuel, rfl⟩ := Nat.exists_eq_succ_of_ne_zero (Nat.ne_zero_of_lt hfuel)
      simp only [List.length_cons] at hi hfuel
      have hi50 : i < 50 := by omega
      have hlt : Int32.ofNat i < Int32.ofNat n :=
        (Int32.ofNat_lt_iff_lt (by omega) (by omega)).mpr (by omega)
      have hend : ((g.withQueue h queue n).hdcObjects h).queueEnd = Int32.ofNat n := by
        simp [Gfx.withQueue, Gfx.setHdc]
      have hcmd : ((g.withQueue h queue n).hdcObjects h).commandQueue = queue := by
        simp [Gfx.withQueue, Gfx.setHdc]
      have hdec := hq ⟨i, hi50⟩ d (le_refl i) (by simp)
      simp only [Gfx.execQueue, hdcAt_ofNat, bind, Except.bind, hend, if_pos hlt, hcmd,
        index_ofNat _ hi50 (by decide : 50 ≤ 2 ^ 31), hdec.action, hdec.call g]
      rw [List.map_cons, Gfx.calls, List.foldlM_cons]
      cases hg : g.call (d.immediate (Int32.ofNat h)) with
      | error e => rfl
      | ok r =>
          have hrest := ih (i + 1) fuel r.2 (by omega) hn (by omega) fun k e hk he =>
            hq k e (by omega) (by rw [show k.1 - i = k.1 - (i + 1) + 1 by omega]; simpa using he)
          rw [Int32.ofNat_add] at hrest
          exact hrest

/-- `endpaint` leaves the video memory its queue leaves. -/
theorem endpaint_pixMem (g : Gfx) (junk : Fin 50 → CommandBuffer) :
    (g.sys_endpaint (Int32.ofNat h) 1 junk).map (·.2.pixMem) =
      (Gfx.execQueue (Int32.ofNat h) 51 0 g).map Gfx.pixMem := by
  have hpos : ¬ Int32.ofNat h < 0 := (show ∀ h : Fin 5, ¬ Int32.ofNat h < 0 by decide) h
  simp only [Gfx.sys_endpaint, if_neg hpos, if_pos, hdcAt_ofNat, bind, Except.bind]
  cases Gfx.execQueue (Int32.ofNat h) 51 0 g with
  | error e => rfl
  | ok g' =>
      simp only
      split <;> rfl

/-- The cursor of `h` is where lines can start from. -/
def Gfx.Cursor (g : Gfx) (h : Fin 5) : Prop :=
  (g.hdcObjects h).x < Int32.maxValue ∧ (g.hdcObjects h).y < Int32.maxValue

theorem ValueCapper_lt_max (a : Int32) {cap : Int32} (h0 : 0 ≤ cap) (h : cap < Int32.maxValue) :
    ValueCapper a cap < Int32.maxValue :=
  Int32.lt_of_le_of_lt (ValueCapper_le h0) h

/-- A drawing ends, and leaves the cursor where lines can start from. -/
theorem Drawing.immediate_ok (d : Drawing) {g : Gfx} (hc : g.Cursor h) :
    ∃ g', (g.call (d.immediate (Int32.ofNat h))).map Prod.snd = .ok g' ∧ g'.Cursor h := by
  have hpos : ¬ Int32.ofNat h < 0 := (show ∀ h : Fin 5, ¬ Int32.ofNat h < 0 by decide) h
  have hx : ∀ a, ValueCapper a 319 < Int32.maxValue := fun a =>
    ValueCapper_lt_max a (by decide) (by decide)
  have hy : ∀ a, ValueCapper a 199 < Int32.maxValue := fun a =>
    ValueCapper_lt_max a (by decide) (by decide)
  have hmove : ∀ (g : Gfx) a b, ∃ g', MovePos (Int32.ofNat h) (ValueCapper a 319)
      (ValueCapper b 199) g = .ok g' ∧ g'.Cursor h := by
    intro g a b
    simp only [MovePos, hdcAt_ofNat]
    exact ⟨_, rfl, by simpa [Gfx.Cursor, Gfx.setHdc] using ⟨hx a, hy b⟩⟩
  cases d with
  | pixel x y =>
      obtain ⟨g', hg', hsame⟩ := PixelSetterFunc_ok (h := h) (g := g) (ValueCapper (atoi x) 319)
        (ValueCapper (atoi y) 199)
      refine ⟨g', ?_, by rw [Gfx.Cursor, hsame]; exact hc⟩
      simp only [Drawing.immediate, Gfx.call, Gfx.sys_setpixel, if_neg hpos, hg']
      rfl
  | line x y =>
      obtain ⟨g', hg', hsame⟩ := LineDraw_ok (h := h) (g := g) hc.1 hc.2 (hx (atoi x)) (hy (atoi y))
      obtain ⟨g'', hg'', hc'⟩ := hmove g' (atoi x) (atoi y)
      refine ⟨g'', ?_, hc'⟩
      simp only [Drawing.immediate, Gfx.call, Gfx.sys_lineto, if_neg hpos, hdcAt_ofNat, bind,
        Except.bind, hg', hg'']
      rfl
  | move x y =>
      obtain ⟨g', hg', hc'⟩ := hmove g (atoi x) (atoi y)
      refine ⟨g', ?_, hc'⟩
      simp only [Drawing.immediate, Gfx.call, Gfx.sys_moveto, if_neg hpos, hg']
      rfl
  | rect x0 x1 y0 y1 =>
      obtain ⟨g', hg', hsame⟩ := fillRows_ok (h := h) (g := g)
        (ValueCapper (Drawing.sort (atoi x0) (atoi x1) (atoi y0) (atoi y1)).bottom 199)
        (hy (Drawing.sort (atoi x0) (atoi x1) (atoi y0) (atoi y1)).top)
        (hx (Drawing.sort (atoi x0) (atoi x1) (atoi y0) (atoi y1)).left)
        (hx (Drawing.sort (atoi x0) (atoi x1) (atoi y0) (atoi y1)).right)
      refine ⟨g', ?_, by rw [Gfx.Cursor, hsame]; exact hc⟩
      simp only [Drawing.immediate, Gfx.call, Gfx.sys_fillrect, if_neg hpos, hg']
      rfl

/-- The calls return, one after the other. -/
theorem immediate_calls_ok (ds : List Drawing) :
    ∀ g : Gfx, g.Cursor h → ∃ g', g.calls (ds.map (·.immediate (Int32.ofNat h))) = .ok g' := by
  induction ds with
  | nil => exact fun g _ => ⟨g, rfl⟩
  | cons d ds ih =>
      intro g hc
      obtain ⟨g', hg', hc'⟩ := d.immediate_ok hc
      obtain ⟨g'', hg''⟩ := ih g' hc'
      refine ⟨g'', ?_⟩
      rw [List.map_cons, Gfx.calls, List.foldlM_cons, hg']
      exact hg''

/-- **Queued drawing is immediate drawing.**  From any state in which the queue of the handle is
empty, queueing up to 50 drawings and calling `endpaint` leaves the video memory that drawing
them at once leaves; and both do end, unless the starting cursor has a coordinate no call sets:
the greatest `int`, up to which a line never ends. -/
theorem queued_eq_immediate (g : Gfx) (h : Fin 5) (ds : List (Drawing × Junk))
    (junk : Fin 50 → CommandBuffer) (hempty : (g.hdcObjects h).queueEnd = 0)
    (hlen : ds.length ≤ 50)
    (hds : ∀ d ∈ ds, d.1.Typed ∧ d.2.commandItemTemp.buffset ≠ 1) :
    (g.calls (ds.map (fun d => d.1.queued (Int32.ofNat h) d.2) ++
        [.endpaint (Int32.ofNat h) 1 junk])).map Gfx.pixMem =
      (g.calls (ds.map fun d => d.1.immediate (Int32.ofNat h))).map Gfx.pixMem ∧
    (g.Cursor h →
      ∃ v, (g.calls (ds.map fun d => d.1.immediate (Int32.ofNat h))).map Gfx.pixMem = .ok v) := by
  have himm : ds.map (fun d => d.1.immediate (Int32.ofNat h)) =
      (ds.map Prod.fst).map (·.immediate (Int32.ofNat h)) := by
    rw [List.map_map]; rfl
  constructor
  · obtain ⟨queue, hq, -, hdec⟩ := queued_calls (h := h) ds g 0 hempty (by omega) hds
    have hdec' : ∀ (k : Fin 50) (d : Drawing), 0 ≤ k.1 → (ds.map Prod.fst)[k.1 - 0]? = some d →
        Decodes (queue k) d.action (Int32.ofNat h :: d.values) := by
      intro k d hk hd
      rw [List.getElem?_map] at hd
      obtain ⟨e, he, rfl⟩ := Option.map_eq_some_iff.mp hd
      exact hdec k e hk he
    have hexec := execQueue_eq (n := ds.length) (ds.map Prod.fst) 0 51 g (by simp) hlen
      (by simp; omega) hdec'
    rw [Nat.zero_add] at hq
    calc (g.calls (ds.map (fun d => d.1.queued (Int32.ofNat h) d.2) ++
            [.endpaint (Int32.ofNat h) 1 junk])).map Gfx.pixMem
        = ((g.withQueue h queue ds.length).sys_endpaint (Int32.ofNat h) 1 junk).map
            (·.2.pixMem) := by
          rw [Gfx.calls, List.foldlM_append, ← Gfx.calls, hq]
          show Except.map _ (Gfx.calls _ [_]) = _
          simp only [Gfx.calls, List.foldlM_cons, List.foldlM_nil, Gfx.call]
          cases (g.withQueue h queue ds.length).sys_endpaint (Int32.ofNat h) 1 junk <;> rfl
      _ = (Gfx.execQueue (Int32.ofNat h) 51 0 (g.withQueue h queue ds.length)).map Gfx.pixMem :=
          endpaint_pixMem _ _
      _ = (g.calls (ds.map fun d => d.1.immediate (Int32.ofNat h))).map Gfx.pixMem := by
          rw [himm, show (0 : Int32) = Int32.ofNat 0 from rfl, hexec]
          cases g.calls _ <;> rfl
  · intro hc
    obtain ⟨g', hg'⟩ := immediate_calls_ok (ds.map Prod.fst) g hc
    rw [himm, hg']
    exact ⟨_, rfl⟩

/-- A move, a line and a rectangle on handle 2, with numbers that are capped and a rectangle
whose corners are swapped. -/
def sketch : List (Drawing × Junk) :=
  [(.move [53] [55], ⟨.zero, fun _ _ => 7⟩),
    (.line [49, 50, 48] [57, 57, 57, 57], ⟨.zero, fun _ _ => 7⟩),
    (.rect [57] [51] [50] [52, 50], ⟨.zero, fun _ _ => 7⟩)]

theorem queued_eq_immediate_sketch :
    ((Gfx.boot fun _ => 0).calls (sketch.map (fun d => d.1.queued 2 d.2) ++
        [.endpaint 2 1 fun _ => .zero])).map Gfx.pixMem =
      ((Gfx.boot fun _ => 0).calls (sketch.map fun d => d.1.immediate 2)).map Gfx.pixMem :=
  (queued_eq_immediate (Gfx.boot fun _ => 0) 2 sketch (fun _ => .zero) rfl (by decide)
    (by simp [sketch, Drawing.Typed, isDigit, CommandBuffer.zero])).1

end

end Xv6
