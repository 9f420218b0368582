import Xv6.Graphics.Sessions

/-!
# Graphics — every store is on the screen

`Gfx.stores` lists the points a call passes to `PixelSetterFunc`, with the byte it stores there:
one for a pixel, those of Bresenham's algorithm for a line, row by row for a rectangle, and for
`endpaint` those of each queued action in the state it runs in.

* `call_stores` — a call changes the video memory by these stores and no others, and each is at a
  point of the screen.
* `Ready.confined` — there the 16-bit offset of the store is the point's.
-/

namespace Xv6

open Lib

/-! ### What a call stores -/

/-- What a queued action stores. -/
def Action.stores (a : Action) (cmdArgs : Fin 20 → ArgVal) (g : Gfx) :
    Except Fault (List Store) :=
  match a with
  | .PixelSetterFuncQueue => do
      let hdc ← readArg cmdArgs 0
      let x ← readArg cmdArgs 1
      let y ← readArg cmdArgs 2
      let i ← hdcAt hdc
      return [⟨x, y, g.pen i⟩]
  | .LineDrawFunc => do
      let hdc ← readArg cmdArgs 0
      let i ← hdcAt hdc
      let x1 ← readArg cmdArgs 1
      let y1 ← readArg cmdArgs 2
      return stroke (g.pen i) (linePoints (g.hdcObjects i).x (g.hdcObjects i).y x1 y1)
  | .DrawRect => do
      let hdc ← readArg cmdArgs 0
      let top ← readArg cmdArgs 1
      let left ← readArg cmdArgs 2
      let bottom ← readArg cmdArgs 3
      let right ← readArg cmdArgs 4
      let i ← hdcAt hdc
      return stroke (g.pen i) (rectPoints top left bottom right)
  | .MovePosFunc | .DeclarePenFunc | .GetPenFunc => return []

namespace Gfx

/-- What the loop of `endpaint` stores, from entry `i`. -/
def execStores (hdc : Int32) : ℕ → Int32 → Gfx → Except Fault (List Store)
  | 0, i, _ => .error (.queueIndex i)
  | fuel + 1, i, g => do
      let h ← hdcAt hdc
      if i < (g.hdcObjects h).queueEnd then
        let k ← index 50 .queueIndex i
        match ((g.hdcObjects h).commandQueue k).queuedAction with
        | none => .error .noAction
        | some a =>
            let ss ← a.stores ((g.hdcObjects h).commandQueue k).args g
            let g ← a.call ((g.hdcObjects h).commandQueue k).args g
            let rest ← execStores hdc fuel (i + 1) g
            return ss ++ rest
      else return []

/-- What a call stores. -/
def stores (g : Gfx) : Call → Except Fault (List Store)
  | .setpixel hdc x y =>
      if hdc < 0 then .ok []
      else do
        let i ← hdcAt hdc
        return [⟨ValueCapper x 319, ValueCapper y 199, g.pen i⟩]
  | .lineto hdc nx ny =>
      if hdc < 0 then .ok []
      else do
        let i ← hdcAt hdc
        return stroke (g.pen i) (linePoints (g.hdcObjects i).x (g.hdcObjects i).y
          (ValueCapper nx 319) (ValueCapper ny 199))
  | .fillrect hdc r =>
      if hdc < 0 then .ok []
      else do
        let i ← hdcAt hdc
        return stroke (g.pen i) (rectPoints (ValueCapper r.top 199) (ValueCapper r.left 319)
          (ValueCapper r.bottom 199) (ValueCapper r.right 319))
  | .endpaint hdc executeQueue _ =>
      if hdc < 0 then .ok []
      else if executeQueue = 1 then execStores hdc 51 0 g else .ok []
  | .moveto .. | .selectpen .. | .beginpaint _ | .getHDC _ | .writeQueue .. => .ok []

/-! ### On the screen -/

/-- The stores `ss` lead from the video memory of `g` to that of `g'`, and are on the screen. -/
structure Painted (g : Gfx) (ss : List Store) (g' : Gfx) : Prop where
  pixMem : g'.pixMem = ss.foldl Store.write g.pixMem
  inScreen : ∀ s ∈ ss, InScreen s.x s.y

variable {g g' g'' : Gfx} {Q : Fin 5 → List Command} {c : Call} {h : Fin 5} {r : Int32}

theorem Painted.none (hsame : g'.pixMem = g.pixMem) : g.Painted [] g' :=
  ⟨hsame, fun s hs => by cases hs⟩

theorem Painted.append {ss ts : List Store} (h₁ : g.Painted ss g') (h₂ : g'.Painted ts g'') :
    g.Painted (ss ++ ts) g'' where
  pixMem := by rw [h₂.pixMem, h₁.pixMem, List.foldl_append]
  inScreen := fun s hs => (List.mem_append.mp hs).elim (h₁.inScreen s) (h₂.inScreen s)

theorem Performs.painted {cmd : Command} (hp : g.Performs h cmd g') (hcap : cmd.Capped)
    (hc : g.OnScreen h) : g.Painted (cmd.stores h g) g' :=
  ⟨hp.pixMem, fun _ hs => Command.mem_stores hcap hc hs⟩

/-- What is stored in the queue is drawn. -/
theorem stores_stored {cmd : Command} {entry : CommandBuffer} (hst : cmd.StoredIn h entry)
    (g : Gfx) : cmd.action.stores entry.args g = .ok (cmd.stores h g) := by
  have h0 := hst.args 0 _ rfl
  cases cmd with
  | pixel x y | line x y =>
      simp only [Command.action, Action.stores, h0, hst.args 1 _ rfl, hst.args 2 _ rfl, bind,
        Except.bind, hdcAt_ofNat]
      rfl
  | rect top left bottom right =>
      simp only [Command.action, Action.stores, h0, hst.args 1 _ rfl, hst.args 2 _ rfl,
        hst.args 3 _ rfl, hst.args 4 _ rfl, bind, Except.bind, hdcAt_ofNat]
      rfl
  | move x y => rfl
  | declarePen index r green b => rfl
  | getPen index => rfl

/-- The loop of `endpaint`, from entry `i`. -/
theorem execStores_painted {cs : List Command} (fuel : ℕ) :
    ∀ (i : ℕ) (g : Gfx), i ≤ cs.length → cs.length - i < fuel →
      (g.hdcObjects h).Holds h cs → g.OnScreen h → ∃ ss g',
      execStores (Int32.ofNat h) fuel (Int32.ofNat i) g = .ok ss ∧
      Command.performAll h (cs.drop i) g = .ok g' ∧ g.Painted ss g' := by
  induction fuel with
  | zero => exact fun i g _ hf => absurd hf (Nat.not_lt_zero _)
  | succ fuel ih =>
      intro i g hi hf hd hc
      have hfits := hd.fits
      rcases Nat.eq_or_lt_of_le hi with rfl | hlt
      · refine ⟨[], g, ?_, by rw [List.drop_length]; rfl, .none rfl⟩
        simp only [execStores, hdcAt_ofNat, bind, Except.bind, hd.last, if_neg Int32.lt_irrefl]
        rfl
      · have hi50 : i < 50 := by omega
        have hlt' : Int32.ofNat i < Int32.ofNat cs.length :=
          (Int32.ofNat_lt_iff_lt (by omega) (by omega)).mpr hlt
        have hst := hd.entry ⟨i, hi50⟩ cs[i] (List.getElem?_eq_getElem hlt)
        have hcap := hd.capped _ (List.getElem_mem hlt)
        obtain ⟨g₁, hg₁, hp⟩ := Command.perform_ok hcap hc
        obtain ⟨ss, g₂, hss, hg₂, hpaint⟩ := ih (i + 1) g₁ hlt (by omega) (hd.keeps hp.keeps)
          hp.keeps.cursor
        rw [Int32.ofNat_add] at hss
        refine ⟨_, g₂, ?_, ?_, (hp.painted hcap hc).append hpaint⟩
        · simp only [execStores, hdcAt_ofNat, bind, Except.bind, hd.last, if_pos hlt',
            index_ofNat _ hi50 (by decide : 50 ≤ 2 ^ 31), hst.action, stores_stored hst, hst.call,
            hg₁]
          rw [show (1 : Int32) = Int32.ofNat 1 from rfl, hss]
          rfl
        · rw [List.drop_eq_getElem_cons hlt, Command.performAll_cons, hg₁]
          exact hg₂

theorem appendCommand_pixMem {a : Action} {args : List CStr} {junk : Junk} {hdc : Int32}
    (hg : appendCommand a args junk hdc g = .ok g') : g'.pixMem = g.pixMem := by
  obtain ⟨cmd, -, hg⟩ := bind_eq_ok.mp hg
  obtain ⟨i, -, hg⟩ := bind_eq_ok.mp hg
  obtain ⟨k, -, hg⟩ := bind_eq_ok.mp hg
  cases hg
  rfl

/-- Queueing draws nothing. -/
theorem writeQueue_pixMem {hdc opType : Int32} {set : ArgsSet} {junk : Junk}
    (hg : g.sys_writeQueue hdc opType set junk = .ok (r, g')) : g'.pixMem = g.pixMem := by
  cases hop : Command.ofOp opType set with
  | none =>
      rw [writeQueue_other (fun hq => queues_of_ofOp hq hop)] at hg
      cases hg
      rfl
  | some cmd =>
      obtain ⟨args, -, hcall⟩ := writeQueue_eq hop
      rw [hcall] at hg
      cases happ : appendCommand cmd.action args junk hdc g with
      | error e => rw [happ] at hg; cases hg
      | ok g₁ =>
          rw [happ] at hg
          cases hg
          exact appendCommand_pixMem happ

/-- A drawing call stores what its command stores. -/
theorem stores_of_perform (cmd : Command) (hg : g.Ready Q) (hcap : cmd.Capped)
    (hcall : g.call c = (cmd.perform h g).map fun g => (0, g))
    (hstores : g.stores c = .ok (cmd.stores h g)) (hr : g.call c = .ok (r, g')) :
    ∃ ss, g.stores c = .ok ss ∧ g.Painted ss g' := by
  obtain ⟨g₁, hg₁, hp⟩ := Command.perform_ok hcap (hg.cursor h)
  rw [hcall, hg₁] at hr
  cases hr
  exact ⟨_, hstores, hp.painted hcap (hg.cursor h)⟩

/-- **What a call stores is on the screen.** -/
theorem call_stores (hg : g.Ready Q) (hp : c.Proper) (hr : g.call c = .ok (r, g')) :
    ∃ ss, g.stores c = .ok ss ∧ g.Painted ss g' := by
  -- One case per call; `endpaint` draws what its queue says.
  cases c with
  | setpixel hdc x y =>
      obtain ⟨h, rfl⟩ := hdcAt_of_valid (hp.1 hdc rfl)
      refine stores_of_perform (h := h) (.pixel _ _) hg (.capped x y) ?_ ?_ hr
      · simp only [Gfx.call, sys_setpixel, if_neg (not_neg h)]
        exact bind_return 0
      · simp only [stores, if_neg (not_neg h), hdcAt_ofNat]
        rfl
  | moveto hdc x y =>
      obtain ⟨h, rfl⟩ := hdcAt_of_valid (hp.1 hdc rfl)
      refine stores_of_perform (h := h) (.move _ _) hg (.capped x y) ?_ rfl hr
      simp only [Gfx.call, sys_moveto, if_neg (not_neg h)]
      exact bind_return 0
  | lineto hdc nx ny =>
      obtain ⟨h, rfl⟩ := hdcAt_of_valid (hp.1 hdc rfl)
      refine stores_of_perform (h := h) (.line _ _) hg (.capped nx ny)
        (lineto_eq nx ny g) ?_ hr
      simp only [stores, if_neg (not_neg h), hdcAt_ofNat]
      rfl
  | fillrect hdc rect =>
      obtain ⟨h, rfl⟩ := hdcAt_of_valid (hp.1 hdc rfl)
      refine stores_of_perform (h := h) (.rect _ _ _ _) hg
        ⟨.capped rect.left rect.bottom, .capped rect.right rect.top⟩ ?_ ?_ hr
      · simp only [Gfx.call, sys_fillrect, if_neg (not_neg h)]
        exact bind_return 0
      · simp only [stores, if_neg (not_neg h), hdcAt_ofNat]
        rfl
  | selectpen hdc index =>
      refine ⟨[], rfl, .none ?_⟩
      simp only [Gfx.call, sys_selectpen] at hr
      split at hr
      · cases hr; rfl
      · split at hr
        · cases hr; rfl
        · obtain ⟨i, -, hr⟩ := bind_eq_ok.mp hr
          cases hr
          rfl
  | beginpaint queue =>
      refine ⟨[], rfl, .none ?_⟩
      simp only [Gfx.call, sys_beginpaint] at hr
      split at hr <;> cases hr <;> rfl
  | endpaint hdc executeQueue queue =>
      obtain ⟨h, rfl⟩ := hdcAt_of_valid (hp.1 hdc rfl)
      obtain ⟨g₁, hran, -, hend⟩ := endpaint_effect (h := h) hg executeQueue queue
      have hpix : g'.pixMem = g₁.pixMem := by
        rw [show g.call _ = g.sys_endpaint _ _ _ from rfl, hend] at hr
        split at hr <;> cases hr <;> rfl
      have hd := hg.queue h
      have hfits := hd.fits
      simp only [stores, if_neg (not_neg h)]
      rw [ran] at hran
      by_cases hexec : executeQueue = 1
      · rw [if_pos hexec] at hran ⊢
        obtain ⟨ss, g₂, hss, hg₂, hpaint⟩ := execStores_painted 51 0 g (Nat.zero_le _)
          (by omega) hd (hg.cursor h)
        rw [List.drop_zero, hran] at hg₂
        cases hg₂
        exact ⟨ss, hss, hpix.trans hpaint.pixMem, hpaint.inScreen⟩
      · rw [if_neg hexec] at hran ⊢
        cases hran
        exact ⟨[], rfl, .none hpix⟩
  | getHDC hdc =>
      refine ⟨[], rfl, .none ?_⟩
      simp only [Gfx.call, sys_getHDC] at hr
      split at hr
      · cases hr; rfl
      · obtain ⟨i, -, hr⟩ := bind_eq_ok.mp hr
        split at hr <;> cases hr <;> rfl
  | writeQueue hdc opType set junk => exact ⟨[], rfl, .none (writeQueue_pixMem hr)⟩

/-- **Confinement.**  The stores of a call are at points of the screen, where the 16-bit offset is
`320 * y + x`, below 64000. -/
theorem Ready.confined (hg : g.Ready Q) (hp : c.Proper) (hr : g.call c = .ok (r, g')) :
    ∃ ss, g.stores c = .ok ss ∧ g'.pixMem = ss.foldl Store.write g.pixMem ∧
      ∀ s ∈ ss, ((0 ≤ s.x ∧ s.x ≤ 319) ∧ 0 ≤ s.y ∧ s.y ≤ 199) ∧
        ((offset s.x s.y).toNat : ℤ) = 320 * s.y.toInt + s.x.toInt ∧
        (offset s.x s.y).toNat < 64000 := by
  obtain ⟨ss, hss, hpaint⟩ := call_stores hg hp hr
  exact ⟨ss, hss, hpaint.pixMem, fun s hs =>
    ⟨hpaint.inScreen s hs, offset_inScreen (hpaint.inScreen s hs)⟩⟩

end Gfx

end Xv6
