import Xv6.Graphics.Pens

/-!
# Graphics — an `endpaint` that fails

`endpaint` runs the queue of its handle first, and looks at `init` afterwards; `writeQueue` looks
at neither.  So a queue that was filled while its handle was free is run by a call that returns
`-1`.

The actions change cursors, pens, the video memory and the palette, whatever their arguments are
(`action_sameQueues`).  As long as commands are queued on taken handles only, the queue of a
free one is empty (`Idle`), and a failing `endpaint` has nothing to run.
-/

namespace Xv6.Gfx

open Lib

variable {g g' g'' : Gfx}

/-! ### What the actions leave alone -/

theorem PixelSetterFunc_same {hdc x y : Int32} (h : PixelSetterFunc hdc x y g = .ok g') :
    g'.hdcObjects = g.hdcObjects := by
  obtain ⟨i, -, hg⟩ := bind_eq_ok.mp h
  cases hg
  rfl

/-- Plotting changes no handle. -/
theorem incPlotter_same {plot : Int32 → Int32 → Gfx → Except Fault Gfx} {a0 b0 a1 b1 : Int32}
    (hplot : ∀ a b g g', plot a b g = .ok g' → g'.hdcObjects = g.hdcObjects)
    (h : incPlotter plot a0 b0 a1 b1 g = .ok g') : g'.hdcObjects = g.hdcObjects := by
  obtain ⟨⟨b, D, g₁⟩, hfor, hg⟩ := bind_eq_ok.mp h
  cases hg
  refine forLE_inv (P := fun s : Int32 × Int32 × Gfx => s.2.2.hdcObjects = g.hdcObjects) hfor rfl ?_
  intro i s t hstep hs
  obtain ⟨g₂, hg₂, ht⟩ := bind_eq_ok.mp hstep
  cases ht
  exact (hplot _ _ _ _ hg₂).trans hs

/-- Drawing a line changes no handle. -/
theorem LineDraw_same {x0 y0 x1 y1 hdc : Int32} (h : LineDraw x0 y0 x1 y1 hdc g = .ok g') :
    g'.hdcObjects = g.hdcObjects := by
  have hplot : ∀ (a b : Int32) (g g' : Gfx), PixelSetterFunc hdc a b g = .ok g' →
      g'.hdcObjects = g.hdcObjects := fun _ _ _ _ h => PixelSetterFunc_same h
  unfold LineDraw at h
  dsimp only at h
  split_ifs at h
  · exact incPlotter_same hplot h
  · exact incPlotter_same hplot h
  · exact incPlotter_same (fun a b => hplot b a) h
  · exact incPlotter_same (fun a b => hplot b a) h

theorem fillRows_same {top left bottom right hdc : Int32}
    (h : fillRows top left bottom right hdc g = .ok g') : g'.hdcObjects = g.hdcObjects :=
  forLE_inv (P := fun g' : Gfx => g'.hdcObjects = g.hdcObjects) h rfl
    fun _ _ _ hline hs => (LineDraw_same hline).trans hs

/-- A handle whose queue stays. -/
theorem sameQueues_setHdc {h : Fin 5} {d : Hdc} (hq : d.commandQueue = (g.hdcObjects h).commandQueue)
    (hend : d.queueEnd = (g.hdcObjects h).queueEnd) (hinit : d.init = (g.hdcObjects h).init) :
    SameQueues g (g.setHdc h d) := by
  intro j
  by_cases hj : j = h
  · subst hj
    simpa [setHdc] using ⟨hq, hend, hinit⟩
  · simp [setHdc, hj]

theorem MovePos_sameQueues {hdc x y : Int32} (h : MovePos hdc x y g = .ok g') :
    SameQueues g g' := by
  obtain ⟨i, -, hg⟩ := bind_eq_ok.mp h
  cases hg
  exact sameQueues_setHdc rfl rfl rfl

/-- **The actions leave the queues alone**, and which handles are taken. -/
theorem action_sameQueues {a : Action} {args : Fin 20 → ArgVal} (h : a.call args g = .ok g') :
    SameQueues g g' := by
  cases a with
  | PixelSetterFuncQueue =>
      obtain ⟨hdc, h0, h⟩ := bind_eq_ok.mp h
      obtain ⟨x, h1, h⟩ := bind_eq_ok.mp h
      obtain ⟨y, h2, h⟩ := bind_eq_ok.mp h
      exact .of_eq (@PixelSetterFunc_same _ _ hdc x y h)
  | LineDrawFunc =>
      obtain ⟨hdc, h0, h'⟩ := bind_eq_ok.mp h
      obtain ⟨i, hi, h'⟩ := bind_eq_ok.mp h'
      obtain ⟨x, h1, h'⟩ := bind_eq_ok.mp h'
      obtain ⟨y, h2, -⟩ := bind_eq_ok.mp h'
      obtain rfl := hdcAt_eq_ok hi
      rw [Action.call, LineDrawFunc_eq h0 h1 h2] at h
      obtain ⟨g₁, hline, hmove⟩ := bind_eq_ok.mp h
      exact (SameQueues.of_eq (LineDraw_same hline)).trans (MovePos_sameQueues hmove)
  | MovePosFunc =>
      obtain ⟨hdc, h0, h⟩ := bind_eq_ok.mp h
      obtain ⟨x, h1, h⟩ := bind_eq_ok.mp h
      obtain ⟨y, h2, h⟩ := bind_eq_ok.mp h
      exact @MovePos_sameQueues _ _ hdc x y h
  | DeclarePenFunc =>
      obtain ⟨index, h1, h⟩ := bind_eq_ok.mp h
      obtain ⟨r, h2, h⟩ := bind_eq_ok.mp h
      obtain ⟨green, h3, h⟩ := bind_eq_ok.mp h
      obtain ⟨b, h4, h⟩ := bind_eq_ok.mp h
      cases h
      exact .of_eq rfl
  | GetPenFunc =>
      obtain ⟨hdc, h0, h⟩ := bind_eq_ok.mp h
      obtain ⟨index, h1, h⟩ := bind_eq_ok.mp h
      obtain ⟨i, hi, h⟩ := bind_eq_ok.mp h
      cases h
      exact sameQueues_setHdc rfl rfl rfl
  | DrawRect =>
      obtain ⟨hdc, h0, h⟩ := bind_eq_ok.mp h
      obtain ⟨top, h1, h⟩ := bind_eq_ok.mp h
      obtain ⟨left, h2, h⟩ := bind_eq_ok.mp h
      obtain ⟨bottom, h3, h⟩ := bind_eq_ok.mp h
      obtain ⟨right, h4, h⟩ := bind_eq_ok.mp h
      exact .of_eq (fillRows_same h)

/-- Running a queue changes no queue. -/
theorem execQueue_sameQueues {hdc : Int32} (fuel : ℕ) :
    ∀ (i : Int32) (g : Gfx), execQueue hdc fuel i g = .ok g' → SameQueues g g' := by
  induction fuel with
  | zero => intro i g h; cases h
  | succ fuel ih =>
      intro i g h
      obtain ⟨k, -, h⟩ := bind_eq_ok.mp h
      split at h
      · obtain ⟨j, -, h⟩ := bind_eq_ok.mp h
        split at h
        · cases h
        · obtain ⟨g₁, hact, h⟩ := bind_eq_ok.mp h
          exact (action_sameQueues hact).trans (ih _ _ h)
      · cases h
        exact .refl _

/-! ### Free handles -/

/-- The queue of a free handle is empty. -/
def Idle (g : Gfx) : Prop := ∀ h, (g.hdcObjects h).init ≠ 1 → (g.hdcObjects h).queueEnd = 0

/-- A command that the call queues is queued on a taken handle. -/
def OnTaken (g : Gfx) : Syscall → Prop
  | .call (.writeQueue hdc opType _ _) =>
      queues opType → ∀ h, hdcAt hdc = .ok h → (g.hdcObjects h).init = 1
  | _ => True

/-- A system call that queues on taken handles only, and what it returned. -/
def TakenSteps (g : Gfx) (e : Syscall × Int32) (g' : Gfx) : Prop :=
  g.OnTaken e.1 ∧ g.syscall e.1 = .ok (e.2, g')

theorem boot_idle (pixMem : UInt16 → UInt8) : (boot pixMem).Idle := fun _ _ => rfl

theorem Idle.same (hg : g.Idle) (hs : SameQueues g g') : g'.Idle := by
  intro h hinit
  obtain ⟨-, hend, hi⟩ := hs h
  rw [hend]
  exact hg h (hi ▸ hinit)

/-- A handle that is taken, or has no commands, keeps this. -/
theorem Idle.setHdc {h : Fin 5} {d : Hdc} (hg : g.Idle) (hd : d.init = 1 ∨ d.queueEnd = 0) :
    (g.setHdc h d).Idle := by
  intro j hj
  by_cases hjh : j = h
  · subst hjh
    simp only [Gfx.setHdc, Function.update_self] at hj ⊢
    exact hd.resolve_left hj
  · simp only [Gfx.setHdc, Function.update_of_ne hjh] at hj ⊢
    exact hg j hj

/-- What a drawing call does, unless it refuses its handle. -/
theorem Idle.refuses {hdc r : Int32} {x : Except Fault (Int32 × Gfx)} (hg : g.Idle)
    (h : (if hdc < 0 then .ok (-1, g) else x) = .ok (r, g'))
    (hx : x = .ok (r, g') → SameQueues g g') : g'.Idle := by
  split at h
  · cases h
    exact hg
  · exact hg.same (hx h)

/-- What `endpaint` can change: the handle is released, or it was not taken. -/
theorem endpaint_cases {hdc executeQueue r : Int32} {queue : Fin 50 → CommandBuffer}
    (h : g.sys_endpaint hdc executeQueue queue = .ok (r, g')) :
    (hdc < 0 ∧ r = -1 ∧ g' = g) ∨ ∃ (i : Fin 5) (g₁ : Gfx), hdcAt hdc = .ok i ∧
      (if executeQueue = 1 then execQueue hdc 51 0 g else .ok g) = .ok g₁ ∧
      ((g₁.hdcObjects i).init = 1 ∧ r = 0 ∧ g' = g₁.setHdc i ⟨0, 0, 0, 15, queue, 0⟩ ∨
        (g₁.hdcObjects i).init ≠ 1 ∧ r = -1 ∧ g' = g₁) := by
  by_cases hneg : hdc < 0
  · rw [sys_endpaint, if_pos hneg] at h
    cases h
    exact .inl ⟨hneg, rfl, rfl⟩
  · cases hi : hdcAt hdc with
    | error e =>
        rw [sys_endpaint, if_neg hneg, hi] at h
        split at h
        · obtain ⟨g₁, -, h⟩ := bind_eq_ok.mp h
          cases h
        · cases h
    | ok i =>
        obtain rfl := hdcAt_eq_ok hi
        rw [endpaint_eq] at h
        cases hrun : (if executeQueue = 1 then execQueue (Int32.ofNat i) 51 0 g else .ok g) with
        | error e => rw [hrun] at h; cases h
        | ok g₁ =>
            rw [hrun, Except.map] at h
            refine .inr ⟨i, g₁, rfl, rfl, ?_⟩
            split at h
            · cases h
              exact .inl ⟨‹_›, rfl, rfl⟩
            · cases h
              exact .inr ⟨‹_›, rfl, rfl⟩

theorem ran_sameQueues {hdc executeQueue : Int32} {g₁ : Gfx}
    (h : (if executeQueue = 1 then execQueue hdc 51 0 g else .ok g) = .ok g₁) :
    SameQueues g g₁ := by
  split at h
  · exact execQueue_sameQueues _ _ _ h
  · cases h
    exact .refl g

/-- Queueing stores one command at the end of one queue. -/
theorem appendCommand_ok {a : Action} {args : List CStr} {junk : Junk} {hdc : Int32}
    (h : appendCommand a args junk hdc g = .ok g') : ∃ (i : Fin 5) (k : Fin 50)
      (cmd : CommandBuffer), hdcAt hdc = .ok i ∧ g' = g.setHdc i { g.hdcObjects i with
        commandQueue := Function.update (g.hdcObjects i).commandQueue k cmd
        queueEnd := (g.hdcObjects i).queueEnd + 1 } := by
  obtain ⟨cmd, -, h⟩ := bind_eq_ok.mp h
  obtain ⟨i, hi, h⟩ := bind_eq_ok.mp h
  obtain ⟨k, -, h⟩ := bind_eq_ok.mp h
  cases h
  exact ⟨i, k, _, hi, rfl⟩

/-- **A call keeps the free handles idle**, if it queues on a taken one. -/
theorem Idle.call {c : Call} {r : Int32} (hg : g.Idle) (ht : g.OnTaken (.call c))
    (hcall : g.call c = .ok (r, g')) : g'.Idle := by
  -- Only `beginpaint`, `endpaint` and `writeQueue` touch a queue.
  cases c with
  | setpixel hdc x y =>
      refine hg.refuses hcall fun h => ?_
      obtain ⟨g₁, h₁, h⟩ := bind_eq_ok.mp h
      cases h
      exact .of_eq (PixelSetterFunc_same h₁)
  | moveto hdc x y =>
      refine hg.refuses hcall fun h => ?_
      obtain ⟨g₁, h₁, h⟩ := bind_eq_ok.mp h
      cases h
      exact MovePos_sameQueues h₁
  | lineto hdc nx ny =>
      refine hg.refuses hcall fun h => ?_
      obtain ⟨i, -, h⟩ := bind_eq_ok.mp h
      obtain ⟨g₁, h₁, h⟩ := bind_eq_ok.mp h
      obtain ⟨g₂, h₂, h⟩ := bind_eq_ok.mp h
      cases h
      exact (SameQueues.of_eq (LineDraw_same h₁)).trans (MovePos_sameQueues h₂)
  | selectpen hdc index =>
      refine hg.refuses hcall fun h => ?_
      split at h
      · cases h
        exact .refl g
      · obtain ⟨i, -, h⟩ := bind_eq_ok.mp h
        cases h
        exact sameQueues_setHdc rfl rfl rfl
  | fillrect hdc rect =>
      refine hg.refuses hcall fun h => ?_
      obtain ⟨g₁, h₁, h⟩ := bind_eq_ok.mp h
      cases h
      exact .of_eq (fillRows_same h₁)
  | beginpaint queue =>
      simp only [Gfx.call, sys_beginpaint] at hcall
      split at hcall
      · cases hcall
        exact hg.setHdc (.inl rfl)
      · cases hcall
        exact hg
  | endpaint hdc executeQueue queue =>
      obtain ⟨-, -, rfl⟩ | ⟨i, g₁, -, hrun, hend⟩ := endpaint_cases hcall
      · exact hg
      · have hg₁ := hg.same (ran_sameQueues hrun)
        obtain ⟨-, -, rfl⟩ | ⟨-, -, rfl⟩ := hend
        · exact hg₁.setHdc (.inr rfl)
        · exact hg₁
  | getHDC hdc =>
      simp only [Gfx.call, sys_getHDC] at hcall
      split at hcall
      · cases hcall
        exact hg
      · obtain ⟨i, -, h⟩ := bind_eq_ok.mp hcall
        split at h <;> cases h <;> exact hg
  | writeQueue hdc opType set junk =>
      by_cases hop : queues opType
      · obtain ⟨a, args, vs, happ⟩ := exists_appends hop set
        rw [Gfx.call, happ.call] at hcall
        cases hstore : appendCommand a args junk hdc g with
        | error e => rw [hstore] at hcall; cases hcall
        | ok g₁ =>
            rw [hstore] at hcall
            cases hcall
            obtain ⟨i, k, cmd, hi, rfl⟩ := appendCommand_ok hstore
            exact hg.setHdc (.inl (ht hop i hi))
      · rw [Gfx.call, writeQueue_other hop] at hcall
        cases hcall
        exact hg

theorem Idle.step {e : Syscall × Int32} (hg : g.Idle) (hstep : TakenSteps g e g') : g'.Idle := by
  obtain ⟨c, r⟩ := e
  obtain ⟨ht, hcall⟩ := hstep
  cases c with
  | call c => exact hg.call ht hcall
  | setpencolour index red green b => exact hg.same (.of_eq (setpencolour_same hcall))

theorem run_idle {pixMem : UInt16 → UInt8} {es : List (Syscall × Int32)}
    (hrun : Run TakenSteps (boot pixMem) es g) : g.Idle :=
  hrun.inv (fun _ _ _ hstep hg => hg.step hstep) (boot_idle pixMem)

/-! ### The failing call -/

theorem execQueue_empty {hdc : Int32} {i : Fin 5} (fuel : ℕ) (hi : hdcAt hdc = .ok i)
    (hend : (g.hdcObjects i).queueEnd = 0) : execQueue hdc (fuel + 1) 0 g = .ok g := by
  rw [execQueue, hi]
  simp only [bind, Except.bind, hend]
  rfl

/-- An `endpaint` that fails changes nothing, while the handle that is not taken has no commands. -/
theorem Idle.endpaint_failed {hdc executeQueue : Int32} {queue : Fin 50 → CommandBuffer}
    (hg : g.Idle) (h : g.sys_endpaint hdc executeQueue queue = .ok (-1, g')) : g' = g := by
  obtain ⟨-, -, rfl⟩ | ⟨i, g₁, hi, hrun, ⟨-, hr, -⟩ | ⟨hinit, -, rfl⟩⟩ := endpaint_cases h
  · rfl
  · exact absurd hr (by decide)
  · have hfree : (g.hdcObjects i).init ≠ 1 := (ran_sameQueues hrun i).2.2 ▸ hinit
    split at hrun
    · rw [execQueue_empty 50 hi (hg i hfree)] at hrun
      cases hrun
      rfl
    · cases hrun
      rfl

/-- **A failed `endpaint` paints nothing**, after any run that queued commands on taken handles
only: video memory, palette and slots are as before. -/
theorem failed_endpaint_paints_nothing (pixMem : UInt16 → UInt8) (es : List (Syscall × Int32))
    (g : Gfx) (hrun : Run TakenSteps (boot pixMem) es g) (hdc executeQueue : Int32)
    (queue : Fin 50 → CommandBuffer) (g' : Gfx)
    (h : g.sys_endpaint hdc executeQueue queue = .ok (-1, g')) : g' = g :=
  (run_idle hrun).endpaint_failed h

/-- A session on handle 0 that moves the cursor. -/
def moving : List (Syscall × Int32) :=
  [(.call (.beginpaint fun _ => .zero), 0),
    (.call (.writeQueue 0 2 ⟨[49], [49], [], []⟩ ⟨.zero, fun _ _ => 0⟩), 1),
    (.call (.endpaint 0 1 fun _ => .zero), 0)]

/-- The handle is ended a second time. -/
theorem failed_endpaint_paints_nothing_moving : ∃ g g', Run TakenSteps (boot fun _ => 0) moving g ∧
    g.sys_endpaint 0 1 (fun _ => .zero) = .ok (-1, g') ∧ g' = g := by
  obtain ⟨g, hrun, hcall⟩ : ∃ g, Run TakenSteps (boot fun _ => 0) moving g ∧
      ∃ g', g.sys_endpaint 0 1 (fun _ => .zero) = .ok (-1, g') := by
    refine ⟨_, .cons ⟨trivial, rfl⟩ (.cons ⟨fun _ h hh => ?_, rfl⟩
      (.cons ⟨trivial, rfl⟩ (.nil _))), _, rfl⟩
    cases hh
    rfl
  obtain ⟨g', hcall⟩ := hcall
  exact ⟨g, g', hrun, hcall, failed_endpaint_paints_nothing _ _ g hrun 0 1 _ g' hcall⟩

/-- **A failed `endpaint` moves the cursor** of handle 0, which nobody has taken. -/
theorem failed_endpaint_moves :
    ¬ ∀ (pixMem : UInt16 → UInt8) (es : List (Syscall × Int32)) (g : Gfx),
      Run (fun g e g' => g.syscall e.1 = .ok (e.2, g')) (boot pixMem) es g →
      ∀ (hdc executeQueue : Int32) (queue : Fin 50 → CommandBuffer) (g' : Gfx),
        g.sys_endpaint hdc executeQueue queue = .ok (-1, g') → g' = g := by
  intro hall
  obtain ⟨g, g', hrun, hcall, hx, hx'⟩ : ∃ g g', Run (fun g e g' => g.syscall e.1 = .ok (e.2, g'))
      (boot fun _ => 0)
      [(.call (.writeQueue 0 2 ⟨[49], [49], [], []⟩ ⟨.zero, fun _ _ => 0⟩), 1)] g ∧
      g.sys_endpaint 0 1 (fun _ => .zero) = .ok (-1, g') ∧
      (g.hdcObjects 0).x = 0 ∧ (g'.hdcObjects 0).x = 1 :=
    ⟨_, _, .cons rfl (.nil _), rfl, rfl, rfl⟩
  rw [hall _ _ g hrun 0 1 _ g' hcall, hx] at hx'
  exact absurd hx' (by decide)

end Xv6.Gfx
