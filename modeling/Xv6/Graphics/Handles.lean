import Xv6.Lib.Partial
import Xv6.Lib.Runs
import Xv6.Graphics.Queued

/-!
# Graphics — handles and the capacity of the command queue

The calls index `hdcObjects` and `commandQueue` after partial checks of their own: most refuse a
negative handle only, `getHDC` lets `5` through, `writeQueue` checks nothing, and no `Append`
function looks at the end of the queue.  `Call.Checked` says which handles a call's own check
deals with, and `Sound` adds what `writeQueue` needs: room in the queue.

* `call_sound` — a sound call in a good state returns, and leaves a good state.
* `handles_valid_of_sound` — in runs of sound calls every access is within bounds, and a handle
  outside `0..4` is refused; of the calls that name one, exactly the checked ones refuse it.
* `queue_bounded_of_sound` — in runs of sound calls the queues stay within their 50 entries; the
  next command for a full queue has no entry.
-/

namespace Xv6

/-- The numbers an action reads after the handle. -/
def Action.arity : Action → ℕ
  | .PixelSetterFuncQueue | .LineDrawFunc | .MovePosFunc => 2
  | .DeclarePenFunc | .DrawRect => 4
  | .GetPenFunc => 1

end Xv6

namespace Xv6.Gfx

open Lib

/-! ### Calls -/

/-- The calls that return. -/
def Steps (g : Gfx) (c : Call) (g' : Gfx) : Prop := ∃ r, g.call c = .ok (r, g')

/-- The handle a call names. -/
def Call.handle : Call → Option Int32
  | .setpixel hdc _ _ | .moveto hdc _ _ | .lineto hdc _ _ | .selectpen hdc _ | .fillrect hdc _
  | .endpaint hdc _ _ | .getHDC hdc | .writeQueue hdc _ _ _ => some hdc
  | .beginpaint _ => none

/-- A handle of `hdcObjects`. -/
def Valid (i : Int32) : Prop := 0 ≤ i ∧ i < 5

instance (i : Int32) : Decidable (Valid i) := by unfold Valid; infer_instance

/-- The call's own checks let no invalid handle through. -/
def Call.Checked : Call → Prop
  | .setpixel hdc _ _ | .moveto hdc _ _ | .lineto hdc _ _ | .fillrect hdc _
  | .endpaint hdc _ _ => hdc < 5
  | .selectpen hdc index => hdc < 5 ∨ index > 255
  | .getHDC hdc => hdc ≠ 5
  | .writeQueue hdc _ _ _ => Valid hdc
  | .beginpaint _ => True

/-- The operations `writeQueue` queues. -/
def queues (opType : Int32) : Prop := 0 ≤ opType ∧ opType ≤ 5

instance (opType : Int32) : Decidable (queues opType) := by unfold queues; infer_instance

/-- The queue of handle `hdc` has an entry left. -/
def HasRoom (g : Gfx) (hdc : Int32) : Prop := ∀ h, hdcAt hdc = .ok h → (g.hdcObjects h).queueEnd ≠ 50

/-- A checked call; one that queues a command does so with room for it, and into a temporary
that does not look filled already. -/
def Sound (g : Gfx) (c : Call) : Prop :=
  c.Checked ∧ match c with
    | .writeQueue hdc opType _ junk =>
        queues opType → g.HasRoom hdc ∧ junk.commandItemTemp.buffset ≠ 1
    | _ => True

theorem hdcAt_of_valid {i : Int32} (h : Valid i) : ∃ k : Fin 5, i = Int32.ofNat k := by
  obtain ⟨N, hN, rfl⟩ := exists_ofNat h.1
  exact ⟨⟨N, (Int32.ofNat_lt_iff_lt hN (by decide)).mp h.2⟩, rfl⟩

theorem not_neg (h : Fin 5) : ¬ Int32.ofNat h < 0 :=
  (show ∀ h : Fin 5, ¬ Int32.ofNat h < 0 by decide) h

theorem valid_ofNat (h : Fin 5) : Valid (Int32.ofNat h) :=
  (show ∀ h : Fin 5, Valid (Int32.ofNat h) by decide) h

/-- A handle below 5 is negative, or one of the five. -/
theorem lt_five_cases {i : Int32} (h : i < 5) : i < 0 ∨ ∃ k : Fin 5, i = Int32.ofNat k := by
  rcases Int32.lt_or_le i 0 with hi | hi
  · exact Or.inl hi
  · exact Or.inr (hdcAt_of_valid ⟨hi, h⟩)

/-! ### Good states -/

/-- A queued command that can be run. -/
def CommandOk (cmd : CommandBuffer) : Prop :=
  ∃ (a : Action) (h : Fin 5) (vs : List Int32), Decodes cmd a (Int32.ofNat h :: vs) ∧
    vs.length = a.arity ∧ ∀ v ∈ vs, v < Int32.maxValue

/-- The cursors are on the screen, and the queues hold what was queued. -/
structure Good (g : Gfx) : Prop where
  cursor : ∀ h, g.Cursor h
  queue : ∀ h, ∃ n ≤ 50, (g.hdcObjects h).queueEnd = Int32.ofNat n ∧
    ∀ k : Fin 50, k.1 < n → CommandOk ((g.hdcObjects h).commandQueue k)

/-- The queues are as they were, and so is which handles are taken. -/
def SameQueues (g g' : Gfx) : Prop :=
  ∀ h, (g'.hdcObjects h).commandQueue = (g.hdcObjects h).commandQueue ∧
    (g'.hdcObjects h).queueEnd = (g.hdcObjects h).queueEnd ∧
    (g'.hdcObjects h).init = (g.hdcObjects h).init

variable {g g' g'' : Gfx} {h : Fin 5}

theorem SameQueues.refl (g : Gfx) : SameQueues g g := fun _ => ⟨rfl, rfl, rfl⟩

theorem SameQueues.trans (h₁ : SameQueues g g') (h₂ : SameQueues g' g'') : SameQueues g g'' :=
  fun h => ⟨(h₂ h).1.trans (h₁ h).1, (h₂ h).2.1.trans (h₁ h).2.1, (h₂ h).2.2.trans (h₁ h).2.2⟩

theorem SameQueues.of_eq (hsame : g'.hdcObjects = g.hdcObjects) : SameQueues g g' := by
  intro h
  rw [hsame]
  exact ⟨rfl, rfl, rfl⟩

theorem Good.of_same (hg : Good g) (hc : ∀ h, g'.Cursor h) (hs : SameQueues g g') : Good g' := by
  refine ⟨hc, fun h => ?_⟩
  obtain ⟨n, hn, hend, hcmd⟩ := hg.queue h
  refine ⟨n, hn, (hs h).2.1.trans hend, fun k hk => ?_⟩
  rw [(hs h).1]
  exact hcmd k hk

theorem boot_good (pixMem : UInt16 → UInt8) : Good (Gfx.boot pixMem) := by
  have hmax : (0 : Int32) < Int32.maxValue := by decide
  refine ⟨fun h => ⟨hmax, hmax⟩, fun h => ⟨0, Nat.zero_le _, rfl, ?_⟩⟩
  intro k hk
  exact absurd hk (Nat.not_lt_zero _)

/-- Drawing keeps cursors and queues. -/
theorem draws_keep {x : Except Fault Gfx} (hc : ∀ h, g.Cursor h)
    (hx : ∃ g', x = .ok g' ∧ g'.hdcObjects = g.hdcObjects) :
    ∃ g', x = .ok g' ∧ (∀ h, g'.Cursor h) ∧ SameQueues g g' := by
  obtain ⟨g', hg', hsame⟩ := hx
  refine ⟨g', hg', fun h => ?_, .of_eq hsame⟩
  rw [Cursor, hsame]
  exact hc h

/-- Setting the cursor and the pen of a handle keeps cursors and queues. -/
theorem setHdc_keep {d : Hdc} (hc : ∀ h, g.Cursor h) (hx : d.x < Int32.maxValue)
    (hy : d.y < Int32.maxValue) (hq : d.commandQueue = (g.hdcObjects h).commandQueue)
    (hend : d.queueEnd = (g.hdcObjects h).queueEnd) (hinit : d.init = (g.hdcObjects h).init) :
    (∀ i, (g.setHdc h d).Cursor i) ∧ SameQueues g (g.setHdc h d) := by
  constructor
  · intro i
    by_cases hi : i = h
    · subst hi; simpa [Cursor, setHdc] using ⟨hx, hy⟩
    · simpa [Cursor, setHdc, hi] using hc i
  · intro i
    by_cases hi : i = h
    · subst hi; simpa [setHdc] using ⟨hq, hend, hinit⟩
    · simp [setHdc, hi]

theorem MovePos_keep {x y : Int32} (hc : ∀ h, g.Cursor h) (hx : x < Int32.maxValue)
    (hy : y < Int32.maxValue) :
    ∃ g', MovePos (Int32.ofNat h) x y g = .ok g' ∧ (∀ h, g'.Cursor h) ∧ SameQueues g g' := by
  simp only [MovePos, hdcAt_ofNat]
  exact ⟨_, rfl, setHdc_keep hc hx hy rfl rfl rfl⟩

/-- A line from the cursor, and the cursor after it. -/
theorem line_keep {x y : Int32} (hc : ∀ h, g.Cursor h) (hx : x < Int32.maxValue)
    (hy : y < Int32.maxValue) :
    ∃ g', (LineDraw (g.hdcObjects h).x (g.hdcObjects h).y x y (Int32.ofNat h) g).bind
        (MovePos (Int32.ofNat h) x y) = .ok g' ∧ (∀ h, g'.Cursor h) ∧ SameQueues g g' := by
  obtain ⟨g₁, hg₁, hc₁, hs₁⟩ := draws_keep hc (LineDraw_ok (h := h) (hc h).1 (hc h).2 hx hy)
  obtain ⟨g₂, hg₂, hc₂, hs₂⟩ := MovePos_keep (h := h) hc₁ hx hy
  exact ⟨g₂, by rw [hg₁]; exact hg₂, hc₂, hs₁.trans hs₂⟩

/-! ### Running a queue -/

/-- **A command that can be run** runs, and keeps cursors and queues. -/
theorem CommandOk.run {cmd : CommandBuffer} (hcmd : CommandOk cmd) (hc : ∀ h, g.Cursor h) :
    ∃ a, cmd.queuedAction = some a ∧ ∃ g', a.call cmd.args g = .ok g' ∧ (∀ h, g'.Cursor h) ∧
      SameQueues g g' := by
  obtain ⟨a, h, vs, hdec, hlen, hmax⟩ := hcmd
  refine ⟨a, hdec.action, ?_⟩
  have h0 := hdec.args 0 _ rfl
  cases a with
  | PixelSetterFuncQueue =>
      obtain ⟨x, y, rfl⟩ := List.length_eq_two.mp hlen
      obtain ⟨g', hg', hk⟩ := draws_keep hc (PixelSetterFunc_ok (h := h) (g := g) x y)
      exact ⟨g', (PixelSetterFuncQueue_eq h0 (hdec.args 1 _ rfl) (hdec.args 2 _ rfl) g).trans hg',
        hk⟩
  | LineDrawFunc =>
      obtain ⟨x, y, rfl⟩ := List.length_eq_two.mp hlen
      obtain ⟨g', hg', hk⟩ := line_keep (h := h) hc (hmax x (by simp)) (hmax y (by simp))
      exact ⟨g', (LineDrawFunc_eq h0 (hdec.args 1 _ rfl) (hdec.args 2 _ rfl) g).trans hg', hk⟩
  | MovePosFunc =>
      obtain ⟨x, y, rfl⟩ := List.length_eq_two.mp hlen
      obtain ⟨g', hg', hk⟩ := MovePos_keep (h := h) hc (hmax x (by simp)) (hmax y (by simp))
      exact ⟨g', (MovePosFunc_eq h0 (hdec.args 1 _ rfl) (hdec.args 2 _ rfl) g).trans hg', hk⟩
  | DeclarePenFunc =>
      obtain ⟨index, r, green, b, rfl⟩ := List.length_eq_four.mp hlen
      have hg' : DeclarePenFunc cmd.args g = .ok { g with
          dac := g.dac ++ [(0x3C8, index.toInt8.toUInt8), (0x3C9, r.toInt8.toUInt8),
            (0x3C9, green.toInt8.toUInt8), (0x3C9, b.toInt8.toUInt8)] } := by
        simp only [DeclarePenFunc, hdec.args 1 _ rfl, hdec.args 2 _ rfl, hdec.args 3 _ rfl,
          hdec.args 4 _ rfl]
        rfl
      exact draws_keep hc ⟨_, hg', rfl⟩
  | GetPenFunc =>
      obtain ⟨index, rfl⟩ := List.length_eq_one_iff.mp hlen
      have hg' : GetPenFunc cmd.args g =
          .ok (g.setHdc h { g.hdcObjects h with penIndex := index }) := by
        simp only [GetPenFunc, h0, hdec.args 1 _ rfl, bind, Except.bind, hdcAt_ofNat]
        rfl
      exact ⟨_, hg', setHdc_keep hc (hc h).1 (hc h).2 rfl rfl rfl⟩
  | DrawRect =>
      obtain ⟨top, left, bottom, right, rfl⟩ := List.length_eq_four.mp hlen
      obtain ⟨g', hg', hk⟩ := draws_keep hc (fillRows_ok (h := h) (g := g) bottom
        (hmax top (by simp)) (hmax left (by simp)) (hmax right (by simp)))
      exact ⟨g', (DrawRect_eq h0 (hdec.args 1 _ rfl) (hdec.args 2 _ rfl) (hdec.args 3 _ rfl)
        (hdec.args 4 _ rfl) g).trans hg', hk⟩

/-- The loop of `endpaint`, from entry `i` of a queue of `n` commands that can be run. -/
theorem execQueue_ok {n : ℕ} (hn : n ≤ 50) (fuel : ℕ) :
    ∀ (i : ℕ) (g : Gfx), i ≤ n → n - i < fuel → (∀ h, g.Cursor h) →
      (g.hdcObjects h).queueEnd = Int32.ofNat n →
      (∀ k : Fin 50, k.1 < n → CommandOk ((g.hdcObjects h).commandQueue k)) →
      ∃ g', execQueue (Int32.ofNat h) fuel (Int32.ofNat i) g = .ok g' ∧ (∀ h, g'.Cursor h) ∧
        SameQueues g g' := by
  induction fuel with
  | zero => exact fun i g _ hf => absurd hf (Nat.not_lt_zero _)
  | succ fuel ih =>
      intro i g hi hf hc hend hcmd
      rcases Nat.eq_or_lt_of_le hi with rfl | hlt
      · refine ⟨g, ?_, hc, .refl g⟩
        simp only [execQueue, hdcAt_ofNat, bind, Except.bind, hend, if_neg Int32.lt_irrefl]
        rfl
      · have hi50 : i < 50 := by omega
        have hlt' : Int32.ofNat i < Int32.ofNat n :=
          (Int32.ofNat_lt_iff_lt (by omega) (by omega)).mpr hlt
        obtain ⟨a, ha, g₁, hg₁, hc₁, hs₁⟩ := (hcmd ⟨i, hi50⟩ hlt).run hc
        obtain ⟨g₂, hg₂, hc₂, hs₂⟩ := ih (i + 1) g₁ hlt (by omega) hc₁
          ((hs₁ h).2.1.trans hend) fun k hk => by rw [(hs₁ h).1]; exact hcmd k hk
        rw [Int32.ofNat_add] at hg₂
        refine ⟨g₂, ?_, hc₂, hs₁.trans hs₂⟩
        simp only [execQueue, hdcAt_ofNat, bind, Except.bind, hend, if_pos hlt',
          index_ofNat _ hi50 (by decide : 50 ≤ 2 ^ 31), ha, hg₁]
        exact hg₂

/-! ### Queuing -/

theorem queues_cases {opType : Int32} (h : queues opType) :
    opType = 0 ∨ opType = 1 ∨ opType = 2 ∨ opType = 3 ∨ opType = 4 ∨ opType = 5 := by
  obtain ⟨N, hN, rfl⟩ := exists_ofNat h.1
  have hle : N ≤ 5 := (Int32.ofNat_le_iff_le hN (by decide)).mp h.2
  have key : ∀ N : Fin 6, Int32.ofNat N = 0 ∨ Int32.ofNat N = 1 ∨ Int32.ofNat N = 2 ∨
      Int32.ofNat N = 3 ∨ Int32.ofNat N = 4 ∨ Int32.ofNat N = 5 := by decide
  exact key ⟨N, Nat.lt_succ_of_le hle⟩

/-- A list of capped arguments, as it is stored and as it is read. -/
theorem capped_args (ps : List (CStr × Int32)) (hps : ∀ p ∈ ps, 0 ≤ p.2 ∧ p.2 < 1000) :
    List.Forall₂ Numeral (ps.map fun p => capped p.1 p.2)
        (ps.map fun p => ValueCapperChar p.1 p.2) ∧
      ∀ v ∈ ps.map (fun p => ValueCapperChar p.1 p.2), v < Int32.maxValue := by
  constructor
  · rw [List.forall₂_map_left_iff, List.forall₂_map_right_iff, List.forall₂_same]
    exact fun p hp => .capped p.1 (hps p hp).1 (hps p hp).2
  · intro v hv
    obtain ⟨p, hp, rfl⟩ := List.mem_map.mp hv
    exact ValueCapper_lt_max _ (hps p hp).1
      (Int32.lt_trans (hps p hp).2 (by decide))

/-- What `writeQueue` does with an operation it queues. -/
structure Appends (opType : Int32) (set : ArgsSet) (a : Action) (args : List CStr)
    (vs : List Int32) : Prop where
  call : ∀ (hdc : Int32) (junk : Junk) (g : Gfx), g.sys_writeQueue hdc opType set junk =
    (appendCommand a args junk hdc g).map fun g => (1, g)
  numerals : List.Forall₂ Numeral args vs
  length : vs.length = a.arity
  bounded : ∀ v ∈ vs, v < Int32.maxValue

theorem bind_return {x : Except Fault Gfx} (r : Int32) :
    (x >>= fun g => pure (r, g)) = x.map fun g => (r, g) := by
  cases x <;> rfl

/-- The strings of a command, each with its cap. -/
theorem appends_of_pairs {opType : Int32} {set : ArgsSet} {a : Action} (ps : List (CStr × Int32))
    (hps : ∀ p ∈ ps, 0 ≤ p.2 ∧ p.2 < 1000) (hlen : ps.length = a.arity)
    (hcall : ∀ (hdc : Int32) (junk : Junk) (g : Gfx), g.sys_writeQueue hdc opType set junk =
      (appendCommand a (ps.map fun p => capped p.1 p.2) junk hdc g >>= fun g => pure (1, g))) :
    ∃ a args vs, Appends opType set a args vs := by
  obtain ⟨hnum, hmax⟩ := capped_args ps hps
  exact ⟨a, _, _, fun hdc junk g => (hcall hdc junk g).trans (bind_return 1), hnum,
    by rw [List.length_map]; exact hlen, hmax⟩

/-- For every operation that queues there is an `Append` function. -/
theorem exists_appends {opType : Int32} (h : queues opType) (set : ArgsSet) :
    ∃ a args vs, Appends opType set a args vs := by
  rcases queues_cases h with rfl | rfl | rfl | rfl | rfl | rfl
  · exact appends_of_pairs (a := .PixelSetterFuncQueue) [(set.arg0, 319), (set.arg1, 199)]
      (by simp) rfl fun _ _ _ => rfl
  · exact appends_of_pairs (a := .LineDrawFunc) [(set.arg0, 319), (set.arg1, 199)]
      (by simp) rfl fun _ _ _ => rfl
  · exact appends_of_pairs (a := .MovePosFunc) [(set.arg0, 319), (set.arg1, 199)]
      (by simp) rfl fun _ _ _ => rfl
  · exact appends_of_pairs (a := .DeclarePenFunc)
      [(set.arg0, 50), (set.arg1, 63), (set.arg2, 63), (set.arg3, 63)]
      (by simp) rfl fun _ _ _ => rfl
  · exact appends_of_pairs (a := .GetPenFunc) [(set.arg0, 50)] (by simp) rfl fun _ _ _ => rfl
  · exact appends_of_pairs (a := .DrawRect)
      [(set.arg0, 199), (set.arg3, 319), (set.arg1, 199), (set.arg2, 319)]
      (by simp) rfl fun _ _ _ => rfl

theorem writeQueue_other {opType : Int32} (h : ¬ queues opType) (hdc : Int32) (set : ArgsSet)
    (junk : Junk) (g : Gfx) : g.sys_writeQueue hdc opType set junk = .ok (1, g) := by
  have hne : ∀ n : Int32, queues n → opType ≠ n := fun n hn he => h (he ▸ hn)
  simp only [sys_writeQueue, if_neg (hne 0 (by decide)), if_neg (hne 1 (by decide)),
    if_neg (hne 2 (by decide)), if_neg (hne 3 (by decide)), if_neg (hne 4 (by decide)),
    if_neg (hne 5 (by decide))]
  rfl

/-! ### One call -/

/-- The call returns in a good state, and refuses a handle that is not one. -/
def Returns (g : Gfx) (c : Call) : Prop :=
  ∃ r g', g.call c = .ok (r, g') ∧ Good g' ∧
    ∀ i, c.handle = some i → ¬ Valid i → r = -1 ∧ g' = g

variable {c : Call} {r : Int32}

theorem Returns.refused (hg : Good g) (h : g.call c = .ok (-1, g)) : Returns g c :=
  ⟨-1, g, h, hg, fun _ _ _ => ⟨rfl, rfl⟩⟩

theorem Returns.valid (hh : c.handle = some (Int32.ofNat h)) (hcall : g.call c = .ok (r, g'))
    (hg : Good g') : Returns g c := by
  refine ⟨r, g', hcall, hg, fun i hi hv => ?_⟩
  rw [hh] at hi
  obtain rfl := Option.some.inj hi
  exact absurd (valid_ofNat h) hv

/-- A handle that is good is put in place. -/
theorem Good.setHdc {d : Hdc} {n : ℕ} (hg : Good g) (hx : d.x < Int32.maxValue)
    (hy : d.y < Int32.maxValue) (hn : n ≤ 50) (hend : d.queueEnd = Int32.ofNat n)
    (hq : ∀ k : Fin 50, k.1 < n → CommandOk (d.commandQueue k)) : Good (g.setHdc h d) := by
  refine ⟨fun i => ?_, fun i => ?_⟩ <;> by_cases hi : i = h
  · subst hi; simpa [Cursor, Gfx.setHdc] using ⟨hx, hy⟩
  · simpa [Cursor, Gfx.setHdc, hi] using hg.cursor i
  · subst hi; simpa [Gfx.setHdc] using ⟨n, hn, hend, hq⟩
  · simpa [Gfx.setHdc, hi] using hg.queue i

/-- A fresh slot is good, whatever its queue holds. -/
theorem Good.fresh (hg : Good g) (init pen : Int32) (queue : Fin 50 → CommandBuffer) :
    Good (g.setHdc h ⟨init, 0, 0, pen, queue, 0⟩) :=
  hg.setHdc (n := 0) (show (0 : Int32) < Int32.maxValue by decide)
    (show (0 : Int32) < Int32.maxValue by decide) (Nat.zero_le _) rfl
    fun _ hk => absurd hk (Nat.not_lt_zero _)

theorem ne_fifty {n : ℕ} (hn : n ≤ 50) (hend : (g.hdcObjects h).queueEnd = Int32.ofNat n)
    (hroom : g.HasRoom (Int32.ofNat h)) : n < 50 := by
  refine Nat.lt_of_le_of_ne hn ?_
  rintro rfl
  exact hroom h (hdcAt_ofNat h) hend

/-- A command is queued, while there is room and the buffer is not marked. -/
theorem writeQueue_returns {opType : Int32} {set : ArgsSet} {junk : Junk} (hg : Good g)
    (hs : queues opType → g.HasRoom (Int32.ofNat h) ∧ junk.commandItemTemp.buffset ≠ 1) :
    Returns g (.writeQueue (Int32.ofNat h) opType set junk) := by
  by_cases hop : queues opType
  · obtain ⟨hroom, hset⟩ := hs hop
    obtain ⟨a, args, vs, happ⟩ := exists_appends hop set
    obtain ⟨n, hn, hend, hq⟩ := hg.queue h
    have hlt := ne_fifty hn hend hroom
    have hlen : args.length < 20 := by
      rw [happ.numerals.length_eq, happ.length]
      cases a <;> decide
    obtain ⟨cmd, hcmd, hdec⟩ := appendCommand_spec a (h := h) (g := g) hset hlen
      happ.numerals hend hlt
    refine .valid (r := 1) rfl ((happ.call _ _ _).trans (by rw [hcmd]; rfl)) (?_ : Good
      (g.withQueue h (Function.update (g.hdcObjects h).commandQueue ⟨n, hlt⟩ cmd) (n + 1)))
    refine hg.setHdc (n := n + 1) (hg.cursor h).1 (hg.cursor h).2 hlt rfl fun k hk => ?_
    show CommandOk (Function.update (g.hdcObjects h).commandQueue ⟨n, hlt⟩ cmd k)
    by_cases hkn : k = ⟨n, hlt⟩
    · subst hkn
      rw [Function.update_self]
      exact ⟨a, h, vs, hdec, happ.length, happ.bounded⟩
    · have : k.1 ≠ n := fun e => hkn (Fin.ext e)
      rw [Function.update_of_ne hkn]
      exact hq k (by omega)
  · exact .valid rfl (writeQueue_other hop _ _ _ _) hg

/-- `endpaint` on a valid handle: the queue, then the release of the slot. -/
theorem endpaint_eq (executeQueue : Int32) (queue : Fin 50 → CommandBuffer) (g : Gfx) :
    g.sys_endpaint (Int32.ofNat h) executeQueue queue =
      (if executeQueue = 1 then execQueue (Int32.ofNat h) 51 0 g else .ok g).map fun g =>
        if (g.hdcObjects h).init = 1 then (0, g.setHdc h ⟨0, 0, 0, 15, queue, 0⟩) else (-1, g) := by
  simp only [sys_endpaint, if_neg (not_neg h)]
  split
  · cases execQueue (Int32.ofNat h) 51 0 g with
    | error e => rfl
    | ok g' =>
        simp only [hdcAt_ofNat, bind, Except.bind, Except.map]
        split <;> rfl
  · simp only [hdcAt_ofNat, bind, Except.bind, Except.map, pure, Except.pure]
    split <;> rfl

/-- **A sound call in a good state** returns in a good state. -/
theorem call_sound (hg : Good g) (hs : Sound g c) : Returns g c := by
  have h319 : ∀ a, ValueCapper a 319 < Int32.maxValue := fun a =>
    ValueCapper_lt_max a (by decide) (by decide)
  have h199 : ∀ a, ValueCapper a 199 < Int32.maxValue := fun a =>
    ValueCapper_lt_max a (by decide) (by decide)
  -- One case per call: refused for a negative handle, or done to one of the five.
  cases c with
  | setpixel hdc x y =>
      rcases lt_five_cases hs.1 with hneg | ⟨h, rfl⟩
      · exact .refused hg (if_pos hneg)
      · obtain ⟨g', hg', hc, hk⟩ := draws_keep hg.cursor (PixelSetterFunc_ok (h := h) (g := g)
          (ValueCapper x 319) (ValueCapper y 199))
        refine .valid (r := 0) (h := h) rfl ?_ (hg.of_same hc hk)
        simp only [Gfx.call, sys_setpixel, if_neg (not_neg h), hg']
        rfl
  | moveto hdc x y =>
      rcases lt_five_cases hs.1 with hneg | ⟨h, rfl⟩
      · exact .refused hg (if_pos hneg)
      · obtain ⟨g', hg', hc, hk⟩ := MovePos_keep (h := h) hg.cursor (h319 x) (h199 y)
        refine .valid (r := 0) (h := h) rfl ?_ (hg.of_same hc hk)
        simp only [Gfx.call, sys_moveto, if_neg (not_neg h), hg']
        rfl
  | lineto hdc nx ny =>
      rcases lt_five_cases hs.1 with hneg | ⟨h, rfl⟩
      · exact .refused hg (if_pos hneg)
      · obtain ⟨g', hg', hc, hk⟩ := line_keep (h := h) hg.cursor (h319 nx) (h199 ny)
        refine .valid (r := 0) (h := h) rfl ?_ (hg.of_same hc hk)
        obtain ⟨g₁, hg₁, hg₂⟩ := bind_eq_ok.mp hg'
        simp only [Gfx.call, sys_lineto, if_neg (not_neg h), hdcAt_ofNat, bind, Except.bind, hg₁,
          hg₂]
        rfl
  | selectpen hdc index =>
      by_cases hneg : hdc < 0
      · exact .refused hg (if_pos hneg)
      · by_cases hidx : index > 255
        · refine .refused hg ?_
          simp only [Gfx.call, sys_selectpen, if_neg hneg, if_pos hidx]
        · have hlt : hdc < 5 := hs.1.resolve_right hidx
          obtain ⟨h, rfl⟩ := (lt_five_cases hlt).resolve_left hneg
          obtain ⟨hc, hk⟩ := setHdc_keep (d := { g.hdcObjects h with penIndex := index }) (h := h)
            hg.cursor (hg.cursor h).1 (hg.cursor h).2 rfl rfl rfl
          refine .valid (r := 0) (h := h) rfl ?_ (hg.of_same hc hk)
          simp only [Gfx.call, sys_selectpen, if_neg hneg, if_neg hidx, hdcAt_ofNat]
          rfl
  | fillrect hdc rect =>
      rcases lt_five_cases hs.1 with hneg | ⟨h, rfl⟩
      · exact .refused hg (if_pos hneg)
      · obtain ⟨g', hg', hc, hk⟩ := draws_keep hg.cursor (fillRows_ok (h := h) (g := g)
          (ValueCapper rect.bottom 199) (h199 rect.top) (h319 rect.left)
          (h319 rect.right))
        refine .valid (r := 0) (h := h) rfl ?_ (hg.of_same hc hk)
        simp only [Gfx.call, sys_fillrect, if_neg (not_neg h), hg']
        rfl
  | beginpaint queue =>
      simp only [Returns, Gfx.call, sys_beginpaint]
      split
      · exact ⟨_, _, rfl, hg.fresh _ _ _, fun i hi => by cases hi⟩
      · exact ⟨_, _, rfl, hg, fun i hi => by cases hi⟩
  | endpaint hdc executeQueue queue =>
      rcases lt_five_cases hs.1 with hneg | ⟨h, rfl⟩
      · exact .refused hg (if_pos hneg)
      · obtain ⟨g', hg', hgood⟩ : ∃ g', (if executeQueue = 1 then execQueue (Int32.ofNat h) 51 0 g
            else .ok g) = .ok g' ∧ Good g' := by
          split
          · obtain ⟨n, hn, hend, hq⟩ := hg.queue h
            obtain ⟨g', hg', hc, hk⟩ := execQueue_ok hn 51 0 g (Nat.zero_le _) (by omega)
              hg.cursor hend hq
            exact ⟨g', hg', hg.of_same hc hk⟩
          · exact ⟨g, rfl, hg⟩
        have heq := endpaint_eq (h := h) executeQueue queue g
        rw [hg'] at heq
        by_cases hinit : (g'.hdcObjects h).init = 1
        · exact .valid rfl (heq.trans (congrArg Except.ok (if_pos hinit))) (hgood.fresh _ _ _)
        · exact .valid rfl (heq.trans (congrArg Except.ok (if_neg hinit))) hgood
  | getHDC hdc =>
      by_cases hout : hdc > 5 ∨ hdc < 0
      · exact .refused hg (if_pos hout)
      · obtain ⟨hle, hpos⟩ := not_or.mp hout
        -- The check of `getHDC` lets 5 through, `Sound` does not.
        have hlt : hdc < 5 := by
          rcases Int32.lt_or_eq_of_le (Int32.not_lt.mp hle) with hlt | heq
          · exact hlt
          · exact absurd heq hs.1
        obtain ⟨h, rfl⟩ := (lt_five_cases hlt).resolve_left hpos
        by_cases hinit : (g.hdcObjects h).init = 1
        · refine .valid (r := 0) (h := h) rfl ?_ hg
          simp only [Gfx.call, sys_getHDC, if_neg hout, hdcAt_ofNat, bind, Except.bind,
            if_pos hinit]
          rfl
        · refine .valid (r := -1) (h := h) rfl ?_ hg
          simp only [Gfx.call, sys_getHDC, if_neg hout, hdcAt_ofNat, bind, Except.bind,
            if_neg hinit]
          rfl
  | writeQueue hdc opType set junk =>
      obtain ⟨h, rfl⟩ := hdcAt_of_valid hs.1
      exact writeQueue_returns hg hs.2

/-! ### Invalid handles -/

theorem hdcAt_invalid {i : Int32} (h : ¬ Valid i) : hdcAt i = .error (.hdcIndex i) := by
  refine dif_neg fun hi => h ⟨hi.1, ?_⟩
  rw [← Int32.ofNat_toNatClampNeg i hi.1]
  exact (Int32.ofNat_lt_iff_lt i.toNatClampNeg_lt (by decide)).mpr hi.2

theorem execQueue_invalid {hdc i : Int32} {fuel : ℕ} (h : ¬ Valid hdc) :
    execQueue hdc (fuel + 1) i g = .error (.hdcIndex hdc) := by
  simp only [execQueue, hdcAt_invalid h]
  rfl

/-- `writeQueue` never refuses. -/
theorem writeQueue_ne_refused (hdc opType : Int32) (set : ArgsSet) (junk : Junk) (g : Gfx) :
    g.sys_writeQueue hdc opType set junk ≠ .ok (-1, g) := by
  intro h
  have hne : (1 : Int32) ≠ -1 := by decide
  by_cases hop : queues opType
  · obtain ⟨a, args, vs, happ⟩ := exists_appends hop set
    rw [happ.call] at h
    cases ha : appendCommand a args junk hdc g with
    | error e => rw [ha] at h; cases h
    | ok g' =>
        rw [ha] at h
        exact hne (congrArg Prod.fst (Except.ok.inj h))
  · rw [writeQueue_other hop] at h
    exact hne (congrArg Prod.fst (Except.ok.inj h))

/-- Of the calls that name an invalid handle, the checked ones refuse it and no others do. -/
theorem refused_iff_checked {i : Int32} (hh : c.handle = some i) (hv : ¬ Valid i) :
    g.call c = .ok (-1, g) ↔ c.Checked := by
  have hat := hdcAt_invalid hv
  -- an invalid handle is negative, which all but `writeQueue` refuse, or at least 5
  have hcase : i < 0 ∨ ¬ i < 0 ∧ ¬ i < 5 := by
    by_cases hi : i < 0
    · exact Or.inl hi
    · exact Or.inr ⟨hi, fun h5 => hv ⟨Int32.not_lt.mp hi, h5⟩⟩
  have hlt : i < 0 → i < 5 := fun h => Int32.lt_trans h (by decide)
  cases c with
  | setpixel hdc x y =>
      obtain rfl := Option.some.inj hh
      rcases hcase with hi | ⟨hi, h5⟩
      · exact iff_of_true (if_pos hi) (hlt hi)
      · refine iff_of_false (fun h => ?_) h5
        simp only [Gfx.call, sys_setpixel, if_neg hi, PixelSetterFunc, hat] at h
        cases h
  | moveto hdc x y =>
      obtain rfl := Option.some.inj hh
      rcases hcase with hi | ⟨hi, h5⟩
      · exact iff_of_true (if_pos hi) (hlt hi)
      · refine iff_of_false (fun h => ?_) h5
        simp only [Gfx.call, sys_moveto, if_neg hi, MovePos, hat] at h
        cases h
  | lineto hdc x y =>
      obtain rfl := Option.some.inj hh
      rcases hcase with hi | ⟨hi, h5⟩
      · exact iff_of_true (if_pos hi) (hlt hi)
      · refine iff_of_false (fun h => ?_) h5
        simp only [Gfx.call, sys_lineto, if_neg hi, hat] at h
        cases h
  | selectpen hdc index =>
      obtain rfl := Option.some.inj hh
      rcases hcase with hi | ⟨hi, h5⟩
      · exact iff_of_true (if_pos hi) (Or.inl (hlt hi))
      · by_cases hidx : index > 255
        · refine iff_of_true ?_ (Or.inr hidx)
          simp only [Gfx.call, sys_selectpen, if_neg hi, if_pos hidx]
        · refine iff_of_false (fun h => ?_) (not_or.mpr ⟨h5, hidx⟩)
          simp only [Gfx.call, sys_selectpen, if_neg hi, if_neg hidx, hat] at h
          cases h
  | fillrect hdc rect =>
      obtain rfl := Option.some.inj hh
      rcases hcase with hi | ⟨hi, h5⟩
      · exact iff_of_true (if_pos hi) (hlt hi)
      · refine iff_of_false (fun h => ?_) h5
        simp only [Gfx.call, sys_fillrect, if_neg hi] at h
        obtain ⟨g', -, h⟩ := bind_eq_ok.mp h
        exact absurd (congrArg Prod.fst (Except.ok.inj h)) (show (0 : Int32) ≠ -1 by decide)
  | beginpaint queue => cases hh
  | endpaint hdc executeQueue queue =>
      obtain rfl := Option.some.inj hh
      rcases hcase with hi | ⟨hi, h5⟩
      · exact iff_of_true (if_pos hi) (hlt hi)
      · refine iff_of_false (fun h => ?_) h5
        simp only [Gfx.call, sys_endpaint, if_neg hi] at h
        split at h
        · rw [execQueue_invalid hv] at h
          cases h
        · simp only [hat] at h
          cases h
  | getHDC hdc =>
      obtain rfl := Option.some.inj hh
      by_cases hout : hdc > 5 ∨ hdc < 0
      · refine iff_of_true (if_pos hout) ?_
        rintro rfl
        exact absurd hout (by decide)
      · refine iff_of_false (fun h => ?_) fun hne => ?_
        · simp only [Gfx.call, sys_getHDC, if_neg hout, hat] at h
          cases h
        · obtain ⟨hle, hpos⟩ := not_or.mp hout
          have h5 := (hcase.resolve_left hpos).2
          exact hne (Int32.le_antisymm (Int32.not_lt.mp hle) (Int32.not_lt.mp h5))
  | writeQueue hdc opType set junk =>
      obtain rfl := Option.some.inj hh
      exact iff_of_false (writeQueue_ne_refused _ _ _ _ _) hv

/-! ### Whole runs -/

/-- A run of sound calls. -/
def SoundSteps (g : Gfx) (c : Call) (g' : Gfx) : Prop := Sound g c ∧ Steps g c g'

/-- Every state of a run is good. -/
theorem run_good {pixMem : UInt16 → UInt8} {cs : List Call}
    (h : Run SoundSteps (boot pixMem) cs g) : Good g := by
  refine h.inv (fun g c g' hstep hg => ?_) (boot_good pixMem)
  obtain ⟨hs, r, hr⟩ := hstep
  obtain ⟨r', g'', hr', hg'', -⟩ := call_sound hg hs
  rw [hr] at hr'
  cases hr'
  exact hg''

/-- Calls that return, one after the other, are a run. -/
theorem run_of_calls {cs : List Call} (h : g.calls cs = .ok g') : Run Steps g cs g' := by
  induction cs generalizing g with
  | nil =>
      obtain rfl : g = g' := Except.ok.inj h
      exact .nil g
  | cons c cs ih =>
      rw [Gfx.calls, List.foldlM_cons] at h
      obtain ⟨g₁, h₁, h⟩ := bind_eq_ok.mp h
      cases hc : g.call c with
      | error e => rw [hc] at h₁; cases h₁
      | ok r =>
          rw [hc] at h₁
          obtain rfl : r.2 = g₁ := Except.ok.inj h₁
          exact .cons ⟨r.1, hc⟩ (ih h)

/-- **A handle nobody checks.**  At boot, `setpixel` on handle 7 indexes `hdcObjects[7]`. -/
theorem setpixel_seven_escapes :
    ¬ ∀ (pixMem : UInt16 → UInt8) (cs : List Call) (g : Gfx), Run Steps (boot pixMem) cs g →
      ∀ c, (∀ i, g.call c ≠ .error (.hdcIndex i)) ∧
        ∀ i, c.handle = some i → ¬ Valid i → g.call c = .ok (-1, g) := by
  intro h
  exact (h (fun _ => 0) [] _ (.nil _) (.setpixel 7 0 0)).1 7 rfl

/-- **When handles are valid.**  In a run of sound calls, every sound call returns without an
access out of bounds, and one that names an invalid handle returns `-1` and changes nothing; and
a call that names an invalid handle does so exactly when its own check covers that handle. -/
theorem handles_valid_of_sound (pixMem : UInt16 → UInt8) (cs : List Call) (g : Gfx)
    (h : Run SoundSteps (boot pixMem) cs g) :
    (∀ c, Sound g c → ∃ r g', g.call c = .ok (r, g') ∧
      ∀ i, c.handle = some i → ¬ Valid i → r = -1 ∧ g' = g) ∧
    ∀ c i, c.handle = some i → ¬ Valid i → (g.call c = .ok (-1, g) ↔ c.Checked) := by
  refine ⟨fun c hs => ?_, fun c i hh hv => refused_iff_checked hh hv⟩
  obtain ⟨r, g', hcall, -, hrej⟩ := call_sound (run_good h) hs
  exact ⟨r, g', hcall, hrej⟩

/-- After `beginpaint`, `getHDC` refuses handle 6. -/
theorem handles_valid_getHDC_six : ∃ g r g',
    Run SoundSteps (boot fun _ => 0) [.beginpaint fun _ => .zero] g ∧
    g.call (.getHDC 6) = .ok (r, g') ∧ r = -1 ∧ g' = g := by
  have hrun : Run SoundSteps (boot fun _ => 0) [.beginpaint fun _ => .zero] _ :=
    .cons ⟨⟨trivial, trivial⟩, _, rfl⟩ (.nil _)
  obtain ⟨r, g', hcall, hrej⟩ := (handles_valid_of_sound _ _ _ hrun).1 (.getHDC 6)
    ⟨show (6 : Int32) ≠ 5 by decide, trivial⟩
  exact ⟨_, r, g', hrun, hcall, hrej 6 rfl (by decide)⟩

/-- The calls that work on a queue, on a valid handle. -/
def Call.OnQueue : Call → Prop
  | .beginpaint _ => True
  | .writeQueue hdc _ _ _ | .endpaint hdc _ _ => Valid hdc
  | _ => False

/-- `writeQueue` on a full queue. -/
theorem writeQueue_full {opType : Int32} {junk : Junk} (hop : queues opType) (set : ArgsSet)
    (hset : junk.commandItemTemp.buffset ≠ 1) (hend : (g.hdcObjects h).queueEnd = 50) :
    g.call (.writeQueue (Int32.ofNat h) opType set junk) = .error (.queueIndex 50) := by
  obtain ⟨a, args, vs, happ⟩ := exists_appends hop set
  have hlen : args.length < 20 := by
    rw [happ.numerals.length_eq, happ.length]
    cases a <;> decide
  refine (happ.call _ _ _).trans ?_
  rw [appendCommand_full hset hlen happ.numerals hend]
  rfl

/-- **One command too many.**  Fifty-one cursor moves on handle 0: the last is stored past the
end of the queue. -/
theorem writeQueue_fifty_one_escapes :
    ¬ ∀ (pixMem : UInt16 → UInt8) (cs : List Call) (g : Gfx), (∀ c ∈ cs, c.OnQueue) →
      Run Steps (boot pixMem) cs g → ∀ c, c.OnQueue → ∀ i, g.call c ≠ .error (.queueIndex i) := by
  intro hall
  let move : Drawing × Junk := (.move [48] [48], ⟨.zero, fun _ _ => 0⟩)
  obtain ⟨queue, hq, -⟩ := queued_calls (h := 0) (List.replicate 50 move) (boot fun _ => 0) 0 rfl
    (by simp) fun d hd => by
      obtain rfl := List.eq_of_mem_replicate hd
      simp [move, Drawing.Typed, isDigit, CommandBuffer.zero]
  refine hall _ _ _ (fun c hc => ?_) (run_of_calls hq) (.writeQueue 0 2 ⟨[48], [48], [], []⟩
    ⟨.zero, fun _ _ => 0⟩) (show Valid 0 by decide) 50 ?_
  · obtain ⟨d, hd, rfl⟩ := List.mem_map.mp hc
    obtain rfl := List.eq_of_mem_replicate hd
    exact (show Valid 0 by decide)
  · refine writeQueue_full (h := 0) (by decide) _ (by decide) ?_
    simp [withQueue, setHdc]

/-- **When the queues hold.**  In a run of sound calls every queue has between 0 and 50 entries
and every sound call returns, with no index out of bounds; one more command for a full queue
is stored past its end. -/
theorem queue_bounded_of_sound (pixMem : UInt16 → UInt8) (cs : List Call) (g : Gfx)
    (h : Run SoundSteps (boot pixMem) cs g) :
    (∀ h, 0 ≤ (g.hdcObjects h).queueEnd ∧ (g.hdcObjects h).queueEnd ≤ 50) ∧
    (∀ c, Sound g c → ∃ r g', g.call c = .ok (r, g')) ∧
    ∀ (h : Fin 5) (opType : Int32) (set : ArgsSet) (junk : Junk), queues opType →
      junk.commandItemTemp.buffset ≠ 1 → (g.hdcObjects h).queueEnd = 50 →
      g.call (.writeQueue (Int32.ofNat h) opType set junk) = .error (.queueIndex 50) := by
  have hg := run_good h
  refine ⟨fun h => ?_, fun c hs => ?_, fun h opType set junk hop hset hend =>
    writeQueue_full hop set hset hend⟩
  · obtain ⟨n, hn, hend, -⟩ := hg.queue h
    rw [hend]
    exact ⟨(Int32.ofNat_le_iff_le (a := 0) (by decide) (by omega)).mpr (Nat.zero_le _),
      (Int32.ofNat_le_iff_le (b := 50) (by omega) (by decide)).mpr hn⟩
  · obtain ⟨r, g', hcall, -⟩ := call_sound hg hs
    exact ⟨r, g', hcall⟩

/-- After `beginpaint` there is room for a command on handle 0. -/
theorem queue_bounded_one_move : ∃ g r g',
    Run SoundSteps (boot fun _ => 0) [.beginpaint fun _ => .zero] g ∧
    g.call (.writeQueue 0 2 ⟨[49], [50], [], []⟩ ⟨.zero, fun _ _ => 0⟩) = .ok (r, g') := by
  have hrun : Run SoundSteps (boot fun _ => 0) [.beginpaint fun _ => .zero]
      ((boot fun _ => 0).setHdc 0 ⟨1, 0, 0, 15, fun _ => .zero, 0⟩) :=
    .cons ⟨⟨trivial, trivial⟩, _, rfl⟩ (.nil _)
  have hroom : ((boot fun _ => 0).setHdc 0 ⟨1, 0, 0, 15, fun _ => .zero, 0⟩).HasRoom 0 := by
    intro h hh
    obtain rfl : (0 : Fin 5) = h := Except.ok.inj hh
    decide
  obtain ⟨r, g', hcall⟩ := (queue_bounded_of_sound _ _ _ hrun).2.1
    (.writeQueue 0 2 ⟨[49], [50], [], []⟩ ⟨.zero, fun _ _ => 0⟩)
    ⟨show Valid 0 by decide, fun _ => ⟨hroom, by decide⟩⟩
  exact ⟨_, r, g', hrun, hcall⟩

end Xv6.Gfx
