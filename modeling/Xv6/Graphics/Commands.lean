import Xv6.Graphics.Handles
import Xv6.Graphics.Raster

/-!
# Graphics — commands, and what every call does to the queues

A queue entry is a function pointer and twenty strings.  `Command` is what such an entry stands
for: an action with the numbers it reads after the handle.  `Holds` relates the queue of a slot
to a list of commands, and `perform` is a command as the drawing functions run it, with no string
between.

`Effect` says once what a call on valid handles can do to the slots; the invariants of the later
modules are read off it.

* `Command.perform_ok` — a capped command runs, and touches its own slot only.
* `execQueue_eq_performAll` — the loop of `endpaint` runs the commands the queue holds, in order.
* `call_effect` — every call that returns has one of the effects; one that does not return is a
  command for a full queue.
-/

namespace Xv6

open Lib

/-! ### Commands -/

/-- A queued command, with the numbers its action reads after the handle. -/
inductive Command where
  | pixel (x y : Int32)
  | line (x y : Int32)
  | move (x y : Int32)
  | declarePen (index r g b : Int32)
  | getPen (index : Int32)
  | rect (top left bottom right : Int32)
  deriving DecidableEq

namespace Command

/-- The function of a command. -/
def action : Command → Action
  | pixel .. => .PixelSetterFuncQueue
  | line .. => .LineDrawFunc
  | move .. => .MovePosFunc
  | declarePen .. => .DeclarePenFunc
  | getPen .. => .GetPenFunc
  | rect .. => .DrawRect

/-- The numbers of a command. -/
def values : Command → List Int32
  | pixel x y | line x y | move x y => [x, y]
  | declarePen index r g b => [index, r, g, b]
  | getPen index => [index]
  | rect top left bottom right => [top, left, bottom, right]

/-- What `writeQueue` queues for an operation, with the arguments capped. -/
def ofOp (opType : Int32) (set : ArgsSet) : Option Command :=
  if opType = 0 then some (pixel (ValueCapperChar set.arg0 319) (ValueCapperChar set.arg1 199))
  else if opType = 1 then some (line (ValueCapperChar set.arg0 319) (ValueCapperChar set.arg1 199))
  else if opType = 2 then some (move (ValueCapperChar set.arg0 319) (ValueCapperChar set.arg1 199))
  else if opType = 3 then some (declarePen (ValueCapperChar set.arg0 50)
    (ValueCapperChar set.arg1 63) (ValueCapperChar set.arg2 63) (ValueCapperChar set.arg3 63))
  else if opType = 4 then some (getPen (ValueCapperChar set.arg0 50))
  else if opType = 5 then some (rect (ValueCapperChar set.arg0 199) (ValueCapperChar set.arg3 319)
    (ValueCapperChar set.arg1 199) (ValueCapperChar set.arg2 319))
  else none

/-- The bytes a pen declaration sends to the palette ports. -/
def declaration (index r g b : Int32) : List (UInt16 × UInt8) :=
  [(0x3C8, index.toInt8.toUInt8), (0x3C9, r.toInt8.toUInt8), (0x3C9, g.toInt8.toUInt8),
    (0x3C9, b.toInt8.toUInt8)]

/-- What the command sends to the palette ports. -/
def ports : Command → List (UInt16 × UInt8)
  | declarePen index r g b => declaration index r g b
  | pixel .. | line .. | move .. | getPen .. | rect .. => []

/-- What the command stores to the video memory. -/
def stores (h : Fin 5) (c : Command) (g : Gfx) : List Store :=
  match c with
  | pixel x y => [⟨x, y, g.pen h⟩]
  | line x y => stroke (g.pen h) (linePoints (g.hdcObjects h).x (g.hdcObjects h).y x y)
  | rect top left bottom right => stroke (g.pen h) (rectPoints top left bottom right)
  | move .. | declarePen .. | getPen .. => []

/-- The pen selected after the command. -/
def penAfter : Command → Int32 → Int32
  | getPen index, _ => index
  | pixel .., pen | line .., pen | move .., pen | declarePen .., pen | rect .., pen => pen

/-- The command on slot `h`. -/
def perform (h : Fin 5) (c : Command) (g : Gfx) : Except Fault Gfx :=
  match c with
  | pixel x y => PixelSetterFunc (Int32.ofNat h) x y g
  | line x y => (LineDraw (g.hdcObjects h).x (g.hdcObjects h).y x y (Int32.ofNat h) g).bind
      (MovePos (Int32.ofNat h) x y)
  | move x y => MovePos (Int32.ofNat h) x y g
  | declarePen index r green b => .ok { g with dac := g.dac ++ declaration index r green b }
  | getPen index => .ok (g.setHdc h { g.hdcObjects h with penIndex := index })
  | rect top left bottom right => fillRows top left bottom right (Int32.ofNat h) g

/-- A list of commands, in order. -/
def performAll (h : Fin 5) (cs : List Command) (g : Gfx) : Except Fault Gfx :=
  cs.foldlM (fun g c => c.perform h g) g

end Command

/-- The numbers are within the caps of the `Append` functions. -/
def Command.Capped : Command → Prop
  | pixel x y | line x y | move x y => InScreen x y
  | declarePen index r g b =>
      (0 ≤ index ∧ index ≤ 50) ∧ (0 ≤ r ∧ r ≤ 63) ∧ (0 ≤ g ∧ g ≤ 63) ∧ 0 ≤ b ∧ b ≤ 63
  | getPen index => 0 ≤ index ∧ index ≤ 50
  | rect top left bottom right => InScreen left bottom ∧ InScreen right top

theorem InScreen.lt_max {x y : Int32} (h : InScreen x y) :
    x < Int32.maxValue ∧ y < Int32.maxValue :=
  ⟨Int32.lt_of_le_of_lt h.1.2 (by decide), Int32.lt_of_le_of_lt h.2.2 (by decide)⟩

theorem InScreen.capped (x y : Int32) : InScreen (ValueCapper x 319) (ValueCapper y 199) :=
  ⟨⟨ValueCapper_nonneg _ _, ValueCapper_le (by decide)⟩, ValueCapper_nonneg _ _,
    ValueCapper_le (by decide)⟩

theorem Command.values_length (c : Command) : c.values.length < 20 := by
  cases c <;> exact Nat.lt_of_sub_eq_succ rfl

/-- The values of a command are capped. -/
theorem Command.capped_ofOp {opType : Int32} {set : ArgsSet} {c : Command}
    (h : ofOp opType set = some c) : c.Capped := by
  have hcap : ∀ (s : CStr) (cap : Int32), 0 ≤ cap →
      0 ≤ ValueCapperChar s cap ∧ ValueCapperChar s cap ≤ cap :=
    fun s cap h => ⟨ValueCapper_nonneg _ _, ValueCapper_le (a := ParseInt s) h⟩
  have h319 := fun s => hcap s 319 (by decide)
  have h199 := fun s => hcap s 199 (by decide)
  have h63 := fun s => hcap s 63 (by decide)
  have h50 := fun s => hcap s 50 (by decide)
  unfold ofOp at h
  repeat' split at h
  all_goals cases h
  · exact ⟨h319 _, h199 _⟩
  · exact ⟨h319 _, h199 _⟩
  · exact ⟨h319 _, h199 _⟩
  · exact ⟨h50 _, h63 _, h63 _, h63 _⟩
  · exact h50 _
  · exact ⟨⟨h319 _, h199 _⟩, h319 _, h199 _⟩

/-! ### A command in its own slot -/

/-- The other slots are as they were, and so is whether `h` is taken and what it has queued; its
cursor is on the screen. -/
structure Gfx.Keeps (g : Gfx) (h : Fin 5) (g' : Gfx) : Prop where
  others : ∀ j, j ≠ h → g'.hdcObjects j = g.hdcObjects j
  init : (g'.hdcObjects h).init = (g.hdcObjects h).init
  queue : (g'.hdcObjects h).commandQueue = (g.hdcObjects h).commandQueue
  last : (g'.hdcObjects h).queueEnd = (g.hdcObjects h).queueEnd
  cursor : InScreen (g'.hdcObjects h).x (g'.hdcObjects h).y

/-- The cursor of `h` is on the screen. -/
def Gfx.OnScreen (g : Gfx) (h : Fin 5) : Prop := InScreen (g.hdcObjects h).x (g.hdcObjects h).y

section

variable {g g' g'' : Gfx} {h : Fin 5} {x y : Int32}

theorem Gfx.Keeps.of_eq (hc : g.OnScreen h) (hsame : g'.hdcObjects = g.hdcObjects) :
    g.Keeps h g' where
  others := fun j _ => by rw [hsame]
  init := by rw [hsame]
  queue := by rw [hsame]
  last := by rw [hsame]
  cursor := by rw [hsame]; exact hc

theorem Gfx.Keeps.trans (h₁ : g.Keeps h g') (h₂ : g'.Keeps h g'') : g.Keeps h g'' where
  others := fun j hj => (h₂.others j hj).trans (h₁.others j hj)
  init := h₂.init.trans h₁.init
  queue := h₂.queue.trans h₁.queue
  last := h₂.last.trans h₁.last
  cursor := h₂.cursor

/-- A change of the cursor or the pen. -/
theorem Gfx.Keeps.setHdc {d : Hdc} (hinit : d.init = (g.hdcObjects h).init)
    (hq : d.commandQueue = (g.hdcObjects h).commandQueue)
    (hend : d.queueEnd = (g.hdcObjects h).queueEnd) (hc : InScreen d.x d.y) :
    g.Keeps h (g.setHdc h d) where
  others := fun j hj => by simp [Gfx.setHdc, hj]
  init := by simpa [Gfx.setHdc] using hinit
  queue := by simpa [Gfx.setHdc] using hq
  last := by simpa [Gfx.setHdc] using hend
  cursor := by simpa [Gfx.setHdc] using hc

/-- What running a command does. -/
structure Gfx.Performs (g : Gfx) (h : Fin 5) (c : Command) (g' : Gfx) : Prop where
  keeps : g.Keeps h g'
  pixMem : g'.pixMem = (c.stores h g).foldl Store.write g.pixMem
  dac : g'.dac = g.dac ++ c.ports
  pen : (g'.hdcObjects h).penIndex = c.penAfter (g.hdcObjects h).penIndex

/-- Painting is all that drawing does. -/
theorem Gfx.Performs.paint {c : Command} (hc : g.OnScreen h) (hports : c.ports = [])
    (hpen : ∀ pen, c.penAfter pen = pen) : g.Performs h c (g.paint (c.stores h g)) where
  keeps := .of_eq hc rfl
  pixMem := rfl
  dac := by rw [hports, List.append_nil]; rfl
  pen := (hpen _).symm

/-- `MovePos` to a point of the screen. -/
theorem MovePos_eq (g : Gfx) (x y : Int32) : MovePos (Int32.ofNat h) x y g =
    .ok (g.setHdc h { g.hdcObjects h with x := x, y := y }) := by
  simp only [MovePos, hdcAt_ofNat]
  rfl

theorem setHdc_pen {d : Hdc} : ((g.setHdc h d).hdcObjects h).penIndex = d.penIndex := by
  simp [Gfx.setHdc]

/-- **A capped command runs**, in its own slot. -/
theorem Command.perform_ok {c : Command} (hcap : c.Capped) (hc : g.OnScreen h) :
    ∃ g', c.perform h g = .ok g' ∧ g.Performs h c g' := by
  have hcur := InScreen.lt_max hc
  cases c with
  | pixel x y =>
      exact ⟨_, PixelSetterFunc_eq g x y, .paint (c := .pixel x y) hc rfl fun _ => rfl⟩
  | line x y =>
      have hmax := InScreen.lt_max hcap
      have hpaint : g.Keeps h (g.paint ((Command.line x y).stores h g)) := .of_eq hc rfl
      refine ⟨_, ?_, hpaint.trans (.setHdc (d := { g.hdcObjects h with x := x, y := y })
        rfl rfl rfl hcap), rfl, (List.append_nil _).symm, setHdc_pen⟩
      rw [perform, LineDraw_eq hcur.1 hcur.2 hmax.1 hmax.2]
      exact MovePos_eq _ x y
  | move x y =>
      exact ⟨_, MovePos_eq g x y, .setHdc rfl rfl rfl hcap, rfl, (List.append_nil _).symm,
        setHdc_pen⟩
  | declarePen index r green b => exact ⟨_, rfl, .of_eq hc rfl, rfl, rfl, rfl⟩
  | getPen index =>
      exact ⟨_, rfl, .setHdc rfl rfl rfl hc, rfl, (List.append_nil _).symm, setHdc_pen⟩
  | rect top left bottom right =>
      have hl := InScreen.lt_max hcap.1
      have hr := InScreen.lt_max hcap.2
      exact ⟨_, fillRows_eq bottom hr.2 hl.1 hr.1,
        .paint (c := .rect top left bottom right) hc rfl fun _ => rfl⟩

/-- A capped command stores on the screen. -/
theorem Command.mem_stores {c : Command} (hcap : c.Capped) (hc : g.OnScreen h) {s : Store}
    (hs : s ∈ c.stores h g) : InScreen s.x s.y := by
  cases c with
  | pixel x y =>
      obtain rfl := List.mem_singleton.mp hs
      exact hcap
  | line x y =>
      obtain ⟨p, hp, rfl⟩ := List.mem_map.mp hs
      exact mem_linePoints hc hcap hp
  | rect top left bottom right =>
      obtain ⟨p, hp, rfl⟩ := List.mem_map.mp hs
      exact mem_rectPoints hcap.1 hcap.2 hp
  | move x y => cases hs
  | declarePen index r green b => cases hs
  | getPen index => cases hs

/-! ### A queue of commands -/

/-- The entry of a queue stands for the command. -/
def Command.StoredIn (c : Command) (h : Fin 5) (cmd : CommandBuffer) : Prop :=
  Decodes cmd c.action (Int32.ofNat h :: c.values)

/-- **A stored command runs as it was queued.** -/
theorem Command.StoredIn.call {c : Command} {cmd : CommandBuffer} (hst : c.StoredIn h cmd)
    (g : Gfx) : c.action.call cmd.args g = c.perform h g := by
  have h0 := hst.args 0 _ rfl
  cases c with
  | pixel x y => exact PixelSetterFuncQueue_eq h0 (hst.args 1 _ rfl) (hst.args 2 _ rfl) g
  | line x y => exact LineDrawFunc_eq h0 (hst.args 1 _ rfl) (hst.args 2 _ rfl) g
  | move x y => exact MovePosFunc_eq h0 (hst.args 1 _ rfl) (hst.args 2 _ rfl) g
  | declarePen index r green b =>
      simp only [action, Action.call, DeclarePenFunc, hst.args 1 _ rfl, hst.args 2 _ rfl,
        hst.args 3 _ rfl, hst.args 4 _ rfl]
      rfl
  | getPen index =>
      simp only [action, Action.call, GetPenFunc, h0, hst.args 1 _ rfl, bind, Except.bind,
        hdcAt_ofNat]
      rfl
  | rect top left bottom right =>
      exact DrawRect_eq h0 (hst.args 1 _ rfl) (hst.args 2 _ rfl) (hst.args 3 _ rfl)
        (hst.args 4 _ rfl) g

/-- The slot `d` of handle `h` has queued the commands `cs`. -/
structure Hdc.Holds (d : Hdc) (h : Fin 5) (cs : List Command) : Prop where
  fits : cs.length ≤ 50
  last : d.queueEnd = Int32.ofNat cs.length
  entry : ∀ (k : Fin 50) (c : Command), cs[k.1]? = some c → c.StoredIn h (d.commandQueue k)
  capped : ∀ c ∈ cs, c.Capped

theorem Hdc.Holds.nil {d : Hdc} (hend : d.queueEnd = 0) : d.Holds h [] where
  fits := Nat.zero_le _
  last := hend
  entry := fun k c hc => by simp at hc
  capped := fun c hc => by cases hc

theorem Hdc.Holds.congr {d d' : Hdc} {cs : List Command} (hd : d.Holds h cs)
    (hq : d'.commandQueue = d.commandQueue) (hend : d'.queueEnd = d.queueEnd) : d'.Holds h cs where
  fits := hd.fits
  last := hend.trans hd.last
  entry := by rw [hq]; exact hd.entry
  capped := hd.capped

theorem Hdc.Holds.keeps {cs : List Command} (hd : (g.hdcObjects h).Holds h cs)
    (hk : g.Keeps h g') : (g'.hdcObjects h).Holds h cs :=
  hd.congr hk.queue hk.last

/-- One more command. -/
theorem Hdc.Holds.snoc {d : Hdc} {cs : List Command} {entry : CommandBuffer} {c : Command}
    (hd : d.Holds h cs) (hroom : cs.length < 50) (hst : c.StoredIn h entry) (hcap : c.Capped) :
    Hdc.Holds { d with
      commandQueue := Function.update d.commandQueue ⟨cs.length, hroom⟩ entry
      queueEnd := Int32.ofNat (cs.length + 1) } h (cs ++ [c]) where
  fits := by rw [List.length_append]; exact hroom
  last := by rw [List.length_append]; rfl
  entry := fun k c' hc' => by
    show c'.StoredIn h (Function.update d.commandQueue ⟨cs.length, hroom⟩ entry k)
    rcases Nat.lt_trichotomy k.1 cs.length with hk | hk | hk
    · rw [List.getElem?_append_left hk] at hc'
      rw [Function.update_of_ne (by rintro rfl; exact absurd hk (lt_irrefl _))]
      exact hd.entry k c' hc'
    · obtain rfl : k = ⟨cs.length, hroom⟩ := Fin.ext hk
      obtain rfl : c = c' := by simpa using hc'
      rw [Function.update_self]
      exact hst
    · rw [List.getElem?_eq_none (by simp; omega)] at hc'
      cases hc'
  capped := fun c' hc' => by
    rcases List.mem_append.mp hc' with hc' | hc'
    · exact hd.capped c' hc'
    · obtain rfl := List.mem_singleton.mp hc'
      exact hcap

theorem Command.performAll_cons (c : Command) (cs : List Command) (g : Gfx) :
    performAll h (c :: cs) g = (c.perform h g).bind (performAll h cs) := rfl

/-- What running a list of commands does. -/
theorem Command.performAll_ok (cs : List Command) : ∀ g : Gfx, (∀ c ∈ cs, c.Capped) →
    g.OnScreen h → ∃ g', performAll h cs g = .ok g' ∧ g.Keeps h g' ∧
      g'.dac = g.dac ++ cs.flatMap ports ∧
      (g'.hdcObjects h).penIndex = cs.foldl (fun pen c => c.penAfter pen)
        (g.hdcObjects h).penIndex := by
  induction cs with
  | nil => exact fun g _ hc => ⟨g, rfl, .of_eq hc rfl, (List.append_nil _).symm, rfl⟩
  | cons c cs ih =>
      intro g hcap hc
      obtain ⟨g₁, hg₁, hp⟩ := perform_ok (hcap c (by simp)) hc
      obtain ⟨g₂, hg₂, hk₂, hdac₂, hpen₂⟩ := ih g₁ (fun c hc => hcap c (by simp [hc])) hp.keeps.cursor
      refine ⟨g₂, ?_, hp.keeps.trans hk₂, ?_, ?_⟩
      · rw [performAll_cons, hg₁]
        exact hg₂
      · rw [hdac₂, hp.dac, List.flatMap_cons, List.append_assoc]
      · rw [hpen₂, hp.pen, List.foldl_cons]

/-- The loop of `endpaint` from entry `i`. -/
theorem execQueue_from {cs : List Command} (fuel : ℕ) :
    ∀ (i : ℕ) (g : Gfx), i ≤ cs.length → cs.length - i < fuel →
      (g.hdcObjects h).Holds h cs → g.OnScreen h →
      Gfx.execQueue (Int32.ofNat h) fuel (Int32.ofNat i) g =
        Command.performAll h (cs.drop i) g := by
  induction fuel with
  | zero => exact fun i g _ hf => absurd hf (Nat.not_lt_zero _)
  | succ fuel ih =>
      intro i g hi hf hd hc
      have hfits := hd.fits
      rcases Nat.eq_or_lt_of_le hi with rfl | hlt
      · simp only [Gfx.execQueue, hdcAt_ofNat, bind, Except.bind, hd.last, if_neg Int32.lt_irrefl,
          List.drop_length]
        rfl
      · have hi50 : i < 50 := by omega
        have hlt' : Int32.ofNat i < Int32.ofNat cs.length :=
          (Int32.ofNat_lt_iff_lt (by omega) (by omega)).mpr hlt
        have hst := hd.entry ⟨i, hi50⟩ cs[i] (List.getElem?_eq_getElem hlt)
        obtain ⟨g₁, hg₁, hp⟩ := Command.perform_ok (hd.capped _ (List.getElem_mem hlt)) hc
        have hrest := ih (i + 1) g₁ hlt (by omega) (hd.keeps hp.keeps) hp.keeps.cursor
        rw [Int32.ofNat_add] at hrest
        simp only [Gfx.execQueue, hdcAt_ofNat, bind, Except.bind, hd.last, if_pos hlt',
          index_ofNat _ hi50 (by decide : 50 ≤ 2 ^ 31), hst.action, hst.call, hg₁]
        rw [List.drop_eq_getElem_cons hlt, Command.performAll_cons, hg₁]
        exact hrest

/-- **`endpaint` runs the queue**: the commands it holds, each once and in order. -/
theorem execQueue_eq_performAll {cs : List Command} (hd : (g.hdcObjects h).Holds h cs)
    (hc : g.OnScreen h) :
    Gfx.execQueue (Int32.ofNat h) 51 0 g = Command.performAll h cs g := by
  have hfits := hd.fits
  exact execQueue_from 51 0 g (Nat.zero_le _) (by omega) hd hc

end

/-! ### What a call does -/

namespace Gfx

/-- The command a call queues. -/
def Call.command : Call → Option Command
  | .writeQueue _ opType set _ => Command.ofOp opType set
  | .setpixel .. | .moveto .. | .lineto .. | .selectpen .. | .fillrect .. | .beginpaint _
  | .endpaint .. | .getHDC _ => none

/-- The call names no handle but one of the five, and does not find its temporary
`commandBuffer` looking filled. -/
def Call.Proper (c : Call) : Prop :=
  (∀ i, c.handle = some i → Valid i) ∧
    ∀ hdc opType set junk, c = .writeQueue hdc opType set junk → junk.commandItemTemp.buffset ≠ 1

/-- The cursors are on the screen, and slot `h` has queued `Q h`. -/
structure Ready (g : Gfx) (Q : Fin 5 → List Command) : Prop where
  cursor : ∀ h, g.OnScreen h
  queue : ∀ h, (g.hdcObjects h).Holds h (Q h)

/-- What `endpaint` runs before it releases the slot. -/
def ran (g : Gfx) (h : Fin 5) (executeQueue : Int32) (cs : List Command) : Except Fault Gfx :=
  if executeQueue = 1 then Command.performAll h cs g else .ok g

/-- What a call does to the slots and to the lists of queued commands. -/
inductive Effect (g : Gfx) (Q : Fin 5 → List Command) :
    Call → Int32 → Gfx → (Fin 5 → List Command) → Prop where
  /-- drawing, and calls that change nothing -/
  | draw {c : Call} {h : Fin 5} {r : Int32} {g' : Gfx} (handle : c.handle = some (Int32.ofNat h))
      (command : c.command = none) (keeps : g.Keeps h g') (dac : g'.dac = g.dac) :
      Effect g Q c r g' Q
  | queue {c : Call} {h : Fin 5} {cmd : Command} {queue : Fin 50 → CommandBuffer}
      (handle : c.handle = some (Int32.ofNat h)) (command : c.command = some cmd)
      (room : (Q h).length < 50)
      (holds : ((g.withQueue h queue ((Q h).length + 1)).hdcObjects h).Holds h (Q h ++ [cmd])) :
      Effect g Q c 1 (g.withQueue h queue ((Q h).length + 1))
        (Function.update Q h (Q h ++ [cmd]))
  | begin {h : Fin 5} {queue : Fin 50 → CommandBuffer} (free : (g.hdcObjects h).init = 0) :
      Effect g Q (.beginpaint queue) (Int32.ofNat h) (g.setHdc h ⟨1, 0, 0, 15, queue, 0⟩)
        (Function.update Q h [])
  | full {queue : Fin 50 → CommandBuffer} (taken : ∀ h, (g.hdcObjects h).init ≠ 0) :
      Effect g Q (.beginpaint queue) (-1) g Q
  | release {h : Fin 5} {executeQueue : Int32} {queue : Fin 50 → CommandBuffer} {g₁ : Gfx}
      (init : (g.hdcObjects h).init = 1) (run : g.ran h executeQueue (Q h) = .ok g₁)
      (keeps : g.Keeps h g₁) :
      Effect g Q (.endpaint (Int32.ofNat h) executeQueue queue) 0
        (g₁.setHdc h ⟨0, 0, 0, 15, queue, 0⟩) (Function.update Q h [])
  /-- the queue is run, and the slot was not taken -/
  | untaken {h : Fin 5} {executeQueue : Int32} {queue : Fin 50 → CommandBuffer} {g₁ : Gfx}
      (init : (g.hdcObjects h).init ≠ 1) (run : g.ran h executeQueue (Q h) = .ok g₁)
      (keeps : g.Keeps h g₁) :
      Effect g Q (.endpaint (Int32.ofNat h) executeQueue queue) (-1) g₁ Q

variable {g g' : Gfx} {Q Q' : Fin 5 → List Command} {c : Call} {h : Fin 5} {r : Int32}

/-- The drawing calls perform a command with their arguments capped. -/
theorem Effect.of_perform (cmd : Command) (hg : g.Ready Q) (hcap : cmd.Capped)
    (hports : cmd.ports = []) (handle : c.handle = some (Int32.ofNat h))
    (hcmd : c.command = none) (hcall : g.call c = (cmd.perform h g).map fun g => (0, g)) :
    ∃ r g' Q', g.call c = .ok (r, g') ∧ Effect g Q c r g' Q' := by
  obtain ⟨g', hg', hp⟩ := Command.perform_ok hcap (hg.cursor h)
  refine ⟨0, g', Q, by rw [hcall, hg']; rfl, .draw handle hcmd hp.keeps ?_⟩
  rw [hp.dac, hports, List.append_nil]

theorem Effect.of_same (hg : g.Ready Q) (handle : c.handle = some (Int32.ofNat h))
    (hcmd : c.command = none) (hcall : g.call c = .ok (r, g)) :
    ∃ r g' Q', g.call c = .ok (r, g') ∧ Effect g Q c r g' Q' :=
  ⟨r, g, Q, hcall, .draw handle hcmd (.of_eq (hg.cursor h) rfl) rfl⟩

/-- `lineto` performs its command. -/
theorem lineto_eq (nx ny : Int32) (g : Gfx) : g.sys_lineto (Int32.ofNat h) nx ny =
    ((Command.line (ValueCapper nx 319) (ValueCapper ny 199)).perform h g).map
      fun g => (0, g) := by
  simp only [sys_lineto, if_neg (not_neg h), hdcAt_ofNat, bind, Except.bind, Command.perform]
  cases LineDraw (g.hdcObjects h).x (g.hdcObjects h).y (ValueCapper nx 319) (ValueCapper ny 199)
    (Int32.ofNat h) g with
  | error e => rfl
  | ok g₁ =>
      simp only
      rw [MovePos_eq]
      rfl

/-- How `writeQueue` stores a command. -/
theorem writeQueue_eq {opType : Int32} {set : ArgsSet} {cmd : Command}
    (hop : Command.ofOp opType set = some cmd) : ∃ args : List CStr,
    List.Forall₂ Numeral args cmd.values ∧ ∀ (hdc : Int32) (junk : Junk) (g : Gfx),
      g.sys_writeQueue hdc opType set junk =
        (appendCommand cmd.action args junk hdc g).map fun g => (1, g) := by
  have hpair : ∀ ps : List (CStr × Int32), (∀ p ∈ ps, 0 ≤ p.2 ∧ p.2 < 1000) →
      List.Forall₂ Numeral (ps.map fun p => capped p.1 p.2)
        (ps.map fun p => ValueCapperChar p.1 p.2) := fun ps hps => (capped_args ps hps).1
  unfold Command.ofOp at hop
  repeat' split at hop
  all_goals subst_vars; cases hop
  · exact ⟨_, hpair [(set.arg0, 319), (set.arg1, 199)] (by simp), fun _ _ _ => bind_return 1⟩
  · exact ⟨_, hpair [(set.arg0, 319), (set.arg1, 199)] (by simp), fun _ _ _ => bind_return 1⟩
  · exact ⟨_, hpair [(set.arg0, 319), (set.arg1, 199)] (by simp), fun _ _ _ => bind_return 1⟩
  · exact ⟨_, hpair [(set.arg0, 50), (set.arg1, 63), (set.arg2, 63), (set.arg3, 63)] (by simp),
      fun _ _ _ => bind_return 1⟩
  · exact ⟨_, hpair [(set.arg0, 50)] (by simp), fun _ _ _ => bind_return 1⟩
  · exact ⟨_, hpair [(set.arg0, 199), (set.arg3, 319), (set.arg1, 199), (set.arg2, 319)] (by simp),
      fun _ _ _ => bind_return 1⟩

theorem queues_of_ofOp {opType : Int32} {set : ArgsSet} (h : queues opType) :
    Command.ofOp opType set ≠ none := by
  rcases queues_cases h with rfl | rfl | rfl | rfl | rfl | rfl <;> exact Option.some_ne_none _

/-- A command for a queue with room. -/
theorem writeQueue_stores {opType : Int32} {set : ArgsSet} {junk : Junk} {cmd : Command}
    {cs : List Command} (hd : (g.hdcObjects h).Holds h cs)
    (hop : Command.ofOp opType set = some cmd) (hset : junk.commandItemTemp.buffset ≠ 1)
    (hroom : cs.length < 50) :
    ∃ queue, g.call (.writeQueue (Int32.ofNat h) opType set junk) =
        .ok (1, g.withQueue h queue (cs.length + 1)) ∧
      ((g.withQueue h queue (cs.length + 1)).hdcObjects h).Holds h (cs ++ [cmd]) := by
  obtain ⟨args, hnum, hcall⟩ := writeQueue_eq hop
  obtain ⟨entry, hentry, hdec⟩ := appendCommand_spec cmd.action hset
    (hnum.length_eq ▸ cmd.values_length) hnum hd.last hroom
  have hholds := hd.snoc hroom hdec (Command.capped_ofOp hop)
  refine ⟨_, (hcall _ _ _).trans (by rw [hentry]; rfl), ?_⟩
  simpa only [withQueue, setHdc, Function.update_self] using hholds

/-- A command for a queue without. -/
theorem writeQueue_overflows {opType : Int32} {set : ArgsSet} {junk : Junk} {cmd : Command}
    (hop : Command.ofOp opType set = some cmd) (hset : junk.commandItemTemp.buffset ≠ 1)
    (hend : (g.hdcObjects h).queueEnd = 50) :
    g.call (.writeQueue (Int32.ofNat h) opType set junk) = .error (.queueIndex 50) := by
  obtain ⟨args, hnum, hcall⟩ := writeQueue_eq hop
  refine (hcall _ _ _).trans ?_
  rw [appendCommand_full hset (hnum.length_eq ▸ cmd.values_length) hnum hend]
  rfl

/-- `endpaint`, in terms of the commands queued. -/
theorem endpaint_effect (hg : g.Ready Q) (executeQueue : Int32) (queue : Fin 50 → CommandBuffer) :
    ∃ g₁, g.ran h executeQueue (Q h) = .ok g₁ ∧ g.Keeps h g₁ ∧
      g.sys_endpaint (Int32.ofNat h) executeQueue queue =
        .ok (if (g.hdcObjects h).init = 1 then (0, g₁.setHdc h ⟨0, 0, 0, 15, queue, 0⟩)
          else (-1, g₁)) := by
  obtain ⟨g₁, hrun, hk⟩ : ∃ g₁, g.ran h executeQueue (Q h) = .ok g₁ ∧ g.Keeps h g₁ := by
    rw [ran]
    split
    · obtain ⟨g₁, hrun, hk, -⟩ := Command.performAll_ok (Q h) g (hg.queue h).capped (hg.cursor h)
      exact ⟨g₁, hrun, hk⟩
    · exact ⟨g, rfl, .of_eq (hg.cursor h) rfl⟩
  refine ⟨g₁, hrun, hk, ?_⟩
  rw [endpaint_eq, execQueue_eq_performAll (hg.queue h) (hg.cursor h), ← ran, hrun, Except.map,
    hk.init]

/-- **What a call does.**  A proper call returns with one of the effects, unless it queues a
command on a handle that has 50 already. -/
theorem call_effect (hg : g.Ready Q) (hp : c.Proper) :
    (∃ r g' Q', g.call c = .ok (r, g') ∧ Effect g Q c r g' Q') ∨
      g.call c = .error (.queueIndex 50) ∧ ∃ h : Fin 5, c.handle = some (Int32.ofNat h) ∧
        c.command ≠ none ∧ (Q h).length = 50 := by
  -- One case per call; only the fifty-first command in a queue does not return.
  cases c with
  | setpixel hdc x y =>
      obtain ⟨h, rfl⟩ := hdcAt_of_valid (hp.1 hdc rfl)
      refine Or.inl (Effect.of_perform (h := h) (.pixel _ _) hg (.capped x y) rfl rfl rfl ?_)
      simp only [Gfx.call, sys_setpixel, if_neg (not_neg h)]
      exact bind_return 0
  | moveto hdc x y =>
      obtain ⟨h, rfl⟩ := hdcAt_of_valid (hp.1 hdc rfl)
      refine Or.inl (Effect.of_perform (h := h) (.move _ _) hg (.capped x y) rfl rfl rfl ?_)
      simp only [Gfx.call, sys_moveto, if_neg (not_neg h)]
      exact bind_return 0
  | lineto hdc nx ny =>
      obtain ⟨h, rfl⟩ := hdcAt_of_valid (hp.1 hdc rfl)
      refine Or.inl (Effect.of_perform (h := h) (.line _ _) hg (.capped nx ny) rfl rfl rfl ?_)
      exact lineto_eq nx ny g
  | selectpen hdc index =>
      obtain ⟨h, rfl⟩ := hdcAt_of_valid (hp.1 hdc rfl)
      by_cases hidx : index > 255
      · refine Or.inl (Effect.of_same (h := h) (r := -1) hg rfl rfl ?_)
        simp only [Gfx.call, sys_selectpen, if_neg (not_neg h), if_pos hidx]
      · refine Or.inl ⟨0, g.setHdc h { g.hdcObjects h with penIndex := index }, Q, ?_,
          .draw (h := h) rfl rfl (.setHdc rfl rfl rfl (hg.cursor h)) rfl⟩
        simp only [Gfx.call, sys_selectpen, if_neg (not_neg h), if_neg hidx, hdcAt_ofNat]
        rfl
  | fillrect hdc rect =>
      obtain ⟨h, rfl⟩ := hdcAt_of_valid (hp.1 hdc rfl)
      refine Or.inl (Effect.of_perform (h := h) (.rect _ _ _ _) hg
        ⟨.capped rect.left rect.bottom, .capped rect.right rect.top⟩ rfl rfl rfl ?_)
      simp only [Gfx.call, sys_fillrect, if_neg (not_neg h)]
      exact bind_return 0
  | beginpaint queue =>
      left
      simp only [Gfx.call, sys_beginpaint]
      cases hfind : (List.finRange 5).find? fun i => (g.hdcObjects i).init = 0 with
      | none =>
          refine ⟨-1, g, Q, rfl, .full fun h => ?_⟩
          simpa using List.find?_eq_none.mp hfind h (List.mem_finRange h)
      | some h => exact ⟨_, _, _, rfl, .begin (by simpa using List.find?_some hfind)⟩
  | endpaint hdc executeQueue queue =>
      obtain ⟨h, rfl⟩ := hdcAt_of_valid (hp.1 hdc rfl)
      obtain ⟨g₁, hrun, hk, hend⟩ := endpaint_effect (h := h) hg executeQueue queue
      left
      by_cases hinit : (g.hdcObjects h).init = 1
      · rw [if_pos hinit] at hend
        exact ⟨_, _, _, hend, .release hinit hrun hk⟩
      · rw [if_neg hinit] at hend
        exact ⟨_, _, _, hend, .untaken hinit hrun hk⟩
  | getHDC hdc =>
      obtain ⟨h, rfl⟩ := hdcAt_of_valid (hp.1 hdc rfl)
      have hout : ¬ (Int32.ofNat h > 5 ∨ Int32.ofNat h < 0) :=
        (show ∀ h : Fin 5, ¬ (Int32.ofNat h > 5 ∨ Int32.ofNat h < 0) by decide) h
      left
      by_cases hinit : (g.hdcObjects h).init = 1
      · refine Effect.of_same (h := h) (r := 0) hg rfl rfl ?_
        simp only [Gfx.call, sys_getHDC, if_neg hout, hdcAt_ofNat, bind, Except.bind, if_pos hinit]
        rfl
      · refine Effect.of_same (h := h) (r := -1) hg rfl rfl ?_
        simp only [Gfx.call, sys_getHDC, if_neg hout, hdcAt_ofNat, bind, Except.bind, if_neg hinit]
        rfl
  | writeQueue hdc opType set junk =>
      obtain ⟨h, rfl⟩ := hdcAt_of_valid (hp.1 hdc rfl)
      have hset := hp.2 _ _ _ _ rfl
      cases hop : Command.ofOp opType set with
      | none =>
          have hnot : ¬ queues opType := fun hq => queues_of_ofOp hq hop
          exact Or.inl (Effect.of_same (h := h) hg rfl hop (writeQueue_other hnot _ _ _ _))
      | some cmd =>
          rcases Nat.eq_or_lt_of_le (hg.queue h).fits with hfull | hroom
          · have hend : (g.hdcObjects h).queueEnd = 50 := by rw [(hg.queue h).last, hfull]; rfl
            refine Or.inr ⟨writeQueue_overflows hop hset hend, h, rfl, ?_, hfull⟩
            rw [Call.command, hop]
            exact Option.some_ne_none _
          · obtain ⟨queue, hcall, hholds⟩ := writeQueue_stores (hg.queue h) hop hset hroom
            exact Or.inl ⟨1, _, _, hcall, .queue (h := h) rfl hop hroom hholds⟩

/-- **The effects keep the slots ready.** -/
theorem Effect.ready (he : Effect g Q c r g' Q') (hg : g.Ready Q) : g'.Ready Q' := by
  have hslot : ∀ (g₁ : Gfx) (h : Fin 5) (d : Hdc) (cs : List Command),
      (∀ j, j ≠ h → g₁.hdcObjects j = g.hdcObjects j) → InScreen d.x d.y → d.Holds h cs →
      (g₁.setHdc h d).Ready (Function.update Q h cs) := by
    intro g₁ h d cs hothers hc hd
    constructor
    · intro j
      by_cases hj : j = h
      · subst hj; simpa [OnScreen, setHdc] using hc
      · simpa [OnScreen, setHdc, hj, hothers j hj] using hg.cursor j
    · intro j
      by_cases hj : j = h
      · subst hj; simpa [setHdc] using hd
      · simpa [setHdc, hj, hothers j hj] using hg.queue j
  have hkeeps : ∀ (g₁ : Gfx) (h : Fin 5), g.Keeps h g₁ → g₁.Ready Q := by
    intro g₁ h hk
    constructor
    · intro j
      by_cases hj : j = h
      · subst hj; exact hk.cursor
      · rw [OnScreen, hk.others j hj]; exact hg.cursor j
    · intro j
      by_cases hj : j = h
      · subst hj; exact (hg.queue j).keeps hk
      · rw [hk.others j hj]; exact hg.queue j
  have hzero : InScreen 0 0 := by decide
  cases he with
  | draw handle command keeps dac => exact hkeeps _ _ keeps
  | @queue _ h cmd queue handle command room holds =>
      refine hslot g h _ _ (fun _ _ => rfl) (hg.cursor h) ?_
      simpa only [withQueue, setHdc, Function.update_self] using holds
  | begin free => exact hslot g _ _ _ (fun _ _ => rfl) hzero (.nil rfl)
  | full taken => exact hg
  | release init run keeps => exact hslot _ _ _ _ keeps.others hzero (.nil rfl)
  | untaken init run keeps => exact hkeeps _ _ keeps

theorem boot_ready (pixMem : UInt16 → UInt8) : (boot pixMem).Ready fun _ => [] where
  cursor := fun _ => show InScreen 0 0 by decide
  queue := fun _ => .nil rfl

/-- **Isolation.** -/
theorem Effect.isolated (he : Effect g Q c r g' Q') (handle : c.handle = some (Int32.ofNat h))
    {j : Fin 5} (hj : j ≠ h) : g'.hdcObjects j = g.hdcObjects j := by
  have hinj : ∀ {k : Fin 5}, some (Int32.ofNat k) = some (Int32.ofNat h) → k = h := fun {k} hk =>
    (show ∀ k h : Fin 5, Int32.ofNat k = Int32.ofNat h → k = h by decide) k h (Option.some.inj hk)
  cases he with
  | draw handle' command keeps dac =>
      obtain rfl := hinj (handle'.symm.trans handle)
      exact keeps.others j hj
  | queue handle' command room holds =>
      obtain rfl := hinj (handle'.symm.trans handle)
      simp [withQueue, setHdc, hj]
  | begin free => cases handle
  | full taken => cases handle
  | release init run keeps =>
      obtain rfl := hinj handle
      simpa [setHdc, hj] using keeps.others j hj
  | untaken init run keeps =>
      obtain rfl := hinj handle
      exact keeps.others j hj

end Gfx

end Xv6
