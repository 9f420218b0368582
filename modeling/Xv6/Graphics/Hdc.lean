import Xv6.Lib.Loop
import Xv6.Graphics.Text

/-!
# Graphics — device contexts, drawing and the command queue

`hdc.h`, `graphicsQueueables.c` and the system calls of `graphics.c`: the five device contexts
with their command queues, the frame buffer, the drawing functions, the queued actions, the
`Append` functions and the calls themselves.

An index outside an array, a call through a function pointer that was never set, a string that
does not end and a loop that does not end are a `Fault`: the C program goes on in memory the
model does not have, or not at all.  What the source leaves uninitialised (the command queue of
the `struct hdc` that `beginpaint` and `endpaint` store, the `commandBuffer` and the `argVal` the
`Append` functions fill) is a parameter.

The strings that are queued are values here.  In memory the `Append` functions print over each of
them in turn before they copy the first; for strings that lie apart, as `Painter`'s do, that is the
same, and the modules on user memory show it.
-/

namespace Xv6

open Lib

/-- Where the source would read or write outside an array. -/
inductive Fault where
  /-- `hdcObjects[i]`, with `i` outside `0..4` -/
  | hdcIndex (i : Int32)
  /-- `commandQueue[i]`, with `i` outside `0..49` -/
  | queueIndex (i : Int32)
  /-- `args[i]`, with `i` outside `0..19` -/
  | argIndex (i : Int32)
  /-- a call through a `queuedAction` that was never set -/
  | noAction
  /-- an `argumentVal` without a NUL -/
  | unterminated
  /-- a loop that never ends -/
  | diverges
  deriving DecidableEq, Repr

/-- `struct argVal`: `char argumentVal[100]`. -/
abbrev ArgVal := Bytes 100

/-- The functions that `queuedAction` is set to. -/
inductive Action where
  | PixelSetterFuncQueue
  | LineDrawFunc
  | MovePosFunc
  | DeclarePenFunc
  | GetPenFunc
  | DrawRect
  deriving DecidableEq, Repr

instance neZeroArgs : NeZero 20 := ⟨by decide⟩
instance neZeroQueue : NeZero 50 := ⟨by decide⟩
instance neZeroHdcs : NeZero 5 := ⟨by decide⟩

/-- `struct commandBuffer`: a queued command with its arguments. -/
structure CommandBuffer where
  /-- `none` where the pointer was never set -/
  queuedAction : Option Action
  args : Fin 20 → ArgVal
  lastArgSet : Int32
  buffset : Int32

/-- `struct hdc`: a device context, with its cursor, its pen and its queue. -/
structure Hdc where
  init : Int32
  x : Int32
  y : Int32
  penIndex : Int32
  commandQueue : Fin 50 → CommandBuffer
  queueEnd : Int32

/-- `hdcVals`, the video memory at `0xA0000`, and the bytes sent to the palette ports. -/
structure Gfx where
  hdcObjects : Fin 5 → Hdc
  pixMem : UInt16 → UInt8
  dac : List (UInt16 × UInt8)

/-- `struct rect`. -/
structure Rect where
  top : Int32
  left : Int32
  bottom : Int32
  right : Int32

/-- `hdcVals = {}`. -/
def CommandBuffer.zero : CommandBuffer := ⟨none, fun _ _ => 0, 0, 0⟩

/-- A device context before anything has used it. -/
def Hdc.zero : Hdc := ⟨0, 0, 0, 0, fun _ => .zero, 0⟩

/-- At boot no context is taken and the screen holds what it held. -/
def Gfx.boot (pixMem : UInt16 → UInt8) : Gfx := ⟨fun _ => .zero, pixMem, []⟩

/-! ### Array accesses -/

/-- The element a C array access `a[i]` of a length-`n` array names. -/
def index (n : ℕ) (fault : Int32 → Fault) (i : Int32) : Except Fault (Fin n) :=
  if h : 0 ≤ i ∧ i.toNatClampNeg < n then .ok ⟨i.toNatClampNeg, h.2⟩ else .error (fault i)

/-- `&hdcObjects[i]`. -/
def hdcAt (i : Int32) : Except Fault (Fin 5) := index 5 .hdcIndex i

/-- One context changes. -/
def Gfx.setHdc (g : Gfx) (i : Fin 5) (d : Hdc) : Gfx :=
  { g with hdcObjects := Function.update g.hdcObjects i d }

/-- The string in an `argVal`. -/
def cstr (a : ArgVal) : Except Fault CStr :=
  let bytes := List.ofFn a
  if 0 ∈ bytes then .ok (bytes.takeWhile (· ≠ 0)) else .error .unterminated

/-- `ParseInt(cmdArgs[k].argumentVal)`. -/
def readArg (cmdArgs : Fin 20 → ArgVal) (k : Fin 20) : Except Fault Int32 := do
  let s ← cstr (cmdArgs k)
  return ParseInt s

/-! ### Drawing -/

/-- `ushort offset = (320 * y) + x`. -/
def offset (x y : Int32) : UInt16 := (320 * y + x).toInt16.toUInt16

/-- A pixel in the pen of the context. -/
def PixelSetterFunc (hdc x y : Int32) (g : Gfx) : Except Fault Gfx := do
  let i ← hdcAt hdc
  return { g with
    pixMem := Function.update g.pixMem (offset x y) (g.hdcObjects i).penIndex.toInt8.toUInt8 }

/-- The cursor of the context moves. -/
def MovePos (hdc x y : Int32) (g : Gfx) : Except Fault Gfx := do
  let i ← hdcAt hdc
  return g.setHdc i { g.hdcObjects i with x := x, y := y }

/-- `for (int i = lo; i <= hi; i++)`. -/
def cFor {σ : Type} (lo hi : Int32) (body : Int32 → σ → Except Fault σ) (s : σ) : Except Fault σ :=
  forLE .diverges lo hi body s

/-- One pass of Bresenham's algorithm: the other coordinate, the error term, the picture. -/
def plotStep (plot : Int32 → Int32 → Gfx → Except Fault Gfx) (direc aInc bInc curA : Int32)
    (s : Int32 × Int32 × Gfx) : Except Fault (Int32 × Int32 × Gfx) := do
  let (curB, D, g) := s
  let g ← plot curA curB g
  let (curB, D) := if D ≥ 0 then (curB + direc, D - 2 * aInc) else (curB, D)
  return (curB, D + 2 * bInc, g)

/-- Bresenham's algorithm along the first coordinate, from `a0` to `a1`. -/
def incPlotter (plot : Int32 → Int32 → Gfx → Except Fault Gfx) (a0 b0 a1 b1 : Int32) (g : Gfx) :
    Except Fault Gfx := do
  let aInc := SimpleAbs (a1 - a0)
  let bInc := SimpleAbs (b1 - b0)
  let direc : Int32 := if b0 > b1 then -1 else 1
  let (_, _, g) ← cFor a0 a1 (plotStep plot direc aInc bInc) (b0, 2 * bInc - aInc, g)
  return g

/-- The line of a small slope: one pixel for each `x`. -/
def XIncPlotter (x0 y0 x1 y1 hdc : Int32) : Gfx → Except Fault Gfx :=
  incPlotter (fun x y => PixelSetterFunc hdc x y) x0 y0 x1 y1

/-- The line of a large slope: one pixel for each `y`. -/
def YIncPlotter (x0 y0 x1 y1 hdc : Int32) : Gfx → Except Fault Gfx :=
  incPlotter (fun y x => PixelSetterFunc hdc x y) y0 x0 y1 x1

/-- The line is plotted along the axis of the larger difference, from its lower end. -/
def LineDraw (x0 y0 x1 y1 hdc : Int32) (g : Gfx) : Except Fault Gfx :=
  let xDif := x1 - x0
  let yDif := y1 - y0
  if SimpleAbs yDif < SimpleAbs xDif then
    if xDif ≤ 0 then XIncPlotter x1 y1 x0 y0 hdc g else XIncPlotter x0 y0 x1 y1 hdc g
  else
    if yDif ≤ 0 then YIncPlotter x1 y1 x0 y0 hdc g else YIncPlotter x0 y0 x1 y1 hdc g

/-! ### Queued actions -/

/-- The queued `setpixel`, on the arguments as they were stored. -/
def PixelSetterFuncQueue (cmdArgs : Fin 20 → ArgVal) (g : Gfx) : Except Fault Gfx := do
  let hdc ← readArg cmdArgs 0
  let x ← readArg cmdArgs 1
  let y ← readArg cmdArgs 2
  let i ← hdcAt hdc
  return { g with
    pixMem := Function.update g.pixMem (offset x y) (g.hdcObjects i).penIndex.toInt8.toUInt8 }

/-- The queued `lineto`: the line starts where the cursor is when the queue runs. -/
def LineDrawFunc (cmdArgs : Fin 20 → ArgVal) (g : Gfx) : Except Fault Gfx := do
  let hdc ← readArg cmdArgs 0
  let i ← hdcAt hdc
  let x0 := (g.hdcObjects i).x
  let y0 := (g.hdcObjects i).y
  let x1 ← readArg cmdArgs 1
  let y1 ← readArg cmdArgs 2
  let xDif := x1 - x0
  let yDif := y1 - y0
  let g ← if SimpleAbs yDif < SimpleAbs xDif then
      if xDif ≤ 0 then XIncPlotter x1 y1 x0 y0 hdc g else XIncPlotter x0 y0 x1 y1 hdc g
    else
      if yDif ≤ 0 then YIncPlotter x1 y1 x0 y0 hdc g else YIncPlotter x0 y0 x1 y1 hdc g
  MovePos hdc x1 y1 g

/-- The queued `moveto`. -/
def MovePosFunc (cmdArgs : Fin 20 → ArgVal) (g : Gfx) : Except Fault Gfx := do
  let hdc ← readArg cmdArgs 0
  let x ← readArg cmdArgs 1
  let y ← readArg cmdArgs 2
  let i ← hdcAt hdc
  return g.setHdc i { g.hdcObjects i with x := x, y := y }

/-- `outb` of the index to `0x3C8` and of the colours to `0x3C9`. -/
def DeclarePenFunc (cmdArgs : Fin 20 → ArgVal) (g : Gfx) : Except Fault Gfx := do
  let index ← readArg cmdArgs 1
  let r ← readArg cmdArgs 2
  let green ← readArg cmdArgs 3
  let b ← readArg cmdArgs 4
  return { g with
    dac := g.dac ++ [(0x3C8, index.toInt8.toUInt8), (0x3C9, r.toInt8.toUInt8),
      (0x3C9, green.toInt8.toUInt8), (0x3C9, b.toInt8.toUInt8)] }

/-- The queued `selectpen`. -/
def GetPenFunc (cmdArgs : Fin 20 → ArgVal) (g : Gfx) : Except Fault Gfx := do
  let hdc ← readArg cmdArgs 0
  let index ← readArg cmdArgs 1
  let i ← hdcAt hdc
  return g.setHdc i { g.hdcObjects i with penIndex := index }

/-- The rows of a rectangle, from `bottom` to `top`. -/
def fillRows (top left bottom right hdc : Int32) (g : Gfx) : Except Fault Gfx :=
  cFor bottom top (fun y g => LineDraw left y right y hdc g) g

/-- The queued `fillrect`, with the arguments in the order of `struct rect`. -/
def DrawRect (cmdArgs : Fin 20 → ArgVal) (g : Gfx) : Except Fault Gfx := do
  let hdc ← readArg cmdArgs 0
  let top ← readArg cmdArgs 1
  let left ← readArg cmdArgs 2
  let bottom ← readArg cmdArgs 3
  let right ← readArg cmdArgs 4
  fillRows top left bottom right hdc g

/-- What `queuedAction` points to. -/
def Action.call : Action → (Fin 20 → ArgVal) → Gfx → Except Fault Gfx
  | .PixelSetterFuncQueue => Xv6.PixelSetterFuncQueue
  | .LineDrawFunc => Xv6.LineDrawFunc
  | .MovePosFunc => Xv6.MovePosFunc
  | .DeclarePenFunc => Xv6.DeclarePenFunc
  | .GetPenFunc => Xv6.GetPenFunc
  | .DrawRect => Xv6.DrawRect

/-! ### Queuing -/

/-- `sizeof(argument)`, the size of a `char*`. -/
def sizeofArgument : ℕ := 4

/-- `strncpy` into an array: at most `n` bytes, padded with NULs. -/
def strncpy (s : ArgVal) (t : CStr) (n : ℕ) : ArgVal := fun i => if i.1 < n then t.getD i 0 else s i

/-- `tmpArg` is the uninitialised local. -/
def AppendArg (argument : CStr) (tmpArg : ArgVal) (buffer : CommandBuffer) :
    Except Fault CommandBuffer := do
  let buffer :=
    if buffer.buffset ≠ 1 then { buffer with lastArgSet := 0, buffset := 1 } else buffer
  let k ← index 20 .argIndex buffer.lastArgSet
  return { buffer with
    args := Function.update buffer.args k (strncpy tmpArg argument sizeofArgument)
    lastArgSet := buffer.lastArgSet + 1 }

/-- The uninitialised locals of a call of an `Append` function. -/
structure Junk where
  commandItemTemp : CommandBuffer
  tmpArg : ℕ → ArgVal

/-- `AppendArg` on each string in turn. -/
def appendArgs (junk : ℕ → ArgVal) : List CStr → CommandBuffer → Except Fault CommandBuffer
  | [], buffer => .ok buffer
  | s :: ss, buffer => do
      let buffer ← AppendArg s (junk ss.length) buffer
      appendArgs junk ss buffer

/-- What the `Append` functions share: the handle and the capped arguments, as they are copied, go
into a command, and the command to the end of the queue. -/
def appendCommand (action : Action) (args : List CStr) (junk : Junk) (hdc : Int32) (g : Gfx) :
    Except Fault Gfx := do
  let str := ParseChar hdc
  let cmd ← appendArgs junk.tmpArg (str :: args)
    { junk.commandItemTemp with queuedAction := some action }
  let cmd := { cmd with buffset := 0 }
  let i ← hdcAt hdc
  let lastIndex := (g.hdcObjects i).queueEnd
  let k ← index 50 .queueIndex lastIndex
  let d := g.hdcObjects i
  return g.setHdc i { d with
    commandQueue := Function.update d.commandQueue k cmd, queueEnd := d.queueEnd + 1 }

/-- `ParseChar(ValueCapperChar(a, capacity), a)`. -/
def capped (a : CStr) (capacity : Int32) : CStr := ParseChar (ValueCapperChar a capacity)

/-- `setpixel` is queued with coordinates of the screen. -/
def AppendPixel (hdc : Int32) (x y : CStr) (junk : Junk) : Gfx → Except Fault Gfx :=
  appendCommand .PixelSetterFuncQueue [capped x 319, capped y 199] junk hdc

/-- `lineto` is queued with coordinates of the screen. -/
def AppendLineTo (hdc : Int32) (x1 y1 : CStr) (junk : Junk) : Gfx → Except Fault Gfx :=
  appendCommand .LineDrawFunc [capped x1 319, capped y1 199] junk hdc

/-- `moveto` is queued with coordinates of the screen. -/
def AppendCursorMove (hdc : Int32) (x1 y1 : CStr) (junk : Junk) : Gfx → Except Fault Gfx :=
  appendCommand .MovePosFunc [capped x1 319, capped y1 199] junk hdc

/-- `setpencolour` is queued: the index is capped at 50, each colour at 63. -/
def AppendDeclarePen (hdc : Int32) (index r g b : CStr) (junk : Junk) : Gfx → Except Fault Gfx :=
  appendCommand .DeclarePenFunc [capped index 50, capped r 63, capped g 63, capped b 63] junk hdc

/-- `selectpen` is queued with an index of at most 50. -/
def AppendGetPen (hdc : Int32) (index : CStr) (junk : Junk) : Gfx → Except Fault Gfx :=
  appendCommand .GetPenFunc [capped index 50] junk hdc

/-- The arguments are stored in the order `DrawRect` reads them. -/
def AppendDrawRect (hdc : Int32) (topY botY topX botX : CStr) (junk : Junk) :
    Gfx → Except Fault Gfx :=
  appendCommand .DrawRect [capped topY 199, capped botX 319, capped botY 199, capped topX 319]
    junk hdc

/-! ### System calls -/

/-- The strings a `struct argsSet` points to, where the kernel reads them: four values, which stands
for four pointers to strings that lie apart. -/
structure ArgsSet where
  arg0 : CStr
  arg1 : CStr
  arg2 : CStr
  arg3 : CStr

namespace Gfx

/-- A handle below 0 is refused, any other is used as it is. -/
def sys_setpixel (hdc x y : Int32) (g : Gfx) : Except Fault (Int32 × Gfx) :=
  if hdc < 0 then .ok (-1, g)
  else do
    let g ← PixelSetterFunc hdc (ValueCapper x 319) (ValueCapper y 199) g
    return (0, g)

/-- As `sys_setpixel`, with the cursor. -/
def sys_moveto (hdc x y : Int32) (g : Gfx) : Except Fault (Int32 × Gfx) :=
  if hdc < 0 then .ok (-1, g)
  else do
    let g ← MovePos hdc (ValueCapper x 319) (ValueCapper y 199) g
    return (0, g)

/-- The line from the cursor, which then stands at its end. -/
def sys_lineto (hdc nx ny : Int32) (g : Gfx) : Except Fault (Int32 × Gfx) :=
  if hdc < 0 then .ok (-1, g)
  else do
    let nx := ValueCapper nx 319
    let ny := ValueCapper ny 199
    let i ← hdcAt hdc
    let g ← LineDraw (g.hdcObjects i).x (g.hdcObjects i).y nx ny hdc g
    let g ← MovePos hdc nx ny g
    return (0, g)

/-- An index above 255 is refused, one below 0 is not. -/
def sys_selectpen (hdc index : Int32) (g : Gfx) : Except Fault (Int32 × Gfx) :=
  if hdc < 0 then .ok (-1, g)
  else if index > 255 then .ok (-1, g)
  else do
    let i ← hdcAt hdc
    return (0, g.setHdc i { g.hdcObjects i with penIndex := index })

/-- The rectangle, with each side capped to the screen. -/
def sys_fillrect (hdc : Int32) (r : Rect) (g : Gfx) : Except Fault (Int32 × Gfx) :=
  if hdc < 0 then .ok (-1, g)
  else do
    let g ← fillRows (ValueCapper r.top 199) (ValueCapper r.left 319) (ValueCapper r.bottom 199)
      (ValueCapper r.right 319) hdc g
    return (0, g)

/-- The first free slot is taken; its command queue is the uninitialised local's. -/
def sys_beginpaint (queue : Fin 50 → CommandBuffer) (g : Gfx) : Except Fault (Int32 × Gfx) :=
  match (List.finRange 5).find? fun i => (g.hdcObjects i).init = 0 with
  | some i => .ok (Int32.ofNat i, g.setHdc i ⟨1, 0, 0, 15, queue, 0⟩)
  | none => .ok (-1, g)

/-- The loop of `endpaint` from entry `i`; the entry after the last is out of bounds. -/
def execQueue (hdc : Int32) : ℕ → Int32 → Gfx → Except Fault Gfx
  | 0, i, _ => .error (.queueIndex i)
  | fuel + 1, i, g => do
      let h ← hdcAt hdc
      if i < (g.hdcObjects h).queueEnd then
        let k ← index 50 .queueIndex i
        match ((g.hdcObjects h).commandQueue k).queuedAction with
        | none => .error .noAction
        | some a =>
            let g ← a.call ((g.hdcObjects h).commandQueue k).args g
            execQueue hdc fuel (i + 1) g
      else return g

/-- The queue runs first; only then is the context looked at, and given back. -/
def sys_endpaint (hdc executeQueue : Int32) (queue : Fin 50 → CommandBuffer) (g : Gfx) :
    Except Fault (Int32 × Gfx) :=
  if hdc < 0 then .ok (-1, g)
  else do
    let g ← if executeQueue = 1 then execQueue hdc 51 0 g else pure g
    let i ← hdcAt hdc
    if (g.hdcObjects i).init = 1 then return (0, g.setHdc i ⟨0, 0, 0, 15, queue, 0⟩)
    else return (-1, g)

/-- Whether a context is taken.  The comparison lets the handle 5 through. -/
def sys_getHDC (hdc : Int32) (g : Gfx) : Except Fault (Int32 × Gfx) :=
  if hdc > 5 ∨ hdc < 0 then .ok (-1, g)
  else do
    let i ← hdcAt hdc
    if (g.hdcObjects i).init = 1 then return (0, g) else return (-1, g)

/-- A command is queued by its `opType`; any other type queues nothing. -/
def sys_writeQueue (hdc opType : Int32) (set : ArgsSet) (junk : Junk) (g : Gfx) :
    Except Fault (Int32 × Gfx) := do
  let g ←
    if opType = 0 then AppendPixel hdc set.arg0 set.arg1 junk g
    else if opType = 1 then AppendLineTo hdc set.arg0 set.arg1 junk g
    else if opType = 2 then AppendCursorMove hdc set.arg0 set.arg1 junk g
    else if opType = 3 then AppendDeclarePen hdc set.arg0 set.arg1 set.arg2 set.arg3 junk g
    else if opType = 4 then AppendGetPen hdc set.arg0 junk g
    else if opType = 5 then AppendDrawRect hdc set.arg0 set.arg1 set.arg2 set.arg3 junk g
    else pure g
  return (1, g)

/-- The graphics system calls, with their arguments and the locals they find uninitialised. -/
inductive Call where
  | setpixel (hdc x y : Int32)
  | moveto (hdc x y : Int32)
  | lineto (hdc nx ny : Int32)
  | selectpen (hdc index : Int32)
  | fillrect (hdc : Int32) (r : Rect)
  | beginpaint (queue : Fin 50 → CommandBuffer)
  | endpaint (hdc executeQueue : Int32) (queue : Fin 50 → CommandBuffer)
  | getHDC (hdc : Int32)
  | writeQueue (hdc opType : Int32) (set : ArgsSet) (junk : Junk)

/-- A system call of the graphics. -/
def call (g : Gfx) : Call → Except Fault (Int32 × Gfx)
  | .setpixel hdc x y => g.sys_setpixel hdc x y
  | .moveto hdc x y => g.sys_moveto hdc x y
  | .lineto hdc nx ny => g.sys_lineto hdc nx ny
  | .selectpen hdc index => g.sys_selectpen hdc index
  | .fillrect hdc r => g.sys_fillrect hdc r
  | .beginpaint queue => g.sys_beginpaint queue
  | .endpaint hdc executeQueue queue => g.sys_endpaint hdc executeQueue queue
  | .getHDC hdc => g.sys_getHDC hdc
  | .writeQueue hdc opType set junk => g.sys_writeQueue hdc opType set junk

end Gfx

end Xv6
