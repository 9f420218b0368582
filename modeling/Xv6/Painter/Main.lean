import Xv6.Graphics.Overflow

/-!
# Painter — the command loop

`main` of `Painter.c`, for any number of processes on one kernel.  A process is its two variables,
the device context it works on and its mode, and what is left of the command it is in.  Each line it
reads is one `Act`, by the chain of comparisons in `main`.  A step is one system call, or what the
process does with its result: `-nHDC` and `-exec` set `currentHDC` after the call has returned,
`-exit` leaves it as it is, and `ExampleSquare` makes six calls.  A process ends by `-exit`, or
because it is killed (or faults): then the kernel's `exit` closes its files, and knows nothing of
device contexts.

The tokens of a line, the stack a call finds and the order of the steps are arbitrary.  What a
process prints, the switching of the video mode and the waiting for a key are left out.
-/

namespace Xv6.Painter

open Lib Gfx

/-- The bytes of a word. -/
def chars (s : List Char) : CStr := s.map fun c => UInt8.ofNat c.toNat

/-- What is left of a command. -/
inductive Todo where
  | call (c : Call)
  | setHDC (hdc : Int32)
  | exit

/-- The variables of `main`. -/
structure State where
  currentHDC : Int32
  mode : Int32
  pending : List Todo

/-- What the calls find uninitialised. -/
structure Locals where
  /-- the locals of the `Append` functions -/
  junk : Junk
  /-- the command queue of the `struct hdc` that `beginpaint` and `endpaint` store -/
  queue : Fin 50 → CommandBuffer

/-- What a line makes `main` do. -/
inductive Act where
  /-- it only prints -/
  | print
  | exit
  | nHDC
  | toggleMode
  | square
  | draw (c : Syscall)
  | exec

/-- The calls of `ExampleSquare`; the last names handle 0. -/
def ExampleSquare (hdc : Int32) : List Call :=
  [.moveto hdc 100 50, .lineto hdc 200 50, .lineto hdc 200 150, .lineto hdc 100 150,
    .lineto hdc 100 50, .moveto 0 0 0]

section

variable (s : State) (argsCount : Int32) (argsBuffer : Fin 30 → CStr) (junk : Junk)

/-- The commands of queue mode. -/
def State.actQueue : Act :=
  let word := argsBuffer 1
  if word = chars ['-', 'p'] ∧ argsCount ≥ 4 ∧ s.mode = 0 then
    .draw (.call (.writeQueue s.currentHDC 0 ⟨argsBuffer 2, argsBuffer 3, [], []⟩ junk))
  else if word = chars ['-', 'l'] ∧ argsCount ≥ 4 ∧ s.mode = 0 then
    .draw (.call (.writeQueue s.currentHDC 1 ⟨argsBuffer 2, argsBuffer 3, [], []⟩ junk))
  else if word = chars ['-', 'm'] ∧ argsCount ≥ 4 ∧ s.mode = 0 then
    .draw (.call (.writeQueue s.currentHDC 2 ⟨argsBuffer 2, argsBuffer 3, [], []⟩ junk))
  else if word = chars ['-', 'd', 'p'] ∧ argsCount ≥ 6 ∧ s.mode = 0 then
    .draw (.call (.writeQueue s.currentHDC 3
      ⟨argsBuffer 2, argsBuffer 3, argsBuffer 4, argsBuffer 5⟩ junk))
  else if word = chars ['-', 'g', 'p'] ∧ argsCount ≥ 3 ∧ s.mode = 0 then
    .draw (.call (.writeQueue s.currentHDC 4 ⟨argsBuffer 2, [], [], []⟩ junk))
  else if word = chars ['-', 'r'] ∧ argsCount ≥ 6 ∧ s.mode = 0 then
    .draw (.call ((Drawing.rect (argsBuffer 2) (argsBuffer 3) (argsBuffer 4)
      (argsBuffer 5)).queued s.currentHDC junk))
  else if word = chars ['-', 'e', 'x', 'e', 'c'] ∧ argsCount ≥ 2 ∧ s.mode = 0 then
    if s.currentHDC = -1 then .print else .exec
  else .print

/-- The commands of system-call mode, and then those of queue mode. -/
def State.actSystem : Act :=
  let word := argsBuffer 1
  if word = chars ['-', 'e'] ∧ argsCount ≥ 2 ∧ s.mode = 1 then .square
  else if word = chars ['-', 'p'] ∧ argsCount ≥ 4 ∧ s.mode = 1 then
    .draw (.call (.setpixel s.currentHDC (atoi (argsBuffer 2)) (atoi (argsBuffer 3))))
  else if word = chars ['-', 'l'] ∧ argsCount ≥ 4 ∧ s.mode = 1 then
    .draw (.call (.lineto s.currentHDC (atoi (argsBuffer 2)) (atoi (argsBuffer 3))))
  else if word = chars ['-', 'm'] ∧ argsCount ≥ 4 ∧ s.mode = 1 then
    .draw (.call (.moveto s.currentHDC (atoi (argsBuffer 2)) (atoi (argsBuffer 3))))
  else if word = chars ['-', 'd', 'p'] ∧ argsCount ≥ 6 ∧ s.mode = 1 then
    .draw (.setpencolour (atoi (argsBuffer 2)) (atoi (argsBuffer 3)) (atoi (argsBuffer 4))
      (atoi (argsBuffer 5)))
  else if word = chars ['-', 'g', 'p'] ∧ argsCount ≥ 3 ∧ s.mode = 1 then
    .draw (.call (.selectpen s.currentHDC (atoi (argsBuffer 2))))
  else if word = chars ['-', 'r'] ∧ argsCount ≥ 6 ∧ s.mode = 1 then
    .draw (.call ((Drawing.rect (argsBuffer 2) (argsBuffer 3) (argsBuffer 4)
      (argsBuffer 5)).immediate s.currentHDC))
  else s.actQueue argsCount argsBuffer junk

/-- The body of the loop of `main`, on the tokens of a line. -/
def State.act : Act :=
  let word := argsBuffer 1
  if argsCount = -1 then .print
  else if word = chars ['-', 'e', 'x', 'i', 't'] then .exit
  else if word = chars ['-', 'n', 'H', 'D', 'C'] ∧ argsCount ≥ 2 then
    if s.currentHDC ≠ -1 then .print else .nHDC
  else if word = chars ['-', 't', 'o', 'g', 'g', 'l', 'e', 'M', 'o', 'd', 'e'] ∧ argsCount ≥ 2 then
    .toggleMode
  else if word = chars ['-', 'h', 'e', 'l', 'p'] then .print
  else if s.currentHDC < 0 ∨ s.currentHDC > 5 then .print
  else s.actSystem argsCount argsBuffer junk

end

/-! ### Processes -/

/-- The kernel's device contexts, and the processes that run `Painter`. -/
structure World (P : Type) where
  kernel : Gfx
  procs : P → Option State

/-- What can happen to the processes that paint. -/
inductive Event (P : Type) where
  | start (p : P)
  | line (p : P) (argsCount : Int32) (argsBuffer : Fin 30 → CStr) (locals : Locals)
  /-- the next of what is left of the command -/
  | next (p : P)
  /-- `kill`, or a fault: the process is gone -/
  | kill (p : P)

variable {P : Type} [DecidableEq P] (code : Option Action → UInt32)

/-- At boot nobody paints. -/
def World.boot (pixMem : UInt16 → UInt8) : World P := ⟨.boot pixMem, fun _ => none⟩

/-- The kernel and one process change. -/
def World.set (w : World P) (g : Gfx) (p : P) (s : Option State) : World P :=
  ⟨g, Function.update w.procs p s⟩

/-- What an act of process `p`, in state `s`, does. -/
def World.perform (w : World P) (p : P) (s : State) (locals : Locals) :
    Act → Except Fault (World P)
  | .print => .ok w
  | .exit =>
      if s.currentHDC ≠ -1 then do
        let (_, g) ← w.kernel.syscallFlat code (.call (.endpaint s.currentHDC 0 locals.queue))
        return w.set g p (some { s with pending := [.exit] })
      else return w.set w.kernel p (some { s with pending := [.exit] })
  | .nHDC => do
      let (r, g) ← w.kernel.syscallFlat code (.call (.beginpaint locals.queue))
      return w.set g p (some { s with pending := if r ≠ -1 then [.setHDC r] else [] })
  | .toggleMode => .ok (w.set w.kernel p (some { s with mode := if s.mode = 0 then 1 else 0 }))
  | .square =>
      .ok (w.set w.kernel p (some { s with pending := (ExampleSquare s.currentHDC).map .call }))
  | .draw c => do
      let (_, g) ← w.kernel.syscallFlat code c
      return w.set g p (some s)
  | .exec => do
      let (r, g) ← w.kernel.syscallFlat code (.call (.endpaint s.currentHDC 1 locals.queue))
      return w.set g p (some { s with pending := if r = 0 then [.setHDC (-1)] else [] })

/-- What process `p`, in state `s`, does next of what is left, and the state it is then in. -/
def World.next (w : World P) (p : P) (s : State) : Todo → Except Fault (World P)
  | .call c => do
      let (_, g) ← w.kernel.syscallFlat code (.call c)
      return w.set g p (some s)
  | .setHDC hdc => .ok (w.set w.kernel p (some { s with currentHDC := hdc }))
  | .exit => .ok (w.set w.kernel p none)

/-- The steps that can be taken. -/
def World.step (w : World P) : Event P → Option (World P)
  | .start p => if (w.procs p).isNone then some (w.set w.kernel p (some ⟨-1, 0, []⟩)) else none
  | .line p argsCount argsBuffer locals => do
      let s ← w.procs p
      guard s.pending.isEmpty
      (w.perform code p s locals (s.act argsCount argsBuffer locals.junk)).toOption
  | .next p => do
      let s ← w.procs p
      let todo ← s.pending.head?
      (w.next code p { s with pending := s.pending.tail } todo).toOption
  | .kill p => if (w.procs p).isSome then some (w.set w.kernel p none) else none

/-- The steps of the processes. -/
def Steps (w : World P) (e : Event P) (w' : World P) : Prop := w.step code e = some w'

end Xv6.Painter
