import Xv6.Lib.Runs
import Mathlib.Data.Int.Notation
import Mathlib.Data.Nat.Notation
import Mathlib.Logic.Function.Basic

/-!
# Pipes — `pipe.c`, step by step

One pipe and any number of processes in `pipewrite`, `piperead` and `pipeclose`.  The three
functions are cut into instructions: a process at a program counter (`Pc`) fetches from what it
reads there (the pipe, its own `killed`) the next instruction and the counter after it
(`fetch`), and the instruction acts on the system (`exec`).  The locks are explicit:

* `lock` is `p->lock`; `acquire` waits until it is free;
* `ptable` is `ptable.lock`, which `sleep` holds while it gives up `p->lock` and until the
  scheduler has switched away from the process; `wakeup` and `kill` run under it, and are one
  step each, possible only while nobody holds it.

A process outside `pipe.c` stands at `user eax`, with the value its last call returned.  `RUNNING`
and `RUNNABLE` are one state here: a process that may run may be picked at any moment.  The
histories `accepted` and `delivered` record the bytes stored into the ring and taken from it.
-/

namespace Xv6.Pipe

/-- The bytes of a pipe. -/
def PIPESIZE : ℕ := 512

/-- The sleep channels `&p->nread` and `&p->nwrite`. -/
inductive Chan where
  | nread
  | nwrite
  deriving DecidableEq

/-- `struct pipe` less its lock. -/
structure Pipe where
  data : ℕ → UInt8
  nread : UInt32
  nwrite : UInt32
  readopen : Bool
  writeopen : Bool

namespace Pipe

/-- `p->nread == p->nwrite`. -/
def empty (p : Pipe) : Prop := p.nread = p.nwrite

/-- `p->nwrite == p->nread + PIPESIZE`. -/
def full (p : Pipe) : Prop := p.nwrite = p.nread + UInt32.ofNat PIPESIZE

instance (p : Pipe) : Decidable p.empty := inferInstanceAs (Decidable (_ = _))

instance (p : Pipe) : Decidable p.full := inferInstanceAs (Decidable (_ = _))

/-- The byte at `p->nread`. -/
def front (p : Pipe) : UInt8 := p.data (p.nread.toNat % PIPESIZE)

/-- `p->data[p->nwrite++ % PIPESIZE] = b`. -/
def store (p : Pipe) (b : UInt8) : Pipe :=
  { p with
    data := Function.update p.data (p.nwrite.toNat % PIPESIZE) b
    nwrite := p.nwrite + 1 }

/-- `p->nread++`, the byte taken being `front`. -/
def load (p : Pipe) : Pipe := { p with nread := p.nread + 1 }

/-- The flag that `pipeclose` clears. -/
def close (p : Pipe) (writable : Bool) : Pipe :=
  if writable then { p with writeopen := false } else { p with readopen := false }

/-- The bytes in the ring, oldest first. -/
def contents (p : Pipe) : List UInt8 :=
  (List.range (p.nwrite - p.nread).toNat).map fun k =>
    p.data ((p.nread.toNat + k) % PIPESIZE)

end Pipe

/-! ### Program counters -/

/-- Inside `sleep(chan, lk)`: at `acquire(&ptable.lock)`; at `release(lk)`; about to set `chan`
and `SLEEPING` and to call `sched`; inside `sched`; and at `acquire(lk)`. -/
inductive SleepPc where
  | ptable
  | release
  | sched
  | away
  | acquire
  deriving DecidableEq

/-- Inside `pipewrite`: the `for` test (`loop`), the `while` test (`full`), the two halves of
the error test, `release` before `return -1` (`fail`), the wakeup before the sleep (`wakeFull`),
`sleep`, the last wakeup (`wakeDone`) and the last `release`. -/
inductive WritePc where
  | acquire
  | loop
  | full
  | readopen
  | killed
  | fail
  | wakeFull
  | sleep (k : SleepPc)
  | wakeDone
  | release
  deriving DecidableEq

/-- Inside `piperead`: the `while` test (`empty`), the `killed` test, `release` before
`return -1` (`fail`), `sleep`, the copying loop, the wakeup and the last `release`. -/
inductive ReadPc where
  | acquire
  | empty
  | killed
  | fail
  | sleep (k : SleepPc)
  | loop
  | wakeup
  | release
  deriving DecidableEq

/-- Inside `pipeclose`. -/
inductive ClosePc where
  | acquire
  | clear
  | wakeup
  | release
  deriving DecidableEq

/-- Where a process is, with its arguments and locals: `addr` holds the caller's bytes in
`pipewrite` and the bytes copied out so far in `piperead`. -/
inductive Pc where
  | user (eax : ℤ)
  | pipewrite (addr : ℕ → UInt8) (n : ℤ) (i : ℕ) (k : WritePc)
  | piperead (addr : List UInt8) (n : ℤ) (i : ℕ) (k : ReadPc)
  | pipeclose (writable : Bool) (k : ClosePc)

/-- The instructions.  `sleep` sets `chan` and `SLEEPING` and switches to the scheduler, which
drops `ptable.lock`; `resume` is the return from `sched`, which clears `chan`; `kfree` is the
release of the lock and of the page when both ends are closed. -/
inductive Instr where
  | nop
  | acquire
  | release
  | kfree
  | ptable
  | sleep (c : Chan)
  | resume
  | wakeup (c : Chan)
  | store (b : UInt8)
  | load
  | close (writable : Bool)
  deriving DecidableEq

/-! ### The code -/

/-- `sleep(c, &p->lock)`; after it the counter is `ret`. -/
def sleep (c : Chan) (into : SleepPc → Pc) (ret : Pc) : SleepPc → Instr × Pc
  | .ptable => (.ptable, into .release)
  | .release => (.release, into .sched)
  | .sched => (.sleep c, into .away)
  | .away => (.resume, into .acquire)
  | .acquire => (.acquire, ret)

/-- `pipewrite`: the next instruction, and where it leads. -/
def pipewrite (p : Pipe) (killed : Bool) (addr : ℕ → UInt8) (n : ℤ) (i : ℕ) :
    WritePc → Instr × Pc
  | .acquire => (.acquire, .pipewrite addr n i .loop)
  | .loop => (.nop, .pipewrite addr n i (if (i : ℤ) < n then .full else .wakeDone))
  | .full =>
      if p.full then (.nop, .pipewrite addr n i .readopen)
      else (.store (addr i), .pipewrite addr n (i + 1) .loop)
  | .readopen => (.nop, .pipewrite addr n i (if p.readopen then .killed else .fail))
  | .killed => (.nop, .pipewrite addr n i (if killed then .fail else .wakeFull))
  | .fail => (.release, .user (-1))
  | .wakeFull => (.wakeup .nread, .pipewrite addr n i (.sleep .ptable))
  | .sleep k => sleep .nwrite (fun k => .pipewrite addr n i (.sleep k)) (.pipewrite addr n i .full) k
  | .wakeDone => (.wakeup .nread, .pipewrite addr n i .release)
  | .release => (.release, .user n)

/-- `piperead`. -/
def piperead (p : Pipe) (killed : Bool) (addr : List UInt8) (n : ℤ) (i : ℕ) :
    ReadPc → Instr × Pc
  | .acquire => (.acquire, .piperead addr n i .empty)
  | .empty => (.nop, .piperead addr n i (if p.empty ∧ p.writeopen then .killed else .loop))
  | .killed => (.nop, .piperead addr n i (if killed then .fail else .sleep .ptable))
  | .fail => (.release, .user (-1))
  | .sleep k => sleep .nread (fun k => .piperead addr n i (.sleep k)) (.piperead addr n i .empty) k
  | .loop =>
      if (i : ℤ) < n ∧ ¬ p.empty then (.load, .piperead (addr ++ [p.front]) n (i + 1) .loop)
      else (.nop, .piperead addr n i .wakeup)
  | .wakeup => (.wakeup .nwrite, .piperead addr n i .release)
  | .release => (.release, .user i)

/-- `pipeclose`. -/
def pipeclose (p : Pipe) (writable : Bool) : ClosePc → Instr × Pc
  | .acquire => (.acquire, .pipeclose writable .clear)
  | .clear => (.close writable, .pipeclose writable .wakeup)
  | .wakeup => (.wakeup (if writable then .nread else .nwrite), .pipeclose writable .release)
  | .release => (if ¬ p.readopen ∧ ¬ p.writeopen then .kfree else .release, .user 0)

/-- The next instruction of a process and the counter after it; none outside `pipe.c`. -/
def fetch (p : Pipe) (killed : Bool) : Pc → Option (Instr × Pc)
  | .user _ => none
  | .pipewrite addr n i k => some (pipewrite p killed addr n i k)
  | .piperead addr n i k => some (piperead p killed addr n i k)
  | .pipeclose writable k => some (pipeclose p writable k)

/-! ### The system -/

/-- `struct proc`, as far as `pipe.c` sees it: `asleep` is `state == SLEEPING`. -/
structure Proc where
  pc : Pc
  asleep : Bool
  chan : Option Chan
  killed : Bool

/-- `SLEEPING` on channel `c`. -/
def Proc.sleepsOn (q : Proc) (c : Chan) : Prop := q.asleep ∧ q.chan = some c

instance (q : Proc) (c : Chan) : Decidable (q.sleepsOn c) := inferInstanceAs (Decidable (_ ∧ _))

/-- The pipe, the locks, the processes, and every byte that was accepted. -/
structure Sys (P : Type) where
  pipe : Pipe
  lock : Option P
  ptable : Option P
  freed : Bool
  proc : P → Proc
  accepted : List UInt8
  delivered : List UInt8

/-- The pipe calls of a process. -/
inductive Call where
  | pipewrite (addr : ℕ → UInt8) (n : ℤ)
  | piperead (n : ℤ)
  | pipeclose (writable : Bool)

/-- Where a call starts. -/
def Call.entry : Call → Pc
  | .pipewrite addr n => .pipewrite addr n 0 .acquire
  | .piperead n => .piperead [] n 0 .acquire
  | .pipeclose writable => .pipeclose writable .acquire

/-- What can happen: a process enters a call, a process inside one takes its next step, or
somebody kills a process. -/
inductive Act (P : Type) where
  | call (p : P) (c : Call)
  | run (p : P)
  | kill (p : P)

namespace Sys

variable {P : Type} [DecidableEq P]

/-- A process changes. -/
def setProc (s : Sys P) (p : P) (q : Proc) : Sys P :=
  { s with proc := Function.update s.proc p q }

/-- `wakeup1(c)`. -/
def wakeup1 (s : Sys P) (c : Chan) : Sys P :=
  { s with proc := fun q =>
      if (s.proc q).sleepsOn c then { s.proc q with asleep := false } else s.proc q }

/-- Whether `p` can take the instruction now, or has to spin or sleep on. -/
def ready (s : Sys P) (p : P) : Instr → Prop
  | .acquire => s.lock = none
  | .ptable | .wakeup _ => s.ptable = none
  | .resume => s.ptable = none ∧ ¬ (s.proc p).asleep
  | _ => True

instance (s : Sys P) (p : P) (ins : Instr) : Decidable (s.ready p ins) := by
  cases ins <;> unfold ready <;> infer_instance

/-- The effect of an instruction of `p`. -/
def exec (s : Sys P) (p : P) : Instr → Sys P
  | .nop => s
  | .acquire => { s with lock := some p }
  | .release => { s with lock := none }
  | .kfree => { s with lock := none, freed := true }
  | .ptable => { s with ptable := some p }
  | .sleep c => { s.setProc p { s.proc p with asleep := true, chan := some c } with ptable := none }
  | .resume => s.setProc p { s.proc p with chan := none }
  | .wakeup c => s.wakeup1 c
  | .store b => { s with pipe := s.pipe.store b, accepted := s.accepted ++ [b] }
  | .load => { s with pipe := s.pipe.load, delivered := s.delivered ++ [s.pipe.front] }
  | .close writable => { s with pipe := s.pipe.close writable }

/-- A process moves. -/
def setPc (s : Sys P) (p : P) (pc : Pc) : Sys P := s.setProc p { s.proc p with pc := pc }

/-- `kill` of the process `p`. -/
def kill (s : Sys P) (p : P) : Sys P :=
  s.setProc p { s.proc p with killed := true, asleep := false }

/-- One step.  After `kfree` no process can reach the pipe any more. -/
def step (s : Sys P) : Act P → Option (Sys P)
  | .call p c =>
      match (s.proc p).pc with
      | .user _ => if s.freed then none else some (s.setPc p c.entry)
      | _ => none
  | .run p => do
      guard (¬ s.freed)
      let (ins, pc) ← fetch s.pipe (s.proc p).killed (s.proc p).pc
      guard (s.ready p ins)
      pure ((s.exec p ins).setPc p pc)
  | .kill p => if s.ptable = none then some (s.kill p) else none

/-- After `pipealloc`: counters zero, both ends open, nobody inside `pipe.c`.  The page holds
whatever it held before. -/
structure Init (s : Sys P) : Prop where
  nread : s.pipe.nread = 0
  nwrite : s.pipe.nwrite = 0
  readopen : s.pipe.readopen = true
  writeopen : s.pipe.writeopen = true
  lock : s.lock = none
  ptable : s.ptable = none
  freed : s.freed = false
  user : ∀ p, ∃ eax, (s.proc p).pc = .user eax
  awake : ∀ p, (s.proc p).asleep = false
  accepted : s.accepted = []
  delivered : s.delivered = []

/-- A step that can be taken. -/
def Step (s : Sys P) (a : Act P) (t : Sys P) : Prop := s.step a = some t

end Sys

end Xv6.Pipe
