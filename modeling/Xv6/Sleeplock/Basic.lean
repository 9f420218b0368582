import Xv6.Pipe.Basic

/-!
# Sleep locks — `sleeplock.c`, step by step

Any number of sleep locks, and of processes in `acquiresleep`, `releasesleep` and `holdingsleep`.
The three functions are cut into instructions, as those of `pipe.c` are: a process at a program
counter (`Pc`) fetches the next instruction and the counter after it (`fetch`), and the instruction
acts on the system (`exec`).

* `lk l` is the spin lock in the sleep lock `l`; `acquire` waits until it is free.
* `ptable` is `ptable.lock`, which `sleep` holds while it gives up `lk l` and until the scheduler
  has switched away from the process; `wakeup` and `kill` are one step each, while nobody holds it.
* `held p l` records that `acquiresleep` of `l` has returned to `p`, which has not called
  `releasesleep` of it since.  No function reads it.

A process outside of the three stands at `user eax`, with the value that its last call has returned.
A process that is killed in its sleep goes around the loop of `acquiresleep`.
-/

namespace Xv6.Sleeplock

open Pipe (SleepPc)

/-- `struct sleeplock` less its spin lock and its name. -/
structure Lock where
  locked : Bool
  pid : ℤ
  deriving DecidableEq

/-! ### Program counters -/

/-- Inside `acquiresleep`: the `while` test, `sleep`, the two stores and the last `release`. -/
inductive AcquirePc where
  | acquire
  | test
  | sleep (k : SleepPc)
  | locked
  | pid
  | release
  deriving DecidableEq

/-- Inside `releasesleep`. -/
inductive ReleasePc where
  | acquire
  | locked
  | pid
  | wakeup
  | release
  deriving DecidableEq

/-- Inside `holdingsleep`: the two halves of the test, and `release` before `return r`. -/
inductive HoldingPc where
  | acquire
  | locked
  | pid
  | release (r : ℤ)
  deriving DecidableEq

/-- How far a process is: in user code, or in a function of `sleeplock.c`. -/
inductive Pc (L : Type) where
  | user (eax : ℤ)
  | acquiresleep (lk : L) (k : AcquirePc)
  | releasesleep (lk : L) (k : ReleasePc)
  | holdingsleep (lk : L) (k : HoldingPc)
  deriving DecidableEq

/-- The instructions.  `taken` is the last `release` of `acquiresleep`; `locked` and `pid` store
into the fields. -/
inductive Instr (L : Type) where
  | nop
  | acquire (lk : L)
  | release (lk : L)
  | taken (lk : L)
  | ptable
  | sleep (lk : L)
  | resume
  | wakeup (lk : L)
  | locked (lk : L) (b : Bool)
  | pid (lk : L) (v : ℤ)
  deriving DecidableEq

/-! ### The code -/

variable {L P : Type}

/-- `sleep(lk, &lk->lk)`; after it the counter is at the `while` test. -/
def sleep (lk : L) : SleepPc → Instr L × Pc L
  | .ptable => (.ptable, .acquiresleep lk (.sleep .release))
  | .release => (.release lk, .acquiresleep lk (.sleep .sched))
  | .sched => (.sleep lk, .acquiresleep lk (.sleep .away))
  | .away => (.resume, .acquiresleep lk (.sleep .acquire))
  | .acquire => (.acquire lk, .acquiresleep lk .test)

/-- `acquiresleep`: the next instruction, and where it leads. -/
def acquiresleep (lock : L → Lock) (mypid : ℤ) (lk : L) : AcquirePc → Instr L × Pc L
  | .acquire => (.acquire lk, .acquiresleep lk .test)
  | .test => (.nop, .acquiresleep lk (if (lock lk).locked then .sleep .ptable else .locked))
  | .sleep k => sleep lk k
  | .locked => (.locked lk true, .acquiresleep lk .pid)
  | .pid => (.pid lk mypid, .acquiresleep lk .release)
  | .release => (.taken lk, .user 0)

/-- `releasesleep`. -/
def releasesleep (lk : L) : ReleasePc → Instr L × Pc L
  | .acquire => (.acquire lk, .releasesleep lk .locked)
  | .locked => (.locked lk false, .releasesleep lk .pid)
  | .pid => (.pid lk 0, .releasesleep lk .wakeup)
  | .wakeup => (.wakeup lk, .releasesleep lk .release)
  | .release => (.release lk, .user 0)

/-- `holdingsleep`: what it returns is read under the spin lock. -/
def holdingsleep (lock : L → Lock) (mypid : ℤ) (lk : L) : HoldingPc → Instr L × Pc L
  | .acquire => (.acquire lk, .holdingsleep lk .locked)
  | .locked => (.nop, .holdingsleep lk (if (lock lk).locked then .pid else .release 0))
  | .pid => (.nop, .holdingsleep lk (.release (if (lock lk).pid = mypid then 1 else 0)))
  | .release r => (.release lk, .user r)

/-- The next instruction of a process and the counter after it; none outside of `sleeplock.c`. -/
def fetch (lock : L → Lock) (mypid : ℤ) : Pc L → Option (Instr L × Pc L)
  | .user _ => none
  | .acquiresleep lk k => some (acquiresleep lock mypid lk k)
  | .releasesleep lk k => some (releasesleep lk k)
  | .holdingsleep lk k => some (holdingsleep lock mypid lk k)

/-! ### The system -/

/-- `struct proc`, as far as `sleeplock.c` sees it: `asleep` is `state == SLEEPING`. -/
structure Proc (L : Type) where
  pc : Pc L
  asleep : Bool
  chan : Option L

/-- `SLEEPING` on the lock `l`. -/
def Proc.sleepsOn (q : Proc L) (l : L) : Prop := q.asleep = true ∧ q.chan = some l

instance [DecidableEq L] (q : Proc L) (l : L) : Decidable (q.sleepsOn l) :=
  inferInstanceAs (Decidable (_ ∧ _))

/-- The sleep locks, the spin locks, the processes, and who has been given which lock. -/
structure Sys (P L : Type) where
  lock : L → Lock
  lk : L → Option P
  ptable : Option P
  proc : P → Proc L
  held : P → L → Bool

/-- The functions of `sleeplock.c`. -/
inductive Call (L : Type) where
  | acquiresleep (lk : L)
  | releasesleep (lk : L)
  | holdingsleep (lk : L)

/-- Where a call starts. -/
def Call.entry : Call L → Pc L
  | .acquiresleep lk => .acquiresleep lk .acquire
  | .releasesleep lk => .releasesleep lk .acquire
  | .holdingsleep lk => .holdingsleep lk .acquire

/-- What can happen: a process enters a call, a process inside one takes its next step, or somebody
kills a process. -/
inductive Act (P L : Type) where
  | call (p : P) (c : Call L)
  | run (p : P)
  | kill (p : P)

namespace Sys

variable [DecidableEq P] [DecidableEq L]

/-- A process changes. -/
def setProc (s : Sys P L) (p : P) (q : Proc L) : Sys P L :=
  { s with proc := Function.update s.proc p q }

/-- A process moves. -/
def setPc (s : Sys P L) (p : P) (pc : Pc L) : Sys P L := s.setProc p { s.proc p with pc := pc }

/-- A process gets a lock, or gives it back. -/
def setHeld (s : Sys P L) (p : P) (l : L) (b : Bool) : Sys P L :=
  { s with held := Function.update s.held p (Function.update (s.held p) l b) }

/-- `wakeup1(lk)`. -/
def wakeup1 (s : Sys P L) (l : L) : Sys P L :=
  { s with proc := fun q =>
      if (s.proc q).sleepsOn l then { s.proc q with asleep := false } else s.proc q }

/-- Whether `p` can take the instruction now, or has to spin or sleep on. -/
def ready (s : Sys P L) (p : P) : Instr L → Prop
  | .acquire l => s.lk l = none
  | .ptable | .wakeup _ => s.ptable = none
  | .resume => s.ptable = none ∧ (s.proc p).asleep = false
  | _ => True

instance (s : Sys P L) (p : P) (ins : Instr L) : Decidable (s.ready p ins) := by
  cases ins <;> unfold ready <;> infer_instance

/-- The effect of an instruction of `p`. -/
def exec (s : Sys P L) (p : P) : Instr L → Sys P L
  | .nop => s
  | .acquire l => { s with lk := Function.update s.lk l (some p) }
  | .release l => { s with lk := Function.update s.lk l none }
  | .taken l => { s with lk := Function.update s.lk l none }.setHeld p l true
  | .ptable => { s with ptable := some p }
  | .sleep l => { s.setProc p { s.proc p with asleep := true, chan := some l } with ptable := none }
  | .resume => s.setProc p { s.proc p with chan := none }
  | .wakeup l => s.wakeup1 l
  | .locked l b => { s with lock := Function.update s.lock l { s.lock l with locked := b } }
  | .pid l v => { s with lock := Function.update s.lock l { s.lock l with pid := v } }

/-- A process enters a call; from `releasesleep` on it does not hold the lock. -/
def enter (s : Sys P L) (p : P) : Call L → Sys P L
  | .releasesleep l => (s.setHeld p l false).setPc p (Call.releasesleep l).entry
  | c => s.setPc p c.entry

/-- `kill` of the process `p`. -/
def kill (s : Sys P L) (p : P) : Sys P L := s.setProc p { s.proc p with asleep := false }

/-- One step, where `pid p` is the number of the process `p`. -/
def step (pid : P → ℤ) (s : Sys P L) : Act P L → Option (Sys P L)
  | .call p c =>
      match (s.proc p).pc with
      | .user _ => some (s.enter p c)
      | _ => none
  | .run p => do
      let (ins, pc) ← fetch s.lock (pid p) (s.proc p).pc
      guard (s.ready p ins)
      pure ((s.exec p ins).setPc p pc)
  | .kill p => if s.ptable = none then some (s.kill p) else none

/-- After `initsleeplock` of every lock. -/
structure Init (s : Sys P L) : Prop where
  lock : ∀ l, s.lock l = ⟨false, 0⟩
  lk : ∀ l, s.lk l = none
  ptable : s.ptable = none
  user : ∀ p, ∃ eax, (s.proc p).pc = .user eax
  awake : ∀ p, (s.proc p).asleep = false
  held : ∀ p l, s.held p l = false

/-- `releasesleep` is called by a process that holds the lock: its callers test that first, by
`holdingsleep`, or have just taken it. -/
def Lawful (s : Sys P L) : Act P L → Prop
  | .call p (.releasesleep l) => s.held p l = true
  | _ => True

/-- A step in which `releasesleep` is not called without the lock. -/
def Step (pid : P → ℤ) (s : Sys P L) (a : Act P L) (t : Sys P L) : Prop :=
  s.Lawful a ∧ s.step pid a = some t

end Sys

end Xv6.Sleeplock
