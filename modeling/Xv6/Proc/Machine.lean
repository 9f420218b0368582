import Xv6.Proc.Table

/-!
# Processes — CPUs, locks and context switches

The machine under the process table: any number of CPUs, each running its `scheduler` or the
kernel thread of a process, and spin locks, recorded with the CPU that holds them.  A step is what
one CPU does between two operations on locks, or one half of a `swtch`.

* `ptable.lock` is taken by one thread and released by another: a thread that calls `sched` saves
  its context and loads the scheduler's with the lock held; the scheduler clears `c->proc`, and
  releases the lock at the end of its loop or passes it on to the next process, which releases it
  in `yield`, `sleep` or `forkret`.
* What a thread does outside `ptable.lock` is left open: it takes and releases other locks,
  changes what others may wait for, and calls the functions of `proc.c`.  Interrupt handlers are
  part of this, in the thread they interrupt; the idle scheduler can be interrupted too.
* `sleep(chan, lk)` is called by a thread that holds `lk` and has tested its condition.
* A `panic` stops the machine: there is no step.

The ghosts `changes`, `covered` and `seen` count the changes of what is waited for on a channel
under a lock: all of them, those before the last `wakeup` on the channel, and those that a
sleeper's test came after.
-/

namespace Xv6.Process

/-- A spin lock: `ptable.lock`, or any other. -/
inductive Lk where
  | ptable
  | other (n : ℕ)
  deriving DecidableEq

/-- A kernel thread: a process's, or the scheduler of a CPU. -/
inductive Thread (κ : Type) where
  | proc (p : Fin NPROC)
  | sched (c : κ)
  deriving DecidableEq

/-- The functions of `proc.c` that take `ptable.lock` first. -/
inductive Entry where
  | yield
  | wakeup (ch : Chan)
  | kill (pid : Int32)
  | exit
  | wait
  | allocproc
  | setRunnable
  deriving DecidableEq

/-- Where a suspended thread goes on: at the `release` of `yield` or `forkret`, in `sleep`, or
nowhere. -/
inductive After where
  | unlock
  | woken (ch : Chan) (lk : Lk)
  | dead
  deriving DecidableEq

/-- Where a thread is in the code that uses `ptable.lock`. -/
inductive Section where
  /-- Not in this code. -/
  | out
  /-- With `ptable.lock`, before the body of the function. -/
  | body (e : Entry)
  /-- In `sleep`, with `lk`, before `acquire(&ptable.lock)`. -/
  | sleep (ch : Chan) (n : ℕ)
  /-- In `sleep`, with both locks, before `release(lk)`. -/
  | sleep1 (ch : Chan) (n : ℕ)
  /-- In `sleep`, with `ptable.lock`, before the stores. -/
  | sleep2 (ch : Chan) (lk : Lk)
  /-- In `sched`, before the context is saved. -/
  | sched (k : After)
  /-- In `sched`, with the context saved. -/
  | suspended (k : After)
  /-- In `sleep`, after `sched`. -/
  | woken (ch : Chan) (lk : Lk)
  /-- In `sleep`, before `release(&ptable.lock)`. -/
  | release (n : ℕ)
  /-- With `ptable.lock`, before the last `release` of the function. -/
  | unlock
  deriving DecidableEq

/-- The thread holds `ptable.lock`, if it is running. -/
def Section.holds : Section → Bool
  | .out | .sleep .. => false
  | _ => true

/-- What a context switch to the thread resumes. -/
def After.resume : After → Option Section
  | .unlock => some .unlock
  | .woken ch lk => some (.woken ch lk)
  | .dead => none

/-- Where a CPU is: in `scheduler`, before the `acquire`, in the loop with these entries to go,
before the `swtch` to `p`, or after it; or away from it, on the stack of `p`. -/
inductive Phase where
  | idle
  | scan (l : List (Fin NPROC))
  | chosen (p : Fin NPROC) (l : List (Fin NPROC))
  | runs (p : Fin NPROC) (l : List (Fin NPROC))
  | back (p : Fin NPROC) (l : List (Fin NPROC))
  deriving DecidableEq

/-- `struct cpu`, with where the CPU is. -/
structure Cpu where
  proc : Option (Fin NPROC)
  ncli : ℕ
  phase : Phase

/-- The table, the locks, and how far each CPU and each section is. -/
structure Machine (κ : Type) where
  table : Ptable
  locked : Lk → Option κ
  cpu : κ → Cpu
  sec : Thread κ → Section
  relock : Fin NPROC → Option ℕ
  kstack : Fin NPROC → Bool
  pgdir : Fin NPROC → Bool
  changes : Chan → Lk → ℕ
  covered : Chan → Lk → ℕ
  seen : Fin NPROC → ℕ

/-- What a CPU does next: a step of `scheduler`; outside the table's code, an operation on a lock,
a change of what is waited for under a lock, or a call; a step in the table's code; or one of the
unlocked steps of `fork`. -/
inductive Op where
  | scheduler
  | acquire (n : ℕ)
  | release (n : ℕ)
  | change (ch : Chan) (n : ℕ)
  | call (e : Entry)
  | sleep (ch : Chan) (n : ℕ)
  | run
  | kalloc (ok : Bool)
  | copyuvm (ok : Bool)
  | setParent
  | relock

/-- In `fork`, only the store of `RUNNABLE` is left. -/
def Pc.last : Pc → Bool
  | .runnable _ => true
  | _ => false

/-- The operation may be part of an interrupt. -/
def Op.interrupt : Op → Bool
  | .acquire _ | .release _ | .change .. | .call (.wakeup _) => true
  | _ => false

namespace Machine

variable {κ : Type} [DecidableEq κ]

/-- A section moves. -/
@[simp]
def setSec (m : Machine κ) (t : Thread κ) (s : Section) : Machine κ :=
  { m with sec := Function.update m.sec t s }

/-- A CPU changes. -/
@[simp]
def setCpu (m : Machine κ) (c : κ) (x : Cpu) : Machine κ :=
  { m with cpu := Function.update m.cpu c x }

/-- `acquire(lk)`, when the lock is free. -/
@[simp]
def acquire (m : Machine κ) (c : κ) (lk : Lk) : Machine κ :=
  { m.setCpu c { m.cpu c with ncli := (m.cpu c).ncli + 1 } with
    locked := Function.update m.locked lk (some c) }

/-- `release(lk)`, by the CPU that holds it. -/
@[simp]
def release (m : Machine κ) (c : κ) (lk : Lk) : Machine κ :=
  { m.setCpu c { m.cpu c with ncli := (m.cpu c).ncli - 1 } with
    locked := Function.update m.locked lk none }

/-- A scheduler moves. -/
@[simp]
def setPhase (m : Machine κ) (c : κ) (ph : Phase) : Machine κ :=
  m.setCpu c { m.cpu c with phase := ph }

/-- A CPU runs another process, or none. -/
@[simp]
def setCurrent (m : Machine κ) (c : κ) (p : Option (Fin NPROC)) : Machine κ :=
  m.setCpu c { m.cpu c with proc := p }

/-- The table changes. -/
@[simp]
def setTable (m : Machine κ) (s : Ptable) : Machine κ := { m with table := s }

/-- A process changes. -/
@[simp]
def setProc (m : Machine κ) (p : Fin NPROC) (x : Proc) : Machine κ := m.setTable (m.table.set p x)

/-- What a process is to acquire again. -/
@[simp]
def setRelock (m : Machine κ) (p : Fin NPROC) (n : Option ℕ) : Machine κ :=
  { m with relock := Function.update m.relock p n }

/-- The thread that CPU `c` executes. -/
def thread (m : Machine κ) (c : κ) : Thread κ :=
  match (m.cpu c).phase with
  | .runs p _ => .proc p
  | _ => .sched c

/-! ### The ghosts -/

/-- What is waited for on `ch` under `lk` changes. -/
@[simp]
def change (m : Machine κ) (ch : Chan) (lk : Lk) : Machine κ :=
  let x := Function.update (m.changes ch) lk (m.changes ch lk + 1)
  { m with changes := Function.update m.changes ch x }

/-- All sleepers on `ch` have been woken. -/
@[simp]
def cover (m : Machine κ) (ch : Chan) : Machine κ :=
  { m with covered := Function.update m.covered ch (m.changes ch) }

/-- `p` tests what it waits for on `ch` under `lk`. -/
@[simp]
def test (m : Machine κ) (p : Fin NPROC) (ch : Chan) (lk : Lk) : Machine κ :=
  { m with seen := Function.update m.seen p (m.changes ch lk) }

/-! ### `scheduler` -/

/-- A step of `scheduler` on the CPU `c`, if it can take one. -/
def scheduler (m : Machine κ) (c : κ) : Option (Machine κ) :=
  match (m.cpu c).phase with
  | .idle =>
      if m.sec (.sched c) = .out ∧ m.locked .ptable = none then
        some ((m.acquire c .ptable).setPhase c (.scan (List.finRange NPROC)))
      else none
  | .scan [] => some ((m.release c .ptable).setPhase c .idle)
  | .scan (p :: l) =>
      if (m.table.proc p).state = .runnable then
        some (((m.setProc p { m.table.proc p with state := .running }).setCurrent c (some p)).setPhase
          c (.chosen p l))
      else some (m.setPhase c (.scan l))
  | .chosen p l =>
      match m.sec (.proc p) with
      | .suspended k => k.resume.map fun s => (m.setSec (.proc p) s).setPhase c (.runs p l)
      | _ => none
  | .back _ l => some ((m.setCurrent c none).setPhase c (.scan l))
  | .runs .. => none

/-! ### The table's code -/

/-- `exit`, up to the call of `sched`: a child of the parent's exits, and if an abandoned child is
dead, a child of `initproc`'s. -/
def exit (m : Machine κ) (p : Fin NPROC) : Machine κ :=
  let m₁ := match (m.table.proc p).parent with
    | some q => (m.change (.proc q) .ptable).cover (.proc q)
    | none => m
  let i := m.table.initproc
  let m₂ := if ∃ q, (m.table.proc q).parent = some p ∧ (m.table.proc q).state = .zombie then
      (m₁.change (.proc i) .ptable).cover (.proc i)
    else m₁
  m₂.setTable (m.table.exit p)

/-- One pass of `wait`. -/
def wait (m : Machine κ) (p : Fin NPROC) : Machine κ :=
  match m.table.scanFrom p (List.finRange NPROC) false with
  | (some q, _) =>
      { m.setProc q (Ptable.freed (m.table.proc q)) with
        kstack := Function.update m.kstack q false
        pgdir := Function.update m.pgdir q false }.setSec (.proc p) .unlock
  | (none, havekids) =>
      if ¬ havekids ∨ (m.table.proc p).killed then m.setSec (.proc p) .unlock
      else (m.test p (.proc p) .ptable).setSec (.proc p) (.sleep2 (.proc p) .ptable)

/-- The body of a function, in the thread of `p`. -/
def body (m : Machine κ) (p : Fin NPROC) : Entry → Option (Machine κ)
  | .yield =>
      some ((m.setProc p { m.table.proc p with state := .runnable }).setSec (.proc p)
        (.sched .unlock))
  | .wakeup ch => some (((m.setTable (m.table.wakeup1 (some ch))).cover ch).setSec (.proc p) .unlock)
  | .kill pid => some ((m.setTable (m.table.kill pid).1).setSec (.proc p) .unlock)
  | .exit => some ((m.exit p).setSec (.proc p) (.sched .dead))
  | .wait => some (m.wait p)
  | .allocproc => some ((m.setTable (m.table.allocproc p)).setSec (.proc p) .unlock)
  | .setRunnable => do
      let np ← (m.table.proc p).pc.reserves
      pure ((m.setTable (m.table.setRunnable p np)).setSec (.proc p) .unlock)

/-- `sched`, `sleep` and the ends of the other functions, in the thread of `p` on CPU `c`. -/
def run (m : Machine κ) (c : κ) (p : Fin NPROC) (l : List (Fin NPROC)) : Option (Machine κ) :=
  match m.sec (.proc p) with
  | .out => none
  | .body e => m.body p e
  | .sleep ch n =>
      if m.locked .ptable = none then
        some ((m.acquire c .ptable).setSec (.proc p) (.sleep1 ch n))
      else none
  | .sleep1 ch n => some ((m.release c (.other n)).setSec (.proc p) (.sleep2 ch (.other n)))
  | .sleep2 ch lk =>
      some ((m.setProc p { m.table.proc p with chan := some ch, state := .sleeping }).setSec
        (.proc p) (.sched (.woken ch lk)))
  | .sched k =>
      -- else the panics "sched ptable.lock", "sched locks" and "sched running"
      if m.locked .ptable = some c ∧ (m.cpu c).ncli = 1 ∧ (m.table.proc p).state ≠ .running then
        some (m.setSec (.proc p) (.suspended k))
      else none
  | .suspended _ => some (m.setPhase c (.back p l))
  | .woken _ lk =>
      let m' := m.setProc p { m.table.proc p with chan := none }
      match lk with
      | .ptable => some (m'.setSec (.proc p) (.body .wait))
      | .other n => some (m'.setSec (.proc p) (.release n))
  | .release n => some (((m.release c .ptable).setSec (.proc p) .out).setRelock p (some n))
  | .unlock => some ((m.release c .ptable).setSec (.proc p) .out)

/-- The same in an interrupt of the idle scheduler, where only `wakeup` is called. -/
def runIdle (m : Machine κ) (c : κ) : Option (Machine κ) :=
  match m.sec (.sched c) with
  | .body (.wakeup ch) =>
      some (((m.setTable (m.table.wakeup1 (some ch))).cover ch).setSec (.sched c) .unlock)
  | .unlock => some ((m.release c .ptable).setSec (.sched c) .out)
  | _ => none

/-! ### Steps -/

/-- The thread may call the function: `exit`, `wait` and `fork` are called outside `fork`, and
`initproc` does not exit; at the end of `sleep` there are only interrupts. -/
def mayCall (m : Machine κ) (p : Fin NPROC) : Entry → Bool
  | .exit => m.relock p = none ∧ (m.table.proc p).pc = .user ∧ p ≠ m.table.initproc
  | .wait | .allocproc => m.relock p = none ∧ (m.table.proc p).pc = .user
  | .setRunnable => m.relock p = none ∧ (m.table.proc p).pc.last
  | .kill _ => m.relock p = none
  | .yield | .wakeup _ => true

/-- A step of CPU `c` outside the table's code, in the thread `t`. -/
def outside (m : Machine κ) (c : κ) (t : Thread κ) : Op → Option (Machine κ)
  | .acquire n =>
      if m.locked (.other n) = none then some (m.acquire c (.other n)) else none
  | .release n =>
      if m.locked (.other n) = some c then some (m.release c (.other n)) else none
  | .change ch n =>
      if m.locked (.other n) = some c then some (m.change ch (.other n)) else none
  | .call e =>
      if m.locked .ptable = none then some ((m.acquire c .ptable).setSec t (.body e)) else none
  | _ => none

/-- The unlocked steps of `fork` in the process `p`, which has reserved the entry `np`. -/
def fork (m : Machine κ) (p : Fin NPROC) : Op → Pc → Option (Machine κ)
  | .kalloc true, .kalloc np =>
      some { (m.setTable (m.table.goto p (.copyuvm np))).setSec (.proc np) (.suspended .unlock) with
        kstack := Function.update m.kstack np true }
  | .kalloc false, .kalloc np => some (m.setTable (m.table.forkFails p np))
  | .copyuvm true, .copyuvm np =>
      some { m.setTable (m.table.goto p (.parent np)) with
        pgdir := Function.update m.pgdir np true }
  | .copyuvm false, .copyuvm np =>
      some { m.setTable (m.table.forkFails p np) with
        kstack := Function.update m.kstack np false }
  | .setParent, .parent np => some (m.setTable (m.table.setParent p np))
  | _, _ => none

/-- A step of CPU `c` outside the table's code, in the process `p`. -/
def process (m : Machine κ) (c : κ) (p : Fin NPROC) : Op → Option (Machine κ)
  | .sleep ch n =>
      if m.relock p = none ∧ m.locked (.other n) = some c then
        some ((m.test p ch (.other n)).setSec (.proc p) (.sleep ch n))
      else none
  | .relock =>
      match m.relock p with
      | some n =>
          if m.locked (.other n) = none then
            some ((m.acquire c (.other n)).setRelock p none)
          else none
      | none => none
  | .call e => if m.mayCall p e then m.outside c (.proc p) (.call e) else none
  | .kalloc ok => m.fork p (.kalloc ok) (m.table.proc p).pc
  | .copyuvm ok => m.fork p (.copyuvm ok) (m.table.proc p).pc
  | .setParent => m.fork p .setParent (m.table.proc p).pc
  | o => m.outside c (.proc p) o

/-- The step of CPU `c`. -/
def step (m : Machine κ) (c : κ) (o : Op) : Option (Machine κ) :=
  match (m.cpu c).phase with
  | .runs p l =>
      match o with
      | .run => m.run c p l
      | _ => if m.sec (.proc p) = .out then m.process c p o else none
  | .idle =>
      match o with
      | .scheduler => m.scheduler c
      | .run => m.runIdle c
      | _ =>
          if m.sec (.sched c) = .out ∧ o.interrupt then m.outside c (.sched c) o else none
  | _ =>
      match o with
      | .scheduler => m.scheduler c
      | _ => none

/-- A step that can be taken. -/
def Step (m : Machine κ) (a : κ × Op) (m' : Machine κ) : Prop := m.step a.1 a.2 = some m'

/-- After boot: `initproc` is to start in `forkret`, and every CPU in its scheduler. -/
def boot : Machine κ where
  table := .boot
  locked := fun _ => none
  cpu := fun _ => ⟨none, 0, .idle⟩
  sec := fun t => if t = .proc 0 then .suspended .unlock else .out
  relock := fun _ => none
  kstack := fun p => p = 0
  pgdir := fun p => p = 0
  changes := fun _ _ => 0
  covered := fun _ _ => 0
  seen := fun _ => 0

end Machine

end Xv6.Process
