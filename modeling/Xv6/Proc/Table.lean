import Xv6.Lib.Runs
import Mathlib.Algebra.Order.Ring.Int
import Mathlib.Data.List.FinRange
import Mathlib.Logic.Function.Basic

/-!
# Processes — the table of `proc.c`

The process table, cut at `ptable.lock`: a step is a critical section of `fork`, `exit`, `wait`,
`kill`, `sleep`, `wakeup` or the scheduler, or one of the unlocked stores of `fork` into the
entry it has reserved.  Where a process stands in `fork` or `wait` is its `pc`; everything else a
process does is `user`, from where it may also sleep on a channel that is not a process.

* `fork` reserves an entry (`allocproc`), then calls `kalloc` and `copyuvm`, each of which may
  fail and gives the entry up again, then stores the parent, and last makes the child
  `RUNNABLE`.
* `wait` scans the table under the lock and returns or goes to sleep on its own entry; when it is
  scheduled again it scans again.
* `exit` wakes the parent, hands the children to `initproc` and becomes a zombie, all in one
  critical section.  `initproc` itself never exits: the kernel panics.

Entries are reused, so processes are told apart by a ghost number, `uid`, given out by
`allocproc`; the ghost `history` records the forks, exits and waits, newest first.
-/

namespace Xv6.Process

/-- The length of the table. -/
def NPROC : ℕ := 64

instance : NeZero NPROC := ⟨by decide⟩

/-- `enum procstate`. -/
inductive State where
  | unused
  | embryo
  | sleeping
  | runnable
  | running
  | zombie
  deriving DecidableEq

/-- A process: neither free, nor being set up, nor dead. -/
def State.live : State → Bool
  | .sleeping | .runnable | .running => true
  | .unused | .embryo | .zombie => false

/-- A sleep channel: the address of a process table entry, or any other address. -/
inductive Chan where
  | proc (i : Fin NPROC)
  | other (n : ℕ)
  deriving DecidableEq

/-- Where a process is: in `fork`, with the entry it has reserved, before the call of `kalloc`,
before the call of `copyuvm`, before the store of the parent, and before the child is made
`RUNNABLE`; in `wait`, before a scan; or elsewhere. -/
inductive Pc where
  | user
  | kalloc (np : Fin NPROC)
  | copyuvm (np : Fin NPROC)
  | parent (np : Fin NPROC)
  | runnable (np : Fin NPROC)
  | wait
  deriving DecidableEq

/-- The entry that a process inside `fork` has reserved. -/
def Pc.reserves : Pc → Option (Fin NPROC)
  | .kalloc np | .copyuvm np | .parent np | .runnable np => some np
  | .user | .wait => none

/-- `struct proc`, with the ghost number of the process in the entry. -/
structure Proc where
  state : State
  pid : Int32
  parent : Option (Fin NPROC)
  chan : Option Chan
  killed : Bool
  pc : Pc
  uid : ℕ

/-- A fork that made `child`, an exit, and a wait that returned `child`, by `uid`. -/
inductive Event where
  | forked (parent child : ℕ)
  | exited (uid : ℕ)
  | waited (parent child : ℕ)
  deriving DecidableEq

/-- `ptable` and the variables of `proc.c`, with what has happened. -/
structure Ptable where
  proc : Fin NPROC → Proc
  nextpid : Int32
  initproc : Fin NPROC
  nextuid : ℕ
  history : List Event

/-- What a pass of `wait` over the table comes to. -/
inductive WaitResult where
  | reaped (pid : Int32)
  | failed
  | slept

/-- The steps.  `ok` says whether the allocation succeeds. -/
inductive Act where
  | sched (p : Fin NPROC)
  | yield (p : Fin NPROC)
  | sleep (p : Fin NPROC) (n : ℕ)
  | wakeup (n : ℕ)
  | allocproc (p : Fin NPROC)
  | kalloc (p : Fin NPROC) (ok : Bool)
  | copyuvm (p : Fin NPROC) (ok : Bool)
  | setParent (p : Fin NPROC)
  | setRunnable (p : Fin NPROC)
  | exit (p : Fin NPROC)
  | wait (p : Fin NPROC)
  | scan (p : Fin NPROC)
  | kill (pid : Int32)

namespace Ptable

/-- An entry changes. -/
def set (s : Ptable) (i : Fin NPROC) (x : Proc) : Ptable :=
  { s with proc := Function.update s.proc i x }

/-- After `userinit`: entry `0` is `initproc`, with pid `1`; the others are zero. -/
def boot : Ptable where
  proc := fun i =>
    if i = 0 then ⟨.runnable, 1, none, none, false, .user, 0⟩
    else ⟨.unused, 0, none, none, false, .user, 0⟩
  nextpid := 2
  initproc := 0
  nextuid := 1
  history := []

/-! ### Scheduling and sleeping -/

/-- The scheduler picks `p`.  If `p` was asleep, `sleep` clears its channel on the way out. -/
def sched (s : Ptable) (p : Fin NPROC) : Ptable :=
  s.set p { s.proc p with state := .running, chan := none }

/-- `yield`: the process can run again at once. -/
def yield (s : Ptable) (p : Fin NPROC) : Ptable :=
  s.set p { s.proc p with state := .runnable }

/-- `sleep`, once the lock of the table is held. -/
def sleep (s : Ptable) (p : Fin NPROC) (c : Chan) : Ptable :=
  s.set p { s.proc p with chan := some c, state := .sleeping }

/-- One entry in the loop of `wakeup1`. -/
def wake (c : Option Chan) (x : Proc) : Proc :=
  if x.state = .sleeping ∧ x.chan = c then { x with state := .runnable } else x

/-- `wakeup1`: everyone who sleeps on the channel can run. -/
def wakeup1 (s : Ptable) (c : Option Chan) : Ptable :=
  { s with proc := fun i => wake c (s.proc i) }

/-! ### `fork` -/

/-- The critical section of `allocproc`: the first free entry becomes an embryo. -/
def allocproc (s : Ptable) (p : Fin NPROC) : Ptable :=
  match (List.finRange NPROC).find? fun i => (s.proc i).state = .unused with
  | none => s
  | some np =>
      let s' := s.set np { s.proc np with state := .embryo, pid := s.nextpid, uid := s.nextuid }
      { s'.set p { s'.proc p with pc := .kalloc np } with
        nextpid := s.nextpid + 1
        nextuid := s.nextuid + 1 }

/-- `fork` fails: the entry is free again, with whatever else it holds. -/
def forkFails (s : Ptable) (p np : Fin NPROC) : Ptable :=
  let s' := s.set np { s.proc np with state := .unused }
  s'.set p { s'.proc p with pc := .user }

/-- A process is further in its code. -/
def goto (s : Ptable) (p : Fin NPROC) (pc : Pc) : Ptable :=
  s.set p { s.proc p with pc := pc }

/-- `np->parent = curproc`. -/
def setParent (s : Ptable) (p np : Fin NPROC) : Ptable :=
  let s' := s.set np { s.proc np with parent := some p }
  s'.set p { s'.proc p with pc := .runnable np }

/-- The end of `fork`: the child starts, and the parent returns its pid. -/
def setRunnable (s : Ptable) (p np : Fin NPROC) : Ptable :=
  let s' := s.set np { s.proc np with state := .runnable, pc := .user }
  { s'.set p { s'.proc p with pc := .user } with
    history := .forked (s.proc p).uid (s.proc np).uid :: s.history }

/-! ### `exit` -/

/-- One entry in the loop of `exit` that passes the children of `p` to `initproc`. -/
def abandon (p : Fin NPROC) (s : Ptable) (q : Fin NPROC) : Ptable :=
  if (s.proc q).parent = some p then
    let s' := s.set q { s.proc q with parent := some s.initproc }
    if (s'.proc q).state = .zombie then s'.wakeup1 (some (.proc s.initproc)) else s'
  else s

/-- `exit`: the parent is woken, the children are passed on, and the process is a zombie. -/
def exit (s : Ptable) (p : Fin NPROC) : Ptable :=
  let s₁ := s.wakeup1 ((s.proc p).parent.map .proc)
  let s₂ := (List.finRange NPROC).foldl (abandon p) s₁
  { s₂.set p { s₂.proc p with state := .zombie } with
    history := .exited (s.proc p).uid :: s.history }

/-! ### `wait` -/

/-- The scan of `wait`: the first zombie child, or whether there are children at all. -/
def scanFrom (s : Ptable) (p : Fin NPROC) : List (Fin NPROC) → Bool → Option (Fin NPROC) × Bool
  | [], havekids => (none, havekids)
  | q :: qs, havekids =>
      if (s.proc q).parent ≠ some p then scanFrom s p qs havekids
      else if (s.proc q).state = .zombie then (some q, true)
      else scanFrom s p qs true

/-- The entry of a zombie after `wait` has freed it. -/
def freed (x : Proc) : Proc :=
  { x with pid := 0, parent := none, killed := false, state := .unused }

/-- One pass of `wait`. -/
def scan (s : Ptable) (p : Fin NPROC) : Ptable × WaitResult :=
  match s.scanFrom p (List.finRange NPROC) false with
  | (some q, _) =>
      let s' := s.set q (freed (s.proc q))
      ({ s'.set p { s'.proc p with pc := .user } with
          history := .waited (s.proc p).uid (s.proc q).uid :: s.history },
        .reaped (s.proc q).pid)
  | (none, havekids) =>
      if ¬ havekids ∨ (s.proc p).killed then
        (s.set p { s.proc p with pc := .user }, .failed)
      else (s.sleep p (.proc p), .slept)

/-! ### `kill` -/

/-- The first entry with the pid. -/
def lookup (s : Ptable) (pid : Int32) : Option (Fin NPROC) :=
  (List.finRange NPROC).find? fun i => (s.proc i).pid = pid

/-- What `kill` does to the entry it finds. -/
def kill1 (x : Proc) : Proc :=
  { x with killed := true, state := if x.state = .sleeping then .runnable else x.state }

/-- `kill`, with its return value. -/
def kill (s : Ptable) (pid : Int32) : Ptable × ℤ :=
  match s.lookup pid with
  | some i => (s.set i (kill1 (s.proc i)), 0)
  | none => (s, -1)

/-! ### Steps -/

/-- `p` is running, at `pc`. -/
def runs (s : Ptable) (p : Fin NPROC) (pc : Pc) : Prop :=
  (s.proc p).state = .running ∧ (s.proc p).pc = pc

instance (s : Ptable) (p : Fin NPROC) (pc : Pc) : Decidable (s.runs p pc) :=
  inferInstanceAs (Decidable (_ ∧ _))

/-- The steps that can be taken. -/
def step (s : Ptable) : Act → Option Ptable
  | .sched p => if (s.proc p).state = .runnable then some (s.sched p) else none
  | .yield p => if (s.proc p).state = .running then some (s.yield p) else none
  | .sleep p n => if s.runs p .user then some (s.sleep p (.other n)) else none
  | .wakeup n => some (s.wakeup1 (some (.other n)))
  | .allocproc p => if s.runs p .user then some (s.allocproc p) else none
  | .kalloc p ok => do
      let np ← (s.proc p).pc.reserves
      guard (s.runs p (.kalloc np))
      pure (if ok then s.goto p (.copyuvm np) else s.forkFails p np)
  | .copyuvm p ok => do
      let np ← (s.proc p).pc.reserves
      guard (s.runs p (.copyuvm np))
      pure (if ok then s.goto p (.parent np) else s.forkFails p np)
  | .setParent p => do
      let np ← (s.proc p).pc.reserves
      guard (s.runs p (.parent np))
      pure (s.setParent p np)
  | .setRunnable p => do
      let np ← (s.proc p).pc.reserves
      guard (s.runs p (.runnable np))
      pure (s.setRunnable p np)
  | .exit p => if s.runs p .user ∧ p ≠ s.initproc then some (s.exit p) else none
  | .wait p => if s.runs p .user then some (s.goto p .wait) else none
  | .scan p => if s.runs p .wait then some (s.scan p).1 else none
  | .kill pid => some (s.kill pid).1

/-- A step that can be taken. -/
def Step (s : Ptable) (a : Act) (t : Ptable) : Prop := s.step a = some t

end Ptable

end Xv6.Process
