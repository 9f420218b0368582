import Xv6.Bio.Cache

/-!
# The log — commit and recovery over the buffer cache

`write_log`, `install_trans`, `write_head` and `read_head` of `log.c`, as calls into the buffer
cache; a pass of either loop issues one disk write.  `Machine` runs them: the processes take
their steps in the cache in any order, an operation stores into the buffers of home blocks and
passes each to `log_write`, the last `end_op` of a group starts `commit`, and the machine may
lose power after any step.  What survives is the disk; the machine then boots and runs
`recover_from_log`, and may lose power in that too.

Four ghosts record what the processes did: `cur`, the blocks logged in the current group with
the contents they had at `log_write`; `epoch`, the groups handed to `commit` since the last
completed recovery and the number of those calls that have returned; `past`, the epochs before
it; and `ended`, the operations that have reached `end_op`.
-/

namespace Xv6

namespace Sys

/-- The whole of `bread`, where the sleep-lock is free. -/
def bread (s : Sys) (p : Pid) (dev b : ℕ) : Option (Fin NBUF × Sys) := do
  let (i, s) ← s.bget ⟨p, dev, b⟩
  let s ← s.acquiresleep ⟨p, dev, b⟩ i
  let s ← s.ready i
  return (i, s)

/-- The whole of `brelse`. -/
def release (s : Sys) (p : Pid) (i : Fin NBUF) : Option Sys := do
  let s ← s.releasesleep p i
  s.brelse p i

/-- One pass of `write_log`'s loop: the block from the cache to its log block. -/
def write_log (s : Sys) (p : Pid) (tail : ℕ) : Option Sys := do
  let b ← s.log.lh.block[tail]?
  let (dst, s) ← s.bread p 1 (s.log.start + tail + 1)
  let (src, s) ← s.bread p 1 b
  let s ← s.store p dst (s.buf src).data
  let s ← s.bwrite p dst
  let s ← s.release p src
  s.release p dst

/-- One pass of `install_trans`'s loop: the log block to its home. -/
def install_trans (s : Sys) (p : Pid) (tail : ℕ) : Option Sys := do
  let b ← s.log.lh.block[tail]?
  let (lbuf, s) ← s.bread p 1 (s.log.start + tail + 1)
  let (dbuf, s) ← s.bread p 1 b
  let s ← s.store p dbuf (s.buf lbuf).data
  let s ← s.bwrite p dbuf
  let s ← s.release p lbuf
  s.release p dbuf

/-- `write_head`. -/
def write_head (s : Sys) (p : Pid) : Option Sys := do
  let (i, s) ← s.bread p 1 s.log.start
  let s ← s.store p i (writeHead (s.buf i).data s.log.lh)
  let s ← s.bwrite p i
  s.release p i

/-- `read_head`. -/
def read_head (s : Sys) (p : Pid) : Option Sys := do
  let (i, s) ← s.bread p 1 s.log.start
  let lh := readHead (s.buf i).data
  let s ← s.release p i
  return { s with log := { s.log with lh := lh } }

end Sys

/-! ### The machine -/

/-- A block logged by an operation, with its contents. -/
structure Write where
  op : ℕ
  block : ℕ
  data : Block

/-- The writes of one group of operations, in the order of their `log_write` calls. -/
abbrev Group := List Write

/-- The groups handed to `commit`, and how many of these calls have returned. -/
structure Epoch where
  groups : List Group
  returned : ℕ

/-- Where `commit` or `recover_from_log` stands: each value is before the next disk write. -/
inductive Pc where
  | off
  | recovering (tail : ℕ)
  | running
  | writing (p : Pid) (tail : ℕ)
  | installing (p : Pid) (tail : ℕ)
  | returning
  deriving DecidableEq, Repr

/-- Processes other than the recovering one exist. -/
def Pc.up : Pc → Bool
  | .off | .recovering _ => false
  | _ => true

/-- The disk, the cache and the log, with the operations that run and those that have ended. -/
structure Machine where
  sys : Sys
  pc : Pc
  /-- the processes inside an operation, with the operation's number -/
  ops : List (Pid × ℕ)
  nextOp : ℕ
  ended : List ℕ
  cur : Group
  epoch : Epoch
  past : List Epoch

namespace Machine

/-- The steps a process takes in the cache without storing. -/
inductive CacheAct where
  | bget (r : Req)
  | acquiresleep (r : Req) (i : Fin NBUF)
  | ready (i : Fin NBUF)
  | releasesleep (p : Pid) (i : Fin NBUF)
  | brelse (p : Pid) (i : Fin NBUF)

/-- The call of the buffer cache. -/
def CacheAct.act : CacheAct → Sys.Act
  | .bget r => .bget r
  | .acquiresleep r i => .acquiresleep r i
  | .ready i => .ready i
  | .releasesleep p i => .releasesleep p i
  | .brelse p i => .brelse p i

/-- What can happen: boot and recovery, calls, the steps of a commit, and a crash. -/
inductive Act where
  /-- power on: `binit`, and `recover_from_log` up to its first disk write -/
  | boot
  /-- `recover_from_log`, through its next disk write -/
  | recover
  | cache (a : CacheAct)
  | store (p : Pid) (i : Fin NBUF) (d : Block)
  | log_write (p : Pid) (i : Fin NBUF)
  | begin_op (p : Pid)
  | end_op (p : Pid)
  /-- `commit`, through its next disk write -/
  | commit
  /-- the second critical section of `end_op` -/
  | end_commit
  | crash

/-- Block `b` lies in the log: the header block and the blocks after it. -/
def inLog (start size b : ℕ) : Prop := start ≤ b ∧ b ≤ start + (size - 1)

instance (start size b : ℕ) : Decidable (inLog start size b) := by unfold inLog; infer_instance

/-- A block an operation may log. -/
def loggable (l : Log) (b : ℕ) : Bool := ¬ inLog l.start l.size b ∧ b < 2 ^ 32

/-- The number of the operation that a process is in. -/
def opOf (m : Machine) (p : Pid) : Option ℕ := (m.ops.find? (·.1 = p)).map Prod.snd

/-- The process that recovers at boot. -/
def initPid : Pid := 1

/-- `log.lh.n = 0`, then `write_head`. -/
def eraseHead (s : Sys) (p : Pid) : Option Sys := { s with log := s.log.clear }.write_head p

/-- The steps that can be taken. -/
def step (m : Machine) : Act → Option Machine
  | .boot => do
      guard (m.pc = .off)
      let l : Log := ⟨m.sys.log.start, m.sys.log.size, 0, false, ⟨[]⟩⟩
      let s ← (Sys.init m.sys.disk l).read_head initPid
      return { m with sys := s, pc := .recovering 0, ops := [], cur := [] }
  | .recover =>
      match m.pc with
      | .recovering tail =>
          if tail < m.sys.log.lh.n then do
            let s ← m.sys.install_trans initPid tail
            return { m with sys := s, pc := .recovering (tail + 1) }
          else do
            let s ← eraseHead m.sys initPid
            return { m with
              sys := s, pc := .running, past := m.past ++ [m.epoch], epoch := ⟨[], 0⟩ }
      | _ => none
  | .cache a => do
      guard m.pc.up
      let s ← m.sys.step a.act
      return { m with sys := s }
  | .store p i d => do
      guard m.pc.up
      let _ ← m.opOf p
      guard (loggable m.sys.log (m.sys.buf i).blockno)
      let s ← m.sys.store p i d
      return { m with sys := s }
  | .log_write p i => do
      guard m.pc.up
      let o ← m.opOf p
      guard (loggable m.sys.log (m.sys.buf i).blockno)
      let s ← m.sys.log_write p i
      return { m with
        sys := s, cur := m.cur ++ [⟨o, (m.sys.buf i).blockno, (m.sys.buf i).data⟩] }
  | .begin_op p => do
      guard (m.pc.up ∧ m.opOf p = none)
      let l ← m.sys.log.begin_op
      return { m with
        sys := { m.sys with log := l }, ops := (p, m.nextOp) :: m.ops, nextOp := m.nextOp + 1 }
  | .end_op p => do
      guard m.pc.up
      let o ← m.opOf p
      guard (∀ i, m.sys.unsaved i ≠ some p)
      let (c, l) ← m.sys.log.end_op.toOption
      let m := { m with
        sys := { m.sys with log := l }, ops := m.ops.eraseP (·.1 = p), ended := o :: m.ended }
      if c then
        return { m with
          pc := if l.lh.n > 0 then .writing p 0 else .returning
          cur := []
          epoch := { m.epoch with groups := m.epoch.groups ++ [m.cur] } }
      else return m
  | .commit =>
      match m.pc with
      | .writing p tail =>
          if tail < m.sys.log.lh.n then do
            let s ← m.sys.write_log p tail
            return { m with sys := s, pc := .writing p (tail + 1) }
          else do
            let s ← m.sys.write_head p
            return { m with sys := s, pc := .installing p 0 }
      | .installing p tail =>
          if tail < m.sys.log.lh.n then do
            let s ← m.sys.install_trans p tail
            return { m with sys := s, pc := .installing p (tail + 1) }
          else do
            let s ← eraseHead m.sys p
            return { m with sys := s, pc := .returning }
      | _ => none
  | .end_commit => do
      guard (m.pc = .returning)
      return { m with
        sys := { m.sys with log := m.sys.log.end_commit }
        pc := .running
        epoch := { m.epoch with returned := m.epoch.groups.length } }
  | .crash => some { m with pc := .off }

end Machine

end Xv6
