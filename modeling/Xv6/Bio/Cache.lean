import Xv6.Log.Basic
import Mathlib.Logic.Function.Basic
import Mathlib.Data.List.FinRange

/-!
# The buffer cache — `bio.c` over the memory disk of `memide.c`

A `Bcache` is the array of buffers with the list of them in `next` order from `bcache.head`.
`bget`, `bwrite` and `brelse` are cut where the code gives up a lock, so that a step of the
system is a stretch of code no other process can interleave with:

* `bget` is its critical section under `bcache.lock`; the process then waits for the buffer's
  sleep-lock (`acquiresleep`), and the end of `bread` calls `iderw` if the buffer is not valid;
* `brelse` is `releasesleep`, and then the critical section that drops the reference.

`Sys` adds to the cache and the disk where each process stands in these calls (`Ctl`), the log
record, and a ghost: `flat`, the contents last stored into each block through the cache.  A
process that holds a buffer may store into it and must then call `log_write` or `bwrite` before
it releases the buffer; nothing else is asked of the processes, so `write_log`, `write_head` and
`install_trans` are among their behaviours.
-/

namespace Xv6

/-- `struct buf`.  The two flags are the bits `B_VALID` and `B_DIRTY`; `lock` is the pid in the
sleep-lock, if it is held. -/
structure Buf where
  valid : Bool
  dirty : Bool
  dev : ℕ
  blockno : ℕ
  lock : Option Pid
  refcnt : ℕ
  data : Block

/-- The buffer carries block `blockno` of device `dev`. -/
def Buf.carries (b : Buf) (dev blockno : ℕ) : Prop := b.dev = dev ∧ b.blockno = blockno

instance (b : Buf) (dev blockno : ℕ) : Decidable (b.carries dev blockno) := by
  unfold Buf.carries; infer_instance

/-- `bcache`: the buffers, and their list from `head.next` on. -/
structure Bcache where
  buf : Fin NBUF → Buf
  lru : List (Fin NBUF)

/-- The memory disk. -/
structure Disk where
  size : ℕ
  block : ℕ → Block

/-- `iderw` of `memide.c`, called by `p`. -/
def iderw (p : Pid) (b : Buf) (d : Disk) : Except Panic (Buf × Disk) :=
  if b.lock ≠ some p then .error .iderwNotLocked
  else if b.valid ∧ ¬ b.dirty then .error .iderwNothingToDo
  else if b.dev ≠ 1 then .error .iderwNotDisk1
  else if b.blockno ≥ d.size then .error .iderwOutOfRange
  else if b.dirty then
    .ok ({ b with dirty := false, valid := true },
      { d with block := Function.update d.block b.blockno b.data })
  else .ok ({ b with data := d.block b.blockno, valid := true }, d)

namespace Bcache

/-- A buffer changes. -/
def set (c : Bcache) (i : Fin NBUF) (b : Buf) : Bcache :=
  { c with buf := Function.update c.buf i b }

/-- `binit`: zeroed buffers, each pushed at the head of the list in turn. -/
def binit : Bcache where
  buf := fun _ => ⟨false, false, 0, 0, none, 0, fun _ => 0⟩
  lru := (List.finRange NBUF).reverse

/-- The critical section of `bget`: the buffer found, with its reference taken.  The first loop
follows `next`, the second `prev`. -/
def bget (c : Bcache) (dev blockno : ℕ) : Except Panic (Fin NBUF × Bcache) :=
  match c.lru.find? fun i => (c.buf i).carries dev blockno with
  | some i => .ok (i, c.set i { c.buf i with refcnt := (c.buf i).refcnt + 1 })
  | none =>
      match c.lru.reverse.find? fun i => (c.buf i).refcnt = 0 ∧ ¬ (c.buf i).dirty with
      | some i =>
          .ok (i, c.set i { c.buf i with
            dev := dev, blockno := blockno, valid := false, dirty := false, refcnt := 1 })
      | none => .error .bgetNoBuffers

/-- `bwrite`, called by `p`. -/
def bwrite (c : Bcache) (d : Disk) (p : Pid) (i : Fin NBUF) : Except Panic (Bcache × Disk) :=
  if (c.buf i).lock ≠ some p then .error .bwrite
  else do
    let (b, d) ← iderw p { c.buf i with dirty := true } d
    .ok (c.set i b, d)

/-- The critical section of `brelse`: drop the reference; the last one moves the buffer to the
head of the list. -/
def brelse (c : Bcache) (i : Fin NBUF) : Bcache :=
  let b := { c.buf i with refcnt := (c.buf i).refcnt - 1 }
  let c := c.set i b
  if b.refcnt = 0 then { c with lru := i :: c.lru.erase i } else c

end Bcache

/-! ### The system -/

/-- A call `bread(dev, blockno)` made by `pid`. -/
structure Req where
  pid : Pid
  dev : ℕ
  blockno : ℕ
  deriving DecidableEq, Repr

/-- A buffer whose sleep-lock a `bread` call holds: whether the call has returned, and whether
its caller has stored into the buffer since its last `log_write` or `bwrite`. -/
structure Held where
  req : Req
  ready : Bool
  stored : Bool
  deriving DecidableEq, Repr

/-- Where the processes stand with one buffer: the calls between `bget` and `acquiresleep`, the
call that holds it, and the processes between `releasesleep` and the end of `brelse`. -/
structure Ctl where
  waiting : List Req
  held : Option Held
  releasing : List Pid
  deriving DecidableEq, Repr

/-- The cache, the disk, the log, and where the processes stand with each buffer. -/
structure Sys where
  cache : Bcache
  disk : Disk
  log : Log
  ctl : Fin NBUF → Ctl
  /-- ghost: the contents last stored into each block -/
  flat : ℕ → ℕ → Block

namespace Sys

/-- The system after `binit`, over any disk. -/
def init (disk : Disk) (log : Log) : Sys where
  cache := Bcache.binit
  disk := disk
  log := log
  ctl := fun _ => ⟨[], none, []⟩
  flat := fun _ => disk.block

/-- A buffer of the cache. -/
def buf (s : Sys) (i : Fin NBUF) : Buf := s.cache.buf i

/-- `p` holds buffer `i` from a `bread` that has returned. -/
def holds (s : Sys) (p : Pid) (i : Fin NBUF) : Bool :=
  match (s.ctl i).held with
  | some h => h.req.pid = p ∧ h.ready
  | none => false

/-- The process that has stored into buffer `i` and not yet passed it on. -/
def unsaved (s : Sys) (i : Fin NBUF) : Option Pid :=
  (s.ctl i).held.bind fun h => if h.stored then some h.req.pid else none

/-- A buffer changes. -/
def setBuf (s : Sys) (i : Fin NBUF) (b : Buf) : Sys := { s with cache := s.cache.set i b }

/-- Where the processes stand with a buffer changes. -/
def setCtl (s : Sys) (i : Fin NBUF) (k : Ctl) : Sys := { s with ctl := Function.update s.ctl i k }

/-- Mark the holder of buffer `i`. -/
def mark (s : Sys) (i : Fin NBUF) (ready stored : Bool) : Sys :=
  s.setCtl i { s.ctl i with
    held := (s.ctl i).held.map fun h => { h with ready := ready, stored := stored } }

/-- The first half of a `bread`. -/
def bget (s : Sys) (r : Req) : Option (Fin NBUF × Sys) := do
  guard (r.dev ≠ 0)
  let (i, c) ← (s.cache.bget r.dev r.blockno).toOption
  return (i, { s with cache := c }.setCtl i { s.ctl i with waiting := r :: (s.ctl i).waiting })

/-- The call `r` gets the sleep-lock of the buffer it waits for. -/
def acquiresleep (s : Sys) (r : Req) (i : Fin NBUF) : Option Sys := do
  guard (r ∈ (s.ctl i).waiting ∧ (s.buf i).lock = none)
  return (s.setBuf i { s.buf i with lock := some r.pid }).setCtl i
    { s.ctl i with waiting := (s.ctl i).waiting.erase r, held := some ⟨r, false, false⟩ }

/-- The end of a `bread`: read the block if the buffer is not valid, and return. -/
def ready (s : Sys) (i : Fin NBUF) : Option Sys := do
  let h ← (s.ctl i).held
  guard (h.ready = false)
  if (s.buf i).valid then return s.mark i true h.stored
  else
    let (b, d) ← (iderw h.req.pid (s.buf i) s.disk).toOption
    return ({ s with disk := d }.setBuf i b).mark i true h.stored

/-- `p` modifies the data of a buffer it holds. -/
def store (s : Sys) (p : Pid) (i : Fin NBUF) (d : Block) : Option Sys := do
  guard (s.holds p i)
  let b := s.buf i
  return { (s.setBuf i { b with data := d }).mark i true true with
    flat := Function.update s.flat b.dev (Function.update (s.flat b.dev) b.blockno d) }

/-- `log_write` on a buffer `p` holds. -/
def log_write (s : Sys) (p : Pid) (i : Fin NBUF) : Option Sys := do
  guard (s.holds p i)
  let l ← (s.log.log_write (s.buf i).blockno).toOption
  return ({ s with log := l }.setBuf i { s.buf i with dirty := true }).mark i true false

/-- `bwrite`, by a process that holds the buffer. -/
def bwrite (s : Sys) (p : Pid) (i : Fin NBUF) : Option Sys := do
  guard (s.holds p i)
  let (c, d) ← (s.cache.bwrite s.disk p i).toOption
  return { s with cache := c, disk := d }.mark i true false

/-- The first half of `brelse`; what `p` stored has been passed to `log_write` or `bwrite`. -/
def releasesleep (s : Sys) (p : Pid) (i : Fin NBUF) : Option Sys := do
  guard (s.holds p i ∧ (s.ctl i).held.all fun h => !h.stored)
  return (s.setBuf i { s.buf i with lock := none }).setCtl i
    { s.ctl i with held := none, releasing := p :: (s.ctl i).releasing }

/-- The second half of `brelse`. -/
def brelse (s : Sys) (p : Pid) (i : Fin NBUF) : Option Sys := do
  guard (p ∈ (s.ctl i).releasing)
  return { s with cache := s.cache.brelse i }.setCtl i
    { s.ctl i with releasing := (s.ctl i).releasing.erase p }

/-- The steps of any process. -/
inductive Act where
  | bget (r : Req)
  | acquiresleep (r : Req) (i : Fin NBUF)
  | ready (i : Fin NBUF)
  | store (p : Pid) (i : Fin NBUF) (d : Block)
  | log_write (p : Pid) (i : Fin NBUF)
  | bwrite (p : Pid) (i : Fin NBUF)
  | releasesleep (p : Pid) (i : Fin NBUF)
  | brelse (p : Pid) (i : Fin NBUF)
  | begin_op
  | end_op
  /-- `log.lh.n = 0` in `commit` -/
  | clear
  | end_commit

/-- One step; `none` when it has to wait or panics. -/
def step (s : Sys) : Act → Option Sys
  | .bget r => (s.bget r).map Prod.snd
  | .acquiresleep r i => s.acquiresleep r i
  | .ready i => s.ready i
  | .store p i d => s.store p i d
  | .log_write p i => s.log_write p i
  | .bwrite p i => s.bwrite p i
  | .releasesleep p i => s.releasesleep p i
  | .brelse p i => s.brelse p i
  | .begin_op => s.log.begin_op.map fun l => { s with log := l }
  | .end_op => s.log.end_op.toOption.map fun r => { s with log := r.2 }
  | .clear => if s.log.committing then some { s with log := s.log.clear } else none
  | .end_commit => if s.log.committing then some { s with log := s.log.end_commit } else none

end Sys

end Xv6
