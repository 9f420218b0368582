import Xv6.Bio.Coherence
import Xv6.Ide.Driver

/-!
# The disk driver — errors

The system is that of the buffer cache with this driver in the place of the memory disk: a
`bread` that has to read its block, and a `bwrite`, call `iderw` and sleep in it (`asleep`) until
an interrupt has completed their request.  All blocks are of disk 1, the `ROOTDEV` of the file
system.

* `valid_is_read` — while no request fails, a buffer that is valid and clean has the contents of
  its block.
* `not_valid_is_read` — a read that fails makes its buffer valid.
-/

namespace Xv6.Ide

open Lib (Fifo Run guard_eq_some toOption_eq_some)

/-- The buffer cache over the driver of the disk, which may fail. -/
structure Sys where
  core : Xv6.Sys
  idequeue : Fifo (Fin NBUF)
  havedisk1 : Bool
  disk0 : ℕ → Block
  command : Option Command
  port : Block
  /-- the buffers whose `iderw` has not returned -/
  asleep : List (Fin NBUF)

namespace Sys

/-- The system after `binit` and `ideinit`, over any disks. -/
def init (disk : Disk) (log : Log) (disk0 : ℕ → Block) (havedisk1 : Bool) : Sys where
  core := Xv6.Sys.init disk log
  idequeue := .empty
  havedisk1 := havedisk1
  disk0 := disk0
  command := none
  port := fun _ => 0
  asleep := []

/-- A buffer of the cache. -/
def buf (s : Sys) (i : Fin NBUF) : Buf := s.core.buf i

/-- The call that holds a buffer. -/
def held (s : Sys) (i : Fin NBUF) : Option Held := (s.core.ctl i).held

/-- What the driver sees. -/
def driver (s : Sys) : Driver where
  buf := s.core.cache.buf
  idequeue := s.idequeue
  havedisk1 := s.havedisk1
  controller :=
    { sector := fun d => if d then s.core.disk.block else s.disk0
      command := s.command
      port := s.port }

/-- What the driver leaves. -/
def put (s : Sys) (d : Driver) : Sys :=
  { s with
    core := { s.core with
      cache := { s.core.cache with buf := d.buf }
      disk := { s.core.disk with block := d.controller.sector true } }
    idequeue := d.idequeue
    havedisk1 := d.havedisk1
    disk0 := d.controller.sector false
    command := d.controller.command
    port := d.controller.port }

/-- `iderw` up to its loop. -/
def iderw (s : Sys) (p : Pid) (i : Fin NBUF) (polls : List (BitVec 8)) : Option Sys := do
  let d ← (s.driver.iderw p i polls).toOption
  return { s.put d with asleep := i :: s.asleep }

/-- A `bread` that has its buffer's lock finds it not valid, and calls `iderw`. -/
def bread (s : Sys) (i : Fin NBUF) (polls : List (BitVec 8)) : Option Sys := do
  let h ← s.held i
  guard (i ∉ s.asleep ∧ h.ready = false ∧ (s.buf i).valid = false)
  s.iderw h.req.pid i polls

/-- `bwrite`, up to the loop of its `iderw`. -/
def bwrite (s : Sys) (p : Pid) (i : Fin NBUF) (polls : List (BitVec 8)) : Option Sys := do
  guard (i ∉ s.asleep ∧ s.core.holds p i)
  let s := { s with
    core := (s.core.setBuf i { s.buf i with dirty := true }).mark i true false }
  s.iderw p i polls

/-- The `iderw` of buffer `i` returns, and with it the `bread` or `bwrite` that called it. -/
def wake (s : Sys) (i : Fin NBUF) : Option Sys := do
  guard (i ∈ s.asleep ∧ waits (s.buf i) = false)
  return { s with core := s.core.mark i true false, asleep := s.asleep.erase i }

/-- An interrupt of the disk. -/
def interrupt (s : Sys) (polls polls' : List (BitVec 8)) (junk : Block) : Option Sys := do
  let d ← (s.driver.interrupt polls polls' junk).toOption
  return s.put d

/-- The steps of the system: those of the cache, with the calls of `iderw` replaced by the
driver's. -/
inductive Act where
  | cache (a : Xv6.Sys.Act)
  | bread (i : Fin NBUF) (polls : List (BitVec 8))
  | bwrite (p : Pid) (i : Fin NBUF) (polls : List (BitVec 8))
  | wake (i : Fin NBUF)
  | interrupt (polls polls' : List (BitVec 8)) (junk : Block)

/-- The cache can take this step: it calls no `iderw`, and the holder of a buffer does nothing
while it sleeps. -/
def allows (s : Sys) : Xv6.Sys.Act → Bool
  | .bget r => r.dev = 1
  | .ready i => i ∉ s.asleep ∧ (s.buf i).valid
  | .bwrite _ _ => false
  | .store _ i _ | .log_write _ i | .releasesleep _ i => i ∉ s.asleep
  | .acquiresleep _ _ | .brelse _ _ | .begin_op | .end_op | .clear | .end_commit => true

/-- The steps that can be taken. -/
def step (s : Sys) : Act → Option Sys
  | .cache a => if s.allows a then (s.core.step a).map fun c => { s with core := c } else none
  | .bread i polls => s.bread i polls
  | .bwrite p i polls => s.bwrite p i polls
  | .wake i => s.wake i
  | .interrupt polls polls' junk => s.interrupt polls polls' junk

/-- No request fails: the status that completes one shows neither `IDE_DF` nor `IDE_ERR`. -/
def Succeeds (s : Sys) : Act → Prop
  | .interrupt polls _ _ =>
      s.command ≠ none → ∀ r, polls.find? ready = some r → failed r = false
  | _ => True

/-! ### What the cache's steps leave to the driver -/

variable {s t : Sys} {c c' : Xv6.Sys} {i j : Fin NBUF} {p : Pid} {xs : List (Fin NBUF)}
  {polls polls' : List (BitVec 8)}

/-- Only the sleep-lock and the count have changed. -/
def Kept (b b' : Buf) : Prop := b' = { b with lock := b'.lock, refcnt := b'.refcnt }

theorem Kept.refl (b : Buf) : Kept b b := rfl

theorem Kept.asks {b b' : Buf} (h : Kept b b') {k : Command} (hk : k.Asks b) : k.Asks b' := by
  rw [h]
  exact ⟨hk.drive, hk.sector, hk.data⟩

/-- What a step of the cache does to a buffer. -/
inductive Change (a : Xv6.Sys.Act) (i : Fin NBUF) (b b' : Buf) : Prop where
  | kept (h : Kept b b') (hr : b'.refcnt ≤ b.refcnt)
  | found (r : Req) (ha : a = .bget r) (h : Kept b b') (hc : b.carries r.dev r.blockno)
  | recycled (r : Req) (ha : a = .bget r) (hr : b.refcnt = 0) (hd : b.dirty = false)
      (h' : b'.dev = r.dev)
  | stored (p : Pid) (d : Block) (ha : a = .store p i d) (h : b' = { b with data := d })
  | logged (p : Pid) (ha : a = .log_write p i) (h : b' = { b with dirty := true })

theorem change_of_eq {a : Xv6.Sys.Act} (h : c'.buf i = c.buf i) :
    Change a i (c.buf i) (c'.buf i) := .kept (by rw [h]; rfl) (by rw [h])

/-- What a call of the cache can change of a buffer. -/
theorem cache_change {a : Xv6.Sys.Act} (hal : s.allows a = true) (h : s.core.step a = some c)
    (hi : s.core.Inv) (i : Fin NBUF) : Change a i (s.core.buf i) (c.buf i) := by
  -- the change of a step that writes buffer `j` only
  have hone : ∀ {j : Fin NBUF} {b : Buf}, (∀ i, i ≠ j → c.buf i = s.core.buf i) → c.buf j = b →
      Change a j (s.core.buf j) b → Change a i (s.core.buf i) (c.buf i) := by
    intro j b hne hb hc
    by_cases hij : i = j
    · rw [hij, hb]; exact hc
    · exact change_of_eq (hne i hij)
  -- One case per call of the cache.
  cases a with
  | bget r =>
      obtain ⟨⟨k, u⟩, hu, rfl⟩ := Option.map_eq_some_iff.mp h
      simp only [Xv6.Sys.bget, Option.bind_eq_bind, Option.bind_eq_some_iff, guard_eq_some,
        toOption_eq_some, Option.pure_def, Option.some.injEq, Prod.mk.injEq] at hu
      obtain ⟨-, -, ⟨j, c'⟩, hb, rfl, rfl⟩ := hu
      rcases Xv6.Sys.bget_cases hi.lru hb with ⟨hcar, rfl⟩ | ⟨-, h0, hd, rfl⟩
      · exact hone (fun i hij => Xv6.Sys.buf_setBuf_of_ne _ hij) (Xv6.Sys.buf_setBuf _)
          (.found r rfl rfl hcar)
      · exact hone (fun i hij => Xv6.Sys.buf_setBuf_of_ne _ hij) (Xv6.Sys.buf_setBuf _)
          (.recycled r rfl h0 hd rfl)
  | acquiresleep r j =>
      simp only [Xv6.Sys.step, Xv6.Sys.acquiresleep, Option.bind_eq_bind, Option.bind_eq_some_iff,
        guard_eq_some, Option.pure_def, Option.some.injEq] at h
      obtain ⟨-, -, rfl⟩ := h
      exact hone (fun i hij => Xv6.Sys.buf_setBuf_of_ne _ hij) (Xv6.Sys.buf_setBuf _)
        (.kept rfl le_rfl)
  | ready j =>
      have hv : (s.core.buf j).valid = true := by
        simp only [allows, decide_eq_true_eq] at hal
        exact hal.2
      simp only [Xv6.Sys.step, Xv6.Sys.ready, Option.bind_eq_bind, Option.bind_eq_some_iff,
        guard_eq_some, if_pos hv] at h
      obtain ⟨x, -, -, -, h⟩ := h
      cases h
      exact change_of_eq rfl
  | store p j d =>
      simp only [Xv6.Sys.step, Xv6.Sys.store, Option.bind_eq_bind, Option.bind_eq_some_iff,
        guard_eq_some, Option.pure_def, Option.some.injEq] at h
      obtain ⟨-, -, rfl⟩ := h
      by_cases hij : i = j
      · subst hij
        exact .stored p d rfl (Xv6.Sys.buf_setBuf _)
      · exact change_of_eq (Xv6.Sys.buf_setBuf_of_ne _ hij)
  | log_write p j =>
      simp only [Xv6.Sys.step, Xv6.Sys.log_write, Option.bind_eq_bind, Option.bind_eq_some_iff,
        guard_eq_some, Option.pure_def, Option.some.injEq] at h
      obtain ⟨-, -, l, -, rfl⟩ := h
      by_cases hij : i = j
      · subst hij
        exact .logged p rfl (Xv6.Sys.buf_setBuf _)
      · exact change_of_eq (Xv6.Sys.buf_setBuf_of_ne _ hij)
  | bwrite p j => cases hal
  | releasesleep p j =>
      simp only [Xv6.Sys.step, Xv6.Sys.releasesleep, Option.bind_eq_bind, Option.bind_eq_some_iff,
        guard_eq_some, Option.pure_def, Option.some.injEq] at h
      obtain ⟨-, -, rfl⟩ := h
      exact hone (fun i hij => Xv6.Sys.buf_setBuf_of_ne _ hij) (Xv6.Sys.buf_setBuf _)
        (.kept rfl le_rfl)
  | brelse p j =>
      simp only [Xv6.Sys.step, Xv6.Sys.brelse, Option.bind_eq_bind, Option.bind_eq_some_iff,
        guard_eq_some, Option.pure_def, Option.some.injEq] at h
      obtain ⟨-, -, rfl⟩ := h
      have hbuf := Xv6.Sys.brelse_buf (i := j) s.core.cache
      refine hone (fun i hij => ?_) ((congrFun hbuf j).trans (Function.update_self ..))
        (.kept rfl (Nat.sub_le _ _))
      exact (congrFun hbuf i).trans (Function.update_of_ne hij ..)
  | begin_op | end_op =>
      obtain ⟨l, -, rfl⟩ := Option.map_eq_some_iff.mp h
      exact change_of_eq rfl
  | clear | end_commit =>
      simp only [Xv6.Sys.step] at h
      split at h
      · cases h
        exact change_of_eq rfl
      · cases h

/-- **A step of the cache leaves a sleeping holder its buffer's lock.** -/
theorem cache_held {a : Xv6.Sys.Act} {x : Held} (hal : s.allows a = true)
    (h : s.core.step a = some c) (hi : s.core.Inv) (hx : (s.core.ctl i).held = some x)
    (hs : i ∈ s.asleep) : (c.ctl i).held = some x := by
  have hset : ∀ {u : Xv6.Sys} {k : Ctl} {j : Fin NBUF}, u.ctl i = s.core.ctl i →
      (i = j → k.held = some x) → ((u.setCtl j k).ctl i).held = some x := by
    intro u k j hu hk
    by_cases hij : i = j
    · subst hij; rw [Xv6.Sys.ctl_setCtl, hk rfl]
    · rw [Xv6.Sys.ctl_setCtl_of_ne _ hij, hu, hx]
  cases a with
  | bget r =>
      obtain ⟨⟨k, u⟩, hu, rfl⟩ := Option.map_eq_some_iff.mp h
      simp only [Xv6.Sys.bget, Option.bind_eq_bind, Option.bind_eq_some_iff, guard_eq_some,
        toOption_eq_some, Option.pure_def, Option.some.injEq, Prod.mk.injEq] at hu
      obtain ⟨-, -, ⟨j, c'⟩, -, rfl, rfl⟩ := hu
      exact hset rfl fun hij => hij ▸ hx
  | acquiresleep r j =>
      simp only [Xv6.Sys.step, Xv6.Sys.acquiresleep, Option.bind_eq_bind, Option.bind_eq_some_iff,
        guard_eq_some, Option.pure_def, Option.some.injEq] at h
      obtain ⟨-, ⟨-, hl⟩, rfl⟩ := h
      refine hset rfl fun hij => ?_
      rw [← hij, (hi.cell i).lock, hx] at hl
      cases hl
  | ready j =>
      simp only [allows, decide_eq_true_eq] at hal
      simp only [Xv6.Sys.step, Xv6.Sys.ready, Option.bind_eq_bind, Option.bind_eq_some_iff,
        guard_eq_some, show (s.core.buf j).valid = true from hal.2, if_true] at h
      obtain ⟨y, -, -, -, h⟩ := h
      cases h
      exact hset rfl fun hij => absurd (hij ▸ hs) hal.1
  | store p j d =>
      simp only [Xv6.Sys.step, Xv6.Sys.store, Option.bind_eq_bind, Option.bind_eq_some_iff,
        guard_eq_some, Option.pure_def, Option.some.injEq] at h
      obtain ⟨-, -, rfl⟩ := h
      exact hset rfl fun hij => absurd (hij ▸ hs) (by simpa [allows] using hal)
  | log_write p j =>
      simp only [Xv6.Sys.step, Xv6.Sys.log_write, Option.bind_eq_bind, Option.bind_eq_some_iff,
        guard_eq_some, Option.pure_def, Option.some.injEq] at h
      obtain ⟨-, -, l, -, rfl⟩ := h
      exact hset rfl fun hij => absurd (hij ▸ hs) (by simpa [allows] using hal)
  | bwrite p j => cases hal
  | releasesleep p j =>
      simp only [Xv6.Sys.step, Xv6.Sys.releasesleep, Option.bind_eq_bind, Option.bind_eq_some_iff,
        guard_eq_some, Option.pure_def, Option.some.injEq] at h
      obtain ⟨-, -, rfl⟩ := h
      exact hset rfl fun hij => absurd (hij ▸ hs) (by simpa [allows] using hal)
  | brelse p j =>
      simp only [Xv6.Sys.step, Xv6.Sys.brelse, Option.bind_eq_bind, Option.bind_eq_some_iff,
        guard_eq_some, Option.pure_def, Option.some.injEq] at h
      obtain ⟨-, -, rfl⟩ := h
      exact hset rfl fun hij => hij ▸ hx
  | begin_op | end_op =>
      obtain ⟨l, -, rfl⟩ := Option.map_eq_some_iff.mp h
      exact hx
  | clear | end_commit =>
      simp only [Xv6.Sys.step] at h
      split at h
      · cases h
        exact hx
      · cases h

/-! ### What the driver's steps do to the cache -/

/-- The driver writes the data and flags of buffer `i`, and on the disk at most its block. -/
theorem core_set (hi : c.Inv) (hlru : c'.cache.lru = c.cache.lru) (hflat : c'.flat = c.flat)
    (hbuf : ∀ j, j ≠ i → c'.buf j = c.buf j) (hctl : ∀ j, j ≠ i → c'.ctl j = c.ctl j)
    (hdisk : ∀ n, n ≠ (c.buf i).blockno → c'.disk.block n = c.disk.block n)
    (hdev : (c'.buf i).dev = (c.buf i).dev) (hno : (c'.buf i).blockno = (c.buf i).blockno)
    (h1 : (c.buf i).dev = 1) (hv : (c'.buf i).valid = true)
    (hok : Xv6.Sys.CellOk c.flat c'.disk.block (c'.buf i) (c'.ctl i)) : c'.Inv := by
  refine hi.set i (hlru ▸ hi.lru) hbuf hctl (hflat ▸ hok) (fun j hj hd hc => ?_)
    (fun j hj hvj hdj => ?_) (fun n hn hni => ?_)
  · rw [hdev] at hd hc
    rw [hno] at hc
    exact hj (hi.uniq i j hd hc).symm
  · exact ⟨by rw [hflat], hdisk _ (hi.blockno_ne h1 hj hdj)⟩
  · have hne : n ≠ (c.buf i).blockno := fun e => hni hv ⟨hdev.trans h1, hno.trans e.symm⟩
    rw [hdisk n hne, hflat]
    refine hi.absent n fun j hvj => ?_
    by_cases hj : j = i
    · subst hj; exact fun hcj => hne hcj.2.symm
    · exact hn j hj hvj

/-- A holder marks its buffer dirty. -/
theorem dirtied_inv (hi : c.Inv) (h : c.holds p i = true) :
    ((c.setBuf i { c.buf i with dirty := true }).mark i true false).Inv := by
  obtain ⟨x, hx, -, hv, h1, -⟩ := Xv6.Sys.holds_cell hi h
  have hc := hi.cell i
  refine core_set hi rfl rfl (fun j hj => Xv6.Sys.buf_setBuf_of_ne _ hj)
    (fun j hj => Xv6.Sys.ctl_mark_of_ne (s := c.setBuf i _) true false hj) (fun _ _ => rfl)
    (by simp) (by simp) h1 (by simpa using hv) ?_
  rw [Xv6.Sys.ctl_mark (s := c.setBuf i _) hx, Xv6.Sys.buf_mark, Xv6.Sys.buf_setBuf]
  exact hc.work hx false rfl rfl rfl rfl hv h1 (by rw [hc.flat hv, h1]) nofun

/-- A call that holds a valid buffer returns. -/
theorem mark_inv {x : Held} (hi : c.Inv) (hx : (c.ctl i).held = some x) (hs : x.stored = false)
    (hv : (c.buf i).valid = true) : (c.mark i true false).Inv := by
  have hc := hi.cell i
  have h1 := hc.disk1 hv
  refine core_set hi rfl rfl (fun _ _ => rfl) (fun j hj => Xv6.Sys.ctl_mark_of_ne _ _ hj)
    (fun _ _ => rfl) rfl rfl h1 hv ?_
  rw [Xv6.Sys.ctl_mark hx, Xv6.Sys.buf_mark]
  refine hc.work hx false rfl rfl rfl rfl hv h1 (by rw [hc.flat hv, h1]) fun hd _ => ?_
  refine hc.clean hv (by simp [hd]) fun y hy => ?_
  rw [hx] at hy
  cases hy
  simp [hs]

/-- **A request is completed**: a dirty buffer's block has been written, any other buffer has the
contents of its block. -/
theorem served_inv {data : Block} (hi : c.Inv) (h1 : (c.buf i).dev = 1)
    (hw : (c.buf i).dirty = true ∨ (c.buf i).valid = false)
    (hd : (c.buf i).dirty = true → data = (c.buf i).data)
    (hr : (c.buf i).dirty = false → data = c.disk.block (c.buf i).blockno) :
    Xv6.Sys.Inv (({ c with disk := { c.disk with
        block := Function.update c.disk.block (c.buf i).blockno data } } : Xv6.Sys).setBuf i
      { c.buf i with data := data, valid := true, dirty := false }) := by
  have hc := hi.cell i
  have hflat : data = c.flat 1 (c.buf i).blockno := by
    cases hdirty : (c.buf i).dirty with
    | true => rw [hd hdirty, hc.flat (hc.dirty hdirty), h1]
    | false =>
        -- no other buffer has the block, so what is read is what was last stored
        have hv : (c.buf i).valid = false := hw.resolve_left (by simp [hdirty])
        rw [hr hdirty]
        refine hi.absent _ fun j hvj hcj => ?_
        have : i = j := hi.uniq i j (by rw [h1]; decide) (by rw [h1]; exact hcj)
        rw [← this, hv] at hvj
        cases hvj
  refine core_set hi rfl rfl (fun j hj => Xv6.Sys.buf_setBuf_of_ne _ hj) (fun _ _ => rfl)
    (fun n hn => Function.update_of_ne hn ..) (by simp) (by simp) h1 (by simp) ?_
  rw [Xv6.Sys.buf_setBuf]
  refine { hc with ready := fun _ _ _ => rfl, dirty := nofun, disk1 := fun _ => h1,
                   flat := fun _ => by rw [hflat, h1], clean := fun _ _ _ => ?_ }
  exact (Function.update_self (f := c.disk.block) ..).symm

/-! ### The invariant -/

/-- The queue is made of buffers whose `iderw` waits, the first of them active; and a holder that
sleeps has nothing unsaved. -/
structure Inv (s : Sys) : Prop where
  core : s.core.Inv
  dev : ∀ i, 0 < (s.buf i).refcnt → (s.buf i).dev = 1
  queue : ∃ xs, s.idequeue.Queues xs ∧ Driver.Active s.buf s.command xs ∧
    ∀ i ∈ xs, i ∈ s.asleep ∧ waits (s.buf i) = true
  asleep : ∀ i ∈ s.asleep, ∃ x, s.held i = some x ∧ x.stored = false

theorem init_inv (disk : Disk) (log : Log) (disk0 : ℕ → Block) (havedisk1 : Bool) :
    Inv (init disk log disk0 havedisk1) where
  core := Xv6.Sys.init_inv disk log
  dev := nofun
  queue := ⟨[], rfl, rfl, nofun⟩
  asleep := nofun

/-- A buffer is cleaned only when its data is on the disk. -/
def Writes (s t : Sys) : Prop :=
  ∀ i, (s.buf i).dirty = true → (t.buf i).dirty = false →
    t.core.disk.block (s.buf i).blockno = (s.buf i).data

theorem Writes.of_dirty (h : ∀ i, (s.buf i).dirty = true → (t.buf i).dirty = true) : Writes s t :=
  fun i hd hd' => absurd ((h i hd).symm.trans hd') nofun

/-- A buffer that is held is referenced. -/
theorem Inv.dev_of_held {x : Held} (hi : Inv s) (hx : s.held i = some x) : (s.buf i).dev = 1 := by
  refine hi.dev i ?_
  have h := (hi.core.cell i).refcnt
  rw [show (s.core.ctl i).held = some x from hx] at h
  show 0 < (s.core.buf i).refcnt
  rw [h]
  exact Nat.succ_pos _

/-- A call of the cache keeps the invariant. -/
theorem cache_inv {a : Xv6.Sys.Act} (hi : Inv s) (hal : s.allows a = true)
    (h : s.core.step a = some c) : Inv { s with core := c } ∧ Writes s { s with core := c } := by
  have hch := cache_change hal h hi.core
  have hheld : ∀ i ∈ s.asleep, ∀ x, s.held i = some x → (c.ctl i).held = some x :=
    fun i hs x hx => cache_held hal h hi.core hx hs
  have hkept : ∀ i ∈ s.asleep, Kept (s.buf i) (c.buf i) := by
    intro i hs
    obtain ⟨x, hx, -⟩ := hi.asleep i hs
    cases hch i with
    | kept hk _ => exact hk
    | found r _ hk _ => exact hk
    | recycled r _ hr _ _ =>
        have hr' := (hi.core.cell i).refcnt
        rw [hr, show (s.core.ctl i).held = some x from hx] at hr'
        simp at hr'
    | stored p d ha _ => subst ha; simp [allows, hs] at hal
    | logged p ha _ => subst ha; simp [allows, hs] at hal
  have hdev : ∀ i, 0 < (c.buf i).refcnt → (c.buf i).dev = 1 := by
    intro i hr
    have hbget : ∀ r, a = .bget r → r.dev = 1 := by
      rintro r rfl
      simpa [allows] using hal
    cases hch i with
    | kept hk hle =>
        rw [show (c.buf i).dev = (s.core.buf i).dev by rw [hk]]
        exact hi.dev i (lt_of_lt_of_le hr hle)
    | found r ha hk hc =>
        rw [show (c.buf i).dev = (s.core.buf i).dev by rw [hk], hc.1, hbget r ha]
    | recycled r ha _ _ hd => exact hd.trans (hbget r ha)
    | stored p d _ hb | logged p _ hb =>
        rw [hb] at hr ⊢
        exact hi.dev i hr
  obtain ⟨xs, hq, hact, hw⟩ := hi.queue
  refine ⟨⟨(Xv6.Sys.step_inv h hi.core).1, fun i hr => ?_, ⟨xs, hq, ?_, fun i hix => ?_⟩,
    fun i hs => ?_⟩, .of_dirty fun i hd => ?_⟩
  · exact hdev i hr
  · cases xs with
    | nil => exact hact
    | cons i xs =>
        obtain ⟨k, hk, hasks⟩ := hact
        exact ⟨k, hk, (hkept i (hw i List.mem_cons_self).1).asks hasks⟩
  · refine ⟨(hw i hix).1, ?_⟩
    have := (hw i hix).2
    show waits (c.buf i) = true
    rw [hkept i (hw i hix).1]
    exact this
  · obtain ⟨x, hx, hst⟩ := hi.asleep i hs
    exact ⟨x, hheld i hs x hx, hst⟩
  · show (c.buf i).dirty = true
    have hd : (s.core.buf i).dirty = true := hd
    cases hch i with
    | kept hk _ | found _ _ hk _ | stored _ _ _ hk => rw [hk]; exact hd
    | recycled _ _ _ hd0 _ => exact absurd (hd0.symm.trans hd) nofun
    | logged _ _ hk => rw [hk]

/-- `iderw` on a buffer whose holder has nothing unsaved. -/
theorem iderw_inv {x : Held} (hi : Inv s) (hx : s.held i = some x) (hs : x.stored = false)
    (hn : i ∉ s.asleep) (h : s.iderw p i polls = some t) : Inv t ∧ t.buf = s.buf := by
  simp only [iderw, Option.bind_eq_bind, Option.bind_eq_some_iff, toOption_eq_some,
    Option.pure_def, Option.some.injEq] at h
  obtain ⟨d, hd, rfl⟩ := h
  obtain ⟨xs, hq, hact, hw⟩ := hi.queue
  obtain ⟨-, hwait, q, command, hq', hact', -, rfl⟩ :=
    Driver.iderw_cases hd hq hact fun hm => hn (hw i hm).1
  have hmem : ∀ j ∈ xs ++ [i], j ∈ i :: s.asleep ∧ waits (s.buf j) = true := by
    intro j hj
    rcases List.mem_append.mp hj with hj | hj
    · exact ⟨List.mem_cons_of_mem _ (hw j hj).1, (hw j hj).2⟩
    · rw [List.mem_singleton.mp hj]
      exact ⟨List.mem_cons_self, hwait⟩
  have hasleep : ∀ j ∈ i :: s.asleep, ∃ x, s.held j = some x ∧ x.stored = false := by
    intro j hj
    rcases List.mem_cons.mp hj with rfl | hj
    · exact ⟨x, hx, hs⟩
    · exact hi.asleep j hj
  exact ⟨⟨hi.core, hi.dev, ⟨_, hq', hact', hmem⟩, hasleep⟩, rfl⟩

/-- `bread` keeps the invariant. -/
theorem bread_inv (hi : Inv s) (h : s.bread i polls = some t) : Inv t ∧ Writes s t := by
  simp only [bread, Option.bind_eq_bind, Option.bind_eq_some_iff, guard_eq_some] at h
  obtain ⟨x, hx, -, ⟨hn, hr, -⟩, h⟩ := h
  have hst : x.stored = false := by
    cases hst : x.stored with
    | false => rfl
    | true => rw [(hi.core.cell i).stored x hx hst] at hr; cases hr
  obtain ⟨hit, hbuf⟩ := iderw_inv hi hx hst hn h
  exact ⟨hit, .of_dirty fun j hd => by rwa [hbuf]⟩

/-- `bwrite` queues a write of what the buffer has. -/
theorem bwrite_inv (hi : Inv s) (h : s.bwrite p i polls = some t) : Inv t ∧ Writes s t := by
  simp only [bwrite, Option.bind_eq_bind, Option.bind_eq_some_iff, guard_eq_some] at h
  obtain ⟨-, ⟨hn, hh⟩, h⟩ := h
  obtain ⟨x, hx, -⟩ := Xv6.Sys.holds_cell hi.core hh
  set c := (s.core.setBuf i { s.buf i with dirty := true }).mark i true false with hc
  have hbuf : ∀ j, j ≠ i → c.buf j = s.core.buf j := fun j hj => Xv6.Sys.buf_setBuf_of_ne _ hj
  have hctl : ∀ j, j ≠ i → c.ctl j = s.core.ctl j :=
    fun j hj => Xv6.Sys.ctl_mark_of_ne (s := s.core.setBuf i _) true false hj
  have hne : ∀ j ∈ s.asleep, j ≠ i := fun j hj e => hn (e ▸ hj)
  obtain ⟨xs, hq, hact, hw⟩ := hi.queue
  have hbi : c.buf i = { s.core.buf i with dirty := true } := Xv6.Sys.buf_setBuf _
  have hinv : Inv { s with core := c } := by
    refine ⟨dirtied_inv hi.core hh, fun j hr => ?_, ⟨xs, hq, ?_, fun j hj => ?_⟩, fun j hj => ?_⟩
    · show (c.buf j).dev = 1
      by_cases hj : j = i
      · rw [hj, hbi]
        exact hi.dev_of_held hx
      · rw [hbuf j hj]
        refine hi.dev j ?_
        rwa [show ({ s with core := c } : Sys).buf j = s.core.buf j from hbuf j hj] at hr
    · cases xs with
      | nil => exact hact
      | cons j xs =>
          obtain ⟨k, hk, hasks⟩ := hact
          refine ⟨k, hk, ?_⟩
          rwa [show ({ s with core := c } : Sys).buf j = s.buf j from
            hbuf j (hne j (hw j List.mem_cons_self).1)]
    · refine ⟨(hw j hj).1, ?_⟩
      show waits (c.buf j) = true
      rw [hbuf j (hne j (hw j hj).1)]
      exact (hw j hj).2
    · obtain ⟨y, hy, hst⟩ := hi.asleep j hj
      exact ⟨y, by rw [← hy]; exact congrArg Ctl.held (hctl j (hne j hj)), hst⟩
  obtain ⟨hit, htb⟩ := iderw_inv (x := ⟨x.req, true, false⟩) hinv
    (congrArg Ctl.held (Xv6.Sys.ctl_mark (s := s.core.setBuf i _) hx true false)) rfl hn h
  refine ⟨hit, .of_dirty fun j hd => ?_⟩
  rw [htb]
  show (c.buf j).dirty = true
  by_cases hj : j = i
  · rw [hj, hbi]
  · rw [hbuf j hj]
    exact hd

/-- Who is woken finds the buffer as the driver left it. -/
theorem wake_inv (hi : Inv s) (h : s.wake i = some t) : Inv t ∧ Writes s t := by
  simp only [wake, Option.bind_eq_bind, Option.bind_eq_some_iff, guard_eq_some, Option.pure_def,
    Option.some.injEq] at h
  obtain ⟨-, ⟨hm, hw0⟩, rfl⟩ := h
  obtain ⟨x, hx, hst⟩ := hi.asleep i hm
  obtain ⟨xs, hq, hact, hw⟩ := hi.queue
  have hv : (s.core.buf i).valid = true := by
    have : ¬ waits (s.buf i) = true := by simp [hw0]
    simp only [waits, decide_eq_true_eq, not_not] at this
    exact this.1
  refine ⟨⟨mark_inv hi.core hx hst hv, hi.dev, ⟨xs, hq, hact, fun j hj => ⟨?_, (hw j hj).2⟩⟩,
    fun j hj => ?_⟩, .of_dirty fun _ => id⟩
  · have hne : j ≠ i := by
      rintro rfl
      rw [(hw j hj).2] at hw0
      cases hw0
    exact (List.mem_erase_of_ne hne).mpr (hw j hj).1
  · by_cases hji : j = i
    · subst hji
      exact ⟨_, congrArg Ctl.held (Xv6.Sys.ctl_mark hx true false), rfl⟩
    · obtain ⟨y, hy, hsty⟩ := hi.asleep j (List.mem_of_mem_erase hj)
      refine ⟨y, ?_, hsty⟩
      rw [← hy]
      exact congrArg Ctl.held (Xv6.Sys.ctl_mark_of_ne _ _ hji)

/-- The state an interrupt leaves that completes the request of buffer `i`. -/
theorem put_serve (h1 : (s.buf i).dev = 1) (port : Block) (command : Option Command) :
    let data := Driver.transfer s.driver.controller.sector (s.buf i)
    s.put (s.driver.serve i port command) = { s with
      core := ({ s.core with disk := { s.core.disk with
          block := Function.update s.core.disk.block (s.buf i).blockno data } } : Xv6.Sys).setBuf i
        { s.buf i with data := data, valid := true, dirty := false }
      idequeue := s.idequeue.remove i
      command := command
      port := port } := by
  have hdrive : decide ((s.driver.buf i).dev % 2 = 1) = true := by
    rw [show (s.driver.buf i).dev = 1 from h1]; rfl
  simp only [put, Driver.serve, hdrive, store, Function.update_self,
    Function.update_of_ne Bool.false_ne_true]
  rfl

/-- An interrupt with a status that shows no error. -/
theorem interrupt_inv {junk : Block} (hi : Inv s)
    (hok : s.Succeeds (.interrupt polls polls' junk))
    (h : s.interrupt polls polls' junk = some t) :
    Inv t ∧ Writes s t := by
  simp only [interrupt, Option.bind_eq_bind, Option.bind_eq_some_iff, toOption_eq_some,
    Option.pure_def, Option.some.injEq] at h
  obtain ⟨d, hint, rfl⟩ := h
  obtain ⟨xs, hq, hact, hw⟩ := hi.queue
  rcases Driver.interrupt_cases hint hq hact hok with ⟨rfl, rfl⟩ | ⟨i, ys, port, command, rfl, rfl, hact'⟩
  · exact ⟨hi, .of_dirty fun _ => id⟩
  · have hmem := hw i List.mem_cons_self
    obtain ⟨x, hx, hst⟩ := hi.asleep i hmem.1
    have h1 := hi.dev_of_held hx
    rw [put_serve h1]
    set data := Driver.transfer s.driver.controller.sector (s.buf i) with hdata
    have hdirty : (s.buf i).dirty = true → data = (s.buf i).data := by
      intro hd
      rw [hdata, Driver.transfer, if_pos hd]
    have hclean : (s.buf i).dirty = false → data = s.core.disk.block (s.buf i).blockno := by
      intro hd
      rw [hdata, Driver.transfer, if_neg (by simp [hd]), h1]
      rfl
    -- The buffer was queued to be written, or to be read.
    have hwait : (s.buf i).dirty = true ∨ (s.buf i).valid = false := by
      have := hmem.2
      simp only [waits, decide_eq_true_eq, not_and, not_not] at this
      cases hv : (s.buf i).valid with
      | true => exact .inl (this hv)
      | false => exact .inr rfl
    set c : Xv6.Sys := ({ s.core with disk := { s.core.disk with
        block := Function.update s.core.disk.block (s.buf i).blockno data } } : Xv6.Sys).setBuf i
      { s.buf i with data := data, valid := true, dirty := false } with hc
    have hbi : c.buf i = { s.buf i with data := data, valid := true, dirty := false } :=
      Xv6.Sys.buf_setBuf _
    have hbj : ∀ j, j ≠ i → c.buf j = s.core.buf j := fun j hj => Xv6.Sys.buf_setBuf_of_ne _ hj
    have hnd := List.nodup_cons.mp hq.nodup
    have hne : ∀ j ∈ ys, j ≠ i := fun j hj e => hnd.1 (e ▸ hj)
    refine ⟨⟨served_inv hi.core h1 hwait hdirty hclean, fun j hr => ?_,
      ⟨ys, hq.remove, ?_, fun j hj => ?_⟩, fun j hj => ?_⟩, fun j hd hd' => ?_⟩
    · show (c.buf j).dev = 1
      by_cases hj : j = i
      · rw [hj, hbi]
        exact h1
      · rw [hbj j hj]
        refine hi.dev j ?_
        rwa [← show c.buf j = s.buf j from hbj j hj]
    · exact hact'
    · refine ⟨(hw j (List.mem_cons_of_mem _ hj)).1, ?_⟩
      show waits (c.buf j) = true
      rw [hbj j (hne j hj)]
      exact (hw j (List.mem_cons_of_mem _ hj)).2
    · exact hi.asleep j hj
    · have hji : j = i := by
        by_contra hji
        have hd' : (c.buf j).dirty = false := hd'
        rw [hbj j hji] at hd'
        exact absurd (hd.symm.trans hd') Bool.noConfusion
      subst hji
      show Function.update s.core.disk.block (s.buf j).blockno data (s.buf j).blockno = _
      rw [Function.update_self, hdirty hd]

/-- While every read succeeds, a step keeps the invariant and writes what was to be written. -/
theorem step_inv {a : Act} (hok : s.Succeeds a) (h : s.step a = some t) (hi : Inv s) :
    Inv t ∧ Writes s t := by
  cases a with
  | cache a =>
      simp only [step] at h
      split at h
      · rename_i hal
        obtain ⟨c, hc, rfl⟩ := Option.map_eq_some_iff.mp h
        exact cache_inv hi hal hc
      · cases h
  | bread i polls => exact bread_inv hi h
  | bwrite p i polls => exact bwrite_inv hi h
  | wake i => exact wake_inv hi h
  | interrupt polls polls' junk => exact interrupt_inv hi hok h

/-! ### Runs -/

/-- The transition relation of `step`. -/
def Steps (s : Sys) (a : Act) (t : Sys) : Prop := s.step a = some t

/-- `Steps` without failing requests. -/
def Succeed (s : Sys) (a : Act) (t : Sys) : Prop := s.Succeeds a ∧ s.step a = some t

/-- The data of every valid and clean buffer, unless its holder is modifying it, is its block's. -/
def Read (s : Sys) : Prop :=
  ∀ i, (s.buf i).valid = true → (s.buf i).dirty = false → (∀ x ∈ s.held i, ¬ x.stored) →
    (s.buf i).data = s.core.disk.block (s.buf i).blockno

/-- **Valid buffers have been read.**  In every state that requests without an error reach: (a) a
valid and clean buffer has the contents of its block; (b) a `bread` that returns gives a buffer of
the block asked for, holding what was last stored into that block; (c) a step without an error
cleans a buffer only when its data is on the disk. -/
theorem valid_is_read (disk : Disk) (log : Log) (disk0 : ℕ → Block) (havedisk1 : Bool)
    {as : List Act} (h : Run Succeed (init disk log disk0 havedisk1) as s) :
    s.Read ∧
    (∀ i a t x, a = .cache (.ready i) ∨ a = .wake i → s.step a = some t → s.held i = some x →
      x.ready = false → (t.buf i).carries x.req.dev x.req.blockno ∧
        (t.buf i).data = s.core.flat x.req.dev x.req.blockno) ∧
    (∀ a t, Succeed s a t → Writes s t) := by
  have hi : Inv s :=
    h.inv (fun _ _ _ hst hs => (step_inv hst.1 hst.2 hs).1) (init_inv disk log disk0 havedisk1)
  refine ⟨fun i hv hd hst => (hi.core.cell i).clean hv (fun hd' => absurd (hd.symm.trans hd') nofun)
      hst, fun i a t x ha ht hx hr => ?_, fun a t ht => (step_inv ht.1 ht.2 hi).2⟩
  have hcar := (hi.core.cell i).held x hx
  rcases ha with rfl | rfl
  · simp only [step] at ht
    split at ht
    · obtain ⟨c, hc, rfl⟩ := Option.map_eq_some_iff.mp ht
      obtain ⟨-, hf, -, y, hy, -, hcar', hdata⟩ := Xv6.Sys.ready_spec hc hi.core
      obtain rfl : x = y := Option.some.inj (hx.symm.trans hy)
      exact ⟨hcar', hdata.trans (by rw [hf.flat])⟩
    · cases ht
  · simp only [step, wake, Option.bind_eq_bind, Option.bind_eq_some_iff, guard_eq_some,
      Option.pure_def, Option.some.injEq] at ht
    obtain ⟨-, ⟨-, hw⟩, rfl⟩ := ht
    have hv : (s.core.buf i).valid = true := by
      have : ¬ waits (s.buf i) = true := by simp [hw]
      simp only [waits, decide_eq_true_eq, not_not] at this
      exact this.1
    refine ⟨hcar, ?_⟩
    rw [← hcar.1, ← hcar.2]
    exact (hi.core.cell i).flat hv

/-- A disk whose blocks are filled with `1`. -/
def ones : Sys := init ⟨64, fun _ _ => 1⟩ ⟨2, 30, 0, false, ⟨[]⟩⟩ (fun _ _ => 0) true

/-- A `bread` of block 45 by process 7, the status of whose request is `r`. -/
def reading (r : BitVec 8) : List Act :=
  [.cache (.bget ⟨7, 1, 45⟩), .cache (.acquiresleep ⟨7, 1, 45⟩ 0), .bread 0 [IDE_DRDY],
    .interrupt [IDE_BSY, r] [] fun _ => 0, .wake 0]

/-- The read succeeds. -/
theorem valid_is_read_block : ∃ s, Run Succeed ones (reading IDE_DRDY) s ∧ s.Read := by
  have hend : ((reading IDE_DRDY).foldlM step ones).isSome = true := by decide +kernel
  obtain ⟨s, hs⟩ := Option.isSome_iff_exists.mp hend
  have hrun : Run Succeed ones (reading IDE_DRDY) s := by
    refine (Run.of_foldlM hs).mono fun a ha s t hst => ⟨?_, hst⟩
    cases a with
    | interrupt polls polls' junk =>
        simp only [reading, List.mem_cons, reduceCtorEq, Act.interrupt.injEq, false_or, or_false,
          List.not_mem_nil] at ha
        obtain ⟨rfl, -⟩ := ha
        intro _ r hr
        obtain rfl : IDE_DRDY = r := Option.some.inj hr
        rfl
    | _ => trivial
  exact ⟨s, hrun, (valid_is_read _ _ _ _ hrun).1⟩

/-- The read fails, and its buffer is valid. -/
theorem not_valid_is_read : ¬ ∀ (disk : Disk) (log : Log) (disk0 : ℕ → Block) (havedisk1 : Bool)
    (as : List Act) (s : Sys), Run Steps (init disk log disk0 havedisk1) as s → s.Read := by
  intro h
  have hend : (((reading (IDE_DRDY ||| IDE_ERR)).foldlM step ones).map fun s =>
      ((s.buf 0).valid, (s.buf 0).dirty, s.held 0, (s.buf 0).data ⟨0, by decide⟩,
        s.core.disk.block (s.buf 0).blockno ⟨0, by decide⟩)) =
      some (true, false, some ⟨⟨7, 1, 45⟩, true, false⟩, 0, 1) := by
    decide +kernel
  obtain ⟨s, hs, heq⟩ := Option.map_eq_some_iff.mp hend
  simp only [Prod.mk.injEq] at heq
  obtain ⟨hv, hd, hheld, h0, h1⟩ := heq
  have hread := h _ _ _ _ _ s (Run.of_foldlM hs) 0 hv hd (by rw [hheld]; rintro x hx; cases hx; nofun)
  rw [hread, h1] at h0
  cases h0

end Sys

end Xv6.Ide
