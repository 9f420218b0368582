import Xv6.Bio.Cache
import Xv6.Lib.Chain

/-!
# The disk driver — `ide.c`

The driver's variables are `idequeue`, threaded through the buffers' `qnext`, and `havedisk1`.
The functions are cut where the code gives up `idelock`:

* `iderw` up to the loop it sleeps in, whose condition is `waits`;
* `ideintr`.

A busy wait is a function of the successive values the status port yields; one that never sees
the drive ready does not return.

The `Controller` is the hardware: the sectors of the two drives, the command it executes and the
words it holds for `insl`.  It decodes the registers it is given.  At its interrupt the command
has been executed, or has failed, as the status register says; a failed write leaves anything in
its sector.

* `iderw_cases`, `ideintr_cases` — the two functions, over a queue: a request is inserted at the
  end, one is removed from the front, and the one at the front is started (`Starts`).
* `complete_asks` — what the hardware does for a started request (`Command.Asks`).
-/

namespace Xv6.Ide

open Lib (Fifo)

/-- The constants of `ide.c`: the size of a sector, and the bits of the status. -/
def SECTOR_SIZE : ℕ := 512
def IDE_BSY : BitVec 8 := 0x80
def IDE_DRDY : BitVec 8 := 0x40
def IDE_DF : BitVec 8 := 0x20
def IDE_ERR : BitVec 8 := 0x01

/-- The commands. -/
def IDE_CMD_READ : ℕ := 0x20
def IDE_CMD_WRITE : ℕ := 0x30
def IDE_CMD_RDMUL : ℕ := 0xc4
def IDE_CMD_WRMUL : ℕ := 0xc5

/-! ### The hardware -/

/-- The registers `0x1f2` to `0x1f7` as a command is issued, and the words that follow a write. -/
structure Command where
  count : ℕ
  lba0 : ℕ
  lba1 : ℕ
  lba2 : ℕ
  device : ℕ
  cmd : ℕ
  data : Option Block
  deriving DecidableEq

/-- Bit 4 of the device register selects drive 1. -/
def Command.drive (k : Command) : Bool := k.device / 16 % 2 = 1

/-- The sector that the registers name, of 28 bits. -/
def Command.sector (k : Command) : ℕ :=
  k.lba0 + k.lba1 * 2 ^ 8 + k.lba2 * 2 ^ 16 + k.device % 16 * 2 ^ 24

/-- The disks with what they hold, the command in progress, and the data port. -/
structure Controller where
  sector : Bool → ℕ → Block
  command : Option Command
  port : Block

/-- The drive takes commands. -/
def ready (r : BitVec 8) : Bool := r &&& (IDE_BSY ||| IDE_DRDY) = IDE_DRDY

/-- The last command failed. -/
def failed (r : BitVec 8) : Bool := r &&& (IDE_DF ||| IDE_ERR) ≠ 0

/-- Two drives with one sector of one of them replaced. -/
def store (sector : Bool → ℕ → Block) (drive : Bool) (n : ℕ) (d : Block) : Bool → ℕ → Block :=
  Function.update sector drive (Function.update (sector drive) n d)

theorem store_self (sector : Bool → ℕ → Block) (drive : Bool) (n : ℕ) :
    store sector drive n (sector drive n) = sector := by
  rw [store, Function.update_eq_self, Function.update_eq_self]

/-- The command has been executed when the status is `r`. -/
def Controller.complete (c : Controller) (r : BitVec 8) (junk : Block) : Controller :=
  match c.command with
  | none => c
  | some k =>
      match k.data with
      | some d =>
          { c with
            command := none
            sector := store c.sector k.drive k.sector (if failed r then junk else d) }
      | none =>
          { c with
            command := none
            port := if failed r then junk else c.sector k.drive k.sector }

/-! ### The driver -/

/-- `ide.c`: the buffers, the queue and the controller. -/
structure Driver where
  buf : Fin NBUF → Buf
  idequeue : Fifo (Fin NBUF)
  havedisk1 : Bool
  controller : Controller

/-- What keeps a function from returning. -/
inductive Stop where
  | panic (msg : String)
  /-- the busy wait of `idewait` -/
  | spin
  deriving DecidableEq

/-- `idewait`, with the values of port `0x1f7` it reads. -/
def idewait (checkerr : Bool) (polls : List (BitVec 8)) : Except Stop ℤ :=
  match polls.find? ready with
  | none => .error .spin
  | some r => .ok (if checkerr ∧ failed r then -1 else 0)

/-- The condition of the loop in `iderw`. -/
def waits (b : Buf) : Bool := ¬ (b.valid ∧ ¬ b.dirty)

namespace Driver

/-- A buffer changes. -/
def set (s : Driver) (i : Fin NBUF) (b : Buf) : Driver :=
  { s with buf := Function.update s.buf i b }

/-- A command is given to the controller. -/
def issue (s : Driver) (k : Command) : Driver :=
  { s with controller := { s.controller with command := some k } }

/-- `idestart`: the registers are written for the first buffer of the queue. -/
def idestart (s : Driver) (p : Option (Fin NBUF)) (polls : List (BitVec 8)) :
    Except Stop Driver :=
  match p with
  | none => .error (.panic "idestart")
  | some i =>
      let b := s.buf i
      if b.blockno ≥ FSSIZE then .error (.panic "incorrect blockno")
      else
        let sector_per_block := BSIZE / SECTOR_SIZE
        let sector := b.blockno * sector_per_block
        let read_cmd := if sector_per_block = 1 then IDE_CMD_READ else IDE_CMD_RDMUL
        let write_cmd := if sector_per_block = 1 then IDE_CMD_WRITE else IDE_CMD_WRMUL
        if sector_per_block > 7 then .error (.panic "idestart")
        else do
          let _ ← idewait false polls
          return s.issue {
            count := sector_per_block
            lba0 := sector &&& 0xff
            lba1 := (sector >>> 8) &&& 0xff
            lba2 := (sector >>> 16) &&& 0xff
            device := 0xe0 ||| ((b.dev &&& 1) <<< 4) ||| ((sector >>> 24) &&& 0x0f)
            cmd := if b.dirty then write_cmd else read_cmd
            data := if b.dirty then some b.data else none }

/-- Start disk on next buf in queue. -/
def startNext (s : Driver) (polls : List (BitVec 8)) : Except Stop Driver :=
  match s.idequeue.head with
  | none => .ok s
  | some j => s.idestart (some j) polls

/-- The interrupt handler: `polls` are the values the check for errors reads, `polls'` those the
start of the next request waits on. -/
def ideintr (s : Driver) (polls polls' : List (BitVec 8)) : Except Stop Driver :=
  match s.idequeue.head with
  | none => .ok s
  | some i => do
      let s := { s with idequeue := s.idequeue.remove i }
      let b := s.buf i
      let data ←
        if b.dirty then pure b.data
        else do
          let r ← idewait true polls
          pure (if r ≥ 0 then s.controller.port else b.data)
      (s.set i { b with data := data, valid := true, dirty := false }).startNext polls'

/-- `iderw`, called by `p`, up to its loop. -/
def iderw (s : Driver) (p : Pid) (i : Fin NBUF) (polls : List (BitVec 8)) : Except Stop Driver :=
  let b := s.buf i
  if b.lock ≠ some p then .error (.panic "iderw: buf not locked")
  else if b.valid ∧ ¬ b.dirty then .error (.panic "iderw: nothing to do")
  else if b.dev ≠ 0 ∧ ¬ s.havedisk1 then .error (.panic "iderw: ide disk 1 not present")
  else
    match s.idequeue.insert (NBUF + 1) i with
    | none => .error .spin
    | some q =>
        let s := { s with idequeue := q }
        if q.head = some i then s.idestart (some i) polls else .ok s

/-- The disk raises its interrupt, with the status read as `polls`, and the handler runs. -/
def interrupt (s : Driver) (polls polls' : List (BitVec 8)) (junk : Block) : Except Stop Driver :=
  match polls.find? ready with
  | none => .error .spin
  | some r => ({ s with controller := s.controller.complete r junk } : Driver).ideintr polls polls'

end Driver

/-! ### What the functions do -/

/-- The command is the transfer between `b` and its block. -/
structure Command.Asks (k : Command) (b : Buf) : Prop where
  drive : k.drive = decide (b.dev % 2 = 1)
  sector : k.sector = b.blockno
  data : k.data = if b.dirty then some b.data else none

/-- **A request is executed.** -/
theorem complete_asks {c : Controller} {k : Command} {b : Buf} {r : BitVec 8} {junk : Block}
    (hk : c.command = some k) (ha : k.Asks b) (hr : failed r = false) :
    c.complete r junk =
      if b.dirty then { c with
        command := none
        sector := store c.sector (decide (b.dev % 2 = 1)) b.blockno b.data }
      else { c with
        command := none
        port := c.sector (decide (b.dev % 2 = 1)) b.blockno } := by
  simp only [Controller.complete, hk, ha.data, ha.drive, ha.sector, hr]
  cases b.dirty <;> rfl

/-- The address in the registers is the block's. -/
theorem lba_eq {n : ℕ} (h : n < FSSIZE) (dev : ℕ) :
    let device := 0xe0 ||| ((dev &&& 1) <<< 4) ||| ((n >>> 24) &&& 0x0f)
    device / 16 % 2 = dev % 2 ∧
      (n &&& 0xff) + ((n >>> 8) &&& 0xff) * 2 ^ 8 + ((n >>> 16) &&& 0xff) * 2 ^ 16 +
        device % 16 * 2 ^ 24 = n := by
  have h : n < 1000 := h
  have hbyte : ∀ m, m &&& 0xff = m % 256 := fun m => Nat.and_two_pow_sub_one_eq_mod m 8
  have h24 : n / 2 ^ 24 &&& 0x0f = 0 := by rw [Nat.div_eq_of_lt (by omega), Nat.zero_and]
  have hdev : 0xe0 ||| ((dev &&& 1) <<< 4) = 0xe0 + dev % 2 * 16 := by
    rw [Nat.and_one_is_mod]
    rcases Nat.mod_two_eq_zero_or_one dev with h | h <;> rw [h] <;> rfl
  simp only [Nat.shiftRight_eq_div_pow, h24, Nat.or_zero, hdev, hbyte]
  omega

namespace Driver

variable {s t : Driver} {i j : Fin NBUF} {xs : List (Fin NBUF)} {polls polls' : List (BitVec 8)}

/-- The request at the head of the queue is the one the disk works on. -/
def Active (buf : Fin NBUF → Buf) (command : Option Command) : List (Fin NBUF) → Prop
  | [] => command = none
  | i :: _ => ∃ k, command = some k ∧ k.Asks (buf i)

/-- The controller works on a command, or on none. -/
def working (s : Driver) (command : Option Command) : Driver :=
  { s with controller := { s.controller with command := command } }

/-- `idestart` asks the controller for what the buffer wants. -/
theorem idestart_asks (h : s.idestart (some i) polls = .ok t) :
    ∃ k : Command, k.Asks (s.buf i) ∧ t = s.working (some k) := by
  unfold idestart at h
  dsimp only at h
  split at h
  · cases h
  · rename_i hn
    obtain ⟨hd, hs⟩ := lba_eq (Nat.lt_of_not_le hn) (s.buf i).dev
    split at h
    · cases h
    · cases hw : idewait false polls with
      | error e => rw [hw] at h; cases h
      | ok r =>
          rw [hw] at h
          cases h
          refine ⟨_, ⟨?_, ?_, rfl⟩, rfl⟩
          · simp only [Command.drive, BSIZE, SECTOR_SIZE, Nat.div_self (by decide : 0 < 512),
              Nat.mul_one, hd]
          · simpa only [Command.sector, BSIZE, SECTOR_SIZE, Nat.div_self (by decide : 0 < 512),
              Nat.mul_one] using hs

/-- With the disk idle, the first of the queue is started. -/
theorem startNext_active (hq : s.idequeue.Queues xs) (hc : s.controller.command = none)
    (h : s.startNext polls = .ok t) : ∃ command, Active s.buf command xs ∧ t = s.working command := by
  unfold startNext at h
  cases xs with
  | nil =>
      rw [show s.idequeue.head = none from hq] at h
      cases h
      exact ⟨none, rfl, by rw [working, ← hc]⟩
  | cons j xs =>
      rw [hq.1] at h
      obtain ⟨k, hk, rfl⟩ := idestart_asks h
      exact ⟨some k, ⟨k, rfl, hk⟩, rfl⟩

/-- **A request is inserted** at the end of the queue. -/
theorem iderw_cases {p : Pid} (h : s.iderw p i polls = .ok t) (hq : s.idequeue.Queues xs)
    (hact : Active s.buf s.controller.command xs) (hi : i ∉ xs) :
    (s.buf i).lock = some p ∧ waits (s.buf i) = true ∧
    ∃ q command, q.Queues (xs ++ [i]) ∧ Active s.buf command (xs ++ [i]) ∧
      (xs ≠ [] → command = s.controller.command) ∧
      t = { s with idequeue := q }.working command := by
  unfold iderw at h
  dsimp only at h
  split at h
  · cases h
  · rename_i hl
    split at h
    · cases h
    · rename_i hv
      split at h
      · cases h
      · obtain ⟨q, hins, hq'⟩ := hq.insert hi
        rw [Fintype.card_fin] at hins
        rw [hins] at h
        refine ⟨by simpa using hl, by simpa [waits, imp_iff_not_or] using hv, q, ?_⟩
        dsimp only at h
        cases xs with
        | nil =>
            rw [if_pos hq'.1] at h
            obtain ⟨k, hk, rfl⟩ := idestart_asks h
            exact ⟨some k, hq', ⟨k, rfl, hk⟩, fun h => absurd rfl h, rfl⟩
        | cons x xs =>
            have hne : q.head ≠ some i := by
              rw [hq'.1]
              intro e
              exact hi (Option.some.inj e ▸ List.mem_cons_self)
            rw [if_neg hne] at h
            cases h
            exact ⟨s.controller.command, hq', hact, fun _ => rfl, rfl⟩

/-- The request of buffer `i` has been removed, with `data` in the buffer. -/
def done (s : Driver) (i : Fin NBUF) (data : Block) : Driver :=
  ({ s with idequeue := s.idequeue.remove i } : Driver).set i
    { s.buf i with data := data, valid := true, dirty := false }

/-- **A request is removed**, its buffer made valid and clean whatever the status, and the next
one is started. -/
theorem ideintr_cases (h : s.ideintr polls polls' = .ok t)
    (hq : s.idequeue.Queues (i :: xs)) (hc : s.controller.command = none) :
    ∃ data command, t = (s.done i data).working command ∧ Active t.buf command xs ∧
      ((s.buf i).dirty = true → data = (s.buf i).data) ∧
      ((s.buf i).dirty = false → ∃ r, polls.find? ready = some r ∧
        data = if failed r then (s.buf i).data else s.controller.port) := by
  unfold ideintr at h
  rw [hq.1] at h
  dsimp only at h
  cases hd : (s.buf i).dirty with
  | true =>
      rw [if_pos hd] at h
      have h : (s.done i (s.buf i).data).startNext polls' = .ok t := h
      obtain ⟨command, hact, rfl⟩ := startNext_active (s := s.done i _) hq.remove hc h
      exact ⟨_, command, rfl, hact, fun _ => rfl, nofun⟩
  | false =>
      rw [if_neg (by simp [hd])] at h
      cases hr : polls.find? ready with
      | none => simp only [idewait, hr] at h; cases h
      | some r =>
          simp only [idewait, hr] at h
          obtain ⟨data, hdata, h⟩ : ∃ data,
              (data = if failed r then (s.buf i).data else s.controller.port) ∧
                (s.done i data).startNext polls' = .ok t := by
            cases hf : failed r with
            | true => rw [hf] at h; exact ⟨_, rfl, h⟩
            | false => rw [hf] at h; exact ⟨_, rfl, h⟩
          obtain ⟨command, hact, rfl⟩ := startNext_active (s := s.done i _) hq.remove hc h
          exact ⟨data, command, rfl, hact, nofun, fun _ => ⟨r, rfl, hdata⟩⟩

/-! ### A request that succeeds -/

/-- What a successful request leaves in the buffer and on the disk. -/
def transfer (sector : Bool → ℕ → Block) (b : Buf) : Block :=
  if b.dirty then b.data else sector (decide (b.dev % 2 = 1)) b.blockno

/-- The request of buffer `i` has been served; the disk works on `command`. -/
def serve (s : Driver) (i : Fin NBUF) (port : Block) (command : Option Command) : Driver :=
  let b := s.buf i
  let d := transfer s.controller.sector b
  { s with
    buf := Function.update s.buf i { b with data := d, valid := true, dirty := false }
    idequeue := s.idequeue.remove i
    controller :=
      { sector := store s.controller.sector (decide (b.dev % 2 = 1)) b.blockno d
        command := command
        port := port } }

/-- **An interrupt**, with a status that shows no error: the request at the head is served. -/
theorem interrupt_cases {junk : Block} (h : s.interrupt polls polls' junk = .ok t)
    (hq : s.idequeue.Queues xs) (hact : Active s.buf s.controller.command xs)
    (hok : s.controller.command ≠ none → ∀ r, polls.find? ready = some r → failed r = false) :
    (xs = [] ∧ t = s) ∨ ∃ i ys port command, xs = i :: ys ∧ t = s.serve i port command ∧
      Active t.buf command ys := by
  unfold interrupt at h
  cases hr : polls.find? ready with
  | none => rw [hr] at h; cases h
  | some r =>
  rw [hr] at h
  cases xs with
  | nil =>
      simp only [Controller.complete, show s.controller.command = none from hact, ideintr,
        show s.idequeue.head = none from hq] at h
      cases h
      exact .inl ⟨rfl, rfl⟩
  | cons i ys =>
      obtain ⟨k, hk, hasks⟩ := hact
      have hf := hok (by rw [hk]; nofun) r hr
      dsimp only at h
      rw [complete_asks hk hasks hf] at h
      cases hd : (s.buf i).dirty with
      | true =>
          rw [hd, if_pos rfl] at h
          obtain ⟨data, command, ht, hact, hdata, -⟩ := ideintr_cases h hq rfl
          refine .inr ⟨i, ys, s.controller.port, command, rfl, ?_, hact⟩
          rw [ht, hdata hd]
          simp only [serve, transfer, hd, if_true]
          rfl
      | false =>
          rw [hd, if_neg nofun] at h
          obtain ⟨data, command, ht, hact, -, hdata⟩ := ideintr_cases h hq rfl
          obtain ⟨r', hr', hdata⟩ := hdata hd
          rw [hr] at hr'
          cases hr'
          refine .inr ⟨i, ys, s.controller.sector (decide ((s.buf i).dev % 2 = 1)) (s.buf i).blockno,
            command, rfl, ?_, hact⟩
          rw [ht, hdata, hf]
          simp only [serve, transfer, hd, Bool.false_eq_true, if_false, store_self]
          rfl

/-- The handler returns if the next request's block is in range. -/
theorem interrupt_ok {r r' : BitVec 8} (hq : s.idequeue.Queues (i :: xs))
    (hr : polls.find? ready = some r) (hr' : polls'.find? ready = some r')
    (hrange : ∀ j ∈ xs.head?, (s.buf j).blockno < FSSIZE ∧ j ≠ i) (junk : Block) :
    ∃ t, s.interrupt polls polls' junk = .ok t := by
  have hstart : ∀ (u : Driver) (j : Fin NBUF), (u.buf j).blockno < FSSIZE →
      ∃ t, u.idestart (some j) polls' = .ok t := by
    intro u j hj
    simp only [idestart, ge_iff_le, Nat.not_le.mpr hj, if_false, idewait, hr']
    exact ⟨_, rfl⟩
  have hnext : ∀ (u : Driver) (data : Block), u.idequeue.Queues (i :: xs) → u.buf = s.buf →
      ∃ t, (u.done i data).startNext polls' = .ok t := by
    intro u data hu hbuf
    cases xs with
    | nil =>
        rw [startNext, show (u.done i data).idequeue.head = none from hu.2]
        exact ⟨_, rfl⟩
    | cons j xs =>
        obtain ⟨hj, hne⟩ := hrange j rfl
        rw [startNext, show (u.done i data).idequeue.head = some j from hu.2.1]
        refine hstart _ j ?_
        rwa [show (u.done i data).buf j = s.buf j by
          rw [← hbuf]; exact Function.update_of_ne hne ..]
  unfold interrupt
  simp only [hr, ideintr]
  set u : Driver := { s with controller := s.controller.complete r junk } with hu
  have hbuf : u.buf = s.buf := rfl
  rw [show s.idequeue.head = some i from hq.1]
  dsimp only
  cases hd : (s.buf i).dirty with
  | true => exact hnext u (s.buf i).data hq rfl
  | false =>
      simp only [idewait, hr]
      cases hf : failed r with
      | true => exact hnext u (s.buf i).data hq rfl
      | false => exact hnext u u.controller.port hq rfl

end Driver

end Xv6.Ide
