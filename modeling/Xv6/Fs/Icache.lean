import Xv6.Fs.Calls

/-!
# File system — the inode cache

The reference counts, validity flags and locks of `icache`, and what `iget`, `idup`, `ilock`,
`iunlock` and `iput` do to them.  What else these functions do depends on how the inodes
themselves are modelled.

A process that sleeps on a lock it holds itself never goes on (`Stop.blocked`).  Two further
ways of stopping are no behaviour of the kernel, they mark calls outside what it is asked to do:
`Stop.unheld`, an inode used without the lock or the reference its user must hold, and
`Stop.outside`, an inode number that the inode blocks have no inode for.
-/

namespace Xv6.Fs

/-- What ends a call without a return. -/
inductive Stop where
  | ballocOutOfBlocks
  | freeingFreeBlock
  | iallocNoInodes
  | igetNoInodes
  | ilock
  | ilockNoType
  | iunlock
  | bmapOutOfRange
  | call (p : CallPanic)
  | blocked
  | unheld
  | outside
  deriving DecidableEq, Repr

/-- The message of those that are panics. -/
def Stop.msg : Stop → Option String
  | .ballocOutOfBlocks => some "balloc: out of blocks"
  | .freeingFreeBlock => some "freeing free block"
  | .iallocNoInodes => some "ialloc: no inodes"
  | .igetNoInodes => some "iget: no inodes"
  | .ilock => some "ilock"
  | .ilockNoType => some "ilock: no type"
  | .iunlock => some "iunlock"
  | .bmapOutOfRange => some "bmap: out of range"
  | .call p => some p.msg
  | .blocked | .unheld | .outside => none

/-- The cache entries, by the inode they hold.  What an entry with `ref = 0` holds is never
read. -/
structure Icache where
  ref : Inum → ℕ
  valid : Inum → Bool
  locked : Inum → Bool

namespace Icache

/-- No entry in use. -/
def empty : Icache := ⟨fun _ => 0, fun _ => false, fun _ => false⟩

variable (ninodes : ℕ) (c : Icache) (ip : Inum)

/-- One entry changes. -/
def setRef (n : ℕ) : Icache := { c with ref := Function.update c.ref ip n }
def setValid (b : Bool) : Icache := { c with valid := Function.update c.valid ip b }
def setLocked (b : Bool) : Icache := { c with locked := Function.update c.locked ip b }

/-- The number of entries in use. -/
def inUse : ℕ := (List.range ninodes).countP (0 < c.ref ·)

/-- `iget`: an entry that is in use already, or a free one that is not valid yet. -/
def iget (inum : Inum) : Except Stop Icache :=
  if ninodes ≤ inum then .error .outside
  else if 0 < c.ref inum then .ok (c.setRef inum (c.ref inum + 1))
  else if NINODE ≤ c.inUse ninodes then .error .igetNoInodes
  else .ok ((c.setRef inum 1).setValid inum false)

/-- `idup`. -/
def idup : Except Stop Icache :=
  if c.ref ip = 0 then .error .unheld else .ok (c.setRef ip (c.ref ip + 1))

/-- `type` is the type of the inode on the disk, which an entry that is not valid is read from. -/
def ilock (type : ℤ) : Except Stop Icache :=
  if c.ref ip = 0 then .error .ilock
  else if c.locked ip then .error .blocked
  else if ¬ c.valid ip ∧ type = 0 then .error .ilockNoType
  else .ok ((c.setLocked ip true).setValid ip true)

/-- Of `holdingsleep`, that the lock is taken.  That it is this process that has taken it is asked
where processes run together (`Op.holding`). -/
def iunlock : Except Stop Icache :=
  if ¬ c.locked ip ∨ c.ref ip = 0 then .error .iunlock else .ok (c.setLocked ip false)

/-- The inode has no links and no other references: `iput` is to free it. -/
def frees (nlink : ℤ) : Bool := c.valid ip ∧ nlink = 0 ∧ c.ref ip = 1

/-- `iput`, where the lock is free: it is taken and released within the call. -/
def iput (nlink : ℤ) : Except Stop Icache :=
  if c.ref ip = 0 then .error .unheld
  else if c.locked ip then .error .blocked
  else if c.frees ip nlink then .ok ((c.setValid ip false).setRef ip (c.ref ip - 1))
  else .ok (c.setRef ip (c.ref ip - 1))

/-- Only the holder of an inode's lock may look at it. -/
def whenLocked {α : Type} (x : Except Stop α) : Except Stop α :=
  if c.locked ip then x else .error .unheld

variable {ninodes c ip} {c' : Icache} {type nlink : ℤ}

/-- `iget` adds one reference. -/
theorem iget_spec (h : c.iget ninodes ip = .ok c') :
    ip < ninodes ∧ c'.locked = c.locked ∧
      (∀ j, c'.ref j = if j = ip then c.ref j + 1 else c.ref j) ∧
      ∀ j, c'.valid j = if j = ip ∧ c.ref j = 0 then false else c.valid j := by
  unfold iget at h
  split_ifs at h with hge hpos hfull
  · obtain rfl := Except.ok.inj h
    refine ⟨Nat.lt_of_not_le hge, rfl, fun j => ?_, fun j => ?_⟩ <;> simp only [setRef] <;> grind
  · obtain rfl := Except.ok.inj h
    refine ⟨Nat.lt_of_not_le hge, rfl, fun j => ?_, fun j => ?_⟩ <;>
      simp only [setRef, setValid] <;> grind

theorem idup_spec (h : c.idup ip = .ok c') :
    0 < c.ref ip ∧ c' = c.setRef ip (c.ref ip + 1) := by
  unfold idup at h
  split_ifs at h with h0
  exact ⟨Nat.pos_of_ne_zero h0, (Except.ok.inj h).symm⟩

theorem ilock_spec (h : c.ilock ip type = .ok c') :
    0 < c.ref ip ∧ c.locked ip = false ∧ (c.valid ip = false → type ≠ 0) ∧
      c' = (c.setLocked ip true).setValid ip true := by
  unfold ilock at h
  split_ifs at h with h0 hl ht
  refine ⟨Nat.pos_of_ne_zero h0, by simpa using hl, fun hv h => ht ⟨by simp [hv], h⟩, ?_⟩
  exact (Except.ok.inj h).symm

theorem iunlock_spec (h : c.iunlock ip = .ok c') :
    c.locked ip ∧ 0 < c.ref ip ∧ c' = c.setLocked ip false := by
  unfold iunlock at h
  split_ifs at h with h0
  obtain ⟨hl, hr⟩ := not_or.mp h0
  exact ⟨not_not.mp hl, Nat.pos_of_ne_zero hr, (Except.ok.inj h).symm⟩

/-- `iput` takes one, and the copy of an inode that is freed is no longer valid. -/
theorem iput_spec (h : c.iput ip nlink = .ok c') :
    0 < c.ref ip ∧ c.locked ip = false ∧
      c' = if c.frees ip nlink then (c.setValid ip false).setRef ip (c.ref ip - 1)
        else c.setRef ip (c.ref ip - 1) := by
  unfold iput at h
  split_ifs at h with h0 hl hf
  · exact ⟨Nat.pos_of_ne_zero h0, by simpa using hl, by rw [if_pos hf]; exact (Except.ok.inj h).symm⟩
  · exact ⟨Nat.pos_of_ne_zero h0, by simpa using hl, by rw [if_neg hf]; exact (Except.ok.inj h).symm⟩

theorem iput_fields (h : c.iput ip nlink = .ok c') :
    c'.locked = c.locked ∧ ∀ i, c'.ref i + (if i = ip then 1 else 0) = c.ref i := by
  obtain ⟨hpos, -, rfl⟩ := iput_spec h
  refine ⟨by split <;> rfl, fun i => ?_⟩
  split <;> simp only [setRef, setValid, Function.update_apply] <;> grind

/-! ### Why they stop -/

section

variable {e : Stop}

theorem iget_error (h : c.iget ninodes ip = .error e) :
    (ninodes ≤ ip ∧ e = .outside) ∨ (NINODE ≤ c.inUse ninodes ∧ e = .igetNoInodes) := by
  unfold iget at h
  split_ifs at h with hout hpos hfull
  · exact .inl ⟨hout, (Except.error.inj h).symm⟩
  · exact .inr ⟨hfull, (Except.error.inj h).symm⟩

theorem idup_error (h : c.idup ip = .error e) : c.ref ip = 0 := by
  unfold idup at h
  split_ifs at h with h0
  exact h0

theorem ilock_error (h : c.ilock ip type = .error e) :
    c.ref ip = 0 ∨ (c.locked ip ∧ e = .blocked) ∨ (type = 0 ∧ e = .ilockNoType) := by
  unfold ilock at h
  split_ifs at h with h0 hl ht
  · exact .inl h0
  · exact .inr (.inl ⟨hl, (Except.error.inj h).symm⟩)
  · exact .inr (.inr ⟨ht.2, (Except.error.inj h).symm⟩)

theorem iunlock_error (h : c.iunlock ip = .error e) : ¬ c.locked ip ∨ c.ref ip = 0 := by
  unfold iunlock at h
  split_ifs at h with hno
  exact hno

theorem iput_error (h : c.iput ip nlink = .error e) :
    c.ref ip = 0 ∨ (c.locked ip ∧ e = .blocked) := by
  unfold iput at h
  split_ifs at h with h0 hl
  · exact .inl h0
  · exact .inr ⟨hl, (Except.error.inj h).symm⟩

end

theorem whenLocked_eq_ok {α : Type} {x : Except Stop α} {r : α} :
    c.whenLocked ip x = .ok r ↔ c.locked ip ∧ x = .ok r := by
  unfold whenLocked
  split <;> simp_all

/-- None of them fails as `bfree` does. -/
theorem iget_ne_freeing : c.iget ninodes ip ≠ .error .freeingFreeBlock := by
  unfold iget
  split_ifs <;> simp

theorem idup_ne_freeing : c.idup ip ≠ .error .freeingFreeBlock := by
  unfold idup
  split_ifs <;> simp

theorem ilock_ne_freeing : c.ilock ip type ≠ .error .freeingFreeBlock := by
  unfold ilock
  split_ifs <;> simp

theorem iunlock_ne_freeing : c.iunlock ip ≠ .error .freeingFreeBlock := by
  unfold iunlock
  split_ifs <;> simp

theorem iput_ne_freeing : c.iput ip nlink ≠ .error .freeingFreeBlock := by
  unfold iput
  split_ifs <;> simp

/-- A check that fails frees nothing. -/
theorem whenLocked_ne_freeing {α : Type} {x : Except Stop α}
    (h : c.locked ip → x ≠ .error .freeingFreeBlock) :
    c.whenLocked ip x ≠ .error .freeingFreeBlock := by
  unfold whenLocked
  split
  · rename_i hl
    exact h hl
  · simp

end Icache

end Xv6.Fs
