import Xv6.Param

/-!
# The log — its in-memory record and its header block

`log.c` keeps one `struct log`: where the log lies, how many file-system calls are executing,
whether a commit is running, and the header `lh`, the numbers of the blocks the current group
has modified.  `begin_op`, `end_op` and `log_write` are the bodies of the functions of that
name, each in one step under `log.lock`; the guard of `log_write`, which the source makes before it
takes the lock, is in that step.  `readHead` and `writeHead` are the copies `read_head` and
`write_head` make between `lh` and the header block's bytes; `readHead_writeHead` says the second
undoes the first.
-/

namespace Xv6

open Lib

/-- `struct logheader`.  `block` is the used part `block[0] .. block[n-1]` of the array. -/
structure LogHeader where
  block : List ℕ
  deriving DecidableEq, Repr

/-- The field `n`. -/
def LogHeader.n (lh : LogHeader) : ℕ := lh.block.length

/-- `struct log`, without its lock and device. -/
structure Log where
  start : ℕ
  size : ℕ
  /-- how many FS sys calls are executing -/
  outstanding : ℕ
  /-- in commit(), please wait -/
  committing : Bool
  lh : LogHeader
  deriving DecidableEq, Repr

namespace Log

/-- One pass of `begin_op`'s loop: `none` when the caller sleeps. -/
def begin_op (l : Log) : Option Log :=
  if l.committing then none
  else if l.lh.n + (l.outstanding + 1) * MAXOPBLOCKS > LOGSIZE then none
  else some { l with outstanding := l.outstanding + 1 }

/-- The first critical section of `end_op`; the flag is `do_commit`. -/
def end_op (l : Log) : Except Panic (Bool × Log) :=
  let l := { l with outstanding := l.outstanding - 1 }
  if l.committing then .error .logCommitting
  else if l.outstanding = 0 then .ok (true, { l with committing := true })
  else .ok (false, l)

/-- The second critical section of `end_op`, after `commit` has returned. -/
def end_commit (l : Log) : Log := { l with committing := false }

/-- `log.lh.n = 0`. -/
def clear (l : Log) : Log := { l with lh := ⟨[]⟩ }

/-- `log_write`, as far as the log record goes: the scan stops at the first entry equal to
`blockno` (absorption) or at `n`, and the entry found there is set.  The source makes the guard
without the lock: what another processor logs between the guard and the `acquire`, it does not
see. -/
def log_write (l : Log) (blockno : ℕ) : Except Panic Log :=
  if l.lh.n ≥ LOGSIZE ∨ l.lh.n ≥ l.size - 1 then .error .tooBigTransaction
  else if l.outstanding < 1 then .error .logWriteOutsideTrans
  else if blockno ∈ l.lh.block then .ok l
  else .ok { l with lh := ⟨l.lh.block ++ [blockno]⟩ }

variable {l l' : Log} {b : ℕ}

/-- `begin_op` lets an operation in only with room for its blocks. -/
theorem begin_op_spec (h : l.begin_op = some l') :
    l.committing = false ∧ l.lh.n + (l.outstanding + 1) * MAXOPBLOCKS ≤ LOGSIZE ∧
      l' = { l with outstanding := l.outstanding + 1 } := by
  unfold begin_op at h
  split at h
  · cases h
  · split at h
    · cases h
    · rename_i hc hn
      exact ⟨by simpa using hc, by omega, (Option.some.inj h).symm⟩

/-- `end_op` takes an operation out, and says whether to commit. -/
theorem end_op_spec {c : Bool} (h : l.end_op = .ok (c, l')) :
    l.committing = false ∧ (c = true ↔ l.outstanding - 1 = 0) ∧
      l' = { l with outstanding := l.outstanding - 1, committing := c } := by
  unfold end_op at h
  simp only at h
  split at h
  · cases h
  · rename_i hc
    have hc : l.committing = false := by simpa using hc
    split at h
    · rename_i h0
      cases h
      exact ⟨hc, by simp [h0], rfl⟩
    · rename_i h0
      cases h
      refine ⟨hc, by simp [h0], ?_⟩
      rw [← hc]

/-- What a `log_write` that does not panic does: the guard held, and the block's number is in
the header afterwards, once. -/
theorem log_write_spec (h : l.log_write b = .ok l') :
    l.lh.n < LOGSIZE ∧ l.lh.n < l.size - 1 ∧ 1 ≤ l.outstanding ∧
      l' = { l with lh := ⟨if b ∈ l.lh.block then l.lh.block else l.lh.block ++ [b]⟩ } := by
  unfold log_write at h
  split at h
  · cases h
  · rename_i hg
    rw [not_or, ge_iff_le, ge_iff_le, Nat.not_le, Nat.not_le] at hg
    split at h
    · cases h
    · rename_i ho
      refine ⟨hg.1, hg.2, by omega, ?_⟩
      split at h <;> rename_i hb <;> cases h
      · rw [if_pos hb]
      · rw [if_neg hb]

/-- `log_write` reaches `panic("too big a transaction")` exactly when the header is full. -/
theorem log_write_tooBig_iff :
    l.log_write b = .error .tooBigTransaction ↔ LOGSIZE ≤ l.lh.n ∨ l.size - 1 ≤ l.lh.n := by
  unfold log_write
  constructor
  · intro h
    split at h
    · assumption
    · split at h
      · cases h
      · split at h <;> cases h
  · intro h
    rw [if_pos h]

end Log

/-! ### The header block -/

/-- `read_head`'s copy: `n`, then the first `n` entries (a negative `n` copies none). -/
def readHead (d : Block) : LogHeader :=
  let n := d.get32 0
  if n < 2 ^ 31 then ⟨(List.range n).map fun i => d.get32 (4 + 4 * i)⟩ else ⟨[]⟩

/-- `hb->block[i] = log.lh.block[i]` for the entries from `i` on. -/
def writeEntries (d : Block) : ℕ → List ℕ → Block
  | _, [] => d
  | i, b :: bs => writeEntries (d.put32 (4 + 4 * i) b) (i + 1) bs

/-- `write_head`'s copy into the header buffer; entries from `n` on keep their old bytes. -/
def writeHead (d : Block) (lh : LogHeader) : Block :=
  writeEntries (d.put32 0 lh.n) 0 lh.block

theorem writeEntries_get32_of_lt (bs : List ℕ) :
    ∀ (d : Block) (i o : ℕ), o + 4 ≤ 4 + 4 * i → (writeEntries d i bs).get32 o = d.get32 o := by
  induction bs with
  | nil => intros; rfl
  | cons b bs ih =>
      intro d i o h
      rw [writeEntries, ih _ _ _ (by omega), Bytes.get32_put32_of_disjoint _ (.inl h)]

/-- The entries of the header can be read back. -/
theorem writeEntries_get32 (bs : List ℕ) :
    ∀ (d : Block) (i j : ℕ) (hj : j < bs.length), 4 + 4 * (i + bs.length) ≤ BSIZE →
      (∀ b ∈ bs, b < 2 ^ 32) → (writeEntries d i bs).get32 (4 + 4 * (i + j)) = bs[j] := by
  induction bs with
  | nil => intro _ _ _ hj; cases hj
  | cons b bs ih =>
      intro d i j hj hle hlt
      simp only [List.length_cons] at hj hle
      cases j with
      | zero =>
          rw [writeEntries, writeEntries_get32_of_lt _ _ _ _ (by omega), Nat.add_zero,
            Bytes.get32_put32 _ (by omega) (hlt b (by simp)), List.getElem_cons_zero]
      | succ j =>
          rw [writeEntries, show i + (j + 1) = i + 1 + j by omega,
            ih _ _ _ (by omega) (by omega) (fun x hx => hlt x (by simp [hx])),
            List.getElem_cons_succ]

/-- **The header survives the disk.**  A header that fits the array, with 32-bit block numbers,
is read back as written. -/
theorem readHead_writeHead (d : Block) (lh : LogHeader) (hn : lh.n ≤ LOGSIZE)
    (hb : ∀ b ∈ lh.block, b < 2 ^ 32) : readHead (writeHead d lh) = lh := by
  have hfit : 4 + 4 * lh.block.length ≤ BSIZE := by
    simp only [LogHeader.n, LOGSIZE, MAXOPBLOCKS, BSIZE] at *; omega
  have h0 : (writeHead d lh).get32 0 = lh.n := by
    rw [writeHead, writeEntries_get32_of_lt _ _ _ _ (by omega), Bytes.get32_put32 _ (by omega)]
    simp only [LOGSIZE, MAXOPBLOCKS] at hn; omega
  have hlt : lh.n < 2 ^ 31 := by simp only [LOGSIZE, MAXOPBLOCKS] at hn; omega
  simp only [readHead, h0, if_pos hlt]
  obtain ⟨bs⟩ := lh
  congr 1
  refine List.ext_getElem (by simp [LogHeader.n]) fun j h₁ h₂ => ?_
  have := writeEntries_get32 bs (d.put32 0 bs.length) 0 j h₂ (by simpa using hfit) hb
  simpa [writeHead, LogHeader.n] using this

end Xv6
