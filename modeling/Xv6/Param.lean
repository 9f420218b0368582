import Xv6.Lib.Bytes

/-!
# Kernel parameters

The constants of `param.h` and `fs.h` the model reads, the type of a disk block, and the
kernel's `panic` messages.
-/

namespace Xv6

/-! ### `param.h` -/

/-- The constants of `param.h`. -/
def NCPU : ℕ := 8
def MAXOPBLOCKS : ℕ := 10
def LOGSIZE : ℕ := MAXOPBLOCKS * 3
def NBUF : ℕ := MAXOPBLOCKS * 3
def FSSIZE : ℕ := 1000

instance : NeZero NBUF := ⟨by decide⟩
instance : LawfulBEq (Fin NBUF) := inferInstance

/-! ### `fs.h` -/

/-- The bytes of a block. -/
def BSIZE : ℕ := 512

/-- The contents of one disk block: `uchar data[BSIZE]`. -/
abbrev Block := Lib.Bytes BSIZE

/-- A process, as a sleep-lock records its holder. -/
abbrev Pid := ℕ

/-- The calls of `panic` in the modelled functions.  A panic stops the machine. -/
inductive Panic where
  | bgetNoBuffers
  | bwrite
  | brelse
  | iderwNotLocked
  | iderwNothingToDo
  | iderwNotDisk1
  | iderwOutOfRange
  | tooBigTransaction
  | logWriteOutsideTrans
  | logCommitting
  deriving DecidableEq, Repr

/-- The message each call prints. -/
def Panic.msg : Panic → String
  | .bgetNoBuffers => "bget: no buffers"
  | .bwrite => "bwrite"
  | .brelse => "brelse"
  | .iderwNotLocked => "iderw: buf not locked"
  | .iderwNothingToDo => "iderw: nothing to do"
  | .iderwNotDisk1 => "iderw: request not for disk 1"
  | .iderwOutOfRange => "iderw: block out of range"
  | .tooBigTransaction => "too big a transaction"
  | .logWriteOutsideTrans => "log_write outside of trans"
  | .logCommitting => "log.committing"

end Xv6
