import Xv6.Fs.Calls
import Xv6.Vm.Pages

/-!
# File system — the calls that open, make and leave files

The other system calls of `sysfile.c` on inodes, the part of `fileclose` that gives an inode up,
and the part of `exec` that reads one, as programs over the operations of inodes.

What is not the file system's is an argument of the call: whether `argstr` and `argint` get their
arguments (`none` where they fail), whether `filealloc` or `fdalloc` finds its table full, and
which allocations of memory succeed in `exec`.
-/

namespace Xv6.Fs

open Xv6.Vm (PGSIZE)

/-! ### `sysfile.c` -/

/-- `sys_open` without `O_CREATE`, up to the check of the type: the locked inode. -/
def openExisting (cwd : Inum) (path : Str) (omode : ℕ) : Call (Option Inum) := do
  match ← namei cwd path with
  | none => pure none
  | some ip =>
      ilock ip
      let a ← attr ip
      if a.type = T_DIR ∧ omode ≠ O_RDONLY then
        iunlockput ip
        pure none
      else pure (some ip)

/-- `sys_open`: the inode of the new open file, or the return of `-1`. -/
def sys_open (cwd : Inum) (path : Option Str) (omode : ℕ) (full : Bool) : Call (Option Inum) :=
  match path with
  | none => pure none
  | some path => do
      begin_op
      match ← if omode &&& O_CREATE ≠ 0 then create cwd path T_FILE 0 0
          else openExisting cwd path omode with
      | none =>
          end_op
          pure none
      | some ip =>
          if full then
            iunlockput ip
            end_op
            pure none
          else
            iunlock ip
            end_op
            pure (some ip)

/-- The end of `sys_mkdir` and `sys_mknod`, when their arguments are there. -/
def make (cwd : Inum) (path : Str) (type major minor : ℤ) : Call ℤ := do
  match ← create cwd path type major minor with
  | none =>
      end_op
      pure (-1)
  | some ip =>
      iunlockput ip
      end_op
      pure 0

/-- `sys_mkdir`. -/
def sys_mkdir (cwd : Inum) (path : Option Str) : Call ℤ := do
  begin_op
  match path with
  | none =>
      end_op
      pure (-1)
  | some path => make cwd path T_DIR 0 0

/-- `sys_mknod`: the numbers of the device are stored as `short`s. -/
def sys_mknod (cwd : Inum) (path : Option Str) (major minor : Option ℤ) : Call ℤ := do
  begin_op
  match path, major, minor with
  | some path, some major, some minor => make cwd path T_DEV (short major) (short minor)
  | _, _, _ =>
      end_op
      pure (-1)

/-- `sys_chdir`: the new current directory, or the return of `-1`. -/
def sys_chdir (cwd : Inum) (path : Option Str) : Call (Option Inum) := do
  begin_op
  match path with
  | none =>
      end_op
      pure none
  | some path =>
      match ← namei cwd path with
      | none =>
          end_op
          pure none
      | some ip =>
          ilock ip
          let a ← attr ip
          if a.type ≠ T_DIR then
            iunlockput ip
            end_op
            pure none
          else
            iunlock ip
            iput cwd
            end_op
            pure (some ip)

/-! ### `file.c` -/

/-- `fileclose`, with the inode of a file whose last reference it is. -/
def fileclose (ip : Option Inum) : Call Unit :=
  match ip with
  | none => pure ()
  | some ip => do
      begin_op
      iput ip
      end_op

/-! ### `exec.c` -/

/-- The constants of `elf.h`. -/
def ELF_MAGIC : ℕ := 0x464C457F
def ELF_PROG_LOAD : ℕ := 1

/-- `sizeof(struct elfhdr)` and `sizeof(struct proghdr)`. -/
def EHSIZE : ℕ := 52

/-- The bytes of a program header. -/
def PHSIZE : ℕ := 32

/-- The little-endian number in the `n` bytes at `off`. -/
def field (b : List UInt8) (off n : ℕ) : ℕ :=
  ((b.drop off).take n).foldr (fun x acc => x.toNat + 256 * acc) 0

/-- Which allocations of memory succeed: that of `setupkvm`, and those of `allocuvm` by the number
of the program header. -/
structure Memory where
  setupkvm : Bool
  allocuvm : ℕ → Bool

/-- The loop of `loaduvm`, for the pages that are left. -/
def loaduvm (ip : Inum) (off sz : ℕ) : ℕ → ℕ → Call Bool
  | 0, _ => pure true
  | n + 1, i => do
      let m := min (sz - i) PGSIZE
      match ← readi ip ((off + i) % 2 ^ 32) m with
      | some b => if b.length = m then loaduvm ip off sz n (i + PGSIZE) else pure false
      | none => pure false

/-- The loop of `exec` over the program headers. -/
def loadProgram (ip : Inum) (mem : Memory) : ℕ → ℕ → ℕ → Call Bool
  | 0, _, _ => pure true
  | n + 1, i, off => do
      match ← readi ip off PHSIZE with
      | none => pure false
      | some ph =>
          let vaddr := field ph 8 4
          let filesz := field ph 16 4
          let memsz := field ph 20 4
          if ph.length ≠ PHSIZE then pure false
          else if field ph 0 4 ≠ ELF_PROG_LOAD then
            loadProgram ip mem n (i + 1) ((off + PHSIZE) % 2 ^ 32)
          else if memsz < filesz then pure false
          else if (vaddr + memsz) % 2 ^ 32 < vaddr then pure false
          else if mem.allocuvm i = false then pure false
          else if vaddr % PGSIZE ≠ 0 then pure false
          else do
            if ← loaduvm ip (field ph 4 4) filesz ((filesz + PGSIZE - 1) / PGSIZE) 0 then
              loadProgram ip mem n (i + 1) ((off + PHSIZE) % 2 ^ 32)
            else pure false

/-- What `exec` reads of its locked inode. -/
def readImage (ip : Inum) (mem : Memory) : Call Bool := do
  match ← readi ip 0 EHSIZE with
  | none => pure false
  | some elf =>
      if elf.length ≠ EHSIZE then pure false
      else if field elf 0 4 ≠ ELF_MAGIC then pure false
      else if mem.setupkvm = false then pure false
      else loadProgram ip mem (field elf 44 2) 0 (field elf 28 4)

/-- `exec` up to the point where it has done with the inode.  `cleanupexec` does to it what the
successful path does. -/
def exec (cwd : Inum) (path : Str) (mem : Memory) : Call ℤ := do
  begin_op
  match ← namei cwd path with
  | none =>
      end_op
      pure (-1)
  | some ip =>
      ilock ip
      let ok ← readImage ip mem
      iunlockput ip
      end_op
      pure (if ok then 0 else -1)

/-! ### The calls -/

/-- A system call, with what it needs of the rest of the kernel. -/
inductive Syscall where
  | link (old new : Option Str)
  | unlink (path : Option Str)
  | openFile (path : Option Str) (omode : ℕ) (full : Bool)
  | mkdir (path : Option Str)
  | mknod (path : Option Str) (major minor : Option ℤ)
  | chdir (path : Option Str)
  | fileclose (ip : Option Inum)
  | exec (path : Str) (mem : Memory)

/-- What a call comes to: whether it returns `-1`, the reference that a new open file or a new
current directory has, and the reference given up. -/
structure Outcome where
  failed : Bool
  gained : Option Inum
  dropped : Option Inum

namespace Outcome

/-- Of a call that returns a number. -/
def ofInt (r : ℤ) : Outcome := ⟨r < 0, none, none⟩

/-- Of a call that returns a reference, for another that it gives up. -/
def ofRef (dropped : Option Inum) : Option Inum → Outcome
  | none => ⟨true, none, none⟩
  | some ip => ⟨false, some ip, dropped⟩

end Outcome

/-- The code of a system call, on the arguments that could be fetched. -/
def Syscall.prog (cwd : Inum) : Syscall → Call Outcome
  | link (some old) (some new) => Outcome.ofInt <$> sys_link cwd old new
  | link _ _ => pure (.ofInt (-1))
  | unlink (some path) => Outcome.ofInt <$> sys_unlink cwd path
  | unlink none => pure (.ofInt (-1))
  | openFile path omode full => Outcome.ofRef none <$> sys_open cwd path omode full
  | mkdir path => Outcome.ofInt <$> sys_mkdir cwd path
  | mknod path major minor => Outcome.ofInt <$> sys_mknod cwd path major minor
  | chdir path => Outcome.ofRef (some cwd) <$> sys_chdir cwd path
  | fileclose ip => (fun _ => ⟨false, none, ip⟩) <$> Fs.fileclose ip
  | exec path mem => Outcome.ofInt <$> Fs.exec cwd path mem

end Xv6.Fs
