import Xv6.Fs.Syscalls
import Xv6.Lib.LittleEndian
import Xv6.Uvm.Copyout
import Xv6.Uvm.Grow
import Xv6.Vm.Exec

/-!
# Address spaces — `exec`

`exec` with the address space it builds and the state it has to leave in order: the transaction,
the inode and the process.

* A file is the list of its bytes, and `readi` of a locked inode reads from it: every number in
  the headers is what these bytes say.
* Of the inode `exec` changes the references and the lock (`ilock` waits until the lock is free),
  of the log the number of open transactions.
* What makes a call fail after `setupkvm` is gathered in the results of `loadProgram` and
  `pushArgs`; all of it goes through `cleanupexec`, as in the source.
-/

namespace Xv6.Uvm

open Vm (Page PGSIZE KERNBASE PGROUNDUP MAXARG)
open Fs (field EHSIZE PHSIZE ELF_MAGIC ELF_PROG_LOAD)

/-! ### The file -/

/-- `readi` of `n` bytes at `off`, of an inode with the bytes `f`: `none` is the return of `-1`. -/
def readi (f : List UInt8) (off n : ℕ) : Option (List UInt8) :=
  if f.length < off ∨ (off + n) % 2 ^ 32 < off then none else some ((f.drop off).take n)

/-- The loop of `loaduvm`, for the pages that are left. -/
def loadFrom (d : Pgdir) (addr : ℕ) (f : List UInt8) (offset sz : ℕ) : ℕ → ℕ → Uvm Bool
  | 0, _ => pure true
  | n + 1, i =>
      match d.lookup ((addr + i) % 2 ^ 32) with
      | none => throw .loaduvmNoPte
      | some pte =>
          let m := if sz - i < PGSIZE then sz - i else PGSIZE
          match readi f ((offset + i) % 2 ^ 32) m with
          | none => pure false
          | some b => do
              memmove pte.addr (fun o => b.getD o 0) b.length
              if b.length = m then loadFrom d addr f offset sz n (i + PGSIZE) else pure false

/-- `loaduvm`: `false` is the return of `-1`. -/
def loaduvm (d : Pgdir) (addr : ℕ) (f : List UInt8) (offset sz : ℕ) : Uvm Bool :=
  if addr % PGSIZE ≠ 0 then throw .loaduvmNotAligned
  else loadFrom d addr f offset sz ((sz + PGSIZE - 1) / PGSIZE) 0

variable (k : Vm.Symbols)

/-- The loop of `exec` over the program headers, for those that are left, from the size so far: the
directory it leaves and the new size, unless it fails. -/
def loadProgram (f : List UInt8) : ℕ → ℕ → Pgdir → ℕ → Uvm (Pgdir × Option ℕ)
  | 0, _, d, sz => pure (d, some sz)
  | n + 1, off, d, sz =>
      match readi f off PHSIZE with
      | none => pure (d, none)
      | some ph =>
          let vaddr := field ph 8 4
          let filesz := field ph 16 4
          let memsz := field ph 20 4
          let next := (off + PHSIZE) % 2 ^ 32
          if ph.length ≠ PHSIZE then pure (d, none)
          else if field ph 0 4 ≠ ELF_PROG_LOAD then loadProgram f n next d sz
          else if memsz < filesz then pure (d, none)
          else if (vaddr + memsz) % 2 ^ 32 < vaddr then pure (d, none)
          else do
            let (d, sz) ← allocuvm k d sz ((vaddr + memsz) % 2 ^ 32)
            if sz = 0 then pure (d, none)
            else if vaddr % PGSIZE ≠ 0 then pure (d, none)
            else do
              if ← loaduvm d vaddr f (field ph 4 4) filesz then loadProgram f n next d sz
              else pure (d, none)

/-! ### The stack -/

/-- The stack pointer below a string of `len` bytes and its terminator. -/
def below (sp len : ℕ) : ℕ := (sp + 2 ^ 32 - (len + 1) % 2 ^ 32) % 2 ^ 32 / 4 * 4

/-- The bytes of `src` for `copyout`. -/
def bytes (src : List UInt8) : ℕ → UInt8 := fun i => src.getD i 0

/-- The loop of `exec` that pushes the argument strings: the stack pointer, and those it has put
in `ustack`. -/
def pushArgs (d : Pgdir) : List (List UInt8) → ℕ → List ℕ → Uvm (Option (ℕ × List ℕ))
  | [], sp, ustack => pure (some (sp, ustack))
  | arg :: argv, sp, ustack =>
      if MAXARG ≤ ustack.length then pure none
      else do
        let sp := below sp arg.length
        if ← copyout d sp (bytes arg) (arg.length + 1) then pushArgs d argv sp (ustack ++ [sp])
        else pure none

/-- `ustack`: the return address, `argc`, `argv` and the pointers. -/
def ustackWords (sp : ℕ) (ustack : List ℕ) : List ℕ :=
  [0xffffffff, ustack.length, (sp + 2 ^ 32 - (ustack.length + 1) * 4) % 2 ^ 32] ++ ustack ++ [0]

/-! ### `exec.c` -/

/-- What `exec` changes of `struct proc`. -/
structure Process where
  pgdir : Pgdir
  sz : ℕ
  eip : ℕ
  esp : ℕ
  name : List UInt8

/-- What `exec` works on: memory, the process, the log, and the inode of the file. -/
structure Kernel where
  mem : Machine
  proc : Process
  /-- `log.outstanding` -/
  outstanding : ℕ
  /-- `ip->ref` of the inode that the path names, and whether this process holds its lock -/
  ref : ℕ
  locked : Bool

/-- The panics that it can end in. -/
inductive Stop where
  | vm (p : Vm.Panic)
  | ilock
  | iunlock

/-- A computation of `exec`. -/
abbrev Exec := StateT Kernel (Except Stop)

/-- A computation in the kernel's memory. -/
def onMem {α : Type} (x : Uvm α) : Exec α := fun s =>
  match x s.mem with
  | .ok (a, m) => .ok (a, { s with mem := m })
  | .error e => .error (.vm e)

/-- `begin_op`, as far as it is counted. -/
def begin_op : Exec Unit := modify fun s => { s with outstanding := s.outstanding + 1 }

/-- `end_op`, as far as it is counted. -/
def end_op : Exec Unit := modify fun s => { s with outstanding := s.outstanding - 1 }

/-- `namei`, with a reference to the inode if there is one. -/
def namei (found : Bool) : Exec Bool := do
  if found then modify fun s => { s with ref := s.ref + 1 }
  pure found

/-- `ilock`. -/
def ilock : Exec Unit := fun s =>
  if s.ref < 1 then .error .ilock else .ok ((), { s with locked := true })

/-- `iunlock`. -/
def iunlock : Exec Unit := fun s =>
  if s.locked = false ∨ s.ref < 1 then .error .iunlock else .ok ((), { s with locked := false })

/-- `iput`: a reference less. -/
def iput : Exec Unit := modify fun s => { s with ref := s.ref - 1 }

/-- `iunlock(ip); iput(ip);` -/
def iunlockput : Exec Unit := do
  iunlock
  iput

/-- The `bad` path of `exec`. -/
def cleanupexec (pgdir : Option Pgdir) (ip : Bool) : Exec Unit := do
  match pgdir with
  | some d => onMem (freevm k (some d))
  | none => pure ()
  if ip then do
    iunlockput
    end_op

/-- `cleanupexec`, and the return of `-1`. -/
def fail (pgdir : Option Pgdir) (ip : Bool) : Exec ℤ := do
  cleanupexec k pgdir ip
  pure (-1)

/-- The part of a path after its last `/`. -/
def lastElem (path : List UInt8) : List UInt8 :=
  (path.reverse.takeWhile fun c => c ≠ '/'.toUInt8).reverse

/-- The end of `exec`: the process gets its new image, and the old one is freed. -/
def commit (path : List UInt8) (d : Pgdir) (sz entry sp : ℕ) : Exec ℤ := do
  let s ← get
  modify fun s => { s with proc := ⟨d, sz, entry, sp, (lastElem path).take 15⟩ }
  onMem (freevm k (some s.proc.pgdir))
  pure 0

/-- `exec` from the stack on: the inode is released. -/
def buildStack (path : List UInt8) (argv : List (List UInt8)) (entry : ℕ) (d : Pgdir) (sz : ℕ) :
    Exec ℤ := do
  let (d, sz) ← onMem (allocuvm k d (PGROUNDUP sz) (PGROUNDUP sz + 2 * PGSIZE))
  if sz = 0 then fail k (some d) false
  else do
    let d ← onMem (clearpteu d (sz - 2 * PGSIZE))
    match ← onMem (pushArgs d argv sz []) with
    | none => fail k (some d) false
    | some (sp, ustack) => do
        let words := ustackWords sp ustack
        let top := (sp + 2 ^ 32 - words.length * 4) % 2 ^ 32
        if ← onMem (copyout d top (bytes (words.flatMap (Lib.toLE 4))) (words.length * 4)) then
          commit k path d sz entry top
        else fail k (some d) false

-- The stack is not to be built by unification.
attribute [irreducible] buildStack

/-- `exec` of the inode that `path` names, if there is one, with the bytes `f`. -/
def exec (found : Bool) (f path : List UInt8) (argv : List (List UInt8)) : Exec ℤ := do
  begin_op
  if ← namei found then do
    ilock
    match readi f 0 EHSIZE with
    | none => fail k none true
    | some elf =>
        if elf.length ≠ EHSIZE then fail k none true
        else if field elf 0 4 ≠ ELF_MAGIC then fail k none true
        else do
          match ← onMem (setupkvm k) with
          | none => fail k none true
          | some d => do
              match ← onMem (loadProgram k f (field elf 44 2) (field elf 28 4) d 0) with
              | (d, none) => fail k (some d) true
              | (d, some sz) => do
                  iunlockput
                  end_op
                  buildStack k path argv (field elf 24 4) d sz
  else do
    end_op
    pure (-1)

end Xv6.Uvm
