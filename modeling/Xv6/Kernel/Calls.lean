import Xv6.Vm.Exec
import Xv6.Proc.Table

/-!
# Kernel — the system calls that allocate

The processes with their memory and their open files: the file table of `file.c`, the pipes of
`pipe.c`, the descriptors of `sysfile.c`, and `fork`, `exec`, `sbrk`, `exit` and `wait`.  A system
call is one step; a panic ends the run.

* What the file system does is part of the call: the inode that `open` finds or creates (`none`
  where it fails before `filealloc`), the bytes that a read or write of an inode moves, the image
  that `exec` finds.
* A pipe is the page it lives in.  A use of a page that is no pipe any more is `dangling`.
* `made` and `freed` are ghosts: the pages that became pipes, and those that `pipeclose` freed.
-/

namespace Xv6.Kernel

open Xv6.Process (NPROC State)
open Xv6.Vm (Page Pgdir Kmem Symbols)

/-- The descriptors of a process, and the files of the system. -/
def NOFILE : ℕ := 16
def NFILE : ℕ := 100

/-- The types of `struct file`: `FD_NONE`, `FD_PIPE`, `FD_INODE`. -/
inductive FdType where
  | none
  | pipe
  | inode
  deriving DecidableEq

/-- `struct file`. -/
structure File where
  type : FdType
  ref : ℕ
  readable : Bool
  writable : Bool
  pipe : Page
  ip : ℕ
  off : ℕ

/-- `struct pipe`, as far as its ends go. -/
structure Pipe where
  page : Page
  readopen : Bool
  writeopen : Bool

/-- `struct proc`, as far as pages and files go. -/
structure Proc where
  state : State
  parent : Option (Fin NPROC)
  kstack : Option Page
  pgdir : Option Pgdir
  sz : ℕ
  ofile : Fin NOFILE → Option (Fin NFILE)

/-- The panics of a call; `dangling` is a use of a pipe whose page was freed. -/
inductive Panic where
  | vm (e : Vm.Panic)
  | filedup
  | fileclose
  | fileread
  | filewrite
  | initExiting
  | dangling
  deriving DecidableEq

/-- The memory, the tables, and what `main` has allocated. -/
structure System where
  kmem : Kmem
  file : Fin NFILE → File
  pipes : List Pipe
  proc : Fin NPROC → Proc
  initproc : Fin NPROC
  kpgdir : Pgdir
  bootStacks : List Page
  made : List Page
  freed : List Page

/-- A computation in the kernel. -/
abbrev Sys := StateT System (Except Panic)

/-- A computation in its memory. -/
def onMem {α : Type} (x : Vm.Vm α) : Sys α := fun s =>
  match x s.kmem with
  | .ok (a, m) => .ok (a, { s with kmem := m })
  | .error e => .error (.vm e)

namespace System

/-- A file changes. -/
def setFile (s : System) (f : Fin NFILE) (x : File) : System :=
  { s with file := Function.update s.file f x }

/-- A process changes. -/
def setProc (s : System) (p : Fin NPROC) (x : Proc) : System :=
  { s with proc := Function.update s.proc p x }

/-- A descriptor of a process changes. -/
def setFd (s : System) (p : Fin NPROC) (fd : Fin NOFILE) (f : Option (Fin NFILE)) : System :=
  s.setProc p { s.proc p with ofile := Function.update (s.proc p).ofile fd f }

end System

variable (k : Symbols)

/-! ### `file.c` and `pipe.c` -/

/-- `filealloc`: the first entry with no references. -/
def filealloc : Sys (Option (Fin NFILE)) := do
  let s ← get
  match (List.finRange NFILE).find? fun f => (s.file f).ref = 0 with
  | none => pure none
  | some f =>
      modify fun s => s.setFile f { s.file f with ref := 1 }
      pure (some f)

/-- `filedup`: a reference more. -/
def filedup (f : Fin NFILE) : Sys Unit := do
  let s ← get
  if (s.file f).ref < 1 then throw .filedup
  else modify fun s => s.setFile f { s.file f with ref := (s.file f).ref + 1 }

/-- One end is closed. -/
def Pipe.close (q : Pipe) (writable : Bool) : Pipe :=
  if writable then { q with writeopen := false } else { q with readopen := false }

/-- `pipeclose`: with the second end the page is freed. -/
def pipeclose (p : Page) (writable : Bool) : Sys Unit := do
  let s ← get
  match s.pipes.find? fun q => q.page = p with
  | none => throw .dangling
  | some q =>
      let q := q.close writable
      if q.readopen = false ∧ q.writeopen = false then do
        modify fun s => { s with
          pipes := s.pipes.eraseP fun q => q.page = p
          freed := p :: s.freed }
        onMem (Vm.kfree k p)
      else
        modify fun s => { s with pipes := q :: s.pipes.eraseP fun q => q.page = p }

/-- `fileclose`.  That of an inode gives its reference up, which is the file system's. -/
def fileclose (f : Fin NFILE) : Sys Unit := do
  let s ← get
  let ff := s.file f
  if ff.ref < 1 then throw .fileclose
  else if ff.ref - 1 > 0 then modify fun s => s.setFile f { ff with ref := ff.ref - 1 }
  else do
    modify fun s => s.setFile f { ff with ref := 0, type := .none }
    match ff.type with
    | .pipe => pipeclose k ff.pipe ff.writable
    | .inode => pure ()
    | .none => pure ()

/-- `fileread`: what it returns, for an inode that yields `r`, or a pipe. -/
def fileread (f : Fin NFILE) (r : ℤ) : Sys ℤ := do
  let s ← get
  let ff := s.file f
  if ff.readable = false then pure (-1)
  else
    match ff.type with
    | .pipe => pure r
    | .inode => do
        if 0 < r then modify fun s => s.setFile f { ff with off := ff.off + r.toNat }
        pure r
    | .none => throw .fileread

/-- `filewrite`: what it returns, for an inode to which `r` bytes are written, or a pipe. -/
def filewrite (f : Fin NFILE) (r : ℤ) : Sys ℤ := do
  let s ← get
  let ff := s.file f
  if ff.writable = false then pure (-1)
  else
    match ff.type with
    | .pipe => pure r
    | .inode => do
        if 0 < r then modify fun s => s.setFile f { ff with off := ff.off + r.toNat }
        pure r
    | .none => throw .filewrite

/-- The `bad` path of `pipealloc`. -/
def cleanuppipealloc (p : Option Page) (f₀ f₁ : Option (Fin NFILE)) : Sys Unit := do
  match p with
  | some p => onMem (Vm.kfree k p)
  | none => pure ()
  match f₀ with
  | some f => fileclose k f
  | none => pure ()
  match f₁ with
  | some f => fileclose k f
  | none => pure ()

/-- The new pipe, with its read end `f₀` and its write end `f₁`. -/
def System.addPipe (s : System) (p : Page) (f₀ f₁ : Fin NFILE) : System :=
  let s₁ := s.setFile f₀
    { s.file f₀ with type := .pipe, readable := true, writable := false, pipe := p }
  let s₂ := s₁.setFile f₁
    { s₁.file f₁ with type := .pipe, readable := false, writable := true, pipe := p }
  { s₂ with pipes := ⟨p, true, true⟩ :: s.pipes, made := p :: s.made }

/-- `pipealloc`: two files and a page, or none of them. -/
def pipealloc : Sys (Option (Fin NFILE × Fin NFILE)) := do
  match ← filealloc with
  | none => do
      cleanuppipealloc k none none none
      pure none
  | some f₀ =>
      match ← filealloc with
      | none => do
          cleanuppipealloc k none (some f₀) none
          pure none
      | some f₁ =>
          match ← onMem Vm.kalloc with
          | none => do
              cleanuppipealloc k none (some f₀) (some f₁)
              pure none
          | some p => do
              modify fun s => s.addPipe p f₀ f₁
              pure (some (f₀, f₁))

/-! ### `sysfile.c` -/

/-- `argfd`: the descriptor and its file. -/
def argfd (p : Fin NPROC) (fd : ℤ) : Sys (Option (Fin NOFILE × Fin NFILE)) := do
  let s ← get
  if h : 0 ≤ fd ∧ fd.toNat < NOFILE then
    match (s.proc p).ofile ⟨fd.toNat, h.2⟩ with
    | none => pure none
    | some f => pure (some (⟨fd.toNat, h.2⟩, f))
  else pure none

/-- `fdalloc`: the first free descriptor. -/
def fdalloc (p : Fin NPROC) (f : Fin NFILE) : Sys (Option (Fin NOFILE)) := do
  let s ← get
  match (List.finRange NOFILE).find? fun fd => (s.proc p).ofile fd = none with
  | none => pure none
  | some fd => do
      modify fun s => s.setFd p fd (some f)
      pure (some fd)

/-- `sys_dup`: the descriptor is taken before the reference is counted. -/
def sys_dup (p : Fin NPROC) (fd : ℤ) : Sys ℤ := do
  match ← argfd p fd with
  | none => pure (-1)
  | some (_, f) =>
      match ← fdalloc p f with
      | none => pure (-1)
      | some fd => do
          filedup f
          pure fd

/-- `sys_read`, where `r` is what the file yields. -/
def sys_read (p : Fin NPROC) (fd r : ℤ) : Sys ℤ := do
  match ← argfd p fd with
  | none => pure (-1)
  | some (_, f) => fileread f r

/-- `sys_write`, where `r` is what the file takes. -/
def sys_write (p : Fin NPROC) (fd r : ℤ) : Sys ℤ := do
  match ← argfd p fd with
  | none => pure (-1)
  | some (_, f) => filewrite f r

/-- `sys_close`: the descriptor is free before the file is closed. -/
def sys_close (p : Fin NPROC) (fd : ℤ) : Sys ℤ := do
  match ← argfd p fd with
  | none => pure (-1)
  | some (fd, f) => do
      modify fun s => s.setFd p fd none
      fileclose k f
      pure 0

/-- `sys_open`, with the inode that `create` or `namei` returns. -/
def sys_open (p : Fin NPROC) (ip : Option ℕ) (wronly rdwr : Bool) : Sys ℤ :=
  match ip with
  | none => pure (-1)
  | some ip => do
      match ← filealloc with
      | none => pure (-1)
      | some f =>
          match ← fdalloc p f with
          | none => do
              fileclose k f
              pure (-1)
          | some fd => do
              modify fun s => s.setFile f { s.file f with
                type := .inode
                ip := ip
                off := 0
                readable := !wronly
                writable := wronly || rdwr }
              pure fd

/-- `sys_pipe`, with the check of its argument. -/
def sys_pipe (p : Fin NPROC) (argptr : Bool) : Sys ℤ :=
  if argptr = false then pure (-1)
  else do
    match ← pipealloc k with
    | none => pure (-1)
    | some (rf, wf) =>
        match ← fdalloc p rf with
        | none => do
            fileclose k rf
            fileclose k wf
            pure (-1)
        | some fd₀ =>
            match ← fdalloc p wf with
            | none => do
                modify fun s => s.setFd p fd₀ none
                fileclose k rf
                fileclose k wf
                pure (-1)
            | some _ => pure 0

/-! ### `proc.c` -/

/-- The loop of `fork` over the descriptors. -/
def dupFiles (p np : Fin NPROC) : List (Fin NOFILE) → Sys Unit
  | [] => pure ()
  | fd :: fds => do
      let s ← get
      match (s.proc p).ofile fd with
      | none => pure ()
      | some f => do
          filedup f
          modify fun s => s.setFd np fd (some f)
      dupFiles p np fds

/-- `fork`: the entry of the child, or the return of `-1`. -/
def fork (p : Fin NPROC) : Sys (Option (Fin NPROC)) := do
  let s ← get
  match (List.finRange NPROC).find? fun i => (s.proc i).state = .unused with
  | none => pure none
  | some np => do
      modify fun s => s.setProc np { s.proc np with state := .embryo }
      match ← onMem Vm.kalloc with
      | none => do
          modify fun s => s.setProc np { s.proc np with kstack := none, state := .unused }
          pure none
      | some kstack => do
          modify fun s => s.setProc np { s.proc np with kstack := some kstack }
          match (s.proc p).pgdir with
          | none => throw (.vm .fault)
          | some pgdir =>
              match ← onMem (Vm.copyuvm k pgdir (s.proc p).sz) with
              | none => do
                  onMem (Vm.kfree k kstack)
                  modify fun s => s.setProc np { s.proc np with
                    pgdir := none
                    kstack := none
                    state := .unused }
                  pure none
              | some d => do
                  modify fun s => s.setProc np { s.proc np with
                    pgdir := some d
                    sz := (s.proc p).sz
                    parent := some p }
                  dupFiles p np (List.finRange NOFILE)
                  modify fun s => s.setProc np { s.proc np with state := .runnable }
                  pure (some np)

/-- The new size `sz + n`, of 32 bits. -/
def addSize (sz : ℕ) (n : ℤ) : ℕ := ((sz + n) % 2 ^ 32).toNat

/-- `growproc`, by an `int`. -/
def growproc (p : Fin NPROC) (n : ℤ) : Sys ℤ := do
  let s ← get
  match (s.proc p).pgdir with
  | none => throw (.vm .fault)
  | some d =>
      if n = 0 then pure 0
      else do
        let sz := (s.proc p).sz
        let (d, sz) ← onMem
          (if 0 < n then Vm.allocuvm k d sz (addSize sz n) else Vm.deallocuvm k d sz (addSize sz n))
        if sz = 0 then do
          modify fun s => s.setProc p { s.proc p with pgdir := some d }
          pure (-1)
        else do
          modify fun s => s.setProc p { s.proc p with pgdir := some d, sz := sz }
          pure 0

/-- `exec`, with its commit. -/
def exec (p : Fin NPROC) (img : Vm.Image) : Sys ℤ := do
  match ← onMem (Vm.exec k img) with
  | none => pure (-1)
  | some (d, sz) => do
      let s ← get
      let oldpgdir := (s.proc p).pgdir
      modify fun s => s.setProc p { s.proc p with pgdir := some d, sz := sz }
      onMem (Vm.freevm k oldpgdir)
      pure 0

/-- The loop of `exit` over the descriptors. -/
def closeFiles (p : Fin NPROC) : List (Fin NOFILE) → Sys Unit
  | [] => pure ()
  | fd :: fds => do
      let s ← get
      match (s.proc p).ofile fd with
      | none => pure ()
      | some f => do
          fileclose k f
          modify fun s => s.setFd p fd none
      closeFiles p fds

/-- The children of `p` are passed to `initproc`, and `p` is a zombie. -/
def System.bury (s : System) (p : Fin NPROC) : System :=
  { s with proc := fun i =>
      let x := s.proc i
      let x := if x.parent = some p then { x with parent := some s.initproc } else x
      if i = p then { x with state := .zombie } else x }

/-- `exit`: the files are closed, and the process is a zombie that keeps its pages. -/
def exit (p : Fin NPROC) : Sys Unit := do
  let s ← get
  if p = s.initproc then throw .initExiting
  else do
    closeFiles k p (List.finRange NOFILE)
    modify fun s => s.bury p

/-- `wait`: the first child that is a zombie is freed.  Without one it fails or sleeps. -/
def wait (p : Fin NPROC) : Sys (Option (Fin NPROC)) := do
  let s ← get
  match (List.finRange NPROC).find? fun i =>
      (s.proc i).parent = some p ∧ (s.proc i).state = .zombie with
  | none => pure none
  | some q =>
      match (s.proc q).kstack with
      | none => throw (.vm .kfree)
      | some kstack => do
          onMem (Vm.kfree k kstack)
          onMem (Vm.freevm k (s.proc q).pgdir)
          modify fun s => s.setProc q { s.proc q with kstack := none, parent := none, state := .unused }
          pure (some q)

/-! ### Runs -/

/-- A system call, with its arguments and what the file system makes of it. -/
inductive Call where
  | fork
  | exec (img : Vm.Image)
  | sbrk (n : ℤ)
  | exit
  | wait
  | pipe (argptr : Bool)
  | openFile (ip : Option ℕ) (wronly rdwr : Bool)
  | dup (fd : ℤ)
  | close (fd : ℤ)
  | read (fd r : ℤ)
  | write (fd r : ℤ)

/-- The call, without what it returns. -/
def call (p : Fin NPROC) : Call → Sys Unit
  | .fork => do let _ ← fork k p
  | .exec img => do let _ ← exec k p img
  | .sbrk n => do let _ ← growproc k p n
  | .exit => exit k p
  | .wait => do let _ ← wait k p
  | .pipe argptr => do let _ ← sys_pipe k p argptr
  | .openFile ip wronly rdwr => do let _ ← sys_open k p ip wronly rdwr
  | .dup fd => do let _ ← sys_dup p fd
  | .close fd => do let _ ← sys_close k p fd
  | .read fd r => do let _ ← sys_read p fd r
  | .write fd r => do let _ ← sys_write p fd r

/-- A process makes a system call, which returns. -/
def Step (s : System) (c : Fin NPROC × Call) (t : System) : Prop :=
  (s.proc c.1).state.live = true ∧ call k c.1 c.2 s = .ok ((), t)

end Xv6.Kernel
