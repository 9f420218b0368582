import Xv6.Fs.Layout
import Xv6.Lib.Prog

/-!
# File system — directories, paths and the calls on them

The directory and path functions of `fs.c` (`dirlookup`, `dirlink`, `namex`) and the system
calls of `sysfile.c` that change the tree (`create`, `sys_link`, `sys_unlink`), each written
once, as a program over the inode operations below them.  Two models give these operations a
meaning: one with blocks, bitmap and inode cache, and one in which an inode holds its bytes.

An inode in use is in one cache entry only, so a `struct inode *` is given by the number of its
inode.  There is one device.
-/

namespace Xv6.Fs

/-- The number of an inode, and a pointer to its cache entry. -/
abbrev Inum := ℕ

/-- The fields of a locked inode that the calls read. -/
structure Attr where
  type : ℤ
  major : ℤ
  minor : ℤ
  nlink : ℤ
  size : ℕ
  deriving DecidableEq, Repr

/-- The calls of `panic` in the functions of this module. -/
inductive CallPanic where
  | dirlookupNotDir
  | dirlookupRead
  | dirlinkRead
  | dirlink
  | isdiremptyReadi
  | unlinkNlink
  | unlinkWritei
  | createDots
  | createDirlink
  | shortFilewrite
  deriving DecidableEq, Repr

/-- The message each call prints. -/
def CallPanic.msg : CallPanic → String
  | .dirlookupNotDir => "dirlookup not DIR"
  | .dirlookupRead => "dirlookup read"
  | .dirlinkRead => "dirlink read"
  | .dirlink => "dirlink"
  | .isdiremptyReadi => "isdirempty: readi"
  | .unlinkNlink => "unlink: nlink < 1"
  | .unlinkWritei => "unlink: writei"
  | .createDots => "create dots"
  | .createDirlink => "create: dirlink"
  | .shortFilewrite => "short filewrite"

/-- The operations the calls are made of: those of the log and of the inodes. -/
inductive Op where
  | begin_op
  | end_op
  | iget (inum : Inum)
  | idup (ip : Inum)
  | ilock (ip : Inum)
  | iunlock (ip : Inum)
  | iput (ip : Inum)
  | ialloc (type : ℤ)
  | attr (ip : Inum)
  /-- Assign the three fields the calls assign, and `iupdate`. -/
  | iupdate (ip : Inum) (major minor nlink : ℤ)
  | readi (ip : Inum) (off n : ℕ)
  | writei (ip : Inum) (off : ℕ) (src : List UInt8)
  | panic (p : CallPanic)

/-- What each operation returns: `readi` and `writei` return `-1` as `none`, and `readi` the
bytes it has copied. -/
@[reducible]
def Op.Res : Op → Type
  | .iget _ | .idup _ | .ialloc _ => Inum
  | .attr _ => Attr
  | .readi .. => Option (List UInt8)
  | .writei .. => Option ℕ
  | .panic _ => Empty
  | _ => Unit

/-- The code of a system call, by its operations. -/
abbrev Call := Lib.Prog Op Op.Res

def begin_op : Call Unit := .perform Op.begin_op
def end_op : Call Unit := .perform Op.end_op
def iget (inum : Inum) : Call Inum := .perform (Op.iget inum)
def idup (ip : Inum) : Call Inum := .perform (Op.idup ip)
def ilock (ip : Inum) : Call Unit := .perform (Op.ilock ip)
def iunlock (ip : Inum) : Call Unit := .perform (Op.iunlock ip)
def iput (ip : Inum) : Call Unit := .perform (Op.iput ip)
def ialloc (type : ℤ) : Call Inum := .perform (Op.ialloc type)
def attr (ip : Inum) : Call Attr := .perform (Op.attr ip)
def iupdate (ip : Inum) (major minor nlink : ℤ) : Call Unit :=
  .perform (Op.iupdate ip major minor nlink)
def readi (ip : Inum) (off n : ℕ) : Call (Option (List UInt8)) := .perform (Op.readi ip off n)
def writei (ip : Inum) (off : ℕ) (src : List UInt8) : Call (Option ℕ) :=
  .perform (Op.writei ip off src)
def panic {α : Type} (p : CallPanic) : Call α := .op (.panic p) Empty.elim

/-- `iunlock(ip); iput(ip);` -/
def iunlockput (ip : Inum) : Call Unit := do
  iunlock ip
  iput ip

/-- An `int` stored in a `short`. -/
def short (x : ℤ) : ℤ := x.bmod (2 ^ 16)

/-- `ip->nlink += d; iupdate(ip);` -/
def addLink (ip : Inum) (d : ℤ) : Call Unit := do
  let a ← attr ip
  iupdate ip a.major a.minor (short (a.nlink + d))

/-! ### Directories -/

/-- `readi(dp, &de, off, sizeof(de))`, with a panic when it does not fill `de`. -/
def readDirent (p : CallPanic) (dp : Inum) (off : ℕ) : Call Dirent := do
  match ← readi dp off DESIZE with
  | some b => if b.length = DESIZE then pure (Dirent.decode b) else panic p
  | none => panic p

/-- `writei(dp, &de, off, sizeof(de))`, with a panic when it does not write all of `de`. -/
def writeDirent (p : CallPanic) (dp : Inum) (off : ℕ) (de : Dirent) : Call Unit := do
  if (← writei dp off de.encode) = some DESIZE then pure () else panic p

/-- The values of `off` in `for (off = lo; off < size; off += sizeof(de))`. -/
def offsets (lo size : ℕ) : List ℕ :=
  (List.range ((size - lo + (DESIZE - 1)) / DESIZE)).map (lo + DESIZE * ·)

/-- The loop of `dirlookup` over the offsets that are left. -/
def dirlookupFrom (dp : Inum) (name : Str) : List ℕ → Call (Option (Inum × ℕ))
  | [] => pure none
  | off :: offs => do
      let de ← readDirent .dirlookupRead dp off
      if de.inum ≠ 0 ∧ namecmp name de.name = 0 then
        let ip ← iget de.inum
        pure (some (ip, off))
      else dirlookupFrom dp name offs

/-- The inode `name` names in `dp`, and the offset of its entry. -/
def dirlookup (dp : Inum) (name : Str) : Call (Option (Inum × ℕ)) := do
  let a ← attr dp
  if a.type ≠ T_DIR then panic .dirlookupNotDir
  else dirlookupFrom dp name (offsets 0 a.size)

/-- The offset of the first empty entry, or the offset after the last entry. -/
def dirlinkSlot (dp : Inum) : List ℕ → ℕ → Call ℕ
  | [], stop => pure stop
  | off :: offs, _ => do
      let de ← readDirent .dirlinkRead dp off
      if de.inum = 0 then pure off else dirlinkSlot dp offs (off + DESIZE)

/-- `0`, or `-1` when the name is taken. -/
def dirlink (dp : Inum) (name : Str) (inum : Inum) : Call ℤ := do
  match ← dirlookup dp name with
  | some (ip, _) =>
      iput ip
      pure (-1)
  | none =>
      let a ← attr dp
      let off ← dirlinkSlot dp (offsets 0 a.size) 0
      writeDirent .dirlink dp off (Dirent.make name inum)
      pure 0

/-! ### Paths -/

/-- The return of `namex` when the path has no element left. -/
def namexEnd (nameiparent : Bool) (ip : Inum) (name : Str) : Call (Option (Inum × Str)) := do
  if nameiparent then
    iput ip
    pure none
  else pure (some (ip, name))

/-- The loop of `namex`; every pass takes a byte off the path at least. -/
def namexLoop (nameiparent : Bool) : ℕ → Inum → Str → Str → Call (Option (Inum × Str))
  | 0, ip, _, name => namexEnd nameiparent ip name
  | n + 1, ip, path, name =>
      match skipelem path with
      | none => namexEnd nameiparent ip name
      | some (name, path) => do
          ilock ip
          let a ← attr ip
          if a.type ≠ T_DIR then
            iunlockput ip
            pure none
          else if nameiparent ∧ path = [] then
            -- Stop one level early.
            iunlock ip
            pure (some (ip, name))
          else
            match ← dirlookup ip name with
            | none =>
                iunlockput ip
                pure none
            | some (next, _) =>
                iunlockput ip
                namexLoop nameiparent n next path name

/-- `cwd` is the calling process's `myproc()->cwd`. -/
def namex (cwd : Inum) (path : Str) (nameiparent : Bool) : Call (Option (Inum × Str)) := do
  let ip ← if deref path = slash then iget ROOTINO else idup cwd
  namexLoop nameiparent path.length ip path []

/-- `namei`: the inode that a path names. -/
def namei (cwd : Inum) (path : Str) : Call (Option Inum) := do
  let r ← namex cwd path false
  pure (r.map Prod.fst)

/-- `nameiparent`: the directory of the last element, with its name. -/
def nameiparent (cwd : Inum) (path : Str) : Call (Option (Inum × Str)) := namex cwd path true

/-! ### System calls -/

/-- The `bad` path of `sys_link`: the count that was raised is lowered again. -/
def cleanupsyslink (ip : Inum) : Call Unit := do
  ilock ip
  addLink ip (-1)
  iunlockput ip
  end_op

/-- `sys_link`: the count is raised before the new name is entered. -/
def sys_link (cwd : Inum) (old new : Str) : Call ℤ := do
  begin_op
  match ← namei cwd old with
  | none =>
      end_op
      pure (-1)
  | some ip =>
      ilock ip
      let a ← attr ip
      if a.type = T_DIR then
        iunlockput ip
        end_op
        pure (-1)
      else
        addLink ip 1
        iunlock ip
        match ← nameiparent cwd new with
        | none =>
            cleanupsyslink ip
            pure (-1)
        | some (dp, name) =>
            ilock dp
            if (← dirlink dp name ip) < 0 then
              iunlockput dp
              cleanupsyslink ip
              pure (-1)
            else
              iunlockput dp
              iput ip
              end_op
              pure 0

/-- The loop of `isdirempty` over the offsets that are left. -/
def isdiremptyFrom (dp : Inum) : List ℕ → Call Bool
  | [] => pure true
  | off :: offs => do
      let de ← readDirent .isdiremptyReadi dp off
      if de.inum ≠ 0 then pure false else isdiremptyFrom dp offs

/-- No entry but the first two. -/
def isdirempty (dp : Inum) : Call Bool := do
  let a ← attr dp
  isdiremptyFrom dp (offsets (2 * DESIZE) a.size)

/-- `sys_unlink`: the entry is cleared, and the counts are lowered. -/
def sys_unlink (cwd : Inum) (path : Str) : Call ℤ := do
  begin_op
  match ← nameiparent cwd path with
  | none =>
      end_op
      pure (-1)
  | some (dp, name) =>
      ilock dp
      -- Cannot unlink "." or "..".
      if namecmp name dot = 0 ∨ namecmp name dotdot = 0 then
        iunlockput dp
        end_op
        pure (-1)
      else
        match ← dirlookup dp name with
        | none =>
            iunlockput dp
            end_op
            pure (-1)
        | some (ip, off) =>
            ilock ip
            let a ← attr ip
            if a.nlink < 1 then panic .unlinkNlink
            else
              let empty ← if a.type = T_DIR then isdirempty ip else pure true
              if ¬ empty then
                iunlockput ip
                iunlockput dp
                end_op
                pure (-1)
              else
                writeDirent .unlinkWritei dp off Dirent.zero
                if a.type = T_DIR then addLink dp (-1)
                iunlockput dp
                addLink ip (-1)
                iunlockput ip
                end_op
                pure 0

/-- The entries `"."` and `".."` of a new directory. -/
def createDots (dp ip : Inum) : Call Unit := do
  addLink dp 1
  if (← dirlink ip dot ip) < 0 then panic .createDots
  else if (← dirlink ip dotdot dp) < 0 then panic .createDots
  else pure ()

/-- `ialloc` returns or panics, so its result needs no check here. -/
def create (cwd : Inum) (path : Str) (type major minor : ℤ) : Call (Option Inum) := do
  match ← nameiparent cwd path with
  | none => pure none
  | some (dp, name) =>
      ilock dp
      match ← dirlookup dp name with
      | some (ip, _) =>
          iunlockput dp
          ilock ip
          let a ← attr ip
          if type = T_FILE ∧ a.type = T_FILE then pure (some ip)
          else
            iunlockput ip
            pure none
      | none =>
          let ip ← ialloc type
          ilock ip
          iupdate ip major minor 1
          if type = T_DIR then createDots dp ip
          if (← dirlink dp name ip) < 0 then panic .createDirlink
          else
            iunlockput dp
            pure (some ip)

end Xv6.Fs
