import Xv6.Fs.Sectors

/-!
# mkfs — the program

`mkfs.c`: the image file is a sequence of sectors, `winode` and `rinode` store inodes in it,
`ialloc` and `iappend` hand out inodes and blocks by counting, and `main` writes the root directory
and a file for every name on the command line, sets the size of the root directory, and ends with
the bitmap.

A host file is the name it is given by, and its bytes where it can be opened.  `freeinode` and
`freeblock` do not wrap around: there are fewer names on a command line, and fewer sectors.
-/

namespace Xv6.Mkfs

export Fs (cstr strncpy cstr_strncpy)
open Fs

/-! ### The layout -/

/-- The constants of `mkfs.c`. -/
def NINODES : ℕ := 200
def nbitmap : ℕ := FSSIZE / (BSIZE * 8) + 1
def ninodeblocks : ℕ := NINODES / IPB + 1
def nlog : ℕ := LOGSIZE
def nmeta : ℕ := 2 + nlog + ninodeblocks + nbitmap
def nblocks : ℕ := FSSIZE - nmeta

/-- The superblock that is written. -/
def sb : Super where
  size := FSSIZE
  nblocks := nblocks
  ninodes := NINODES
  nlog := nlog
  logstart := 2
  inodestart := 2 + nlog
  bmapstart := 2 + nlog + ninodeblocks

/-- What ends `mkfs` other than `exit(0)`: an `assert`, or a host call that fails. -/
inductive Exit where
  | assertRootino
  | assertName
  | assertFbn
  | assertUsed
  | open
  | read
  deriving DecidableEq, Repr

/-! ### Sectors -/

/-- The image file, with its length in sectors, and the counters. -/
structure Mk where
  sect : ℕ → Block
  nsect : ℕ
  freeinode : ℕ
  freeblock : ℕ

/-- The sector that `lseek(fsfd, sec * BSIZE, 0)` goes to; the product is a `uint`. -/
def seek (sec : ℕ) : ℕ := sec * BSIZE % 2 ^ 32 / BSIZE

namespace Mk

variable (s : Mk)

/-- `wsect`: a sector of the image is written. -/
def wsect (sec : ℕ) (buf : Block) : Mk :=
  { s with sect := Function.update s.sect (seek sec) buf, nsect := max s.nsect (seek sec + 1) }

/-- `rsect`.  A sector behind the end of the file cannot be read. -/
def rsect (sec : ℕ) : Except Exit Block :=
  if seek sec < s.nsect then .ok (s.sect (seek sec)) else .error .read

/-! ### Inodes -/

/-- `winode`: the inode is written into its block. -/
def winode (inum : ℕ) (ip : Dinode) : Except Exit Mk := do
  let buf ← s.rsect (IBLOCK inum sb)
  pure (s.wsect (IBLOCK inum sb) (putDinode buf inum ip))

/-- `rinode`. -/
def rinode (inum : ℕ) : Except Exit Dinode := do
  let buf ← s.rsect (IBLOCK inum sb)
  pure (getDinode buf inum)

/-- `ialloc`: the next inode. -/
def ialloc (type : ℤ) : Except Exit (ℕ × Mk) := do
  let inum := s.freeinode
  let s ← winode { s with freeinode := inum + 1 } inum { Dinode.blank type with nlink := 1 }
  pure (inum, s)

/-- `if (xint(din.addrs[k]) == 0) din.addrs[k] = xint(freeblock++);` -/
def addrOrFree (din : Dinode) (k : Fin (NDIRECT + 1)) : Mk × Dinode :=
  if din.addrs k = 0 then ({ s with freeblock := s.freeblock + 1 }, din.setAddr k s.freeblock)
  else (s, din)

/-- The entry `j` of the indirect block `ind`, which may have to be set. -/
def entryOrFree (ind j : ℕ) : Except Exit (ℕ × Mk) := do
  let buf ← s.rsect ind
  if indirect buf j = 0 then
    pure (s.freeblock,
      { s with freeblock := s.freeblock + 1 }.wsect ind (buf.put32 (4 * j) s.freeblock))
  else pure (indirect buf j, s)

/-- The sector for block `fbn` of the file. -/
def blockFor (din : Dinode) (fbn : ℕ) : Except Exit (ℕ × Mk × Dinode) :=
  if h : fbn < NDIRECT then
    let (s, din) := s.addrOrFree din (Fin.castSucc ⟨fbn, h⟩)
    .ok (din.addrs (Fin.castSucc ⟨fbn, h⟩), s, din)
  else do
    let (s, din) := s.addrOrFree din (Fin.last NDIRECT)
    let (x, s) ← s.entryOrFree (din.addrs (Fin.last NDIRECT)) (fbn - NDIRECT)
    pure (x, s, din)

end Mk

/-- The loop of `iappend`; every pass copies a byte at least. -/
def iappendLoop : ℕ → Mk → Dinode → ℕ → List UInt8 → Except Exit (Mk × Dinode × ℕ)
  | 0, s, din, off, _ => .ok (s, din, off)
  | fuel + 1, s, din, off, p =>
      if p.length = 0 then .ok (s, din, off)
      else do
        let fbn := off / BSIZE
        if MAXFILE ≤ fbn then .error .assertFbn
        else
          let (x, s, din) ← s.blockFor din fbn
          let n1 := min p.length ((fbn + 1) * BSIZE - off)
          let buf ← s.rsect x
          let s := s.wsect x (buf.putList (off - fbn * BSIZE) (p.take n1))
          iappendLoop fuel s din (off + n1) (p.drop n1)

namespace Mk

variable (s : Mk)

/-- `iappend`: bytes are added at the end of a file. -/
def iappend (inum : ℕ) (p : List UInt8) : Except Exit Mk := do
  let din ← s.rinode inum
  let (s, din, off) ← iappendLoop p.length s din din.size p
  s.winode inum { din with size := off }

/-! ### The bitmap -/

/-- The loop of `balloc`. -/
def bitmap (used : ℕ) : Block :=
  (List.range used).foldl (fun buf i =>
    buf.put8 (i / 8) (UInt8.ofNat ((buf.get8 (i / 8)).toNat ||| 2 ^ (i % 8)))) fun _ => 0

/-- `balloc`: the first `used` bits of the one block of the bitmap. -/
def balloc (used : ℕ) : Except Exit Mk :=
  if used < BSIZE * 8 then .ok (s.wsect sb.bmapstart (bitmap used)) else .error .assertUsed

end Mk

/-! ### `main` -/

/-- A file of the host, with its contents if it can be opened. -/
structure HostFile where
  name : Path
  contents : Option (List UInt8)

/-- Skip leading `_` in name when writing to file system. -/
def strip : Str → Str
  | [] => []
  | c :: cs => if c = 95 then cs else c :: cs

/-- `while ((cc = read(fd, buf, sizeof(buf))) > 0) iappend(inum, buf, cc);` on what is left of the
file; every `read` takes a byte at least. -/
def copyLoop (inum : ℕ) : ℕ → Mk → List UInt8 → Except Exit Mk
  | 0, s, _ => .ok s
  | fuel + 1, s, rest =>
      if rest.length = 0 then .ok s
      else do
        let s ← s.iappend inum (rest.take BSIZE)
        copyLoop inum fuel s (rest.drop BSIZE)

/-- One pass of the loop over the command line. -/
def addFile (s : Mk) (f : HostFile) : Except Exit Mk :=
  if slash ∈ f.name.1 then .error .assertName
  else match f.contents with
    | none => .error .open
    | some contents => do
        let (inum, s) ← s.ialloc T_FILE
        let s ← s.iappend ROOTINO (Dirent.make (strip f.name) inum).encode
        copyLoop inum contents.length s contents

/-- `for (i = 0; i < FSSIZE; i++) wsect(i, zeroes);` and the superblock. -/
def blank : Mk :=
  let s : Mk := ⟨fun _ _ => 0, 0, 1, nmeta⟩
  let s := (List.range FSSIZE).foldl (fun s i => s.wsect i fun _ => 0) s
  s.wsect 1 (Lib.Bytes.putList (fun _ => 0) 0 sb.encode)

/-- The root directory with `"."` and `".."`. -/
def makeRoot : Except Exit Mk := do
  let (rootino, s) ← blank.ialloc T_DIR
  if rootino ≠ ROOTINO then .error .assertRootino
  else
    let s ← s.iappend rootino (Dirent.make dot rootino).encode
    s.iappend rootino (Dirent.make dotdot rootino).encode

/-- Fix size of root inode dir. -/
def fixRoot (s : Mk) : Except Exit Mk := do
  let din ← s.rinode ROOTINO
  let off := (din.size / BSIZE + 1) * BSIZE
  s.winode ROOTINO { din with size := off }

/-- `main` before its `balloc(freeblock)`. -/
def build (files : List HostFile) : Except Exit Mk := do
  let s ← makeRoot
  let s ← files.foldlM addFile s
  fixRoot s

/-- `main`, on the files of its command line. -/
def main (files : List HostFile) : Except Exit Mk := do
  let s ← build files
  s.balloc s.freeblock

end Xv6.Mkfs
