import Xv6.Fs.Icache

/-!
# File system — blocks, bitmap and inodes

The lower half of `fs.c` on the disk it works on: `balloc` and `bfree` on the bitmap, `bmap`,
`itrunc`, `readi` and `writei` on an inode and its blocks, and the operations on inodes with the
cache over them.

The disk is seen through the layout of the superblock: bits of the free map, inodes of the inode
blocks, and data blocks.  A block number found in an inode is read as a data block.
-/

namespace Xv6.Fs

/-- The superblock; `datastart` is the first block after the free map. -/
structure Superblock where
  size : ℕ
  ninodes : ℕ
  datastart : ℕ
  size_lt : size < 2 ^ 32
  datastart_pos : 0 < datastart

/-- `struct dinode`, and the fields of `struct inode` copied from it. -/
structure Dinode where
  type : ℤ
  major : ℤ
  minor : ℤ
  nlink : ℤ
  size : ℕ
  addrs : Fin (NDIRECT + 1) → ℕ

namespace Dinode

/-- `memset(dip, 0, sizeof(*dip)); dip->type = type;` -/
def blank (type : ℤ) : Dinode := ⟨type, 0, 0, 0, 0, fun _ => 0⟩

/-- An address of the inode changes. -/
def setAddr (di : Dinode) (k : Fin (NDIRECT + 1)) (a : ℕ) : Dinode :=
  { di with addrs := Function.update di.addrs k a }

/-- What `stati` copies. -/
def attr (di : Dinode) : Attr := ⟨di.type, di.major, di.minor, di.nlink, di.size⟩

end Dinode

/-- The disk: the bitmap, the inodes and the blocks. -/
structure Image where
  bit : ℕ → Bool
  dinode : Inum → Dinode
  data : ℕ → Block

variable (sb : Superblock)

/-! ### Blocks -/

/-- `bzero`. -/
def bzero (d : Image) (b : ℕ) : Image := { d with data := Function.update d.data b fun _ => 0 }

/-- Bit by bit and bitmap block by bitmap block, the first clear bit below `sb.size`. -/
def balloc (d : Image) : Except Stop (ℕ × Image) :=
  match (List.range sb.size).find? (fun b => !d.bit b) with
  | some b => .ok (b, bzero { d with bit := Function.update d.bit b true } b)
  | none => .error .ballocOutOfBlocks

/-- `bfree`: a block that is free already is a panic. -/
def bfree (d : Image) (b : ℕ) : Except Stop Image :=
  if d.bit b then .ok { d with bit := Function.update d.bit b false }
  else .error .freeingFreeBlock

/-! ### Inode content -/

/-- The `j`th address in an indirect block. -/
def indirect (blk : Block) (j : ℕ) : ℕ := blk.get32 (4 * j)

/-- `if ((addr = ip->addrs[k]) == 0) ip->addrs[k] = addr = balloc(dev);` -/
def addrOrAlloc (d : Image) (ip : Dinode) (k : Fin (NDIRECT + 1)) :
    Except Stop (ℕ × Image × Dinode) :=
  if ip.addrs k = 0 then do
    let (addr, d) ← balloc sb d
    pure (addr, d, ip.setAddr k addr)
  else pure (ip.addrs k, d, ip)

/-- `if ((addr = a[j]) == 0) { a[j] = addr = balloc(dev); log_write(bp); }` in block `ind`. -/
def entryOrAlloc (d : Image) (ind j : ℕ) : Except Stop (ℕ × Image) :=
  if indirect (d.data ind) j = 0 then do
    let (addr, d) ← balloc sb d
    pure (addr, { d with data := Function.update d.data ind ((d.data ind).put32 (4 * j) addr) })
  else pure (indirect (d.data ind) j, d)

/-- The address of block `bn` of the inode `ip`, which may have to be allocated. -/
def bmap (d : Image) (ip : Dinode) (bn : ℕ) : Except Stop (ℕ × Image × Dinode) :=
  if h : bn < NDIRECT then addrOrAlloc sb d ip (Fin.castSucc ⟨bn, h⟩)
  else if bn - NDIRECT < NINDIRECT then do
    -- Load indirect block, allocating if necessary.
    let (ind, d, ip) ← addrOrAlloc sb d ip (Fin.last NDIRECT)
    let (addr, d) ← entryOrAlloc sb d ind (bn - NDIRECT)
    pure (addr, d, ip)
  else .error .bmapOutOfRange

/-- `if (a) bfree(dev, a);` over a list of addresses. -/
def bfreeAll : List ℕ → Image → Except Stop Image
  | [], d => .ok d
  | a :: as, d => if a = 0 then bfreeAll as d else bfree d a >>= bfreeAll as

/-- The blocks listed in the indirect block, and the indirect block itself.  Freeing a block
leaves its bytes alone, so the list stays what it was. -/
def itruncIndirect (d : Image) (ip : Dinode) : Except Stop Image :=
  let ind := ip.addrs (Fin.last NDIRECT)
  if ind = 0 then .ok d
  else bfreeAll ((List.finRange NINDIRECT).map (fun j : Fin NINDIRECT => indirect (d.data ind) j) ++
    [ind]) d

/-- `itrunc` up to its `iupdate`. -/
def itrunc (d : Image) (ip : Dinode) : Except Stop (Image × Dinode) := do
  let d ← bfreeAll ((List.finRange NDIRECT).map fun i => ip.addrs i.castSucc) d
  let d ← itruncIndirect d ip
  pure (d, { ip with addrs := fun _ => 0, size := 0 })

/-- The character devices: `devsw[major].read` and `devsw[major].write`, where there is one. -/
structure Devsw where
  read : ℤ → Option (ℕ → Option (List UInt8))
  write : ℤ → Option (List UInt8 → Option ℕ)

variable (devsw : Devsw)

/-- `major < 0 || major >= NDEV || !devsw[major].f`, else the function. -/
def Devsw.find {α : Type} (f : ℤ → Option α) (major : ℤ) : Option α :=
  if major < 0 ∨ NDEV ≤ major then none else f major

/-- The loop of `readi`; every pass copies a byte at least. -/
def readiLoop : ℕ → Image → Dinode → ℕ → ℕ → Except Stop (List UInt8 × Image × Dinode)
  | 0, d, ip, _, _ => .ok ([], d, ip)
  | fuel + 1, d, ip, off, n =>
      if n = 0 then .ok ([], d, ip)
      else do
        let (addr, d, ip) ← bmap sb d ip (off / BSIZE)
        let m := min n (BSIZE - off % BSIZE)
        let dst := (d.data addr).getList (off % BSIZE) m
        let (rest, d, ip) ← readiLoop fuel d ip (off + m) (n - m)
        pure (dst ++ rest, d, ip)

/-- `readi`, on a device or on a file.  `bmap` may allocate what it reads. -/
def readiFile (d : Image) (ip : Dinode) (off n : ℕ) :
    Except Stop (Option (List UInt8) × Image × Dinode) :=
  if ip.type = T_DEV then
    match Devsw.find devsw.read ip.major with
    | none => .ok (none, d, ip)
    | some read => .ok (read n, d, ip)
  else if ip.size < off ∨ wraps off n then .ok (none, d, ip)
  else do
    let n := if ip.size < off + n then ip.size - off else n
    let (dst, d, ip) ← readiLoop sb n d ip off n
    pure (some dst, d, ip)

/-- The loop of `writei`; every pass copies a byte at least. -/
def writeiLoop : ℕ → Image → Dinode → ℕ → List UInt8 → Except Stop (Image × Dinode)
  | 0, d, ip, _, _ => .ok (d, ip)
  | fuel + 1, d, ip, off, src =>
      if src.length = 0 then .ok (d, ip)
      else do
        let (addr, d, ip) ← bmap sb d ip (off / BSIZE)
        let m := min src.length (BSIZE - off % BSIZE)
        let blk := (d.data addr).putList (off % BSIZE) (src.take m)
        writeiLoop fuel { d with data := Function.update d.data addr blk } ip (off + m) (src.drop m)

/-- `writei`; the last component says whether it ends with `iupdate`. -/
def writeiFile (d : Image) (ip : Dinode) (off : ℕ) (src : List UInt8) :
    Except Stop (Option ℕ × Image × Dinode × Bool) :=
  if ip.type = T_DEV then
    match Devsw.find devsw.write ip.major with
    | none => .ok (none, d, ip, false)
    | some write => .ok (write src, d, ip, false)
  else if ip.size < off ∨ wraps off src.length then .ok (none, d, ip, false)
  else if MAXFILE * BSIZE < off + src.length then .ok (none, d, ip, false)
  else do
    let (d, ip) ← writeiLoop sb src.length d ip off src
    if 0 < src.length ∧ ip.size < off + src.length then
      pure (some src.length, d, { ip with size := off + src.length }, true)
    else pure (some src.length, d, ip, false)

/-! ### Inodes -/

/-- The disk, the inode cache with its copies of inodes, and `log.outstanding`. -/
structure State extends Icache where
  img : Image
  copy : Inum → Dinode
  outstanding : ℕ

namespace State

variable (s : State) (ip : Inum)

/-- The copy of an inode in memory changes. -/
def setCopy (di : Dinode) : State := { s with copy := Function.update s.copy ip di }

/-- `iupdate`: the copy goes to the disk. -/
def iupdate : State :=
  { s with img := { s.img with dinode := Function.update s.img.dinode ip (s.copy ip) } }

/-- A step of the cache, with a result. -/
def cached {α : Type} (r : α) (x : Except Stop Icache) : Except Stop (α × State) := do
  let c ← x
  pure (r, { s with toIcache := c })

/-- An entry that is not valid is read from the disk. -/
def ilock : Except Stop (Unit × State) := do
  let c ← s.toIcache.ilock ip (s.img.dinode ip).type
  let s := if s.valid ip then s else s.setCopy ip (s.img.dinode ip)
  pure ((), { s with toIcache := c })

/-- `itrunc(ip)`, with the `iupdate` it ends with. -/
def itrunc : Except Stop State := do
  let (img, di) ← Fs.itrunc s.img (s.copy ip)
  pure (({ s with img := img }.setCopy ip di).iupdate ip)

/-- `itrunc(ip); ip->type = 0; iupdate(ip);` where the inode is to be freed. -/
def release : Except Stop State := do
  if s.frees ip (s.copy ip).nlink then
    let s ← s.itrunc ip
    pure ((s.setCopy ip { s.copy ip with type := 0 }).iupdate ip)
  else pure s

/-- `iput`: the last reference of an inode without links frees its blocks. -/
def iput : Except Stop (Unit × State) := do
  let c ← s.toIcache.iput ip (s.copy ip).nlink
  let s ← s.release ip
  pure ((), { s with toIcache := c })

/-- `ialloc`: the first inode whose type is 0 on the disk. -/
def ialloc (type : ℤ) : Except Stop (Inum × State) :=
  match (List.range' 1 (sb.ninodes - 1)).find? (fun i => (s.img.dinode i).type = 0) with
  | none => .error .iallocNoInodes
  | some inum =>
      { s with
        img := { s.img with dinode := Function.update s.img.dinode inum (.blank type) } }.cached
          inum (s.toIcache.iget sb.ninodes inum)

/-- The fields that a call changes, with `iupdate`. -/
def update (major minor nlink : ℤ) : State :=
  (s.setCopy ip { s.copy ip with major := major, minor := minor, nlink := nlink }).iupdate ip

/-- `readi`, of an inode that is locked. -/
def readi (off n : ℕ) : Except Stop (Option (List UInt8) × State) := do
  let (r, img, di) ← readiFile sb devsw s.img (s.copy ip) off n
  pure (r, { s with img := img }.setCopy ip di)

/-- `writei`, with its `iupdate` where the size has changed. -/
def writei (off : ℕ) (src : List UInt8) : Except Stop (Option ℕ × State) := do
  let (r, img, di, up) ← writeiFile sb devsw s.img (s.copy ip) off src
  let s := { s with img := img }.setCopy ip di
  pure (r, if up then s.iupdate ip else s)

end State

/-- The operations of the calls on the disk and the cache. -/
def diskOps : Lib.Handler Op Op.Res Stop State
  | .begin_op, s => .ok ((), { s with outstanding := s.outstanding + 1 })
  | .end_op, s => .ok ((), { s with outstanding := s.outstanding - 1 })
  | .iget inum, s => s.cached inum (s.toIcache.iget sb.ninodes inum)
  | .idup ip, s => s.cached ip (s.toIcache.idup ip)
  | .ilock ip, s => s.ilock ip
  | .iunlock ip, s => s.cached () (s.toIcache.iunlock ip)
  | .iput ip, s => s.iput ip
  | .ialloc type, s => s.ialloc sb type
  | .attr ip, s => s.whenLocked ip (.ok ((s.copy ip).attr, s))
  | .iupdate ip major minor nlink, s => s.whenLocked ip (.ok ((), s.update ip major minor nlink))
  | .readi ip off n, s => s.whenLocked ip (s.readi sb devsw ip off n)
  | .writei ip off src, s => s.whenLocked ip (s.writei sb devsw ip off src)
  | .panic p, _ => .error (.call p)

end Xv6.Fs
