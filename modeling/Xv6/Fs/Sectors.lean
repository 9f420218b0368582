import Xv6.Fs.Disk
import Xv6.Lib.LittleEndian

/-!
# File system — the sectors of the disk

`struct superblock` and `struct dinode` as they are stored, the macros `IBLOCK` and `BBLOCK`, and
the image that the kernel sees in the sectors of a disk.

* `Dinode.decode_encode` — an inode whose fields fit is read back as it was written.
* `dinode_putDinode` — writing an inode into its block changes that inode only.
-/

namespace Xv6.Fs

open Lib (toLE ofLE)

/-! ### The superblock -/

/-- `struct superblock`. -/
structure Super where
  size : ℕ
  nblocks : ℕ
  ninodes : ℕ
  nlog : ℕ
  logstart : ℕ
  inodestart : ℕ
  bmapstart : ℕ
  deriving DecidableEq, Repr

namespace Super

/-- The words of the superblock, in order. -/
def fields (sb : Super) : List ℕ :=
  [sb.size, sb.nblocks, sb.ninodes, sb.nlog, sb.logstart, sb.inodestart, sb.bmapstart]

/-- The bytes of the superblock. -/
def encode (sb : Super) : List UInt8 := sb.fields.flatMap (toLE 4)

/-- The superblock that a block holds. -/
def decode (b : List UInt8) : Super :=
  let word (k : ℕ) : ℕ := ofLE ((b.drop (4 * k)).take 4)
  ⟨word 0, word 1, word 2, word 3, word 4, word 5, word 6⟩

theorem length_encode (sb : Super) : sb.encode.length = 28 := by
  simp [encode, fields]

theorem decode_encode {sb : Super} (h : ∀ v ∈ sb.fields, v < 2 ^ 32) : decode sb.encode = sb := by
  have hword : ∀ k (hk : k < sb.fields.length),
      ofLE ((sb.encode.drop (4 * k)).take 4) = sb.fields[k] := by
    intro k hk
    rw [encode, Lib.take_drop_flatMap_toLE 4 _ hk]
    exact Lib.ofLE_toLE (h _ (List.getElem_mem hk))
  simp only [decode, hword 0 (by simp [fields]), hword 1 (by simp [fields]),
    hword 2 (by simp [fields]), hword 3 (by simp [fields]), hword 4 (by simp [fields]),
    hword 5 (by simp [fields]), hword 6 (by simp [fields])]
  rfl

end Super

/-- `sizeof(struct dinode)`. -/
def DISIZE : ℕ := 4 * 2 + 4 + 4 * (NDIRECT + 1)

/-- Inodes and bits in a block. -/
def IPB : ℕ := BSIZE / DISIZE
def BPB : ℕ := BSIZE * 8

/-- The block of an inode, and of a bit. -/
def IBLOCK (i : ℕ) (sb : Super) : ℕ := i / IPB + sb.inodestart
def BBLOCK (b : ℕ) (sb : Super) : ℕ := b / BPB + sb.bmapstart

/-! ### Inodes -/

/-- A `short` as two bytes, and back. -/
def ofShort (x : ℤ) : ℕ := (x % 2 ^ 16).toNat

/-- The `short` that 16 bits hold. -/
def toShort (n : ℕ) : ℤ := if n < 2 ^ 15 then n else n - 2 ^ 16

theorem toShort_ofShort {x : ℤ} (h : -2 ^ 15 ≤ x ∧ x < 2 ^ 15) : toShort (ofShort x) = x := by
  unfold toShort ofShort
  split <;> omega

namespace Dinode

/-- The words of an inode: its size and its addresses. -/
def words (di : Dinode) : List ℕ := di.size :: List.ofFn di.addrs

/-- The 64 bytes of an inode. -/
def encode (di : Dinode) : List UInt8 :=
  [di.type, di.major, di.minor, di.nlink].flatMap (fun x => toLE 2 (ofShort x)) ++
    di.words.flatMap (toLE 4)

/-- The inode that 64 bytes hold. -/
def decode (b : List UInt8) : Dinode where
  type := toShort (ofLE (b.take 2))
  major := toShort (ofLE ((b.drop 2).take 2))
  minor := toShort (ofLE ((b.drop 4).take 2))
  nlink := toShort (ofLE ((b.drop 6).take 2))
  size := ofLE ((b.drop 8).take 4)
  addrs := fun k => ofLE ((b.drop (8 + 4 * (k + 1))).take 4)

/-- The fields are in the range of their types. -/
structure Fits (di : Dinode) : Prop where
  shorts : ∀ x ∈ [di.type, di.major, di.minor, di.nlink], -2 ^ 15 ≤ x ∧ x < 2 ^ 15
  words : ∀ v ∈ di.words, v < 2 ^ 32

theorem length_encode (di : Dinode) : di.encode.length = DISIZE := by
  have hwords : di.words.length = NDIRECT + 2 := by
    rw [words, List.length_cons, List.length_ofFn]
  have hflat : (di.words.flatMap (toLE 4)).length = 4 * (NDIRECT + 2) := by
    simp [List.length_flatMap, List.map_const', hwords, Nat.mul_comm]
  rw [encode, List.length_append, hflat]
  simp [DISIZE, NDIRECT]

/-- An inode can be read back from its sector. -/
theorem decode_encode {di : Dinode} (h : di.Fits) : decode di.encode = di := by
  have hshort : ∀ x ∈ [di.type, di.major, di.minor, di.nlink],
      toShort (ofLE (toLE 2 (ofShort x))) = x := by
    intro x hx
    rw [Lib.ofLE_toLE (by unfold ofShort; omega), toShort_ofShort (h.shorts x hx)]
  have hword : ∀ k (hk : k < di.words.length),
      ofLE ((di.encode.drop (8 + 4 * k)).take 4) = di.words[k] := by
    intro k hk
    rw [encode, ← List.drop_drop, List.drop_left' (by simp),
      Lib.take_drop_flatMap_toLE 4 _ hk]
    exact Lib.ofLE_toLE (h.words _ (List.getElem_mem hk))
  have htype : di.encode.take 2 = toLE 2 (ofShort di.type) := rfl
  have hmajor : (di.encode.drop 2).take 2 = toLE 2 (ofShort di.major) := rfl
  have hminor : (di.encode.drop 4).take 2 = toLE 2 (ofShort di.minor) := rfl
  have hnlink : (di.encode.drop 6).take 2 = toLE 2 (ofShort di.nlink) := rfl
  have haddrs : ∀ k : Fin (NDIRECT + 1),
      ofLE ((di.encode.drop (8 + 4 * (k + 1))).take 4) = di.addrs k := by
    intro k
    have hlt : (k : ℕ) + 1 < di.words.length := by
      rw [words, List.length_cons, List.length_ofFn]
      exact Nat.succ_lt_succ k.isLt
    rw [hword (k + 1) hlt]
    simp [words, -List.ofFn_succ]
  simp only [decode, htype, hmajor, hminor, hnlink, haddrs, hshort di.type (by simp),
    hshort di.major (by simp), hshort di.minor (by simp), hshort di.nlink (by simp),
    hword 0 (by simp [words])]
  rfl

end Dinode

/-! ### The image in the sectors -/

/-- `*((struct dinode*)bp->data + i % IPB)`. -/
def getDinode (blk : Block) (i : Inum) : Dinode := .decode (blk.getList (DISIZE * (i % IPB)) DISIZE)

/-- An inode in its block. -/
def putDinode (blk : Block) (i : Inum) (di : Dinode) : Block :=
  blk.putList (DISIZE * (i % IPB)) di.encode

/-- `bp->data[bi/8] & (1 << (bi % 8))`. -/
def getBit (blk : Block) (bi : ℕ) : Bool := (blk.get8 (bi / 8)).toNat.testBit (bi % 8)

/-- What `readsb` reads. -/
def readsb (sect : ℕ → Block) : Super := .decode ((sect 1).getList 0 28)

/-- The image that is stored in the sectors of a disk. -/
def image (sb : Super) (sect : ℕ → Block) : Image where
  bit := fun b => getBit (sect (BBLOCK b sb)) (b % BPB)
  dinode := fun i => getDinode (sect (IBLOCK i sb)) i
  data := sect

variable {blk : Block} {i j : Inum} {di : Dinode} {sb : Super} {sect : ℕ → Block}

theorem inode_in_block (i : Inum) : DISIZE * (i % IPB) + DISIZE ≤ BSIZE := by
  have hmod : i % IPB < BSIZE / DISIZE := Nat.mod_lt _ (by decide)
  calc DISIZE * (i % IPB) + DISIZE = DISIZE * (i % IPB + 1) := (Nat.mul_succ ..).symm
    _ ≤ DISIZE * (BSIZE / DISIZE) := Nat.mul_le_mul_left _ hmod
    _ ≤ BSIZE := Nat.mul_div_le ..

theorem getDinode_putDinode (h : di.Fits) : getDinode (putDinode blk i di) i = di := by
  have hbound := inode_in_block i
  rw [← di.length_encode] at hbound
  rw [getDinode, putDinode, ← di.length_encode, Lib.Bytes.getList_putList _ hbound,
    Dinode.decode_encode h]

theorem getDinode_putDinode_of_ne (h : i % IPB ≠ j % IPB) :
    getDinode (putDinode blk i di) j = getDinode blk j := by
  have hapart : DISIZE * (j % IPB) + DISIZE ≤ DISIZE * (i % IPB) ∨
      DISIZE * (i % IPB) + di.encode.length ≤ DISIZE * (j % IPB) := by
    rw [di.length_encode, ← Nat.mul_succ, ← Nat.mul_succ]
    exact (Nat.lt_or_gt_of_ne h).symm.imp (Nat.mul_le_mul_left _) (Nat.mul_le_mul_left _)
  rw [getDinode, putDinode, Lib.Bytes.getList_putList_of_disjoint _ hapart, getDinode]

/-- Writing an inode into its block changes that inode only. -/
theorem dinode_putDinode (h : di.Fits) :
    (image sb (Function.update sect (IBLOCK i sb) (putDinode (sect (IBLOCK i sb)) i di))).dinode =
      Function.update (image sb sect).dinode i di := by
  funext j
  by_cases hij : j = i
  · subst hij
    simp [image, getDinode_putDinode h]
  · by_cases hblock : IBLOCK j sb = IBLOCK i sb
    · have hmod : i % IPB ≠ j % IPB := by
        simp only [IBLOCK, Nat.add_right_cancel_iff] at hblock
        intro e
        exact hij (by rw [← Nat.div_add_mod j IPB, ← Nat.div_add_mod i IPB, hblock, e])
      simp [image, hblock, getDinode_putDinode_of_ne hmod, hij]
    · simp [image, hblock, hij]

end Xv6.Fs
