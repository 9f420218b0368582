import Xv6.Mkfs.Room
import Mathlib.Data.Fintype.Card
import Mathlib.Order.Interval.Finset.Nat

/-!
# mkfs — the image

What `main` leaves in the image file, as the kernel sees it.

* `bitmap_spec`, `main_image` — the bitmap, and the inodes after the root directory has been given
  its size.
* `images_without_holes` — no inode has a hole exactly when the entries of the root directory do not
  fill its last block and all inodes are in the inode blocks.
-/

namespace Xv6.Mkfs

open Fs

/-- The layout, as the kernel knows it from the superblock. -/
def kernelSb : Superblock := ⟨sb.size, sb.ninodes, nmeta, by decide, slots.datastart_pos⟩

variable {s s' : Mk} {files : List HostFile}

/-! ### The bitmap -/

/-- Setting one bit of the bitmap. -/
theorem getBit_put8 (blk : Block) {i b : ℕ} (hi : i < BPB) :
    getBit (blk.put8 (i / 8) (UInt8.ofNat ((blk.get8 (i / 8)).toNat ||| 2 ^ (i % 8)))) b =
      (getBit blk b || decide (b = i)) := by
  have hbyte : i / 8 < BSIZE := by
    simp only [BPB] at hi
    omega
  have hor : (blk.get8 (i / 8)).toNat ||| 2 ^ (i % 8) < 2 ^ 8 :=
    Nat.or_lt_two_pow (UInt8.toNat_lt _) (Nat.pow_lt_pow_right (by decide) (Nat.mod_lt _ (by decide)))
  simp only [getBit]
  by_cases hb : b / 8 = i / 8
  · rw [hb, Lib.Bytes.get8_put8_self _ _ hbyte, UInt8.toNat_ofNat', Nat.mod_eq_of_lt hor,
      Nat.testBit_or, Nat.testBit_two_pow]
    have : i % 8 = b % 8 ↔ b = i := by omega
    simp [this]
  · rw [Lib.Bytes.get8_put8_of_ne _ _ hb]
    have : b ≠ i := fun e => hb (by rw [e])
    simp [this]

/-- The bitmap marks the blocks that are used. -/
theorem bitmap_spec {used : ℕ} (hu : used ≤ BPB) (b : ℕ) :
    getBit (Mk.bitmap used) b = decide (b < used) := by
  induction used with
  | zero => simp [Mk.bitmap, getBit, Lib.Bytes.get8]
  | succ used ih =>
      have hstep : Mk.bitmap (used + 1) = (Mk.bitmap used).put8 (used / 8)
          (UInt8.ofNat (((Mk.bitmap used).get8 (used / 8)).toNat ||| 2 ^ (used % 8))) := by
        simp only [Mk.bitmap, List.range_succ, List.foldl_append, List.foldl_cons, List.foldl_nil]
      rw [hstep, getBit_put8 _ (by omega), ih (by omega)]
      have : b < used + 1 ↔ b < used ∨ b = used := by omega
      simp [this]

theorem bitmap_byte {used j k : ℕ} (hu : used ≤ BPB) (hk : k < 8) :
    ((Mk.bitmap used).get8 j).toNat.testBit k = decide (8 * j + k < used) := by
  have h := bitmap_spec hu (8 * j + k)
  rwa [getBit, show (8 * j + k) / 8 = j by omega, show (8 * j + k) % 8 = k by omega] at h

/-- A byte of the bitmap below those that are used. -/
theorem bitmap_byte_full {used j : ℕ} (hu : used ≤ BPB) (h : 8 * j + 8 ≤ used) :
    ((Mk.bitmap used).get8 j).toNat = 255 := by
  refine Nat.eq_of_testBit_eq fun k => ?_
  by_cases hk : k < 8
  · rw [bitmap_byte hu hk, show 255 = 2 ^ 8 - 1 from rfl, Nat.testBit_two_pow_sub_one]
    simp only [hk, decide_true, decide_eq_true_eq]
    omega
  · have hlt : ((Mk.bitmap used).get8 j).toNat < 2 ^ k :=
      (UInt8.toNat_lt _).trans_le (Nat.pow_le_pow_right (by decide) (Nat.le_of_not_lt hk))
    rw [Nat.testBit_lt_two_pow hlt, show 255 = 2 ^ 8 - 1 from rfl, Nat.testBit_two_pow_sub_one]
    simp [hk]

/-- A byte above them. -/
theorem bitmap_byte_empty {used j : ℕ} (hu : used ≤ BPB) (h : used ≤ 8 * j) :
    ((Mk.bitmap used).get8 j).toNat = 0 := by
  refine Nat.eq_of_testBit_eq fun k => ?_
  by_cases hk : k < 8
  · rw [bitmap_byte hu hk, Nat.zero_testBit]
    simp only [decide_eq_false_iff_not]
    omega
  · have hlt : ((Mk.bitmap used).get8 j).toNat < 2 ^ k :=
      (UInt8.toNat_lt _).trans_le (Nat.pow_le_pow_right (by decide) (Nat.le_of_not_lt hk))
    rw [Nat.testBit_lt_two_pow hlt, Nat.zero_testBit]

theorem bitmap_byte_pos {used j : ℕ} (hu : used ≤ BPB) (h : 8 * j < used) :
    0 < ((Mk.bitmap used).get8 j).toNat := by
  have := bitmap_byte (j := j) hu (show 0 < 8 by decide)
  rw [Nat.pos_iff_ne_zero]
  intro h0
  rw [h0, Nat.zero_testBit] at this
  simp [h] at this

/-! ### What `main` leaves -/

/-- The parts of `main` before the bitmap. -/
theorem build_eq_ok : build files = .ok s ↔ ∃ s₀ s₁, makeRoot = .ok s₀ ∧
    files.foldlM addFile s₀ = .ok s₁ ∧ fixRoot s₁ = .ok s := by
  rw [build]
  constructor
  · intro h
    obtain ⟨s₀, h₀, h⟩ := Lib.bind_eq_ok.mp h
    obtain ⟨s₁, h₁, h⟩ := Lib.bind_eq_ok.mp h
    exact ⟨s₀, s₁, h₀, h₁, h⟩
  · rintro ⟨s₀, s₁, h₀, h₁, h⟩
    simp only [h₀, bind, Except.bind, h₁, h]

/-- `mkfs` builds the files and then writes the bitmap. -/
theorem main_eq_ok : main files = .ok s ↔ ∃ s', build files = .ok s' ∧
    s'.freeblock < BPB ∧ s = s'.wsect sb.bmapstart (Mk.bitmap s'.freeblock) := by
  rw [main]
  constructor
  · intro h
    obtain ⟨s', hs', h⟩ := Lib.bind_eq_ok.mp h
    unfold Mk.balloc at h
    split at h
    · exact ⟨s', hs', ‹_›, (Except.ok.inj h).symm⟩
    · cases h
  · rintro ⟨s', hs', hu, rfl⟩
    simp only [hs', bind, Except.bind, Mk.balloc]
    exact if_pos hu

/-- **Files that there is room for are written.** -/
theorem main_ok (hn : files.length + 2 ≤ NSLOTS) (hgood : ∀ f ∈ files, f.Good)
    (hroom : nmeta + 8 + (files.map HostFile.cost).sum ≤ FSSIZE) : ∃ s, main files = .ok s := by
  obtain ⟨s₀, h₀, hblk⟩ := makeRoot_ok
  obtain ⟨hh₀, hino₀⟩ := makeRoot_holds h₀
  obtain ⟨s₁, h₁⟩ := addFiles_ok files hh₀ hino₀ (by simpa using hn) hgood (by omega)
  obtain ⟨hh, hino⟩ := holds_of_files h₀ h₁ hn
  have hroot : ROOTINO < NSLOTS := by decide
  have hfix : fixRoot s₁ = .ok (s₁.setInode ROOTINO { s₁.view.dinode ROOTINO with
      size := ((s₁.view.dinode ROOTINO).size / BSIZE + 1) * BSIZE }) := by
    rw [fixRoot, rinode_eq hh.nsect hroot]
    simp only [bind, Except.bind]
    exact winode_eq hh.nsect hroot _
  exact ⟨_, main_eq_ok.mpr ⟨_, build_eq_ok.mpr ⟨s₀, s₁, h₀, h₁, hfix⟩,
    hh.hi.trans_lt (by decide), rfl⟩⟩

theorem seek_bmapstart : seek sb.bmapstart = sb.bmapstart := by decide

/-- The bitmap marks the blocks below `freeblock`. -/
theorem main_bit (h : main files = .ok s) {b : ℕ} (hb : b < BPB) :
    (image sb s.sect).bit b = decide (b < s.freeblock) := by
  obtain ⟨s', -, hu, rfl⟩ := main_eq_ok.mp h
  have hblock : BBLOCK b sb = sb.bmapstart := by
    rw [BBLOCK, Nat.div_eq_of_lt hb, Nat.zero_add]
  simp only [image, Mk.wsect, seek_bmapstart, hblock, Function.update_self, Nat.mod_eq_of_lt hb]
  exact bitmap_spec hu.le b

/-- The bitmap is written behind the inode blocks. -/
theorem balloc_dinode {i : ℕ} (hi : i < NSLOTS) (buf : Block) :
    (image sb (s.wsect sb.bmapstart buf).sect).dinode i = (image sb s.sect).dinode i := by
  simp only [image, Mk.wsect, seek_bmapstart, Function.update_of_ne (iblock_lt hi).ne]

/-- The size that the root directory is given. -/
def rootSize (n : ℕ) : ℕ := (DESIZE * (n + 2) / BSIZE + 1) * BSIZE

theorem Fits.setSize {di : Dinode} (h : di.Fits) {size : ℕ} (hs : size < 2 ^ 32) :
    Dinode.Fits { di with size := size } :=
  ⟨h.shorts, fun v hv => by
    rcases List.mem_cons.mp hv with rfl | hv
    · exact hs
    · exact h.words v (List.mem_cons_of_mem _ hv)⟩

/-- What `main` writes last. -/
theorem main_parts (h : main files = .ok s) (hn : files.length + 2 ≤ NSLOTS) :
    ∃ s₁ : Mk, Holds s₁ (contentsOf files) ∧ s₁.freeinode = files.length + 2 ∧
      Dinode.Fits { s₁.view.dinode ROOTINO with size := rootSize files.length } ∧
        s = (s₁.setInode ROOTINO { s₁.view.dinode ROOTINO with
          size := rootSize files.length }).wsect sb.bmapstart (Mk.bitmap s₁.freeblock) := by
  obtain ⟨s₂, hbuild, -, rfl⟩ := main_eq_ok.mp h
  obtain ⟨s₀, s₁, h₀, h₁, hfix⟩ := build_eq_ok.mp hbuild
  obtain ⟨hh, hino⟩ := holds_of_files h₀ h₁ hn
  have hroot : ROOTINO < NSLOTS := by decide
  have hlt : ROOTINO < s₁.freeinode := by
    rw [hino]
    simp [ROOTINO]
  rw [fixRoot] at hfix
  obtain ⟨din, hread, hfix⟩ := Lib.bind_eq_ok.mp hfix
  rw [rinode_eq hh.nsect hroot] at hread
  obtain rfl := Except.ok.inj hread
  dsimp only at hfix
  rw [winode_eq hh.nsect hroot, hh.stores.size (by decide) hlt, length_root,
    show (DESIZE * (files.length + 2) / BSIZE + 1) * BSIZE = rootSize files.length from rfl] at hfix
  obtain rfl := Except.ok.inj hfix
  have hsmall : rootSize files.length < 2 ^ 32 := by
    have : NSLOTS = 208 := by decide
    simp only [rootSize, DESIZE, DIRSIZ, BSIZE]
    omega
  exact ⟨s₁, hh, hino, Fits.setSize (hh.stores.fits hh.room (by decide) hlt) hsmall, rfl⟩

/-- **The image file**: the files in the inodes, and the size of the root directory rounded up. -/
theorem main_image (h : main files = .ok s) (hn : files.length + 2 ≤ NSLOTS) :
    ∃ d : Image, Stores d (files.length + 2) (contentsOf files) ∧ d.data = s.sect ∧
      (∀ b, d.bit b = decide (b < s.freeblock)) ∧
        ∀ i < NSLOTS, (image sb s.sect).dinode i =
          if i = ROOTINO then { d.dinode i with size := rootSize files.length } else d.dinode i := by
  obtain ⟨s₁, hh, hino, hfits, rfl⟩ := main_parts h hn
  have hst := hh.stores
  rw [hino] at hst
  refine ⟨_, hst.below (by omega) ?_, rfl, fun _ => rfl, ?_⟩
  · intro b hb
    have hne : b ≠ sb.bmapstart := by
      rintro rfl
      exact absurd hb (by decide)
    simp only [Mk.wsect, seek_bmapstart, Function.update_of_ne hne]
    exact setInode_sect (by decide) hb
  · intro i hi
    have hview : s₁.view.dinode i = (image sb s₁.sect).dinode i := if_pos hi
    rw [balloc_dinode hi, dinode_setInode hfits]
    by_cases hi1 : i = ROOTINO
    · subst hi1
      rw [Function.update_self, if_pos rfl]
    · rw [Function.update_of_ne hi1, if_neg hi1, hview]

/-- The kernel finds the layout in the superblock. -/
theorem main_super (h : main files = .ok s) (hn : files.length + 2 ≤ NSLOTS) :
    readsb s.sect = sb := by
  obtain ⟨s₁, hh, -, -, rfl⟩ := main_parts h hn
  have hone : (1 : ℕ) ≠ sb.bmapstart := by decide
  rw [readsb]
  simp only [Mk.wsect, seek_bmapstart, Function.update_of_ne hone]
  rw [(hh.toSane.setInode (by decide)).super, ← Super.length_encode sb,
    Lib.Bytes.getList_putList _ (by rw [Super.length_encode]; decide),
    Super.decode_encode (by decide)]

/-! ### Holes -/

/-- The image that the kernel sees. -/
def Mk.disk (s : Mk) : Image := image sb s.sect

/-- Every inode that has been handed out has a block for every index below its size. -/
def NoHoles (s : Mk) : Prop :=
  ∀ i, 0 < i → i < s.freeinode → ∀ bn, bn * BSIZE < (s.disk.dinode i).size →
    Filled s.disk.data (s.disk.dinode i) bn

/-- No read of such an inode changes the disk: `bmap` has not allocated a block. -/
def ReadsAllocateNothing (s : Mk) : Prop :=
  ∀ devsw i, 0 < i → i < s.freeinode → ∀ off n, ∃ r,
    readiFile kernelSb devsw s.disk (s.disk.dinode i) off n = .ok (r, s.disk, s.disk.dinode i)

theorem main_freeinode (h : main files = .ok s) : s.freeinode = files.length + 2 := by
  obtain ⟨s₂, hbuild, -, rfl⟩ := main_eq_ok.mp h
  obtain ⟨s₀, s₁, h₀, h₁, hfix⟩ := build_eq_ok.mp hbuild
  rw [fixRoot] at hfix
  obtain ⟨din, -, hfix⟩ := Lib.bind_eq_ok.mp hfix
  obtain ⟨hino, -⟩ := winode_counts hfix
  rw [wsect_counts.1, hino, (addFiles_counts files h₁).1, (makeRoot_holds h₀).2, Nat.add_comm]

theorem type_ne_dev {d : Image} {n i : ℕ} (h : Stores d n (contentsOf files)) (hi : 0 < i)
    (hlt : i < n) : (d.dinode i).type ≠ T_DEV := by
  have : (d.dinode i).type = if i = ROOTINO then T_DIR else T_FILE :=
    congrArg Attr.type (h.attr i hi hlt)
  rw [this]
  split <;> decide

/-- Without holes, and with all inodes in the inode blocks, reading allocates nothing. -/
theorem reads_of_noHoles (h : main files = .ok s) (hn : files.length + 2 ≤ NSLOTS)
    (hfull : NoHoles s) : ReadsAllocateNothing s := by
  intro devsw i hi hlt off n
  obtain ⟨d, hst, -, -, hdinode⟩ := main_image h hn
  have hin : i < files.length + 2 := main_freeinode h ▸ hlt
  have htype : (s.disk.dinode i).type = (d.dinode i).type := by
    rw [Mk.disk, hdinode i (by omega)]
    split <;> rfl
  refine ⟨_, readiFile_filled kernelSb devsw off n ?_ fun bn hs => hfull i hi hlt bn ?_⟩
  · rw [htype]
    exact type_ne_dev hst hi hin
  · obtain ⟨h0, -, hlt⟩ := hs
    omega

/-- The root directory has a hole exactly when its entries fill their last block. -/
theorem noHoles_iff (h : main files = .ok s) (hn : files.length + 2 ≤ NSLOTS) :
    NoHoles s ↔ (files.length + 2) % (BSIZE / DESIZE) ≠ 0 := by
  obtain ⟨d, hst, hdata, -, hdinode⟩ := main_image h hn
  have hslots : NSLOTS = 208 := by decide
  have hper : BSIZE / DESIZE = 32 := by decide
  have hroot : s.disk.dinode ROOTINO = { d.dinode ROOTINO with size := rootSize files.length } := by
    rw [Mk.disk, hdinode ROOTINO (by decide), if_pos rfl]
  have hrootlt : ROOTINO < files.length + 2 := by simp [ROOTINO]
  have hfilled : ∀ bn, Filled s.disk.data (s.disk.dinode ROOTINO) bn ↔
      Filled d.data (d.dinode ROOTINO) bn := by
    intro bn
    rw [hroot, hdata]
    exact filled_congr rfl
  rw [hper]
  constructor
  · intro hfull hmod
    obtain ⟨slot, hslot, h0⟩ := (hfilled _).mp (hfull ROOTINO (by decide)
      (by rw [main_freeinode h]; exact hrootlt) (DESIZE * (files.length + 2) / BSIZE)
        (by rw [hroot]; simp only [rootSize, BSIZE]; omega))
    have hk : DESIZE * (files.length + 2) / BSIZE < NDIRECT := by
      simp only [DESIZE, DIRSIZ, BSIZE, NDIRECT]
      omega
    rw [indexSlot, dif_pos hk] at hslot
    obtain rfl := Option.some.inj hslot
    refine h0 (hst.tight ROOTINO (by decide) hrootlt ⟨_, hk⟩ ?_)
    rw [length_root]
    simp only [DESIZE, DIRSIZ, BSIZE]
    omega
  · intro hmod i hi hlt bn hbn
    rw [main_freeinode h] at hlt
    by_cases hi1 : i = ROOTINO
    · subst hi1
      rw [hroot] at hbn
      refine (hfilled bn).mpr (hst.consistent.noHoles ROOTINO (by decide)
        (hst.type_ne (by decide) hlt) bn ?_)
      rw [hst.size (by decide) hlt, length_root]
      simp only [rootSize, DESIZE, DIRSIZ, BSIZE] at hbn ⊢
      omega
    · have hsame : s.disk.dinode i = d.dinode i := by
        rw [Mk.disk, hdinode i (by omega), if_neg hi1]
      rw [hsame] at hbn ⊢
      rw [show s.disk.data = d.data from hdata.symm]
      exact hst.consistent.noHoles i (show i < NSLOTS by omega) (hst.type_ne hi hlt) bn hbn

/-! ### Inodes in the bitmap -/

/-- What the kernel reads as the first inode behind the inode blocks: words of the bitmap. -/
theorem disk_nslots (h : main files = .ok s) :
    (s.disk.dinode NSLOTS).size = (Mk.bitmap s.freeblock).get32 8 ∧
      (s.disk.dinode NSLOTS).addrs 0 = (Mk.bitmap s.freeblock).get32 12 := by
  obtain ⟨s', -, -, rfl⟩ := main_eq_ok.mp h
  have hblock : IBLOCK NSLOTS sb = sb.bmapstart := by decide
  simp only [Mk.disk, image, Mk.wsect, seek_bmapstart, hblock, Function.update_self]
  exact ⟨rfl, rfl⟩

/-- The first blocks of an inode are as many different ones. -/
theorem blocks_le {d : Image} {n i m fb : ℕ} {file : ℕ → List UInt8} (h : Stores d n file)
    (hn : n ≤ NSLOTS) (hi : 0 < i) (hlt : i < n) (hbit : ∀ b, d.bit b = decide (b < fb))
    (hm : m ≤ NDIRECT) (hsize : ∀ k < m, k * BSIZE < (file i).length) : nmeta + m ≤ fb := by
  have hslot : ∀ k (hk : k < m), d.hold slots (i, .addr (Fin.castSucc ⟨k, hk.trans_le hm⟩)) ≠ 0 := by
    intro k hk
    obtain ⟨slot, hslot, h0⟩ := h.consistent.noHoles i (show i < NSLOTS by omega)
      (h.type_ne hi hlt) k (by rw [h.size hi hlt]; exact hsize k hk)
    rw [indexSlot, dif_pos (hk.trans_le hm)] at hslot
    obtain rfl := Option.some.inj hslot
    rwa [Image.hold, if_pos ⟨show i < NSLOTS by omega, h.type_ne hi hlt⟩]
  have hcard : (Finset.univ : Finset (Fin m)).card ≤ (Finset.Ico nmeta fb).card := by
    refine Finset.card_le_card_of_injOn
      (fun k => d.hold slots (i, .addr (Fin.castSucc ⟨k, k.2.trans_le hm⟩))) ?_ ?_
    · intro k _
      have h0 := hslot k k.2
      refine Finset.mem_coe.mpr (Finset.mem_Ico.mpr ⟨(h.consistent.owned.range _ h0).1, ?_⟩)
      have := h.consistent.owned.marked _ h0
      rw [hbit] at this
      exact of_decide_eq_true this
    · intro k _ k' _ e
      have := h.consistent.owned.unique _ _ (hslot k k.2) e
      simp only [Prod.mk.injEq, true_and, Slot.addr.injEq] at this
      exact Fin.ext (by simpa using congrArg Fin.val this)
  have hmeta := h.consistent.owned.below (nmeta - 1) (Nat.sub_lt (by decide) Nat.one_pos)
  rw [hbit] at hmeta
  have hlast := of_decide_eq_true hmeta
  rw [Finset.card_univ, Fintype.card_fin, Nat.card_Ico] at hcard
  omega

/-- By the time the inodes have left the inode blocks, the root directory has seven blocks. -/
theorem freeblock_of_many (h : main files = .ok s) (hn : NSLOTS < files.length + 2) :
    nmeta + 7 ≤ s.freeblock := by
  obtain ⟨s₂, hbuild, -, rfl⟩ := main_eq_ok.mp h
  obtain ⟨s₀, s₁, h₀, h₁, hfix⟩ := build_eq_ok.mp hbuild
  rw [fixRoot] at hfix
  obtain ⟨din, -, hfix⟩ := Lib.bind_eq_ok.mp hfix
  rw [wsect_counts.2, (winode_counts hfix).2]
  have hslots : NSLOTS = 208 := by decide
  rw [← List.take_append_drop 206 files, List.foldlM_append] at h₁
  obtain ⟨s', h', h₁⟩ := Lib.bind_eq_ok.mp h₁
  have htake : (files.take 206).length = 206 := List.length_take_of_le (by omega)
  obtain ⟨hh, hino⟩ := holds_of_files h₀ h' (by omega)
  refine le_trans ?_ (addFiles_counts _ h₁).2
  refine blocks_le (i := ROOTINO) hh.stores hh.room (by decide) ?_ (fun b => rfl) (by decide) ?_
  · rw [hino]
    simp [ROOTINO]
  · intro k hk
    rw [length_root, htake]
    simp only [DESIZE, DIRSIZ, BSIZE]
    omega

/-- An inode behind the inode blocks is overwritten by the bitmap, and has a hole. -/
theorem hole_of_many (h : main files = .ok s) (hn : NSLOTS < files.length + 2) : ¬ NoHoles s := by
  intro hfull
  have hmany := freeblock_of_many h hn
  have hmeta : nmeta = 59 := by decide
  have hslots : NSLOTS = 208 := by decide
  have hu : s.freeblock ≤ BPB := by
    obtain ⟨s', -, hu, rfl⟩ := main_eq_ok.mp h
    exact hu.le
  obtain ⟨hsize, haddr⟩ := disk_nslots h
  have hinode := hfull NSLOTS (by omega) (by rw [main_freeinode h]; exact hn)
  have hpos := bitmap_byte_pos (j := 8) hu (by omega)
  -- its size is not zero, so it has a first block
  obtain ⟨slot, hslot, h0⟩ := hinode 0 (by
    rw [hsize]
    simp only [Lib.Bytes.get32]
    omega)
  obtain rfl := Option.some.inj hslot
  have h0 : (s.disk.dinode NSLOTS).addrs 0 ≠ 0 := h0
  rw [haddr] at h0
  have h96 : 96 < s.freeblock := by
    by_contra hle
    refine h0 ?_
    simp only [Lib.Bytes.get32, bitmap_byte_empty (j := 12) hu (by omega),
      bitmap_byte_empty (j := 12 + 1) hu (by omega), bitmap_byte_empty (j := 12 + 2) hu (by omega),
      bitmap_byte_empty (j := 12 + 3) hu (by omega)]
  -- then its size is that of no file
  obtain ⟨slot, hslot, -⟩ := hinode MAXFILE (by
    rw [hsize]
    simp only [Lib.Bytes.get32, bitmap_byte_full (j := 8) hu (by omega),
      bitmap_byte_full (j := 8 + 1) hu (by omega), bitmap_byte_full (j := 8 + 2) hu (by omega),
      bitmap_byte_full (j := 8 + 3) hu (by omega)]
    decide)
  exact absurd hslot (by decide +revert)

/-- **Images without holes.**  In the image that `mkfs` leaves, every inode it has handed out has a
block for every index below its size, and reading allocates none, exactly when all inodes are in
the inode blocks and the entries of the root directory do not fill its last block. -/
theorem images_without_holes (h : main files = .ok s) :
    NoHoles s ∧ ReadsAllocateNothing s ↔
      files.length + 2 ≤ NSLOTS ∧ (files.length + 2) % (BSIZE / DESIZE) ≠ 0 := by
  constructor
  · rintro ⟨hfull, -⟩
    have hn : files.length + 2 ≤ NSLOTS := by
      by_contra hgt
      exact hole_of_many h (by omega) hfull
    exact ⟨hn, (noHoles_iff h hn).mp hfull⟩
  · rintro ⟨hn, hmod⟩
    have hfull := (noHoles_iff h hn).mpr hmod
    exact ⟨hfull, reads_of_noHoles h hn hfull⟩

/-- Empty files. -/
def emptyFiles (n : ℕ) : List HostFile := List.replicate n ⟨⟨[97], by decide⟩, some []⟩

/-- Two hundred and six empty files fit. -/
theorem emptyFiles_ok {n : ℕ} (hn : n ≤ 206) : ∃ s, main (emptyFiles n) = .ok s := by
  have hslots : NSLOTS = 208 := by decide
  have hmeta : nmeta = 59 := by decide
  have hlen : (emptyFiles n).length = n := List.length_replicate ..
  refine main_ok (by omega) ?_ ?_
  · intro f hf
    obtain rfl := List.eq_of_mem_replicate hf
    exact ⟨by decide, [], rfl, Nat.zero_le _⟩
  · have hsum : ((emptyFiles n).map HostFile.cost).sum = n * 4 := by
      rw [emptyFiles, List.map_replicate, List.sum_replicate_nat]
      rfl
    rw [hsum, hmeta, FSSIZE]
    omega

theorem images_without_holes_one : ∃ s, main (emptyFiles 1) = .ok s ∧ NoHoles s := by
  obtain ⟨s, h⟩ := emptyFiles_ok (n := 1) (by decide)
  exact ⟨s, h, ((images_without_holes h).mpr ⟨by decide, by decide⟩).1⟩

/-- With thirty files the entries of the root directory fill its only block. -/
theorem hole_in_the_root : ¬ ∀ files s, main files = .ok s → NoHoles s ∧ ReadsAllocateNothing s := by
  intro hall
  obtain ⟨s, h⟩ := emptyFiles_ok (n := 30) (by decide)
  exact (noHoles_iff h (by decide)).mp (hall _ s h).1 (by decide)

end Xv6.Mkfs
