import Xv6.Mkfs.Append

/-!
# mkfs — what the inodes hold

The invariant of `main` while the inodes fit in the inode blocks: inode by inode the bytes that
have been appended, on an image whose blocks are owned as the kernel has it (`Holds`).

* `Holds.ialloc`, `Holds.iappend` — the two operations `main` is made of.
* `Holds.addFile`, `holds_of_files` — one file, and all of them.
-/

namespace Xv6.Mkfs

open Fs

variable {s s' : Mk} {di : Dinode} {i : ℕ}

/-! ### Reading and writing inodes -/

/-- `winode`, where it does not fail. -/
def Mk.setInode (s : Mk) (i : Inum) (di : Dinode) : Mk :=
  { s with sect := Function.update s.sect (IBLOCK i sb) (putDinode (s.sect (IBLOCK i sb)) i di) }

theorem iblock_lt (hi : i < NSLOTS) : IBLOCK i sb < sb.bmapstart := by
  have : i / IPB < ninodeblocks := Nat.div_lt_of_lt_mul (by rwa [Nat.mul_comm])
  simp only [IBLOCK, sb]
  omega

theorem iblock_lt_nmeta (hi : i < NSLOTS) : IBLOCK i sb < nmeta :=
  (iblock_lt hi).trans (by decide)

theorem winode_eq (hn : s.nsect = FSSIZE) (hi : i < NSLOTS) (di : Dinode) :
    s.winode i di = .ok (s.setInode i di) := by
  have hlt : IBLOCK i sb < FSSIZE := (iblock_lt_nmeta hi).trans (by decide)
  have hread := (Mk.rsect_eq_ok hn (hlt.trans (by decide))).mpr ⟨hlt, rfl⟩
  rw [Mk.winode, hread]
  show Except.ok _ = _
  rw [Mk.wsect_eq hn hlt, Mk.setInode]

theorem rinode_eq (hn : s.nsect = FSSIZE) (hi : i < NSLOTS) :
    s.rinode i = .ok (s.view.dinode i) := by
  have hlt : IBLOCK i sb < FSSIZE := (iblock_lt_nmeta hi).trans (by decide)
  have hread := (Mk.rsect_eq_ok hn (hlt.trans (by decide))).mpr ⟨hlt, rfl⟩
  rw [Mk.rinode, hread]
  simp only [Mk.view, if_pos hi]
  rfl

theorem dinode_setInode (hf : di.Fits) :
    (image sb (s.setInode i di).sect).dinode = Function.update (image sb s.sect).dinode i di :=
  dinode_putDinode hf

theorem setInode_sect (hi : i < NSLOTS) {b : ℕ} (hb : nmeta ≤ b) :
    (s.setInode i di).sect b = s.sect b :=
  Function.update_of_ne (Nat.ne_of_gt ((iblock_lt_nmeta hi).trans_le hb)) _ _

theorem one_lt_iblock (i : ℕ) : 1 < IBLOCK i sb :=
  (by decide : 1 < 2 + nlog).trans_le (Nat.le_add_left ..)

theorem Mk.Sane.setInode (hs : s.Sane) (hi : i < NSLOTS) : (s.setInode i di).Sane :=
  hs.update (one_lt_iblock i) (.inl (iblock_lt_nmeta hi))

/-- Storing an inode in its sector sets it in the view. -/
theorem view_setInode (hi : i < NSLOTS) (hf : di.Fits) : (s.setInode i di).view =
    { s.view.setDinode i di with data := (s.setInode i di).sect } := by
  simp only [Mk.view, Image.setDinode]
  congr 1
  funext j
  rw [dinode_setInode hf]
  by_cases hj : j = i
  · subst hj
    simp [hi]
  · simp [hj]

/-! ### The invariant -/

/-- The attributes of the inodes that `mkfs` makes. -/
def attrOf (i : Inum) (size : ℕ) : Attr := ⟨if i = ROOTINO then T_DIR else T_FILE, 0, 0, 1, size⟩

/-- On the image the inodes from `1` to `n - 1` are in use, and inode `i` holds the bytes `file i`,
in blocks none of which is missing and none of which, as far as the direct ones go, is one too
many. -/
structure Stores (d : Image) (n : ℕ) (file : ℕ → List UInt8) : Prop where
  free : ∀ i, i = 0 ∨ n ≤ i → (d.dinode i).type = 0
  attr : ∀ i, 0 < i → i < n → (d.dinode i).attr = attrOf i (file i).length
  bytes : ∀ i, 0 < i → i < n → ∀ k < (file i).length, d.byte i k = (file i).getD k 0
  consistent : d.Consistent slots
  tight : ∀ i, 0 < i → i < n → ∀ k : Fin NDIRECT, (file i).length ≤ k * BSIZE →
    (d.dinode i).addrs k.castSucc = 0

/-- The image holds these files, by inode. -/
structure Holds (s : Mk) (file : ℕ → List UInt8) : Prop extends s.Sane where
  room : s.freeinode ≤ NSLOTS
  stores : Stores s.view s.freeinode file

variable {d d' : Image} {n : ℕ} {file : ℕ → List UInt8}

namespace Stores

theorem type_ne (h : Stores d n file) (hi : 0 < i) (hlt : i < n) : (d.dinode i).type ≠ 0 := by
  have : (d.dinode i).type = if i = ROOTINO then T_DIR else T_FILE :=
    congrArg Attr.type (h.attr i hi hlt)
  rw [this]
  split <;> decide

theorem size (h : Stores d n file) (hi : 0 < i) (hlt : i < n) :
    (d.dinode i).size = (file i).length := congrArg Attr.size (h.attr i hi hlt)

/-- The sectors before the data blocks hold no byte of a file. -/
theorem below (h : Stores d n file) (hn : n ≤ NSLOTS) {data : ℕ → Block}
    (hdata : ∀ b, nmeta ≤ b → data b = d.data b) : Stores { d with data := data } n file where
  free := h.free
  attr := h.attr
  bytes := fun i hi hlt k hk => by
    rw [← h.bytes i hi hlt k hk]
    refine byteAt_below h.consistent (show i < NSLOTS by omega) (h.type_ne hi hlt) hdata ?_
    rwa [h.size hi hlt]
  consistent := h.consistent.below hdata
  tight := h.tight

/-- An inode is added, without contents. -/
theorem alloc (h : Stores d n file) (h0 : 0 < n) {type : ℤ}
    (ht : type = if n = ROOTINO then T_DIR else T_FILE) :
    Stores (d.setDinode n { Dinode.blank type with nlink := 1 }) (n + 1)
      (Function.update file n []) := by
  have hother : ∀ j, j ≠ n →
      (d.setDinode n { Dinode.blank type with nlink := 1 }).dinode j = d.dinode j :=
    fun j hj => Function.update_of_ne hj _ _
  have hself : (d.setDinode n { Dinode.blank type with nlink := 1 }).dinode n =
      { Dinode.blank type with nlink := 1 } := Function.update_self ..
  refine ⟨fun i hi => ?_, fun i hi hlt => ?_, fun i hi hlt k hk => ?_,
    h.consistent.alloc (h.free n (.inr le_rfl)) rfl rfl, fun i hi hlt k hk => ?_⟩
  · rw [hother i (by omega)]
    exact h.free i (by omega)
  · by_cases hin : i = n
    · subst hin
      rw [hself, Function.update_self, ht]
      rfl
    · rw [hother i hin, Function.update_of_ne hin]
      exact h.attr i hi (by omega)
  · by_cases hin : i = n
    · subst hin
      simp at hk
    · rw [Function.update_of_ne hin] at hk ⊢
      rw [Image.byte, hother i hin]
      exact h.bytes i hi (by omega) k hk
  · by_cases hin : i = n
    · subst hin
      rw [hself]
      rfl
    · rw [Function.update_of_ne hin] at hk
      rw [hother i hin]
      exact h.tight i hi (by omega) k hk

/-- The loop of `writei` at the end of an inode's bytes, and the inode with its new size. -/
theorem append (h : Stores d n file) (hn : n ≤ NSLOTS) (hi : 0 < i) (hlt : i < n)
    {p : List UInt8} (hloop : writeiLoop slots p.length d (d.dinode i) (file i).length p = .ok (d', di))
    (hdirect : ∀ k : Fin NDIRECT, ¬ Spans (file i).length p.length k →
      di.addrs k.castSucc = (d.dinode i).addrs k.castSucc) :
    Stores (d'.setDinode i { di with size := (file i).length + p.length }) n
      (Function.update file i (file i ++ p)) := by
  have hslot : i < slots.ninodes := show i < NSLOTS by omega
  have ht := h.type_ne hi hlt
  have ho : (d.setDinode i (d.dinode i)).Owned slots := by
    rw [setDinode_self]
    exact h.consistent.owned
  obtain ⟨hext, hfill, -⟩ := writeiLoop_spec hslot _ _ p le_rfl ho ht hloop
  obtain ⟨hkeeps, hbytes⟩ := writeiLoop_bytes hslot _ _ p le_rfl ho ht hloop
  have hother : ∀ j, j ≠ i → (d'.setDinode i { di with size := (file i).length + p.length }).dinode j =
      d.dinode j := fun j hj => by simp [Image.setDinode, hj, hext.dinode]
  have hself : (d'.setDinode i { di with size := (file i).length + p.length }).dinode i =
      { di with size := (file i).length + p.length } := Function.update_self ..
  refine ⟨fun j hj => ?_, fun j hj hjn => ?_, fun j hj hjn k hk => ?_, ?_, fun j hj hjn k hk => ?_⟩
  · rw [hother j (by omega)]
    exact h.free j hj
  · by_cases hji : j = i
    · subst hji
      have hattr := hext.attr.trans (h.attr j hj hjn)
      rw [hself, Function.update_self, List.length_append]
      simp only [Dinode.attr, attrOf, Attr.mk.injEq] at hattr ⊢
      exact ⟨hattr.1, hattr.2.1, hattr.2.2.1, hattr.2.2.2.1, trivial⟩
    · rw [hother j hji, Function.update_of_ne hji]
      exact h.attr j hj hjn
  · have hkept : ∀ k < (file j).length,
        byteAt d'.data (if j = i then di else d.dinode j) k = (file j).getD k 0 := by
      intro k hk
      rw [← h.bytes j hj hjn k hk]
      exact byte_kept h.consistent hkeeps hext (show j < NSLOTS by omega) (h.type_ne hj hjn)
        (by rwa [h.size hj hjn]) fun e => .inl (by rwa [← e])
    by_cases hji : j = i
    · subst hji
      rw [Function.update_self] at hk ⊢
      have hcongr : byteAt d'.data { di with size := (file j).length + p.length } =
          byteAt d'.data di := byteAt_congr rfl
      rw [Image.byte, hself]
      show byteAt d'.data _ k = _
      rw [hcongr]
      by_cases hlt : k < (file j).length
      · rw [List.getD_append _ _ _ _ hlt, ← hkept k hlt, if_pos rfl]
      · obtain ⟨m, rfl⟩ := Nat.exists_eq_add_of_le (Nat.le_of_not_lt hlt)
        rw [List.length_append] at hk
        rw [hbytes m (by omega), List.getD_append_right _ _ _ _ (by omega), Nat.add_sub_cancel_left]
    · rw [Function.update_of_ne hji] at hk ⊢
      rw [Image.byte, hother j hji, ← hkept k hk, if_neg hji]
      rfl
  · refine hext.consistent h.consistent hslot ht rfl rfl fun bn hbn => ?_
    by_cases hspan : Spans (file i).length p.length bn
    · exact hfill bn hspan
    · refine hext.filled hslot ht (h.consistent.noHoles i hslot ht bn ?_)
      rw [h.size hi hlt]
      simp only [Spans, BSIZE] at hspan hbn ⊢
      omega
  · by_cases hji : j = i
    · subst hji
      rw [Function.update_self, List.length_append] at hk
      rw [hself]
      show di.addrs _ = 0
      have hspan : ¬ Spans (file j).length p.length k := fun hs => by
        have := hs.2.2
        omega
      rw [hdirect k hspan]
      exact h.tight j hj hjn k (by omega)
    · rw [Function.update_of_ne hji] at hk
      rw [hother j hji]
      exact h.tight j hj hjn k hk

theorem size_le (h : Stores d n file) (hn : n ≤ NSLOTS) (hi : 0 < i) (hlt : i < n) :
    (file i).length ≤ MAXFILE * BSIZE := by
  by_contra hbig
  obtain ⟨slot, hslot, -⟩ := h.consistent.noHoles i (show i < NSLOTS by omega) (h.type_ne hi hlt)
    MAXFILE (by rw [h.size hi hlt]; omega)
  exact absurd hslot (by decide +revert)

/-- No file is longer than its blocks allow. -/
theorem fits (h : Stores d n file) (hn : n ≤ NSLOTS) (hi : 0 < i) (hlt : i < n) :
    (d.dinode i).Fits := by
  have hattr := h.attr i hi hlt
  simp only [Dinode.attr, attrOf, Attr.mk.injEq] at hattr
  obtain ⟨htype, hmajor, hminor, hnlink, hsize⟩ := hattr
  constructor
  · have hrange : -2 ^ 15 ≤ (d.dinode i).type ∧ (d.dinode i).type < 2 ^ 15 := by
      rw [htype]
      split <;> decide
    simp only [List.mem_cons, List.not_mem_nil, or_false]
    rintro x (rfl | rfl | rfl | rfl)
    · exact hrange
    · omega
    · omega
    · omega
  · intro v hv
    rcases List.mem_cons.mp hv with rfl | hv
    · have := h.size_le hn hi hlt
      simp only [MAXFILE, NDIRECT, NINDIRECT, BSIZE] at this
      omega
    · obtain ⟨k, rfl⟩ := List.mem_ofFn.mp hv
      have hhold : d.hold slots (i, .addr k) = (d.dinode i).addrs k :=
        if_pos ⟨show i < NSLOTS by omega, h.type_ne hi hlt⟩
      by_cases h0 : (d.dinode i).addrs k = 0
      · omega
      · rw [← hhold] at h0 ⊢
        exact (h.consistent.owned.range _ h0).2.trans slots.size_lt

end Stores

namespace Holds

/-- An inode is stored, and what the image holds with it. -/
theorem setInode (hs : s.Sane) (hroom : s.freeinode ≤ NSLOTS) (hi : 0 < i) (hlt : i < s.freeinode)
    (h : Stores (s.view.setDinode i di) s.freeinode file) : Holds (s.setInode i di) file := by
  have hslot : i < NSLOTS := by omega
  have hfits := h.fits hroom hi hlt
  rw [show (s.view.setDinode i di).dinode i = di from Function.update_self ..] at hfits
  refine ⟨hs.setInode hslot, hroom, ?_⟩
  rw [view_setInode hslot hfits]
  exact h.below hroom fun b hb => setInode_sect hslot hb

/-- `ialloc` adds an inode. -/
theorem ialloc (h : Holds s file) (h0 : 0 < s.freeinode) (hroom : s.freeinode < NSLOTS) {type : ℤ}
    (ht : type = if s.freeinode = ROOTINO then T_DIR else T_FILE) :
    ∃ s', s.ialloc type = .ok (s.freeinode, s') ∧ s'.freeinode = s.freeinode + 1 ∧
      Holds s' (Function.update file s.freeinode []) := by
  have hw := winode_eq (s := { s with freeinode := s.freeinode + 1 }) h.nsect hroom
    { Dinode.blank type with nlink := 1 }
  refine ⟨_, ?_, rfl, setInode (s := { s with freeinode := s.freeinode + 1 }) ?_ hroom h0
    (Nat.lt_succ_self _) (h.stores.alloc h0 ht)⟩
  · rw [Mk.ialloc]
    simp only [hw]
    rfl
  · exact ⟨h.nsect, h.super, h.lo, h.hi, h.zero⟩

/-- `iappend` adds to the contents of one file. -/
theorem iappend (h : Holds s file) (hi : 0 < i) (hlt : i < s.freeinode) {p : List UInt8}
    (ha : s.iappend i p = .ok s') :
    Holds s' (Function.update file i (file i ++ p)) ∧ s'.freeinode = s.freeinode := by
  have hslot : i < NSLOTS := hlt.trans_le h.room
  obtain ⟨din, hread, ha⟩ := Lib.bind_eq_ok.mp ha
  rw [rinode_eq h.nsect hslot] at hread
  obtain rfl := Except.ok.inj hread
  obtain ⟨⟨s₁, di, off⟩, hloop, ha⟩ := Lib.bind_eq_ok.mp ha
  have ho : (s.view.setDinode i (s.view.dinode i)).Owned slots := by
    rw [setDinode_self]
    exact h.stores.consistent.owned
  obtain ⟨hwrite, hs₁, rfl⟩ := iappendLoop_sim hslot _ _ p le_rfl h.toSane ho
    (h.stores.type_ne hi hlt) hloop
  obtain ⟨hino, -, hdirect⟩ := iappendLoop_frame _ _ p hloop
  rw [h.stores.size hi hlt] at hwrite hdirect ha
  have hst := h.stores.append h.room hi hlt hwrite hdirect
  rw [← hino] at hst hlt
  dsimp only at ha
  rw [winode_eq hs₁.nsect hslot] at ha
  obtain rfl := Except.ok.inj ha
  exact ⟨setInode hs₁ (hino ▸ h.room) hi hlt hst, hino⟩

end Holds

/-! ### The counters -/

theorem wsect_counts {x : ℕ} {buf : Block} :
    (s.wsect x buf).freeinode = s.freeinode ∧ (s.wsect x buf).freeblock = s.freeblock := ⟨rfl, rfl⟩

theorem winode_counts (h : s.winode i di = .ok s') :
    s'.freeinode = s.freeinode ∧ s'.freeblock = s.freeblock := by
  obtain ⟨buf, -, h⟩ := Lib.bind_eq_ok.mp h
  obtain rfl := Except.ok.inj h
  exact wsect_counts

theorem iappend_counts {p : List UInt8} (h : s.iappend i p = .ok s') :
    s'.freeinode = s.freeinode ∧ s.freeblock ≤ s'.freeblock := by
  obtain ⟨din, -, h⟩ := Lib.bind_eq_ok.mp h
  obtain ⟨⟨s₁, di, off⟩, hloop, h⟩ := Lib.bind_eq_ok.mp h
  obtain ⟨hino, hblk, -⟩ := iappendLoop_frame _ _ p hloop
  obtain ⟨hino', hblk'⟩ := winode_counts h
  exact ⟨hino'.trans hino, hblk.trans hblk'.ge⟩

/-- The loop of `main` over a file takes blocks and no inodes. -/
theorem copyLoop_counts (fuel : ℕ) : ∀ {s} (rest : List UInt8), copyLoop i fuel s rest = .ok s' →
    s'.freeinode = s.freeinode ∧ s.freeblock ≤ s'.freeblock := by
  induction fuel with
  | zero =>
      intro s rest h
      obtain rfl := Except.ok.inj h
      exact ⟨rfl, le_rfl⟩
  | succ fuel ih =>
      intro s rest h
      rw [copyLoop] at h
      split at h
      · obtain rfl := Except.ok.inj h
        exact ⟨rfl, le_rfl⟩
      · obtain ⟨s₁, ha, h⟩ := Lib.bind_eq_ok.mp h
        obtain ⟨hino, hblk⟩ := iappend_counts ha
        obtain ⟨hino', hblk'⟩ := ih _ h
        exact ⟨hino'.trans hino, hblk.trans hblk'⟩

/-- What a successful pass of the loop of `main` has done. -/
theorem addFile_eq_ok {f : HostFile} : addFile s f = .ok s' ↔
    slash ∉ f.name.1 ∧ ∃ contents, f.contents = some contents ∧
      ∃ inum s₁ s₂, s.ialloc T_FILE = .ok (inum, s₁) ∧
        s₁.iappend ROOTINO (Dirent.make (strip f.name) inum).encode = .ok s₂ ∧
          copyLoop inum contents.length s₂ contents = .ok s' := by
  unfold addFile
  split
  · simp [*]
  · split
    · simp [*]
    · rename_i hname _ contents hcontents
      simp only [hname, not_false_eq_true, true_and, hcontents, Option.some.injEq, exists_eq_left']
      constructor
      · intro h
        obtain ⟨⟨inum, s₁⟩, h₁, h⟩ := Lib.bind_eq_ok.mp h
        obtain ⟨s₂, h₂, h⟩ := Lib.bind_eq_ok.mp h
        exact ⟨inum, s₁, s₂, h₁, h₂, h⟩
      · rintro ⟨inum, s₁, s₂, h₁, h₂, h⟩
        simp only [h₁, h₂, bind, Except.bind, h]

theorem ialloc_counts {type : ℤ} {inum : ℕ} (h : s.ialloc type = .ok (inum, s')) :
    inum = s.freeinode ∧ s'.freeinode = s.freeinode + 1 ∧ s'.freeblock = s.freeblock := by
  obtain ⟨s₁, hw, h⟩ := Lib.bind_eq_ok.mp h
  obtain ⟨rfl, rfl⟩ := Prod.mk.inj (Except.ok.inj h)
  exact ⟨rfl, winode_counts hw⟩

theorem addFile_counts {f : HostFile} (h : addFile s f = .ok s') :
    s'.freeinode = s.freeinode + 1 ∧ s.freeblock ≤ s'.freeblock := by
  obtain ⟨-, contents, -, inum, s₁, s₂, h₁, h₂, h₃⟩ := addFile_eq_ok.mp h
  obtain ⟨-, hino₁, hblk₁⟩ := ialloc_counts h₁
  obtain ⟨hino₂, hblk₂⟩ := iappend_counts h₂
  obtain ⟨hino₃, hblk₃⟩ := copyLoop_counts _ _ h₃
  exact ⟨by rw [hino₃, hino₂, hino₁], hblk₁.ge.trans (hblk₂.trans hblk₃)⟩

/-- Each file takes one inode. -/
theorem addFiles_counts (files : List HostFile) : ∀ {s}, files.foldlM addFile s = .ok s' →
    s'.freeinode = s.freeinode + files.length ∧ s.freeblock ≤ s'.freeblock := by
  induction files with
  | nil =>
      intro s h
      obtain rfl := Except.ok.inj h
      exact ⟨rfl, le_rfl⟩
  | cons f files ih =>
      intro s h
      rw [List.foldlM_cons] at h
      obtain ⟨s₁, h₁, h⟩ := Lib.bind_eq_ok.mp h
      obtain ⟨hino, hblk⟩ := addFile_counts h₁
      obtain ⟨hino', hblk'⟩ := ih h
      exact ⟨by rw [hino', hino, List.length_cons]; omega, hblk.trans hblk'⟩

/-! ### The files of the command line -/

/-- The entries of the root directory. -/
def rootEntries (files : List HostFile) : List Dirent :=
  [.make dot ROOTINO, .make dotdot ROOTINO] ++
    files.mapIdx fun k f => .make (strip f.name) (k + 2)

/-- The bytes of the inodes: the root directory, and the files in the order of their names. -/
def contentsOf (files : List HostFile) : ℕ → List UInt8
  | 0 => []
  | 1 => (rootEntries files).flatMap Dirent.encode
  | k + 2 => ((files[k]?).bind HostFile.contents).getD []

theorem length_encode_rootEntries {files : List HostFile} {de : Dirent}
    (h : de ∈ rootEntries files) :
    de.encode.length = DESIZE := by
  refine Dirent.length_encode ?_
  simp only [rootEntries, List.mem_append, List.mem_cons, List.not_mem_nil, or_false,
    List.mem_mapIdx] at h
  rcases h with (rfl | rfl) | ⟨k, hk, rfl⟩ <;> exact Dirent.length_make_name ..

theorem length_rootEntries (files : List HostFile) :
    (rootEntries files).length = files.length + 2 := by
  simp only [rootEntries, List.length_append, List.length_cons, List.length_nil, List.length_mapIdx]
  omega

theorem length_root (files : List HostFile) :
    (contentsOf files ROOTINO).length = DESIZE * (files.length + 2) := by
  rw [← length_rootEntries]
  exact Lib.length_flatMap_of_width fun _ => length_encode_rootEntries

/-- With one file more, the root has one entry more and there is one more inode. -/
theorem contentsOf_snoc (files : List HostFile) (f : HostFile) {contents : List UInt8}
    (hf : f.contents = some contents) :
    contentsOf (files ++ [f]) = Function.update (Function.update (contentsOf files) ROOTINO
      (contentsOf files ROOTINO ++ (Dirent.make (strip f.name) (files.length + 2)).encode))
        (files.length + 2) contents := by
  funext i
  match i with
  | 0 => simp [contentsOf, Function.update, ROOTINO]
  | 1 => simp [contentsOf, Function.update, ROOTINO, rootEntries, List.mapIdx_append]
  | k + 2 =>
      by_cases hk : k = files.length
      · simp [contentsOf, hk, hf]
      · rw [Function.update_of_ne (by omega), Function.update_of_ne (by simp [ROOTINO])]
        by_cases hlt : k < files.length
        · simp [contentsOf, List.getElem?_append_left hlt]
        · have hout : (files ++ [f]).length ≤ k := by
            rw [List.length_append, List.length_singleton]
            omega
          simp [contentsOf, List.getElem?_eq_none hout,
            List.getElem?_eq_none (Nat.le_of_not_lt hlt)]

/-- The loop of `main` over a file copies it. -/
theorem Holds.copyLoop (fuel : ℕ) : ∀ {s file} (rest : List UInt8), rest.length ≤ fuel →
    Holds s file → 0 < i → i < s.freeinode → copyLoop i fuel s rest = .ok s' →
      Holds s' (Function.update file i (file i ++ rest)) := by
  induction fuel with
  | zero =>
      intro s file rest hlen h _ _ hc
      obtain rfl := Except.ok.inj hc
      obtain rfl := List.length_eq_zero_iff.mp (Nat.le_zero.mp hlen)
      simpa using h
  | succ fuel ih =>
      intro s file rest hlen h hi hlt hc
      rw [Mkfs.copyLoop] at hc
      split at hc
      · rename_i h0
        obtain rfl := Except.ok.inj hc
        obtain rfl := List.length_eq_zero_iff.mp h0
        simpa using h
      · obtain ⟨s₁, ha, hc⟩ := Lib.bind_eq_ok.mp hc
        obtain ⟨h₁, hino⟩ := h.iappend hi hlt ha
        have hdrop : (rest.drop BSIZE).length ≤ fuel := by
          rw [List.length_drop]
          simp only [BSIZE]
          omega
        have := ih _ hdrop h₁ hi (hino ▸ hlt) hc
        rwa [Function.update_idem, Function.update_self, List.append_assoc,
          List.take_append_drop] at this

/-- The pass of `main` for one file adds its entry and its contents. -/
theorem Holds.addFile {files : List HostFile} {f : HostFile} (h : Holds s (contentsOf files))
    (hn : s.freeinode = files.length + 2) (hroom : s.freeinode < NSLOTS)
    (ha : addFile s f = .ok s') :
    Holds s' (contentsOf (files ++ [f])) ∧ s'.freeinode = (files ++ [f]).length + 2 := by
  have hcount := (addFile_counts ha).1
  obtain ⟨-, contents, hf, inum, s₁, s₂, h₁, h₂, h₃⟩ := addFile_eq_ok.mp ha
  have hne : s.freeinode ≠ ROOTINO := by rw [hn]; simp [ROOTINO]
  obtain ⟨s₁', h₁', hino₁, hh₁⟩ := h.ialloc (by omega) hroom (if_neg hne).symm
  rw [h₁] at h₁'
  obtain ⟨rfl, rfl⟩ := Prod.mk.inj (Except.ok.inj h₁')
  obtain ⟨hh₂, hino₂⟩ := hh₁.iappend (by decide) (by rw [hino₁, hn]; simp [ROOTINO]) h₂
  have hh₃ := hh₂.copyLoop _ contents le_rfl (by omega) (by rw [hino₂, hino₁]; omega) h₃
  refine ⟨?_, by rw [hcount, hn, List.length_append, List.length_singleton]⟩
  rw [contentsOf_snoc _ _ hf, ← hn]
  convert hh₃ using 1
  rw [Function.update_of_ne hne.symm, Function.update_of_ne hne, Function.update_self,
    Function.update_comm hne, Function.update_idem, List.nil_append]

/-- All files are added, by induction on those that are left. -/
theorem holds_addFiles (rest : List HostFile) : ∀ {s files}, Holds s (contentsOf files) →
    s.freeinode = files.length + 2 → files.length + rest.length + 2 ≤ NSLOTS →
      rest.foldlM Mkfs.addFile s = .ok s' → Holds s' (contentsOf (files ++ rest)) := by
  induction rest with
  | nil =>
      intro s files h _ _ hr
      obtain rfl := Except.ok.inj hr
      simpa using h
  | cons f rest ih =>
      intro s files h hn hroom hr
      rw [List.foldlM_cons] at hr
      obtain ⟨s₁, h₁, hr⟩ := Lib.bind_eq_ok.mp hr
      rw [List.length_cons] at hroom
      obtain ⟨hh₁, hn₁⟩ := h.addFile hn (by omega) h₁
      have := ih hh₁ hn₁ (by rw [List.length_append, List.length_singleton]; omega) hr
      simpa using this

/-! ### The empty file system -/

/-- The first loop of `main` clears the image. -/
theorem zeroed (n : ℕ) (hn : n ≤ 2 ^ 23) (s : Mk) (hz : s.sect = fun _ _ => 0) (h0 : s.nsect = 0) :
    (List.range n).foldl (fun s i => s.wsect i fun _ => 0) s = { s with nsect := n } := by
  induction n with
  | zero => rw [List.range_zero, List.foldl_nil, ← h0]
  | succ n ih =>
      have hsect : Function.update (fun _ _ => 0 : ℕ → Block) n (fun _ => 0) = fun _ _ => 0 :=
        Function.update_eq_self n _
      rw [List.range_succ, List.foldl_append, ih (by omega)]
      simp [Mk.wsect, seek_eq (show n < 2 ^ 23 by omega), hz]

theorem blank_eq : blank = ⟨Function.update (fun _ _ => 0) 1
    (Lib.Bytes.putList (fun _ => 0) 0 sb.encode), FSSIZE, 1, nmeta⟩ := by
  have hmax : max FSSIZE (1 + 1) = FSSIZE := by decide
  have hseek : seek 1 = 1 := by decide
  rw [blank, zeroed FSSIZE (by decide) ⟨fun _ _ => 0, 0, 1, nmeta⟩ rfl rfl]
  simp only [Mk.wsect, hseek, hmax]

theorem getDinode_zero (i : ℕ) : (getDinode (fun _ => 0) i).type = 0 := by
  have hget : ∀ o, Lib.Bytes.getList (fun _ => 0 : Block) o DISIZE = List.replicate DISIZE 0 := by
    intro o
    have : ∀ k, Lib.Bytes.get8 (fun _ => 0 : Block) k = 0 := fun k => by simp [Lib.Bytes.get8]
    simp [Lib.Bytes.getList, this]
  rw [getDinode, hget]
  rfl

/-- The blank image holds nothing. -/
theorem blank_holds : Holds blank (contentsOf []) := by
  have hfree : ∀ i : ℕ, (blank.view.dinode i).type = 0 := by
    intro i
    rw [blank_eq]
    simp only [Mk.view, image]
    split
    · rw [Function.update_of_ne]
      · exact getDinode_zero i
      · exact Nat.ne_of_gt (one_lt_iblock i)
    · rfl
  have hhold : blank.view.hold slots = fun _ => 0 := by
    funext p
    simp [Image.hold, hfree]
  refine ⟨⟨by rw [blank_eq], by rw [blank_eq]; simp, by rw [blank_eq],
    by rw [blank_eq]; decide, fun b hb => ?_⟩,
    by rw [blank_eq]; decide, ⟨fun i _ => hfree i, ?_, ?_, ⟨?_, ?_⟩, ?_⟩⟩
  · rw [blank_eq] at hb ⊢
    have hne : b ≠ 1 := by
      rintro rfl
      exact absurd hb (by decide)
    simp [hne]
  · rw [blank_eq]
    exact fun i hi hlt => absurd hlt (by simp only; omega)
  · rw [blank_eq]
    exact fun i hi hlt => absurd hlt (by simp only; omega)
  · show Lib.Owns _ _ _ _
    rw [hhold]
    refine ⟨fun p hp => absurd rfl hp, fun p hp => absurd rfl hp, fun p q hp => absurd rfl hp,
      fun b hb hbit => ?_, fun b hb => ?_⟩
    · rw [blank_eq] at hbit
      exact absurd (of_decide_eq_true hbit) (Nat.not_lt.mpr hb)
    · rw [blank_eq]
      exact decide_eq_true hb
  · exact fun i _ ht => absurd (hfree i) ht
  · rw [blank_eq]
    exact fun i hi hlt => absurd hlt (by simp only; omega)

/-- The root holds `.` and `..`. -/
theorem makeRoot_holds (h : makeRoot = .ok s) : Holds s (contentsOf []) ∧ s.freeinode = 2 := by
  rw [makeRoot] at h
  obtain ⟨⟨rootino, s₁⟩, h₁, h⟩ := Lib.bind_eq_ok.mp h
  have hone : blank.freeinode = 1 := congrArg Mk.freeinode blank_eq
  have hdir : T_DIR = if blank.freeinode = ROOTINO then T_DIR else T_FILE := by
    rw [hone]
    rfl
  obtain ⟨s₁', h₁', hino₁, hh₁⟩ := blank_holds.ialloc (by rw [hone]; decide) (by rw [hone]; decide)
    hdir
  rw [h₁'] at h₁
  obtain ⟨rfl, rfl⟩ := Prod.mk.inj (Except.ok.inj h₁)
  rw [hone] at hino₁ hh₁ h
  simp only [ROOTINO, ne_eq, not_true_eq_false, if_false] at h
  obtain ⟨s₂, h₂, h₃⟩ := Lib.bind_eq_ok.mp h
  obtain ⟨hh₂, hino₂⟩ := hh₁.iappend (by decide) (by rw [hino₁]; decide) h₂
  obtain ⟨hh₃, hino₃⟩ := hh₂.iappend (by decide) (by rw [hino₂, hino₁]; decide) h₃
  refine ⟨?_, by rw [hino₃, hino₂, hino₁]⟩
  convert hh₃ using 1
  funext i
  match i with
  | 0 => rfl
  | 1 => simp [contentsOf, rootEntries, ROOTINO]
  | k + 2 => simp [Function.update]

/-- The file system before the root directory is given its size. -/
theorem holds_of_files {files : List HostFile} {s₀ : Mk} (h₀ : makeRoot = .ok s₀)
    (hs : files.foldlM addFile s₀ = .ok s) (hn : files.length + 2 ≤ NSLOTS) :
    Holds s (contentsOf files) ∧ s.freeinode = files.length + 2 := by
  obtain ⟨hroot, hino⟩ := makeRoot_holds h₀
  have := holds_addFiles files hroot hino (by simpa using hn) hs
  refine ⟨by simpa using this, ?_⟩
  rw [(addFiles_counts files hs).1, hino, Nat.add_comm]

/-- Every file on the command line could be opened. -/
theorem contents_of_addFiles (files : List HostFile) : ∀ {s}, files.foldlM addFile s = .ok s' →
    ∀ f ∈ files, ∃ contents, f.contents = some contents := by
  induction files with
  | nil => simp
  | cons g files ih =>
      intro s h f hf
      rw [List.foldlM_cons] at h
      obtain ⟨s₁, h₁, h⟩ := Lib.bind_eq_ok.mp h
      rcases List.mem_cons.mp hf with rfl | hf
      · obtain ⟨-, contents, hc, -⟩ := addFile_eq_ok.mp h₁
        exact ⟨contents, hc⟩
      · exact ih h f hf

end Xv6.Mkfs
