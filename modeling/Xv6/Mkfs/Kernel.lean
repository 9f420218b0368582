import Xv6.Mkfs.Image

/-!
# mkfs — the kernel on the image

What the kernel's own functions read on the image that `mkfs` leaves: entries of the root directory,
and the files they name.

* `run_readEntry`, `run_readNamed` — the file that an entry names, and the one that a name is
  looked up to.
* `inodes_in_bounds` — the inodes are those of the superblock exactly up to 198 files.
* `image_round_trip` — the kernel reads back what has been put in.
-/

namespace Xv6.Mkfs

open Fs

/-! ### The access path -/

/-- The kernel before its first call, on the given disk. -/
def boot (img : Image) : State where
  toIcache := .empty
  img := img
  copy := fun _ => .blank 0
  outstanding := 0

/-- Give the directory back, and read the file found in it. -/
def readFile (dp ip : Inum) (off n : ℕ) : Call (Attr × Option (List UInt8)) := do
  iunlockput dp
  ilock ip
  let a ← attr ip
  let b ← readi ip off n
  pure (a, b)

/-- The entry `m` of the root directory, and `n` bytes of the file it names. -/
def readEntry (m off n : ℕ) : Call (Str × Attr × Option (List UInt8)) := do
  let dp ← iget ROOTINO
  ilock dp
  let de ← readDirent .dirlookupRead dp (DESIZE * m)
  let ip ← iget de.inum
  let r ← readFile dp ip off n
  pure (de.str, r)

/-- The name looked up in the root directory, and `n` bytes of the file it names. -/
def readNamed (name : Str) (off n : ℕ) : Call (Option (Attr × Option (List UInt8))) := do
  let dp ← iget ROOTINO
  ilock dp
  match ← dirlookup dp name with
  | none => pure none
  | some (ip, _) =>
      let r ← readFile dp ip off n
      pure (some r)

variable {s : Mk} {files : List HostFile} {devsw : Devsw} {i : ℕ}

/-! ### What the disk holds -/

/-- The bytes of the files, as the kernel reads them. -/
theorem disk_byte (h : main files = .ok s) (hn : files.length + 2 ≤ NSLOTS) (hi : 0 < i)
    (hlt : i < files.length + 2) {k : ℕ} (hk : k < (contentsOf files i).length) :
    s.disk.byte i k = (contentsOf files i).getD k 0 := by
  obtain ⟨d, hst, hdata, -, hdinode⟩ := main_image h hn
  rw [← hst.bytes i hi hlt k hk, Image.byte, Image.byte, Mk.disk, hdinode i (by omega), hdata]
  show byteAt s.sect _ k = _
  split
  · exact congrFun (byteAt_congr rfl) k
  · rfl

/-- Every file has its blocks. -/
theorem disk_filled (h : main files = .ok s) (hn : files.length + 2 ≤ NSLOTS) (hi : 0 < i)
    (hlt : i < files.length + 2) {bn : ℕ} (hbn : bn * BSIZE < (contentsOf files i).length) :
    Filled s.disk.data (s.disk.dinode i) bn := by
  obtain ⟨d, hst, hdata, -, hdinode⟩ := main_image h hn
  have hfill := hst.consistent.noHoles i (show i < NSLOTS by omega) (hst.type_ne hi hlt) bn
    (by rwa [hst.size hi hlt])
  rw [Mk.disk, hdinode i (by omega)]
  rw [hdata] at hfill
  split
  · exact (filled_congr rfl).mpr hfill
  · exact hfill

/-- The attributes of the files. -/
theorem disk_attr (h : main files = .ok s) (hn : files.length + 2 ≤ NSLOTS) (hi : 0 < i)
    (hlt : i < files.length + 2) : (s.disk.dinode i).attr = attrOf i
      (if i = ROOTINO then rootSize files.length else (contentsOf files i).length) := by
  obtain ⟨d, hst, -, -, hdinode⟩ := main_image h hn
  have hattr := hst.attr i hi hlt
  rw [Mk.disk, hdinode i (by omega)]
  split
  · simp only [Dinode.attr, attrOf, Attr.mk.injEq] at hattr ⊢
    exact ⟨hattr.1, hattr.2.1, hattr.2.2.1, hattr.2.2.2.1, trivial⟩
  · exact hattr

/-- Reading below the end of what an inode holds. -/
theorem disk_read (devsw : Devsw) (h : main files = .ok s) (hn : files.length + 2 ≤ NSLOTS) (hi : 0 < i)
    (hlt : i < files.length + 2) {off n : ℕ} (hoff : off ≤ (contentsOf files i).length)
    (hw : ¬ wraps off n) (hroot : i = ROOTINO → off + n ≤ (contentsOf files i).length) :
    readiFile kernelSb devsw s.disk (s.disk.dinode i) off n =
      .ok (some (((contentsOf files i).drop off).take n), s.disk, s.disk.dinode i) := by
  have hattr := disk_attr h hn hi hlt
  have htype : (s.disk.dinode i).type = if i = ROOTINO then T_DIR else T_FILE :=
    congrArg Attr.type hattr
  have hsize : (s.disk.dinode i).size =
      if i = ROOTINO then rootSize files.length else (contentsOf files i).length :=
    congrArg Attr.size hattr
  have hle : (contentsOf files i).length ≤ (s.disk.dinode i).size := by
    rw [hsize]
    split
    · rename_i hi1
      subst hi1
      rw [length_root]
      simp only [rootSize, DESIZE, DIRSIZ, BSIZE]
      omega
    · exact le_rfl
  have hmin : min n ((s.disk.dinode i).size - off) = min n ((contentsOf files i).length - off) := by
    by_cases hi1 : i = ROOTINO
    · have := hroot hi1
      omega
    · rw [hsize, if_neg hi1]
  have hdev : (s.disk.dinode i).type ≠ T_DEV := by
    rw [htype]
    split <;> decide
  rw [readiFile_filled kernelSb devsw off n hdev fun bn hs => disk_filled h hn hi hlt ?_, hmin,
    if_neg (not_or.mpr ⟨by omega, hw⟩)]
  · have hbytes : (List.range (min n ((contentsOf files i).length - off))).map
        (fun k => byteAt s.disk.data (s.disk.dinode i) (off + k)) =
          ((contentsOf files i).drop off).take n := by
      refine List.ext_getElem (by simp) fun k hk _ => ?_
      simp only [List.length_map, List.length_range] at hk
      have := disk_byte h hn hi hlt (k := off + k) (by omega)
      simp only [List.getElem_map, List.getElem_range, List.getElem_take, List.getElem_drop]
      rw [← Image.byte, this]
      simp [show off + k < (contentsOf files i).length by omega]
    rw [hbytes]
  · obtain ⟨h0, -, hlt⟩ := hs
    rw [hmin] at h0 hlt
    omega

/-! ### Runs of the kernel -/

/-- The root directory locked, and nothing else in use. -/
def rootLocked (img : Image) : State where
  ref := Function.update (fun _ => 0) ROOTINO 1
  valid := Function.update (fun _ => false) ROOTINO true
  locked := Function.update (fun _ => false) ROOTINO true
  img := img
  copy := Function.update (fun _ => .blank 0) ROOTINO (img.dinode ROOTINO)
  outstanding := 0

variable {img : Image} {α : Type}

/-- The kernel takes the root and locks it. -/
theorem run_lockRoot (ht : (img.dinode ROOTINO).type ≠ 0) (f : Inum → Call α) :
    (do let dp ← iget ROOTINO; ilock dp; f dp : Call α).run (diskOps kernelSb devsw) (boot img) =
      (f ROOTINO).run (diskOps kernelSb devsw) (rootLocked img) := by
  have hget : (iget ROOTINO).run (diskOps kernelSb devsw) (boot img) = .ok (ROOTINO,
      { boot img with
        ref := Function.update (fun _ => 0) ROOTINO 1
        valid := Function.update (fun _ => false) ROOTINO false }) := by
    have hin : ¬ kernelSb.ninodes ≤ ROOTINO := by decide
    have huse : ¬ NINODE ≤ Icache.inUse kernelSb.ninodes .empty := by decide +kernel
    simp only [iget, Lib.Prog.run_perform, diskOps, State.cached, boot, Icache.iget, if_neg hin]
    simp only [if_neg huse]
    rfl
  have hlock : (ilock ROOTINO).run (diskOps kernelSb devsw)
      { boot img with
        ref := Function.update (fun _ => 0) ROOTINO 1
        valid := Function.update (fun _ => false) ROOTINO false } = .ok ((), rootLocked img) := by
    simp [ilock, diskOps, State.ilock, boot, Icache.ilock, ht, Icache.empty, rootLocked,
      State.setCopy, Icache.setLocked, Icache.setValid, bind, Except.bind, pure, Except.pure]
  rw [Lib.Prog.run_bind_of_ok hget, Lib.Prog.run_bind_of_ok hlock]

theorem inUse_rootLocked (img : Image) : (rootLocked img).inUse kernelSb.ninodes = 1 := by
  have h : (List.range 200).countP
      (fun j => decide (0 < Function.update (fun _ => 0) ROOTINO 1 j)) = 1 := by decide +kernel
  exact h

/-- The directory is given back, and then the file is locked and read. -/
theorem run_readFile (hi : i ≠ ROOTINO) (hlt : i < kernelSb.ninodes)
    (ht : (img.dinode i).type ≠ 0) (hlink : (img.dinode ROOTINO).nlink ≠ 0) {off n : ℕ}
    {r : Option (List UInt8)} (hread : readiFile kernelSb devsw img (img.dinode i) off n =
      .ok (r, img, img.dinode i)) :
    ∃ t, (do let ip ← iget i; readFile ROOTINO ip off n : Call (Attr × Option (List UInt8))).run
      (diskOps kernelSb devsw) (rootLocked img) = .ok (((img.dinode i).attr, r), t) := by
  let s₁ : State := { rootLocked img with
    ref := Function.update (rootLocked img).ref i 1
    valid := Function.update (rootLocked img).valid i false }
  let s₂ : State := { s₁ with locked := Function.update s₁.locked ROOTINO false }
  let s₃ : State := { s₂ with ref := Function.update s₂.ref ROOTINO 0 }
  let s₄ : State := { s₃ with
    valid := Function.update s₃.valid i true
    locked := Function.update s₃.locked i true
    copy := Function.update s₃.copy i (img.dinode i) }
  -- The states after each of the calls, one by one.
  have hget : (iget i).run (diskOps kernelSb devsw) (rootLocked img) = .ok (i, s₁) := by
    have huse : ¬ NINODE ≤ Icache.inUse kernelSb.ninodes (rootLocked img).toIcache := by
      rw [inUse_rootLocked]
      decide
    simp only [iget, Lib.Prog.run_perform, diskOps, State.cached, Icache.iget,
      if_neg (Nat.not_le.mpr hlt), if_neg huse]
    rw [if_neg (by simp [rootLocked, hi])]
    rfl
  have hunlock : (iunlock ROOTINO).run (diskOps kernelSb devsw) s₁ = .ok ((), s₂) := by
    have hgood : ¬ (¬ s₁.locked ROOTINO ∨ s₁.ref ROOTINO = 0) := by
      simp [s₁, rootLocked, hi.symm]
    simp only [iunlock, Lib.Prog.run_perform, diskOps, State.cached, Icache.iunlock, if_neg hgood]
    rfl
  have hput : (iput ROOTINO).run (diskOps kernelSb devsw) s₂ = .ok ((), s₃) := by
    have hcopy : s₂.copy ROOTINO = img.dinode ROOTINO := by simp [s₂, s₁, rootLocked]
    have href : s₂.ref ROOTINO = 1 := by simp [s₂, s₁, rootLocked, hi.symm]
    have hfree : s₂.locked ROOTINO = false := by simp [s₂]
    have hfrees : s₂.frees ROOTINO (img.dinode ROOTINO).nlink = false := by
      simp [Icache.frees, hlink]
    simp [iput, diskOps, State.iput, Icache.iput, State.release, hcopy, href, hfree, hfrees, s₃,
      Icache.setRef, bind, Except.bind, pure, Except.pure]
  have hlock : (ilock i).run (diskOps kernelSb devsw) s₃ = .ok ((), s₄) := by
    simp [ilock, diskOps, State.ilock, Icache.ilock, s₄, s₃, s₂, s₁, rootLocked, hi, ht,
      State.setCopy, Icache.setLocked, Icache.setValid, bind, Except.bind, pure, Except.pure]
  have hcopy : s₄.copy i = img.dinode i := by simp [s₄]
  have hlocked : s₄.locked i = true := by simp [s₄]
  have hattr : (attr i).run (diskOps kernelSb devsw) s₄ = .ok ((img.dinode i).attr, s₄) := by
    simp [attr, diskOps, Icache.whenLocked, hlocked, hcopy]
  have hdata : (readi i off n).run (diskOps kernelSb devsw) s₄ = .ok (r, s₄) := by
    rw [← hcopy] at hread
    simp [readi, diskOps, Icache.whenLocked, hlocked, readi_of_file hread]
  have hgive : (iunlockput ROOTINO).run (diskOps kernelSb devsw) s₁ = .ok ((), s₃) := by
    rw [iunlockput, Lib.Prog.run_bind_of_ok hunlock, hput]
  refine ⟨s₄, ?_⟩
  rw [Lib.Prog.run_bind_of_ok hget, readFile, Lib.Prog.run_bind_of_ok hgive,
    Lib.Prog.run_bind_of_ok hlock, Lib.Prog.run_bind_of_ok hattr, Lib.Prog.run_bind_of_ok hdata,
    Lib.Prog.run_pure]

/-! ### The root directory -/

/-- The entries of the root name inodes of the image. -/
theorem inum_lt_of_mem {de : Dirent} (h : de ∈ rootEntries files) :
    0 < de.inum ∧ de.inum < files.length + 2 ∧ de.name.length = DIRSIZ := by
  simp only [rootEntries, List.mem_append, List.mem_cons, List.not_mem_nil, or_false,
    List.mem_mapIdx] at h
  rcases h with (rfl | rfl) | ⟨k, hk, rfl⟩
  · exact ⟨by decide, by simp [Dirent.make, ROOTINO], Dirent.length_make_name ..⟩
  · exact ⟨by decide, by simp [Dirent.make, ROOTINO], Dirent.length_make_name ..⟩
  · exact ⟨Nat.succ_pos _, by simpa [Dirent.make] using hk, Dirent.length_make_name ..⟩

/-- It reads the entries that `mkfs` wrote. -/
theorem run_readDirent (devsw : Devsw) (h : main files = .ok s) (hn : files.length + 2 ≤ NSLOTS) (p : CallPanic)
    {m : ℕ} (hm : m < (rootEntries files).length) :
    (readDirent p ROOTINO (DESIZE * m)).run (diskOps kernelSb devsw) (rootLocked s.disk) =
      .ok ((rootEntries files)[m], rootLocked s.disk) := by
  have hslots : NSLOTS = 208 := by decide
  have hmem := List.getElem_mem hm
  obtain ⟨-, hlt, hname⟩ := inum_lt_of_mem hmem
  have hlen : DESIZE * m + DESIZE ≤ (contentsOf files ROOTINO).length := by
    rw [length_root, ← Nat.mul_succ]
    exact Nat.mul_le_mul_left _ (by rwa [length_rootEntries] at hm)
  have hwrap : ¬ wraps (DESIZE * m) DESIZE := by
    rw [length_rootEntries] at hm
    simp only [wraps, DESIZE, DIRSIZ]
    omega
  have hread := disk_read devsw h hn (i := ROOTINO) (by decide) (by simp [ROOTINO])
    (by omega) hwrap fun _ => hlen
  have hentry : ((contentsOf files ROOTINO).drop (DESIZE * m)).take DESIZE =
      (rootEntries files)[m].encode :=
    Lib.take_drop_flatMap (fun _ => length_encode_rootEntries) hm
  rw [hentry] at hread
  have hcopy : (rootLocked s.disk).copy ROOTINO = s.disk.dinode ROOTINO := by simp [rootLocked]
  have hdata : (readi ROOTINO (DESIZE * m) DESIZE).run (diskOps kernelSb devsw)
      (rootLocked s.disk) = .ok (some (rootEntries files)[m].encode, rootLocked s.disk) := by
    have hlocked : (rootLocked s.disk).locked ROOTINO = true := by simp [rootLocked]
    rw [← hcopy] at hread
    simp only [readi, Lib.Prog.run_perform, diskOps, Icache.whenLocked, hlocked, if_true]
    exact readi_of_file hread
  rw [readDirent, Lib.Prog.run_bind_of_ok hdata]
  simp only [length_encode_rootEntries hmem, if_true, Lib.Prog.run_pure]
  rw [Dirent.decode_encode (by omega) hname]

/-- It searches them in order, and stops at the first of the name. -/
theorem run_dirlookupFrom (h : main files = .ok s) (hn : files.length + 2 ≤ NSLOTS) {name : Str}
    {m : ℕ} (hm : m < (rootEntries files).length)
    (hno : ∀ j (hj : j < (rootEntries files).length), j < m →
      namecmp name (rootEntries files)[j].name ≠ 0)
    (hyes : namecmp name (rootEntries files)[m].name = 0) (len : ℕ) :
    ∀ a, a ≤ m → m < a + len →
      (dirlookupFrom ROOTINO name ((List.range' a len).map (DESIZE * ·))).run
        (diskOps kernelSb devsw) (rootLocked s.disk) =
      (do let ip ← iget (rootEntries files)[m].inum; pure (some (ip, DESIZE * m)) :
        Call (Option (Inum × ℕ))).run (diskOps kernelSb devsw) (rootLocked s.disk) := by
  induction len with
  | zero => exact fun a ha hlt => absurd hlt (by omega)
  | succ len ih =>
      intro a ha hlt
      rw [List.range'_succ, List.map_cons, dirlookupFrom]
      have hentry := run_readDirent devsw h hn .dirlookupRead (show a < (rootEntries files).length by omega)
      rw [Lib.Prog.run_bind_of_ok hentry]
      by_cases ham : a = m
      · subst ham
        have hpos := (inum_lt_of_mem (List.getElem_mem hm)).1
        rw [if_pos ⟨by omega, hyes⟩]
      · rw [if_neg fun hc => hno a _ (by omega) hc.2]
        exact ih (a + 1) (by omega) (by omega)

theorem offsets_root (n : ℕ) : ∃ len, n + 2 ≤ len ∧
    offsets 0 (rootSize n) = (List.range' 0 len).map (DESIZE * ·) := by
  refine ⟨(rootSize n - 0 + (DESIZE - 1)) / DESIZE, ?_, ?_⟩
  · simp only [rootSize, DESIZE, DIRSIZ, BSIZE]
    omega
  · simp [offsets, List.range_eq_range']

/-- It finds the entry of a name that occurs once. -/
theorem run_dirlookup (devsw : Devsw) (h : main files = .ok s) (hn : files.length + 2 ≤ NSLOTS) {name : Str}
    {m : ℕ} (hm : m < (rootEntries files).length)
    (hno : ∀ j (hj : j < (rootEntries files).length), j < m →
      namecmp name (rootEntries files)[j].name ≠ 0)
    (hyes : namecmp name (rootEntries files)[m].name = 0) :
    (dirlookup ROOTINO name).run (diskOps kernelSb devsw) (rootLocked s.disk) =
      (do let ip ← iget (rootEntries files)[m].inum; pure (some (ip, DESIZE * m)) :
        Call (Option (Inum × ℕ))).run (diskOps kernelSb devsw) (rootLocked s.disk) := by
  have hroot := disk_attr h hn (i := ROOTINO) (by decide) (by simp [ROOTINO])
  have hattr : (attr ROOTINO).run (diskOps kernelSb devsw) (rootLocked s.disk) =
      .ok (attrOf ROOTINO (rootSize files.length), rootLocked s.disk) := by
    simp [attr, diskOps, Icache.whenLocked, rootLocked, hroot]
  obtain ⟨len, hlen, hoffs⟩ := offsets_root files.length
  have htype : (attrOf ROOTINO (rootSize files.length)).type = T_DIR := rfl
  rw [dirlookup, Lib.Prog.run_bind_of_ok hattr, if_neg (not_not.mpr htype)]
  show (dirlookupFrom ROOTINO name (offsets 0 (rootSize files.length))).run _ _ = _
  rw [hoffs]
  rw [length_rootEntries] at hm
  exact run_dirlookupFrom h hn _ hno hyes len 0 (Nat.zero_le _) (by omega)

/-! ### The files -/

/-- The name that the file has in the image. -/
def HostFile.entryName (f : HostFile) : Str := cstr DIRSIZ (strip f.name)

theorem main_contents (h : main files = .ok s) {f : HostFile} (hf : f ∈ files) :
    ∃ contents, f.contents = some contents := by
  obtain ⟨s₂, hbuild, -, -⟩ := main_eq_ok.mp h
  obtain ⟨s₀, s₁, -, h₁, -⟩ := build_eq_ok.mp hbuild
  exact contents_of_addFiles files h₁ f hf

theorem contentsOf_file {k : ℕ} (hk : k < files.length) {contents : List UInt8}
    (hc : files[k].contents = some contents) : contentsOf files (k + 2) = contents := by
  simp [contentsOf, hk, hc]

theorem rootEntries_file {k : ℕ} (hk : k < files.length) (hm : k + 2 < (rootEntries files).length) :
    (rootEntries files)[k + 2] = Dirent.make (strip files[k].name) (k + 2) := by
  simp [rootEntries]

/-- A file in the image, once the kernel has its number. -/
theorem run_file (devsw : Devsw) (h : main files = .ok s) (hn : files.length + 2 ≤ sb.ninodes) {k : ℕ}
    (hk : k < files.length) {contents : List UInt8} (hc : files[k].contents = some contents)
    {off n : ℕ} (hoff : off ≤ contents.length) (hw : ¬ wraps off n) :
    ∃ t, (do let ip ← iget (k + 2); readFile ROOTINO ip off n :
        Call (Attr × Option (List UInt8))).run (diskOps kernelSb devsw) (rootLocked s.disk) =
      .ok ((attrOf (k + 2) contents.length, some ((contents.drop off).take n)), t) := by
  have hslots : files.length + 2 ≤ NSLOTS := hn.trans (by decide)
  have hne : k + 2 ≠ ROOTINO := by simp [ROOTINO]
  have hfile := contentsOf_file hk hc
  have hattr := disk_attr h hslots (Nat.succ_pos (k + 1)) (by omega)
  have hroot := disk_attr h hslots (i := ROOTINO) (by decide) (by simp [ROOTINO])
  have htype : (s.disk.dinode (k + 2)).type ≠ 0 := by
    rw [show (s.disk.dinode (k + 2)).type = T_FILE from congrArg Attr.type hattr]
    decide
  have hlink : (s.disk.dinode ROOTINO).nlink ≠ 0 := by
    rw [show (s.disk.dinode ROOTINO).nlink = 1 from congrArg Attr.nlink hroot]
    decide
  have hread := disk_read devsw h hslots (Nat.succ_pos (k + 1)) (by omega)
    (by rwa [hfile]) hw fun e => absurd e hne
  rw [hfile] at hread
  rw [if_neg hne, hfile] at hattr
  obtain ⟨t, ht⟩ := run_readFile hne (show k + 2 < sb.ninodes by omega) htype hlink hread
  rw [hattr] at ht
  exact ⟨t, ht⟩

theorem root_type_ne (h : main files = .ok s) (hn : files.length + 2 ≤ NSLOTS) :
    (s.disk.dinode ROOTINO).type ≠ 0 := by
  have hroot := disk_attr h hn (i := ROOTINO) (by decide) (by simp [ROOTINO])
  rw [show (s.disk.dinode ROOTINO).type = T_DIR from congrArg Attr.type hroot]
  decide

/-- Every entry of the root directory names a file that the kernel can read. -/
theorem run_readEntry (devsw : Devsw) (h : main files = .ok s) (hn : files.length + 2 ≤ sb.ninodes)
    {k : ℕ} (hk : k < files.length) {contents : List UInt8}
    (hc : files[k].contents = some contents) {off n : ℕ} (hoff : off ≤ contents.length)
    (hw : ¬ wraps off n) :
    ∃ t, (readEntry (k + 2) off n).run (diskOps kernelSb devsw) (boot s.disk) =
      .ok ((files[k].entryName, attrOf (k + 2) contents.length,
        some ((contents.drop off).take n)), t) := by
  have hslots : files.length + 2 ≤ NSLOTS := hn.trans (by decide)
  have hm : k + 2 < (rootEntries files).length := by
    rw [length_rootEntries]
    omega
  obtain ⟨t, ht⟩ := run_file devsw h hn hk hc hoff hw
  refine ⟨t, ?_⟩
  rw [readEntry, run_lockRoot (root_type_ne h hslots),
    Lib.Prog.run_bind_of_ok (run_readDirent devsw h hslots _ hm), rootEntries_file hk hm]
  show (iget (k + 2) >>= fun ip => readFile ROOTINO ip off n >>= fun r => pure (_, r)).run _ _ = _
  rw [Lib.Prog.run_assoc, Lib.Prog.run_bind_of_ok ht, Lib.Prog.run_pure, Dirent.str_make]
  rfl

/-- A string without a NUL that is cut to a shorter one is that one. -/
theorem eq_of_cstr {t u : Str} {n : ℕ} (ht : 0 ∉ t) (h : cstr n t = u) (hu : u.length < n) :
    t = u := by
  have htake : t.take n = u := by
    rw [← h, cstr]
    refine (List.takeWhile_eq_self_iff.mpr fun c hc => ?_).symm
    simpa using fun e : c = 0 => ht (e ▸ List.mem_of_mem_take hc)
  have hlen : t.length ≤ n := by
    by_contra hgt
    rw [← htake, List.length_take, Nat.min_eq_left (by omega)] at hu
    exact lt_irrefl _ hu
  rwa [List.take_of_length_le hlen] at htake

theorem not_mem_strip {t : Str} (h : 0 ∉ t) : 0 ∉ strip t := by
  cases t with
  | nil => exact h
  | cons c cs =>
      rw [strip]
      split
      · exact fun hc => h (List.mem_cons_of_mem _ hc)
      · exact h

theorem cstr_cstr (n : ℕ) (t : Str) : cstr n (cstr n t) = cstr n t := by
  refine cstr_eq_self (fun h => ?_) (length_cstr_le ..)
  simpa using List.mem_takeWhile_imp h

/-- The entry for a name other than `"."` and `".."` is found at the first file that has it. -/
theorem entry_of_name {k : ℕ} (hk : k < files.length) (hm : k + 2 < (rootEntries files).length)
    (hdots : strip files[k].name ≠ dot ∧ strip files[k].name ≠ dotdot)
    (hfirst : ∀ j (hj : j < files.length), j < k → files[j].entryName ≠ files[k].entryName) :
    (∀ j (hj : j < (rootEntries files).length), j < k + 2 →
      namecmp files[k].entryName (rootEntries files)[j].name ≠ 0) ∧
    namecmp files[k].entryName (rootEntries files)[k + 2].name = 0 := by
  have hcmp : ∀ (t : Str) (inum : ℕ), namecmp files[k].entryName (Dirent.make t inum).name = 0 ↔
      files[k].entryName = cstr DIRSIZ t := by
    intro t inum
    rw [namecmp_eq_zero, HostFile.entryName, cstr_cstr, Dirent.make, cstr_strncpy]
  have hstrip := not_mem_strip files[k].name.2
  constructor
  · intro j hj hlt
    match j with
    | 0 =>
        show namecmp _ (Dirent.make dot ROOTINO).name ≠ 0
        rw [Ne, hcmp]
        exact fun e => hdots.1 (eq_of_cstr hstrip e (by decide))
    | 1 =>
        show namecmp _ (Dirent.make dotdot ROOTINO).name ≠ 0
        rw [Ne, hcmp]
        exact fun e => hdots.2 (eq_of_cstr hstrip e (by decide))
    | j + 2 =>
        rw [rootEntries_file (by omega) hj, Ne, hcmp]
        exact fun e => hfirst j (by omega) (by omega) e.symm
  · rw [rootEntries_file hk hm, hcmp]
    rfl

/-- The name of a file is looked up to the first file of that name. -/
theorem run_readNamed (devsw : Devsw) (h : main files = .ok s) (hn : files.length + 2 ≤ sb.ninodes)
    {k : ℕ} (hk : k < files.length)
    (hdots : strip files[k].name ≠ dot ∧ strip files[k].name ≠ dotdot)
    (hfirst : ∀ j (hj : j < files.length), j < k → files[j].entryName ≠ files[k].entryName)
    {contents : List UInt8} (hc : files[k].contents = some contents) {off n : ℕ}
    (hoff : off ≤ contents.length) (hw : ¬ wraps off n) :
    ∃ t, (readNamed files[k].entryName off n).run (diskOps kernelSb devsw) (boot s.disk) =
      .ok (some (attrOf (k + 2) contents.length, some ((contents.drop off).take n)), t) := by
  have hslots : files.length + 2 ≤ NSLOTS := hn.trans (by decide)
  have hm : k + 2 < (rootEntries files).length := by
    rw [length_rootEntries]
    omega
  obtain ⟨t, ht⟩ := run_file devsw h hn hk hc hoff hw
  obtain ⟨hno, hyes⟩ := entry_of_name hk hm hdots hfirst
  have hlook := run_dirlookup devsw h hslots hm hno hyes
  refine ⟨t, ?_⟩
  rw [readNamed, run_lockRoot (root_type_ne h hslots), Lib.Prog.run_bind_congr hlook,
    rootEntries_file hk hm, ← Lib.Prog.run_assoc]
  show (iget (k + 2) >>= fun ip => readFile ROOTINO ip off n >>= fun r => pure (some r)).run _ _ = _
  rw [Lib.Prog.run_assoc, Lib.Prog.run_bind_of_ok ht, Lib.Prog.run_pure]

/-! ### Inode numbers -/

/-- The inodes that `mkfs` hands out are inodes of the superblock in the inode blocks, the bitmap
overwrites none of them, and the kernel can read every file that the root directory names. -/
structure InodesInBounds (files : List HostFile) (s : Mk) : Prop where
  numbers : ∀ i, 0 < i → i < s.freeinode → i < sb.ninodes
  blocks : ∀ i, 0 < i → i < s.freeinode →
    sb.inodestart ≤ IBLOCK i sb ∧ IBLOCK i sb < sb.bmapstart
  kept : ∀ s', build files = .ok s' → ∀ i, 0 < i → i < s.freeinode →
    s.disk.dinode i = s'.disk.dinode i
  readable : ∀ k (hk : k < files.length), ∃ contents, files[k].contents = some contents ∧
    ∀ devsw off n, off ≤ contents.length → ¬ wraps off n →
      ∃ t, (readEntry (k + 2) off n).run (diskOps kernelSb devsw) (boot s.disk) =
        .ok ((files[k].entryName, attrOf (k + 2) contents.length,
          some ((contents.drop off).take n)), t)

/-- **Inode numbers.**  The inodes stay in the bounds of the superblock exactly up to 198 files. -/
theorem inodes_in_bounds (h : main files = .ok s) :
    InodesInBounds files s ↔ files.length ≤ 198 := by
  have hnum : sb.ninodes = 200 := rfl
  have hslots : NSLOTS = 208 := by decide
  have hino := main_freeinode h
  constructor
  · intro hb
    have := hb.numbers (files.length + 1) (Nat.succ_pos _) (by omega)
    omega
  · intro hn
    have hroom : ∀ i, i < s.freeinode → i < NSLOTS := fun i hi => by omega
    refine ⟨fun i _ hi => by omega, fun i _ hi => ⟨Nat.le_add_left .., iblock_lt (hroom i hi)⟩,
      fun s' hs' i _ hi => ?_, fun k hk => ?_⟩
    · obtain ⟨s₂, hs₂, -, rfl⟩ := main_eq_ok.mp h
      obtain rfl := Except.ok.inj (hs'.symm.trans hs₂)
      exact balloc_dinode (hroom i hi) _
    · obtain ⟨contents, hc⟩ := main_contents h (List.getElem_mem hk)
      exact ⟨contents, hc, fun devsw off n hoff hw =>
        run_readEntry devsw h (by omega) hk hc hoff hw⟩

theorem inodes_in_bounds_one : ∃ s, main (emptyFiles 1) = .ok s ∧ InodesInBounds (emptyFiles 1) s := by
  obtain ⟨s, h⟩ := emptyFiles_ok (n := 1) (by decide)
  exact ⟨s, h, (inodes_in_bounds h).mpr (by decide)⟩

/-- The last of 199 files has the inode number 200. -/
theorem inode_out_of_bounds : ¬ ∀ files s, main files = .ok s → InodesInBounds files s := by
  intro hall
  obtain ⟨s, h⟩ := emptyFiles_ok (n := 199) (by decide)
  have hlen : (emptyFiles 199).length = 199 := List.length_replicate ..
  have := (hall _ s h).numbers 200 (by decide) (by rw [main_freeinode h, hlen]; decide)
  exact absurd this (by decide)

/-! ### The round trip -/

/-- The blocks of the image are owned as the kernel has it. -/
theorem disk_hold (h : main files = .ok s) (hn : files.length + 2 ≤ sb.ninodes) :
    ∃ d : Image, d.Owned slots ∧ s.disk.hold kernelSb = d.hold slots ∧
      ∀ b, d.bit b = decide (b < s.freeblock) := by
  obtain ⟨d, hst, hdata, hbit, hdinode⟩ := main_image h (hn.trans (by decide))
  have hle : sb.ninodes ≤ NSLOTS := by decide
  refine ⟨d, hst.consistent.owned, ?_, hbit⟩
  funext p
  simp only [Image.hold]
  by_cases hp : p.1 < sb.ninodes
  · have hdi := hdinode p.1 (hp.trans_le hle)
    have htype : (s.disk.dinode p.1).type = (d.dinode p.1).type := by
      rw [Mk.disk, hdi]
      split <;> rfl
    have haddr : slotAddr s.disk.data (s.disk.dinode p.1) p.2 = slotAddr d.data (d.dinode p.1) p.2 := by
      rw [hdata, Mk.disk, hdi]
      split
      · cases p.2 <;> rfl
      · rfl
    rw [htype, haddr]
    exact if_congr (and_congr_left fun _ => ⟨fun _ => hp.trans_le hle, fun _ => hp⟩) rfl rfl
  · have hfree := hst.free p.1 (.inr (hn.trans (Nat.le_of_not_lt hp)))
    rw [if_neg fun hc => hp hc.1, if_neg fun hc => hc.2 hfree]

/-- **The round trip.**  On the image of at most 198 files the kernel looks the name of a file up to
the first file of that name, and reads its bytes; no block is used twice, all are data blocks that
have been handed out, and the bitmap marks the blocks below `freeblock`. -/
theorem image_round_trip (h : main files = .ok s) (hn : files.length ≤ 198)
    (hnames : ∀ f ∈ files, strip f.name ≠ [] ∧ strip f.name ≠ dot ∧ strip f.name ≠ dotdot) :
    readsb s.sect = sb ∧
    (∀ k (hk : k < files.length), ∃ contents, files[k].contents = some contents ∧
      ((∀ j (hj : j < files.length), j < k → files[j].entryName ≠ files[k].entryName) →
        ∀ devsw off n, off ≤ contents.length → ¬ wraps off n →
          ∃ t, (readNamed files[k].entryName off n).run (diskOps kernelSb devsw) (boot s.disk) =
            .ok (some (attrOf (k + 2) contents.length, some ((contents.drop off).take n)), t))) ∧
    (∀ p, s.disk.hold kernelSb p ≠ 0 →
      nmeta ≤ s.disk.hold kernelSb p ∧ s.disk.hold kernelSb p < s.freeblock) ∧
    (∀ p q, s.disk.hold kernelSb p ≠ 0 → s.disk.hold kernelSb p = s.disk.hold kernelSb q → p = q) ∧
    ∀ b < BPB, s.disk.bit b = decide (b < s.freeblock) := by
  have hnum : files.length + 2 ≤ sb.ninodes := by
    show _ ≤ 200
    omega
  obtain ⟨d, ho, hhold, hbit⟩ := disk_hold h hnum
  refine ⟨main_super h (hnum.trans (by decide)), fun k hk => ?_, fun p hp => ?_, ?_,
    fun b hb => main_bit h hb⟩
  · obtain ⟨contents, hc⟩ := main_contents h (List.getElem_mem hk)
    refine ⟨contents, hc, fun hfirst devsw off n hoff hw => ?_⟩
    exact run_readNamed devsw h hnum hk (hnames _ (List.getElem_mem hk)).2 hfirst hc hoff hw
  · rw [hhold] at hp ⊢
    refine ⟨(ho.range p hp).1, ?_⟩
    have := ho.marked p hp
    rw [hbit] at this
    exact of_decide_eq_true this
  · rw [hhold]
    exact ho.unique

/-- One file of two bytes. -/
def twoBytes : HostFile := ⟨⟨[95, 97], by decide⟩, some [104, 105]⟩

/-- A file that needs the indirect block. -/
def longFile : HostFile := ⟨⟨[95, 98], by decide⟩, some (List.replicate 7000 7)⟩

/-- Two files, the second of which goes through the indirect block. -/
theorem image_round_trip_two : ∃ s t u, main [twoBytes, longFile] = .ok s ∧
    (readNamed [97] 0 2).run (diskOps kernelSb noDevices) (boot s.disk) =
      .ok (some (attrOf 2 2, some [104, 105]), t) ∧
    (readNamed [98] 6140 20).run (diskOps kernelSb noDevices) (boot s.disk) =
      .ok (some (attrOf 3 7000, some (List.replicate 20 7)), u) := by
  have hlen : (List.replicate 7000 (7 : UInt8)).length = 7000 := List.length_replicate
  have hcost : longFile.cost = 4 + 4 * chunks 7000 := congrArg (4 + 4 * chunks ·) hlen
  obtain ⟨s, h⟩ := @main_ok [twoBytes, longFile] (by decide)
    (List.forall_mem_cons.mpr ⟨⟨by decide, _, rfl, by decide⟩, List.forall_mem_singleton.mpr
      ⟨by decide, _, rfl, by rw [hlen]; decide⟩⟩) (by
    rw [List.map_cons, List.map_singleton, List.sum_cons, List.sum_singleton, hcost]
    decide)
  obtain ⟨-, hfiles, -⟩ := image_round_trip h (by decide)
    (List.forall_mem_cons.mpr ⟨⟨by decide, by decide, by decide⟩, List.forall_mem_singleton.mpr
      ⟨by decide, by decide, by decide⟩⟩)
  obtain ⟨a, ha, hreadA⟩ := hfiles 0 (by decide)
  obtain ⟨b, hb, hreadB⟩ := hfiles 1 (by decide)
  obtain rfl := Option.some.inj ha
  obtain rfl := Option.some.inj hb
  obtain ⟨t, ht⟩ := hreadA (fun j _ hj => absurd hj (Nat.not_lt_zero j)) noDevices 0 2 (by decide)
    (by decide)
  -- no earlier file of the list has the second one's name
  have hfirst : ∀ j (hj : j < [twoBytes, longFile].length), j < 1 →
      [twoBytes, longFile][j].entryName ≠ longFile.entryName := by
    intro j hj h1
    obtain rfl := Nat.lt_one_iff.mp h1
    show twoBytes.entryName ≠ longFile.entryName
    decide
  -- twenty bytes from 6140 on: four of the last direct block, sixteen of the first indirect one
  obtain ⟨u, hu⟩ := hreadB hfirst noDevices 6140 20 (by rw [hlen]; decide) (by decide)
  rw [hlen, List.drop_replicate, List.take_replicate] at hu
  exact ⟨s, t, u, h, ht, hu⟩

end Xv6.Mkfs
