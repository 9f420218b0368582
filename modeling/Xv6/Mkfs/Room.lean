import Xv6.Mkfs.Contents

/-!
# mkfs — when there is room

`mkfs` fails where a block number has no sector, or a file has too many blocks.  An append takes at
most two blocks a pass, so a command line whose files need few enough of them is written
(`addFiles_ok`).
-/

namespace Xv6.Mkfs

open Fs

variable {s s' : Mk} {di di' : Dinode} {i : ℕ} {file : ℕ → List UInt8}

/-! ### The loop -/

theorem rsect_ok (hn : s.nsect = FSSIZE) {x : ℕ} (hx : x < FSSIZE) : s.rsect x = .ok (s.sect x) :=
  (Mk.rsect_eq_ok hn (hx.trans (by decide))).mpr ⟨hx, rfl⟩

/-- An address takes one block at most. -/
theorem addrOrFree_ok {k : Fin (NDIRECT + 1)} (hs : s.Sane)
    (hheld : di.addrs k ≠ 0 → di.addrs k < FSSIZE) (hroom : s.freeblock < FSSIZE)
    (h : s.addrOrFree di k = (s', di')) :
    di'.addrs k < FSSIZE ∧ s'.nsect = FSSIZE ∧ s'.freeblock ≤ s.freeblock + 1 := by
  unfold Mk.addrOrFree at h
  split at h <;> obtain ⟨rfl, rfl⟩ := Prod.mk.inj h
  · exact ⟨by simpa [Dinode.setAddr] using hroom, hs.nsect, le_rfl⟩
  · exact ⟨hheld ‹_›, hs.nsect, Nat.le_succ _⟩

/-- A block of the file is found or taken, while there are two left. -/
theorem blockFor_ok {fbn : ℕ} (hs : s.Sane) (ho : (s.view.setDinode i di).Owned slots)
    (hi : i < NSLOTS) (ht : di.type ≠ 0) (hfbn : fbn < MAXFILE)
    (hroom : s.freeblock + 2 ≤ FSSIZE) :
    ∃ x s' di', s.blockFor di fbn = .ok (x, s', di') ∧ s'.freeblock ≤ s.freeblock + 2 ∧
      ∃ buf, s'.rsect x = .ok buf := by
  have hheld : ∀ k, di.addrs k ≠ 0 → di.addrs k < FSSIZE := fun k h0 =>
    (held (.addr k) ho hi ht h0).2.trans_le hs.hi
  unfold Mk.blockFor
  split
  · rename_i hdirect
    generalize hfree : s.addrOrFree di (Fin.castSucc ⟨fbn, hdirect⟩) = r
    obtain ⟨s₁, di₁⟩ := r
    obtain ⟨hx, hn, hblk⟩ := addrOrFree_ok hs (hheld _) (by omega) hfree
    exact ⟨_, s₁, di₁, rfl, by omega, _, rsect_ok hn hx⟩
  · generalize hfree : s.addrOrFree di (Fin.last NDIRECT) = r
    obtain ⟨s₁, di₁⟩ := r
    obtain ⟨hind, hn, hblk⟩ := addrOrFree_ok hs (hheld _) (by omega) hfree
    have hread := rsect_ok hn hind
    obtain ⟨haddr, hs₁⟩ := addrOrFree_sim hs hfree hread
    obtain ⟨hg, -, hind0⟩ := addrOrAlloc_spec ho hi ht haddr
    have hentry : s₁.entryOrFree (di₁.addrs (Fin.last NDIRECT)) (fbn - NDIRECT) =
        if indirect (s₁.sect (di₁.addrs (Fin.last NDIRECT))) (fbn - NDIRECT) = 0 then
          .ok (s₁.freeblock, { s₁ with freeblock := s₁.freeblock + 1 }.wsect
            (di₁.addrs (Fin.last NDIRECT))
            ((s₁.sect (di₁.addrs (Fin.last NDIRECT))).put32 (4 * (fbn - NDIRECT)) s₁.freeblock))
        else .ok (indirect (s₁.sect (di₁.addrs (Fin.last NDIRECT))) (fbn - NDIRECT), s₁) := by
      rw [Mk.entryOrFree, hread]
      rfl
    -- The second block, for an entry that is missing.
    by_cases h0 : indirect (s₁.sect (di₁.addrs (Fin.last NDIRECT))) (fbn - NDIRECT) = 0
    · rw [if_pos h0] at hentry
      have hlt : s₁.freeblock < FSSIZE := by omega
      have hw := Mk.wsect_eq (s := { s₁ with freeblock := s₁.freeblock + 1 }) hn hind
        ((s₁.sect (di₁.addrs (Fin.last NDIRECT))).put32 (4 * (fbn - NDIRECT)) s₁.freeblock)
      rw [hw] at hentry
      simp only [hentry, bind, Except.bind]
      refine ⟨_, _, _, rfl, ?_, _, rsect_ok ?_ hlt⟩
      · show s₁.freeblock + 1 ≤ _
        omega
      · exact hn
    · rw [if_neg h0] at hentry
      have hj : fbn - NDIRECT < NINDIRECT := by
        simp only [MAXFILE] at hfbn
        omega
      have hvia : slotAddr s₁.sect di₁ (.via ⟨fbn - NDIRECT, hj⟩) =
          indirect (s₁.sect (di₁.addrs (Fin.last NDIRECT))) (fbn - NDIRECT) := if_neg hind0
      have hlt := (held (.via ⟨fbn - NDIRECT, hj⟩) hg.owned hi (hg.type_ne ht)
        (by rw [hvia]; exact h0)).2.trans_le hs₁.hi
      rw [hvia] at hlt
      simp only [hentry, bind, Except.bind]
      exact ⟨_, _, _, rfl, by omega, _, rsect_ok hn hlt⟩

/-- The number of passes of the loop of `iappend`. -/
def passes (off n : ℕ) : ℕ := if n = 0 then 0 else (off % BSIZE + n + (BSIZE - 1)) / BSIZE

/-- The loop of `iappend` takes one pass for each block it reaches. -/
theorem passes_succ (off : ℕ) {n : ℕ} (h : n ≠ 0) :
    passes off n = passes (off + min n (BSIZE - off % BSIZE)) (n - min n (BSIZE - off % BSIZE)) + 1 := by
  simp only [passes, if_neg h]
  by_cases hm : n - min n (BSIZE - off % BSIZE) = 0
  · rw [if_pos hm]
    simp only [BSIZE] at hm ⊢
    omega
  · rw [if_neg hm]
    simp only [BSIZE] at hm ⊢
    omega

/-- The loop of `iappend` returns, while there are blocks enough. -/
theorem iappendLoop_ok (hi : i < NSLOTS) (fuel : ℕ) :
    ∀ {s di} (off : ℕ) (p : List UInt8), p.length ≤ fuel → s.Sane →
      (s.view.setDinode i di).Owned slots → di.type ≠ 0 → off + p.length ≤ MAXFILE * BSIZE →
        s.freeblock + 2 * passes off p.length ≤ FSSIZE →
          ∃ s' di' off', iappendLoop fuel s di off p = .ok (s', di', off') ∧
            s'.freeblock ≤ s.freeblock + 2 * passes off p.length := by
  induction fuel with
  | zero =>
      intro s di off p _ _ _ _ _ _
      exact ⟨s, di, off, rfl, by omega⟩
  | succ fuel ih =>
      intro s di off p hp hs ho ht hmax hroom
      rw [iappendLoop]
      by_cases h0 : p.length = 0
      · exact ⟨s, di, off, if_pos h0, by omega⟩
      · have hpasses := passes_succ off h0
        have hfbn : off / BSIZE < MAXFILE := by
          simp only [MAXFILE, NDIRECT, NINDIRECT, BSIZE] at hmax ⊢
          omega
        obtain ⟨x, s₁, di₁, hblock, hblk, buf, hread⟩ := blockFor_ok hs ho hi ht hfbn (by omega)
        obtain ⟨hbmap, hs₁⟩ := blockFor_sim hs ho hi ht hfbn hblock hread
        obtain ⟨hg, slot, hslot, rfl, hx0⟩ := bmap_spec ho hi ht hbmap
        rw [Mk.view_data] at hread
        have ht₁ := hg.type_ne ht
        obtain ⟨hlo, hhi⟩ := held _ hg.owned hi ht₁ hx0
        have hlt := hhi.trans_le hs₁.hi
        have hw := Extends.write hg.owned hi ht₁ (indexSlot_ne_ind hslot)
          (buf.putList (off % BSIZE) (p.take (min p.length (BSIZE - off % BSIZE))))
        have hview := view_update hlo (s := s₁) (buf.putList (off % BSIZE)
          (p.take (min p.length (BSIZE - off % BSIZE))))
        have hpos := pass_pos h0 off
        have hlen : (p.drop (min p.length (BSIZE - off % BSIZE))).length =
            p.length - min p.length (BSIZE - off % BSIZE) := List.length_drop ..
        obtain ⟨s', di', off', hloop, hblk'⟩ := ih (off + min p.length (BSIZE - off % BSIZE))
          (p.drop (min p.length (BSIZE - off % BSIZE))) (by omega)
          (hs₁.update (one_lt_of_nmeta_le hlo) (.inr hhi)) (by rw [hview]; exact hw.owned) ht₁
          (by omega) (by rw [hlen]; show s₁.freeblock + _ ≤ _; omega)
        refine ⟨s', di', off', ?_, ?_⟩
        · simp only [if_neg h0, if_neg (Nat.not_le.mpr hfbn), hblock, bind, Except.bind, hread,
            pass_length, pass_offset, Mk.view_data, Mk.wsect_eq hs₁.nsect hlt]
          exact hloop
        · rw [hlen] at hblk'
          have : s'.freeblock ≤ s₁.freeblock + _ := hblk'
          omega

/-! ### Files -/

/-- One `iappend` of a block at most takes four blocks at most. -/
theorem Holds.iappend_ok (h : Holds s file) (hi : 0 < i) (hlt : i < s.freeinode) {p : List UInt8}
    (hp : p.length ≤ BSIZE) (hmax : (file i).length + p.length ≤ MAXFILE * BSIZE)
    (hroom : s.freeblock + 4 ≤ FSSIZE) :
    ∃ s', s.iappend i p = .ok s' ∧ s'.freeblock ≤ s.freeblock + 4 := by
  have hslot : i < NSLOTS := hlt.trans_le h.room
  have ho : (s.view.setDinode i (s.view.dinode i)).Owned slots := by
    rw [setDinode_self]
    exact h.stores.consistent.owned
  have hpasses : passes (file i).length p.length ≤ 2 := by
    unfold passes
    split
    · omega
    · simp only [BSIZE] at hp ⊢
      omega
  have hsize := h.stores.size hi hlt
  obtain ⟨s₁, di, off, hloop, hblk⟩ := iappendLoop_ok hslot _ (s.view.dinode i).size p le_rfl
    h.toSane ho (h.stores.type_ne hi hlt) (by omega) (by rw [hsize]; omega)
  have hs₁ := (iappendLoop_sim hslot _ _ p le_rfl h.toSane ho (h.stores.type_ne hi hlt) hloop).2.1
  refine ⟨s₁.setInode i { di with size := off }, ?_, ?_⟩
  · rw [Mk.iappend, rinode_eq h.nsect hslot]
    simp only [bind, Except.bind, hloop]
    exact winode_eq hs₁.nsect hslot _
  · rw [hsize] at hblk
    show s₁.freeblock ≤ _
    omega

/-- The number of times the loop of `main` reads a file. -/
def chunks (n : ℕ) : ℕ := (n + (BSIZE - 1)) / BSIZE

/-- A file is copied, while there are four blocks for each chunk. -/
theorem Holds.copyLoop_ok (fuel : ℕ) : ∀ {s file} (rest : List UInt8), rest.length ≤ fuel →
    Holds s file → 0 < i → i < s.freeinode → (file i).length + rest.length ≤ MAXFILE * BSIZE →
      s.freeblock + 4 * chunks rest.length ≤ FSSIZE →
        ∃ s', Mkfs.copyLoop i fuel s rest = .ok s' ∧
          s'.freeblock ≤ s.freeblock + 4 * chunks rest.length := by
  induction fuel with
  | zero =>
      intro s file rest _ _ _ _ _ _
      exact ⟨s, rfl, by omega⟩
  | succ fuel ih =>
      intro s file rest hlen h hi hlt hmax hroom
      rw [Mkfs.copyLoop]
      by_cases h0 : rest.length = 0
      · exact ⟨s, if_pos h0, by omega⟩
      · have htake : (rest.take BSIZE).length = min BSIZE rest.length := List.length_take ..
        have hdrop : (rest.drop BSIZE).length = rest.length - BSIZE := List.length_drop ..
        have hchunks : chunks rest.length = chunks (rest.length - BSIZE) + 1 := by
          simp only [chunks, BSIZE]
          omega
        have hpos : 0 < BSIZE := by decide
        obtain ⟨s₁, ha, hblk⟩ := h.iappend_ok (p := rest.take BSIZE) hi hlt (by omega) (by omega)
          (by omega)
        obtain ⟨h₁, hino⟩ := h.iappend hi hlt ha
        obtain ⟨s', hs', hblk'⟩ := ih (rest.drop BSIZE) (by omega) h₁ hi (hino ▸ hlt)
          (by rw [Function.update_self, List.length_append]; omega) (by rw [hdrop]; omega)
        refine ⟨s', ?_, by rw [hdrop] at hblk'; omega⟩
        rw [if_neg h0, ha]
        exact hs'

/-- What the file takes at most. -/
def HostFile.cost (f : HostFile) : ℕ := 4 + 4 * chunks (f.contents.getD []).length

/-- The name of the file is accepted, the file can be opened, and it is not too large. -/
def HostFile.Good (f : HostFile) : Prop :=
  slash ∉ f.name.1 ∧ ∃ contents, f.contents = some contents ∧ contents.length ≤ MAXFILE * BSIZE

/-- The pass of `main` for one file returns. -/
theorem Holds.addFile_ok {files : List HostFile} {f : HostFile} (h : Holds s (contentsOf files))
    (hn : s.freeinode = files.length + 2) (hslots : s.freeinode < NSLOTS) (hf : f.Good)
    (hroom : s.freeblock + f.cost ≤ FSSIZE) :
    ∃ s', Mkfs.addFile s f = .ok s' ∧ s'.freeblock ≤ s.freeblock + f.cost := by
  obtain ⟨hname, contents, hc, hmax⟩ := hf
  have hcost : f.cost = 4 + 4 * chunks contents.length := by simp [HostFile.cost, hc]
  have hne : s.freeinode ≠ ROOTINO := by rw [hn]; simp [ROOTINO]
  have h208 : NSLOTS = 208 := by decide
  obtain ⟨s₁, h₁, hino₁, hh₁⟩ := h.ialloc (by omega) hslots (if_neg hne).symm
  have hblk₁ := (ialloc_counts h₁).2.2
  have hroot : ROOTINO < s₁.freeinode := by
    rw [hino₁, hn]
    simp [ROOTINO]
  have hlen : (Dirent.make (strip f.name) s.freeinode).encode.length = DESIZE :=
    Dirent.length_encode (Dirent.length_make_name ..)
  obtain ⟨s₂, h₂, hblk₂⟩ := hh₁.iappend_ok (p := (Dirent.make (strip f.name) s.freeinode).encode)
    (by decide) hroot (by rw [hlen]; decide) (by
      rw [Function.update_of_ne hne.symm, length_root, hlen]
      simp only [DESIZE, DIRSIZ, MAXFILE, NDIRECT, NINDIRECT, BSIZE]
      omega) (by omega)
  obtain ⟨hh₂, hino₂⟩ := hh₁.iappend (by decide) hroot h₂
  obtain ⟨s₃, h₃, hblk₃⟩ := hh₂.copyLoop_ok (i := s.freeinode) _ contents le_rfl (by omega)
    (by omega) (by
      rw [Function.update_of_ne hne, Function.update_self]
      simpa using hmax) (by omega)
  exact ⟨s₃, addFile_eq_ok.mpr ⟨hname, contents, hc, _, s₁, s₂, h₁, h₂, h₃⟩, by omega⟩

/-- `main` returns for all files, while there are blocks enough. -/
theorem addFiles_ok (rest : List HostFile) : ∀ {s files}, Holds s (contentsOf files) →
    s.freeinode = files.length + 2 → files.length + rest.length + 2 ≤ NSLOTS →
      (∀ f ∈ rest, f.Good) → s.freeblock + (rest.map HostFile.cost).sum ≤ FSSIZE →
        ∃ s', rest.foldlM addFile s = .ok s' := by
  induction rest with
  | nil => exact fun {s files} _ _ _ _ _ => ⟨s, rfl⟩
  | cons f rest ih =>
      intro s files h hn hslots hgood hroom
      rw [List.map_cons, List.sum_cons] at hroom
      rw [List.length_cons] at hslots
      obtain ⟨s₁, h₁, hblk⟩ := h.addFile_ok hn (by omega) (hgood f (List.mem_cons_self ..)) (by omega)
      obtain ⟨hh₁, hn₁⟩ := h.addFile hn (by omega) h₁
      obtain ⟨s', hs'⟩ := ih hh₁ hn₁ (by rw [List.length_append, List.length_singleton]; omega)
        (fun g hg => hgood g (List.mem_cons_of_mem _ hg)) (by omega)
      refine ⟨s', ?_⟩
      rw [List.foldlM_cons, h₁]
      exact hs'

/-- The root is made. -/
theorem makeRoot_ok : ∃ s, makeRoot = .ok s ∧ s.freeblock ≤ nmeta + 8 := by
  have hone : blank.freeinode = 1 := congrArg Mk.freeinode blank_eq
  have hblk : blank.freeblock = nmeta := congrArg Mk.freeblock blank_eq
  have hdir : T_DIR = if blank.freeinode = ROOTINO then T_DIR else T_FILE := by
    rw [hone]
    rfl
  obtain ⟨s₁, h₁, hino₁, hh₁⟩ := blank_holds.ialloc (by rw [hone]; decide) (by rw [hone]; decide) hdir
  have hblk₁ := (ialloc_counts h₁).2.2
  rw [hone] at h₁ hino₁ hh₁
  rw [hblk] at hblk₁
  have hmeta : nmeta = 59 := by decide
  have hfs : FSSIZE = 1000 := rfl
  have hempty : Function.update (contentsOf []) 1 [] ROOTINO = [] := rfl
  have hroot₁ : ROOTINO < s₁.freeinode := by
    rw [hino₁]
    decide
  have hdot : (Dirent.make dot 1).encode.length = DESIZE := rfl
  have hdotdot : (Dirent.make dotdot 1).encode.length = DESIZE := rfl
  obtain ⟨s₂, h₂, hblk₂⟩ := hh₁.iappend_ok (p := (Dirent.make dot 1).encode) (by decide) hroot₁
    (by rw [hdot]; decide) (by rw [hempty, hdot]; decide) (by omega)
  obtain ⟨hh₂, hino₂⟩ := hh₁.iappend (by decide) hroot₁ h₂
  obtain ⟨s₃, h₃, hblk₃⟩ := hh₂.iappend_ok (p := (Dirent.make dotdot 1).encode) (by decide)
    (hino₂ ▸ hroot₁) (by rw [hdotdot]; decide) (by
      rw [Function.update_self, hempty, List.nil_append, hdot, hdotdot]
      decide) (by omega)
  refine ⟨s₃, ?_, by omega⟩
  rw [makeRoot, h₁]
  simp only [bind, Except.bind]
  rw [if_neg (by decide), show s₁.iappend 1 _ = .ok s₂ from h₂]
  exact h₃

end Xv6.Mkfs
