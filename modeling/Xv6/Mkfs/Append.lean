import Xv6.Mkfs.Basic
import Xv6.Fs.Bytes

/-!
# mkfs — appending as the kernel writes

`mkfs` counts blocks up where the kernel searches a bitmap.  On the image whose bitmap marks the
blocks below `freeblock` the two allocate the same blocks, and the loop of `iappend` does what the
kernel's `writei` does at the end of the file (`iappendLoop_sim`).
-/

namespace Xv6.Mkfs

open Fs

/-- The inodes that the inode blocks have room for. -/
def NSLOTS : ℕ := ninodeblocks * IPB

/-- The kernel's layout, with an inode for all of them. -/
def slots : Superblock := ⟨FSSIZE, NSLOTS, nmeta, by decide, by decide⟩

namespace Mk

/-- The file system so far, as an image. -/
def view (s : Mk) : Image where
  bit := fun b => decide (b < s.freeblock)
  dinode := fun i => if i < NSLOTS then (image sb s.sect).dinode i else .blank 0
  data := s.sect

@[simp]
theorem view_data (s : Mk) : s.view.data = s.sect := rfl

/-- The image file has its length and its superblock, and nothing has been written from `freeblock`
on. -/
structure Sane (s : Mk) : Prop where
  nsect : s.nsect = FSSIZE
  super : s.sect 1 = Lib.Bytes.putList (fun _ => 0) 0 sb.encode
  lo : nmeta ≤ s.freeblock
  hi : s.freeblock ≤ FSSIZE
  zero : ∀ b, s.freeblock ≤ b → s.sect b = fun _ => 0

end Mk

variable {s s' : Mk} {di di' : Dinode} {i : Inum} {x : ℕ} {buf : Block}

theorem seek_eq {sec : ℕ} (h : sec < 2 ^ 23) : seek sec = sec := by
  simp only [seek, BSIZE]
  omega

theorem Mk.rsect_eq_ok (hn : s.nsect = FSSIZE) (hx : x < 2 ^ 23) :
    s.rsect x = .ok buf ↔ x < FSSIZE ∧ buf = s.sect x := by
  unfold Mk.rsect
  rw [seek_eq hx, hn]
  split
  · simp [*, eq_comm]
  · simp [*]

theorem Mk.wsect_eq (hn : s.nsect = FSSIZE) (hx : x < FSSIZE) (buf : Block) :
    s.wsect x buf = { s with sect := Function.update s.sect x buf } := by
  have hmax : max s.nsect (x + 1) = s.nsect := by
    rw [hn]
    omega
  have hseek : seek x = x := seek_eq (hx.trans (by decide))
  simp only [Mk.wsect, hseek, hmax]

theorem Mk.Sane.next (hs : s.Sane) (h : s.freeblock < FSSIZE) :
    { s with freeblock := s.freeblock + 1 }.Sane :=
  ⟨hs.nsect, hs.super, hs.lo.trans (Nat.le_succ _), h, fun b hb => hs.zero b (Nat.le_of_succ_le hb)⟩

theorem Mk.Sane.update (hs : s.Sane) (h1 : 1 < x) (hx : x < nmeta ∨ x < s.freeblock) :
    { s with sect := Function.update s.sect x buf }.Sane :=
  ⟨hs.nsect, (Function.update_of_ne (Nat.ne_of_lt h1) _ _).trans hs.super, hs.lo, hs.hi, fun b hb => by
    have hne : b ≠ x := by
      have := hs.lo
      have : s.freeblock ≤ b := hb
      omega
    exact (Function.update_of_ne hne _ _).trans (hs.zero b hb)⟩

theorem one_lt_of_nmeta_le (hx : nmeta ≤ x) : 1 < x := (by decide : 1 < nmeta).trans_le hx

/-! ### One block -/

/-- The first clear bit is that of `freeblock`, a block that is zero already. -/
theorem balloc_view (hs : s.Sane) (h : s.freeblock < FSSIZE) :
    Fs.balloc slots s.view = .ok (s.freeblock, { s with freeblock := s.freeblock + 1 }.view) := by
  have hfind : (List.range slots.size).find? (fun b => !s.view.bit b) = some s.freeblock := by
    rw [List.find?_range_eq_some]
    refine ⟨by simp [Mk.view], List.mem_range.mpr h, fun j hj => by simp [Mk.view, hj]⟩
  have hzero : Function.update s.sect s.freeblock (fun _ => 0) = s.sect := by
    rw [← hs.zero _ le_rfl, Function.update_eq_self]
  have hbit : Function.update s.view.bit s.freeblock true =
      fun b => decide (b < s.freeblock + 1) := by
    funext b
    by_cases hb : b = s.freeblock
    · simp [hb]
    · have : b < s.freeblock + 1 ↔ b < s.freeblock := by omega
      simp [hb, Mk.view, this]
  unfold Fs.balloc
  rw [hfind]
  simp only [bzero, hbit]
  simp only [Mk.view, hzero]

/-- Outside the inode blocks a sector may be written without touching an inode. -/
theorem view_update (hx : nmeta ≤ x) (buf : Block) :
    { s with sect := Function.update s.sect x buf }.view =
      { s.view with data := Function.update s.sect x buf } := by
  have hdinode : ∀ i, i < NSLOTS → IBLOCK i sb ≠ x := by
    intro i hi
    have : i / IPB < ninodeblocks := Nat.div_lt_of_lt_mul (by rwa [Nat.mul_comm])
    have : nmeta = 2 + nlog + ninodeblocks + nbitmap := rfl
    simp only [IBLOCK, sb]
    omega
  simp only [Mk.view, image]
  congr 1
  funext i
  by_cases hi : i < NSLOTS
  · simp only [if_pos hi, Function.update_of_ne (hdinode i hi)]
  · simp only [if_neg hi]

/-- A slot of an inode in memory holds a block that has been handed out. -/
theorem held (slot : Slot) (ho : (s.view.setDinode i di).Owned slots) (hi : i < NSLOTS)
    (ht : di.type ≠ 0) (h0 : slotAddr s.sect di slot ≠ 0) :
    nmeta ≤ slotAddr s.sect di slot ∧ slotAddr s.sect di slot < s.freeblock := by
  have hself : (s.view.setDinode i di).hold slots (i, slot) = slotAddr s.sect di slot :=
    hold_setDinode_self hi ht
  rw [← hself] at h0 ⊢
  exact ⟨(ho.range _ h0).1, of_decide_eq_true (ho.marked _ h0)⟩

/-- The address that `mkfs` takes is the one that the kernel would allocate. -/
theorem addrOrFree_sim {k : Fin (NDIRECT + 1)} (hs : s.Sane) (h : s.addrOrFree di k = (s', di'))
    (hr : s'.rsect (di'.addrs k) = .ok buf) :
    Fs.addrOrAlloc slots s.view di k = .ok (di'.addrs k, s'.view, di') ∧ s'.Sane := by
  unfold Mk.addrOrFree at h
  split at h
  · rename_i h0
    obtain ⟨rfl, rfl⟩ := Prod.mk.inj h
    have hself : (di.setAddr k s.freeblock).addrs k = s.freeblock := by simp [Dinode.setAddr]
    have hlt : s.freeblock < FSSIZE := by
      rw [hself] at hr
      exact ((Mk.rsect_eq_ok hs.nsect (hs.hi.trans_lt (by decide))).mp hr).1
    refine ⟨?_, hs.next hlt⟩
    rw [Fs.addrOrAlloc, if_pos h0, balloc_view hs hlt, hself]
    rfl
  · rename_i h0
    obtain ⟨rfl, rfl⟩ := Prod.mk.inj h
    exact ⟨if_neg h0, hs⟩

/-- So is the entry of the indirect block. -/
theorem entryOrFree_sim (ind : ℕ) {j : ℕ} (hs : s.Sane) (hlo : nmeta ≤ ind) (hhi : ind < s.freeblock)
    (h : s.entryOrFree ind j = .ok (x, s')) (hr : s'.rsect x = .ok buf) :
    Fs.entryOrAlloc slots s.view ind j = .ok (x, s'.view) ∧ s'.Sane := by
  have hind : ind < FSSIZE := hhi.trans_le hs.hi
  obtain ⟨buf₀, hread, h⟩ := Lib.bind_eq_ok.mp h
  obtain ⟨-, rfl⟩ := (Mk.rsect_eq_ok hs.nsect (hind.trans (by decide))).mp hread
  split at h
  · rename_i h0
    simp only [pure, Except.pure, Except.ok.injEq, Prod.mk.injEq] at h
    obtain ⟨rfl, rfl⟩ := h
    have hw := Mk.wsect_eq (s := { s with freeblock := s.freeblock + 1 }) hs.nsect hind
      ((s.sect ind).put32 (4 * j) s.freeblock)
    rw [hw] at hr ⊢
    have hlt : s.freeblock < FSSIZE := by
      refine ((Mk.rsect_eq_ok ?_ (hs.hi.trans_lt (by decide))).mp hr).1
      exact hs.nsect
    refine ⟨?_, (hs.next hlt).update (one_lt_of_nmeta_le hlo) (.inr (Nat.lt_succ_of_lt hhi))⟩
    rw [Fs.entryOrAlloc, if_pos (show indirect (s.view.data ind) j = 0 from h0),
      balloc_view hs hlt, view_update hlo]
    rfl
  · rename_i h0
    simp only [pure, Except.pure, Except.ok.injEq, Prod.mk.injEq] at h
    obtain ⟨rfl, rfl⟩ := h
    exact ⟨if_neg h0, hs⟩

/-- `iappend` finds the block of the file as `bmap` does. -/
theorem blockFor_sim {fbn : ℕ} (hs : s.Sane) (ho : (s.view.setDinode i di).Owned slots)
    (hi : i < NSLOTS) (ht : di.type ≠ 0) (hfbn : fbn < MAXFILE)
    (h : s.blockFor di fbn = .ok (x, s', di')) (hr : s'.rsect x = .ok buf) :
    Fs.bmap slots s.view di fbn = .ok (x, s'.view, di') ∧ s'.Sane := by
  unfold Mk.blockFor at h
  split at h
  · rename_i hdirect
    generalize hfree : s.addrOrFree di (Fin.castSucc ⟨fbn, hdirect⟩) = r at h
    obtain ⟨s₁, di₁⟩ := r
    simp only [Except.ok.injEq, Prod.mk.injEq] at h
    obtain ⟨rfl, rfl, rfl⟩ := h
    rw [Fs.bmap, dif_pos hdirect]
    exact addrOrFree_sim hs hfree hr
  · rename_i hdirect
    generalize hfree : s.addrOrFree di (Fin.last NDIRECT) = r at h
    obtain ⟨s₁, di₁⟩ := r
    obtain ⟨⟨y, s₂⟩, hentry, h⟩ := Lib.bind_eq_ok.mp h
    simp only [pure, Except.pure, Except.ok.injEq, Prod.mk.injEq] at h
    obtain ⟨rfl, rfl, rfl⟩ := h
    obtain ⟨buf₀, hread, -⟩ := Lib.bind_eq_ok.mp hentry
    obtain ⟨haddr, hs₁⟩ := addrOrFree_sim hs hfree hread
    obtain ⟨hg, -, hind⟩ := addrOrAlloc_spec ho hi ht haddr
    obtain ⟨hlo, hhi⟩ := held .ind hg.owned hi (hg.type_ne ht) hind
    obtain ⟨hent, hs₂⟩ := entryOrFree_sim (di₁.addrs (Fin.last NDIRECT)) hs₁ hlo hhi hentry hr
    have hj : fbn - NDIRECT < NINDIRECT := by
      simp only [MAXFILE] at hfbn
      omega
    refine ⟨?_, hs₂⟩
    rw [Fs.bmap, dif_neg hdirect, if_pos hj, haddr]
    show (Fs.entryOrAlloc slots s₁.view (di₁.addrs (Fin.last NDIRECT)) _).bind _ = _
    rw [hent]
    rfl

/-! ### The loop -/

/-- A pass ends where one of the kernel's ends, and starts where it starts. -/
theorem pass_length (n off : ℕ) :
    min n ((off / BSIZE + 1) * BSIZE - off) = min n (BSIZE - off % BSIZE) := by
  simp only [BSIZE]
  omega

theorem pass_offset (off : ℕ) : off - off / BSIZE * BSIZE = off % BSIZE := by
  simp only [BSIZE]
  omega

/-- **Appending is writing.**  The loop of `iappend` does to the image what the loop of the kernel's
`writei` does. -/
theorem iappendLoop_sim (hi : i < NSLOTS) (fuel : ℕ) :
    ∀ {s di} (off : ℕ) (p : List UInt8) {off' : ℕ}, p.length ≤ fuel → s.Sane →
      (s.view.setDinode i di).Owned slots → di.type ≠ 0 →
        iappendLoop fuel s di off p = .ok (s', di', off') →
          writeiLoop slots fuel s.view di off p = .ok (s'.view, di') ∧ s'.Sane ∧
            off' = off + p.length := by
  induction fuel with
  | zero =>
      intro s di off p off' hp hs _ _ h
      simp only [iappendLoop, Except.ok.injEq, Prod.mk.injEq] at h
      obtain ⟨rfl, rfl, rfl⟩ := h
      exact ⟨rfl, hs, by omega⟩
  | succ fuel ih =>
      intro s di off p off' hp hs ho ht h
      rw [iappendLoop] at h
      rw [writeiLoop]
      split at h
      · rename_i h0
        simp only [Except.ok.injEq, Prod.mk.injEq] at h
        obtain ⟨rfl, rfl, rfl⟩ := h
        exact ⟨if_pos h0, hs, by omega⟩
      · rename_i h0
        dsimp only at h
        split at h
        · cases h
        · rename_i hfbn
          obtain ⟨⟨x, s₁, di₁⟩, hblock, h⟩ := Lib.bind_eq_ok.mp h
          obtain ⟨buf, hread, h⟩ := Lib.bind_eq_ok.mp h
          obtain ⟨hbmap, hs₁⟩ := blockFor_sim hs ho hi ht (by omega) hblock hread
          obtain ⟨hg, slot, hslot, rfl, hx0⟩ := bmap_spec ho hi ht hbmap
          have ht₁ := hg.type_ne ht
          obtain ⟨hlo, hhi⟩ := held _ hg.owned hi ht₁ hx0
          have hlt := hhi.trans_le hs₁.hi
          obtain ⟨-, rfl⟩ := (Mk.rsect_eq_ok hs₁.nsect (hlt.trans (by decide))).mp hread
          have hpos := pass_pos h0 off
          simp only [pass_length, pass_offset, Mk.view_data, Mk.wsect_eq hs₁.nsect hlt] at h
          have hw := Extends.write hg.owned hi ht₁ (indexSlot_ne_ind hslot)
            ((s₁.sect (slotAddr s₁.sect di₁ slot)).putList (off % BSIZE)
              (p.take (min p.length (BSIZE - off % BSIZE))))
          have hview := view_update hlo (s := s₁) ((s₁.sect (slotAddr s₁.sect di₁ slot)).putList
            (off % BSIZE) (p.take (min p.length (BSIZE - off % BSIZE))))
          obtain ⟨hloop, hs', hoff'⟩ := ih _ _ (by rw [List.length_drop]; omega) (hs₁.update (one_lt_of_nmeta_le hlo) (.inr hhi))
            (by rw [hview]; exact hw.owned) ht₁ h
          refine ⟨?_, hs', ?_⟩
          · rw [if_neg h0, hbmap]
            rw [hview] at hloop
            exact hloop
          · rw [hoff', List.length_drop]
            omega

/-! ### What appending leaves alone -/

theorem addrOrFree_frame {k : Fin (NDIRECT + 1)} (h : s.addrOrFree di k = (s', di')) :
    s'.freeinode = s.freeinode ∧ s.freeblock ≤ s'.freeblock ∧
      ∀ k', k' ≠ k → di'.addrs k' = di.addrs k' := by
  unfold Mk.addrOrFree at h
  split at h <;> obtain ⟨rfl, rfl⟩ := Prod.mk.inj h
  · exact ⟨rfl, Nat.le_succ _, fun k' hk => Function.update_of_ne hk _ _⟩
  · exact ⟨rfl, le_rfl, fun _ _ => rfl⟩

theorem entryOrFree_frame {ind j : ℕ} (h : s.entryOrFree ind j = .ok (x, s')) :
    s'.freeinode = s.freeinode ∧ s.freeblock ≤ s'.freeblock := by
  obtain ⟨buf, -, h⟩ := Lib.bind_eq_ok.mp h
  split at h <;>
    · simp only [pure, Except.pure, Except.ok.injEq, Prod.mk.injEq] at h
      obtain ⟨-, rfl⟩ := h
      simp [Mk.wsect]

/-- Finding one block leaves the others. -/
theorem blockFor_frame {fbn : ℕ} (h : s.blockFor di fbn = .ok (x, s', di')) :
    s'.freeinode = s.freeinode ∧ s.freeblock ≤ s'.freeblock ∧
      ∀ k : Fin NDIRECT, (k : ℕ) ≠ fbn → di'.addrs k.castSucc = di.addrs k.castSucc := by
  unfold Mk.blockFor at h
  split at h
  · rename_i hdirect
    generalize hfree : s.addrOrFree di (Fin.castSucc ⟨fbn, hdirect⟩) = r at h
    obtain ⟨s₁, di₁⟩ := r
    simp only [Except.ok.injEq, Prod.mk.injEq] at h
    obtain ⟨-, rfl, rfl⟩ := h
    obtain ⟨hino, hblk, hother⟩ := addrOrFree_frame hfree
    exact ⟨hino, hblk, fun k hk => hother _ fun e => hk (congrArg Fin.val e)⟩
  · generalize hfree : s.addrOrFree di (Fin.last NDIRECT) = r at h
    obtain ⟨s₁, di₁⟩ := r
    obtain ⟨⟨y, s₂⟩, hentry, h⟩ := Lib.bind_eq_ok.mp h
    simp only [pure, Except.pure, Except.ok.injEq, Prod.mk.injEq] at h
    obtain ⟨-, rfl, rfl⟩ := h
    obtain ⟨hino, hblk, hother⟩ := addrOrFree_frame hfree
    obtain ⟨hino', hblk'⟩ := entryOrFree_frame hentry
    exact ⟨hino'.trans hino, hblk.trans hblk', fun k _ => hother _ (Fin.castSucc_lt_last k).ne⟩

/-- The loop leaves the blocks that it does not reach. -/
theorem iappendLoop_frame (fuel : ℕ) : ∀ {s di} (off : ℕ) (p : List UInt8) {off' : ℕ},
    iappendLoop fuel s di off p = .ok (s', di', off') →
      s'.freeinode = s.freeinode ∧ s.freeblock ≤ s'.freeblock ∧
        ∀ k : Fin NDIRECT, ¬ Spans off p.length k → di'.addrs k.castSucc = di.addrs k.castSucc := by
  induction fuel with
  | zero =>
      intro s di off p off' h
      simp only [iappendLoop, Except.ok.injEq, Prod.mk.injEq] at h
      obtain ⟨rfl, rfl, -⟩ := h
      exact ⟨rfl, le_rfl, fun _ _ => rfl⟩
  | succ fuel ih =>
      intro s di off p off' h
      rw [iappendLoop] at h
      split at h
      · simp only [Except.ok.injEq, Prod.mk.injEq] at h
        obtain ⟨rfl, rfl, -⟩ := h
        exact ⟨rfl, le_rfl, fun _ _ => rfl⟩
      · rename_i h0
        dsimp only at h
        split at h
        · cases h
        · obtain ⟨⟨x, s₁, di₁⟩, hblock, h⟩ := Lib.bind_eq_ok.mp h
          obtain ⟨buf, -, h⟩ := Lib.bind_eq_ok.mp h
          obtain ⟨hino, hblk, hother⟩ := blockFor_frame hblock
          obtain ⟨hino', hblk', hother'⟩ := ih _ _ h
          refine ⟨hino'.trans hino, hblk.trans hblk', fun k hk => ?_⟩
          rw [hother' k, hother k]
          · exact fun e => hk (e ▸ .first h0)
          · rw [List.length_drop, pass_length]
            exact fun h => hk h.of_rest

end Xv6.Mkfs
