import Xv6.Fs.Ownership

/-!
# File system — a file of the greatest size

An image on which the inode 1 has every block an inode can have: `fullImage`, with the contents and
the type of that inode left open.  What the limit on the size of a file does to the calls is looked
at on such images.
-/

namespace Xv6.Fs

open Lib

/-- The greatest size of a file. -/
def LIMIT : ℕ := MAXFILE * BSIZE

/-- A disk of 256 blocks. -/
def fullDisk : Superblock := ⟨256, 3, 20, by decide, by decide⟩

/-- The indirect block: the blocks from 32 on. -/
def indirectBlock : Block := fun x => if x.val % 4 = 0 then UInt8.ofNat (32 + x.val / 4) else 0

/-- A file of the greatest length. -/
def fullDinode (type nlink : ℤ) : Dinode :=
  ⟨type, 0, 0, nlink, LIMIT, fun k => if k = Fin.last NDIRECT then 160 else 20 + k⟩

/-- The inode 1 is full, the inode 2 is empty. -/
def fullImage (type₁ nlink₁ type₂ nlink₂ : ℤ) (content : ℕ → Block) : Image where
  bit := (· < 161)
  dinode := fun i => if i = 1 then fullDinode type₁ nlink₁
    else if i = 2 then ⟨type₂, 0, 0, nlink₂, 0, fun _ => 0⟩ else .blank 0
  data := fun b => if b = 160 then indirectBlock else content b

/-- The block in each place of the inode 1. -/
def slotBlock : Slot → ℕ
  | .addr k => if k = Fin.last NDIRECT then 160 else 20 + k
  | .via j => 32 + j

variable {type₁ nlink₁ type₂ nlink₂ : ℤ} {content : ℕ → Block} {slot slot' : Slot} {bn : ℕ}

/-- The entries of the indirect block. -/
theorem indirect_indirectBlock (j : Fin NINDIRECT) : indirect indirectBlock j = 32 + j := by
  have hj : (j : ℕ) < 128 := j.2
  have h8 : ∀ o < 512, indirectBlock.get8 o = if o % 4 = 0 then UInt8.ofNat (32 + o / 4) else 0 :=
    fun o ho => dif_pos ho
  rw [indirect, Bytes.get32, h8 _ (by omega), h8 _ (by omega), h8 _ (by omega), h8 _ (by omega),
    if_pos (by omega), if_neg (by omega), if_neg (by omega), if_neg (by omega),
    Nat.mul_div_cancel_left _ (by decide), UInt8.toNat_ofNat']
  simp
  omega

/-- The addresses of the one file. -/
theorem slotAddr_full (slot : Slot) :
    slotAddr (fullImage type₁ nlink₁ type₂ nlink₂ content).data (fullDinode type₁ nlink₁) slot =
      slotBlock slot := by
  cases slot with
  | addr k => rfl
  | via j =>
      have hind : (fullDinode type₁ nlink₁).addrs (Fin.last NDIRECT) = 160 := by simp [fullDinode]
      rw [slotAddr, hind, if_neg (by decide)]
      exact indirect_indirectBlock j

/-- They are the data blocks of the disk. -/
theorem slotBlock_range (slot : Slot) : 20 ≤ slotBlock slot ∧ slotBlock slot < 161 := by
  cases slot with
  | addr k =>
      have hk : (k : ℕ) < 13 := k.2
      have hlast : k = Fin.last NDIRECT ↔ (k : ℕ) = 12 := Fin.ext_iff
      rw [slotBlock]
      split <;> omega
  | via j =>
      have hj : (j : ℕ) < 128 := j.2
      rw [slotBlock]
      omega

/-- No two slots of the file share a block. -/
theorem slotBlock_injective (h : slotBlock slot = slotBlock slot') : slot = slot' := by
  have hlast : ∀ k : Fin (NDIRECT + 1), k = Fin.last NDIRECT ↔ (k : ℕ) = 12 := fun _ => Fin.ext_iff
  cases slot with
  | addr k =>
      have hk : (k : ℕ) < 13 := k.2
      cases slot' with
      | addr k' =>
          have hk' : (k' : ℕ) < 13 := k'.2
          refine congrArg Slot.addr (Fin.ext ?_)
          simp only [slotBlock, hlast] at h
          split at h <;> split at h <;> omega
      | via j =>
          have hj : (j : ℕ) < 128 := j.2
          simp only [slotBlock, hlast] at h
          split at h <;> omega
  | via j =>
      have hj : (j : ℕ) < 128 := j.2
      cases slot' with
      | addr k =>
          have hk : (k : ℕ) < 13 := k.2
          simp only [slotBlock, hlast] at h
          split at h <;> omega
      | via j' =>
          refine congrArg Slot.via (Fin.ext ?_)
          simpa only [slotBlock, Nat.add_left_cancel_iff] using h

/-- The file has all the blocks of the disk. -/
theorem slotBlock_surjective {b : ℕ} (hlo : 20 ≤ b) (hhi : b < 161) : ∃ slot, slotBlock slot = b := by
  by_cases h32 : b < 32
  · refine ⟨.addr (Fin.castSucc ⟨b - 20, by show _ < 12; omega⟩), ?_⟩
    rw [slotBlock, if_neg (Fin.castSucc_lt_last _).ne]
    simp only [Fin.val_castSucc]
    omega
  · by_cases h160 : b < 160
    · refine ⟨.via ⟨b - 32, by show _ < 128; omega⟩, ?_⟩
      rw [slotBlock]
      dsimp only
      omega
    · refine ⟨.ind, ?_⟩
      rw [slotBlock, if_pos rfl]
      omega

/-- The one inode holds them all. -/
theorem hold_full (ht : type₁ ≠ 0) (p : Inum × Slot) :
    (fullImage type₁ nlink₁ type₂ nlink₂ content).hold fullDisk p =
      if p.1 = 1 then slotBlock p.2 else 0 := by
  have h1 : 1 < fullDisk.ninodes := by decide
  by_cases hp : p.1 = 1
  · rw [if_pos hp, Image.hold]
    have hd : (fullImage type₁ nlink₁ type₂ nlink₂ content).dinode p.1 = fullDinode type₁ nlink₁ :=
      if_pos hp
    rw [hd, hp, if_pos ⟨h1, ht⟩, slotAddr_full]
  · rw [if_neg hp, Image.hold]
    have haddrs : ((fullImage type₁ nlink₁ type₂ nlink₂ content).dinode p.1).addrs = fun _ => 0 := by
      show (if p.1 = 1 then _ else if p.1 = 2 then _ else _ : Dinode).addrs = _
      rw [if_neg hp]
      split <;> rfl
    rw [slotAddr_blank haddrs, ite_self]

/-- **The image is consistent.** -/
theorem fullImage_consistent (ht : type₁ ≠ 0) :
    (fullImage type₁ nlink₁ type₂ nlink₂ content).Consistent fullDisk where
  owned := by
    have hheld : ∀ {p : Inum × Slot}, (if p.1 = 1 then slotBlock p.2 else 0) ≠ 0 → p.1 = 1 :=
      fun h => by_contra fun hp => h (if_neg hp)
    have hhold := @hold_full type₁ nlink₁ type₂ nlink₂ content ht
    refine ⟨fun p hp => ?_, fun p hp => ?_, fun p q hp hpq => ?_, fun b hlo hb => ?_, fun b hb => ?_⟩
    all_goals simp only [hhold] at *
    · have := slotBlock_range p.2
      rw [if_pos (hheld hp)]
      exact ⟨this.1, this.2.trans (by decide)⟩
    · rw [if_pos (hheld hp)]
      exact decide_eq_true (slotBlock_range p.2).2
    · have hq : q.1 = 1 := hheld (hpq ▸ hp)
      rw [if_pos (hheld hp), if_pos hq] at hpq
      exact Prod.ext ((hheld hp).trans hq.symm) (slotBlock_injective hpq)
    · obtain ⟨slot, hslot⟩ := slotBlock_surjective hlo (of_decide_eq_true hb)
      exact ⟨(1, slot), (if_pos rfl).trans hslot⟩
    · have hb : b < 20 := hb
      exact decide_eq_true (hb.trans (by decide))
  noHoles i _ hti bn hbn := by
    by_cases hi : i = 1
    · subst hi
      have hd : (fullImage type₁ nlink₁ type₂ nlink₂ content).dinode 1 = fullDinode type₁ nlink₁ := by
        simp [fullImage]
      rw [hd] at hbn ⊢
      have hslot : ∃ slot, indexSlot bn = some slot := by
        have hbn : bn * 512 < 71680 := hbn
        by_cases h12 : bn < NDIRECT
        · exact ⟨_, dif_pos h12⟩
        · have h128 : bn - NDIRECT < NINDIRECT := by
            show bn - 12 < 128
            omega
          exact ⟨.via ⟨_, h128⟩, by rw [indexSlot, dif_neg h12, dif_pos h128]⟩
      obtain ⟨slot, hslot⟩ := hslot
      refine ⟨slot, hslot, ?_⟩
      rw [slotAddr_full]
      have := slotBlock_range slot
      omega
    · have hsize : ((fullImage type₁ nlink₁ type₂ nlink₂ content).dinode i).size = 0 := by
        show (if i = 1 then _ else if i = 2 then _ else _ : Dinode).size = _
        rw [if_neg hi]
        split <;> rfl
      rw [hsize] at hbn
      exact absurd hbn (Nat.not_lt_zero _)

/-- The image, with the inode 1 in the cache and nothing locked. -/
def fullState (img : Image) : State where
  ref := fun i => if i = 1 then 1 else 0
  valid := fun _ => false
  locked := fun _ => false
  img := img
  copy := fun _ => .blank 0
  outstanding := 0

/-- The full disk is a state of the invariant. -/
theorem fullState_inv {img : Image} (h : img.Consistent fullDisk) : (fullState img).Inv fullDisk where
  consistent := h
  range := fun i hi => by
    by_cases h1 : i = 1
    · subst h1
      decide
    · simp [fullState, h1] at hi
  coherent := fun _ _ hv => absurd hv Bool.false_ne_true
  held := fun _ hl => absurd hl Bool.false_ne_true

end Xv6.Fs
