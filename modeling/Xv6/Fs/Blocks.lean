import Xv6.Fs.Disk
import Xv6.Lib.Ownership
import Xv6.Lib.Partial
import Mathlib.Data.List.FinRange
import Mathlib.Data.List.Nodup
import Mathlib.Data.Fin.SuccPred

/-!
# File system — who owns the blocks of an image

The block numbers of a file system stand in *slots*: the elements of `addrs` of the allocated
inodes and the words of their indirect blocks.  `Image.Consistent`: a block from the first data
block on is marked in the bitmap exactly when a slot holds it, no two slots hold one block, and no
inode has a hole below its size.

An inode being worked on is held in memory, and the disk is seen with that copy in its place
(`Image.setDinode`).

* `bmap_spec`, `bmap_filled` — `bmap` gives an empty slot a free block, or changes nothing.
* `readiLoop_filled`, `writeiLoop_spec` — below the size `readi` allocates nothing; `writei` fills
  the blocks it writes.
* `itrunc_spec`, `owned_of_truncated` — `itrunc` never frees a free block, and its blocks are free
  afterwards.
* `Extends.consistent` — an inode that has grown may be written back.
-/

namespace Xv6.Fs

/-! ### The places that hold block numbers -/

/-- A place for a block number in an inode: an element of `addrs`, or of its indirect block. -/
inductive Slot where
  | addr (k : Fin (NDIRECT + 1))
  | via (j : Fin NINDIRECT)
  deriving DecidableEq

/-- The block number in a slot of an inode, `0` where there is none. -/
def slotAddr (data : ℕ → Block) (di : Dinode) : Slot → ℕ
  | .addr k => di.addrs k
  | .via j =>
      if di.addrs (Fin.last NDIRECT) = 0 then 0
      else indirect (data (di.addrs (Fin.last NDIRECT))) j

/-- The slot for block `bn` of a file. -/
def indexSlot (bn : ℕ) : Option Slot :=
  if h : bn < NDIRECT then some (.addr (Fin.castSucc ⟨bn, h⟩))
  else if h : bn - NDIRECT < NINDIRECT then some (.via ⟨bn - NDIRECT, h⟩)
  else none

variable (sb : Superblock)

/-- An inode of the disk changes. -/
def Image.setDinode (d : Image) (i : Inum) (di : Dinode) : Image :=
  { d with dinode := Function.update d.dinode i di }

/-- What the slots of the allocated inodes hold. -/
def Image.hold (d : Image) (p : Inum × Slot) : ℕ :=
  if p.1 < sb.ninodes ∧ (d.dinode p.1).type ≠ 0 then slotAddr d.data (d.dinode p.1) p.2 else 0

/-- Block `bn` of the inode has an address. -/
def Filled (data : ℕ → Block) (di : Dinode) (bn : ℕ) : Prop :=
  ∃ slot, indexSlot bn = some slot ∧ slotAddr data di slot ≠ 0

/-- Blocks are owned by the slots that hold them, as the bitmap says. -/
def Image.Owned (d : Image) : Prop := Lib.Owns (d.hold sb) d.bit sb.datastart sb.size

/-- **Block ownership** of an image: every data block in use is held by exactly one slot of an
allocated inode, and no inode has a hole below its size. -/
structure Image.Consistent (d : Image) : Prop where
  owned : d.Owned sb
  noHoles : ∀ i < sb.ninodes, (d.dinode i).type ≠ 0 →
    ∀ bn, bn * BSIZE < (d.dinode i).size → Filled d.data (d.dinode i) bn

variable {sb : Superblock} {d d' : Image} {di di' : Dinode} {i : Inum} {b bn : ℕ}

/-- `balloc` takes a block that was free, and clears it. -/
theorem balloc_spec (h : balloc sb d = .ok (b, d')) :
    d.bit b = false ∧ b < sb.size ∧
      d' = { d with bit := Function.update d.bit b true,
                    data := Function.update d.data b fun _ => 0 } := by
  unfold balloc at h
  split at h
  · rename_i b' hb
    obtain ⟨rfl, rfl⟩ := Prod.mk.inj (Except.ok.inj h)
    have hfree := List.find?_some hb
    have hmem := List.mem_of_find?_eq_some hb
    exact ⟨by simpa using hfree, List.mem_range.mp hmem, rfl⟩
  · cases h

/-- The addresses of a file depend on its indirect block only. -/
theorem slotAddr_congr {data data' : ℕ → Block}
    (h : di.addrs (Fin.last NDIRECT) ≠ 0 →
      data' (di.addrs (Fin.last NDIRECT)) = data (di.addrs (Fin.last NDIRECT))) :
    slotAddr data' di = slotAddr data di := by
  funext slot
  cases slot with
  | addr k => rfl
  | via j =>
      simp only [slotAddr]
      split
      · rfl
      · rename_i h0
        rw [h h0]

/-- What is held when only the data blocks change, and none that is held as an indirect block. -/
theorem hold_congr {data' : ℕ → Block}
    (h : ∀ i, d.hold sb (i, .addr (Fin.last NDIRECT)) ≠ 0 →
      data' (d.hold sb (i, .addr (Fin.last NDIRECT))) =
        d.data (d.hold sb (i, .addr (Fin.last NDIRECT)))) :
    Image.hold sb { d with data := data' } = d.hold sb := by
  funext p
  simp only [Image.hold]
  by_cases ha : p.1 < sb.ninodes ∧ (d.dinode p.1).type ≠ 0
  · rw [if_pos ha, if_pos ha]
    refine congrFun (slotAddr_congr ?_) p.2
    have := h p.1
    rwa [Image.hold, if_pos ha] at this
  · rw [if_neg ha, if_neg ha]

theorem hold_setDinode_of_ne {p : Inum × Slot} (hp : p.1 ≠ i) :
    (d.setDinode i di).hold sb p = d.hold sb p := by
  simp [Image.hold, Image.setDinode, hp]

theorem hold_setDinode_self {slot : Slot} (hi : i < sb.ninodes) (ht : di.type ≠ 0) :
    (d.setDinode i di).hold sb (i, slot) = slotAddr d.data di slot := by
  simp [Image.hold, Image.setDinode, hi, ht]

/-! ### Growing a file -/

/-- The slot of the indirect block. -/
abbrev Slot.ind : Slot := .addr (Fin.last NDIRECT)

/-- The inode `i`, held in memory as `di`, may have been given blocks: what the slots held they
still hold. -/
structure Extends (sb : Superblock) (i : Inum) (d : Image) (di : Dinode) (d' : Image)
    (di' : Dinode) : Prop where
  owned : (d'.setDinode i di').Owned sb
  attr : di'.attr = di.attr
  dinode : d'.dinode = d.dinode
  kept : ∀ p, (d.setDinode i di).hold sb p ≠ 0 →
    (d'.setDinode i di').hold sb p = (d.setDinode i di).hold sb p

theorem Extends.refl (h : (d.setDinode i di).Owned sb) : Extends sb i d di d di :=
  ⟨h, rfl, rfl, fun _ _ => rfl⟩

theorem Extends.trans {d'' : Image} {di'' : Dinode} (h₁ : Extends sb i d di d' di')
    (h₂ : Extends sb i d' di' d'' di'') : Extends sb i d di d'' di'' := by
  refine ⟨h₂.owned, h₂.attr.trans h₁.attr, h₂.dinode.trans h₁.dinode, ?_⟩
  intro p hp
  have e := h₁.kept p hp
  rw [← e] at hp
  rw [h₂.kept p hp, e]

/-- Besides, the data blocks in use are as they were. -/
structure Grows (sb : Superblock) (i : Inum) (d : Image) (di : Dinode) (d' : Image)
    (di' : Dinode) : Prop extends Extends sb i d di d' di' where
  content : ∀ p, p.2 ≠ .ind → (d.setDinode i di).hold sb p ≠ 0 →
    d'.data ((d.setDinode i di).hold sb p) = d.data ((d.setDinode i di).hold sb p)

theorem Grows.refl (h : (d.setDinode i di).Owned sb) : Grows sb i d di d di :=
  ⟨.refl h, fun _ _ _ => rfl⟩

/-- A file that grows twice has grown. -/
theorem Grows.trans {d'' : Image} {di'' : Dinode} (h₁ : Grows sb i d di d' di')
    (h₂ : Grows sb i d' di' d'' di'') : Grows sb i d di d'' di'' := by
  refine ⟨h₁.toExtends.trans h₂.toExtends, ?_⟩
  intro p hp hp0
  have e := h₁.kept p hp0
  rw [← h₁.content p hp hp0, ← e]
  rw [← e] at hp0
  exact h₂.content p hp hp0

/-- One slot of the inode is given an unused block. -/
theorem Grows.of_assign (slot : Slot) (ho : (d.setDinode i di).Owned sb)
    (h0 : (d.setDinode i di).hold sb (i, slot) = 0) (hb : d.bit b = false) (hlt : b < sb.size)
    (hattr : di'.attr = di.attr) (hdin : d'.dinode = d.dinode)
    (hbit : d'.bit = Function.update d.bit b true)
    (hhold : (d'.setDinode i di').hold sb =
      Function.update ((d.setDinode i di).hold sb) (i, slot) b)
    (hdata : ∀ x, x ≠ b → (∀ i', (d.setDinode i di).hold sb (i', .ind) ≠ x) →
      d'.data x = d.data x) : Grows sb i d di d' di' := by
  refine ⟨⟨?_, hattr, hdin, ?_⟩, ?_⟩
  · show Lib.Owns _ d'.bit _ _
    rw [hhold, hbit]
    exact Lib.Owns.assign ho h0 hb sb.datastart_pos hlt
  · intro p hp
    rw [hhold, Function.update_of_ne]
    rintro rfl
    exact hp h0
  · intro p hp hp0
    have hpos : b ≠ 0 := by
      have := Lib.Owns.le_of_unused ho hb
      have := sb.datastart_pos
      omega
    refine hdata _ (ho.ne_of_unused hb hpos p) fun i' hi' => hp ?_
    have := ho.unique (i', .ind) p (hi' ▸ hp0) hi'
    rw [← this]

section Alloc

variable (ho : (d.setDinode i di).Owned sb) (hi : i < sb.ninodes) (ht : di.type ≠ 0)
  (hb : d.bit b = false) (hlt : b < sb.size)

include ho hb in
theorem unused_ne_zero : b ≠ 0 := by
  have := Lib.Owns.le_of_unused ho hb
  have := sb.datastart_pos
  omega

include ho hb in
/-- Another inode's slots hold what they did when only the block `b` and the indirect block of
`i` have been written. -/
theorem hold_of_ne (hdin : d'.dinode = d.dinode)
    (hdata : ∀ x, x ≠ b → (d.setDinode i di).hold sb (i, .ind) ≠ x → d'.data x = d.data x)
    {p : Inum × Slot} (hp : p.1 ≠ i) :
    (d'.setDinode i di').hold sb p = (d.setDinode i di).hold sb p := by
  have hq : ∀ slot, (d.setDinode i di).hold sb (p.1, slot) = d.hold sb (p.1, slot) :=
    fun slot => hold_setDinode_of_ne hp
  rw [hold_setDinode_of_ne hp, hold_setDinode_of_ne hp]
  by_cases ha : p.1 < sb.ninodes ∧ (d.dinode p.1).type ≠ 0
  · simp only [Image.hold, hdin, if_pos ha]
    refine congrFun (slotAddr_congr fun h0 => ?_) p.2
    have hind : (d.setDinode i di).hold sb (p.1, .ind) =
        (d.dinode p.1).addrs (Fin.last NDIRECT) := by
      rw [hq, Image.hold, if_pos ha]
      rfl
    refine hdata _ ?_ ?_
    · rw [← hind]
      exact ho.ne_of_unused hb (unused_ne_zero ho hb) _
    · intro h
      have := ho.unique (p.1, .ind) (i, .ind) (hind ▸ h0) (hind.trans h.symm)
      exact hp (congrArg Prod.fst this)
  · simp only [Image.hold, hdin, if_neg ha]

include ho hi ht hb hlt in
/-- `ip->addrs[k] = balloc(dev)`. -/
theorem Grows.alloc_addr {k : Fin (NDIRECT + 1)} (h0 : di.addrs k = 0) :
    Grows sb i d di { d with bit := Function.update d.bit b true,
                             data := Function.update d.data b fun _ => 0 } (di.setAddr k b) := by
  have hb0 := unused_ne_zero ho hb
  have hself : ∀ slot, (d.setDinode i di).hold sb (i, slot) = slotAddr d.data di slot :=
    fun slot => hold_setDinode_self hi ht
  refine .of_assign (.addr k) ho ((hself _).trans h0) hb hlt rfl rfl rfl ?_ ?_
  · funext p
    by_cases hp : p.1 = i
    · obtain ⟨i', slot⟩ := p
      obtain rfl : i' = i := hp
      rw [hold_setDinode_self hi (show (di.setAddr k b).type ≠ 0 from ht)]
      cases slot with
      | addr k' =>
          by_cases hk : k' = k
          · subst hk
            simp [slotAddr, Dinode.setAddr]
          · rw [Function.update_of_ne (by simpa using hk), hself]
            simp [slotAddr, Dinode.setAddr, hk]
      | via j =>
          rw [Function.update_of_ne (by simp), hself]
          by_cases hk : Fin.last NDIRECT = k
          · -- a fresh indirect block lists nothing
            subst hk
            simp [slotAddr, Dinode.setAddr, h0, indirect, Lib.Bytes.get32, Lib.Bytes.get8]
          · have hne : (di.addrs (Fin.last NDIRECT)) ≠ b := by
              have := ho.ne_of_unused hb hb0 (i', .ind)
              rwa [hself] at this
            simp [slotAddr, Dinode.setAddr, Function.update_of_ne hk, Function.update_of_ne hne]
    · rw [Function.update_of_ne (by rintro rfl; exact hp rfl)]
      refine hold_of_ne ho hb ?_ ?_ hp
      · rfl
      · intro x hx _
        exact Function.update_of_ne hx _ _
  · intro x hx _
    exact Function.update_of_ne hx _ _

include ho hi ht hb hlt in
/-- `a[j] = balloc(dev)` in the indirect block. -/
theorem Grows.alloc_via {j : Fin NINDIRECT} (hind : di.addrs (Fin.last NDIRECT) ≠ 0)
    (h0 : slotAddr d.data di (.via j) = 0) :
    Grows sb i d di { d with
      bit := Function.update d.bit b true
      data := Function.update (Function.update d.data b fun _ => 0) (di.addrs (Fin.last NDIRECT))
        ((d.data (di.addrs (Fin.last NDIRECT))).put32 (4 * j) b) } di := by
  have hb0 := unused_ne_zero ho hb
  have hself : ∀ slot, (d.setDinode i di).hold sb (i, slot) = slotAddr d.data di slot :=
    fun slot => hold_setDinode_self hi ht
  have hj : ∀ j' : Fin NINDIRECT, 4 * (j' : ℕ) + 4 ≤ BSIZE := by
    intro j'
    have : (j' : ℕ) < 512 / 4 := j'.2
    show _ ≤ 512
    omega
  have hdata : ∀ x, x ≠ b → (d.setDinode i di).hold sb (i, .ind) ≠ x →
      Function.update (Function.update d.data b fun _ => 0) (di.addrs (Fin.last NDIRECT))
        ((d.data (di.addrs (Fin.last NDIRECT))).put32 (4 * j) b) x = d.data x := by
    intro x hx hx'
    rw [hself] at hx'
    have hne : x ≠ di.addrs (Fin.last NDIRECT) := Ne.symm hx'
    rw [Function.update_of_ne hne, Function.update_of_ne hx]
  refine .of_assign (.via j) ho ((hself _).trans h0) hb hlt rfl rfl rfl ?_ ?_
  · funext p
    by_cases hp : p.1 = i
    · obtain ⟨i', slot⟩ := p
      obtain rfl : i' = i := hp
      rw [hold_setDinode_self hi ht]
      cases slot with
      | addr k' =>
          rw [Function.update_of_ne (by simp), hself]
          rfl
      | via j' =>
          by_cases hjj : j' = j
          · subst hjj
            simp [slotAddr, hind, indirect, Lib.Bytes.get32_put32 _ (hj j') (hlt.trans sb.size_lt)]
          · rw [Function.update_of_ne (by simpa using hjj), hself]
            have : (j' : ℕ) ≠ j := fun e => hjj (Fin.ext e)
            simp [slotAddr, hind, indirect,
              Lib.Bytes.get32_put32_of_disjoint _ (show 4 * (j' : ℕ) + 4 ≤ 4 * j ∨ _ by omega)]
    · rw [Function.update_of_ne (by rintro rfl; exact hp rfl)]
      refine hold_of_ne ho hb ?_ ?_ hp
      · rfl
      · intro x hx hx'
        exact hdata x hx hx'
  · intro x hx hx'
    exact hdata x hx (hx' i)

end Alloc

theorem Extends.type_ne (h : Extends sb i d di d' di') (ht : di.type ≠ 0) : di'.type ≠ 0 := by
  rwa [show di'.type = di.type from congrArg Attr.type h.attr]

theorem Extends.filled (h : Extends sb i d di d' di') (hi : i < sb.ninodes) (ht : di.type ≠ 0)
    (hf : Filled d.data di bn) : Filled d'.data di' bn := by
  obtain ⟨slot, hslot, h0⟩ := hf
  have hk := h.kept (i, slot)
  rw [hold_setDinode_self hi ht, hold_setDinode_self hi (h.type_ne ht)] at hk
  exact ⟨slot, hslot, by rwa [hk h0]⟩

/-! ### `bmap` -/

/-- No byte of the file is in the indirect block itself. -/
theorem indexSlot_ne_ind {slot : Slot} (h : indexSlot bn = some slot) : slot ≠ .ind := by
  rintro rfl
  unfold indexSlot at h
  split at h
  · rename_i hbn
    have : bn = NDIRECT := congrArg Fin.val (Slot.addr.inj (Option.some.inj h))
    omega
  · split at h <;> cases h

/-- A block that is allocated for an address is nobody else's. -/
theorem addrOrAlloc_spec {a : ℕ} {k : Fin (NDIRECT + 1)} (ho : (d.setDinode i di).Owned sb)
    (hi : i < sb.ninodes) (ht : di.type ≠ 0) (h : addrOrAlloc sb d di k = .ok (a, d', di')) :
    Grows sb i d di d' di' ∧ di'.addrs k = a ∧ a ≠ 0 := by
  unfold addrOrAlloc at h
  split at h
  · rename_i h0
    obtain ⟨⟨b, d₁⟩, hb, h⟩ := Lib.bind_eq_ok.mp h
    obtain ⟨hfree, hlt, rfl⟩ := balloc_spec hb
    simp only [pure, Except.pure, Except.ok.injEq, Prod.mk.injEq] at h
    obtain ⟨rfl, rfl, rfl⟩ := h
    exact ⟨.alloc_addr ho hi ht hfree hlt h0, by simp [Dinode.setAddr], unused_ne_zero ho hfree⟩
  · rename_i h0
    simp only [pure, Except.pure, Except.ok.injEq, Prod.mk.injEq] at h
    obtain ⟨rfl, rfl, rfl⟩ := h
    exact ⟨.refl ho, rfl, h0⟩

/-- A block that is allocated for an entry of the indirect block is nobody else's. -/
theorem entryOrAlloc_spec {a : ℕ} {j : Fin NINDIRECT} (ho : (d.setDinode i di).Owned sb)
    (hi : i < sb.ninodes) (ht : di.type ≠ 0) (hind : di.addrs (Fin.last NDIRECT) ≠ 0)
    (h : entryOrAlloc sb d (di.addrs (Fin.last NDIRECT)) j = .ok (a, d')) :
    Grows sb i d di d' di ∧ slotAddr d'.data di (.via j) = a ∧ a ≠ 0 := by
  have hvia : ∀ data, slotAddr data di (.via j) =
      indirect (data (di.addrs (Fin.last NDIRECT))) j := fun data => if_neg hind
  unfold entryOrAlloc at h
  split at h
  · rename_i h0
    obtain ⟨⟨b, d₁⟩, hb, h⟩ := Lib.bind_eq_ok.mp h
    obtain ⟨hfree, hlt, rfl⟩ := balloc_spec hb
    have hb0 := unused_ne_zero ho hfree
    have hne : di.addrs (Fin.last NDIRECT) ≠ b := by
      have := ho.ne_of_unused hfree hb0 (i, .ind)
      rwa [hold_setDinode_self hi ht] at this
    simp only [pure, Except.pure, Except.ok.injEq, Prod.mk.injEq, Function.update_of_ne hne] at h
    obtain ⟨rfl, rfl⟩ := h
    have hg := Grows.alloc_via ho hi ht hfree hlt hind ((hvia _).trans h0)
    refine ⟨hg, ?_, hb0⟩
    have hj : 4 * (j : ℕ) + 4 ≤ BSIZE := by
      have : (j : ℕ) < 512 / 4 := j.2
      show _ ≤ 512
      omega
    simp [hvia, indirect, Lib.Bytes.get32_put32 _ hj (hlt.trans sb.size_lt)]
  · rename_i h0
    simp only [pure, Except.pure, Except.ok.injEq, Prod.mk.injEq] at h
    obtain ⟨rfl, rfl⟩ := h
    exact ⟨.refl ho, hvia _, h0⟩

/-- `bmap` returns the block of its slot, and allocates what is missing. -/
theorem bmap_spec {a : ℕ} (ho : (d.setDinode i di).Owned sb) (hi : i < sb.ninodes)
    (ht : di.type ≠ 0) (h : bmap sb d di bn = .ok (a, d', di')) :
    Grows sb i d di d' di' ∧
      ∃ slot, indexSlot bn = some slot ∧ slotAddr d'.data di' slot = a ∧ a ≠ 0 := by
  unfold bmap at h
  split at h
  · rename_i hbn
    obtain ⟨hg, ha, ha0⟩ := addrOrAlloc_spec ho hi ht h
    exact ⟨hg, _, dif_pos hbn, ha, ha0⟩
  · rename_i hbn
    split at h
    · rename_i hj
      obtain ⟨⟨ind, d₁, di₁⟩, h₁, h⟩ := Lib.bind_eq_ok.mp h
      obtain ⟨⟨addr, d₂⟩, h₂, h⟩ := Lib.bind_eq_ok.mp h
      simp only [pure, Except.pure, Except.ok.injEq, Prod.mk.injEq] at h
      obtain ⟨rfl, rfl, rfl⟩ := h
      obtain ⟨hg₁, rfl, hind⟩ := addrOrAlloc_spec ho hi ht h₁
      have ht₁ := hg₁.type_ne ht
      obtain ⟨hg₂, ha, ha0⟩ := entryOrAlloc_spec (j := ⟨_, hj⟩) hg₁.owned hi ht₁ hind h₂
      refine ⟨hg₁.trans hg₂, _, ?_, ha, ha0⟩
      rw [indexSlot, dif_neg hbn, dif_pos hj]
    · cases h

/-- Where there is a block already, nothing is allocated. -/
theorem bmap_filled (sb : Superblock) (h : Filled d.data di bn) :
    ∃ slot, indexSlot bn = some slot ∧ slotAddr d.data di slot ≠ 0 ∧
      bmap sb d di bn = .ok (slotAddr d.data di slot, d, di) := by
  obtain ⟨slot, hslot, h0⟩ := h
  refine ⟨slot, hslot, h0, ?_⟩
  unfold indexSlot at hslot
  split at hslot
  · rename_i hbn
    obtain rfl := Option.some.inj hslot
    rw [bmap, dif_pos hbn, addrOrAlloc, if_neg (show di.addrs _ ≠ 0 from h0)]
    rfl
  · rename_i hbn
    split at hslot
    · rename_i hj
      obtain rfl := Option.some.inj hslot
      have hind : di.addrs (Fin.last NDIRECT) ≠ 0 := fun e => h0 (if_pos e)
      have hvia : slotAddr d.data di (.via ⟨bn - NDIRECT, hj⟩) =
          indirect (d.data (di.addrs (Fin.last NDIRECT))) (bn - NDIRECT) := if_neg hind
      rw [hvia] at h0 ⊢
      simp [bmap, hbn, hj, addrOrAlloc, entryOrAlloc, hind, h0, bind, Except.bind, pure,
        Except.pure]
    · cases hslot

theorem balloc_ne_freeing : balloc sb d ≠ .error .freeingFreeBlock := by
  unfold balloc
  split <;> simp

/-- `bmap` frees nothing. -/
theorem bmap_ne_freeing : bmap sb d di bn ≠ .error .freeingFreeBlock := by
  have haddr : ∀ k, addrOrAlloc sb d di k ≠ .error .freeingFreeBlock := by
    intro k
    unfold addrOrAlloc
    split
    · exact Lib.bind_ne_error balloc_ne_freeing (by simp [pure, Except.pure])
    · simp [pure, Except.pure]
  unfold bmap
  split
  · exact haddr _
  · split
    · refine Lib.bind_ne_error (haddr _) fun r _ => Lib.bind_ne_error ?_ (by simp [pure, Except.pure])
      unfold entryOrAlloc
      split
      · exact Lib.bind_ne_error balloc_ne_freeing (by simp [pure, Except.pure])
      · simp [pure, Except.pure]
    · simp

/-! ### `readi` and `writei` -/

/-- Writing into a data block leaves what the slots hold. -/
theorem Extends.write {slot : Slot} (ho : (d.setDinode i di).Owned sb) (hi : i < sb.ninodes)
    (ht : di.type ≠ 0) (hslot : slot ≠ .ind) (blk : Block) :
    Extends sb i d di
      { d with data := Function.update d.data (slotAddr d.data di slot) blk } di := by
  have hself : (d.setDinode i di).hold sb (i, slot) = slotAddr d.data di slot :=
    hold_setDinode_self hi ht
  have hhold : Image.hold sb (Image.setDinode
      { d with data := Function.update d.data (slotAddr d.data di slot) blk } i di) =
        (d.setDinode i di).hold sb := by
    refine hold_congr (d := d.setDinode i di) fun i' hi' => Function.update_of_ne ?_ _ _
    intro e
    have := ho.unique (i', .ind) (i, slot) hi' (e.trans hself.symm)
    exact hslot (congrArg Prod.snd this).symm
  refine ⟨?_, rfl, rfl, fun p _ => congrFun hhold p⟩
  show Lib.Owns _ d.bit _ _
  rw [hhold]
  exact ho

/-- The block indices that the bytes `off .. off + n - 1` lie in. -/
def Spans (off n bn : ℕ) : Prop := n ≠ 0 ∧ off / BSIZE ≤ bn ∧ bn * BSIZE < off + n

/-- The bytes of one pass lie in block `off / BSIZE`, the rest in what the next passes span. -/
theorem Spans.cases {off n : ℕ} (h : Spans off n bn) :
    bn = off / BSIZE ∨
      Spans (off + min n (BSIZE - off % BSIZE)) (n - min n (BSIZE - off % BSIZE)) bn := by
  simp only [Spans, BSIZE] at *
  omega

theorem Spans.first {off n : ℕ} (h : n ≠ 0) : Spans off n (off / BSIZE) := by
  simp only [Spans, BSIZE]
  omega

theorem Spans.of_rest {off n : ℕ}
    (h : Spans (off + min n (BSIZE - off % BSIZE)) (n - min n (BSIZE - off % BSIZE)) bn) :
    Spans off n bn := by
  simp only [Spans, BSIZE] at *
  omega

/-- Every pass copies a byte at least. -/
theorem pass_pos {n : ℕ} (h : n ≠ 0) (off : ℕ) : 0 < min n (BSIZE - off % BSIZE) := by
  simp only [BSIZE]
  omega

/-- Where all blocks are there, `readi` allocates none. -/
theorem readiLoop_filled (sb : Superblock) (fuel : ℕ) : ∀ (off n : ℕ), n ≤ fuel →
    (∀ bn, Spans off n bn → Filled d.data di bn) →
      ∃ dst, readiLoop sb fuel d di off n = .ok (dst, d, di) := by
  induction fuel with
  | zero => exact fun off n _ _ => ⟨[], rfl⟩
  | succ fuel ih =>
      intro off n hn hf
      rw [readiLoop]
      by_cases h0 : n = 0
      · exact ⟨[], if_pos h0⟩
      · obtain ⟨slot, -, -, hb⟩ := bmap_filled sb (hf _ (.first h0))
        have hpos := pass_pos h0 off
        obtain ⟨rest, hr⟩ := ih (off + min n (BSIZE - off % BSIZE))
          (n - min n (BSIZE - off % BSIZE)) (by omega) fun bn h => hf bn h.of_rest
        refine ⟨(d.data (slotAddr d.data di slot)).getList (off % BSIZE)
          (min n (BSIZE - off % BSIZE)) ++ rest, ?_⟩
        rw [if_neg h0, hb]
        simp only [bind, Except.bind, hr]
        rfl

/-- The loop of `writei` changes one file, whose blocks are all there afterwards. -/
theorem writeiLoop_spec (hi : i < sb.ninodes) (fuel : ℕ) :
    ∀ {d di} (off : ℕ) (src : List UInt8), src.length ≤ fuel → (d.setDinode i di).Owned sb →
      di.type ≠ 0 → writeiLoop sb fuel d di off src = .ok (d', di') →
        Extends sb i d di d' di' ∧ (∀ bn, Spans off src.length bn → Filled d'.data di' bn) ∧
          ((∀ bn, Spans off src.length bn → Filled d.data di bn) → di' = di) := by
  induction fuel with
  | zero =>
      intro d di off src hn ho _ h
      obtain ⟨rfl, rfl⟩ := Prod.mk.inj (Except.ok.inj h)
      exact ⟨.refl ho, fun bn hs => absurd (by omega) hs.1, fun _ => rfl⟩
  | succ fuel ih =>
      intro d di off src hn ho ht h
      rw [writeiLoop] at h
      split at h
      · rename_i h0
        obtain ⟨rfl, rfl⟩ := Prod.mk.inj (Except.ok.inj h)
        exact ⟨.refl ho, fun bn hs => absurd h0 hs.1, fun _ => rfl⟩
      · rename_i h0
        obtain ⟨⟨a, d₁, di₁⟩, hb, h⟩ := Lib.bind_eq_ok.mp h
        obtain ⟨hg, slot, hslot, rfl, ha0⟩ := bmap_spec ho hi ht hb
        have hw := Extends.write hg.owned hi (hg.type_ne ht) (indexSlot_ne_ind hslot)
          ((d₁.data (slotAddr d₁.data di₁ slot)).putList (off % BSIZE)
            (src.take (min src.length (BSIZE - off % BSIZE))))
        have hpos := pass_pos h0 off
        obtain ⟨he, hfill, hsame⟩ := ih (off + min src.length (BSIZE - off % BSIZE))
          (src.drop (min src.length (BSIZE - off % BSIZE))) (by rw [List.length_drop]; omega)
          hw.owned (hg.type_ne ht) h
        have hgw := hg.toExtends.trans hw
        rw [List.length_drop] at hfill hsame
        refine ⟨hgw.trans he, fun bn hs => ?_, fun hf => ?_⟩
        · rcases hs.cases with rfl | hs
          · exact (hw.trans he).filled hi (hg.type_ne ht) ⟨slot, hslot, ha0⟩
          · exact hfill bn hs
        · obtain ⟨slot', hslot', -, hb'⟩ := bmap_filled sb (hf _ (.first h0))
          have hdi : di₁ = di := by
            have := hb.symm.trans hb'
            simp only [Except.ok.injEq, Prod.mk.injEq] at this
            exact this.2.2
          rw [hsame fun bn hs => hgw.filled hi ht (hf bn hs.of_rest), hdi]

/-- What `writei` does: nothing, or the loop, and then it sets a size that has grown. -/
theorem writeiFile_cases {devsw : Devsw} {off : ℕ} {src : List UInt8} {r : Option ℕ} {up : Bool}
    (h : writeiFile sb devsw d di off src = .ok (r, d', di', up)) :
    (d' = d ∧ di' = di ∧ up = false) ∨
      ∃ di₁, off ≤ di.size ∧ writeiLoop sb src.length d di off src = .ok (d', di₁) ∧
        ((0 < src.length ∧ di₁.size < off + src.length ∧
            di' = { di₁ with size := off + src.length } ∧ up = true) ∨
          (¬ (0 < src.length ∧ di₁.size < off + src.length) ∧ di' = di₁ ∧ up = false)) := by
  unfold writeiFile at h
  split at h
  · split at h <;>
      · obtain ⟨-, rfl, rfl, rfl⟩ := by simpa using h
        exact .inl ⟨rfl, rfl, rfl⟩
  · split at h
    · obtain ⟨-, rfl, rfl, rfl⟩ := by simpa using h
      exact .inl ⟨rfl, rfl, rfl⟩
    · rename_i hoff
      split at h
      · obtain ⟨-, rfl, rfl, rfl⟩ := by simpa using h
        exact .inl ⟨rfl, rfl, rfl⟩
      · obtain ⟨⟨d₁, di₁⟩, hloop, h⟩ := Lib.bind_eq_ok.mp h
        refine .inr ⟨di₁, by omega, ?_⟩
        dsimp only at h
        split at h
        · rename_i hgrow
          simp only [pure, Except.pure, Except.ok.injEq, Prod.mk.injEq] at h
          obtain ⟨-, rfl, rfl, rfl⟩ := h
          exact ⟨hloop, .inl ⟨hgrow.1, hgrow.2, rfl, rfl⟩⟩
        · rename_i hgrow
          simp only [pure, Except.pure, Except.ok.injEq, Prod.mk.injEq] at h
          obtain ⟨-, rfl, rfl, rfl⟩ := h
          exact ⟨hloop, .inr ⟨hgrow, rfl, rfl⟩⟩

/-- Reading frees nothing. -/
theorem readiLoop_ne_freeing (fuel : ℕ) : ∀ (d : Image) (di : Dinode) (off n : ℕ),
    readiLoop sb fuel d di off n ≠ .error .freeingFreeBlock := by
  induction fuel with
  | zero => simp [readiLoop]
  | succ fuel ih =>
      intro d di off n
      rw [readiLoop]
      split
      · simp
      · refine Lib.bind_ne_error bmap_ne_freeing fun r _ => Lib.bind_ne_error (ih _ _ _ _) ?_
        simp [pure, Except.pure]

/-- Writing frees nothing. -/
theorem writeiLoop_ne_freeing (fuel : ℕ) : ∀ (d : Image) (di : Dinode) (off : ℕ)
    (src : List UInt8), writeiLoop sb fuel d di off src ≠ .error .freeingFreeBlock := by
  induction fuel with
  | zero => simp [writeiLoop]
  | succ fuel ih =>
      intro d di off src
      rw [writeiLoop]
      split
      · simp
      · exact Lib.bind_ne_error bmap_ne_freeing fun r _ => ih _ _ _ _

/-! ### `itrunc` -/

/-- The image with the bits of the blocks in `as` cleared. -/
def Image.clear (d : Image) (as : List ℕ) : Image :=
  { d with bit := fun b => d.bit b && decide (b = 0 ∨ b ∉ as) }

/-- Blocks that are marked, and all different, can be freed one after the other. -/
theorem bfreeAll_ok (as : List ℕ) : ∀ d : Image, (∀ a ∈ as, a ≠ 0 → d.bit a) →
    (as.filter (· ≠ 0)).Nodup → bfreeAll as d = .ok (d.clear as) := by
  induction as with
  | nil => simp [bfreeAll, Image.clear]
  | cons a as ih =>
      intro d hbit hnd
      rw [bfreeAll]
      by_cases ha : a = 0
      · subst ha
        rw [if_pos rfl, ih d (fun x hx => hbit x (List.mem_cons_of_mem _ hx)) (by simpa using hnd)]
        simp only [Image.clear]
        congr 2
        funext b
        by_cases hb : b = 0 <;> simp [hb]
      · rw [List.filter_cons_of_pos (by simpa using ha), List.nodup_cons] at hnd
        have hbfree : bfree d a = .ok { d with bit := Function.update d.bit a false } :=
          if_pos (hbit a (List.mem_cons_self ..) ha)
        rw [if_neg ha, hbfree]
        refine (ih _ (fun x hx hx0 => ?_) hnd.2).trans ?_
        · have hne : x ≠ a := fun e => hnd.1 (by simpa [← e, hx0] using hx)
          exact (Function.update_of_ne hne _ _).trans (hbit x (List.mem_cons_of_mem _ hx) hx0)
        · simp only [Image.clear]
          congr 2
          funext b
          by_cases hb : b = a
          · subst hb
            simp [ha]
          · simp [hb]

theorem bfreeAll_zeros {as : List ℕ} (h : ∀ a ∈ as, a = 0) : bfreeAll as d = .ok d := by
  induction as with
  | nil => rfl
  | cons a as ih =>
      rw [bfreeAll, if_pos (h a (List.mem_cons_self ..))]
      exact ih fun x hx => h x (List.mem_cons_of_mem _ hx)

/-- The slots in the order `itrunc` frees them: those of the first loop, then the others. -/
def directSlots : List Slot := (List.finRange NDIRECT).map fun k => .addr k.castSucc

/-- The indirect block with its entries. -/
def indirectSlots : List Slot := (List.finRange NINDIRECT).map .via ++ [.ind]

theorem mem_directSlots_or (slot : Slot) : slot ∈ directSlots ∨ slot ∈ indirectSlots := by
  cases slot with
  | via j => exact .inr (by simp [indirectSlots])
  | addr k =>
      induction k using Fin.lastCases with
      | last => exact .inr (by simp [indirectSlots])
      | cast k => exact .inl (by simp [directSlots])

theorem not_mem_directSlots {slot : Slot} (h : slot ∈ indirectSlots) : slot ∉ directSlots := by
  intro h'
  obtain ⟨k, -, rfl⟩ := List.mem_map.mp h'
  simp [indirectSlots] at h

theorem nodup_directSlots : directSlots.Nodup :=
  (List.nodup_finRange _).map fun _ _ h => Fin.castSucc_injective _ (Slot.addr.inj h)

theorem nodup_indirectSlots : indirectSlots.Nodup := by
  rw [indirectSlots, List.nodup_append]
  refine ⟨(List.nodup_finRange _).map fun _ _ h => Slot.via.inj h, by simp, ?_⟩
  simp

/-- Block `b` is one of the inode's. -/
def freed (d : Image) (di : Dinode) (b : ℕ) : Prop :=
  b ≠ 0 ∧ ∃ slot, slotAddr d.data di slot = b

/-- `itrunc` frees the blocks of the inode, and no other. -/
theorem itrunc_spec (ho : (d.setDinode i di).Owned sb) (hi : i < sb.ninodes) (ht : di.type ≠ 0) :
    ∃ d', itrunc d di = .ok (d', { di with addrs := fun _ => 0, size := 0 }) ∧
      d'.dinode = d.dinode ∧ d'.data = d.data ∧
        ∀ b, d'.bit b ↔ d.bit b ∧ ¬ freed d di b := by
  have hself : ∀ slot, (d.setDinode i di).hold sb (i, slot) = slotAddr d.data di slot :=
    fun slot => hold_setDinode_self hi ht
  have hbit : ∀ slot, slotAddr d.data di slot ≠ 0 → d.bit (slotAddr d.data di slot) := by
    intro slot h
    have := ho.marked (i, slot)
    rw [hself] at this
    exact this h
  have hinj : ∀ s₁ s₂, slotAddr d.data di s₁ ≠ 0 → slotAddr d.data di s₁ = slotAddr d.data di s₂ →
      s₁ = s₂ := by
    intro s₁ s₂ h0 h
    rw [← hself] at h0
    exact congrArg Prod.snd (ho.unique (i, s₁) (i, s₂) h0 (by rw [hself, hself, h]))
  have hnodup : ∀ L : List Slot, L.Nodup → ((L.map (slotAddr d.data di)).filter (· ≠ 0)).Nodup := by
    intro L hL
    rw [List.filter_map]
    refine (hL.filter _).map_on fun s₁ h₁ s₂ _ h => hinj s₁ s₂ ?_ h
    simpa using (List.mem_filter.mp h₁).2
  -- both loops, on an image with the same indirect block
  have hloop₁ : (List.finRange NDIRECT).map (fun k => di.addrs k.castSucc) =
      directSlots.map (slotAddr d.data di) := by
    simp [directSlots, Function.comp_def, slotAddr]
  have hloop₂ : ∀ d₁ : Image, d₁.data = d.data →
      itruncIndirect d₁ di = bfreeAll (indirectSlots.map (slotAddr d.data di)) d₁ := by
    intro d₁ h₁
    by_cases hind : di.addrs (Fin.last NDIRECT) = 0
    · rw [bfreeAll_zeros]
      · exact if_pos hind
      · intro a ha
        obtain ⟨slot, hslot, rfl⟩ := List.mem_map.mp ha
        rcases List.mem_append.mp hslot with h | h
        · obtain ⟨j, -, rfl⟩ := List.mem_map.mp h
          exact if_pos hind
        · obtain rfl := List.mem_singleton.mp h
          exact hind
    · simp [itruncIndirect, h₁, indirectSlots, Function.comp_def, slotAddr, hind]
  -- Each loop frees blocks that are marked, and no block twice.
  have h₁ := bfreeAll_ok (directSlots.map (slotAddr d.data di)) d
    (fun a ha => by
      obtain ⟨slot, -, rfl⟩ := List.mem_map.mp ha
      exact hbit slot) (hnodup _ nodup_directSlots)
  have h₂ := bfreeAll_ok (indirectSlots.map (slotAddr d.data di))
    (d.clear (directSlots.map (slotAddr d.data di)))
    (fun a ha h0 => by
      obtain ⟨slot, hslot, rfl⟩ := List.mem_map.mp ha
      have : slotAddr d.data di slot ∉ directSlots.map (slotAddr d.data di) := by
        intro h
        obtain ⟨slot', hslot', e⟩ := List.mem_map.mp h
        exact not_mem_directSlots hslot (hinj slot slot' h0 e.symm ▸ hslot')
      simp only [Image.clear, hbit slot h0, this, not_false_eq_true, or_true, decide_true,
        Bool.and_self]) (hnodup _ nodup_indirectSlots)
  refine ⟨(d.clear (directSlots.map (slotAddr d.data di))).clear
    (indirectSlots.map (slotAddr d.data di)), ?_, rfl, rfl, ?_⟩
  · simp only [itrunc, hloop₁, h₁, bind, Except.bind]
    rw [hloop₂ (d.clear _) rfl, h₂]
    rfl
  · intro b
    simp only [Image.clear, freed, Bool.and_eq_true, decide_eq_true_eq]
    constructor
    · rintro ⟨⟨hb, hd⟩, hi⟩
      refine ⟨hb, ?_⟩
      rintro ⟨hb0, slot, rfl⟩
      rcases mem_directSlots_or slot with h | h
      · exact (hd.resolve_left hb0) (List.mem_map_of_mem h)
      · exact (hi.resolve_left hb0) (List.mem_map_of_mem h)
    · rintro ⟨hb, hno⟩
      have hnot : ∀ L : List Slot, b = 0 ∨ b ∉ L.map (slotAddr d.data di) := by
        intro L
        by_contra h
        obtain ⟨hb0, hmem⟩ := not_or.mp h
        obtain ⟨slot, -, e⟩ := List.mem_map.mp (not_not.mp hmem)
        exact hno ⟨hb0, slot, e⟩
      exact ⟨⟨hb, hnot _⟩, hnot _⟩

/-- The slots of an inode without addresses hold nothing. -/
theorem slotAddr_blank {data : ℕ → Block} (h : di.addrs = fun _ => 0) (slot : Slot) :
    slotAddr data di slot = 0 := by
  cases slot <;> simp [slotAddr, h]

theorem hold_blank (h : di.addrs = fun _ => 0) (p : Inum × Slot) :
    (d.setDinode i di).hold sb p = if p.1 = i then 0 else d.hold sb p := by
  by_cases hp : p.1 = i
  · simp [Image.hold, Image.setDinode, hp, slotAddr_blank h]
  · rw [hold_setDinode_of_ne hp, if_neg hp]

/-- The blocks of a truncated inode are free, whatever type it is then given. -/
theorem owned_of_truncated (ho : (d.setDinode i di).Owned sb) (hi : i < sb.ninodes)
    (ht : di.type ≠ 0) (hdin : d'.dinode = d.dinode) (hdata : d'.data = d.data)
    (hbit : ∀ b, d'.bit b ↔ d.bit b ∧ ¬ freed d di b) (hdi' : di'.addrs = fun _ => 0) :
    (d'.setDinode i di').Owned sb := by
  have hother : d'.hold sb = d.hold sb := by
    funext p
    simp [Image.hold, hdin, hdata]
  refine Lib.Owns.release ho (fun p => p.1 = i) sb.datastart_pos ?_ ?_ ?_
  · intro p hp
    rw [hold_blank hdi', if_pos hp]
  · intro p hp
    rw [hold_blank hdi', if_neg hp, hother, hold_setDinode_of_ne hp]
  · intro b
    refine (hbit b).trans (and_congr_right fun _ => not_congr ?_)
    constructor
    · rintro ⟨hb, slot, rfl⟩
      exact ⟨(i, slot), rfl, by rwa [hold_setDinode_self hi ht], hold_setDinode_self hi ht⟩
    · rintro ⟨⟨_, slot⟩, rfl, h0, rfl⟩
      exact ⟨h0, slot, (hold_setDinode_self hi ht).symm⟩

/-! ### Consistent images -/

@[simp]
theorem setDinode_self : d.setDinode i (d.dinode i) = d := by
  simp [Image.setDinode]

/-- Who holds which block depends on the type and the addresses. -/
theorem hold_setDinode_congr (ht : di'.type = di.type) (ha : di'.addrs = di.addrs) :
    (d.setDinode i di').hold sb = (d.setDinode i di).hold sb := by
  have hs : ∀ data, slotAddr data di' = slotAddr data di := by
    intro data
    funext slot
    cases slot <;> simp [slotAddr, ha]
  funext p
  by_cases hp : p.1 = i
  · simp [Image.hold, Image.setDinode, hp, ht, hs]
  · rw [hold_setDinode_of_ne hp, hold_setDinode_of_ne hp]

theorem filled_congr {data : ℕ → Block} (ha : di'.addrs = di.addrs) :
    Filled data di' bn ↔ Filled data di bn := by
  have hs : ∀ slot, slotAddr data di' slot = slotAddr data di slot := by
    intro slot
    cases slot <;> simp [slotAddr, ha]
  simp [Filled, hs]

/-- Writing back an inode that has grown, with no hole below its size. -/
theorem Extends.consistent {di'' : Dinode} (hc : d.Consistent sb)
    (he : Extends sb i d (d.dinode i) d' di') (hi : i < sb.ninodes)
    (ht : (d.dinode i).type ≠ 0) (ht'' : di''.type = di'.type) (ha'' : di''.addrs = di'.addrs)
    (hfill : ∀ bn, bn * BSIZE < di''.size → Filled d'.data di' bn) :
    (d'.setDinode i di'').Consistent sb := by
  constructor
  · show Lib.Owns _ d'.bit _ _
    rw [hold_setDinode_congr ht'' ha'']
    exact he.owned
  · intro j hj htj bn hbn
    by_cases hji : j = i
    · subst hji
      simp only [Image.setDinode, Function.update_self] at hbn ⊢
      exact (filled_congr ha'').mpr (hfill bn hbn)
    · have hdj : (d'.setDinode i di'').dinode j = d.dinode j := by
        simp [Image.setDinode, hji, he.dinode]
      rw [hdj] at htj hbn ⊢
      obtain ⟨slot, hslot, h0⟩ := hc.noHoles j hj htj bn hbn
      have hk := he.kept (j, slot)
      rw [hold_setDinode_of_ne hji, hold_setDinode_of_ne hji] at hk
      simp only [Image.hold, he.dinode, if_pos (And.intro hj htj)] at hk
      exact ⟨slot, hslot, by rw [show (d'.setDinode i di'').data = d'.data from rfl, hk h0]; exact h0⟩

/-- A free inode holds nothing, and one without addresses does not either. -/
theorem Image.Consistent.alloc (hc : d.Consistent sb) (h0 : (d.dinode i).type = 0)
    (ha : di.addrs = fun _ => 0) (hs : di.size = 0) : (d.setDinode i di).Consistent sb := by
  constructor
  · have hhold : (d.setDinode i di).hold sb = d.hold sb := by
      funext p
      rw [hold_blank ha]
      split
      · rename_i hp
        simp [Image.hold, hp, h0]
      · rfl
    show Lib.Owns _ d.bit _ _
    rw [hhold]
    exact hc.owned
  · intro j hj htj bn hbn
    by_cases hji : j = i
    · subst hji
      simp [Image.setDinode, hs] at hbn
    · simp only [Image.setDinode, Function.update_of_ne hji] at htj hbn ⊢
      exact hc.noHoles j hj htj bn hbn

/-- No inode has an indirect block before the first data block. -/
theorem Image.Consistent.slotAddr_below (hc : d.Consistent sb) (hi : i < sb.ninodes)
    (ht : (d.dinode i).type ≠ 0) {data : ℕ → Block}
    (hdata : ∀ b, sb.datastart ≤ b → data b = d.data b) :
    slotAddr data (d.dinode i) = slotAddr d.data (d.dinode i) := by
  refine slotAddr_congr fun h => hdata _ ?_
  have hself : d.hold sb (i, .ind) = (d.dinode i).addrs (Fin.last NDIRECT) := if_pos ⟨hi, ht⟩
  rw [← hself] at h ⊢
  exact (hc.owned.range _ h).1

/-- What stands before the first data block is no part of the files. -/
theorem Image.Consistent.below (hc : d.Consistent sb) {data : ℕ → Block}
    (hdata : ∀ b, sb.datastart ≤ b → data b = d.data b) :
    Image.Consistent sb { d with data := data } := by
  constructor
  · have hhold : Image.hold sb { d with data := data } = d.hold sb :=
      hold_congr fun j hj => hdata _ (hc.owned.range _ hj).1
    show Lib.Owns _ d.bit _ _
    rw [hhold]
    exact hc.owned
  · intro j hj htj bn hbn
    obtain ⟨slot, hslot, h0⟩ := hc.noHoles j hj htj bn hbn
    exact ⟨slot, hslot, by rwa [hc.slotAddr_below hj htj hdata]⟩

end Xv6.Fs
