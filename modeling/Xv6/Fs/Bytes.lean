import Xv6.Fs.Ownership
import Mathlib.Data.List.GetD

/-!
# File system — a file is an array of bytes

`byteAt`: the bytes of an inode, wherever their blocks are.  On an image whose blocks are owned, a
block belongs to one place in one inode, so that writing it changes the bytes of that place and no
others.

* `readiLoop_bytes` — what `readi` copies.
* `writeiLoop_bytes` — what the loop of `writei` changes, pass by pass.
* `files_are_byte_arrays` — the main result, for `readi` and `writei` on a regular inode.
-/

namespace Xv6.Fs

/-- Byte `k` of the inode `di`, on the blocks `data`. -/
def byteAt (data : ℕ → Block) (di : Dinode) (k : ℕ) : UInt8 :=
  match indexSlot (k / BSIZE) with
  | some slot => (data (slotAddr data di slot)).get8 (k % BSIZE)
  | none => 0

/-- Byte `k` of the file `i`. -/
def Image.byte (d : Image) (i : Inum) (k : ℕ) : UInt8 := byteAt d.data (d.dinode i) k

variable {sb : Superblock} {devsw : Devsw} {d d' : Image} {di di' : Dinode} {i : Inum}

theorem byteAt_of_slot {data : ℕ → Block} {slot : Slot} {k : ℕ}
    (h : indexSlot (k / BSIZE) = some slot) :
    byteAt data di k = (data (slotAddr data di slot)).get8 (k % BSIZE) := by
  simp [byteAt, h]

/-! ### Reading -/

/-- The bytes of one pass are those of one block. -/
theorem getList_eq_bytes {slot : Slot} {off m : ℕ} (hslot : indexSlot (off / BSIZE) = some slot)
    (hm : m ≤ BSIZE - off % BSIZE) :
    (d.data (slotAddr d.data di slot)).getList (off % BSIZE) m =
      (List.range m).map fun k => byteAt d.data di (off + k) := by
  refine List.map_congr_left fun k hk => ?_
  have hk := List.mem_range.mp hk
  have hdiv : (off + k) / BSIZE = off / BSIZE := by simp only [BSIZE] at *; omega
  have hmod : (off + k) % BSIZE = off % BSIZE + k := by simp only [BSIZE] at *; omega
  rw [byteAt_of_slot (by rw [hdiv]; exact hslot), hmod]

/-- **What the loop of `readi` copies**, where no block is missing. -/
theorem readiLoop_bytes (sb : Superblock) (fuel : ℕ) : ∀ (off n : ℕ), n ≤ fuel →
    (∀ bn, Spans off n bn → Filled d.data di bn) →
      readiLoop sb fuel d di off n =
        .ok ((List.range n).map fun k => byteAt d.data di (off + k), d, di) := by
  induction fuel with
  | zero =>
      intro off n hn _
      obtain rfl : n = 0 := by omega
      rfl
  | succ fuel ih =>
      intro off n hn hf
      rw [readiLoop]
      by_cases h0 : n = 0
      · subst h0
        rfl
      · obtain ⟨slot, hslot, -, hb⟩ := bmap_filled sb (hf _ (.first h0))
        have hpos := pass_pos h0 off
        generalize hm : min n (BSIZE - off % BSIZE) = m at *
        have hrest := ih (off + m) (n - m) (by omega) fun bn h =>
          hf bn (Spans.of_rest (by rw [hm]; exact h))
        rw [if_neg h0, hb]
        simp only [bind, Except.bind, hrest, getList_eq_bytes hslot (show m ≤ _ by omega)]
        have hsplit : List.range n = List.range m ++ (List.range (n - m)).map (m + ·) := by
          rw [← List.range_add]
          congr 1
          omega
        simp only [pure, Except.pure, hsplit, List.map_append, List.map_map, Function.comp_def,
          Nat.add_assoc]

/-- Where there are no holes, `readi` copies the bytes there are, and allocates nothing. -/
theorem readiFile_filled (sb : Superblock) (devsw : Devsw) (off n : ℕ) (hdev : di.type ≠ T_DEV)
    (hfill : ∀ bn, Spans off (min n (di.size - off)) bn → Filled d.data di bn) :
    readiFile sb devsw d di off n = .ok (if di.size < off ∨ wraps off n then none
      else some ((List.range (min n (di.size - off))).map fun k => byteAt d.data di (off + k)),
        d, di) := by
  rw [readiFile, if_neg hdev]
  split
  · rfl
  · have hn : (if di.size < off + n then di.size - off else n) = min n (di.size - off) := by
      split <;> omega
    have hloop := readiLoop_bytes sb _ off _ le_rfl hfill
    simp only [hn, hloop]
    rfl

/-- A read that changes neither the disk nor the inode. -/
theorem readi_of_file {s : State} {off n : ℕ} {r : Option (List UInt8)}
    (h : readiFile sb devsw s.img (s.copy i) off n = .ok (r, s.img, s.copy i)) :
    s.readi sb devsw i off n = .ok (r, s) := by
  rw [State.readi, h]
  simp [bind, Except.bind, pure, Except.pure, State.setCopy]

/-! ### Writing -/

/-- Byte `b` of the block in the place `p` is none of the bytes `off .. off + n - 1` of `i`. -/
def Outside (i : Inum) (off n : ℕ) (p : Inum × Slot) (b : ℕ) : Prop :=
  p.1 = i → ∀ bn, indexSlot bn = some p.2 → bn * BSIZE + b < off ∨ off + n ≤ bn * BSIZE + b

/-- The bytes of the blocks in use are as they were, but for the bytes `off .. off + n - 1` of the
inode `i`. -/
def KeepsBytes (sb : Superblock) (i : Inum) (off n : ℕ) (d : Image) (di : Dinode) (d' : Image) :
    Prop :=
  ∀ p : Inum × Slot, p.2 ≠ .ind → (d.setDinode i di).hold sb p ≠ 0 → ∀ b < BSIZE,
    Outside i off n p b → (d'.data ((d.setDinode i di).hold sb p)).get8 b =
      (d.data ((d.setDinode i di).hold sb p)).get8 b

theorem KeepsBytes.refl (n off : ℕ) : KeepsBytes sb i off n d di d := fun _ _ _ _ _ _ => rfl

/-- What a part of the bytes leaves alone, and then the rest. -/
theorem KeepsBytes.trans {d₁ : Image} {di₁ : Dinode} {off m n : ℕ}
    (h₁ : KeepsBytes sb i off m d di d₁) (he : Extends sb i d di d₁ di₁)
    (h₂ : KeepsBytes sb i (off + m) (n - m) d₁ di₁ d') (hm : m ≤ n) :
    KeepsBytes sb i off n d di d' := by
  intro p hp h0 b hb hout
  have hkept := he.kept p h0
  have hrest := h₂ p hp (by rw [hkept]; exact h0) b hb fun hi bn hbn => by
    have := hout hi bn hbn
    omega
  rw [hkept] at hrest
  refine hrest.trans (h₁ p hp h0 b hb fun hi bn hbn => ?_)
  have := hout hi bn hbn
  omega

/-- No two blocks of a file share a slot. -/
theorem indexSlot_injective {bn bn' : ℕ} {slot : Slot} (h : indexSlot bn = some slot)
    (h' : indexSlot bn' = some slot) : bn = bn' := by
  unfold indexSlot at h h'
  split at h <;> split at h'
  · have := Option.some.inj (h.trans h'.symm)
    simpa using this
  · rename_i hlt hge
    split at h'
    · simpa using h.trans h'.symm
    · cases h'
  · rename_i hge hlt
    split at h
    · simpa using h.trans h'.symm
    · cases h
  · split at h <;> split at h'
    · have := Option.some.inj (h.trans h'.symm)
      simp only [Slot.via.injEq, Fin.mk.injEq] at this
      omega
    · cases h'
    · cases h
    · cases h

/-- One pass of the loop: the block of the pass is written where the bytes go. -/
theorem KeepsBytes.pass {d₁ : Image} {di₁ : Dinode} {slot : Slot} {off : ℕ} (src : List UInt8)
    (hg : Grows sb i d di d₁ di₁) (hi : i < sb.ninodes) (ht : di₁.type ≠ 0)
    (hslot : indexSlot (off / BSIZE) = some slot) :
    KeepsBytes sb i off src.length d di { d₁ with
      data := Function.update d₁.data (slotAddr d₁.data di₁ slot)
        ((d₁.data (slotAddr d₁.data di₁ slot)).putList (off % BSIZE) src) } := by
  intro p hp h0 b hb hout
  have hkept := hg.kept p h0
  have hsame := hg.content p hp h0
  have hself : (d₁.setDinode i di₁).hold sb (i, slot) = slotAddr d₁.data di₁ slot :=
    hold_setDinode_self hi ht
  by_cases hpa : (d.setDinode i di).hold sb p = slotAddr d₁.data di₁ slot
  · -- the place of the pass
    obtain rfl : p = (i, slot) := by
      refine hg.owned.unique p (i, slot) (by rw [hkept]; exact h0) ?_
      rw [hkept, hpa, hself]
    have := hout rfl _ hslot
    rw [hpa] at hsame ⊢
    simp only [Function.update_self]
    rw [Lib.Bytes.get8_putList_of_not_mem, hsame]
    simp only [BSIZE] at *
    omega
  · simp only [Function.update_of_ne hpa, hsame]

/-- **What the loop of `writei` does**, to the bytes it writes and to all others. -/
theorem writeiLoop_bytes (hi : i < sb.ninodes) (fuel : ℕ) :
    ∀ {d di} (off : ℕ) (src : List UInt8), src.length ≤ fuel → (d.setDinode i di).Owned sb →
      di.type ≠ 0 → writeiLoop sb fuel d di off src = .ok (d', di') →
        KeepsBytes sb i off src.length d di d' ∧
          ∀ k < src.length, byteAt d'.data di' (off + k) = src.getD k 0 := by
  -- A pass writes within one block; the induction is on the passes that are left.
  induction fuel with
  | zero =>
      intro d di off src hn ho _ h
      obtain ⟨rfl, rfl⟩ := Prod.mk.inj (Except.ok.inj h)
      exact ⟨.refl _ _, fun k hk => by omega⟩
  | succ fuel ih =>
      intro d di off src hn ho ht h
      rw [writeiLoop] at h
      split at h
      · rename_i h0
        obtain ⟨rfl, rfl⟩ := Prod.mk.inj (Except.ok.inj h)
        exact ⟨.refl _ _, fun k hk => by omega⟩
      · rename_i h0
        obtain ⟨⟨a, d₁, di₁⟩, hb, h⟩ := Lib.bind_eq_ok.mp h
        obtain ⟨hg, slot, hslot, rfl, ha0⟩ := bmap_spec ho hi ht hb
        have hpos := pass_pos h0 off
        dsimp only at h
        generalize hm : min src.length (BSIZE - off % BSIZE) = m at *
        have hlen : (src.take m).length = m := by rw [List.length_take]; omega
        have ht₁ := hg.type_ne ht
        have hw := Extends.write hg.owned hi ht₁ (indexSlot_ne_ind hslot)
          ((d₁.data (slotAddr d₁.data di₁ slot)).putList (off % BSIZE) (src.take m))
        have hpass := KeepsBytes.pass (src.take m) hg hi ht₁ hslot
        obtain ⟨hrest, hbytes⟩ := ih (off + m) (src.drop m) (by rw [List.length_drop]; omega)
          hw.owned ht₁ h
        have he := (writeiLoop_spec hi fuel (off + m) (src.drop m) (by rw [List.length_drop]; omega)
          hw.owned ht₁ h).1
        rw [List.length_drop] at hrest hbytes
        rw [hlen] at hpass
        refine ⟨hpass.trans (hg.toExtends.trans hw) hrest (by omega), fun k hk => ?_⟩
        by_cases hkm : k < m
        · -- written by this pass, and left alone by the others
          have hself : (d₁.setDinode i di₁).hold sb (i, slot) = slotAddr d₁.data di₁ slot :=
            hold_setDinode_self hi ht₁
          have hplace := hw.kept (i, slot) (by rw [hself]; exact ha0)
          rw [hself] at hplace
          have hend := he.kept (i, slot) (by rw [hplace]; exact ha0)
          rw [hplace, hold_setDinode_self hi (he.type_ne ht₁)] at hend
          have hdiv : (off + k) / BSIZE = off / BSIZE := by simp only [BSIZE] at *; omega
          have hmod : (off + k) % BSIZE = off % BSIZE + k := by simp only [BSIZE] at *; omega
          have hlt : off % BSIZE + k < BSIZE := by rw [← hmod]; exact Nat.mod_lt _ (by decide)
          have hkeep := hrest (i, slot) (indexSlot_ne_ind hslot) (by rw [hplace]; exact ha0)
            (off % BSIZE + k) hlt fun _ bn hbn => by
              rw [indexSlot_injective hbn hslot]
              simp only [BSIZE]
              omega
          rw [hplace] at hkeep
          rw [byteAt_of_slot (by rw [hdiv]; exact hslot), hend, hmod, hkeep]
          simp only [Function.update_self]
          rw [Lib.Bytes.get8_putList_of_mem _ hlt (by omega) (by omega),
            List.getD_eq_getElem _ _ (by omega), List.getElem_take, List.getD_eq_getElem _ _ hk]
          congr 1
          omega
        · have := hbytes (k - m) (by omega)
          rw [show off + m + (k - m) = off + k by omega] at this
          rw [this, List.getD_eq_getElem _ _ (by rw [List.length_drop]; omega), List.getElem_drop,
            List.getD_eq_getElem _ _ hk]
          congr 1
          omega

/-! ### Failures -/

theorem balloc_error {e : Stop} (h : balloc sb d = .error e) : e = .ballocOutOfBlocks := by
  unfold balloc at h
  split at h
  · cases h
  · exact (Except.error.inj h).symm

/-- An address is missing only for want of blocks. -/
theorem addrOrAlloc_error {k : Fin (NDIRECT + 1)} {e : Stop}
    (h : addrOrAlloc sb d di k = .error e) : e = .ballocOutOfBlocks := by
  unfold addrOrAlloc at h
  split at h
  · rcases Lib.bind_eq_error.mp h with h | ⟨r, -, h⟩
    · exact balloc_error h
    · cases h
  · cases h

/-- Below the greatest size of a file, `bmap` fails only for want of a block. -/
theorem bmap_error {bn : ℕ} {e : Stop} (hbn : bn < MAXFILE) (h : bmap sb d di bn = .error e) :
    e = .ballocOutOfBlocks := by
  unfold bmap at h
  split at h
  · exact addrOrAlloc_error h
  · split at h
    · rcases Lib.bind_eq_error.mp h with h | ⟨r, -, h⟩
      · exact addrOrAlloc_error h
      · rcases Lib.bind_eq_error.mp h with h | ⟨r, -, h⟩
        · unfold entryOrAlloc at h
          split at h
          · rcases Lib.bind_eq_error.mp h with h | ⟨r, -, h⟩
            · exact balloc_error h
            · cases h
          · cases h
        · cases h
    · rename_i h₁ h₂
      simp only [MAXFILE] at hbn
      omega

/-- The loop of `writei` stops only for want of blocks. -/
theorem writeiLoop_error {e : Stop} (fuel : ℕ) : ∀ {d di} (off : ℕ) (src : List UInt8),
    off + src.length ≤ MAXFILE * BSIZE → writeiLoop sb fuel d di off src = .error e →
      e = .ballocOutOfBlocks := by
  induction fuel with
  | zero => intro d di off src _ h; cases h
  | succ fuel ih =>
      intro d di off src hlen h
      rw [writeiLoop] at h
      split at h
      · cases h
      · rename_i h0
        rcases Lib.bind_eq_error.mp h with h | ⟨r, -, h⟩
        · refine bmap_error ?_ h
          simp only [BSIZE] at *
          omega
        · refine ih _ _ ?_ h
          rw [List.length_drop]
          omega

/-! ### The calls -/

/-- What a write of `src` at `off` has done to the file `i`, and that it has done nothing else to
any file. -/
structure Wrote (sb : Superblock) (i : Inum) (off : ℕ) (src : List UInt8) (s t : State) : Prop where
  size : (t.img.dinode i).size = max (s.img.dinode i).size (off + src.length)
  written : ∀ k < src.length, t.img.byte i (off + k) = src.getD k 0
  others : ∀ k < (s.img.dinode i).size, k < off ∨ off + src.length ≤ k →
    t.img.byte i k = s.img.byte i k
  attr : (t.img.dinode i).type = (s.img.dinode i).type ∧
    (t.img.dinode i).nlink = (s.img.dinode i).nlink
  files : ∀ j, j ≠ i → t.img.dinode j = s.img.dinode j ∧
    (j < sb.ninodes → (s.img.dinode j).type ≠ 0 →
      ∀ k < (s.img.dinode j).size, t.img.byte j k = s.img.byte j k)
  cache : t.toIcache = s.toIcache

variable {s t : State}

/-- The bytes of a file that the blocks hold, below its size. -/
theorem byte_kept {off n : ℕ} {j : Inum} {k : ℕ} (hc : d.Consistent sb)
    (hk : KeepsBytes sb i off n d (d.dinode i) d') (he : Extends sb i d (d.dinode i) d' di')
    (hj : j < sb.ninodes) (ht : (d.dinode j).type ≠ 0) (hlt : k < (d.dinode j).size)
    (hout : j = i → k < off ∨ off + n ≤ k) :
    byteAt d'.data (if j = i then di' else d.dinode j) k = d.byte j k := by
  obtain ⟨slot, hslot, h0⟩ := hc.noHoles j hj ht (k / BSIZE) (by simp only [BSIZE]; omega)
  have hself : d.hold sb (j, slot) = slotAddr d.data (d.dinode j) slot := if_pos ⟨hj, ht⟩
  have hview : (d.setDinode i (d.dinode i)).hold sb (j, slot) =
      slotAddr d.data (d.dinode j) slot := by rw [setDinode_self]; exact hself
  have hkept := he.kept (j, slot) (by rw [hview]; exact h0)
  have hbyte := hk (j, slot) (indexSlot_ne_ind hslot) (by rw [hview]; exact h0) (k % BSIZE)
    (Nat.mod_lt _ (by decide)) fun hji bn hbn => by
      rw [indexSlot_injective hbn hslot]
      have := hout hji
      simp only [BSIZE]
      omega
  rw [hview] at hkept hbyte
  have haddr : slotAddr d'.data (if j = i then di' else d.dinode j) slot =
      slotAddr d.data (d.dinode j) slot := by
    rw [← hkept]
    by_cases hji : j = i
    · subst hji
      rw [if_pos rfl, hold_setDinode_self hj (he.type_ne ht)]
    · rw [if_neg hji, hold_setDinode_of_ne hji, Image.hold, he.dinode, if_pos ⟨hj, ht⟩]
  rw [Image.byte, byteAt_of_slot hslot, byteAt_of_slot hslot, haddr, hbyte]

/-- Nor are the bytes of a file before the first data block. -/
theorem byteAt_below {k : ℕ} (hc : d.Consistent sb) (hi : i < sb.ninodes)
    (ht : (d.dinode i).type ≠ 0) {data : ℕ → Block}
    (hdata : ∀ b, sb.datastart ≤ b → data b = d.data b) (hk : k < (d.dinode i).size) :
    byteAt data (d.dinode i) k = d.byte i k := by
  obtain ⟨slot, hslot, h0⟩ := hc.noHoles i hi ht (k / BSIZE) (by simp only [BSIZE]; omega)
  have hself : d.hold sb (i, slot) = slotAddr d.data (d.dinode i) slot := if_pos ⟨hi, ht⟩
  have hle : sb.datastart ≤ slotAddr d.data (d.dinode i) slot := by
    rw [← hself] at h0 ⊢
    exact (hc.owned.range _ h0).1
  rw [Image.byte, byteAt_of_slot hslot, byteAt_of_slot hslot, hc.slotAddr_below hi ht hdata,
    hdata _ hle]

theorem byteAt_congr {data : ℕ → Block} (h : di'.addrs = di.addrs) :
    byteAt data di' = byteAt data di := by
  funext k
  have hs : ∀ slot, slotAddr data di' slot = slotAddr data di slot := by
    intro slot
    cases slot <;> simp [slotAddr, h]
  simp only [byteAt, hs]

/-- The inode after the loop, with its new size, on the blocks after the loop. -/
theorem Wrote.of_loop {off : ℕ} {src : List UInt8} {di₁ : Dinode} (h : s.Inv sb)
    (hl : s.locked i) (hcopy : s.copy i = s.img.dinode i)
    (hloop : writeiLoop sb src.length s.img (s.copy i) off src = .ok (d', di₁))
    (hdata : t.img.data = d'.data) (haddrs : (t.img.dinode i).addrs = di₁.addrs)
    (hattr : (t.img.dinode i).type = di₁.type ∧ (t.img.dinode i).nlink = di₁.nlink)
    (hsize : (t.img.dinode i).size = max (s.img.dinode i).size (off + src.length))
    (hothers : ∀ j, j ≠ i → t.img.dinode j = s.img.dinode j) (hcache : t.toIcache = s.toIcache) :
    Wrote sb i off src s t := by
  obtain ⟨hi, -, ht⟩ := h.of_locked hl
  have ho := h.consistent_copy hl
  rw [hcopy] at hloop ho
  obtain ⟨hext, -, -⟩ := writeiLoop_spec hi _ off src le_rfl ho ht hloop
  obtain ⟨hkeeps, hbytes⟩ := writeiLoop_bytes hi _ off src le_rfl ho ht hloop
  have hat : ∀ k, t.img.byte i k = byteAt d'.data di₁ k := fun k => by
    rw [Image.byte, hdata, byteAt_congr haddrs]
  refine ⟨hsize, fun k hk => ?_, fun k hk hout => ?_, ⟨?_, ?_⟩, fun j hj => ⟨hothers j hj, ?_⟩, hcache⟩
  · rw [hat, hbytes k hk]
  · have := byte_kept h.consistent hkeeps hext hi ht hk fun _ => hout
    rw [hat, ← this, if_pos rfl]
  · exact hattr.1.trans (congrArg Attr.type hext.attr)
  · exact hattr.2.trans (congrArg Attr.nlink hext.attr)
  · intro hjn htj k hk
    have := byte_kept h.consistent hkeeps hext hjn htj hk fun e => absurd e hj
    rw [Image.byte, hdata, hothers j hj, ← this, if_neg hj]

/-- What `writei` refuses. -/
def Refused (size off n : ℕ) : Prop := size < off ∨ wraps off n ∨ MAXFILE * BSIZE < off + n

theorem regular_ne_dev {type : ℤ} (hreg : type = T_FILE) : type ≠ T_DEV := by
  subst hreg
  decide

/-- What `writei` refuses, it refuses before it changes anything. -/
theorem writei_refuses {off : ℕ} {src : List UInt8} (h : s.Inv sb) (hl : s.locked i)
    (htype : (s.img.dinode i).type ≠ T_DEV)
    (hbad : Refused (s.img.dinode i).size off src.length) :
    s.writei sb devsw i off src = .ok (none, s) := by
  obtain ⟨-, hcopy, -⟩ := h.of_locked hl
  have hdev : ¬ (s.copy i).type = T_DEV := by rwa [hcopy]
  have hfile : writeiFile sb devsw s.img (s.copy i) off src = .ok (none, s.img, s.copy i, false) := by
    rw [writeiFile, if_neg hdev]
    by_cases h₁ : (s.copy i).size < off ∨ wraps off src.length
    · rw [if_pos h₁]
    · rw [if_neg h₁, if_pos]
      rw [hcopy] at h₁
      simp only [Refused] at hbad
      tauto
  simp [State.writei, hfile, bind, Except.bind, pure, Except.pure, State.setCopy]

/-- A write that is not refused, with all the fields of the inode after it. -/
theorem writei_writes {off : ℕ} {src : List UInt8} (h : s.Inv sb) (hl : s.locked i)
    (htype : (s.img.dinode i).type ≠ T_DEV)
    (hgood : ¬ Refused (s.img.dinode i).size off src.length) :
    s.writei sb devsw i off src = .error .ballocOutOfBlocks ∨
      ∃ t, s.writei sb devsw i off src = .ok (some src.length, t) ∧ Wrote sb i off src s t ∧
        (t.img.dinode i).attr = { (s.img.dinode i).attr with
          size := max (s.img.dinode i).size (off + src.length) } ∧
        t.outstanding = s.outstanding := by
  obtain ⟨hi, hcopy, ht⟩ := h.of_locked hl
  simp only [Refused, not_or, not_lt] at hgood
  have hdev : ¬ (s.copy i).type = T_DEV := by rwa [hcopy]
  have hfile : writeiFile sb devsw s.img (s.copy i) off src =
      (writeiLoop sb src.length s.img (s.copy i) off src).bind fun r =>
        if 0 < src.length ∧ r.2.size < off + src.length then
          .ok (some src.length, r.1, { r.2 with size := off + src.length }, true)
        else .ok (some src.length, r.1, r.2, false) := by
    rw [writeiFile, if_neg hdev, if_neg (by rw [hcopy]; simp only [not_or, not_lt]; exact
      ⟨hgood.1, hgood.2.1⟩), if_neg (by omega)]
    rfl
  rw [State.writei, hfile]
  cases hloop : writeiLoop sb src.length s.img (s.copy i) off src with
  | error e =>
      left
      rw [writeiLoop_error _ off src hgood.2.2 hloop]
      rfl
  | ok r =>
      right
      obtain ⟨d', di₁⟩ := r
      obtain ⟨hext, -, hnone⟩ := writeiLoop_spec hi _ off src le_rfl (h.consistent_copy hl)
        (hcopy ▸ ht) hloop
      have hattr : di₁.attr = (s.img.dinode i).attr := hext.attr.trans (congrArg _ hcopy)
      have hsize : di₁.size = (s.img.dinode i).size := congrArg Attr.size hattr
      simp only [Except.bind, bind]
      -- The size is written only if the file has grown.
      by_cases hgrow : 0 < src.length ∧ di₁.size < off + src.length
      · rw [if_pos hgrow]
        refine ⟨_, rfl, ?_⟩
        rw [if_pos rfl]
        refine ⟨.of_loop h hl hcopy hloop rfl ?_ ?_ ?_ ?_ rfl, ?_, rfl⟩
        · simp [State.iupdate, State.setCopy]
        · simp [State.iupdate, State.setCopy]
        · simp only [State.iupdate, State.setCopy, Function.update_self]
          omega
        · intro j hj
          simp [State.iupdate, State.setCopy, hj, hext.dinode]
        · simp only [State.iupdate, State.setCopy, Function.update_self]
          rw [max_eq_right (by omega), ← hattr]
          rfl
      · rw [if_neg hgrow]
        refine ⟨_, rfl, ?_⟩
        -- no growth, so no block was missing
        have hdi : di₁ = s.copy i := by
          refine hnone fun bn hs => ?_
          rw [hcopy]
          refine h.consistent.noHoles i hi ht bn ?_
          obtain ⟨h0, -, hlt⟩ := hs
          omega
        rw [if_neg (by simp)]
        refine ⟨.of_loop h hl hcopy hloop rfl ?_ ?_ ?_ ?_ rfl, ?_, rfl⟩
        · rw [hdi, hcopy]
          simp [State.setCopy, hext.dinode]
        · rw [hdi, hcopy]
          simp [State.setCopy, hext.dinode]
        · simp only [State.setCopy, hext.dinode]
          omega
        · intro j hj
          simp [State.setCopy, hext.dinode]
        · simp only [State.setCopy, hext.dinode]
          rw [max_eq_left (by omega)]
          rfl

theorem writei_refused {off : ℕ} {src : List UInt8} (h : s.Inv sb) (hl : s.locked i)
    (hreg : (s.img.dinode i).type = T_FILE)
    (hbad : Refused (s.img.dinode i).size off src.length) :
    s.writei sb devsw i off src = .ok (none, s) :=
  writei_refuses h hl (regular_ne_dev hreg) hbad

/-- What `writei` does not refuse, it writes, unless the disk is full. -/
theorem writei_accepted {off : ℕ} {src : List UInt8} (h : s.Inv sb) (hl : s.locked i)
    (hreg : (s.img.dinode i).type = T_FILE)
    (hgood : ¬ Refused (s.img.dinode i).size off src.length) :
    s.writei sb devsw i off src = .error .ballocOutOfBlocks ∨
      ∃ t, s.writei sb devsw i off src = .ok (some src.length, t) ∧ Wrote sb i off src s t := by
  refine (writei_writes h hl (regular_ne_dev hreg) hgood).imp_right ?_
  rintro ⟨t, ht, hw, -⟩
  exact ⟨t, ht, hw⟩

/-- `readi` returns the bytes of the file from `off` on, as far as there are any. -/
theorem readi_reads {off n : ℕ} (h : s.Inv sb) (hl : s.locked i)
    (hdev : (s.img.dinode i).type ≠ T_DEV) :
    s.readi sb devsw i off n =
      if (s.img.dinode i).size < off ∨ wraps off n then .ok (none, s)
      else .ok (some ((List.range (min n ((s.img.dinode i).size - off))).map
        fun k => s.img.byte i (off + k)), s) := by
  obtain ⟨hi, hcopy, ht⟩ := h.of_locked hl
  have hfile := readiFile_filled sb devsw off n hdev fun bn hs =>
    h.consistent.noHoles i hi ht bn (by obtain ⟨h0, -, hlt⟩ := hs; omega)
  rw [← hcopy] at hfile ⊢
  rw [readi_of_file hfile]
  split
  · rfl
  · rw [hcopy]
    rfl

theorem readi_bytes {off n : ℕ} (h : s.Inv sb) (hl : s.locked i)
    (hreg : (s.img.dinode i).type = T_FILE) :
    s.readi sb devsw i off n =
      if (s.img.dinode i).size < off ∨ wraps off n then .ok (none, s)
      else .ok (some ((List.range (min n ((s.img.dinode i).size - off))).map
        fun k => s.img.byte i (off + k)), s) :=
  readi_reads h hl (regular_ne_dev hreg)

/-- **Files are byte arrays.**  On an image whose blocks are owned and have no holes, for a locked
regular file: `writei` returns `-1`, and changes nothing, exactly where it must refuse; otherwise it
writes the bytes and nothing else, unless there is no block left.  `readi` returns `-1` exactly
where the offset is above the size or the sum wraps around; otherwise it returns the bytes there
are. -/
theorem files_are_byte_arrays (h : s.Inv sb) (hl : s.locked i)
    (hreg : (s.img.dinode i).type = T_FILE) (off : ℕ) :
    (∀ src : List UInt8,
      (s.writei sb devsw i off src = .ok (none, s) ↔
        Refused (s.img.dinode i).size off src.length) ∧
      (¬ Refused (s.img.dinode i).size off src.length →
        s.writei sb devsw i off src = .error .ballocOutOfBlocks ∨
          ∃ t, s.writei sb devsw i off src = .ok (some src.length, t) ∧ Wrote sb i off src s t)) ∧
    ∀ n : ℕ,
      (s.readi sb devsw i off n = .ok (none, s) ↔ (s.img.dinode i).size < off ∨ wraps off n) ∧
      (¬ ((s.img.dinode i).size < off ∨ wraps off n) →
        s.readi sb devsw i off n = .ok (some ((List.range (min n ((s.img.dinode i).size - off))).map
          fun k => s.img.byte i (off + k)), s)) := by
  refine ⟨fun src => ⟨⟨fun hnone => ?_, writei_refused h hl hreg⟩, writei_accepted h hl hreg⟩,
    fun n => ?_⟩
  · by_contra hgood
    have hacc := @writei_accepted sb devsw i s off src h hl hreg hgood
    rw [hnone] at hacc
    simp at hacc
  · rw [readi_bytes h hl hreg]
    by_cases hbad : (s.img.dinode i).size < off ∨ wraps off n <;> simp [hbad]

/-- The empty file of `oneFile`, opened and locked. -/
def oneLocked : State where
  ref := fun i => if i = 1 then 1 else 0
  valid := (· = 1)
  locked := (· = 1)
  img := oneFile
  copy := fun _ => oneFile.dinode 1
  outstanding := 1

/-- One locked file with one block is a state of the invariant. -/
theorem oneLocked_inv : oneLocked.Inv oneBlock where
  consistent := oneFile_consistent
  range := fun i hi => by
    by_cases h1 : i = 1
    · subst h1
      decide
    · simp [oneLocked, h1] at hi
  coherent := fun i _ hv => by
    obtain rfl : i = 1 := by simpa [oneLocked] using hv
    exact ⟨rfl, by decide⟩
  held := fun i hl => by
    obtain rfl : i = 1 := by simpa [oneLocked] using hl
    decide

/-- Two bytes are written to it. -/
theorem files_are_byte_arrays_two : ∃ t : State, oneLocked.writei oneBlock noDevices 1 0 [7, 8] =
    .ok (some 2, t) ∧ t.img.byte 1 0 = 7 ∧ t.img.byte 1 1 = 8 ∧ (t.img.dinode 1).size = 2 := by
  obtain ⟨hwrite, -⟩ := @files_are_byte_arrays oneBlock noDevices 1 oneLocked oneLocked_inv rfl
    (by decide) 0
  rcases (hwrite [7, 8]).2 (by unfold Refused; decide) with he | ⟨t, ht, hw⟩
  · have hok : (oneLocked.writei oneBlock noDevices 1 0 [7, 8]).toOption.isSome = true := by
      decide +kernel
    simp [he, Except.toOption] at hok
  · exact ⟨t, ht, hw.written 0 (by decide), hw.written 1 (by decide), hw.size⟩

end Xv6.Fs
