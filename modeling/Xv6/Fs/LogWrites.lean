import Xv6.Fs.Filewrite
import Xv6.Fs.Sectors
import Mathlib.Data.Finset.Card

/-!
# File system — the blocks that a write logs

`writei` with the numbers of the blocks it passes to `log_write`, which keeps each number once: the
data blocks, the blocks that `balloc` zeroes and the bitmap blocks it marks them in, the indirect
block and the inode's block.

* `Records` — leaving the numbers away gives the functions of the disk.
* `writeiLoop_logs` — what the loop logs, by the blocks the bytes lie in and those of them that are
  missing.
* `chunk_fits_transaction` — a chunk of `filewrite` logs `MAXOPBLOCKS` blocks at most.
-/

namespace Xv6.Fs

open Lib

/-! ### `log_write` -/

/-- The superblock, as the kernel has it and with all that is stored in it. -/
structure Geometry extends Superblock where
  stored : Super
  size_eq : stored.size = size
  ninodes_eq : stored.ninodes = ninodes

/-- A computation in a transaction, with the blocks logged so far. -/
abbrev Logging := StateT (Finset ℕ) (Except Stop)

/-- The block is in the transaction. -/
def log_write (b : ℕ) : Logging Unit := modify (insert b)

variable (g : Geometry)

namespace Logging

/-- `balloc`: the block of the bitmap and the new block are logged. -/
def balloc (d : Image) : Logging (ℕ × Image) := do
  let (b, d) ← Fs.balloc g.toSuperblock d
  log_write (BBLOCK b g.stored)
  log_write b
  pure (b, d)

/-- An address of the inode, allocated where it is 0. -/
def addrOrAlloc (d : Image) (ip : Dinode) (k : Fin (NDIRECT + 1)) : Logging (ℕ × Image × Dinode) :=
  if ip.addrs k = 0 then do
    let (addr, d) ← balloc g d
    pure (addr, d, ip.setAddr k addr)
  else pure (ip.addrs k, d, ip)

/-- An entry of the indirect block, allocated where it is 0. -/
def entryOrAlloc (d : Image) (ind j : ℕ) : Logging (ℕ × Image) :=
  if indirect (d.data ind) j = 0 then do
    let (addr, d) ← balloc g d
    log_write ind
    pure (addr, { d with data := Function.update d.data ind ((d.data ind).put32 (4 * j) addr) })
  else pure (indirect (d.data ind) j, d)

/-- `bmap`, with the blocks that it logs. -/
def bmap (d : Image) (ip : Dinode) (bn : ℕ) : Logging (ℕ × Image × Dinode) :=
  if h : bn < NDIRECT then addrOrAlloc g d ip (Fin.castSucc ⟨bn, h⟩)
  else if bn - NDIRECT < NINDIRECT then do
    let (ind, d, ip) ← addrOrAlloc g d ip (Fin.last NDIRECT)
    let (addr, d) ← entryOrAlloc g d ind (bn - NDIRECT)
    pure (addr, d, ip)
  else throw .bmapOutOfRange

/-- The loop of `writei`: a block is mapped, written and logged. -/
def writeiLoop : ℕ → Image → Dinode → ℕ → List UInt8 → Logging (Image × Dinode)
  | 0, d, ip, _, _ => pure (d, ip)
  | fuel + 1, d, ip, off, src =>
      if src.length = 0 then pure (d, ip)
      else do
        let (addr, d, ip) ← bmap g d ip (off / BSIZE)
        let m := min src.length (BSIZE - off % BSIZE)
        let blk := (d.data addr).putList (off % BSIZE) (src.take m)
        log_write addr
        writeiLoop fuel { d with data := Function.update d.data addr blk } ip (off + m) (src.drop m)

/-- `writei` of the inode `i`, with the `iupdate` it ends with. -/
def writei (devsw : Devsw) (i : Inum) (d : Image) (ip : Dinode) (off : ℕ) (src : List UInt8) :
    Logging (Option ℕ × Image × Dinode × Bool) :=
  if ip.type = T_DEV then
    match Devsw.find devsw.write ip.major with
    | none => pure (none, d, ip, false)
    | some write => pure (write src, d, ip, false)
  else if ip.size < off ∨ wraps off src.length then pure (none, d, ip, false)
  else if MAXFILE * BSIZE < off + src.length then pure (none, d, ip, false)
  else do
    let (d, ip) ← writeiLoop g src.length d ip off src
    if 0 < src.length ∧ ip.size < off + src.length then do
      log_write (IBLOCK i g.stored)
      pure (some src.length, d, { ip with size := off + src.length }, true)
    else pure (some src.length, d, ip, false)

end Logging

/-! ### Without the log -/

/-- `x` is `y`, with the blocks logged. -/
def Records {α : Type} (x : Logging α) (y : Except Stop α) : Prop := ∀ L, (x L).map Prod.fst = y

namespace Records

variable {α β : Type} {x : Logging α} {y : Except Stop α}

theorem pure (a : α) : Records (pure a) (.ok a) := fun _ => rfl

theorem throw (e : Stop) : Records (throw e : Logging α) (.error e) := fun _ => rfl

theorem lift (y : Except Stop α) : Records (liftM y) y := fun L => by cases y <;> rfl

/-- What is recorded in two parts is recorded in the whole. -/
theorem bind {f : α → Logging β} {h : α → Except Stop β} (hx : Records x y)
    (hf : ∀ a, Records (f a) (h a)) : Records (x >>= f) (y.bind h) := fun L => by
  have hx := hx L
  show ((x L).bind fun r => f r.1 r.2).map Prod.fst = _
  cases hxL : x L with
  | error e =>
      rw [hxL] at hx
      rw [← hx]
      rfl
  | ok r =>
      rw [hxL] at hx
      rw [← hx]
      exact hf r.1 r.2

/-- `log_write` is nothing to the disk. -/
theorem log {b : ℕ} {f : Unit → Logging α} (h : Records (f ()) y) : Records (log_write b >>= f) y :=
  fun L => h (insert b L)

variable {g : Geometry}

theorem balloc (d : Image) : Records (Logging.balloc g d) (Fs.balloc g.toSuperblock d) := by
  have h : Records (Logging.balloc g d) ((Fs.balloc g.toSuperblock d).bind .ok) :=
    (lift _).bind fun r => .log (.log (.pure r))
  have hok : (Fs.balloc g.toSuperblock d).bind .ok = Fs.balloc g.toSuperblock d := by
    cases Fs.balloc g.toSuperblock d <;> rfl
  rwa [hok] at h

theorem addrOrAlloc (d : Image) (ip : Dinode) (k : Fin (NDIRECT + 1)) :
    Records (Logging.addrOrAlloc g d ip k) (Fs.addrOrAlloc g.toSuperblock d ip k) := by
  unfold Logging.addrOrAlloc Fs.addrOrAlloc
  split
  · exact (balloc d).bind fun r => .pure _
  · exact .pure _

theorem entryOrAlloc (d : Image) (ind j : ℕ) :
    Records (Logging.entryOrAlloc g d ind j) (Fs.entryOrAlloc g.toSuperblock d ind j) := by
  unfold Logging.entryOrAlloc Fs.entryOrAlloc
  split
  · exact (balloc d).bind fun r => .log (.pure _)
  · exact .pure _

/-- `bmap` does the same when what it logs is recorded. -/
theorem bmap (d : Image) (ip : Dinode) (bn : ℕ) :
    Records (Logging.bmap g d ip bn) (Fs.bmap g.toSuperblock d ip bn) := by
  unfold Logging.bmap Fs.bmap
  split
  · exact addrOrAlloc d ip _
  · split
    · exact (addrOrAlloc d ip _).bind fun r => (entryOrAlloc _ _ _).bind fun r => .pure _
    · exact .throw _

/-- So does the loop of `writei`. -/
theorem writeiLoop (fuel : ℕ) : ∀ (d : Image) (ip : Dinode) (off : ℕ) (src : List UInt8),
    Records (Logging.writeiLoop g fuel d ip off src)
      (Fs.writeiLoop g.toSuperblock fuel d ip off src) := by
  induction fuel with
  | zero => exact fun _ _ _ _ => .pure _
  | succ fuel ih =>
      intro d ip off src
      unfold Logging.writeiLoop Fs.writeiLoop
      split
      · exact .pure _
      · exact (bmap d ip _).bind fun r => .log (ih _ _ _ _)

/-- **`writei` is the one of the disk.** -/
theorem writei (devsw : Devsw) (i : Inum) (d : Image) (ip : Dinode) (off : ℕ) (src : List UInt8) :
    Records (Logging.writei g devsw i d ip off src)
      (writeiFile g.toSuperblock devsw d ip off src) := by
  unfold Logging.writei writeiFile
  split
  · cases (Devsw.find devsw.write ip.major : Option (List UInt8 → Option ℕ)) <;> exact .pure _
  · split
    · exact .pure _
    · split
      · exact .pure _
      · refine (writeiLoop _ _ _ _ _).bind fun r => ?_
        dsimp only
        split
        · exact .log (.pure _)
        · exact .pure _

/-- What returns with the log returns without. -/
theorem of_ok {α : Type} {x : Logging α} {y : Except Stop α} {a : α} {L L' : Finset ℕ}
    (h : Records x y) (hx : x L = .ok (a, L')) : y = .ok a := by
  rw [← h L, hx]
  rfl

end Records

/-! ### What is logged -/

variable {g : Geometry} {d d' : Image} {ip ip' ip₁ : Dinode} {i : Inum} {a bn off n lo : ℕ}
  {L L' : Finset ℕ}

namespace Logging

theorem bind_eq_ok {α β : Type} {x : Logging α} {f : α → Logging β} {b : β} :
    (x >>= f) L = .ok (b, L') ↔ ∃ a M, x L = .ok (a, M) ∧ f a M = .ok (b, L') := by
  show (x L).bind (fun r => f r.1 r.2) = _ ↔ _
  rw [Lib.bind_eq_ok]
  exact ⟨fun ⟨r, h₁, h₂⟩ => ⟨r.1, r.2, h₁, h₂⟩, fun ⟨a, M, h₁, h₂⟩ => ⟨(a, M), h₁, h₂⟩⟩

/-- `balloc` logs the bitmap and the new block. -/
theorem balloc_logs (h : balloc g d L = .ok ((a, d'), L')) :
    L' = insert a (insert (BBLOCK a g.stored) L) := by
  obtain ⟨⟨b, d₁⟩, M, hb, h⟩ := bind_eq_ok.mp h
  have hM : M = L := by
    cases hx : Fs.balloc g.toSuperblock d with
    | error e =>
        rw [hx] at hb
        cases hb
    | ok r =>
        rw [hx] at hb
        cases hb
        rfl
  cases h
  rw [hM]

/-- An address that is missing costs the blocks of `balloc`. -/
theorem addrOrAlloc_logs {k : Fin (NDIRECT + 1)} (h : addrOrAlloc g d ip k L = .ok ((a, d', ip'), L')) :
    (ip.addrs k ≠ 0 ∧ a = ip.addrs k ∧ d' = d ∧ ip' = ip ∧ L' = L) ∨
      ip.addrs k = 0 ∧ L' = insert a (insert (BBLOCK a g.stored) L) ∧ ip' = ip.setAddr k a := by
  unfold addrOrAlloc at h
  split at h
  · rename_i h0
    obtain ⟨⟨b, d₁⟩, M, hb, h⟩ := bind_eq_ok.mp h
    have := balloc_logs hb
    cases h
    exact .inr ⟨h0, this, rfl⟩
  · rename_i h0
    cases h
    exact .inl ⟨h0, rfl, rfl, rfl, rfl⟩

/-- An entry that is missing costs the indirect block besides. -/
theorem entryOrAlloc_logs {ind j : ℕ} (h : entryOrAlloc g d ind j L = .ok ((a, d'), L')) :
    L' = L ∨ indirect (d.data ind) j = 0 ∧ L' = insert ind (insert a (insert (BBLOCK a g.stored) L)) := by
  unfold entryOrAlloc at h
  split at h
  · rename_i h0
    obtain ⟨⟨b, d₁⟩, M, hb, h⟩ := bind_eq_ok.mp h
    have := balloc_logs hb
    obtain ⟨_, N, hN, h⟩ := bind_eq_ok.mp h
    cases hN
    cases h
    exact .inr ⟨h0, by rw [← this]⟩
  · cases h
    exact .inl rfl

end Logging

/-- The indirect block, if there is one. -/
def indBlock (ip : Dinode) : Finset ℕ :=
  if ip.addrs (Fin.last NDIRECT) = 0 then ∅ else {ip.addrs (Fin.last NDIRECT)}

/-- `1` where an indirect block is new. -/
def newInd (ip ip' : Dinode) : ℕ :=
  if ip.addrs (Fin.last NDIRECT) = 0 ∧ ip'.addrs (Fin.last NDIRECT) ≠ 0 then 1 else 0

theorem card_indBlock_le (ip : Dinode) : (indBlock ip).card ≤ 1 := by
  unfold indBlock
  split <;> simp

theorem mem_indBlock (h : ip.addrs (Fin.last NDIRECT) ≠ 0) :
    ip.addrs (Fin.last NDIRECT) ∈ indBlock ip := by
  rw [indBlock, if_neg h]
  exact Finset.mem_singleton_self _

theorem setAddr_self (ip : Dinode) (k : Fin (NDIRECT + 1)) (a : ℕ) : (ip.setAddr k a).addrs k = a :=
  Function.update_self ..

/-- **What `bmap` logs**: besides the block itself and the indirect block, the bitmap blocks of
what it allocates. -/
theorem bmap_logs {c : ℕ} (ho : (d.setDinode i ip).Owned g.toSuperblock) (hi : i < g.ninodes)
    (ht : ip.type ≠ 0) (h : Logging.bmap g d ip bn L = .ok ((a, d', ip'), L'))
    (hc : ¬ Filled d.data ip bn → 1 ≤ c) :
    ∃ S : Finset ℕ, S.card ≤ c + newInd ip ip' ∧ L' ⊆ insert a (L ∪ S ∪ indBlock ip') := by
  unfold Logging.bmap at h
  split at h
  · rename_i hbn
    rcases Logging.addrOrAlloc_logs h with ⟨-, -, -, -, rfl⟩ | ⟨h0, rfl, -⟩
    · exact ⟨∅, Nat.zero_le _, by grind⟩
    · refine ⟨{BBLOCK a g.stored}, ?_, by grind⟩
      have := hc (by
        rintro ⟨slot, hslot, hne⟩
        rw [indexSlot, dif_pos hbn] at hslot
        cases hslot
        exact hne h0)
      rw [Finset.card_singleton]
      omega
  · rename_i hbn
    split at h
    · rename_i hj
      obtain ⟨⟨ind, d₁, ip₁⟩, M, h₁, h⟩ := Logging.bind_eq_ok.mp h
      obtain ⟨⟨addr, d₂⟩, N, h₂, h⟩ := Logging.bind_eq_ok.mp h
      cases h
      have hslot : indexSlot bn = some (.via ⟨bn - NDIRECT, hj⟩) := by
        rw [indexSlot, dif_neg hbn, dif_pos hj]
      rcases Logging.addrOrAlloc_logs h₁ with ⟨hind, rfl, rfl, rfl, rfl⟩ | ⟨h0, rfl, rfl⟩
      · rcases Logging.entryOrAlloc_logs h₂ with rfl | ⟨hj0, rfl⟩
        · exact ⟨∅, Nat.zero_le _, by grind⟩
        · have hmem := mem_indBlock hind
          refine ⟨{BBLOCK a g.stored}, ?_, by grind⟩
          have := hc (by
            rintro ⟨slot, hs, hne⟩
            rw [hslot] at hs
            cases hs
            refine hne ((if_neg hind).trans ?_)
            exact hj0)
          rw [Finset.card_singleton]
          omega
      · have hne := (addrOrAlloc_spec ho hi ht (Records.of_ok (.addrOrAlloc d ip _) h₁)).2.2
        have hself := setAddr_self ip (Fin.last NDIRECT) ind
        have hmem : _ ∈ indBlock (ip.setAddr (Fin.last NDIRECT) ind) := mem_indBlock (by rwa [hself])
        rw [hself] at hmem
        -- The indirect block is new, and its bitmap block is counted for it.
        have hnew : newInd ip (ip.setAddr (Fin.last NDIRECT) ind) = 1 := if_pos ⟨h0, by rwa [hself]⟩
        have hcount := hc (by
          rintro ⟨slot, hs, hne⟩
          rw [hslot] at hs
          cases hs
          exact hne (if_pos h0))
        refine ⟨{BBLOCK ind g.stored, BBLOCK a g.stored}, ?_, ?_⟩
        · rw [hnew]
          exact Finset.card_le_two.trans (by omega)
        · rcases Logging.entryOrAlloc_logs h₂ with rfl | ⟨-, rfl⟩ <;> grind
    · cases h

/-! ### The loop -/

/-- The number of blocks from block `lo` on that the `n` bytes from `off` on lie in. -/
def spanned (lo off n : ℕ) : ℕ :=
  if n = 0 then 0 else (off + n - 1) / BSIZE + 1 - max lo (off / BSIZE)

theorem spanned_pass (lo off : ℕ) (h : n ≠ 0) : spanned lo off n = (if lo ≤ off / BSIZE then 1 else 0) +
    spanned lo (off + min n (BSIZE - off % BSIZE)) (n - min n (BSIZE - off % BSIZE)) := by
  have hB : BSIZE = 512 := rfl
  unfold spanned
  rw [if_neg h, hB]
  split <;> split <;> omega

/-- An indirect block stays. -/
theorem Extends.addrs_last (h : Extends g.toSuperblock i d ip d' ip') (hi : i < g.ninodes)
    (ht : ip.type ≠ 0) (h0 : ip.addrs (Fin.last NDIRECT) ≠ 0) :
    ip'.addrs (Fin.last NDIRECT) = ip.addrs (Fin.last NDIRECT) := by
  have hself : (d.setDinode i ip).hold g.toSuperblock (i, .ind) = ip.addrs (Fin.last NDIRECT) :=
    hold_setDinode_self hi ht
  have hkept := h.kept (i, .ind) (by rwa [hself])
  rw [hself, hold_setDinode_self hi (h.type_ne ht)] at hkept
  exact hkept

theorem Extends.indBlock_subset (h : Extends g.toSuperblock i d ip d' ip') (hi : i < g.ninodes)
    (ht : ip.type ≠ 0) : indBlock ip ⊆ indBlock ip' := by
  by_cases h0 : ip.addrs (Fin.last NDIRECT) = 0
  · rw [indBlock, if_pos h0]
    exact Finset.empty_subset _
  · rw [indBlock, indBlock, h.addrs_last hi ht h0]

/-- What is new after a run is new after its first part or its second, and not after both. -/
theorem Extends.newInd_add {d₁ : Image} (h : Extends g.toSuperblock i d ip d₁ ip₁)
    (h' : Extends g.toSuperblock i d₁ ip₁ d' ip') (hi : i < g.ninodes) (ht : ip.type ≠ 0) :
    newInd ip ip₁ + newInd ip₁ ip' = newInd ip ip' := by
  have hlast := h.addrs_last hi ht
  have hlast' := h'.addrs_last hi (h.type_ne ht)
  unfold newInd
  by_cases h₀ : ip.addrs (Fin.last NDIRECT) = 0
  · by_cases h₁ : ip₁.addrs (Fin.last NDIRECT) = 0
    · simp [h₀, h₁]
    · simp [h₀, h₁, hlast' h₁]
  · have h₁ : ip₁.addrs (Fin.last NDIRECT) ≠ 0 := by rwa [hlast h₀]
    simp [h₀, h₁]

/-- The blocks of one pass, and those of the passes after it. -/
theorem subset_pass {M S₁ S₂ A B : Finset ℕ} (hM : M ⊆ insert a (L ∪ S₁ ∪ A)) (hA : A ⊆ B)
    (hL : L' ⊆ insert a M ∪ S₂ ∪ B) : L' ⊆ L ∪ insert a (S₁ ∪ S₂) ∪ B := by
  intro b hb
  have h₁ := hL hb
  have h₂ := @hM b
  have h₃ := @hA b
  simp only [Finset.mem_union, Finset.mem_insert] at *
  tauto

/-- **What the loop of `writei` logs**: a data block for each block it writes, a bitmap block for
each of them that is missing, and the indirect block. -/
theorem writeiLoop_logs (hi : i < g.ninodes) (fuel : ℕ) :
    ∀ {d ip L} (off : ℕ) (src : List UInt8), src.length ≤ fuel →
      (d.setDinode i ip).Owned g.toSuperblock → ip.type ≠ 0 →
      (∀ bn, bn < lo → Filled d.data ip bn) →
      Logging.writeiLoop g fuel d ip off src L = .ok ((d', ip'), L') →
        ∃ S : Finset ℕ, S.card ≤ spanned 0 off src.length + spanned lo off src.length + newInd ip ip' ∧
          L' ⊆ L ∪ S ∪ indBlock ip' := by
  -- The blocks of one pass, and by induction those of the others.
  induction fuel with
  | zero =>
      intro d ip L off src _ _ _ _ h
      cases h
      exact ⟨∅, Nat.zero_le _, by grind⟩
  | succ fuel ih =>
      intro d ip L off src hn ho ht hf h
      rw [Logging.writeiLoop] at h
      split at h
      · cases h
        exact ⟨∅, Nat.zero_le _, by grind⟩
      · rename_i h0
        obtain ⟨⟨a, d₁, ip₁⟩, M, hb, h⟩ := Logging.bind_eq_ok.mp h
        obtain ⟨_, N, hN, h⟩ := Logging.bind_eq_ok.mp h
        cases hN
        obtain ⟨hg, slot, hslot, rfl, ha0⟩ := bmap_spec ho hi ht (Records.of_ok (.bmap d ip _) hb)
        have hw := Extends.write hg.owned hi (hg.type_ne ht) (indexSlot_ne_ind hslot)
          ((d₁.data (slotAddr d₁.data ip₁ slot)).putList (off % BSIZE)
            (src.take (min src.length (BSIZE - off % BSIZE))))
        have hgw := hg.toExtends.trans hw
        have hpos := pass_pos h0 off
        obtain ⟨S₁, hS₁, hM⟩ := @bmap_logs _ _ _ _ _ _ _ _ _ _ (if lo ≤ off / BSIZE then 1 else 0)
          ho hi ht hb fun hno => by
            split
            · exact le_rfl
            · exact absurd (hf _ (by omega)) hno
        obtain ⟨S₂, hS₂, hL'⟩ := ih (off + min src.length (BSIZE - off % BSIZE))
          (src.drop (min src.length (BSIZE - off % BSIZE))) (by rw [List.length_drop]; omega)
          hw.owned (hg.type_ne ht) (fun bn hbn => hgw.filled hi ht (hf bn hbn)) h
        have hrest := (writeiLoop_spec hi fuel _ _ (by rw [List.length_drop]; omega) hw.owned
          (hg.type_ne ht) (Records.of_ok (.writeiLoop fuel _ _ _ _) h)).1
        have hsub := hrest.indBlock_subset hi (hg.type_ne ht)
        have hnew := hgw.newInd_add hrest hi ht
        have hfirst := spanned_pass 0 off h0
        have hmiss := spanned_pass lo off h0
        rw [List.length_drop] at hS₂
        rw [if_pos (Nat.zero_le _)] at hfirst
        refine ⟨insert (slotAddr d₁.data ip₁ slot) (S₁ ∪ S₂), ?_, ?_⟩
        · have h₁ := Finset.card_insert_le (slotAddr d₁.data ip₁ slot) (S₁ ∪ S₂)
          have h₂ := Finset.card_union_le S₁ S₂
          omega
        · exact subset_pass hM hsub hL'

/-- A chunk lies in four blocks at most; where it is in four, the first is there already. -/
theorem spanned_chunk {size : ℕ} (hn : n ≤ MAXCHUNK) (hoff : off ≤ size) :
    spanned 0 off n + spanned ((size + BSIZE - 1) / BSIZE) off n ≤ 7 := by
  have hB : BSIZE = 512 := rfl
  have hM : MAXCHUNK = 1536 := by decide
  unfold spanned
  rw [hB] at *
  split <;> omega

/-- **What `writei` logs of a chunk**: whatever the size of the disk and whichever bitmap blocks its
allocations are in, `writei` of a chunk logs `MAXOPBLOCKS` blocks at most. -/
theorem writei_fits (devsw : Devsw) {src : List UInt8} {r : Option ℕ × Image × Dinode × Bool}
    (hc : d.Consistent g.toSuperblock) (hi : i < g.ninodes) (ht : (d.dinode i).type ≠ 0)
    (hn : src.length ≤ MAXCHUNK)
    (h : Logging.writei g devsw i d (d.dinode i) off src ∅ = .ok (r, L)) :
    L.card ≤ MAXOPBLOCKS := by
  unfold Logging.writei at h
  split at h
  · cases hf : (Devsw.find devsw.write (d.dinode i).major : Option (List UInt8 → Option ℕ)) <;>
      rw [hf] at h <;> cases h <;> exact Nat.zero_le _
  split at h
  · cases h
    exact Nat.zero_le _
  rename_i hoff
  split at h
  · cases h
    exact Nat.zero_le _
  obtain ⟨⟨d₁, ip₁⟩, M, hloop, h⟩ := Logging.bind_eq_ok.mp h
  have ho : (d.setDinode i (d.dinode i)).Owned g.toSuperblock := by
    rw [setDinode_self]
    exact hc.owned
  have hfilled : ∀ bn < ((d.dinode i).size + BSIZE - 1) / BSIZE, Filled d.data (d.dinode i) bn :=
    fun bn hbn => hc.noHoles i hi ht bn (by
      simp only [BSIZE] at *
      omega)
  obtain ⟨S, hS, hM⟩ := writeiLoop_logs hi _ off src le_rfl ho ht hfilled hloop
  have hle : off ≤ (d.dinode i).size := not_lt.mp (not_or.mp hoff).1
  have hspan := spanned_chunk hn hle
  have hnew : newInd (d.dinode i) ip₁ ≤ 1 := by
    unfold newInd
    split <;> omega
  have hind := card_indBlock_le ip₁
  -- With the inode's own block these are the ten that are reserved.
  have hM' : M.card ≤ 9 := by
    refine (Finset.card_le_card hM).trans ((Finset.card_union_le _ _).trans ?_)
    rw [Finset.empty_union]
    omega
  have hmax : MAXOPBLOCKS = 10 := rfl
  dsimp only at h
  split at h
  · obtain ⟨_, N, hN, h⟩ := Logging.bind_eq_ok.mp h
    cases hN
    cases h
    have := Finset.card_insert_le (IBLOCK i g.stored) M
    omega
  · cases h
    omega

/-! ### The transactions of `filewrite` -/

/-- The operations of one pass of the loop of `filewrite`. -/
def transaction (ip : Inum) (c : ℕ × List UInt8) : List Op :=
  [.begin_op, .ilock ip, .writei ip c.1 c.2, .iunlock ip, .end_op]

/-- The operations performed are those of `before`, and then transactions of one chunk each. -/
def Chunks (ip : Inum) (before : List Op) (u : State × List (Prog.Event Op Op.Res State)) : Prop :=
  ∃ cs : List (ℕ × List UInt8), u.2.map Prog.Event.op = before ++ cs.flatMap (transaction ip) ∧
    ∀ c ∈ cs, c.2.length ≤ MAXCHUNK

variable {sb : Superblock} {devsw : Devsw} {addr : ℕ → UInt8} {m : ℤ} {ops : List Op}
  {u : State × List (Prog.Event Op Op.Res State)}

/-- One operation more. -/
theorem performed {o : Op} {Q : o.Res → State × List (Prog.Event Op Op.Res State) → Prop}
    (hu : u.2.map Prog.Event.op = ops)
    (h : ∀ r v, v.2.map Prog.Event.op = ops ++ [o] → Q r v) :
    (Prog.perform o : Call o.Res).wp (Prog.traced (diskOps sb devsw)) (fun _ => True) Q u := by
  refine Prog.wp_perform.mpr ⟨fun r v hr => ?_, fun _ _ => trivial⟩
  obtain ⟨t, -, rfl⟩ := Prog.traced_eq_ok.mp hr
  exact h r _ (by rw [List.map_append, hu]; rfl)

/-- The loop of `filewrite` makes its writes in chunks of `max` at most. -/
theorem filewriteFrom_chunks (fuel : ℕ) : ∀ (f : File) (j : ℕ)
    (u : State × List (Prog.Event Op Op.Res State)),
      (filewriteFrom addr m fuel f j).wp (Prog.traced (diskOps sb devsw)) (fun _ => True)
        (fun _ v => Chunks f.ip (u.2.map Prog.Event.op) v) u := by
  have hnone : ∀ (ip : Inum) (u : State × List (Prog.Event Op Op.Res State)),
      Chunks ip (u.2.map Prog.Event.op) u := fun ip u => ⟨[], by simp, by simp⟩
  induction fuel with
  | zero => exact fun f j u => hnone _ u
  | succ fuel ih =>
      intro f j u
      rw [filewriteFrom]
      split
      · refine Prog.wp_seq (performed rfl fun _ v hv => hv) fun _ v hv => ?_
        refine Prog.wp_seq (performed hv fun _ w hw => hw) fun _ w hw => ?_
        refine Prog.wp_seq (performed hw fun _ x hx => hx) fun r x hx => ?_
        refine Prog.wp_seq (performed hx fun _ y hy => hy) fun _ y hy => ?_
        refine Prog.wp_seq (performed hy fun _ z hz => hz) fun _ z hz => ?_
        have hlen : (chunk addr j (min (m - j).toNat MAXCHUNK)).length ≤ MAXCHUNK := by
          rw [length_chunk]
          exact min_le_right _ _
        have hone : Chunks f.ip (u.2.map Prog.Event.op) z :=
          ⟨[(f.off, chunk addr j (min (m - j).toNat MAXCHUNK))], by
            rw [hz]
            simp [transaction]
            rfl, fun c hc => by rw [List.mem_singleton.mp hc]; exact hlen⟩
        cases r with
        | none => exact hone
        | some k =>
            dsimp only
            split
            · trivial
            · refine Prog.wp_mono (ih (f.advance (some k)) (j + k) z) ?_
              rintro _ v ⟨cs, hcs, hle⟩
              obtain ⟨c, hc, hle'⟩ := hone
              refine ⟨c ++ cs, ?_, fun x hx => (List.mem_append.mp hx).elim (hle' x) (hle x)⟩
              rw [hcs, hc, List.flatMap_append, List.append_assoc]
              rfl
      · exact hnone _ u

/-- **A chunk fits in a transaction.**  Whatever the size of the disk, a chunk logs `MAXOPBLOCKS`
blocks at most, and `filewrite` writes one chunk in a transaction. -/
theorem chunk_fits_transaction (g : Geometry) (devsw : Devsw) :
    (∀ (d : Image) (i : Inum) (off : ℕ) (src : List UInt8) (r : Option ℕ × Image × Dinode × Bool)
      (L : Finset ℕ), d.Consistent g.toSuperblock → i < g.ninodes → (d.dinode i).type ≠ 0 →
        src.length ≤ MAXCHUNK →
        Logging.writei g devsw i d (d.dinode i) off src ∅ = .ok (r, L) → L.card ≤ MAXOPBLOCKS) ∧
    ∀ (s t : State) (f : File) (addr : ℕ → UInt8) (n : ℤ) (r : ℤ × File),
      (filewrite f addr n).run (diskOps g.toSuperblock devsw) s = .ok (r, t) →
        ∃ cs : List (ℕ × List UInt8),
          ((filewrite f addr n).events (diskOps g.toSuperblock devsw) s).map Prog.Event.op =
            cs.flatMap (transaction f.ip) ∧ ∀ c ∈ cs, c.2.length ≤ MAXCHUNK := by
  refine ⟨fun d i off src r L hc hi ht hn h => writei_fits devsw hc hi ht hn h,
    fun s t f addr n r hr => ?_⟩
  have hwp : (filewrite f addr n).wp (Prog.traced (diskOps g.toSuperblock devsw)) (fun _ => True)
      (fun _ v => Chunks f.ip [] v) (s, []) := by
    rw [filewrite]
    split
    · exact ⟨[], by simp, by simp⟩
    · exact filewriteFrom_chunks _ f 0 (s, [])
  exact Prog.wp_traced hwp hr

/-- The layout of a full disk. -/
def fullGeometry : Geometry := ⟨fullDisk, ⟨256, 236, 3, 16, 2, 18, 19⟩, rfl, rfl⟩

/-- Two bytes are written into a file of the full disk. -/
theorem chunk_fits_transaction_full : ∃ (r : Option ℕ × Image × Dinode × Bool) (L : Finset ℕ),
    Logging.writei fullGeometry noDevices 1 fullFile.img (fullFile.img.dinode 1) 100 [7, 8] ∅ =
      .ok (r, L) ∧ L.card ≤ MAXOPBLOCKS := by
  have hok : (Logging.writei fullGeometry noDevices 1 fullFile.img (fullFile.img.dinode 1) 100
      [7, 8] ∅).toOption.isSome = true := by decide +kernel
  obtain ⟨⟨r, L⟩, hr⟩ := Option.isSome_iff_exists.mp hok
  have hr := Lib.toOption_eq_some.mp hr
  exact ⟨r, L, hr, (chunk_fits_transaction fullGeometry noDevices).1 _ _ _ _ _ _
    fullFile_idle.inv.consistent (by decide) (by rw [fullFile_idle.regular]; decide) (by decide) hr⟩

end Xv6.Fs
