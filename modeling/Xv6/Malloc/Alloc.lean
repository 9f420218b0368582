import Xv6.Malloc.Free
import Mathlib.Data.Int.ModEq

/-!
# Malloc — `malloc`

The loop of `malloc` goes round the ring and takes the first block that is large enough, or its
tail.

* `firstFit_returns` — where there is such a block the loop returns; `Carved` says what it does.
* `firstFit_full` — where there is none, the loop comes to `freep` and asks for memory.
* `morecore_spec` — the new memory is a block of the list.
-/

namespace Xv6.Malloc

open Lib (Extent)

variable {P : Process} {h h' : Heap} {L L' : List Block} {x y : Block} {n : ℕ}

/-- The headers of blocks that share no place with those of `L` are those of `m`. -/
def Frame (P : Process) (m m' : Mem) (L : List Block) : Prop :=
  ∀ y : Block, 0 < y.size → P.base + HEADER ≤ y.addr → (∀ c ∈ L, y.Disjoint c) → Same m m' y.addr

/-- `x` is taken out of the free list `L`, and `L'` is left. -/
structure Carved (P : Process) (h : Heap) (L : List Block) (n : ℕ) (r : ℕ × Heap) (x : Block)
    (L' : List Block) : Prop where
  ap : r.1 = x.addr + HEADER
  list : FreeList P r.2 L'
  units_eq : x.size = n
  header : size r.2.mem x.addr = n
  within : ∀ y ∈ x :: L', ∃ c ∈ L, c.addr ≤ y.addr ∧ y.stop ≤ c.stop
  disjoint : (x :: L').Pairwise Extent.Disjoint
  total : x.size + Extent.units L' = Extent.units L
  calls : r.2.calls = h.calls
  frame : Frame P h.mem r.2.mem L

/-! ### The ring of the list -/

theorem FreeList.ne_nil (P : Process) (L : List Block) : P.first :: L ≠ [] := List.cons_ne_nil _ _

/-- The addresses of the free list tell its blocks apart. -/
theorem FreeList.node_addr_inj (hf : FreeList P h L) {i j : ℕ}
    (hij : (node (P.first :: L) i).addr = (node (P.first :: L) j).addr) :
    i % (P.first :: L).length = j % (P.first :: L).length := by
  have hpos : 0 < (P.first :: L).length := Nat.succ_pos _
  rw [← node_mod _ i, ← node_mod _ j] at hij
  have hlt {i j : ℕ} (hij : i < j) (hj : j < (P.first :: L).length) :
      (node (P.first :: L) i).addr < (node (P.first :: L) j).addr :=
    (Extent.addr_le_stop _).trans_lt (hf.node_lt hij hj)
  rcases Nat.lt_trichotomy (i % (P.first :: L).length) (j % (P.first :: L).length) with h | h | h
  · exact absurd hij (hlt h (Nat.mod_lt _ hpos)).ne
  · exact h
  · exact absurd hij (hlt h (Nat.mod_lt _ hpos)).ne'

/-- A block of the list that is not `base`, and the one that leads to it. -/
theorem node_split {i : ℕ} (hi : node (P.first :: L) (i + 1) ≠ P.first) :
    ∃ A C B, L = C ++ node (P.first :: L) (i + 1) :: B ∧
      P.first :: C = A ++ [node (P.first :: L) i] := by
  set N := P.first :: L with hN
  have hpos : 0 < N.length := Nat.succ_pos _
  have hi' := Nat.mod_lt i hpos
  have hstep : (i + 1) % N.length = i % N.length + 1 := by
    rw [← Nat.mod_add_mod]
    refine Nat.mod_eq_of_lt (lt_of_le_of_ne hi' fun heq => hi ?_)
    rw [← node_mod, ← Nat.mod_add_mod, heq, Nat.mod_self, node_of_lt hpos]
    rfl
  have hlt : i % N.length + 1 < N.length := hstep ▸ Nat.mod_lt _ hpos
  rw [← node_mod N (i + 1), hstep, ← node_mod N i]
  generalize i % N.length = k at hi' hlt ⊢
  have hk : k < L.length := Nat.lt_of_succ_lt_succ hlt
  refine ⟨N.take k, L.take k, L.drop (k + 1), ?_, ?_⟩
  · rw [node_of_lt hlt]
    simp only [hN, List.getElem_cons_succ]
    rw [← List.drop_eq_getElem_cons hk, List.take_append_drop]
  · rw [node_of_lt hi', List.take_concat_get' _ _ hi', hN, List.take_succ_cons]

/-! ### The loop -/

/-- The walk of `malloc` along the ring, with what is done at a block that is large enough, and at
`freep` with the fuel that is left. -/
def round {α : Type} (m : Mem) (freep n : ℕ) (found : ℕ → ℕ → Option α) (ask : ℕ → Option α) :
    ℕ → ℕ → ℕ → Option α
  | 0, _, _ => none
  | fuel + 1, prevp, p =>
      if size m p ≥ n then found prevp p
      else if p = freep then ask fuel
      else round m freep n found ask fuel p (ptr m p)

variable {α : Type} {found : ℕ → ℕ → Option α} {ask : ℕ → Option α}

/-- The search of `malloc` is a round over the list. -/
theorem firstFit_eq_round (P : Process) (n : ℕ) (h : Heap) (fuel prevp p : ℕ) :
    firstFit P n fuel h prevp p =
      round h.mem h.freep n (fun prevp p => some (take h prevp p n))
        (fun fuel => (morecore P fuel h n).bind fun r =>
          if r.1 = 0 then some (0, r.2) else firstFit P n fuel r.2 r.1 (ptr r.2.mem r.1))
        fuel prevp p := by
  induction fuel generalizing prevp p with
  | zero => rfl
  | succ fuel ih =>
      rw [firstFit, round, ih]
      rfl

variable (found ask) in
/-- Blocks that are too small are passed. -/
theorem round_chain {m : Mem} {freep p q : ℕ} {C : List Block} {b : Block}
    (hc : Chain m p (C ++ [b]) q) (hsmall : ∀ c ∈ C, c.size < n ∧ c.addr ≠ freep)
    (hb : n ≤ b.size) (prevp : ℕ) : ∃ prevp', ∀ fuel,
      round m freep n found ask (fuel + 1 + C.length) prevp p = found prevp' b.addr := by
  induction C generalizing prevp p with
  | nil =>
      obtain ⟨rfl, hsize, -⟩ := hc
      exact ⟨prevp, fun fuel => by rw [List.length_nil, Nat.add_zero, round, hsize, if_pos hb]⟩
  | cons c C ih =>
      obtain ⟨rfl, hsize, hc⟩ := hc
      obtain ⟨⟨hlt, hne⟩, hsmall⟩ := List.forall_mem_cons.mp hsmall
      obtain ⟨prevp', h⟩ := ih hc hsmall c.addr
      refine ⟨prevp', fun fuel => ?_⟩
      rw [List.length_cons, ← Nat.add_assoc, round, hsize, if_neg (not_le.mpr hlt), if_neg hne, h]

/-- The search goes on over blocks that are too small. -/
theorem round_skip (hf : FreeList P h L) (d : ℕ) : ∀ i fuel prevp,
    (node (P.first :: L) i).addr = prevp →
    (∀ e < d, (node (P.first :: L) (i + 1 + e)).size < n ∧
      (node (P.first :: L) (i + 1 + e)).addr ≠ h.freep) →
    round h.mem h.freep n found ask (fuel + d) prevp (node (P.first :: L) (i + 1)).addr =
      round h.mem h.freep n found ask fuel (node (P.first :: L) (i + d)).addr
        (node (P.first :: L) (i + d + 1)).addr := by
  induction d with
  | zero => exact fun i fuel prevp hi _ => by rw [← hi]; rfl
  | succ d ih =>
      intro i fuel prevp hi hsmall
      obtain ⟨hsize, hne⟩ := hsmall 0 (Nat.succ_pos d)
      obtain ⟨hsz, hptr⟩ := node_next hf.chain (FreeList.ne_nil P L) (i + 1)
      rw [← Nat.add_assoc, round, hsz, if_neg (not_le.mpr hsize), if_neg hne, hptr,
        ih (i + 1) fuel _ rfl fun e he => by
          have := hsmall (e + 1) (Nat.succ_lt_succ he)
          rwa [← Nat.add_assoc, Nat.add_right_comm (i + 1)] at this]
      rw [Nat.add_right_comm i 1 d, Nat.add_assoc i d 1]

/-- Every block of the ring is met within one round. -/
theorem exists_ahead {l : List Block} {b : Block} (hb : b ∈ l) (k : ℕ) :
    ∃ d < l.length, node l (k + 1 + d) = b := by
  obtain ⟨j, hj, hjb⟩ := exists_node hb
  have hk := Nat.mod_lt (k + 1) (Nat.zero_lt_of_lt hj)
  refine ⟨(j + l.length - (k + 1) % l.length) % l.length, Nat.mod_lt _ (Nat.zero_lt_of_lt hj), ?_⟩
  rw [← hjb, ← node_mod l (k + 1 + _), Nat.add_mod_mod, ← Nat.mod_add_mod,
    Nat.add_sub_cancel' (by omega), Nat.add_mod_right, node_mod]

/-- The blocks in front of one at `d`, from behind `freep` on, are not at `freep`. -/
theorem FreeList.ahead_ne (hf : FreeList P h L) {k d e : ℕ}
    (hk : (node (P.first :: L) k).addr = h.freep) (hd : d < (P.first :: L).length) (he : e < d) :
    (node (P.first :: L) (k + 1 + e)).addr ≠ h.freep := by
  intro heq
  have hmod := hf.node_addr_inj (heq.trans hk.symm)
  rw [Nat.add_assoc] at hmod
  have hdvd : (P.first :: L).length ∣ 1 + e := by
    have := (Nat.modEq_iff_dvd' (Nat.le_add_right k (1 + e))).mp hmod.symm
    rwa [Nat.add_sub_cancel_left] at this
  exact absurd (Nat.le_of_dvd (by omega) hdvd) (by omega)

theorem FreeList.exists_freep (hf : FreeList P h L) :
    ∃ k, (node (P.first :: L) k).addr = h.freep ∧
      ptr h.mem h.freep = (node (P.first :: L) (k + 1)).addr := by
  obtain ⟨b, hb, hfree⟩ := hf.freep
  obtain ⟨k, -, rfl⟩ := exists_node hb
  exact ⟨k, hfree, hfree ▸ (node_next hf.chain (FreeList.ne_nil P L) k).2⟩

/-- Where a block is large enough, the loop finds the first one. -/
theorem round_node (hf : FreeList P h L) (hfit : ∃ c ∈ L, n ≤ c.size) (hn : 0 < n) :
    ∃ i N, n ≤ (node (P.first :: L) (i + 1)).size ∧ node (P.first :: L) (i + 1) ≠ P.first ∧
      ∀ fuel, N ≤ fuel → round h.mem h.freep n found ask fuel h.freep (ptr h.mem h.freep) =
        found (node (P.first :: L) i).addr (node (P.first :: L) (i + 1)).addr := by
  obtain ⟨k, hk, hptr⟩ := hf.exists_freep
  obtain ⟨c, hc, hcn⟩ := hfit
  obtain ⟨e, he, hec⟩ := exists_ahead (List.mem_cons_of_mem P.first hc) k
  have hex : ∃ d, n ≤ (node (P.first :: L) (k + 1 + d)).size := ⟨e, hec ▸ hcn⟩
  have hd := Nat.find_spec hex
  have hde : Nat.find hex ≤ e := Nat.find_min' hex (hec ▸ hcn)
  have hmin : ∀ d' < Nat.find hex, (node (P.first :: L) (k + 1 + d')).size < n :=
    fun d' hd' => not_le.mp (Nat.find_min hex hd')
  generalize Nat.find hex = d at hd hde hmin
  rw [Nat.add_right_comm] at hd
  refine ⟨k + d, d + 1, hd, fun heq => ?_, fun fuel hfuel => ?_⟩
  · rw [heq] at hd
    exact absurd hn (not_lt.mpr hd)
  · obtain ⟨m, rfl⟩ := Nat.exists_eq_add_of_le hfuel
    rw [hptr, show d + 1 + m = m + 1 + d by omega,
      round_skip hf d k (m + 1) _ hk fun d' hd' =>
        ⟨hmin d' hd', hf.ahead_ne hk (hde.trans_lt he) hd'⟩, round,
      (node_next hf.chain (FreeList.ne_nil P L) _).1, if_pos hd]

/-- Where no block is large enough, the loop comes round to `freep`. -/
theorem round_full (hf : FreeList P h L) (hfull : ∀ c ∈ L, c.size < n) (hn : 0 < n) (fuel : ℕ) :
    round h.mem h.freep n found ask (fuel + 1 + L.length) h.freep (ptr h.mem h.freep) =
      ask fuel := by
  obtain ⟨k, hk, hptr⟩ := hf.exists_freep
  have hsmall : ∀ i, (node (P.first :: L) i).size < n := by
    intro i
    rcases List.mem_cons.mp (node_mem (FreeList.ne_nil P L) i) with hi | hi
    · rw [hi]
      exact hn
    · exact hfull _ hi
  have hround : (node (P.first :: L) (k + L.length + 1)).addr = h.freep := by
    rw [← hk, ← node_mod _ (k + L.length + 1), Nat.add_assoc, ← List.length_cons, Nat.add_mod_right,
      node_mod]
  rw [hptr, round_skip hf L.length k (fuel + 1) _ hk fun d hd =>
      ⟨hsmall _, hf.ahead_ne hk (Nat.lt_succ_self L.length) hd⟩, round,
    (node_next hf.chain (FreeList.ne_nil P L) _).1, if_neg (not_le.mpr (hsmall _)), if_pos hround]

theorem firstFit_full (hf : FreeList P h L) (hfull : ∀ c ∈ L, c.size < n) (hn : 0 < n) (fuel : ℕ) :
    firstFit P n (fuel + 1 + L.length) h h.freep (ptr h.mem h.freep) =
      (morecore P fuel h n).bind fun r =>
        if r.1 = 0 then some (0, r.2) else firstFit P n fuel r.2 r.1 (ptr r.2.mem r.1) := by
  rw [firstFit_eq_round, round_full hf hfull hn]

/-! ### Taking a block -/

theorem FreeList.clear_of_disjoint (hf : FreeList P h L) (hy : 0 < y.size)
    (hlo : P.base + HEADER ≤ y.addr) (hdisj : ∀ c ∈ L, y.Disjoint c) {b : Block}
    (hb : b ∈ P.first :: L) : Clear b.addr y.addr := by
  rcases List.mem_cons.mp hb with rfl | hb
  · exact .inl hlo
  · exact (hdisj b hb).symm.imp (header_le (hf.sized b hb)).trans (header_le hy).trans

section

variable {A B C : List Block} {a b : Block}

/-- The chain up to `a`, and from `b` on. -/
theorem FreeList.chain_at (hf : FreeList P h L) (hL : L = C ++ b :: B) (hA : P.first :: C = A ++ [a]) :
    Chain h.mem P.base A a.addr ∧ size h.mem a.addr = a.size ∧ ptr h.mem a.addr = b.addr ∧
      size h.mem b.addr = b.size ∧ Chain h.mem (ptr h.mem b.addr) B P.base := by
  have hN : P.first :: L = A ++ a :: b :: B := by
    rw [hL, ← List.cons_append, hA, List.append_assoc, List.singleton_append]
  have hchain := hN ▸ hf.chain
  obtain ⟨_, hcA, rfl, hsa, hptr, hsb, hcB⟩ := chain_append.mp hchain
  rw [hptr] at hsb hcB
  exact ⟨hcA, hsa, hptr, hsb, hcB⟩

/-- The headers of the list, but for the block `b`, share no byte with that of `b`. -/
theorem FreeList.clear_at (hf : FreeList P h L) (hL : L = C ++ b :: B) :
    ∀ c, c ∈ P.first :: C ∨ c ∈ B → Clear b.addr c.addr := by
  have hapart : Extent.Apart (P.first :: C ++ b :: B) := by
    rw [List.cons_append, ← hL]
    exact hf.apart
  obtain ⟨-, hbB, hCb⟩ := List.pairwise_append.mp hapart
  have hbL : b ∈ L := hL ▸ List.mem_append_right _ (List.mem_cons_self ..)
  rintro c (hc | hc)
  · have hcL : c ∈ P.first :: L := by
      rw [hL, ← List.cons_append]
      exact List.mem_append_left _ hc
    exact (hf.clear_of_lt hcL hbL (hCb c hc b (List.mem_cons_self ..))).symm
  · have hcL : c ∈ L := hL ▸ List.mem_append_right _ (List.mem_cons_of_mem _ hc)
    exact hf.clear_of_lt (List.mem_cons_of_mem _ hbL) hcL ((List.pairwise_cons.mp hbB).1 c hc)

/-- A list without one block, or with a part of it, is a free list. -/
theorem FreeList.of_chain (hf : FreeList P h L) (hchain : Chain h'.mem P.base (P.first :: L') P.base)
    (hapart : Extent.Apart (P.first :: L'))
    (hin : ∀ y ∈ L', 0 < y.size ∧ ∃ c ∈ L, c.addr ≤ y.addr ∧ y.stop ≤ c.stop)
    (hfreep : ∃ b ∈ P.first :: L', b.addr = h'.freep) : FreeList P h' L' where
  chain := hchain
  apart := hapart
  above y hy :=
    have ⟨_, c, hc, hlo, _⟩ := hin y hy
    (hf.above c hc).trans hlo
  sized y hy := (hin y hy).1
  fits y hy :=
    have ⟨_, c, hc, _, hhi⟩ := hin y hy
    hhi.trans_lt (hf.fits c hc)
  freep := hfreep

/-- The block is taken as a whole. -/
theorem FreeList.take_whole (hf : FreeList P h L) (hL : L = C ++ b :: B)
    (hA : P.first :: C = A ++ [a]) (hb : b.size = n) :
    Carved P h L n (take h a.addr b.addr n) b (C ++ B) := by
  obtain ⟨hcA, hsa, hptr, hsb, hcB⟩ := hf.chain_at hL hA
  have hN : P.first :: L = A ++ a :: b :: B := by
    rw [hL, ← List.cons_append, hA, List.append_assoc, List.singleton_append]
  have hN' : P.first :: (C ++ B) = A ++ a :: B := by
    rw [← List.cons_append, hA, List.append_assoc, List.singleton_append]
  have hbL : b ∈ L := hL ▸ List.mem_append_right _ (List.mem_cons_self ..)
  have haN : a ∈ P.first :: L := hN ▸ List.mem_append_right _ (List.mem_cons_self ..)
  have hsub : ∀ c ∈ C ++ B, c ∈ L := by
    intro c hc
    rw [hL]
    rcases List.mem_append.mp hc with hc | hc
    · exact List.mem_append_left _ hc
    · exact List.mem_append_right _ (List.mem_cons_of_mem _ hc)
  have happ : plus b.addr 1 = b.addr + HEADER := by
    refine Nat.mod_eq_of_lt ?_
    exact (header_le (hf.sized b hbL)).trans_lt (hf.fits b hbL)
  have htake : take h a.addr b.addr n =
      (b.addr + HEADER, ⟨setPtr h.mem a.addr (ptr h.mem b.addr), a.addr, h.calls⟩) := by
    rw [take, hsb, if_pos hb, happ]
  have hapart : Extent.Apart (A ++ a :: b :: B) := hN ▸ hf.apart
  obtain ⟨-, haB, hAa⟩ := List.pairwise_append.mp hapart
  -- The store into `a` touches no other header.
  have hclear : ∀ c, c ∈ A ∨ c ∈ B → Clear a.addr c.addr := by
    rintro c (hc | hc)
    · have hlt := hAa c hc a (List.mem_cons_self ..)
      have hcN : c ∈ P.first :: L := hN ▸ List.mem_append_left _ hc
      exact (hf.clear_of_lt hcN (hf.mem_of_lt hcN haN hlt) hlt).symm
    · exact hf.clear_of_lt haN (hsub c (List.mem_append_right _ hc))
        ((List.pairwise_cons.mp haB).1 c (List.mem_cons_of_mem _ hc))
  rw [htake]
  refine ⟨rfl, hf.of_chain ?_ ?_ ?_ ⟨a, hN' ▸ List.mem_append_right _ (List.mem_cons_self ..), rfl⟩,
    hb, ?_, ?_, ?_, ?_, rfl, ?_⟩
  · dsimp only
    rw [hN']
    refine chain_append.mpr ⟨a.addr, hcA.congr fun c hc => same_setPtr (hclear c (.inl hc)), rfl, ?_, ?_⟩
    · rw [size_setPtr, hsa]
    · rw [ptr_setPtr (hf.header_lt haN).le (ptr_lt ..)]
      exact hcB.congr fun c hc => same_setPtr (hclear c (.inr hc))
  · rw [hN']
    exact hapart.sublist (.append_left (.cons_cons a (List.sublist_cons_self b B)) A)
  · exact fun y hy => ⟨hf.sized y (hsub y hy), y, hsub y hy, le_rfl, le_rfl⟩
  · dsimp only
    rw [(same_setPtr ((hf.clear_at hL a (.inl (hA ▸ List.mem_append_right _
      (List.mem_singleton_self a)))).symm)).2, hsb, hb]
  · intro y hy
    refine ⟨y, ?_, le_rfl, le_rfl⟩
    rcases List.mem_cons.mp hy with rfl | hy
    · exact hbL
    · exact hsub y hy
  · have hdisj : (C ++ b :: B).Pairwise Extent.Disjoint :=
      hL ▸ Extent.Apart.disjoint (List.pairwise_cons.mp hf.apart).2
    exact (List.perm_middle.pairwise_iff fun h => h.symm).mp hdisj
  · rw [hL]
    simp only [Extent.units_append, Extent.units_cons]
    omega
  · exact fun y hy hlo hdisj => same_setPtr (hf.clear_of_disjoint hy hlo hdisj haN)

/-- The tail of the block is taken. -/
theorem FreeList.take_tail (hf : FreeList P h L) (hL : L = C ++ b :: B)
    (hA : P.first :: C = A ++ [a]) (hn : 0 < n) (hb : n < b.size) :
    Carved P h L n (take h a.addr b.addr n) ⟨b.addr + HEADER * (b.size - n), n⟩
      (C ++ ⟨b.addr, b.size - n⟩ :: B) := by
  obtain ⟨hcA, hsa, hptr, hsb, hcB⟩ := hf.chain_at hL hA
  set b' : Block := ⟨b.addr, b.size - n⟩ with hb'
  set x : Block := ⟨b.addr + HEADER * (b.size - n), n⟩ with hx
  have hbL : b ∈ L := hL ▸ List.mem_append_right _ (List.mem_cons_self ..)
  have hfit := hf.fits b hbL
  have hpos' : 0 < b'.size := Nat.sub_pos_of_lt hb
  have hstop' : b'.stop = x.addr := rfl
  have hstop : x.stop = b.stop := by
    rw [hx, Extent.stop, Extent.stop, Nat.add_assoc, ← Nat.mul_add, Nat.sub_add_cancel hb.le]
  have hxlo : b.addr + HEADER ≤ x.addr := header_le hpos'
  have hxhi : x.addr + HEADER < 2 ^ 32 := (header_le hn).trans_lt (hstop ▸ hfit)
  have hsmall : b.size < 2 ^ 32 := by
    have : b.addr + 8 * b.size < 2 ^ 32 := hfit
    omega
  have hbhi : b.addr + HEADER < 2 ^ 32 := (header_le (hf.sized b hbL)).trans_lt hfit
  have hN : P.first :: L = A ++ a :: b :: B := by
    rw [hL, ← List.cons_append, hA, List.append_assoc, List.singleton_append]
  have hN' : P.first :: (C ++ b' :: B) = A ++ a :: b' :: B := by
    rw [← List.cons_append, hA, List.append_assoc, List.singleton_append]
  have hfree : size (setSize h.mem b.addr (b.size - n)) b.addr = b.size - n :=
    size_setSize hbhi.le (lt_of_le_of_lt (Nat.sub_le ..) hsmall)
  have hplus : plus b.addr (b.size - n) = x.addr :=
    Nat.mod_eq_of_lt (lt_of_le_of_lt (Nat.le_add_right x.addr HEADER) hxhi)
  have htake : take h a.addr b.addr n =
      (x.addr + HEADER,
        ⟨setSize (setSize h.mem b.addr (b.size - n)) x.addr n, a.addr, h.calls⟩) := by
    rw [take, hsb, if_neg hb.ne']
    dsimp only
    rw [hfree, hplus, show plus x.addr 1 = x.addr + HEADER from Nat.mod_eq_of_lt hxhi]
  -- a header that is clear of the block stays
  have hsame : ∀ p, p + HEADER ≤ b.addr ∨ b.stop ≤ p →
      Same h.mem (setSize (setSize h.mem b.addr (b.size - n)) x.addr n) p := by
    intro p hp
    have hxstop : x.addr + HEADER ≤ b.stop := hstop ▸ header_le hn
    have hbclear : Clear b.addr p := hp.symm.imp (hxlo.trans ((Nat.le_add_right ..).trans hxstop)).trans id
    have hxclear : Clear x.addr p := hp.symm.imp hxstop.trans fun h =>
      h.trans ((Nat.le_add_right ..).trans hxlo)
    exact (same_setSize hbclear).trans (same_setSize hxclear)
  have hapart : Extent.Apart (P.first :: C ++ b :: B) := by
    rw [List.cons_append, ← hL]
    exact hf.apart
  obtain ⟨hCapart, hbB, hCb⟩ := List.pairwise_append.mp hapart
  have hout : ∀ c, c ∈ P.first :: C ∨ c ∈ B → c.addr + HEADER ≤ b.addr ∨ b.stop ≤ c.addr := by
    rintro c (hc | hc)
    · have hcN : c ∈ P.first :: L := by
        rw [hL, ← List.cons_append]
        exact List.mem_append_left _ hc
      have hlt := hCb c hc b (List.mem_cons_self ..)
      rcases hf.clear_of_lt hcN hbL hlt with h | h
      · exact .inl h
      · have := c.addr_le_stop
        omega
    · exact .inr ((List.pairwise_cons.mp hbB).1 c hc).le
  have hmemA : ∀ c ∈ A, c ∈ P.first :: C := fun c hc => hA ▸ List.mem_append_left _ hc
  have haC : a ∈ P.first :: C := hA ▸ List.mem_append_right _ (List.mem_singleton_self a)
  -- Each block of the new list lies in one of the old.
  have hin : ∀ y ∈ C ++ b' :: B, 0 < y.size ∧ ∃ c ∈ L, c.addr ≤ y.addr ∧ y.stop ≤ c.stop := by
    intro y hy
    rcases List.mem_append.mp hy with hy | hy
    · have hyL : y ∈ L := hL ▸ List.mem_append_left _ hy
      exact ⟨hf.sized y hyL, y, hyL, le_rfl, le_rfl⟩
    · rcases List.mem_cons.mp hy with rfl | hy
      · exact ⟨hpos', b, hbL, le_rfl, hstop' ▸ x.addr_le_stop.trans hstop.le⟩
      · have hyL : y ∈ L := hL ▸ List.mem_append_right _ (List.mem_cons_of_mem _ hy)
        exact ⟨hf.sized y hyL, y, hyL, le_rfl, le_rfl⟩
  have hapart' : Extent.Apart (P.first :: C ++ b' :: B) := by
    refine List.pairwise_append.mpr ⟨hCapart, List.pairwise_cons.mpr ⟨fun c hc => ?_,
      (List.pairwise_cons.mp hbB).2⟩, fun c hc d hd => ?_⟩
    · exact (hstop' ▸ x.addr_le_stop.trans hstop.le).trans_lt ((List.pairwise_cons.mp hbB).1 c hc)
    · rcases List.mem_cons.mp hd with rfl | hd
      · exact hCb c hc b (List.mem_cons_self ..)
      · exact hCb c hc d (List.mem_cons_of_mem _ hd)
  have hxb : Clear x.addr b.addr := .inr hxlo
  -- The smaller block takes the place of `b` in the chain; its tail is what is returned.
  rw [htake]
  refine ⟨rfl, hf.of_chain ?_ hapart' hin ⟨a, ?_, rfl⟩, rfl, ?_, ?_, ?_, ?_, rfl, ?_⟩
  · dsimp only
    rw [hN']
    have ha := hsame a.addr (hout a (.inl haC))
    have hb'' := same_setSize (m := setSize h.mem b.addr (b.size - n)) (v := n) hxb
    refine chain_append.mpr ⟨a.addr, hcA.congr fun c hc => hsame _ (hout c (.inl (hmemA c hc))), rfl,
      ha.2.trans hsa, ha.1.trans hptr, ?_, ?_⟩
    · rw [ha.1, hptr, hb''.2, hfree]
    · rw [ha.1, hptr, hb''.1, ptr_setSize]
      exact hcB.congr fun c hc => hsame _ (hout c (.inr hc))
  · exact hN' ▸ List.mem_append_right _ (List.mem_cons_self ..)
  · exact size_setSize hxhi.le (hb.trans hsmall)
  · intro y hy
    rcases List.mem_cons.mp hy with rfl | hy
    · exact ⟨b, hbL, (Nat.le_add_right ..).trans hxlo, hstop.le⟩
    · exact (hin y hy).2
  · refine List.pairwise_cons.mpr ⟨fun y hy => ?_,
      Extent.Apart.disjoint (List.pairwise_cons.mp hapart').2⟩
    rcases List.mem_append.mp hy with hy | hy
    · have hlt := hCb y (List.mem_cons_of_mem _ hy) b (List.mem_cons_self ..)
      exact .inr (hlt.le.trans ((Nat.le_add_right ..).trans hxlo))
    · rcases List.mem_cons.mp hy with rfl | hy
      · exact .inr hstop'.le
      · exact .inl (hstop.le.trans ((List.pairwise_cons.mp hbB).1 y hy).le)
  · rw [hL]
    simp only [Extent.units_append, Extent.units_cons, hb', hx]
    omega
  · intro y hy _ hdisj
    exact hsame _ ((hdisj b hbL).imp (header_le hy).trans id)

end

/-- The block that the loop finds is taken out of the list, whole or in part. -/
theorem FreeList.take_carved (hf : FreeList P h L) (hn : 0 < n) {i : ℕ}
    (hsize : n ≤ (node (P.first :: L) (i + 1)).size)
    (hfirst : node (P.first :: L) (i + 1) ≠ P.first) :
    ∃ x L', Carved P h L n
      (take h (node (P.first :: L) i).addr (node (P.first :: L) (i + 1)).addr n) x L' := by
  obtain ⟨A, C, B, hL, hA⟩ := node_split hfirst
  rcases hsize.eq_or_lt with heq | hlt
  · exact ⟨_, _, hf.take_whole hL hA heq.symm⟩
  · exact ⟨_, _, hf.take_tail hL hA hn hlt⟩

/-- **First fit**: where a block is large enough, the loop returns units of the list. -/
theorem firstFit_returns (hf : FreeList P h L) (hfit : ∃ c ∈ L, n ≤ c.size) (hn : 0 < n) :
    ∃ r x L', Returns (fun fuel => firstFit P n fuel h h.freep (ptr h.mem h.freep)) r ∧
      Carved P h L n r x L' := by
  obtain ⟨i, N, hsize, hfirst, hret⟩ := round_node hf hfit hn
  obtain ⟨x, L', hc⟩ := hf.take_carved hn hsize hfirst
  exact ⟨_, x, L', ⟨N, fun fuel hfuel => (firstFit_eq_round ..).trans (hret fuel hfuel)⟩, hc⟩

/-! ### More memory -/

/-- What `morecore` asks for. -/
def atLeast (nu : ℕ) : ℕ := if nu < 4096 then 4096 else nu

theorem le_atLeast (nu : ℕ) : nu ≤ atLeast nu := by
  unfold atLeast
  split <;> omega

theorem atLeast_pos (nu : ℕ) : 0 < atLeast nu := by
  unfold atLeast
  split <;> omega

/-- **`morecore`**: the new memory is a block of the list. -/
theorem morecore_spec (hf : FreeList P h L) {p : ℕ} (hp : P.sbrk h.calls (atLeast n) = some p)
    (hdisj : ∀ b ∈ L, Extent.Disjoint ⟨p, atLeast n⟩ b) :
    ∃ h', Returns (morecore P · h n) (h'.freep, h') ∧
      FreeList P h' (Extent.place ⟨p, atLeast n⟩ L) ∧ h'.calls = ⟨atLeast n, some p⟩ :: h.calls ∧
      Frame P h.mem h'.mem (⟨p, atLeast n⟩ :: L) := by
  obtain ⟨hlo, hhi, -⟩ := P.fresh hp
  set x : Block := ⟨p, atLeast n⟩ with hx
  have hsmall : atLeast n < 2 ^ 32 := by
    unfold HEADER at hhi
    omega
  have hxhi : x.addr + HEADER ≤ 2 ^ 32 := (header_le (atLeast_pos n)).trans hhi.le
  -- the header of the new block is written first
  set h₁ : Heap := ⟨setSize h.mem p (atLeast n), h.freep, ⟨atLeast n, some p⟩ :: h.calls⟩ with hh₁
  have hclear : ∀ b ∈ P.first :: L, Clear x.addr b.addr := by
    intro b hb
    rcases List.mem_cons.mp hb with rfl | hb
    · exact .inr hlo
    · exact (hdisj b hb).imp (header_le (atLeast_pos n)).trans (header_le (hf.sized b hb)).trans
  have hf₁ : FreeList P h₁ L :=
    ⟨hf.chain.congr fun b hb => same_setSize (hclear b hb), hf.apart, hf.above, hf.sized, hf.fits,
      hf.freep⟩
  have hspare : Spare P h₁.mem L x := ⟨hlo, atLeast_pos n, hhi, size_setSize hxhi hsmall, hdisj⟩
  obtain ⟨h', ⟨N, hret⟩, hf', hcalls, hsame⟩ := hf₁.free_spec hspare
  refine ⟨h', ⟨N, fun fuel hfuel => ?_⟩, hf', hcalls, fun y hy hylo hydisj => ?_⟩
  · have hfree : free fuel h₁ (p + HEADER) = some h' := hret fuel hfuel
    have hp' : P.sbrk h.calls (if n < 4096 then 4096 else n) = some p := hp
    unfold morecore
    dsimp only
    rw [hp']
    dsimp only
    rw [show (if n < 4096 then 4096 else n) = atLeast n from rfl, hfree]
    rfl
  · rw [List.forall_mem_cons] at hydisj
    have hyx : Clear x.addr y.addr :=
      hydisj.1.symm.imp (header_le (atLeast_pos n)).trans (header_le hy).trans
    refine (same_setSize hyx).trans (hsame _ fun b hb => ?_)
    rcases List.mem_cons.mp hb with rfl | hb
    · exact .inl hylo
    rcases List.mem_cons.mp hb with rfl | hb
    · exact hyx
    · exact hf.clear_of_disjoint hy hylo hydisj.2 (List.mem_cons_of_mem _ hb)

end Xv6.Malloc
