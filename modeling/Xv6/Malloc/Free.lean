import Xv6.Malloc.Ring
import Mathlib.Data.Nat.Find

/-!
# Malloc — `free`

`FreeList P h L`: in the heap `h` the free list is the ring of `base` and the blocks `L`, sorted,
where no block touches the next.

* `search_returns` — the loop of `free` ends, at the last block in front of the new one.
* `free_spec` — `free` is `Extent.place`: it returns, and the new block is in the list, joined with
  those that it touches.
-/

namespace Xv6.Malloc

open Lib (Extent)

/-- `base` as a block of no units. -/
def Process.first (P : Process) : Block := ⟨P.base, 0⟩

/-- The ring of the free blocks, by address, from `base` around. -/
structure FreeList (P : Process) (h : Heap) (L : List Block) : Prop where
  chain : Chain h.mem P.base (P.first :: L) P.base
  apart : Extent.Apart (P.first :: L)
  above : ∀ b ∈ L, P.base + HEADER ≤ b.addr
  sized : ∀ b ∈ L, 0 < b.size
  fits : ∀ b ∈ L, b.stop < 2 ^ 32
  freep : ∃ b ∈ P.first :: L, b.addr = h.freep

variable {P : Process} {h h' : Heap} {L : List Block} {x y : Block}

theorem first_stop (P : Process) : P.first.stop = P.base := rfl

theorem base_lt_of_le {p : ℕ} (h : P.base + HEADER ≤ p) : P.base < p :=
  lt_of_lt_of_le (Nat.lt_add_of_pos_right (by decide)) h

/-- A block that is not empty is longer than its header. -/
theorem header_le (hx : 0 < x.size) : x.addr + HEADER ≤ x.stop := by
  unfold Extent.stop HEADER
  omega

/-! ### The loop -/

/-- The condition at which the loop ends. -/
def Stops (m : Mem) (bp p : ℕ) : Prop :=
  (bp > p ∧ bp < ptr m p) ∨ (p ≥ ptr m p ∧ (bp > p ∨ bp < ptr m p))

instance (m : Mem) (bp p : ℕ) : Decidable (Stops m bp p) := inferInstanceAs (Decidable (_ ∨ _))

/-- One more block is looked at. -/
theorem search_succ (m : Mem) (bp p n : ℕ) :
    search m bp (n + 1) p = if Stops m bp p then some p else search m bp n (ptr m p) := by
  rw [search]
  by_cases h₁ : bp > p ∧ bp < ptr m p
  · rw [if_pos h₁, if_pos (show Stops m bp p from .inl h₁)]
  by_cases h₂ : p ≥ ptr m p ∧ (bp > p ∨ bp < ptr m p)
  · rw [if_neg h₁, if_pos h₂, if_pos (show Stops m bp p from .inr h₂)]
  · rw [if_neg h₁, if_neg h₂, if_neg (show ¬ Stops m bp p from not_or.mpr ⟨h₁, h₂⟩)]

/-- The loop goes round the ring to the block at which it ends. -/
theorem search_node {m : Mem} {bp p : ℕ} {l : List Block} {b : Block} (hc : Chain m p l p)
    (hl : l ≠ []) (hstop : Stops m bp b.addr) (honly : ∀ i, Stops m bp (node l i).addr → node l i = b)
    (d : ℕ) : ∀ i fuel, node l (i + d) = b → d < fuel →
      search m bp fuel (node l i).addr = some b.addr := by
  induction d with
  | zero =>
      intro i fuel hi hfuel
      obtain ⟨n, rfl⟩ := Nat.exists_eq_add_one_of_ne_zero (Nat.ne_zero_of_lt hfuel)
      rw [Nat.add_zero] at hi
      rw [search_succ, hi, if_pos hstop]
  | succ d ih =>
      intro i fuel hi hfuel
      obtain ⟨n, rfl⟩ := Nat.exists_eq_add_one_of_ne_zero (Nat.ne_zero_of_lt hfuel)
      rw [search_succ]
      split
      · next hs => rw [honly i hs]
      · rw [(node_next hc hl i).2]
        exact ih (i + 1) n (by rw [Nat.add_assoc, Nat.add_comm 1 d]; exact hi)
          (Nat.lt_of_succ_lt_succ hfuel)

theorem FreeList.node_lt (hf : FreeList P h L) {i j : ℕ} (hij : i < j)
    (hj : j < (P.first :: L).length) :
    (node (P.first :: L) i).stop < (node (P.first :: L) j).addr := by
  rw [node_of_lt (hij.trans hj), node_of_lt hj]
  exact List.pairwise_iff_getElem.mp hf.apart i j _ _ hij

/-- **The loop of `free`** ends at the last block in front of `bp`. -/
theorem FreeList.search_returns (hf : FreeList P h L) {bp : ℕ} (hlo : P.base < bp)
    (hne : ∀ b ∈ L, bp ≠ b.addr) :
    ∃ A b B, P.first :: L = A ++ b :: B ∧ b.addr < bp ∧ (∀ c ∈ B, bp < c.addr) ∧
      Returns (search h.mem bp · h.freep) b.addr := by
  set N := P.first :: L with hN
  have hpos : 0 < N.length := Nat.succ_pos _
  have hnil : N ≠ [] := List.length_pos_iff.mp hpos
  have hsorted {i j : ℕ} (hij : i < j) (hj : j < N.length) : (node N i).stop < (node N j).addr :=
    hf.node_lt hij hj
  have hne' : ∀ i, bp ≠ (node N i).addr := by
    intro i
    rcases List.mem_cons.mp (node_mem hnil i) with hi | hi
    · rw [hi]
      exact hlo.ne'
    · exact hne _ hi
  -- the last block in front of `bp`
  set j := Nat.findGreatest (fun i => (node N i).addr < bp) (N.length - 1) with hj
  have hzero : (node N 0).addr < bp := by
    rw [node_of_lt hpos]
    exact hlo
  have hjlt : j < N.length := by
    have := Nat.findGreatest_le (P := fun i => (node N i).addr < bp) (N.length - 1)
    omega
  have hlow : (node N j).addr < bp :=
    Nat.findGreatest_spec (P := fun i => (node N i).addr < bp) (Nat.zero_le _) hzero
  have hhigh : ∀ i, j < i → i < N.length → bp < (node N i).addr := by
    intro i hji hi
    have := Nat.findGreatest_is_greatest hji (by omega : i ≤ N.length - 1)
    exact lt_of_le_of_ne (not_lt.mp this) (hne' i)
  have hnext (i : ℕ) : ptr h.mem (node N i).addr = (node N (i + 1)).addr :=
    (node_next hf.chain hnil i).2
  have hlast : ∀ i, i + 1 = N.length → (node N (i + 1)).addr = P.base := by
    intro i hi
    rw [hi, ← node_mod, Nat.mod_self, node_of_lt hpos]
    rfl
  -- There the search stops, and at no other block.
  have hstop : Stops h.mem bp (node N j).addr := by
    rw [Stops, hnext j]
    by_cases hj1 : j + 1 < N.length
    · exact .inl ⟨hlow, hhigh _ (Nat.lt_succ_self j) hj1⟩
    · rw [hlast j (by omega)]
      refine .inr ⟨?_, .inl hlow⟩
      rcases Nat.eq_zero_or_pos j with hj0 | hj0
      · rw [hj0, node_of_lt hpos]
        exact le_rfl
      · have := hsorted hj0 hjlt
        rw [node_of_lt hpos] at this
        exact this.le
  have honly : ∀ i, Stops h.mem bp (node N i).addr → node N i = node N j := by
    intro i hi
    rw [← node_mod N i] at hi ⊢
    have hilt := Nat.mod_lt i hpos
    generalize i % N.length = i at hi hilt ⊢
    rw [Stops, hnext i] at hi
    rcases Nat.lt_trichotomy i j with hij | rfl | hij
    · -- the next block begins behind this one and is not behind `bp`
      have hstep := hsorted (Nat.lt_add_one i) (by omega : i + 1 < N.length)
      have hle := (node N i).addr_le_stop
      have hup : (node N (i + 1)).addr ≤ (node N j).addr := by
        rcases Nat.lt_or_eq_of_le (Nat.succ_le_of_lt hij) with hlt | heq
        · exact ((node N (i + 1)).addr_le_stop.trans_lt (hsorted hlt hjlt)).le
        · rw [← heq]
      omega
    · rfl
    · have hbp := hhigh i hij hilt
      by_cases hi1 : i + 1 < N.length
      · have hstep := hsorted (Nat.lt_add_one i) hi1
        have hle := (node N i).addr_le_stop
        omega
      · rw [hlast i (by omega)] at hi
        omega
  obtain ⟨b, hb, hfree⟩ := hf.freep
  obtain ⟨k, hk, hkb⟩ := exists_node hb
  refine ⟨N.take j, node N j, N.drop (j + 1), ?_, hlow, ?_, N.length + j + 1, fun fuel hfuel => ?_⟩
  · rw [node_of_lt hjlt, ← List.drop_eq_getElem_cons hjlt, List.take_append_drop]
  · intro c hc
    obtain ⟨i, hi, rfl⟩ := List.mem_iff_getElem.mp hc
    rw [List.length_drop] at hi
    rw [List.getElem_drop, ← node_of_lt (by omega : j + 1 + i < N.length)]
    exact hhigh _ (by omega) (by omega)
  · have hd : node N (k + (N.length - k + j)) = node N j := by
      rw [← Nat.add_assoc, Nat.add_sub_cancel' hk.le, ← node_mod, Nat.add_mod_left, node_mod]
    have := search_node hf.chain hnil hstop honly (N.length - k + j) k fuel hd (by omega)
    rwa [hkb, hfree] at this

/-! ### The list behind the loop -/

theorem link_eq {m : Mem} {bp p : ℕ} (h : Clear bp p) :
    link m bp p = attach (attach m bp (ptr m p)) p bp := by
  unfold link attach
  split
  · dsimp only
    rw [(same_setSize h).1]
  · rfl

/-- The header of a block of the list and one of a block behind it. -/
theorem FreeList.clear_of_lt (hf : FreeList P h L) {a b : Block} (ha : a ∈ P.first :: L) (hb : b ∈ L)
    (hab : a.stop < b.addr) : Clear a.addr b.addr := by
  rcases List.mem_cons.mp ha with rfl | ha
  · exact .inl (hf.above b hb)
  · exact .inl ((header_le (hf.sized a ha)).trans hab.le)

/-- A block of the heap comes after `base`. -/
theorem place_first (hx : P.base + HEADER ≤ x.addr) (hL : ∀ b ∈ L, P.base + HEADER ≤ b.addr) :
    x.place (P.first :: L) = P.first :: x.place L := by
  have hlt : P.base < x.addr := base_lt_of_le hx
  rw [Extent.place, if_neg (show ¬ x.addr < P.first.addr from hlt.not_gt), Extent.glue_of_ne]
  intro b hb
  have := Extent.forall_place (fun _ _ h _ _ => h) hx hL b hb
  rw [first_stop]
  exact (base_lt_of_le this).ne

/-- A block that `free` may be called for. -/
structure Spare (P : Process) (m : Mem) (L : List Block) (x : Block) : Prop where
  above : P.base + HEADER ≤ x.addr
  sized : 0 < x.size
  fits : x.stop < 2 ^ 32
  header : size m x.addr = x.size
  disjoint : ∀ b ∈ L, x.Disjoint b

theorem Spare.clear (hx : Spare P h.mem L x) (hf : FreeList P h L) :
    ∀ b ∈ P.first :: L, Clear x.addr b.addr := by
  intro b hb
  rcases List.mem_cons.mp hb with rfl | hb
  · exact .inr hx.above
  · exact (hx.disjoint b hb).imp (header_le hx.sized).trans (header_le (hf.sized b hb)).trans

theorem Spare.ne (hx : Spare P h.mem L x) (hf : FreeList P h L) :
    ∀ b ∈ P.first :: L, x.addr ≠ b.addr := by
  intro b hb heq
  have := hx.clear hf b hb
  unfold Clear HEADER at this
  omega

theorem FreeList.header_lt (hf : FreeList P h L) {b : Block} (hb : b ∈ P.first :: L) :
    b.addr + HEADER < 2 ^ 32 := by
  rcases List.mem_cons.mp hb with rfl | hb
  · exact P.base_lt
  · exact (header_le (hf.sized b hb)).trans_lt (hf.fits b hb)

theorem FreeList.stop_lt (hf : FreeList P h L) {b : Block} (hb : b ∈ P.first :: L) :
    b.stop < 2 ^ 32 := by
  rcases List.mem_cons.mp hb with rfl | hb
  · exact lt_of_le_of_lt (Nat.le_add_right ..) P.base_lt
  · exact hf.fits b hb

/-- No block of the list ends in front of `base`. -/
theorem FreeList.mem_of_lt (hf : FreeList P h L) {a b : Block} (ha : a ∈ P.first :: L)
    (hb : b ∈ P.first :: L) (hab : a.stop < b.addr) : b ∈ L := by
  refine (List.mem_cons.mp hb).resolve_left ?_
  rintro rfl
  rcases List.mem_cons.mp ha with rfl | ha
  · exact lt_irrefl P.base hab
  · exact absurd (hab.trans (base_lt_of_le (hf.above a ha))) (not_lt.mpr a.addr_le_stop)

/-- What `free` does behind the loop is to insert the block. -/
theorem FreeList.link_chain (hf : FreeList P h L) (hx : Spare P h.mem L x) {A B : List Block}
    {b : Block} (hN : P.first :: L = A ++ b :: B) :
    Chain (link h.mem x.addr b.addr) P.base (A ++ b.glue (x.glue B)) P.base ∧
      ∀ p, Clear x.addr p → Clear b.addr p → Same h.mem (link h.mem x.addr b.addr) p := by
  have hA : ∀ c ∈ A, c ∈ P.first :: L := fun c hc => hN ▸ List.mem_append_left _ hc
  have hB' : ∀ c ∈ B, c ∈ P.first :: L :=
    fun c hc => hN ▸ List.mem_append_right _ (List.mem_cons_of_mem _ hc)
  have hb : b ∈ P.first :: L := hN ▸ List.mem_append_right _ (List.mem_cons_self ..)
  have hapart : Extent.Apart (A ++ b :: B) := hN ▸ hf.apart
  obtain ⟨-, hbB, hAb⟩ := List.pairwise_append.mp hapart
  have hclear := hx.clear hf
  rw [link_eq (hclear b hb)]
  have hsame : ∀ p, Clear x.addr p → Clear b.addr p →
      Same h.mem (attach (attach h.mem x.addr (ptr h.mem b.addr)) b.addr x.addr) p :=
    fun p hxp hbp => (same_attach hxp).trans (same_attach hbp)
  refine ⟨?_, hsame⟩
  have hchain : Chain h.mem P.base (A ++ b :: B) P.base := hN ▸ hf.chain
  obtain ⟨_, hcA, rfl, hbsize, hcB⟩ := chain_append.mp hchain
  have hcx := attach_chain hcB ((header_le hx.sized).trans hx.fits.le) hx.header hx.fits
    (fun _ => ((base_lt_of_le hx.above).trans_le x.addr_le_stop).ne')
    (fun c hc => hclear c (hB' c hc)) (fun c hc => hf.stop_lt (hB' c hc)) (ptr_lt ..)
  have hcb := attach_chain hcx (hf.header_lt hb).le ((same_attach (hclear b hb)).2.trans hbsize)
    (hf.stop_lt hb)
    (fun hnil => absurd hnil (List.ne_nil_of_mem (Extent.exists_mem_glue x B).choose_spec.1))
    (Extent.forall_glue (fun _ _ h _ _ => h) (hclear b hb).symm fun c hc =>
      have hlt := (List.pairwise_cons.mp hbB).1 c hc
      hf.clear_of_lt hb (hf.mem_of_lt hb (hB' c hc) hlt) hlt)
    (Extent.forall_glue (fun _ _ _ h htouch => (Extent.stop_join htouch).symm ▸ h) hx.fits
      fun c hc => hf.stop_lt (hB' c hc))
    (x.addr_le_stop.trans_lt hx.fits)
  refine chain_append.mpr ⟨b.addr, hcA.congr fun c hc => ?_, hcb⟩
  have hlt := hAb c hc b (List.mem_cons_self ..)
  exact hsame _ (hclear c (hA c hc)) (hf.clear_of_lt (hA c hc) (hf.mem_of_lt (hA c hc) hb hlt) hlt).symm

/-- **`free`** returns, with the new block in the list; the other headers stay. -/
theorem FreeList.free_spec (hf : FreeList P h L) (hx : Spare P h.mem L x) :
    ∃ h', Returns (free · h (x.addr + HEADER)) h' ∧ FreeList P h' (x.place L) ∧ h'.calls = h.calls ∧
      ∀ p, (∀ b ∈ P.first :: x :: L, Clear b.addr p) → Same h.mem h'.mem p := by
  have hne : ∀ b ∈ L, x.addr ≠ b.addr := fun b hb => hx.ne hf b (List.mem_cons_of_mem _ hb)
  obtain ⟨A, b, B, hN, hbx, hB, N, hret⟩ := hf.search_returns (base_lt_of_le hx.above) hne
  obtain ⟨hchain, hsame⟩ := hf.link_chain hx hN
  have hb : b ∈ P.first :: L := hN ▸ List.mem_append_right _ (List.mem_cons_self ..)
  have hplace : P.first :: x.place L = A ++ b.glue (x.glue B) := by
    rw [← place_first hx.above hf.above, hN, Extent.place_split (hN ▸ hf.apart) hbx hB]
  refine ⟨⟨link h.mem x.addr b.addr, b.addr, h.calls⟩, ⟨N, fun fuel hfuel => ?_⟩,
    ⟨?_, ?_, ?_, ?_, ?_, ?_⟩, rfl, fun p hp => ?_⟩
  · simp only [free, Nat.add_sub_cancel, hret fuel hfuel]
    rfl
  · dsimp only
    rw [hplace]
    exact hchain
  · rw [← place_first hx.above hf.above]
    refine Extent.apart_place hf.apart ?_ (hx.ne hf)
    exact List.forall_mem_cons.mpr ⟨.inr (base_lt_of_le hx.above).le, hx.disjoint⟩
  · exact Extent.forall_place (fun _ _ h _ _ => h) hx.above hf.above
  · exact Extent.forall_place (fun _ _ h _ _ => Nat.add_pos_left h _) hx.sized hf.sized
  · exact Extent.forall_place (fun _ _ _ h htouch => (Extent.stop_join htouch).symm ▸ h) hx.fits
      hf.fits
  · rw [hplace]
    obtain ⟨c, hc, hcb, -⟩ := Extent.exists_mem_glue b (x.glue B)
    exact ⟨c, List.mem_append_right _ hc, hcb⟩
  · have hpb : Clear b.addr p := by
      rcases List.mem_cons.mp hb with rfl | hb
      · exact hp _ (List.mem_cons_self ..)
      · exact hp b (List.mem_cons_of_mem _ (List.mem_cons_of_mem _ hb))
    have hpx : Clear x.addr p := hp x (List.mem_cons_of_mem _ (List.mem_cons_self ..))
    dsimp only
    exact hsame p hpx hpb

end Xv6.Malloc
