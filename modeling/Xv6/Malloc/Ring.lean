import Xv6.Malloc.Basic

/-!
# Malloc — the free list

`Chain m p l q`: from `p` the headers of the blocks `l`, in order, lead to `q`.  The free list is a
chain from `base` to `base`.

* `attach_chain` — what `free` does to a block and the chain behind it is `Extent.glue`.
* `node_next` — the chain from `base` to `base` is a ring.
-/

namespace Xv6.Malloc

open Lib (Extent)

/-- A block of the heap. -/
abbrev Block := Extent HEADER

variable {m m' : Mem} {p q : ℕ} {a b x : Block} {l l' : List Block}

/-! ### Headers -/

/-- The headers at `p` and `q` share no byte. -/
def Clear (p q : ℕ) : Prop := p + HEADER ≤ q ∨ q + HEADER ≤ p

theorem Clear.symm (h : Clear p q) : Clear q p := Or.symm h

/-- `m'` has the header of `m` at `p`. -/
def Same (m m' : Mem) (p : ℕ) : Prop := ptr m' p = ptr m p ∧ size m' p = size m p

theorem Same.trans {m'' : Mem} (h : Same m m' p) (h' : Same m' m'' p) : Same m m'' p :=
  ⟨h'.1.trans h.1, h'.2.trans h.2⟩

theorem ptr_setPtr {v : ℕ} (hp : p + HEADER ≤ 2 ^ 32) (hv : v < 2 ^ 32) : ptr (setPtr m p v) p = v :=
  Lib.Bytes.get32_put32 _ (by unfold HEADER at hp; omega) hv

theorem size_setSize {v : ℕ} (hp : p + HEADER ≤ 2 ^ 32) (hv : v < 2 ^ 32) :
    size (setSize m p v) p = v :=
  Lib.Bytes.get32_put32 _ (by unfold HEADER at hp; omega) hv

@[simp]
theorem size_setPtr (m : Mem) (p v : ℕ) : size (setPtr m p v) p = size m p :=
  Lib.Bytes.get32_put32_of_disjoint _ (.inr le_rfl)

@[simp]
theorem ptr_setSize (m : Mem) (p v : ℕ) : ptr (setSize m p v) p = ptr m p :=
  Lib.Bytes.get32_put32_of_disjoint _ (.inl le_rfl)

theorem same_setPtr {v : ℕ} (h : Clear p q) : Same m (setPtr m p v) q := by
  unfold Clear HEADER at h
  exact ⟨Lib.Bytes.get32_put32_of_disjoint _ (by omega),
    Lib.Bytes.get32_put32_of_disjoint _ (by omega)⟩

theorem same_setSize {v : ℕ} (h : Clear p q) : Same m (setSize m p v) q := by
  unfold Clear HEADER at h
  exact ⟨Lib.Bytes.get32_put32_of_disjoint _ (by omega),
    Lib.Bytes.get32_put32_of_disjoint _ (by omega)⟩

theorem get32_lt (m : Mem) (o : ℕ) : m.get32 o < 2 ^ 32 := by
  unfold Lib.Bytes.get32
  have h (o : ℕ) : (m.get8 o).toNat < 256 := (m.get8 o).toNat_lt
  have := h o
  have := h (o + 1)
  have := h (o + 2)
  have := h (o + 3)
  omega

theorem ptr_lt (m : Mem) (p : ℕ) : ptr m p < 2 ^ 32 := get32_lt m p

theorem plus_size (h : a.stop < 2 ^ 32) : plus a.addr a.size = a.stop := Nat.mod_eq_of_lt h

/-! ### Chains -/

/-- From `p`, the pointers lead along these blocks to `q`. -/
def Chain (m : Mem) : ℕ → List Block → ℕ → Prop
  | p, [], q => p = q
  | p, b :: l, q => p = b.addr ∧ size m p = b.size ∧ Chain m (ptr m p) l q

theorem chain_append : Chain m p (l ++ l') q ↔ ∃ r, Chain m p l r ∧ Chain m r l' q := by
  induction l generalizing p with
  | nil => simp [Chain]
  | cons b l ih => simp only [List.cons_append, Chain, ih, and_assoc, exists_and_left]

/-- A chain depends on its headers only. -/
theorem Chain.congr (h : Chain m p l q) (hsame : ∀ b ∈ l, Same m m' b.addr) : Chain m' p l q := by
  induction l generalizing p with
  | nil => exact h
  | cons b l ih =>
      obtain ⟨rfl, hsize, hl⟩ := h
      rw [List.forall_mem_cons] at hsame
      refine ⟨rfl, hsame.1.2.trans hsize, ?_⟩
      rw [hsame.1.1]
      exact ih hl hsame.2

/-- Where a chain leads from its first block. -/
theorem Chain.head (h : Chain m p l q) : p = (l.head?.map Extent.addr).getD q := by
  cases l with
  | nil => exact h
  | cons b l => exact h.1

/-- `a` is put in front of the chain from `q`: the blocks are joined if they touch. -/
def attach (m : Mem) (a q : ℕ) : Mem :=
  if plus a (size m a) = q then
    let m := setSize m a (size m a + size m q)
    setPtr m a (ptr m q)
  else setPtr m a q

theorem same_attach {r : ℕ} (h : Clear p r) : Same m (attach m p q) r := by
  unfold attach
  split
  · exact (same_setSize h).trans (same_setPtr h)
  · exact same_setPtr h

/-- A block is put before a chain, and glued to it if they touch. -/
theorem attach_chain {base : ℕ} (hl : Chain m q l base) (ha : a.addr + HEADER ≤ 2 ^ 32)
    (hsize : size m a.addr = a.size) (hstop : a.stop < 2 ^ 32) (hbase : l = [] → a.stop ≠ base)
    (hclear : ∀ b ∈ l, Clear a.addr b.addr) (hfit : ∀ b ∈ l, b.stop < 2 ^ 32)
    (hq : q < 2 ^ 32) :
    Chain (attach m a.addr q) a.addr (a.glue l) base := by
  have hplus : plus a.addr (size m a.addr) = a.stop := by rw [hsize, plus_size hstop]
  cases l with
  | nil =>
      obtain rfl : q = base := hl
      rw [attach, hplus, if_neg (hbase rfl)]
      exact ⟨rfl, by rw [size_setPtr, hsize], by rw [ptr_setPtr ha hq]; rfl⟩
  | cons b l =>
      obtain ⟨rfl, hb, hl⟩ := hl
      rw [List.forall_mem_cons] at hclear hfit
      rw [attach, hplus, Extent.glue]
      split
      · next htouch =>
          -- the joined block ends where the second does
          have hsum : a.size + b.size < 2 ^ 32 := by
            have hlt : a.addr + 8 * (a.size + b.size) < 2 ^ 32 := by
              have := hfit.1
              rwa [← Extent.stop_join htouch] at this
            omega
          dsimp only
          refine ⟨rfl, ?_, ?_⟩
          · rw [size_setPtr, size_setSize ha (by rw [hsize, hb]; exact hsum), hsize, hb]
            rfl
          · rw [ptr_setPtr ha (ptr_lt ..), (same_setSize hclear.1).1]
            exact hl.congr fun c hc =>
              (same_setSize (hclear.2 c hc)).trans (same_setPtr (hclear.2 c hc))
      · refine ⟨rfl, by rw [size_setPtr, hsize], ?_⟩
        rw [ptr_setPtr ha hq]
        refine ⟨rfl, (same_setPtr hclear.1).2.trans hb, ?_⟩
        rw [(same_setPtr hclear.1).1]
        exact hl.congr fun c hc => same_setPtr (hclear.2 c hc)

/-! ### The ring -/

/-- The block behind `i` steps from the first, round and round. -/
def node (l : List Block) (i : ℕ) : Block := l.getD (i % l.length) ⟨0, 0⟩

theorem node_of_lt {i : ℕ} (hi : i < l.length) : node l i = l[i] := by
  rw [node, Nat.mod_eq_of_lt hi, List.getD_eq_getElem?_getD, List.getElem?_eq_getElem hi,
    Option.getD_some]

theorem node_mod (l : List Block) (i : ℕ) : node l (i % l.length) = node l i := by
  rw [node, Nat.mod_mod, node]

theorem node_mem (hl : l ≠ []) (i : ℕ) : node l i ∈ l := by
  have hi := Nat.mod_lt i (List.length_pos_iff.mpr hl)
  rw [← node_mod, node_of_lt hi]
  exact List.getElem_mem hi

theorem exists_node (hb : b ∈ l) : ∃ i < l.length, node l i = b := by
  obtain ⟨i, hi, rfl⟩ := List.mem_iff_getElem.mp hb
  exact ⟨i, hi, node_of_lt hi⟩

/-- The header of each block of a chain. -/
theorem Chain.get (h : Chain m p l q) : ∀ (i : ℕ) (hi : i < l.length),
    size m l[i].addr = l[i].size ∧ ptr m l[i].addr = ((l[i + 1]?).map Extent.addr).getD q := by
  induction l generalizing p with
  | nil => exact fun i hi => absurd hi (Nat.not_lt_zero i)
  | cons b l ih =>
      obtain ⟨rfl, hsize, hl⟩ := h
      intro i hi
      cases i with
      | zero =>
          refine ⟨hsize, ?_⟩
          rw [List.getElem_cons_zero, hl.head, List.getElem?_cons_succ, List.head?_eq_getElem?]
      | succ i => exact ih hl i (Nat.lt_of_succ_lt_succ hi)

/-- **The ring**: every block leads to the next, the last to the first. -/
theorem node_next (h : Chain m p l p) (hl : l ≠ []) (i : ℕ) :
    size m (node l i).addr = (node l i).size ∧ ptr m (node l i).addr = (node l (i + 1)).addr := by
  have hpos := List.length_pos_iff.mpr hl
  have hi := Nat.mod_lt i hpos
  have hget := h.get _ hi
  rw [← node_of_lt hi, node_mod] at hget
  refine ⟨hget.1, hget.2.trans ?_⟩
  rw [← node_mod l (i + 1), ← Nat.mod_add_mod]
  by_cases hlast : i % l.length + 1 < l.length
  · rw [List.getElem?_eq_getElem hlast, Nat.mod_eq_of_lt hlast, node_of_lt hlast]
    rfl
  · have heq : i % l.length + 1 = l.length := by omega
    rw [heq, Nat.mod_self, node_of_lt hpos, List.getElem?_eq_none le_rfl]
    cases l with
    | nil => exact absurd rfl hl
    | cons b l => exact h.1

end Xv6.Malloc
