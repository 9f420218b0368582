import Xv6.Uvm.Erasure

/-!
# Address spaces — what a directory maps and what it owns

A directory is read by page number: `d.pte i` is the entry of the page `i`, `0` where there is no
table, and the pages below `USER` are the user's.

* `pte_addTable`, `pte_setPte` — a new table changes no entry, and a store to an entry changes
  that entry.
* `pages_eq` — what a directory owns is its tables and the pages of its user entries; pages of
  different entries are different where nothing is owned twice (`addr_injective`).
* `Owns k s G` — what is on the free list and the goods `G` are pages of the allocator, none of
  them there twice.  It is kept by whatever balances the books (`Owns.of_eq`).
* `Keeps s t p` — the bytes of the page `p` are in `t` what they are in `s`.
-/

namespace Xv6.Uvm

open Vm (Page Kmem Panic PGSIZE NPDENTRIES NPTENTRIES KERNBASE PDX PTX PGROUNDUP PGROUNDDOWN P2V)

/-- The number of user pages. -/
def USER : ℕ := KERNBASE / PGSIZE

/-- The number of pages that `sz` bytes take. -/
def npages (sz : ℕ) : ℕ := (sz + PGSIZE - 1) / PGSIZE

theorem PGROUNDUP_eq (sz : ℕ) : PGROUNDUP sz = npages sz * PGSIZE := rfl

theorem lt_npages {i sz : ℕ} : i < npages sz ↔ i * PGSIZE < sz := by
  simp only [npages, PGSIZE]
  omega

theorem npages_le_USER {sz : ℕ} (h : sz ≤ KERNBASE) : npages sz ≤ USER := by
  simp only [npages, USER, KERNBASE, PGSIZE] at h ⊢
  omega

theorem npages_mono {a b : ℕ} (h : a ≤ b) : npages a ≤ npages b :=
  Nat.div_le_div_right (by omega)

theorem PDX_page (i : ℕ) : PDX (i * PGSIZE) = i / 1024 % 1024 := by
  simp only [PDX, PGSIZE]
  omega

theorem PTX_page (i : ℕ) : PTX (i * PGSIZE) = i % 1024 := by
  simp only [PTX, PGSIZE]
  omega

theorem USER_eq : USER = 524288 := rfl

theorem PDX_KERNBASE : PDX KERNBASE = 512 := rfl

theorem PDX_user_page {i : ℕ} (h : i < USER) : PDX (i * PGSIZE) < PDX KERNBASE := by
  rw [PDX_page]
  have := PDX_KERNBASE
  have := USER_eq
  omega

/-- The page of a user address is a user page. -/
theorem page_number_lt {va : ℕ} (h : va < KERNBASE) : va / PGSIZE < USER := by
  have := USER_eq
  simp only [PGSIZE, KERNBASE] at h ⊢
  omega

theorem le_page_number {va sz : ℕ} : npages sz ≤ va / PGSIZE ↔ PGROUNDUP sz ≤ va := by
  rw [PGROUNDUP_eq, Nat.le_div_iff_mul_le (by decide)]

namespace Pgdir

/-- The entry of the page `i`. -/
def pte (d : Pgdir) (i : ℕ) : Pte := d.entry (i * PGSIZE)

/-- The mapping of an address. -/
def mapping (d : Pgdir) (va : ℕ) : Option Pte :=
  if (d.entry va).has PTE_P then some (d.entry va) else none

/-- The page `i` is mapped. -/
def Mapped (d : Pgdir) (i : ℕ) : Prop := (d.pte i).has PTE_P = true

instance (d : Pgdir) (i : ℕ) : Decidable (d.Mapped i) := inferInstanceAs (Decidable (_ = _))

end Pgdir

variable {d : Pgdir} {va i j : ℕ} {x y : Pte} {p : Page}

/-- The entry of an address is that of its page. -/
theorem lookup_page (d : Pgdir) (va : ℕ) : d.lookup (va / PGSIZE * PGSIZE) = d.lookup va := by
  have h₁ : PDX (va / PGSIZE * PGSIZE) = PDX va := by
    simp only [PDX, PGSIZE]
    omega
  have h₂ : PTX (va / PGSIZE * PGSIZE) = PTX va := by
    simp only [PTX, PGSIZE]
    omega
  rw [Pgdir.lookup, Pgdir.lookup, h₁, h₂]

theorem entry_eq (d : Pgdir) (va : ℕ) : d.entry va = d.pte (va / PGSIZE) := by
  rw [Pgdir.pte, Pgdir.entry, Pgdir.entry, lookup_page]

theorem pte_of_lookup (h : d.lookup (i * PGSIZE) = some x) : d.pte i = x := by
  rw [Pgdir.pte, Pgdir.entry, h, Option.getD_some]

theorem lookup_of_mapped (h : d.Mapped i) : d.lookup (i * PGSIZE) = some (d.pte i) := by
  rw [Pgdir.Mapped, Pgdir.pte, Pgdir.entry] at *
  cases hl : d.lookup (i * PGSIZE) with
  | none => simp [hl] at h
  | some x => rfl

theorem erase_of_not_mapped (h : ¬ d.Mapped i) : (d.pte i).erase = none := if_neg h

theorem mapping_of_not_mapped (h : ¬ d.Mapped (va / PGSIZE)) : d.mapping va = none := by
  rw [Pgdir.mapping, entry_eq]
  exact if_neg h

theorem pte_eq (d : Pgdir) (i : ℕ) :
    d.pte i = ((d.pde (i / 1024 % 1024)).map fun t => t.pte (i % 1024)).getD 0 := by
  rw [Pgdir.pte, Pgdir.entry, Pgdir.lookup, PDX_page, PTX_page]

@[simp]
theorem pte_empty (p : Page) (i : ℕ) : (Pgdir.mk p fun _ => none).pte i = 0 := by
  rw [pte_eq]
  rfl

theorem pte_addTable (h : d.pde (PDX va) = none) (p : Page) (j : ℕ) :
    (d.addTable va p).pte j = d.pte j := by
  rw [pte_eq, pte_eq, Pgdir.addTable]
  by_cases hj : j / 1024 % 1024 = PDX va
  · simp [hj, h]
  · simp [Function.update_of_ne hj]

theorem lookup_addTable (d : Pgdir) (va : ℕ) (p : Page) : (d.addTable va p).lookup va = some 0 := by
  simp [Pgdir.lookup, Pgdir.addTable]

/-- One entry is set, and the others are as before. -/
theorem pte_setPte (h : d.lookup (i * PGSIZE) = some y) (hi : i < 2 ^ 20) (hj : j < 2 ^ 20) :
    (d.setPte (i * PGSIZE) x).pte j = if j = i then x else d.pte j := by
  obtain ⟨t, ht, -⟩ := Option.map_eq_some_iff.mp h
  rw [PDX_page] at ht
  rw [pte_eq, pte_eq, Pgdir.setPte, PDX_page, PTX_page]
  by_cases hd : j / 1024 % 1024 = i / 1024 % 1024
  · by_cases ht' : j % 1024 = i % 1024
    · have : j = i := by omega
      subst this
      simp [ht]
    · have : j ≠ i := by
        rintro rfl
        exact ht' rfl
      simp [hd, ht, Function.update_of_ne ht', this]
  · have : j ≠ i := by
      rintro rfl
      exact hd rfl
    simp [Function.update_of_ne hd, this]

theorem lookup_setPte_self (h : d.lookup va = some y) : (d.setPte va x).lookup va = some x := by
  obtain ⟨t, ht, -⟩ := Option.map_eq_some_iff.mp h
  simp [Pgdir.lookup, Pgdir.setPte, ht]

/-! ### The kernel's part -/

/-- No page from `KERNBASE` on is the user's. -/
def Sealed (d : Pgdir) : Prop := ∀ j, USER ≤ j → j < 2 ^ 20 → (d.pte j).has PTE_U = false

/-- The entries from `KERNBASE` on are the same. -/
def SameKernel (d d' : Pgdir) : Prop := ∀ j, USER ≤ j → j < 2 ^ 20 → d'.pte j = d.pte j

theorem SameKernel.refl (d : Pgdir) : SameKernel d d := fun _ _ _ => rfl

theorem SameKernel.sealed {d' : Pgdir} (h : SameKernel d d') (hd : Sealed d) : Sealed d' :=
  fun j hj hj' => by rw [h j hj hj']; exact hd j hj hj'

/-! ### What a directory owns -/

namespace Pgdir

/-- What a directory owns. -/
def pages (d : Pgdir) : Multiset Page := d.erase.pages

/-- The pages of the directory itself and of its tables. -/
def tables (d : Pgdir) : Multiset Page :=
  {d.page} + ∑ i ∈ Finset.range NPDENTRIES, (d.pde i).elim 0 fun t => {t.page}

/-- The pages of the user entries. -/
def data (d : Pgdir) : Multiset Page :=
  ∑ i ∈ Finset.range (PDX KERNBASE), ∑ j ∈ Finset.range NPTENTRIES,
    Vm.entryPages (d.pte (i * 1024 + j)).erase

end Pgdir

/-- The pages of a table: the table itself, and what it maps for the user. -/
theorem tablePages_erase {i : ℕ} (hi : i < NPDENTRIES) (d : Pgdir) :
    Vm.tablePages i ((d.pde i).map Pgtab.erase) = ((d.pde i).elim 0 fun t => {t.page}) +
      if i < PDX KERNBASE then
        ∑ j ∈ Finset.range NPTENTRIES, Vm.entryPages (d.pte (i * 1024 + j)).erase
      else 0 := by
  have hpte : ∀ j ∈ Finset.range NPTENTRIES,
      d.pte (i * 1024 + j) = ((d.pde i).map fun t => t.pte j).getD 0 := by
    intro j hj
    rw [Finset.mem_range] at hj
    have h₁ : (i * 1024 + j) / 1024 % 1024 = i := by
      simp only [NPDENTRIES, NPTENTRIES] at hi hj
      omega
    have h₂ : (i * 1024 + j) % 1024 = j := by
      simp only [NPTENTRIES] at hj
      omega
    rw [pte_eq, h₁, h₂]
  rw [Finset.sum_congr rfl fun j hj => by rw [hpte j hj]]
  cases d.pde i with
  | none => simp [Vm.tablePages, Vm.entryPages]
  | some t => simp [Vm.tablePages, Pgtab.erase]

/-- The pages of a directory are its tables and its data. -/
theorem pages_eq (d : Pgdir) : d.pages = d.tables + d.data := by
  have hsum : ∀ F : ℕ → Multiset Page,
      (∑ i ∈ Finset.range NPDENTRIES, if i < PDX KERNBASE then F i else 0) =
        ∑ i ∈ Finset.range (PDX KERNBASE), F i := by
    intro F
    have hle : PDX KERNBASE ≤ NPDENTRIES := by decide
    rw [← Finset.sum_filter]
    refine Finset.sum_congr ?_ fun _ _ => rfl
    ext i
    simp only [Finset.mem_filter, Finset.mem_range]
    omega
  have he : d.pages = {d.page} +
      ∑ i ∈ Finset.range NPDENTRIES, Vm.tablePages i ((d.pde i).map Pgtab.erase) := by
    unfold Pgdir.pages Vm.Pgdir.pages
    rfl
  rw [he, Finset.sum_congr rfl fun i hi => tablePages_erase (Finset.mem_range.mp hi) d,
    Finset.sum_add_distrib, hsum, ← add_assoc]
  rfl

/-- The data pages depend on the entries below `KERNBASE`. -/
theorem data_congr {d' : Pgdir} (h : ∀ i < USER, (d'.pte i).erase = (d.pte i).erase) :
    d'.data = d.data := by
  unfold Pgdir.data
  refine Finset.sum_congr rfl fun i hi => Finset.sum_congr rfl fun j hj => ?_
  rw [Finset.mem_range] at hi hj
  rw [h]
  simp only [NPTENTRIES] at hj
  have := PDX_KERNBASE
  have := USER_eq
  omega

theorem mem_sum_range {n : ℕ} {F : ℕ → Multiset Page} :
    p ∈ ∑ i ∈ Finset.range n, F i ↔ ∃ i < n, p ∈ F i := by
  simp only [Multiset.mem_sum, Finset.mem_range]

theorem mem_entryPages_erase : p ∈ Vm.entryPages x.erase ↔ x.has PTE_P = true ∧ x.addr = p := by
  rw [Pte.erase]
  split
  · rename_i h
    simp [Vm.entryPages, h, eq_comm]
  · rename_i h
    simp [Vm.entryPages, h]

/-- The data pages are those that are mapped below `KERNBASE`. -/
theorem mem_data_iff : p ∈ d.data ↔ ∃ i < USER, d.Mapped i ∧ (d.pte i).addr = p := by
  simp only [Pgdir.data, mem_sum_range, mem_entryPages_erase]
  have := PDX_KERNBASE
  have := USER_eq
  have : NPTENTRIES = 1024 := rfl
  constructor
  · rintro ⟨i, hi, j, hj, h⟩
    exact ⟨i * 1024 + j, by omega, h⟩
  · rintro ⟨i, hi, h⟩
    refine ⟨i / 1024, by omega, i % 1024, by omega, ?_⟩
    rw [show i / 1024 * 1024 + i % 1024 = i by omega]
    exact h

theorem mem_tables_iff : p ∈ d.tables ↔
    p = d.page ∨ ∃ i < NPDENTRIES, ∃ pt, d.pde i = some pt ∧ pt.page = p := by
  simp only [Pgdir.tables, Multiset.mem_add, Multiset.mem_singleton, mem_sum_range]
  refine or_congr_right (exists_congr fun i => and_congr_right fun _ => ?_)
  cases d.pde i <;> simp [eq_comm]

theorem tables_setPte (d : Pgdir) (va : ℕ) (x : Pte) : (d.setPte va x).tables = d.tables := by
  unfold Pgdir.tables
  refine congrArg₂ _ rfl (Finset.sum_congr rfl fun i _ => ?_)
  by_cases h : i = PDX va
  · subst h
    cases hd : d.pde (PDX va) <;> simp [Pgdir.setPte, hd]
  · simp [Pgdir.setPte, Function.update_of_ne h]

-- The sums are not to be computed by unification.
attribute [irreducible] Pgdir.pages Pgdir.data Pgdir.tables

theorem mem_pages (hi : i < USER) (h : d.Mapped i) : (d.pte i).addr ∈ d.pages := by
  rw [pages_eq]
  exact Multiset.mem_add.mpr (.inr (mem_data_iff.mpr ⟨i, hi, h, rfl⟩))

theorem mem_pages_of_address (h : va < KERNBASE) (hm : (d.entry va).has PTE_P = true) :
    (d.entry va).addr ∈ d.pages := by
  rw [entry_eq] at hm ⊢
  exact mem_pages (page_number_lt h) hm

theorem pages_empty (p : Page) : (Pgdir.mk p fun _ => none).pages = {p} := by
  unfold Pgdir.pages
  exact Vm.pages_empty p

theorem pages_addTable (h : d.pde (PDX va) = none) (p : Page) :
    (d.addTable va p).pages = d.pages + {p} := by
  unfold Pgdir.pages
  rw [erase_addTable, Vm.pages_addTable (by simp [Pgdir.erase, h])]

theorem pages_setPte (hi : i < USER) (h : d.lookup (i * PGSIZE) = some y) :
    (d.setPte (i * PGSIZE) x).pages + Vm.entryPages y.erase =
      d.pages + Vm.entryPages x.erase := by
  unfold Pgdir.pages
  rw [erase_setPte]
  exact Vm.pages_setPte_user (PDX_user_page hi) (by rw [lookup_erase, h]; rfl)

/-- Where nothing is owned twice, different entries have different pages. -/
theorem addr_injective (hd : d.pages.Nodup) (hi : i < USER) (hj : j < USER) (hmi : d.Mapped i)
    (hmj : d.Mapped j) (hij : i ≠ j) : (d.pte i).addr ≠ (d.pte j).addr := by
  have hl := lookup_of_mapped hmi
  have hset := pages_setPte (x := 0) hi hl
  rw [erase_zero, Pte.erase, if_pos (show (d.pte i).has PTE_P = true from hmi)] at hset
  simp only [Vm.entryPages, add_zero] at hset
  have hlt : USER < 2 ^ 20 := by decide
  have hj' : (d.setPte (i * PGSIZE) 0).pte j = d.pte j := by
    rw [pte_setPte hl (hi.trans hlt) (hj.trans hlt), if_neg hij.symm]
  have hmem : (d.pte j).addr ∈ (d.setPte (i * PGSIZE) 0).pages := by
    rw [← hj']
    exact mem_pages hj (by rw [Pgdir.Mapped, hj']; exact hmj)
  intro he
  rw [← hset, he, add_comm, Multiset.singleton_add, Multiset.nodup_cons] at hd
  exact hd.1 hmem

/-! ### The allocator's pages -/

/-- The symbols of `kernel.ld`, with the start of `data` at a page. -/
structure Linked extends Vm.Symbols where
  data_page : data % PGSIZE = 0

/-- A page that `kfree` takes. -/
structure Valid (k : Vm.Symbols) (p : Page) : Prop where
  aligned : p % PGSIZE = 0
  lo : k.kend ≤ P2V p
  hi : p < Vm.PHYSTOP

theorem Valid.ne_zero {k : Vm.Symbols} (h : Valid k p) : p ≠ 0 := by
  rintro rfl
  have h₁ := h.lo
  have h₂ := k.data_lo
  have h₃ := k.data_le
  simp only [P2V, Vm.KERNLINK] at h₁ h₂
  omega

/-- The free list and the goods `G` are pages of the allocator, each there once. -/
structure Owns (k : Vm.Symbols) (s : Machine) (G : Multiset Page) : Prop where
  nodup : (s.kmem.free + G).Nodup
  valid : ∀ p ∈ s.kmem.free + G, Valid k p

namespace Owns

variable {k : Vm.Symbols} {s t : Machine} {G G' : Multiset Page}

/-- **The goods stay owned** where the books balance. -/
theorem of_eq (h : Owns k s G) (he : t.kmem.free + G' = s.kmem.free + G) : Owns k t G' where
  nodup := he ▸ h.nodup
  valid := he ▸ h.valid

theorem valid_goods (h : Owns k s G) (hp : p ∈ G) : Valid k p :=
  h.valid p (Multiset.mem_add.mpr (.inr hp))

theorem valid_free (h : Owns k s G) (hp : p ∈ s.kmem.free) : Valid k p :=
  h.valid p (Multiset.mem_add.mpr (.inl hp))

theorem not_free (h : Owns k s G) (hp : p ∈ G) : p ∉ s.kmem.free := fun hf =>
  Multiset.disjoint_left.mp (Multiset.nodup_add.mp h.nodup).2.2 hf hp

theorem nodup_goods (h : Owns k s G) : G.Nodup := (Multiset.nodup_add.mp h.nodup).2.1

end Owns

/-- A kernel that ends two pages after its link address. -/
def smallLinked : Linked where
  data := Vm.KERNLINK + PGSIZE
  kend := Vm.KERNLINK + 2 * PGSIZE
  data_lo := by decide
  data_le := by decide
  kend_hi := by decide
  data_page := by decide

/-- A machine with three free pages, and a directory that maps the page 0 only. -/
def smallMachine : Machine := ⟨⟨[0x200000, 0x201000, 0x202000], 0, fun _ => false⟩, fun _ => 7⟩

/-- A directory with one table and one page, that of the address 0. -/
def smallSpace : Pgdir :=
  ((Pgdir.mk 0x300000 fun _ => none).addTable 0 0x301000).setPte (0 * PGSIZE)
    ⟨0x302000, PTE_W ||| PTE_U ||| PTE_P⟩

theorem smallSpace_mapped (h : i < USER) : smallSpace.Mapped i ↔ i = 0 := by
  have hlt : USER < 2 ^ 20 := by decide
  have hl := lookup_addTable (Pgdir.mk 0x300000 fun _ => none) 0 0x301000
  rw [Pgdir.Mapped, smallSpace, pte_setPte hl (by decide) (h.trans hlt), pte_addTable rfl, pte_empty]
  split <;> simp_all

theorem smallSpace_pages : smallSpace.pages = {0x300000, 0x301000, 0x302000} := by
  have hl := lookup_addTable (Pgdir.mk 0x300000 fun _ => none) 0 0x301000
  have := pages_setPte (x := ⟨0x302000, PTE_W ||| PTE_U ||| PTE_P⟩) (show 0 < USER by decide) hl
  rw [pages_addTable rfl, pages_empty, erase_zero, Pte.erase, if_pos (Pte.or_P_has_P _ _)] at this
  simp only [Vm.entryPages, add_zero] at this
  rw [smallSpace, this]
  rfl

theorem smallSpace_owns : Owns smallLinked.toSymbols smallMachine (smallSpace.pages + 0) := by
  rw [smallSpace_pages]
  refine ⟨by decide, fun p hp => ?_⟩
  have : p ∈ ([0x200000, 0x201000, 0x202000, 0x300000, 0x301000, 0x302000] : List ℕ) := hp
  simp only [List.mem_cons, List.not_mem_nil, or_false] at this
  rcases this with rfl | rfl | rfl | rfl | rfl | rfl <;> exact ⟨by decide, by decide, by decide⟩

-- Nothing is to be run by unification.
attribute [irreducible] smallMachine

/-! ### The contents of a page -/

/-- The bytes of the page are what they were. -/
def Keeps (s t : Machine) (p : Page) : Prop := ∀ o < PGSIZE, t.ram (p + o) = s.ram (p + o)

namespace Keeps

variable {s t u : Machine}

theorem refl (s : Machine) (p : Page) : Keeps s s p := fun _ _ => rfl

theorem trans (h : Keeps s t p) (h' : Keeps t u p) : Keeps s u p := fun o ho =>
  (h' o ho).trans (h o ho)

theorem of_ram (h : t.ram = s.ram) (p : Page) : Keeps s t p := fun o _ => by rw [h]

end Keeps

/-- Whole pages do not overlap. -/
theorem page_apart {p q o : ℕ} (hp : p % PGSIZE = 0) (hq : q % PGSIZE = 0) (hne : p ≠ q)
    (ho : o < PGSIZE) : ¬ (q ≤ p + o ∧ p + o < q + PGSIZE) := by
  simp only [PGSIZE] at *
  omega

end Xv6.Uvm
