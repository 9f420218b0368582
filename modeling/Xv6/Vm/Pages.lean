import Xv6.Lib.Ledger
import Mathlib.Data.Multiset.AddSub

/-!
# Virtual memory — the pages of `kalloc.c` and `vm.c`

The physical page allocator and the page tables.  A page is named by its physical address.  A
page directory is a page with the tables it points to, a table is a page with its entries; what a
directory owns (`Pgdir.pages`) is its page, the pages of its tables, and the pages mapped below
`KERNBASE`.  The mappings from `KERNBASE` on are to memory that no directory owns.

`kalloc` returns `0` when the list is empty, and also whenever `refuse` says so of the call: the
results hold for every pattern of refusals.

Each function balances the books: what is on the free list, with what the caller is given, is what
it was, on every path and whatever is refused.

* `setupkvm_balances`, `allocuvm_balances`, `deallocuvm_balances`, `freevm_balances`,
  `copyuvm_balances`.
-/

namespace Xv6.Vm

open Lib (Balances)

/-! ### `mmu.h` and `memlayout.h` -/

def PGSIZE : ℕ := 4096
def NPDENTRIES : ℕ := 1024
def NPTENTRIES : ℕ := 1024
def EXTMEM : ℕ := 0x100000
def PHYSTOP : ℕ := 0xE000000
def DEVSPACE : ℕ := 0xFE000000
def KERNBASE : ℕ := 0x80000000
def KERNLINK : ℕ := KERNBASE + EXTMEM

def V2P (a : ℕ) : ℕ := a - KERNBASE
def P2V (a : ℕ) : ℕ := a + KERNBASE
def PDX (va : ℕ) : ℕ := va / 2 ^ 22 % 1024
def PTX (va : ℕ) : ℕ := va / 2 ^ 12 % 1024
def PGADDR (d t o : ℕ) : ℕ := d * 2 ^ 22 + t * 2 ^ 12 + o
def PGROUNDUP (sz : ℕ) : ℕ := (sz + PGSIZE - 1) / PGSIZE * PGSIZE
def PGROUNDDOWN (a : ℕ) : ℕ := a / PGSIZE * PGSIZE

/-- The addresses that `kernel.ld` defines: `data` starts a page after the text, which is linked
at `KERNLINK`, and the kernel ends below the top of memory. -/
structure Symbols where
  data : ℕ
  kend : ℕ
  data_lo : KERNLINK < data
  data_le : data ≤ kend
  kend_hi : kend < P2V PHYSTOP

/-- A physical page, by its address. -/
abbrev Page := ℕ

/-- The panics of `kalloc.c` and `vm.c`. -/
inductive Panic where
  | kfree
  | remap
  | phystopTooHigh
  | freevmNoPgdir
  | loaduvmNotAligned
  | loaduvmNoPte
  | clearpteu
  | copyuvmNoPte
  | copyuvmNotPresent
  | userinit
  | inituvm
  /-- A null pointer is followed. -/
  | fault
  deriving DecidableEq

/-! ### `kalloc.c` -/

/-- The free list; the number of calls of `kalloc`, and which of them are refused. -/
structure Kmem where
  freelist : List Page
  calls : ℕ
  refuse : ℕ → Bool

/-- The pages on the free list. -/
def Kmem.free (m : Kmem) : Multiset Page := m.freelist

/-- A computation in the kernel's memory. -/
abbrev Vm := StateT Kmem (Except Panic)

/-- `kalloc`: the first page of the list, or `0`. -/
def kalloc : Vm (Option Page) := fun m =>
  let m' := { m with calls := m.calls + 1 }
  if m.refuse m.calls then .ok (none, m')
  else
    match m.freelist with
    | [] => .ok (none, m')
    | r :: rest => .ok (some r, { m' with freelist := rest })

variable (k : Symbols)

/-- `kfree`, on the page's physical address. -/
def kfree (v : Page) : Vm Unit :=
  if v % PGSIZE ≠ 0 ∨ P2V v < k.kend ∨ PHYSTOP ≤ v then throw .kfree
  else modify fun m => { m with freelist := v :: m.freelist }

/-- The pages of `freerange`, whole pages between two physical addresses. -/
def rangePages (vstart vend : ℕ) : List Page :=
  (List.range ((vend - PGROUNDUP vstart) / PGSIZE)).map fun i => PGROUNDUP vstart + i * PGSIZE

/-- `freerange`: each whole page of the range is freed. -/
def freerange (vstart vend : ℕ) : Vm Unit := (rangePages vstart vend).forM (kfree k)

/-! ### Page tables -/

/-- A present page-table entry: the page, `PTE_W` and `PTE_U`. -/
structure Pte where
  pa : Page
  w : Bool
  u : Bool

/-- A page table: its page and its entries. -/
structure Pgtab where
  page : Page
  pte : ℕ → Option Pte

/-- A page directory: its page and the tables it points to. -/
structure Pgdir where
  page : Page
  pde : ℕ → Option Pgtab

namespace Pgdir

/-- `walkpgdir` with `alloc = 0`: the entry for `va`, if there is a table for it. -/
def lookup (d : Pgdir) (va : ℕ) : Option (Option Pte) :=
  (d.pde (PDX va)).map fun t => t.pte (PTX va)

/-- The page directory with a new, empty table for `va`. -/
def addTable (d : Pgdir) (va : ℕ) (pgtab : Page) : Pgdir :=
  { d with pde := Function.update d.pde (PDX va) (some ⟨pgtab, fun _ => none⟩) }

/-- `*pte = x`, for the entry of `va`. -/
def setPte (d : Pgdir) (va : ℕ) (x : Option Pte) : Pgdir :=
  { d with pde := Function.update d.pde (PDX va) ((d.pde (PDX va)).map fun t =>
      { t with pte := Function.update t.pte (PTX va) x }) }

end Pgdir

/-- `walkpgdir` with `alloc = 1`: the directory, with a table for `va`. -/
def walkpgdir (d : Pgdir) (va : ℕ) : Vm (Option Pgdir) :=
  match d.pde (PDX va) with
  | some _ => pure (some d)
  | none => do
      match ← kalloc with
      | none => pure none
      | some pgtab => pure (some (d.addTable va pgtab))

/-- The loop of `mappages`, for the pages that are left. -/
def mapFrom (w u : Bool) : ℕ → Pgdir → ℕ → ℕ → Vm (Bool × Pgdir)
  | 0, d, _, _ => pure (true, d)
  | n + 1, d, a, pa => do
      match ← walkpgdir d a with
      | none => pure (false, d)
      | some d =>
          if ((d.lookup a).join).isSome then throw .remap
          else mapFrom w u n (d.setPte a (some ⟨pa, w, u⟩)) (a + PGSIZE) (pa + PGSIZE)

/-- The pages of `mappages`, from that of `va` to that of the last byte; addresses have 32 bits. -/
def mapCount (va size : ℕ) : ℕ :=
  (PGROUNDDOWN ((va + size - 1) % 2 ^ 32) + 2 ^ 32 - PGROUNDDOWN va) % 2 ^ 32 / PGSIZE + 1

/-- `mappages`, with the directory it leaves: `false` is the return of `-1`. -/
def mappages (d : Pgdir) (va size pa : ℕ) (w u : Bool) : Vm (Bool × Pgdir) :=
  mapFrom w u (mapCount va size) d (PGROUNDDOWN va) pa

/-- The passes of `deallocuvm` from the address `a`.  A pass advances the address by a page at
least, so that `oldsz` of them are enough. -/
def deallocFrom (oldsz : ℕ) : ℕ → Pgdir → ℕ → Vm Pgdir
  | 0, d, _ => pure d
  | n + 1, d, a =>
      if a < oldsz then
        match d.lookup a with
        | none => deallocFrom oldsz n d (PGADDR (PDX a + 1) 0 0 - PGSIZE + PGSIZE)
        | some none => deallocFrom oldsz n d (a + PGSIZE)
        | some (some pte) =>
            if pte.pa = 0 then throw .kfree
            else do
              kfree k pte.pa
              deallocFrom oldsz n (d.setPte a none) (a + PGSIZE)
      else pure d

/-- `deallocuvm`, with the directory it leaves. -/
def deallocuvm (d : Pgdir) (oldsz newsz : ℕ) : Vm (Pgdir × ℕ) :=
  if oldsz ≤ newsz then pure (d, oldsz)
  else do
    let d ← deallocFrom k oldsz oldsz d (PGROUNDUP newsz)
    pure (d, newsz)

/-- The loop of `freevm` over the directory. -/
def freeTables (d : Pgdir) : ℕ → Vm Unit
  | 0 => pure ()
  | n + 1 => do
      freeTables d n
      match d.pde n with
      | some t => kfree k t.page
      | none => pure ()

/-- `freevm`: the pages below `KERNBASE`, the tables, and the directory. -/
def freevm : Option Pgdir → Vm Unit
  | none => throw .freevmNoPgdir
  | some d => do
      let (d, _) ← deallocuvm k d KERNBASE 0
      freeTables k d NPDENTRIES
      kfree k d.page

/-- An entry of `kmap`. -/
structure Kmap where
  virt : ℕ
  physStart : ℕ
  physEnd : ℕ
  w : Bool

/-- The mappings of the kernel, in the order of `kmap[]`. -/
def kmap : List Kmap :=
  [⟨KERNBASE, 0, EXTMEM, true⟩,
   ⟨KERNLINK, V2P KERNLINK, V2P k.data, false⟩,
   ⟨k.data, V2P k.data, PHYSTOP, true⟩,
   ⟨DEVSPACE, DEVSPACE, 0, true⟩]

/-- The loop of `setupkvm`. -/
def mapKernel (d : Pgdir) : List Kmap → Vm (Option Pgdir)
  | [] => pure (some d)
  | e :: es => do
      let (ok, d) ← mappages d e.virt ((e.physEnd + 2 ^ 32 - e.physStart) % 2 ^ 32) e.physStart e.w false
      if ok then mapKernel d es
      else do
        freevm k (some d)
        pure none

/-- `setupkvm`: a directory with the mappings of the kernel, or nothing. -/
def setupkvm : Vm (Option Pgdir) := do
  match ← kalloc with
  | none => pure none
  | some pgdir =>
      if P2V PHYSTOP > DEVSPACE then throw .phystopTooHigh
      else mapKernel k ⟨pgdir, fun _ => none⟩ (kmap k)

/-- The loop of `allocuvm`, for the pages that are left. -/
def allocFrom (oldsz newsz : ℕ) : ℕ → Pgdir → ℕ → Vm (Pgdir × ℕ)
  | 0, d, _ => pure (d, newsz)
  | n + 1, d, a => do
      match ← kalloc with
      | none =>
          let (d, _) ← deallocuvm k d newsz oldsz
          pure (d, 0)
      | some mem =>
          let (ok, d) ← mappages d a PGSIZE mem true true
          if ok then allocFrom oldsz newsz n d (a + PGSIZE)
          else do
            let (d, _) ← deallocuvm k d newsz oldsz
            kfree k mem
            pure (d, 0)

/-- `allocuvm`, with the directory it leaves: the new size, or `0`. -/
def allocuvm (d : Pgdir) (oldsz newsz : ℕ) : Vm (Pgdir × ℕ) :=
  if KERNBASE ≤ newsz then pure (d, 0)
  else if newsz < oldsz then pure (d, oldsz)
  else
    let a := PGROUNDUP oldsz
    allocFrom k oldsz newsz ((newsz - a + PGSIZE - 1) / PGSIZE) d a

/-- The loop of `copyuvm`, for the pages that are left. -/
def copyFrom (pgdir : Pgdir) : ℕ → Pgdir → ℕ → Vm (Option Pgdir)
  | 0, d, _ => pure (some d)
  | n + 1, d, i =>
      match pgdir.lookup i with
      | none => throw .copyuvmNoPte
      | some none => throw .copyuvmNotPresent
      | some (some pte) => do
          match ← kalloc with
          | none => do
              freevm k (some d)
              pure none
          | some mem =>
              let (ok, d) ← mappages d i PGSIZE mem pte.w pte.u
              if ok then copyFrom pgdir n d (i + PGSIZE)
              else do
                kfree k mem
                freevm k (some d)
                pure none

/-- `copyuvm`: a directory with copies of the pages below `sz`. -/
def copyuvm (pgdir : Pgdir) (sz : ℕ) : Vm (Option Pgdir) := do
  match ← setupkvm k with
  | none => pure none
  | some d => copyFrom k pgdir (PGROUNDUP sz / PGSIZE) d 0

/-! ### What a directory owns -/

/-- The page of an entry. -/
def entryPages : Option Pte → Multiset Page
  | none => 0
  | some pte => {pte.pa}

/-- The page of the table `i` of a directory and, below `KERNBASE`, those it maps. -/
def tablePages (i : ℕ) : Option Pgtab → Multiset Page
  | none => 0
  | some t =>
      {t.page} + if i < PDX KERNBASE then ∑ j ∈ Finset.range NPTENTRIES, entryPages (t.pte j) else 0

/-- What a directory owns: itself, its tables, and the pages that it maps below `KERNBASE`. -/
def Pgdir.pages (d : Pgdir) : Multiset Page :=
  {d.page} + ∑ i ∈ Finset.range NPDENTRIES, tablePages i (d.pde i)

/-- The pages of a directory that may not be there. -/
def dirPages : Option Pgdir → Multiset Page
  | none => 0
  | some d => d.pages

variable {d : Pgdir} {va : ℕ} {x y : Option Pte}

theorem PDX_mem (va : ℕ) : PDX va ∈ Finset.range NPDENTRIES := Finset.mem_range.mpr (Nat.mod_lt _ (by decide))

theorem PTX_mem (va : ℕ) : PTX va ∈ Finset.range NPTENTRIES := Finset.mem_range.mpr (Nat.mod_lt _ (by decide))

theorem PDX_user (h : va < KERNBASE) : PDX va < PDX KERNBASE := by
  simp only [PDX, KERNBASE] at h ⊢
  omega

theorem PDX_kernel (h : KERNBASE ≤ va) (h' : va < 2 ^ 32) : PDX KERNBASE ≤ PDX va := by
  simp only [PDX, KERNBASE] at h ⊢
  omega

theorem lookup_eq_some : d.lookup va = some y ↔ ∃ t, d.pde (PDX va) = some t ∧ t.pte (PTX va) = y := by
  simp [Pgdir.lookup]

theorem pages_empty (p : Page) : (Pgdir.mk p fun _ => none).pages = {p} := by
  simp [Pgdir.pages, tablePages]

/-- A new table is a page more. -/
theorem pages_addTable (h : d.pde (PDX va) = none) (p : Page) :
    (d.addTable va p).pages = d.pages + {p} := by
  have hsum := Lib.sum_update (PDX_mem va) tablePages d.pde (some ⟨p, fun _ => none⟩)
  have hnew : tablePages (PDX va) (some ⟨p, fun _ => none⟩) = {p} := by
    simp [tablePages, entryPages]
  rw [h, hnew, tablePages, add_zero] at hsum
  rw [Pgdir.pages, Pgdir.addTable, hsum, ← add_assoc]
  rfl

theorem tablePages_user {i : ℕ} (h : i < PDX KERNBASE) (t : Pgtab) :
    tablePages i (some t) = {t.page} + ∑ j ∈ Finset.range NPTENTRIES, entryPages (t.pte j) := by
  rw [tablePages, if_pos h]

/-- An entry of the kernel is no page of the directory. -/
theorem pages_setPte_kernel (h : PDX KERNBASE ≤ PDX va) : (d.setPte va x).pages = d.pages := by
  have : ∀ i, tablePages i ((d.setPte va x).pde i) = tablePages i (d.pde i) := by
    intro i
    by_cases hi : i = PDX va
    · subst hi
      cases hd : d.pde (PDX va) <;> simp [Pgdir.setPte, hd, tablePages, not_lt.mpr h]
    · simp [Pgdir.setPte, Function.update_of_ne hi]
  simp only [Pgdir.pages, this]
  rfl

/-- Below `KERNBASE` the page of the new entry takes the place of that of the old. -/
theorem pages_setPte_user (h : PDX va < PDX KERNBASE) (hl : d.lookup va = some y) :
    (d.setPte va x).pages + entryPages y = d.pages + entryPages x := by
  obtain ⟨t, ht, rfl⟩ := lookup_eq_some.mp hl
  have hpde := Lib.sum_update (PDX_mem va) tablePages d.pde
    (some { t with pte := Function.update t.pte (PTX va) x })
  have hpte := Lib.sum_update (PTX_mem va) (fun _ => entryPages) t.pte x
  rw [ht, tablePages_user h, tablePages_user h] at hpde
  simp only [Pgdir.pages, Pgdir.setPte, ht, Option.map_some]
  generalize ∑ i ∈ Finset.range NPDENTRIES, tablePages i (Function.update d.pde _ _ i) = A' at *
  generalize ∑ i ∈ Finset.range NPDENTRIES, tablePages i (d.pde i) = A at *
  generalize ∑ j ∈ Finset.range NPTENTRIES, entryPages (Function.update t.pte _ _ j) = B' at *
  generalize ∑ j ∈ Finset.range NPTENTRIES, entryPages (t.pte j) = B at *
  refine add_right_cancel (b := {t.page} + B) ?_
  calc _ = {d.page} + (A' + ({t.page} + B)) + entryPages (t.pte (PTX va)) := by ac_rfl
    _ = {d.page} + A + {t.page} + (B' + entryPages (t.pte (PTX va))) := by rw [hpde]; ac_rfl
    _ = _ := by rw [hpte]; ac_rfl

-- The sums are not to be computed by unification.
attribute [irreducible] Pgdir.pages

/-! ### The books balance -/

/-- `kalloc` gives a page of the free list, or nothing. -/
theorem kalloc_balances : Balances Kmem.free 0 kalloc fun r g => g = r.elim 0 ({·}) := by
  intro m r t h
  unfold kalloc at h
  split at h
  · cases h
    exact ⟨0, rfl, rfl⟩
  · split at h
    · cases h
      exact ⟨0, rfl, rfl⟩
    · rename_i p rest hl
      cases h
      refine ⟨{p}, rfl, ?_⟩
      simp only [Kmem.free, hl, add_zero, ← Multiset.cons_coe]
      rw [add_comm, Multiset.singleton_add]

/-- `kfree` gives a page to the free list. -/
theorem kfree_balances (v : Page) : Balances Kmem.free {v} (kfree k v) fun _ g => g = 0 := by
  unfold kfree
  split
  · exact .throw
  · intro m r t h
    cases h
    refine ⟨0, rfl, ?_⟩
    simp only [Kmem.free, add_zero, ← Multiset.cons_coe]
    rw [add_comm, Multiset.singleton_add]

/-- `freerange` takes the pages of the range. -/
theorem freerange_balances (vstart vend : ℕ) :
    Balances Kmem.free (rangePages vstart vend : Multiset Page) (freerange k vstart vend)
      fun _ g => g = 0 := by
  unfold freerange
  induction rangePages vstart vend with
  | nil => exact .pure rfl
  | cons v vs ih =>
      refine .seq (vs : Multiset Page) (kfree_balances k v) (fun _ g hg => ?_) ?_
      · subst hg
        rw [zero_add]
        exact ih
      · rw [← Multiset.cons_coe, Multiset.singleton_add]

/-- The page of a new table is the directory's. -/
theorem walkpgdir_balances (d : Pgdir) (va : ℕ) :
    Balances Kmem.free d.pages (walkpgdir d va) fun r g =>
      match r with
      | none => g = d.pages
      | some d' => g = d'.pages ∧ (d'.lookup va).isSome := by
  unfold walkpgdir
  cases hd : d.pde (PDX va) with
  | some t => exact .pure ⟨rfl, by simp [Pgdir.lookup, hd]⟩
  | none =>
      refine .seq d.pages kalloc_balances (fun r g hg => ?_) (zero_add _).symm
      subst hg
      cases r with
      | none => exact .pure (zero_add _)
      | some p =>
          refine .pure ⟨?_, by simp [Pgdir.lookup, Pgdir.addTable]⟩
          rw [pages_addTable hd, add_comm]
          rfl

/-- Mappings from `KERNBASE` on cost no more than the tables. -/
theorem mapFrom_kernel (w u : Bool) (n : ℕ) : ∀ (d : Pgdir) (a pa : ℕ),
    (∀ i < n, PDX KERNBASE ≤ PDX (a + i * PGSIZE)) →
      Balances Kmem.free d.pages (mapFrom w u n d a pa) fun r g => g = r.2.pages := by
  induction n with
  | zero => exact fun d a pa _ => .pure rfl
  | succ n ih =>
      intro d a pa h
      refine .bind (walkpgdir_balances d a) fun r g hg => ?_
      cases r with
      | none =>
          obtain rfl : g = d.pages := hg
          exact .pure rfl
      | some d' =>
          obtain ⟨rfl, -⟩ := hg
          have h₀ : PDX KERNBASE ≤ PDX a := by simpa using h 0 n.succ_pos
          have hrest : ∀ i < n, PDX KERNBASE ≤ PDX (a + PGSIZE + i * PGSIZE) := by
            intro i hi
            have := h (i + 1) (by omega)
            rwa [Nat.succ_mul, Nat.add_comm (i * PGSIZE), ← Nat.add_assoc] at this
          dsimp only
          split
          · exact .throw
          · rw [← pages_setPte_kernel (d := d') h₀]
            exact ih _ _ _ hrest

theorem mapCount_page {a : ℕ} (ha : a % PGSIZE = 0) (hk : a < KERNBASE) :
    mapCount a PGSIZE = 1 ∧ PGROUNDDOWN a = a := by
  simp only [mapCount, PGROUNDDOWN, PGSIZE, KERNBASE] at *
  omega

/-- A page mapped below `KERNBASE` belongs to the directory, unless the mapping fails. -/
theorem mappages_user {a : ℕ} (ha : a % PGSIZE = 0) (hk : a < KERNBASE) (d : Pgdir) (pa : Page)
    (w u : Bool) :
    Balances Kmem.free (d.pages + {pa}) (mappages d a PGSIZE pa w u) fun r g =>
      g = r.2.pages + if r.1 then 0 else {pa} := by
  obtain ⟨h₁, h₂⟩ := mapCount_page ha hk
  rw [mappages, h₁, h₂]
  refine .seq {pa} (walkpgdir_balances d a) (fun r g hg => ?_) rfl
  cases r with
  | none =>
      obtain rfl : g = d.pages := hg
      exact .pure rfl
  | some d' =>
      obtain ⟨rfl, hl⟩ := hg
      obtain ⟨y, hy⟩ := Option.isSome_iff_exists.mp hl
      dsimp only
      split
      · exact .throw
      · rename_i hn
        obtain rfl : y = none := by simpa [hy] using hn
        have := pages_setPte_user (x := some ⟨pa, w, u⟩) (PDX_user hk) hy
        refine .pure ?_
        simpa [entryPages] using this.symm

/-- The entry of `va`, if it is present. -/
def Pgdir.mapped (d : Pgdir) (va : ℕ) : Option Pte := (d.lookup va).join

theorem mapped_setPte_self (h : d.lookup va = some y) : (d.setPte va x).mapped va = x := by
  obtain ⟨t, ht, -⟩ := lookup_eq_some.mp h
  simp [Pgdir.mapped, Pgdir.lookup, Pgdir.setPte, ht]

/-- Two addresses of pages that have one entry are equal. -/
theorem eq_of_entry {a b : ℕ} (ha : a % PGSIZE = 0) (hb : b % PGSIZE = 0) (ha' : a < 2 ^ 32)
    (hb' : b < 2 ^ 32) (hd : PDX a = PDX b) (ht : PTX a = PTX b) : a = b := by
  simp only [PDX, PTX, PGSIZE] at *
  omega

theorem mapped_setPte_of_ne {b : ℕ} (ha : va % PGSIZE = 0) (hb : b % PGSIZE = 0) (ha' : va < 2 ^ 32)
    (hb' : b < 2 ^ 32) (hne : b ≠ va) : (d.setPte va x).mapped b = d.mapped b := by
  simp only [Pgdir.mapped, Pgdir.lookup, Pgdir.setPte]
  by_cases hd : PDX b = PDX va
  · have ht : PTX b ≠ PTX va := fun ht => hne (eq_of_entry hb ha hb' ha' hd ht)
    rw [hd, Function.update_self]
    cases d.pde (PDX va) <;> simp [ht]
  · rw [Function.update_of_ne hd]

/-- Each page that is taken out of the directory is freed. -/
theorem deallocFrom_balances {oldsz : ℕ} (hk : oldsz ≤ KERNBASE) (n : ℕ) : ∀ (d : Pgdir) (a : ℕ),
    a % PGSIZE = 0 → oldsz ≤ a + n →
      Balances Kmem.free d.pages (deallocFrom k oldsz n d a) fun d' g => g = d'.pages ∧
        ∀ b, b % PGSIZE = 0 → b < oldsz → d'.mapped b = if a ≤ b then none else d.mapped b := by
  induction n with
  | zero =>
      intro d a _ hn
      exact .pure ⟨rfl, fun b _ hb => by rw [if_neg (by omega)]⟩
  | succ n ih =>
      intro d a ha hn
      rw [deallocFrom]
      split
      · rename_i hlt
        have hlt' : a < KERNBASE := by omega
        have hpos : 0 < PGSIZE := by decide
        have hnext : (a + PGSIZE) % PGSIZE = 0 := by rw [Nat.add_mod_right, ha]
        -- Between a page and the next there is no page.
        have hgap : ∀ b, b % PGSIZE = 0 → a ≤ b → ¬ a + PGSIZE ≤ b → b = a := by
          intro b hb h₁ h₂
          simp only [PGSIZE] at *
          omega
        split
        · rename_i hl
          -- Without a table, the loop goes on with the next.
          have hgo : PGADDR (PDX a + 1) 0 0 - PGSIZE + PGSIZE = (PDX a + 1) * 2 ^ 22 := by
            simp only [PGADDR, PGSIZE]
            omega
          have hskip : a < (PDX a + 1) * 2 ^ 22 ∧
              ∀ b, a ≤ b → b < (PDX a + 1) * 2 ^ 22 → PDX b = PDX a := by
            simp only [PDX, KERNBASE] at *
            constructor
            · omega
            · intro b h₁ h₂
              omega
          rw [hgo]
          refine (ih d _ (by simp only [PGSIZE]; omega) (by omega)).mono fun d' g ⟨hg, hm⟩ =>
            ⟨hg, fun b hb hlt => ?_⟩
          rw [hm b hb hlt]
          by_cases hab : a ≤ b
          · rw [if_pos hab]
            split
            · rfl
            · have hp := hskip.2 b hab (by omega)
              have : d.pde (PDX a) = none := by simpa [Pgdir.lookup] using hl
              simp [Pgdir.mapped, Pgdir.lookup, hp, this]
          · rw [if_neg hab, if_neg (by omega)]
        · rename_i hl
          refine (ih d _ hnext (by omega)).mono fun d' g ⟨hg, hm⟩ => ⟨hg, fun b hb hlt => ?_⟩
          rw [hm b hb hlt]
          by_cases hab : a ≤ b
          · rw [if_pos hab]
            split
            · rfl
            · rename_i hge
              rw [hgap b hb hab hge, Pgdir.mapped, hl]
              rfl
          · rw [if_neg hab, if_neg (by omega)]
        · rename_i pte hl
          have hset := pages_setPte_user (x := none) (PDX_user hlt') hl
          simp only [entryPages, add_zero] at hset
          split
          · exact .throw
          · refine .seq (d.setPte a none).pages (kfree_balances k pte.pa) (fun _ g hg => ?_)
              (by rw [← hset, add_comm])
            subst hg
            rw [zero_add]
            refine (ih _ _ hnext (by omega)).mono fun d' g ⟨hg, hm⟩ => ⟨hg, fun b hb hlt => ?_⟩
            rw [hm b hb hlt]
            by_cases hab : a ≤ b
            · rw [if_pos hab]
              split
              · rfl
              · rename_i hge
                rw [hgap b hb hab hge, mapped_setPte_self hl]
            · rw [if_neg hab, if_neg (by omega)]
              have : KERNBASE < 2 ^ 32 := by decide
              exact mapped_setPte_of_ne ha hb (by omega) (by omega) (by omega)
      · exact .pure ⟨rfl, fun b _ hb => by rw [if_neg (by omega)]⟩

theorem PGROUNDUP_mod (n : ℕ) : PGROUNDUP n % PGSIZE = 0 := Nat.mul_mod_left _ _

/-- What `deallocuvm` returns is the smaller of the sizes. -/
theorem deallocuvm_balances {oldsz newsz : ℕ} (hk : oldsz ≤ KERNBASE) (d : Pgdir) :
    Balances Kmem.free d.pages (deallocuvm k d oldsz newsz) fun r g =>
      g = r.1.pages ∧ r.2 = min oldsz newsz ∧
        (newsz = 0 → ∀ b, b % PGSIZE = 0 → b < oldsz → r.1.mapped b = none) := by
  rw [deallocuvm]
  split
  · rename_i hle
    exact .pure ⟨rfl, (min_eq_left hle).symm, fun h b _ hb => by omega⟩
  · rename_i hle
    refine .bind (deallocFrom_balances k hk _ d _ (PGROUNDUP_mod newsz) (by omega))
      fun d' g ⟨hg, hm⟩ => .pure ⟨hg, (min_eq_right (by omega)).symm, ?_⟩
    rintro rfl b hb hlt
    simpa [PGROUNDUP, PGSIZE] using hm b hb hlt

/-- A directory that maps nothing below `KERNBASE` owns its page and those of its tables. -/
theorem pages_of_unmapped (h : ∀ b, b % PGSIZE = 0 → b < KERNBASE → d.mapped b = none) :
    d.pages = ∑ i ∈ Finset.range NPDENTRIES, (d.pde i).elim 0 (fun t => {t.page}) + {d.page} := by
  rw [Pgdir.pages, add_comm, Finset.sum_congr rfl]
  intro i _
  cases hd : d.pde i with
  | none => rfl
  | some t =>
      rw [tablePages]
      split
      · rename_i hi
        have hnone : ∀ j ∈ Finset.range NPTENTRIES, entryPages (t.pte j) = 0 := by
          intro j hj
          have hj : j < 1024 := Finset.mem_range.mp hj
          have hi : i < 512 := hi
          have hm := h (i * 2 ^ 22 + j * 2 ^ 12) (by simp only [PGSIZE]; omega)
            (by simp only [KERNBASE]; omega)
          have h₁ : PDX (i * 2 ^ 22 + j * 2 ^ 12) = i := by simp only [PDX]; omega
          have h₂ : PTX (i * 2 ^ 22 + j * 2 ^ 12) = j := by simp only [PTX]; omega
          rw [Pgdir.mapped, Pgdir.lookup, h₁, h₂, hd] at hm
          rw [show t.pte j = none from hm]
          rfl
        rw [Finset.sum_eq_zero hnone, add_zero]
        rfl
      · exact add_zero _

/-- The tables are freed. -/
theorem freeTables_balances (d : Pgdir) (n : ℕ) :
    Balances Kmem.free (∑ i ∈ Finset.range n, (d.pde i).elim 0 (fun t => {t.page}))
      (freeTables k d n) fun _ g => g = 0 := by
  induction n with
  | zero => exact .pure rfl
  | succ n ih =>
      refine .seq _ ih (fun _ g hg => ?_) (Finset.sum_range_succ _ _)
      subst hg
      rw [zero_add]
      cases d.pde n with
      | none => exact .pure rfl
      | some t => exact kfree_balances k t.page

/-- **`freevm` gives back all that a directory owns.** -/
theorem freevm_balances (d : Option Pgdir) :
    Balances Kmem.free (dirPages d) (freevm k d) fun _ g => g = 0 := by
  cases d with
  | none => exact .throw
  | some d =>
      refine .bind (deallocuvm_balances k le_rfl d) fun r g ⟨hg, _, hm⟩ => ?_
      rw [hg, pages_of_unmapped (hm rfl)]
      refine .seq _ (freeTables_balances k r.1 NPDENTRIES) (fun _ g hg => ?_) rfl
      rw [hg, zero_add]
      exact kfree_balances k r.1.page

/-- The pages that `mappages` maps for a range from `KERNBASE` on lie from `KERNBASE` on. -/
theorem mapCount_kernel {virt size i : ℕ} (hlo : KERNBASE ≤ virt) (hpos : 0 < size)
    (hhi : virt + size ≤ 2 ^ 32) (hi : i < mapCount virt size) :
    PDX KERNBASE ≤ PDX (PGROUNDDOWN virt + i * PGSIZE) := by
  apply PDX_kernel <;>
  · simp only [mapCount, PGROUNDDOWN, PGSIZE, KERNBASE] at *
    omega

/-- The ranges of `kmap` are not empty, and lie from `KERNBASE` on. -/
theorem kmap_range {e : Kmap} (he : e ∈ kmap k) :
    KERNBASE ≤ e.virt ∧ 0 < (e.physEnd + 2 ^ 32 - e.physStart) % 2 ^ 32 ∧
      e.virt + (e.physEnd + 2 ^ 32 - e.physStart) % 2 ^ 32 ≤ 2 ^ 32 := by
  have h₁ := k.data_lo
  have h₂ := k.data_le
  have h₃ := k.kend_hi
  simp only [kmap, List.mem_cons, List.not_mem_nil, or_false] at he
  simp only [KERNLINK, KERNBASE, EXTMEM, P2V, PHYSTOP] at h₁ h₂ h₃
  rcases he with rfl | rfl | rfl | rfl <;>
    simp only [KERNLINK, KERNBASE, EXTMEM, V2P, PHYSTOP, DEVSPACE] <;> omega

/-- The mappings of the kernel take pages for tables only. -/
theorem mapKernel_balances (es : List Kmap) (hes : ∀ e ∈ es, e ∈ kmap k) : ∀ d : Pgdir,
    Balances Kmem.free d.pages (mapKernel k d es) fun r g => g = dirPages r := by
  induction es with
  | nil => exact fun d => .pure rfl
  | cons e es ih =>
      intro d
      obtain ⟨h₁, h₂, h₃⟩ := kmap_range k (hes e (by simp))
      refine .bind (mapFrom_kernel _ _ _ _ _ _ fun i hi => mapCount_kernel h₁ h₂ h₃ hi)
        fun r g hg => ?_
      subst hg
      dsimp only
      split
      · exact ih (fun e' he => hes e' (by simp [he])) r.2
      · exact .bind (freevm_balances k (some r.2)) fun _ g hg => .pure hg

/-- `setupkvm` gives a directory with its pages, or nothing. -/
theorem setupkvm_balances :
    Balances Kmem.free 0 (setupkvm k) fun r g => g = dirPages r := by
  refine .bind kalloc_balances fun r g hg => ?_
  subst hg
  cases r with
  | none => exact .pure rfl
  | some p =>
      dsimp only
      split
      · exact .throw
      · have := mapKernel_balances k (kmap k) (fun _ h => h) ⟨p, fun _ => none⟩
        rwa [pages_empty] at this

/-- Every page that the loop takes is mapped, or freed again. -/
theorem allocFrom_balances {oldsz newsz : ℕ} (hnew : newsz < KERNBASE) (n : ℕ) :
    ∀ (d : Pgdir) (a : ℕ), a % PGSIZE = 0 → a + n * PGSIZE ≤ KERNBASE →
      Balances Kmem.free d.pages (allocFrom k oldsz newsz n d a) fun r g =>
        g = r.1.pages ∧ r.2 < KERNBASE := by
  induction n with
  | zero => exact fun d a _ _ => .pure ⟨rfl, hnew⟩
  | succ n ih =>
      intro d a ha hn
      have hk : (0 : ℕ) < KERNBASE := by decide
      have hpos : 0 < PGSIZE := by decide
      rw [Nat.succ_mul] at hn
      refine .seq d.pages kalloc_balances (fun r g hg => ?_) (zero_add _).symm
      subst hg
      cases r with
      | none =>
          simp only [Option.elim_none, zero_add]
          exact .bind (deallocuvm_balances k hnew.le d) fun r g ⟨hg, _⟩ => .pure ⟨hg, hk⟩
      | some mem =>
          rw [add_comm]
          refine .bind (mappages_user ha (by omega) d mem true true) fun r g hg => ?_
          subst hg
          dsimp only
          split
          · rw [add_zero]
            exact ih r.2 _ (by rw [Nat.add_mod_right, ha]) (by omega)
          · refine .seq {mem} (deallocuvm_balances k hnew.le r.2) (fun r g ⟨hg, _⟩ => ?_) rfl
            subst hg
            refine .seq r.1.pages (kfree_balances k mem) (fun _ g hg => ?_) (add_comm _ _)
            subst hg
            exact .pure ⟨zero_add _, hk⟩

/-- A new size that `allocuvm` returns is below `KERNBASE`. -/
theorem allocuvm_balances {oldsz newsz : ℕ} (hold : oldsz < KERNBASE ∨ oldsz ≤ newsz) (d : Pgdir) :
    Balances Kmem.free d.pages (allocuvm k d oldsz newsz) fun r g =>
      g = r.1.pages ∧ r.2 < KERNBASE := by
  have hk : (0 : ℕ) < KERNBASE := by decide
  rw [allocuvm]
  split
  · exact .pure ⟨rfl, hk⟩
  · rename_i hnew
    split
    · exact .pure ⟨rfl, by dsimp only; omega⟩
    · refine allocFrom_balances k (by omega) _ d _ (PGROUNDUP_mod oldsz) ?_
      simp only [PGROUNDUP, PGSIZE, KERNBASE] at *
      omega

/-- Every page that the loop takes is mapped, or freed again. -/
theorem copyFrom_balances (pgdir : Pgdir) (n : ℕ) :
    ∀ (d : Pgdir) (i : ℕ), i % PGSIZE = 0 → i + n * PGSIZE ≤ KERNBASE →
      Balances Kmem.free d.pages (copyFrom k pgdir n d i) fun r g => g = dirPages r := by
  induction n with
  | zero => exact fun d i _ _ => .pure rfl
  | succ n ih =>
      intro d i hi hn
      have hpos : 0 < PGSIZE := by decide
      rw [Nat.succ_mul] at hn
      rw [copyFrom]
      split
      · exact .throw
      · exact .throw
      · rename_i pte _
        refine .seq d.pages kalloc_balances (fun r g hg => ?_) (zero_add _).symm
        subst hg
        cases r with
        | none =>
            simp only [Option.elim_none, zero_add]
            exact .bind (freevm_balances k (some d)) fun _ g hg => .pure hg
        | some mem =>
            rw [add_comm]
            refine .bind (mappages_user hi (by omega) d mem pte.w pte.u) fun r g hg => ?_
            subst hg
            dsimp only
            split
            · rw [add_zero]
              exact ih r.2 _ (by rw [Nat.add_mod_right, hi]) (by omega)
            · refine .seq r.2.pages (kfree_balances k mem) (fun _ g hg => ?_) (add_comm _ _)
              subst hg
              rw [zero_add]
              exact .bind (freevm_balances k (some r.2)) fun _ g hg => .pure hg

/-- `copyuvm` gives a directory with its pages, or nothing. -/
theorem copyuvm_balances {sz : ℕ} (hsz : sz < KERNBASE) (pgdir : Pgdir) :
    Balances Kmem.free 0 (copyuvm k pgdir sz) fun r g => g = dirPages r := by
  refine .bind (setupkvm_balances k) fun r g hg => ?_
  subst hg
  cases r with
  | none => exact .pure rfl
  | some d =>
      refine copyFrom_balances k pgdir _ d 0 rfl ?_
      simp only [PGROUNDUP, PGSIZE, KERNBASE] at *
      omega

end Xv6.Vm
