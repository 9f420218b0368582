import Xv6.Uvm.Pages

/-!
# Address spaces — with pages enough

What takes pages is refused none while the free list is long enough.  A directory may need a page
for every table that it does not have, and no function takes a page for anything else but a table, a
directory or a page that it maps.

* `Supplied` — the free list has the pages for the tables of a directory, and some more.
* `mapFrom_supplied` — `mappages` is then refused no table.
* `setupkvm_supplied`, `allocuvm_supplied`, `copyuvm_supplied` — none of them fails.
-/

namespace Xv6.Uvm

open Vm (Page Panic PGSIZE NPDENTRIES KERNBASE PDX PGROUNDUP)
open Lib (wp_seq wp_mono)

/-- `x`, run in `s`, returns with `Q` if it returns. -/
abbrev Partly {α : Type} (x : Uvm α) (Q : α → Machine → Prop) (s : Machine) : Prop :=
  Lib.wp (fun _ : Panic => True) x Q s

/-- The number of entries of the directory that have no table. -/
def Pgdir.untabled (d : Pgdir) : ℕ :=
  ((Finset.range NPDENTRIES).filter fun i => (d.pde i).isNone).card

/-- Every page asked for is granted while there is one. -/
def Granting (s : Machine) : Prop := ∀ i, s.kmem.refuse i = false

/-- There are pages for all tables of the directory `d`, and `n` more. -/
structure Supplied (s : Machine) (d : Pgdir) (n : ℕ) : Prop where
  granting : Granting s
  enough : d.untabled + n ≤ s.kmem.freelist.length

variable {k : Vm.Symbols} {s t : Machine} {d pgdir : Pgdir} {p : Page} {va pa n m newsz oldsz : ℕ}
  {x : Pte}

theorem untabled_le (d : Pgdir) : d.untabled ≤ NPDENTRIES := by
  refine (Finset.card_filter_le _ _).trans ?_
  rw [Finset.card_range]

/-- Every new table is one that is not needed again. -/
theorem untabled_addTable (h : d.pde (PDX va) = none) (p : Page) :
    (d.addTable va p).untabled + 1 = d.untabled := by
  have hlt : PDX va < NPDENTRIES := Nat.mod_lt _ (by decide)
  have hmem : PDX va ∈ (Finset.range NPDENTRIES).filter fun i => (d.pde i).isNone :=
    Finset.mem_filter.mpr ⟨Finset.mem_range.mpr hlt, by rw [h]; rfl⟩
  have herase : ((Finset.range NPDENTRIES).filter fun i => ((d.addTable va p).pde i).isNone) =
      ((Finset.range NPDENTRIES).filter fun i => (d.pde i).isNone).erase (PDX va) := by
    ext i
    by_cases hi : i = PDX va
    · simp [hi, Pgdir.addTable]
    · simp [hi, Pgdir.addTable]
  rw [Pgdir.untabled, herase, Finset.card_erase_add_one hmem, Pgdir.untabled]

theorem untabled_setPte (d : Pgdir) (va : ℕ) (x : Pte) : (d.setPte va x).untabled = d.untabled := by
  unfold Pgdir.untabled
  refine congrArg Finset.card (Finset.filter_congr fun i _ => ?_)
  by_cases hi : i = PDX va
  · subst hi
    cases hd : d.pde (PDX va) <;> simp [Pgdir.setPte, hd]
  · simp [Pgdir.setPte, Function.update_of_ne hi]

theorem Supplied.setPte (h : Supplied s d n) : Supplied s (d.setPte va x) n :=
  ⟨h.granting, (untabled_setPte d va x).symm ▸ h.enough⟩

/-- The bytes of memory do not matter. -/
theorem Supplied.of_kmem (h : Supplied s d n) (hkm : t.kmem = s.kmem) : Supplied t d n :=
  ⟨fun i => by rw [hkm]; exact h.granting i, by rw [hkm]; exact h.enough⟩

/-! ### Pages and tables -/

/-- `kalloc` gives a page while there is one. -/
theorem kalloc_supplied (hg : Granting s) (h : n + 1 ≤ s.kmem.freelist.length) : Partly kalloc
    (fun r t => (∃ p, r = some p) ∧ Granting t ∧ n ≤ t.kmem.freelist.length) s := by
  obtain ⟨q, l, hl⟩ : ∃ q l, s.kmem.freelist = q :: l := by
    cases hl : s.kmem.freelist with
    | nil => rw [hl] at h; exact absurd h (by simp)
    | cons q l => exact ⟨q, l, rfl⟩
  have hr : kalloc s = .ok (some q, { s with kmem :=
      { s.kmem with calls := s.kmem.calls + 1, freelist := l } }) := by
    simp only [kalloc, onKmem, Vm.kalloc, hg s.kmem.calls, hl]
    rfl
  rw [Partly, Lib.wp, hr]
  rw [hl, List.length_cons] at h
  exact ⟨⟨q, rfl⟩, hg, Nat.le_of_succ_le_succ h⟩

/-- `walkpgdir` finds the entry, while there are pages for the tables that are missing. -/
theorem walkpgdir_supplied (h : Supplied s d n) (va : ℕ) : Partly (walkpgdir d va)
    (fun r t => ∃ d', r = some d' ∧ Supplied t d' n) s := by
  rw [walkpgdir]
  cases hd : d.pde (PDX va) with
  | some pt => exact ⟨d, rfl, h⟩
  | none =>
      have hpage : ∀ p, (d.addTable va p).untabled + 1 = d.untabled := untabled_addTable hd
      have henough := h.enough
      refine wp_seq (kalloc_supplied (n := d.untabled + n - 1) h.granting ?_) ?_
      · have := hpage 0
        omega
      · rintro r t ⟨⟨p, rfl⟩, hg, hlen⟩
        have := hpage p
        exact ⟨_, rfl, hg, by omega⟩

/-- **No table is refused.** -/
theorem mapFrom_supplied (perm : Flags) (m : ℕ) : ∀ (d : Pgdir) (a pa : ℕ) (s : Machine),
    Supplied s d n → Partly (mapFrom perm m d a pa) (fun r t => r.1 = true ∧ Supplied t r.2 n) s := by
  induction m with
  | zero => exact fun d a pa s h => ⟨rfl, h⟩
  | succ m ih =>
      intro d a pa s h
      rw [mapFrom]
      refine wp_seq (walkpgdir_supplied h a) ?_
      rintro r t ⟨d', rfl, h'⟩
      dsimp only
      split
      · trivial
      · exact ih _ _ _ t h'.setPte

theorem mappages_supplied (h : Supplied s d n) (va size pa : ℕ) (perm : Flags) :
    Partly (mappages d va size pa perm) (fun r t => r.1 = true ∧ Supplied t r.2 n) s :=
  mapFrom_supplied perm _ d _ pa s h

/-! ### The functions -/

/-- The mappings of the kernel succeed with pages for their tables. -/
theorem mapKernel_supplied (es : List Vm.Kmap) : ∀ (d : Pgdir) (s : Machine), Supplied s d n →
    Partly (mapKernel k d es) (fun r t => ∃ d', r = some d' ∧ Supplied t d' n) s := by
  induction es with
  | nil => exact fun d s h => ⟨d, rfl, h⟩
  | cons e es ih =>
      intro d s h
      rw [mapKernel]
      refine wp_seq (mappages_supplied h _ _ _ _) ?_
      rintro ⟨ok, d'⟩ t ⟨hok, h'⟩
      obtain rfl : ok = true := hok
      exact ih d' t h'

/-- So does `setupkvm`. -/
theorem setupkvm_supplied (hg : Granting s) (h : 1 + NPDENTRIES + n ≤ s.kmem.freelist.length) :
    Partly (setupkvm k) (fun r t => ∃ d, r = some d ∧ Supplied t d n) s := by
  rw [setupkvm]
  refine wp_seq (kalloc_supplied (n := NPDENTRIES + n) hg (by omega)) ?_
  rintro r t ⟨⟨pgdir, rfl⟩, hg', hlen⟩
  dsimp only
  split
  · trivial
  · have := untabled_le ⟨pgdir, fun _ => none⟩
    exact mapKernel_supplied _ _ t ⟨hg', by omega⟩

/-- The loop of `allocuvm` reaches the new size with a page for each step. -/
theorem allocFrom_supplied (m : ℕ) : ∀ (d : Pgdir) (a : ℕ) (s : Machine), Supplied s d (m + n) →
    Partly (allocFrom k oldsz newsz m d a) (fun r t => r.2 = newsz ∧ Supplied t r.1 n) s := by
  induction m with
  | zero =>
      intro d a s h
      rw [Nat.zero_add] at h
      exact ⟨rfl, h⟩
  | succ m ih =>
      intro d a s h
      have henough := h.enough
      rw [allocFrom]
      refine wp_seq (kalloc_supplied (n := d.untabled + (m + n)) h.granting (by omega)) ?_
      rintro r t ⟨⟨mem, rfl⟩, hg, hlen⟩
      have hset : Partly (memset mem 0 PGSIZE) (fun _ u => Supplied u d (m + n)) t :=
        Supplied.of_kmem ⟨hg, hlen⟩ rfl
      refine wp_seq hset fun _ u hu => ?_
      refine wp_seq (mappages_supplied hu _ _ _ _) ?_
      rintro ⟨ok, d'⟩ v ⟨hok, hv⟩
      obtain rfl : ok = true := hok
      exact ih d' _ v hv

/-- **`allocuvm` succeeds** where there are the pages, below `KERNBASE`. -/
theorem allocuvm_supplied (hK : newsz < KERNBASE)
    (h : Supplied s d (npages (max oldsz newsz) - npages oldsz + n)) :
    Partly (allocuvm k d oldsz newsz) (fun r t => r.2 = max oldsz newsz ∧ Supplied t r.1 n) s := by
  rw [allocuvm, if_neg (by omega)]
  split
  · rename_i hlt
    rw [max_eq_left hlt.le, Nat.sub_self, Nat.zero_add] at h
    exact ⟨(max_eq_left hlt.le).symm, h⟩
  · rename_i hle
    have hcount : (newsz - PGROUNDUP oldsz + PGSIZE - 1) / PGSIZE = npages newsz - npages oldsz := by
      simp only [npages, PGROUNDUP, PGSIZE]
      omega
    rw [max_eq_right (not_lt.mp hle)] at h ⊢
    dsimp only
    rw [hcount]
    exact allocFrom_supplied _ d _ s h

/-- The loop of `copyuvm` copies every page with a page for each step. -/
theorem copyFrom_supplied (m : ℕ) : ∀ (d : Pgdir) (i : ℕ) (s : Machine), Supplied s d m →
    Partly (copyFrom k pgdir m d i) (fun r _ => ∃ d', r = some d') s := by
  induction m with
  | zero => exact fun d i s h => ⟨d, rfl⟩
  | succ m ih =>
      intro d i s h
      have henough := h.enough
      rw [copyFrom]
      cases pgdir.lookup i with
      | none => trivial
      | some pte =>
          dsimp only
          split
          · trivial
          refine wp_seq (kalloc_supplied (n := d.untabled + m) h.granting (by omega)) ?_
          rintro r t ⟨⟨mem, rfl⟩, hg, hlen⟩
          have hmove : Partly (memmove mem (fun o => t.ram (pte.addr + o)) PGSIZE)
              (fun _ u => Supplied u d m) t := Supplied.of_kmem ⟨hg, hlen⟩ rfl
          refine Lib.wp_bind.mpr (Lib.wp_get.mpr (wp_seq hmove fun _ u hu => ?_))
          refine wp_seq (mappages_supplied hu _ _ _ _) ?_
          rintro ⟨ok, d'⟩ v ⟨hok, hv⟩
          obtain rfl : ok = true := hok
          exact ih d' _ v hv

/-- **`copyuvm` succeeds** where there are the pages. -/
theorem copyuvm_supplied (hg : Granting s)
    (h : 1 + NPDENTRIES + npages newsz ≤ s.kmem.freelist.length) :
    Partly (copyuvm k pgdir newsz) (fun r _ => ∃ d, r = some d) s := by
  have hcount : PGROUNDUP newsz / PGSIZE = npages newsz := Nat.mul_div_cancel _ (by decide)
  rw [copyuvm]
  refine wp_seq (setupkvm_supplied hg h) ?_
  rintro r t ⟨d, rfl, ht⟩
  dsimp only
  rw [hcount]
  exact copyFrom_supplied _ d 0 t ht

/-! ### A machine with pages enough -/

/-- Two thousand pages. -/
def roomyPages : List ℕ := (List.range 2000).map fun i : ℕ => 0x400000 + i * 4096

theorem length_roomyPages : roomyPages.length = 2000 := by
  rw [roomyPages, List.length_map, List.length_range]

theorem mem_roomyPages {p : ℕ} : p ∈ roomyPages ↔ ∃ i < 2000, 0x400000 + i * 4096 = p := by
  rw [roomyPages, List.mem_map]
  simp only [List.mem_range]

theorem nodup_roomyPages : roomyPages.Nodup := by
  unfold roomyPages
  refine List.Nodup.map_on (fun i _ j _ hij => ?_) List.nodup_range
  omega

-- Nothing is to be run by unification.
attribute [irreducible] roomyPages

/-- They are free, beside the pages of `smallSpace`. -/
def roomyMachine : Machine := ⟨⟨roomyPages, 0, fun _ => false⟩, fun _ => 7⟩

theorem roomyMachine_granting : Granting roomyMachine := fun _ => rfl

/-- Each page of the machine with two thousand free pages is in one place. -/
theorem roomyMachine_owns : Owns smallLinked.toSymbols roomyMachine (smallSpace.pages + 0) := by
  have hbounds : ∀ p : ℕ, p ∈ roomyMachine.kmem.free →
      0x400000 ≤ p ∧ Valid smallLinked.toSymbols p := by
    intro p hp
    obtain ⟨i, hi, rfl⟩ := mem_roomyPages.mp (Multiset.mem_coe.mp hp)
    refine ⟨by omega, ?_, ?_, ?_⟩
    · show (0x400000 + i * 4096) % 4096 = 0
      omega
    · show 0x80100000 + 2 * 4096 ≤ 0x400000 + i * 4096 + 0x80000000
      omega
    · show 0x400000 + i * 4096 < 0xE000000
      omega
  rw [smallSpace_pages, add_zero]
  constructor
  · refine Multiset.nodup_add.mpr ⟨Multiset.coe_nodup.mpr nodup_roomyPages, by decide, ?_⟩
    refine Multiset.disjoint_left.mpr fun hp hq => ?_
    have hle := (hbounds _ hp).1
    simp only [Multiset.insert_eq_cons, Multiset.mem_cons, Multiset.mem_singleton] at hq
    rcases hq with rfl | rfl | rfl <;> exact absurd hle (by decide)
  · intro p hp
    rcases Multiset.mem_add.mp hp with hp | hp
    · exact (hbounds p hp).2
    · simp only [Multiset.insert_eq_cons, Multiset.mem_cons, Multiset.mem_singleton] at hp
      rcases hp with rfl | rfl | rfl <;> exact ⟨by decide, by decide, by decide⟩

end Xv6.Uvm
