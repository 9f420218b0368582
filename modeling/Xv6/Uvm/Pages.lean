import Xv6.Uvm.Space

/-!
# Address spaces — mapping, unmapping and freeing pages

What each function does to the entries, to memory and to the books (`Total`: it returns, with no
panic).  Pages are named by number.

* `mapFrom_total`, `mapPage_total` — `mappages` over pages that are not mapped.
* `deallocuvm_total` — `deallocuvm` unmaps the pages between two sizes, and no other page.
* `freevm_total`, `setupkvm_total`.
-/

namespace Xv6.Uvm

open Vm (Page Kmem Panic PGSIZE NPDENTRIES KERNBASE PDX PTX PGADDR PGROUNDUP PGROUNDDOWN P2V)
open Lib (wp_seq wp_mono wp_pure)

/-- `x`, run in `s`, returns, with `Q`. -/
abbrev Total {α : Type} (x : Uvm α) (Q : α → Machine → Prop) (s : Machine) : Prop :=
  Lib.wp (fun _ : Panic => False) x Q s

variable {k : Vm.Symbols} {s t : Machine} {d : Pgdir} {i j pa : ℕ} {p : Page} {perm : Flags}

/-- What returns keeps its books. -/
theorem Total.balances {α : Type} {x : Uvm α} {Q : α → Machine → Prop} {G : Multiset Page}
    {post : α → Multiset Page → Prop} (h : Total x Q s)
    (hb : Lib.Balances (fun s : Machine => s.kmem.free) G x post) :
    Total x (fun a t => Q a t ∧ ∃ r, post a r ∧ t.kmem.free + r = s.kmem.free + G) s := by
  unfold Total Lib.wp at *
  split at h
  · rename_i a t ht
    exact ⟨h, hb s a t ht⟩
  · exact h.elim

theorem get_total {α : Type} {f : Machine → Uvm α} {Q : α → Machine → Prop} (h : Total (f s) Q s) :
    Total (get >>= f) Q s := h

/-! ### The allocator -/

/-- `kalloc` changes no byte. -/
theorem kalloc_total (s : Machine) : Total kalloc
    (fun r t => t.ram = s.ram ∧ t.kmem.free + r.elim 0 ({·}) = s.kmem.free) s := by
  have hb := Vm.kalloc_balances s.kmem
  simp only [Total, Lib.wp, kalloc, onKmem]
  cases h : Vm.kalloc s.kmem with
  | error e =>
      unfold Vm.kalloc at h
      split at h
      · cases h
      · split at h <;> cases h
  | ok r =>
      obtain ⟨g, hg, he⟩ := hb r.1 r.2 h
      exact ⟨rfl, by rw [← hg, he, add_zero]⟩

/-- A page is filled. -/
theorem memset_page (hp : p % PGSIZE = 0) (c : UInt8) (s : Machine) : Total (memset p c PGSIZE)
    (fun _ t => t.kmem = s.kmem ∧ (∀ o < PGSIZE, t.ram (p + o) = c) ∧
      ∀ q, q % PGSIZE = 0 → q ≠ p → Keeps s t q) s :=
  ⟨rfl, fun _ ho => if_pos ⟨Nat.le_add_right _ _, Nat.add_lt_add_left ho p⟩,
    fun _ hq hne _ ho => if_neg (page_apart hq hp hne ho)⟩

/-- A page is written. -/
theorem memmove_page (hp : p % PGSIZE = 0) (src : ℕ → UInt8) (s : Machine) :
    Total (memmove p src PGSIZE)
      (fun _ t => t.kmem = s.kmem ∧ (∀ o < PGSIZE, t.ram (p + o) = src o) ∧
        ∀ q, q % PGSIZE = 0 → q ≠ p → Keeps s t q) s := by
  refine ⟨rfl, fun o ho => ?_, fun _ hq hne _ ho => if_neg (page_apart hq hp hne ho)⟩
  show (if p ≤ p + o ∧ p + o < p + PGSIZE then src (p + o - p) else _) = src o
  rw [if_pos ⟨Nat.le_add_right _ _, Nat.add_lt_add_left ho p⟩, Nat.add_sub_cancel_left]

/-- `kfree` changes the bytes of its page only. -/
theorem kfree_total (hv : Valid k p) (s : Machine) : Total (kfree k p)
    (fun _ t => t.kmem.free = s.kmem.free + {p} ∧
      ∀ q, q % PGSIZE = 0 → q ≠ p → Keeps s t q) s := by
  have hno : ¬ (p % PGSIZE ≠ 0 ∨ P2V p < k.kend ∨ Vm.PHYSTOP ≤ p) := by
    rintro (h | h | h)
    · exact h hv.aligned
    · exact absurd hv.lo (by omega)
    · exact absurd hv.hi (not_lt.mpr h)
  have hk : Vm.kfree k p s.kmem = .ok ((), { s.kmem with freelist := p :: s.kmem.freelist }) := by
    rw [Vm.kfree, if_neg hno]
    rfl
  have hr : kfree k p s = .ok ((), ⟨{ s.kmem with freelist := p :: s.kmem.freelist },
      fun a => if p ≤ a ∧ a < p + PGSIZE then 1 else s.ram a⟩) := by
    simp only [kfree, Bind.bind, StateT.bind, onKmem, hk]
    rfl
  rw [Total, Lib.wp, hr]
  refine ⟨?_, fun q hq hne o ho => if_neg (page_apart hq hv.aligned hne ho)⟩
  rw [Kmem.free, ← Multiset.cons_coe, ← Multiset.singleton_add, add_comm]
  rfl

/-! ### Mapping -/

/-- `walkpgdir` changes no entry. -/
theorem walkpgdir_total (d : Pgdir) (va : ℕ) (s : Machine) : Total (walkpgdir d va)
    (fun r t => t.ram = s.ram ∧ t.kmem.free ≤ s.kmem.free ∧ (r = none → t.kmem.free = s.kmem.free) ∧ ∀ d', r = some d' →
      (∀ j, d'.pte j = d.pte j) ∧ (∃ y, d'.lookup va = some y) ∧
        t.kmem.free + d'.pages = s.kmem.free + d.pages) s := by
  rw [walkpgdir]
  cases hd : d.pde (PDX va) with
  | some pt =>
      refine ⟨rfl, le_rfl, fun h => (Option.some_ne_none _ h).elim, ?_⟩
      rintro _ ⟨⟩
      exact ⟨fun _ => rfl, ⟨_, by rw [Pgdir.lookup, hd, Option.map_some]⟩, rfl⟩
  | none =>
      refine wp_seq (kalloc_total s) ?_
      rintro r t ⟨hram, hfree⟩
      have hle : t.kmem.free ≤ s.kmem.free := hfree ▸ Multiset.le_add_right _ _
      cases r with
      | none =>
          refine ⟨hram, hle, fun _ => by simpa using hfree, ?_⟩
          rintro _ ⟨⟩
      | some p =>
          refine ⟨hram, hle, fun h => (Option.some_ne_none _ h).elim, ?_⟩
          rintro _ ⟨⟩
          refine ⟨pte_addTable hd p, ⟨0, lookup_addTable d va p⟩, ?_⟩
          rw [pages_addTable hd, add_left_comm, ← add_assoc, ← hfree, Option.elim_some]
          ac_rfl

/-- `mappages` over `n` pages from the page `i`, none of them mapped. -/
theorem mapFrom_total (perm : Flags) (n : ℕ) : ∀ (d : Pgdir) (i pa : ℕ) (s : Machine),
    i + n ≤ 2 ^ 20 → (∀ j, i ≤ j → j < i + n → ¬ d.Mapped j) →
      Total (mapFrom perm n d (i * PGSIZE) pa) (fun r t => t.ram = s.ram ∧
        (∀ j < 2 ^ 20, j < i ∨ i + n ≤ j → r.2.pte j = d.pte j) ∧
        (r.1 = true → ∀ j, i ≤ j → j < i + n →
          r.2.pte j = ⟨pa + (j - i) * PGSIZE, perm ||| PTE_P⟩)) s := by
  induction n with
  | zero =>
      intro d i pa s _ _
      exact ⟨rfl, fun _ _ _ => rfl, fun _ j _ _ => by omega⟩
  | succ n ih =>
      intro d i pa s hn hun
      refine wp_seq (walkpgdir_total d _ s) ?_
      rintro r t ⟨hram, _, _, hsome⟩
      cases r with
      | none => exact ⟨hram, fun _ _ _ => rfl, fun h => by cases h⟩
      | some d₁ =>
          obtain ⟨hpte, ⟨y, hy⟩, -⟩ := hsome d₁ rfl
          have hno : ¬ (d₁.entry (i * PGSIZE)).has PTE_P = true := by
            have := hun i le_rfl (by omega)
            rwa [Pgdir.Mapped, ← hpte] at this
          have hset : ∀ j < 2 ^ 20, (d₁.setPte (i * PGSIZE) ⟨pa, perm ||| PTE_P⟩).pte j =
              if j = i then ⟨pa, perm ||| PTE_P⟩ else d.pte j := by
            intro j hj
            rw [pte_setPte hy (by omega) hj, hpte]
          dsimp only
          rw [if_neg hno, ← Nat.succ_mul]
          refine wp_mono (ih _ (i + 1) (pa + PGSIZE) t (by omega) fun j hj hj' => ?_) ?_
          · rw [Pgdir.Mapped, hset j (by omega), if_neg (by omega)]
            exact hun j (by omega) (by omega)
          · rintro r u ⟨hu, hout, hin⟩
            refine ⟨hu.trans hram, fun j hj hji => ?_, fun hr j hj hj' => ?_⟩
            · rw [hout j hj (by omega), hset j hj, if_neg (by omega)]
            · by_cases hji : j = i
              · subst hji
                rw [hout j (by omega) (by omega), hset j (by omega), if_pos rfl]
                simp
              · rw [hin hr j (by omega) (by omega), Pte.mk.injEq]
                refine ⟨?_, rfl⟩
                rw [show j - i = j - (i + 1) + 1 by omega, Nat.add_mul, Nat.one_mul, Nat.add_assoc,
                  Nat.add_comm PGSIZE]

theorem page_lt (hi : i < USER) : i * PGSIZE < KERNBASE := by
  have := USER_eq
  simp only [PGSIZE, KERNBASE]
  omega

theorem mappages_page (hi : i < USER) (d : Pgdir) (pa : ℕ) (perm : Flags) :
    mappages d (i * PGSIZE) PGSIZE pa perm = mapFrom perm 1 d (i * PGSIZE) pa := by
  obtain ⟨h₁, h₂⟩ := Vm.mapCount_page (Nat.mul_mod_left i PGSIZE) (page_lt hi)
  rw [mappages, h₁, h₂]

/-- `mappages` of one user page, which is not mapped. -/
theorem mapPage_total (hi : i < USER) (hun : ¬ d.Mapped i) (pa : Page) (perm : Flags) (s : Machine) :
    Total (mappages d (i * PGSIZE) PGSIZE pa perm) (fun r t => t.ram = s.ram ∧
      t.kmem.free ≤ s.kmem.free ∧ (∀ j < 2 ^ 20, j ≠ i → r.2.pte j = d.pte j) ∧
      (r.1 = true → r.2.pte i = ⟨pa, perm ||| PTE_P⟩) ∧ (r.1 = false → r.2 = d) ∧
      t.kmem.free + (r.2.pages + if r.1 then 0 else {pa}) = s.kmem.free + (d.pages + {pa})) s := by
  have hlt : USER < 2 ^ 20 := by decide
  rw [mappages_page hi, mapFrom]
  refine wp_seq (walkpgdir_total d _ s) fun r t ⟨hram, hle, hnone, hsome⟩ => ?_
  cases r with
  | none =>
      refine ⟨hram, hle, fun _ _ _ => rfl, fun h => (Bool.false_ne_true h).elim, fun _ => rfl, ?_⟩
      rw [hnone rfl]
      rfl
  | some d₁ =>
      obtain ⟨hpte, ⟨y, hy⟩, hpages⟩ := hsome d₁ rfl
      have hno : ¬ (d₁.entry (i * PGSIZE)).has PTE_P = true := by
        rwa [Pgdir.Mapped, ← hpte] at hun
      have hy₀ : Vm.entryPages y.erase = 0 := by
        rw [Pgdir.entry, hy, Option.getD_some] at hno
        rw [Pte.erase, if_neg hno]
        rfl
      have hset := pages_setPte (x := ⟨pa, perm ||| PTE_P⟩) hi hy
      rw [hy₀, add_zero, Pte.erase, if_pos (Pte.or_P_has_P pa perm)] at hset
      dsimp only
      rw [if_neg hno]
      refine ⟨hram, hle, fun j hj hne => ?_, fun _ => ?_,
        fun h => (Bool.false_ne_true h.symm).elim, ?_⟩
      · rw [pte_setPte hy (hi.trans hlt) hj, if_neg hne, hpte]
      · rw [pte_setPte hy (hi.trans hlt) (hi.trans hlt), if_pos rfl]
      · rw [if_pos rfl, add_zero, hset, ← add_assoc, hpages, add_assoc]
        rfl

/-! ### Unmapping -/

/-- The entry that `deallocuvm` leaves. -/
def Pte.unmap (e : Pte) : Pte := if e.has PTE_P then 0 else e

@[simp]
theorem unmap_zero : (0 : Pte).unmap = 0 := rfl

theorem unmap_has_P (e : Pte) : e.unmap.has PTE_P = false := by
  unfold Pte.unmap
  split
  · exact Pte.zero_has _
  · rename_i h
    simpa using h

/-- Where there is no table, nothing is mapped. -/
theorem pte_of_lookup_none (h : d.lookup (i * PGSIZE) = none) (hj : j / 1024 = i / 1024) :
    d.pte j = 0 := by
  rw [Pgdir.lookup, Option.map_eq_none_iff, PDX_page] at h
  rw [pte_eq, hj, h]
  rfl

/-- The pages from `i` on are unmapped and freed. -/
theorem deallocFrom_total {oldsz : ℕ} (hk : oldsz ≤ KERNBASE) (n : ℕ) :
    ∀ (d : Pgdir) (i : ℕ) (s : Machine), oldsz - i * PGSIZE ≤ n →
      (∀ j, i ≤ j → j < npages oldsz → d.Mapped j → Valid k (d.pte j).addr) →
      Total (deallocFrom k oldsz n d (i * PGSIZE)) (fun d' t => d'.tables = d.tables ∧
        (∀ j < 2 ^ 20, d'.pte j = if i ≤ j ∧ j < npages oldsz then (d.pte j).unmap else d.pte j) ∧
        ∀ p, p % PGSIZE = 0 →
          (∀ j, i ≤ j → j < npages oldsz → d.Mapped j → (d.pte j).addr ≠ p) → Keeps s t p) s := by
  have hdone : ∀ (d : Pgdir) (i : ℕ) (s : Machine), oldsz ≤ i * PGSIZE → d.tables = d.tables ∧
      (∀ j < 2 ^ 20, d.pte j = if i ≤ j ∧ j < npages oldsz then (d.pte j).unmap else d.pte j) ∧
      ∀ p, p % PGSIZE = 0 →
        (∀ j, i ≤ j → j < npages oldsz → d.Mapped j → (d.pte j).addr ≠ p) → Keeps s s p := by
    intro d i s h
    refine ⟨rfl, fun j _ => ?_, fun p _ _ => .refl s p⟩
    have : npages oldsz ≤ i := by
      have := mt lt_npages.mp (not_lt.mpr h)
      omega
    rw [if_neg (by omega)]
  induction n with
  | zero => exact fun d i s hn _ => hdone d i s (by omega)
  | succ n ih =>
      intro d i s hn hv
      have hpos : 0 < PGSIZE := by decide
      have hnext : i * PGSIZE + PGSIZE = (i + 1) * PGSIZE := by rw [Nat.succ_mul]
      rw [deallocFrom]
      split
      case isFalse h => exact hdone d i s (by omega)
      rename_i hlt
      have hi : i < USER := (lt_npages.mpr hlt).trans_le (npages_le_USER hk)
      have hU := USER_eq
      split
      · -- There is no table: to the first page of the next.
        rename_i hl
        have hskip : PGADDR (PDX (i * PGSIZE) + 1) 0 0 - PGSIZE + PGSIZE =
            ((i / 1024 + 1) * 1024) * PGSIZE := by
          rw [PDX_page]
          simp only [PGADDR, PGSIZE]
          omega
        rw [hskip]
        refine wp_mono (ih d _ s ?_ fun j hj => hv j (by omega)) ?_
        · have : (i + 1) * PGSIZE ≤ ((i / 1024 + 1) * 1024) * PGSIZE :=
            Nat.mul_le_mul_right _ (by omega)
          omega
        · rintro d' t ⟨htab, hpte, hkeep⟩
          refine ⟨htab, fun j hj => ?_, fun p hp hne =>
            hkeep p hp fun j hj => hne j (by omega)⟩
          · rw [hpte j hj]
            by_cases hji : j / 1024 = i / 1024
            · rw [pte_of_lookup_none hl hji]
              simp
            · by_cases hle : i ≤ j
              · simp only [show (i / 1024 + 1) * 1024 ≤ j ↔ i ≤ j by omega]
              · rw [if_neg (by omega), if_neg (by omega)]
      · rename_i e hl
        have he : d.pte i = e := pte_of_lookup hl
        have hset : ∀ j < 2 ^ 20, (d.setPte (i * PGSIZE) 0).pte j = if j = i then 0 else d.pte j :=
          fun j hj => pte_setPte hl (by omega) hj
        split
        · rename_i hP
          -- There is a page: it is freed, and its entry cleared.
          have hm : d.Mapped i := by rwa [Pgdir.Mapped, he]
          have hve : Valid k e.addr := he ▸ hv i le_rfl (lt_npages.mpr hlt) hm
          have hoff : ∀ j, i + 1 ≤ j → j < npages oldsz →
              (d.setPte (i * PGSIZE) 0).pte j = d.pte j := fun j hj hj' => by
            have := npages_le_USER hk
            rw [hset j (by omega), if_neg (by omega)]
          rw [if_neg hve.ne_zero, hnext]
          refine wp_seq (kfree_total hve s) ?_
          rintro _ t ⟨_, hkeep⟩
          refine wp_mono (ih _ (i + 1) t (by omega) fun j hj hj' hmj => ?_) ?_
          · rw [hoff j hj hj']
            refine hv j (by omega) hj' ?_
            rwa [Pgdir.Mapped, hoff j hj hj'] at hmj
          · rintro d' u ⟨htab, hpte, hkeep'⟩
            refine ⟨htab.trans (tables_setPte d _ 0), fun j hj => ?_,
              fun p hp hne => (hkeep p hp ?_).trans (hkeep' p hp fun j hj hj' hmj => ?_)⟩
            · rw [hpte j hj, hset j hj]
              by_cases hji : j = i
              · subst hji
                rw [if_neg (by omega), if_pos rfl, if_pos ⟨le_rfl, lt_npages.mpr hlt⟩, he, Pte.unmap,
                  if_pos hP]
              · simp only [if_neg hji, show i + 1 ≤ j ↔ i ≤ j by omega]
            · rw [← he]
              exact (hne i le_rfl (lt_npages.mpr hlt) hm).symm
            · rw [hoff j hj hj']
              refine hne j (by omega) hj' ?_
              rwa [Pgdir.Mapped, hoff j hj hj'] at hmj
        · rename_i hP
          rw [hnext]
          refine wp_mono (ih d (i + 1) s (by omega) fun j hj => hv j (by omega)) ?_
          rintro d' t ⟨htab, hpte, hkeep⟩
          refine ⟨htab, fun j hj => ?_, fun p hp hne => hkeep p hp fun j hj => hne j (by omega)⟩
          rw [hpte j hj]
          by_cases hji : j = i
          · subst hji
            rw [if_neg (by omega), if_pos ⟨le_rfl, lt_npages.mpr hlt⟩, he, Pte.unmap, if_neg hP]
          · simp only [show i + 1 ≤ j ↔ i ≤ j by omega]

/-- **`deallocuvm` unmaps the pages between the sizes**, and only their bytes change. -/
theorem deallocuvm_total {oldsz newsz : ℕ} (hk : oldsz ≤ KERNBASE)
    (hv : ∀ j, npages newsz ≤ j → j < npages oldsz → d.Mapped j → Valid k (d.pte j).addr)
    (s : Machine) :
    Total (deallocuvm k d oldsz newsz) (fun r t => r.2 = min oldsz newsz ∧ r.1.tables = d.tables ∧
      (∀ j < 2 ^ 20, r.1.pte j =
        if npages newsz ≤ j ∧ j < npages oldsz then (d.pte j).unmap else d.pte j) ∧
      (∀ p, p % PGSIZE = 0 →
        (∀ j, npages newsz ≤ j → j < npages oldsz → d.Mapped j → (d.pte j).addr ≠ p) →
        Keeps s t p) ∧
      t.kmem.free + r.1.pages = s.kmem.free + d.pages) s := by
  have htotal : Total (deallocuvm k d oldsz newsz) (fun r t => r.1.tables = d.tables ∧
      (∀ j < 2 ^ 20, r.1.pte j =
        if npages newsz ≤ j ∧ j < npages oldsz then (d.pte j).unmap else d.pte j) ∧
      (∀ p, p % PGSIZE = 0 →
        (∀ j, npages newsz ≤ j → j < npages oldsz → d.Mapped j → (d.pte j).addr ≠ p) →
        Keeps s t p)) s := by
    rw [deallocuvm]
    split
    · rename_i hle
      have := npages_mono hle
      refine ⟨rfl, fun j _ => ?_, fun p _ _ => .refl s p⟩
      rw [if_neg (by omega)]
    · exact wp_seq (deallocFrom_total hk oldsz d (npages newsz) s (by omega) hv) fun d' t h => h
  refine wp_mono (htotal.balances ((deallocuvm_erases k d oldsz newsz).balances
    (Vm.deallocuvm_balances k hk d.erase))) fun r t ⟨⟨htab, hpte, hkeep⟩, g, ⟨hg, hr, _⟩, he⟩ => ?_
  subst hg
  refine ⟨hr, htab, hpte, hkeep, ?_⟩
  unfold Pgdir.pages
  exact he

/-- Whatever the sizes, the tables stay and the bytes of other pages do not change. -/
theorem deallocuvm_keeps {oldsz newsz : ℕ} (hk : oldsz ≤ KERNBASE) (hv : ∀ p ∈ d.pages, Valid k p)
    (s : Machine) : Total (deallocuvm k d oldsz newsz)
      (fun r t => r.1.tables = d.tables ∧ ∀ p, p % PGSIZE = 0 → p ∉ d.pages → Keeps s t p) s := by
  have hmem : ∀ j < npages oldsz, d.Mapped j → (d.pte j).addr ∈ d.pages := fun j hj =>
    mem_pages (hj.trans_le (npages_le_USER hk))
  refine wp_mono (deallocuvm_total hk (fun j _ hj hm => hv _ (hmem j hj hm)) s)
    fun r t ⟨_, htab, _, hkeep, _⟩ => ⟨htab, fun p hp hne => hkeep p hp fun j _ hj hm => ?_⟩
  rintro rfl
  exact hne (hmem j hj hm)

/-! ### Freeing a directory -/

/-- The tables are freed, and only their bytes change. -/
theorem freeTables_total (n : ℕ) (hn : n ≤ NPDENTRIES) (hv : ∀ p ∈ d.tables, Valid k p)
    (s : Machine) : Total (freeTables k d n)
      (fun _ t => ∀ p, p % PGSIZE = 0 → p ∉ d.tables → Keeps s t p) s := by
  induction n with
  | zero => exact fun p _ _ => .refl s p
  | succ n ih =>
      refine wp_seq (ih (by omega)) fun _ t hkeep => ?_
      cases hd : d.pde n with
      | none => exact hkeep
      | some pt =>
          have hmem := mem_tables_iff.mpr (.inr ⟨n, by omega, pt, hd, rfl⟩)
          refine wp_mono (kfree_total (hv _ hmem) t) fun _ u ⟨_, hkeep'⟩ p hp hne =>
            (hkeep p hp hne).trans (hkeep' p hp ?_)
          rintro rfl
          exact hne hmem

/-- **`freevm` frees what the directory owns**, and only those bytes change. -/
theorem freevm_total (hv : ∀ p ∈ d.pages, Valid k p) (s : Machine) :
    Total (freevm k (some d)) (fun _ t => t.kmem.free = s.kmem.free + d.pages ∧
      ∀ p, p % PGSIZE = 0 → p ∉ d.pages → Keeps s t p) s := by
  have hsub : ∀ p ∈ d.tables, p ∈ d.pages := fun p hp => by
    rw [pages_eq]
    exact Multiset.mem_add.mpr (.inl hp)
  have htotal : Total (freevm k (some d))
      (fun _ t => ∀ p, p % PGSIZE = 0 → p ∉ d.pages → Keeps s t p) s := by
    rw [freevm]
    -- The number of tables is not to be counted by unification.
    generalize hN : NPDENTRIES = N
    refine wp_seq (deallocuvm_keeps le_rfl hv s) fun r t ⟨htab, hkeep⟩ => ?_
    refine wp_seq (freeTables_total (d := r.1) N hN.ge
      (fun p hp => hv p (hsub p (htab ▸ hp))) t) fun _ u hkeep' => ?_
    have hpage : r.1.page ∈ d.tables := htab ▸ mem_tables_iff.mpr (.inl rfl)
    refine wp_mono (kfree_total (hv _ (hsub _ hpage)) u) fun _ v ⟨_, hkeep''⟩ p hp hne => ?_
    refine ((hkeep p hp hne).trans (hkeep' p hp ?_)).trans (hkeep'' p hp ?_)
    · exact fun h => hne (hsub p (htab ▸ h))
    · rintro rfl
      exact hne (hsub _ hpage)
  refine wp_mono (htotal.balances ((freevm_erases k (some d)).balances
    (Vm.freevm_balances k (some d.erase)))) fun _ t ⟨hkeep, g, hg, he⟩ => ⟨?_, hkeep⟩
  subst hg
  unfold Pgdir.pages
  exact (add_zero _).symm.trans he

/-! ### The kernel's mappings -/

/-- The first page of an entry of `kmap`, and the first after it. -/
def lo (e : Vm.Kmap) : ℕ := e.virt / PGSIZE

/-- The pages of an entry of `kmap`. -/
def count (e : Vm.Kmap) : ℕ := Vm.mapCount e.virt ((e.physEnd + 2 ^ 32 - e.physStart) % 2 ^ 32)

/-- The mappings of the kernel are made above the user's pages, without a `remap`. -/
theorem mapKernel_total (es : List Vm.Kmap) (hmem : ∀ e ∈ es, e ∈ Vm.kmap k)
    (hrange : ∀ e ∈ es, USER ≤ lo e ∧ lo e + count e ≤ 2 ^ 20)
    (hdisj : es.Pairwise fun e e' => lo e + count e ≤ lo e') :
    ∀ (d : Pgdir) (s : Machine), (∀ e ∈ es, ∀ j, lo e ≤ j → j < 2 ^ 20 → ¬ d.Mapped j) →
      Owns k s d.pages →
      Total (mapKernel k d es) (fun r t =>
        (∀ p, p % PGSIZE = 0 → p ∉ s.kmem.free → p ∉ d.pages → Keeps s t p) ∧
        ∀ d', r = some d' → (∀ j < 2 ^ 20, (∀ e ∈ es, j < lo e) → d'.pte j = d.pte j) ∧
          (∀ e ∈ es, ∀ j, lo e ≤ j → j < lo e + count e → d'.Mapped j) ∧
          (Sealed d → Sealed d')) s := by
  -- The ranges follow each other, so each is unmapped when its turn comes.
  induction es with
  | nil =>
      refine fun d s _ _ => ⟨fun p _ _ _ => .refl s p, ?_⟩
      rintro _ ⟨⟩
      exact ⟨fun _ _ _ => rfl, fun e he => absurd he List.not_mem_nil, id⟩
  | cons e es ih =>
      intro d s hun ho
      obtain ⟨hlo, hhi⟩ := hrange e (by simp)
      have hdown : PGROUNDDOWN e.virt = lo e * PGSIZE := rfl
      have hb := (mapFrom_erases (perm e) (count e) d (lo e * PGSIZE) e.physStart).balances
        (Vm.mapFrom_kernel _ _ (count e) d.erase (lo e * PGSIZE) e.physStart fun i hi => by
          rw [← Nat.add_mul, PDX_page, PDX_KERNBASE]
          have := USER_eq
          omega)
      have hmap := (mapFrom_total (perm e) (count e) d (lo e) e.physStart s hhi
        fun j hj hj' => hun e (by simp) j hj (by omega)).balances hb
      rw [mapKernel, mappages, hdown]
      refine wp_seq hmap ?_
      rintro r t ⟨⟨hram, hout, hin⟩, g, hg, he⟩
      obtain ⟨ok, d₁⟩ := r
      have hg₁ : g = d₁.pages := by
        unfold Pgdir.pages
        exact hg
      subst hg₁
      have ho₁ : Owns k t d₁.pages := ho.of_eq (by unfold Pgdir.pages at he ⊢; exact he)
      have hsub : ∀ p, p ∉ s.kmem.free → p ∉ d.pages → p ∉ t.kmem.free ∧ p ∉ d₁.pages := by
        intro p hf hd
        have : p ∉ t.kmem.free + d₁.pages := by
          unfold Pgdir.pages at he hd ⊢
          rw [he]
          exact fun h => (Multiset.mem_add.mp h).elim hf hd
        exact ⟨fun h => this (Multiset.mem_add.mpr (.inl h)),
          fun h => this (Multiset.mem_add.mpr (.inr h))⟩
      cases ok with
      | true =>
          rw [List.pairwise_cons] at hdisj
          refine wp_mono (ih (fun e' h => hmem e' (by simp [h])) (fun e' h => hrange e' (by simp [h]))
            hdisj.2 d₁ t (fun e' h j hj hj' => ?_) ho₁) ?_
          · have := hdisj.1 e' h
            rw [Pgdir.Mapped, hout j hj' (by omega)]
            exact hun e (by simp) j (by omega) hj'
          · rintro r u ⟨hkeep, hpte⟩
            refine ⟨fun p hp hf hd => ?_, fun d' hr => ⟨fun j hj hlt => ?_, fun e' h j hj hj' => ?_,
              fun hs => (hpte d' hr).2.2 ?_⟩⟩
            · exact (Keeps.of_ram hram p).trans (hkeep p hp (hsub p hf hd).1 (hsub p hf hd).2)
            · rw [(hpte d' hr).1 j hj fun e' h => hlt e' (by simp [h]),
                hout j hj (.inl (hlt e (by simp)))]
            · rcases List.mem_cons.mp h with rfl | h
              · have hlater : ∀ e'' ∈ es, j < lo e'' := fun e'' h => hj'.trans_le (hdisj.1 e'' h)
                rw [Pgdir.Mapped, (hpte d' hr).1 j (by omega) hlater, hin rfl j hj hj']
                exact Pte.or_P_has_P _ _
              · exact (hpte d' hr).2.1 e' h j hj hj'
            · intro j hj hj'
              by_cases hmem : lo e ≤ j ∧ j < lo e + count e
              · rw [hin rfl j hmem.1 hmem.2, Pte.or_P_has_U, Pte.has_U]
                show (perm e).getLsbD 2 = false
                unfold perm
                cases e.w <;> rfl
              · rw [hout j hj' (by omega)]
                exact hs j hj hj'
      -- There is no table for this range: the whole directory is freed.
      | false =>
          refine wp_seq (freevm_total (fun p hp => ho₁.valid_goods hp) t) ?_
          rintro _ u ⟨_, hkeep⟩
          refine ⟨fun p hp hf hd => ?_, by rintro _ ⟨⟩⟩
          exact (Keeps.of_ram hram p).trans (hkeep p hp (hsub p hf hd).2)

/-- The ranges of `kmap` lie above the user's pages, and apart. -/
theorem kmap_ranges (k : Linked) :
    (∀ e ∈ Vm.kmap k.toSymbols, USER ≤ lo e ∧ lo e + count e ≤ 2 ^ 20) ∧
      (Vm.kmap k.toSymbols).Pairwise fun e e' => lo e + count e ≤ lo e' := by
  have h₁ := k.data_lo
  have h₂ := k.data_le
  have h₃ := k.kend_hi
  have h₄ := k.data_page
  have hU := USER_eq
  simp only [Vm.KERNLINK, KERNBASE, Vm.EXTMEM, P2V, Vm.PHYSTOP, PGSIZE] at h₁ h₂ h₃ h₄
  constructor
  · intro e he
    simp only [Vm.kmap, List.mem_cons, List.not_mem_nil, or_false] at he
    rcases he with rfl | rfl | rfl | rfl <;>
      simp only [lo, count, Vm.mapCount, PGROUNDDOWN, Vm.KERNLINK, KERNBASE, Vm.EXTMEM, Vm.V2P,
        Vm.PHYSTOP, Vm.DEVSPACE, PGSIZE, hU] <;> omega
  · simp only [Vm.kmap, List.pairwise_cons, List.mem_cons, List.not_mem_nil, or_false,
      forall_eq_or_imp, forall_eq, lo, count, Vm.mapCount, PGROUNDDOWN, Vm.KERNLINK, KERNBASE,
      Vm.EXTMEM, Vm.V2P, Vm.PHYSTOP, Vm.DEVSPACE, PGSIZE, List.Pairwise.nil, and_true, false_imp_iff,
      implies_true]
    omega

/-- The last page of the address space is one of the device. -/
theorem mem_kmap_last (k : Linked) : ∃ e ∈ Vm.kmap k.toSymbols, lo e ≤ 2 ^ 20 - 1 ∧
    2 ^ 20 - 1 < lo e + count e := by
  refine ⟨⟨Vm.DEVSPACE, Vm.DEVSPACE, 0, true⟩, by simp [Vm.kmap], ?_, ?_⟩ <;> decide

/-- **`setupkvm` builds a directory that maps no user page**, or gives all back. -/
theorem setupkvm_total (k : Linked) {s : Machine} {G : Multiset Page} (ho : Owns k.toSymbols s G) :
    Total (setupkvm k.toSymbols) (fun r t =>
      (∀ p, p % PGSIZE = 0 → p ∉ s.kmem.free → Keeps s t p) ∧
      t.kmem.free + r.elim 0 Pgdir.pages = s.kmem.free ∧
      ∀ d, r = some d → (∀ j < USER, ¬ d.Mapped j) ∧ Sealed d ∧ d.Mapped (2 ^ 20 - 1)) s := by
  have htotal : Total (setupkvm k.toSymbols) (fun r t =>
      (∀ p, p % PGSIZE = 0 → p ∉ s.kmem.free → Keeps s t p) ∧
      ∀ d, r = some d → (∀ j < USER, ¬ d.Mapped j) ∧ Sealed d ∧ d.Mapped (2 ^ 20 - 1)) s := by
    refine wp_seq (kalloc_total s) ?_
    rintro r t ⟨hram, hfree⟩
    cases r with
    | none => exact ⟨fun p _ _ => .of_ram hram p, by rintro _ ⟨⟩⟩
    | some p =>
        have hpages := pages_empty p
        dsimp only
        rw [if_neg (by decide)]
        have ho' : Owns k.toSymbols t (Pgdir.mk p fun _ => none).pages := by
          rw [hpages]
          rw [Option.elim_some] at hfree
          exact ⟨hfree ▸ (Multiset.nodup_add.mp ho.nodup).1, fun q hq => ho.valid_free (hfree ▸ hq)⟩
        refine wp_mono (mapKernel_total _ (fun _ h => h) (kmap_ranges k).1 (kmap_ranges k).2 _ t
          (fun e _ j _ _ => ?_) ho') ?_
        · simp [Pgdir.Mapped]
        · rintro r u ⟨hkeep, hpte⟩
          refine ⟨fun q hq hf => ?_, fun d hr =>
            ⟨fun j hj => ?_, (hpte d hr).2.2 fun j _ _ => ?_, ?_⟩⟩
          · have hnot : q ∉ t.kmem.free + {p} := by
              rw [Option.elim_some] at hfree
              rwa [hfree]
            refine (Keeps.of_ram hram q).trans (hkeep q hq (fun h => hnot ?_) fun h => hnot ?_)
            · exact Multiset.mem_add.mpr (.inl h)
            · rw [hpages] at h
              exact Multiset.mem_add.mpr (.inr h)
          · have hlow : ∀ e ∈ Vm.kmap k.toSymbols, j < lo e := fun e he =>
              hj.trans_le ((kmap_ranges k).1 e he).1
            have hU : USER < 2 ^ 20 := by decide
            simp [Pgdir.Mapped, (hpte d hr).1 j (hj.trans hU) hlow]
          · rw [pte_empty, Pte.zero_has]
          · obtain ⟨e, he, hlo, hhi⟩ := mem_kmap_last k
            exact (hpte d hr).2.1 e he _ hlo hhi
  -- The pages are counted without their contents.
  refine wp_mono (htotal.balances ((setupkvm_erases k.toSymbols).balances
    (Vm.setupkvm_balances k.toSymbols))) ?_
  rintro r t ⟨⟨hkeep, hun⟩, g, hg, he⟩
  refine ⟨hkeep, ?_, hun⟩
  subst hg
  rw [add_zero] at he
  rw [← he]
  cases r with
  | none => rfl
  | some d =>
      unfold Pgdir.pages
      rfl

end Xv6.Uvm
