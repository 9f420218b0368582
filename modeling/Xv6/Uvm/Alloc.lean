import Xv6.Uvm.Pages

/-!
# Address spaces — `allocuvm` is all or nothing

`allocuvm` maps the pages from one size to another, one page and at times one table at a time.
Wherever it is refused one, `deallocuvm` takes back what it has mapped.

* `Grown` — the pages between two are new, zero, and the user's; nothing else has changed.
* `Undone` — no page between the sizes is mapped; nothing else has changed.
* `allocFrom_total` — from any page on, the loop ends in one or the other.
* `allocuvm_all_or_nothing`.
-/

namespace Xv6.Uvm

open Vm (Page Kmem Panic PGSIZE KERNBASE PGROUNDUP)
open Lib (wp_seq wp_mono)

variable {k : Vm.Symbols} {s t u : Machine} {d d' : Pgdir} {i j oldsz newsz : ℕ}
  {F : Multiset Page}

/-- The pages from `lo` to `hi` are new in `d'`: from the free list, and zero. -/
structure Grown (s t : Machine) (d d' : Pgdir) (lo hi : ℕ) : Prop where
  new : ∀ j, lo ≤ j → j < hi → ∃ p ∈ s.kmem.free, d'.pte j = ⟨p, PTE_W ||| PTE_U ||| PTE_P⟩ ∧
    ∀ o < PGSIZE, t.ram (p + o) = 0
  old : ∀ j < 2 ^ 20, j < lo ∨ hi ≤ j → d'.pte j = d.pte j
  keeps : ∀ p, p % PGSIZE = 0 → p ∉ s.kmem.free → Keeps s t p

/-- None of the pages from `lo` to `hi` is mapped in `d'`; those to `i` may have been, in `d`. -/
structure Undone (s t : Machine) (d d' : Pgdir) (lo i hi : ℕ) : Prop where
  unmapped : ∀ j, lo ≤ j → j < hi → ¬ d'.Mapped j
  old : ∀ j < 2 ^ 20, j < lo ∨ hi ≤ j → d'.pte j = d.pte j
  keeps : ∀ p, p % PGSIZE = 0 → p ∉ s.kmem.free →
    (∀ j, lo ≤ j → j < i → d.Mapped j → (d.pte j).addr ≠ p) → Keeps s t p

/-- What `deallocuvm` does when `allocuvm` gives up at the page `i`. -/
theorem undo_total (hnew : newsz < KERNBASE)
    (hun : ∀ j, i ≤ j → j < USER → ¬ d.Mapped j) (hv : ∀ p ∈ d.pages, Valid k p) (s : Machine) :
    Total (deallocuvm k d newsz oldsz) (fun r t =>
      Undone s t d r.1 (npages oldsz) i (npages newsz) ∧
        t.kmem.free + r.1.pages = s.kmem.free + d.pages) s := by
  have hU := USER_eq
  have hnp := npages_le_USER hnew.le
  refine wp_mono (deallocuvm_total hnew.le (fun j _ hj hm => hv _ (mem_pages (by omega) hm)) s)
    fun r t ⟨_, _, hpte, hkeep, hfree⟩ => ⟨⟨fun j hj hj' => ?_, fun j hj hout => ?_,
      fun p hp _ hne => hkeep p hp fun j hj hj' hm => ?_⟩, hfree⟩
  · rw [Pgdir.Mapped, hpte j (by omega), if_pos ⟨hj, hj'⟩, unmap_has_P]
    exact Bool.false_ne_true
  · rw [hpte j hj, if_neg (by omega)]
  · by_cases hji : j < i
    · exact hne j hj hji hm
    · exact absurd hm (hun j (by omega) (by omega))

/-- The loop of `allocuvm` from the page `i`, for the `n` pages that are left. -/
theorem allocFrom_total (hnew : newsz < KERNBASE) (n : ℕ) : ∀ (d : Pgdir) (i : ℕ) (s : Machine),
    i + n = npages newsz → npages oldsz ≤ i → (∀ j, i ≤ j → j < USER → ¬ d.Mapped j) →
      Owns k s (d.pages + F) →
      Total (allocFrom k oldsz newsz n d (i * PGSIZE)) (fun r t =>
        t.kmem.free + r.1.pages = s.kmem.free + d.pages ∧
        (r.2 = newsz ∧ Grown s t d r.1 i (npages newsz) ∨
          r.2 = 0 ∧ Undone s t d r.1 (npages oldsz) i (npages newsz))) s := by
  induction n with
  | zero =>
      intro d i s hn _ _ _
      exact ⟨rfl, .inl ⟨rfl, fun j _ _ => by omega, fun _ _ _ => rfl, fun p _ _ => .refl s p⟩⟩
  | succ n ih =>
      intro d i s hn hold hun ho
      have hU := USER_eq
      have hnp := npages_le_USER hnew.le
      have hiU : i < USER := by omega
      have hv : ∀ p ∈ d.pages, Valid k p := fun p hp =>
        ho.valid_goods (Multiset.mem_add.mpr (.inl hp))
      rw [allocFrom]
      refine wp_seq (kalloc_total s) ?_
      rintro r t ⟨hram, hfree⟩
      cases r with
      | none =>
          rw [Option.elim_none, add_zero] at hfree
          -- There is no page: what was grown is taken back.
          refine wp_seq (undo_total hnew hun hv t) ?_
          rintro r u ⟨hundo, hbal⟩
          refine ⟨by rw [hbal, hfree], .inr ⟨rfl, hundo.unmapped, hundo.old, fun p hp hf hne => ?_⟩⟩
          exact (Keeps.of_ram hram p).trans (hundo.keeps p hp (hfree ▸ hf) hne)
      | some mem =>
          rw [Option.elim_some] at hfree
          have hmem : mem ∈ s.kmem.free :=
            hfree ▸ Multiset.mem_add.mpr (.inr (Multiset.mem_singleton_self mem))
          have hvm := ho.valid_free hmem
          have hne : ∀ p, p ∉ s.kmem.free → p ≠ mem := by
            rintro p hf rfl
            exact hf hmem
          refine wp_seq (memset_page hvm.aligned 0 t) ?_
          rintro _ t' ⟨hkm, hzero, hset⟩
          have hfree' : t'.kmem.free + {mem} = s.kmem.free := by rw [hkm, ← hfree]
          refine wp_seq (mapPage_total hiU (hun i le_rfl hiU) mem _ t') ?_
          rintro r u ⟨huram, hle, hother, hself, hfail, hbal⟩
          obtain ⟨ok, d₁⟩ := r
          have hbal' : u.kmem.free + (d₁.pages + if ok then 0 else {mem}) =
              s.kmem.free + d.pages := by
            rw [hbal, ← hfree']
            ac_rfl
          have hsub : ∀ p, p ∉ s.kmem.free → p ∉ u.kmem.free := fun p hf h =>
            hf (hfree' ▸ Multiset.mem_add.mpr (.inl (Multiset.mem_of_le hle h)))
          -- Of the pages that were not free, the bytes are as before.
          have hset' : ∀ p, p % PGSIZE = 0 → p ∉ s.kmem.free → Keeps s u p := fun p hp hf =>
            ((Keeps.of_ram hram p).trans (hset p hp (hne p hf))).trans (.of_ram huram p)
          cases ok with
          | true =>
              rw [if_pos rfl, add_zero] at hbal'
              have ho' : Owns k u (d₁.pages + F) :=
                ho.of_eq (by rw [← add_assoc, hbal', add_assoc])
              have hpi := hself rfl
              have hmi : d₁.Mapped i := by rw [Pgdir.Mapped, hpi, Pte.or_P_has_P]
              have hmem₁ : mem ∈ d₁.pages := by
                have := mem_pages hiU hmi
                rwa [hpi] at this
              have hmemu : mem ∉ u.kmem.free :=
                ho'.not_free (Multiset.mem_add.mpr (.inl hmem₁))
              have hun' : ∀ j, i + 1 ≤ j → j < USER → ¬ d₁.Mapped j := fun j hj hj' => by
                rw [Pgdir.Mapped, hother j (by omega) (by omega)]
                exact hun j (by omega) hj'
              rw [← Nat.succ_mul]
              -- The page is mapped, and stays unless the rest is taken back.
              refine wp_mono (ih d₁ (i + 1) u (by omega) (by omega) hun' ho') ?_
              rintro r v ⟨hb, hres⟩
              refine ⟨hb.trans hbal', hres.imp (And.imp_right fun hg => ?_) (And.imp_right fun hg => ?_)⟩
              · refine ⟨fun j hj hj' => ?_, fun j hj hout => ?_, fun p hp hf => ?_⟩
                · by_cases hji : j = i
                  · subst hji
                    refine ⟨mem, hmem, (hg.old j (by omega) (by omega)).trans hpi, fun o hlt => ?_⟩
                    rw [hg.keeps mem hvm.aligned hmemu o hlt, huram, hzero o hlt]
                  · obtain ⟨p, hp, hpte, hz⟩ := hg.new j (by omega) hj'
                    refine ⟨p, ?_, hpte, hz⟩
                    by_contra hf
                    exact hsub p hf hp
                · rw [hg.old j hj (by omega), hother j hj (by omega)]
                · exact (hset' p hp hf).trans
                    (hg.keeps p hp (hsub p hf))
              · refine ⟨hg.unmapped, fun j hj hout => ?_, fun p hp hf hold' => ?_⟩
                · rw [hg.old j hj hout, hother j hj (by omega)]
                · refine (hset' p hp hf).trans
                    (hg.keeps p hp (hsub p hf) fun j hj hj' hm => ?_)
                  by_cases hji : j = i
                  · subst hji
                    rw [hpi]
                    exact (hne p hf).symm
                  · rw [Pgdir.Mapped, hother j (by omega) hji] at hm
                    rw [hother j (by omega) hji]
                    exact hold' j hj (by omega) hm
          | false =>
              -- There is no table: the page that was not mapped is freed besides.
              obtain rfl : d₁ = d := hfail rfl
              refine wp_seq (undo_total hnew hun hv u) ?_
              rintro r v ⟨hundo, hb⟩
              refine wp_seq (kfree_total hvm v) ?_
              rintro _ w ⟨hw, hkeep⟩
              refine ⟨?_, .inr ⟨rfl, hundo.unmapped, hundo.old, fun p hp hf hold' => ?_⟩⟩
              · rw [hw, ← hbal', if_neg Bool.false_ne_true, ← add_assoc, ← hb]
                ac_rfl
              · exact ((hset' p hp hf).trans (hundo.keeps p hp (hsub p hf) hold')).trans
                  (hkeep p hp (hne p hf))

/-- `allocuvm` grows the process, or undoes what it did. -/
theorem allocuvm_total (hle : oldsz ≤ newsz) (hnew : newsz < KERNBASE)
    (hun : ∀ j, npages oldsz ≤ j → j < USER → ¬ d.Mapped j) (ho : Owns k s (d.pages + F)) :
    Total (allocuvm k d oldsz newsz) (fun r t =>
      t.kmem.free + r.1.pages = s.kmem.free + d.pages ∧
      (r.2 = newsz ∧ Grown s t d r.1 (npages oldsz) (npages newsz) ∨
        r.2 = 0 ∧ Undone s t d r.1 (npages oldsz) (npages oldsz) (npages newsz))) s := by
  have hcount : npages oldsz + (newsz - PGROUNDUP oldsz + PGSIZE - 1) / PGSIZE = npages newsz := by
    simp only [npages, PGROUNDUP, PGSIZE]
    omega
  rw [allocuvm, if_neg (by omega), if_neg (by omega)]
  exact allocFrom_total hnew _ d (npages oldsz) s hcount le_rfl hun ho

/-- **`allocuvm` is all or nothing.** -/
theorem allocuvm_all_or_nothing (hle : oldsz ≤ newsz) (hnew : newsz < KERNBASE)
    (hun : ∀ va, PGROUNDUP oldsz ≤ va → va < KERNBASE → (d.entry va).has PTE_P = false)
    (ho : Owns k s (d.pages + F)) :
    Total (allocuvm k d oldsz newsz) (fun r t =>
      (∀ p ∈ d.pages + F, Keeps s t p) ∧ Owns k t (r.1.pages + F) ∧
      (r.2 = newsz ∧
        (∀ va, PGROUNDUP oldsz ≤ va → va < PGROUNDUP newsz → ∃ p ∈ s.kmem.free,
          r.1.entry va = ⟨p, PTE_W ||| PTE_U ||| PTE_P⟩ ∧ ∀ o < PGSIZE, t.ram (p + o) = 0) ∧
        (∀ va vb, va < KERNBASE → vb < KERNBASE → (r.1.entry va).has PTE_P = true →
          (r.1.entry vb).has PTE_P = true → va / PGSIZE ≠ vb / PGSIZE →
          (r.1.entry va).addr ≠ (r.1.entry vb).addr) ∧
        (∀ va < 2 ^ 32, va < PGROUNDUP oldsz ∨ PGROUNDUP newsz ≤ va → r.1.entry va = d.entry va) ∨
      r.2 = 0 ∧ (∀ va < 2 ^ 32, r.1.mapping va = d.mapping va) ∧
        t.kmem.free + r.1.tables = s.kmem.free + d.tables)) s := by
  have hpage : ∀ va < 2 ^ 32, va / PGSIZE < 2 ^ 20 := fun va h => by
    simp only [PGSIZE]
    omega
  have hun' : ∀ j, npages oldsz ≤ j → j < USER → ¬ d.Mapped j := by
    intro j hj hj'
    have := hun (j * PGSIZE) (Nat.mul_le_mul_right _ hj) (page_lt hj')
    rw [Pgdir.Mapped, Pgdir.pte, this]
    exact Bool.false_ne_true
  have hU : USER < 2 ^ 20 := by decide
  have hnp := npages_le_USER hnew.le
  refine wp_mono (allocuvm_total hle hnew hun' ho) ?_
  rintro r t ⟨hbal, hres⟩
  have ho' : Owns k t (r.1.pages + F) := ho.of_eq (by rw [← add_assoc, hbal, add_assoc])
  have halign : ∀ p ∈ d.pages + F, p % PGSIZE = 0 := fun p hp => (ho.valid_goods hp).aligned
  -- The process has grown, or what was done is undone.
  rcases hres with ⟨hr, hg⟩ | ⟨hr, hundo⟩
  · refine ⟨fun p hp => hg.keeps p (halign p hp) (ho.not_free hp), ho', .inl ⟨hr, ?_, ?_, ?_⟩⟩
    · intro va hlo hhi
      rw [entry_eq]
      exact hg.new _ (le_page_number.mpr hlo) (not_le.mp (mt le_page_number.mp (not_le.mpr hhi)))
    · intro va vb hva hvb hma hmb hne
      rw [entry_eq] at hma hmb ⊢
      rw [entry_eq r.1 vb]
      exact addr_injective (Multiset.nodup_add.mp ho'.nodup_goods).1 (page_number_lt hva)
        (page_number_lt hvb) hma hmb hne
    · intro va hva hout
      rw [entry_eq, entry_eq]
      refine hg.old _ (hpage va hva) (hout.imp (fun h => ?_) le_page_number.mpr)
      exact not_le.mp (mt le_page_number.mp (not_le.mpr h))
  · have hmap : ∀ j < 2 ^ 20, (r.1.Mapped j ↔ d.Mapped j) ∧ (d.Mapped j → r.1.pte j = d.pte j) := by
      intro j hj
      by_cases hin : npages oldsz ≤ j ∧ j < npages newsz
      · have h₁ := hundo.unmapped j hin.1 hin.2
        have h₂ := hun' j hin.1 (by omega)
        exact ⟨iff_of_false h₁ h₂, fun h => absurd h h₂⟩
      · have := hundo.old j hj (by omega)
        exact ⟨by rw [Pgdir.Mapped, this, Pgdir.Mapped], fun _ => this⟩
    have hdata : r.1.data = d.data := data_congr fun j hj => by
      obtain ⟨h₁, h₂⟩ := hmap j (by omega)
      by_cases hm : d.Mapped j
      · rw [h₂ hm]
      · rw [erase_of_not_mapped (mt h₁.mp hm), erase_of_not_mapped hm]
    refine ⟨fun p hp => hundo.keeps p (halign p hp) (ho.not_free hp) fun j _ _ => by omega, ho',
      .inr ⟨hr, fun va hva => ?_, ?_⟩⟩
    · obtain ⟨h₁, h₂⟩ := hmap (va / PGSIZE) (hpage va hva)
      by_cases hm : d.Mapped (va / PGSIZE)
      · rw [Pgdir.mapping, Pgdir.mapping, entry_eq, entry_eq, h₂ hm]
      · rw [mapping_of_not_mapped (mt h₁.mp hm), mapping_of_not_mapped hm]
    · rw [pages_eq, pages_eq, hdata, ← add_assoc, ← add_assoc] at hbal
      exact add_right_cancel hbal

/-- A process of one page grows to two. -/
theorem allocuvm_all_or_nothing_small :
    Total (allocuvm smallLinked.toSymbols smallSpace 4096 5000) (fun r t =>
      Owns smallLinked.toSymbols t (r.1.pages + 0)) smallMachine :=
  wp_mono (allocuvm_all_or_nothing (by decide) (by decide) (fun va hlo hhi => by
      rw [entry_eq]
      have := (smallSpace_mapped (page_number_lt hhi)).not.mpr fun h0 =>
        absurd (le_page_number.mpr hlo) (by rw [h0]; decide)
      exact Bool.eq_false_iff.mpr this) smallSpace_owns)
    fun _ _ h => h.2.1

end Xv6.Uvm
