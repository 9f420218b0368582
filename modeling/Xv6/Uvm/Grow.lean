import Xv6.Uvm.Alloc

/-!
# Address spaces — `growproc`

A process of size `sz` has mapped the pages that `sz` bytes take, and no other (`Covers`).
`growproc` by `n` bytes keeps that, except where the new size would be `0` or less: `deallocuvm`
returns the new size, which `growproc` takes for a failure when it is `0`, and it sees a negative
size as a large one.

* `Resized` — what a call that succeeds does, and `Unchanged` — what a call that fails does.
* `growproc_total` — the call, outside these cases.
* `growproc_to_zero`, `growproc_below_zero` — the call in them.
-/

namespace Xv6.Uvm

open Vm (Page Kmem Panic PGSIZE KERNBASE PGROUNDUP)
open Lib (wp_seq wp_mono)

variable {k : Vm.Symbols} {s t : Machine} {d d' : Pgdir} {sz sz' : ℕ} {n : ℤ} {F : Multiset Page}

/-- The pages that `sz` bytes take are mapped, and no other user page is. -/
def Covers (d : Pgdir) (sz : ℕ) : Prop := ∀ j < USER, d.Mapped j ↔ j < npages sz

/-- The address space has gone from the size `sz` to `sz'`. -/
structure Resized (s t : Machine) (d d' : Pgdir) (sz sz' : ℕ) : Prop where
  covers : Covers d' sz'
  zero : ∀ va, PGROUNDUP sz ≤ va → va < PGROUNDUP sz' → t.ram (d'.phys va) = 0
  entry : ∀ va < min (PGROUNDUP sz) (PGROUNDUP sz'), d'.entry va = d.entry va
  kept : ∀ va < min (PGROUNDUP sz) (PGROUNDUP sz'), t.ram (d'.phys va) = s.ram (d.phys va)

/-- The address space is what it was. -/
structure Unchanged (s t : Machine) (d d' : Pgdir) : Prop where
  mapping : ∀ va < KERNBASE, d'.mapping va = d.mapping va
  kept : ∀ va < KERNBASE, (d.entry va).has PTE_P = true → t.ram (d'.phys va) = s.ram (d.phys va)

theorem Unchanged.refl (s : Machine) (d : Pgdir) : Unchanged s s d d := ⟨fun _ _ => rfl, fun _ _ _ => rfl⟩

/-- What is mapped stays mapped, and nothing else is. -/
theorem Unchanged.covers (h : Unchanged s t d d') (hc : Covers d sz) : Covers d' sz := fun j hj => by
  have hm := h.mapping (j * PGSIZE) (page_lt hj)
  have hiff : ∀ e : Pgdir, e.Mapped j ↔ (e.mapping (j * PGSIZE)).isSome := fun e => by
    rw [Pgdir.Mapped, Pgdir.pte, Pgdir.mapping]
    split <;> simp_all
  rw [hiff, hm, ← hiff, hc j hj]

/-- The call is not a shrink to `0` or below. -/
def Proper (sz : ℕ) (n : ℤ) : Prop := n < 0 → sz = 0 ∨ 0 < sz + n

theorem page_lt_npages {va sz : ℕ} : va / PGSIZE < npages sz ↔ va < PGROUNDUP sz := by
  rw [← not_le, le_page_number, not_le]

/-- The bytes of a mapped page are kept with the page. -/
theorem kept_of_keeps (hd : ∀ p ∈ d.pages, Keeps s t p) {va : ℕ} (hva : va < KERNBASE)
    (hm : (d.entry va).has PTE_P = true) (he : d'.entry va = d.entry va) :
    t.ram (d'.phys va) = s.ram (d.phys va) := by
  rw [Pgdir.phys, he]
  exact hd _ (mem_pages_of_address hva hm) _ (Nat.mod_lt _ (by decide))

theorem PGROUNDUP_le (h : sz ≤ KERNBASE) : PGROUNDUP sz ≤ KERNBASE := by
  simp only [PGROUNDUP, KERNBASE, PGSIZE] at *
  omega

/-- Of a size that covers, the address is mapped. -/
theorem Covers.mapped (h : Covers d sz) (hsz : sz ≤ KERNBASE) {va : ℕ} (hva : va < PGROUNDUP sz) :
    va < KERNBASE ∧ (d.entry va).has PTE_P = true := by
  have hlt := hva.trans_le (PGROUNDUP_le hsz)
  exact ⟨hlt, by rw [entry_eq]; exact (h _ (page_number_lt hlt)).mpr (page_lt_npages.mpr hva)⟩

/-- A process that has grown is as large as it was to be. -/
theorem Grown.resized (hg : Grown s t d d' (npages sz) (npages sz')) (hc : Covers d sz)
    (ho : Owns k s (d.pages + F)) (hle : sz ≤ sz') (hsz : sz' ≤ KERNBASE) :
    Resized s t d d' sz sz' := by
  have hU : USER < 2 ^ 20 := by decide
  have hnp := npages_mono hle
  have hkeep : ∀ p ∈ d.pages, Keeps s t p := fun p hp =>
    have hin := Multiset.mem_add.mpr (.inl hp)
    hg.keeps p (ho.valid_goods hin).aligned (ho.not_free hin)
  have hentry : ∀ va < min (PGROUNDUP sz) (PGROUNDUP sz'), d'.entry va = d.entry va :=
    fun va hva => by
      have hlt := hc.mapped (hle.trans hsz) (hva.trans_le (min_le_left _ _))
      rw [entry_eq, entry_eq]
      exact hg.old _ ((page_number_lt hlt.1).trans hU)
        (.inl (page_lt_npages.mpr (hva.trans_le (min_le_left _ _))))
  refine ⟨fun j hj => ?_, fun va hlo hhi => ?_, hentry, fun va hva => ?_⟩
  · by_cases hin : npages sz ≤ j ∧ j < npages sz'
    · obtain ⟨p, -, hpte, -⟩ := hg.new j hin.1 hin.2
      rw [Pgdir.Mapped, hpte]
      exact iff_of_true (Pte.or_P_has_P _ _) hin.2
    · rw [Pgdir.Mapped, hg.old j (hj.trans hU) (by omega)]
      exact (hc j hj).trans ⟨fun h => h.trans_le hnp, fun h => by omega⟩
  · obtain ⟨p, -, hpte, hz⟩ := hg.new _ (le_page_number.mpr hlo) (page_lt_npages.mpr hhi)
    rw [Pgdir.phys, entry_eq, hpte]
    exact hz _ (Nat.mod_lt _ (by decide))
  · have hm := hc.mapped (hle.trans hsz) (hva.trans_le (min_le_left _ _))
    exact kept_of_keeps hkeep hm.1 hm.2 (hentry va hva)

/-- A growth that was undone has changed nothing. -/
theorem Undone.unchanged {i : ℕ} (hu : Undone s t d d' (npages sz) i (npages sz'))
    (hi : i ≤ npages sz) (hc : Covers d sz) (ho : Owns k s (d.pages + F)) :
    Unchanged s t d d' := by
  have hU : USER < 2 ^ 20 := by decide
  have hkeep : ∀ p ∈ d.pages, Keeps s t p := fun p hp =>
    have hin := Multiset.mem_add.mpr (.inl hp)
    hu.keeps p (ho.valid_goods hin).aligned (ho.not_free hin) fun j _ _ => by omega
  have hold : ∀ va < KERNBASE, (d.entry va).has PTE_P = true → d'.entry va = d.entry va :=
    fun va hva hm => by
      rw [entry_eq] at hm
      rw [entry_eq, entry_eq]
      exact hu.old _ ((page_number_lt hva).trans hU) (.inl ((hc _ (page_number_lt hva)).mp hm))
  refine ⟨fun va hva => ?_, fun va hva hm => kept_of_keeps hkeep hva hm (hold va hva hm)⟩
  by_cases hm : d.Mapped (va / PGSIZE)
  · have hm' : (d.entry va).has PTE_P = true := by rwa [entry_eq]
    rw [Pgdir.mapping, Pgdir.mapping, hold va hva hm']
  · have hm' : ¬ d'.Mapped (va / PGSIZE) := by
      have hj := page_number_lt hva
      by_cases hin : npages sz ≤ va / PGSIZE ∧ va / PGSIZE < npages sz'
      · exact hu.unmapped _ hin.1 hin.2
      · rw [Pgdir.Mapped, hu.old _ (hj.trans hU) (by omega)]
        exact hm
    rw [mapping_of_not_mapped hm, mapping_of_not_mapped hm']

/-- `deallocuvm` takes a process to a smaller size. -/
theorem deallocuvm_resized (hsz : sz < KERNBASE) (hc : Covers d sz) (ho : Owns k s (d.pages + F))
    (hle : sz' ≤ sz) : Total (deallocuvm k d sz sz') (fun r t => r.2 = sz' ∧ SameKernel d r.1 ∧
      (∀ p ∈ F, Keeps s t p) ∧ Owns k t (r.1.pages + F) ∧ Resized s t d r.1 sz sz') s := by
  have hU : USER < 2 ^ 20 := by decide
  have hnp := npages_mono hle
  have hnp' := npages_le_USER hsz.le
  have hd : ∀ p ∈ d.pages, p ∈ d.pages + F := fun p hp => Multiset.mem_add.mpr (.inl hp)
  have hF : ∀ p ∈ F, p ∈ d.pages + F := fun p hp => Multiset.mem_add.mpr (.inr hp)
  have hv : ∀ j, npages sz' ≤ j → j < npages sz → d.Mapped j → Valid k (d.pte j).addr :=
    fun j _ hj hm => ho.valid_goods (hd _ (mem_pages (by omega) hm))
  refine wp_mono (deallocuvm_total hsz.le hv s) fun r t ⟨hr, _, hpte, hkeep, hbal⟩ =>
    ⟨hr.trans (min_eq_right hle), fun j hj hj' => ?_, fun p hp => ?_,
      ho.of_eq (by rw [← add_assoc, hbal, add_assoc]), ?_⟩
  · rw [hpte j hj', if_neg (by omega)]
  · refine hkeep p (ho.valid_goods (hF p hp)).aligned fun j _ hj hm => ?_
    rintro rfl
    exact Multiset.disjoint_left.mp (Multiset.nodup_add.mp ho.nodup_goods).2.2
      (mem_pages (by omega) hm) hp
  · have hlow : ∀ va < min (PGROUNDUP sz) (PGROUNDUP sz'), r.1.entry va = d.entry va :=
      fun va hva => by
        have := page_lt_npages.mpr (hva.trans_le (min_le_right _ _))
        rw [entry_eq, entry_eq, hpte _ (by omega), if_neg (by omega)]
    refine ⟨fun j hj => ?_, fun va h₁ h₂ => ?_, hlow, fun va hva => ?_⟩
    · rw [Pgdir.Mapped, hpte j (hj.trans hU)]
      by_cases hin : npages sz' ≤ j ∧ j < npages sz
      · rw [if_pos hin, unmap_has_P]
        exact iff_of_false Bool.false_ne_true (by omega)
      · rw [if_neg hin]
        exact (hc j hj).trans ⟨fun h => by omega, fun h => by omega⟩
    · rw [PGROUNDUP_eq] at h₁ h₂
      have := Nat.mul_le_mul_right PGSIZE hnp
      omega
    · -- The page of `va` is not one of those that are freed.
      have hm := hc.mapped hsz.le (hva.trans_le (min_le_left _ _))
      have hj := page_lt_npages.mpr (hva.trans_le (min_le_right _ _))
      rw [Pgdir.phys, hlow va hva]
      refine hkeep _ (ho.valid_goods (hd _ (mem_pages_of_address hm.1 hm.2))).aligned
        (fun i hi hi' hmi => ?_) _ (Nat.mod_lt _ (by decide))
      rw [entry_eq] at hm ⊢
      exact addr_injective (Multiset.nodup_add.mp ho.nodup_goods).1 (by omega)
        (page_number_lt hm.1) hmi hm.2 (by omega)

/-- `allocuvm` takes a process to a larger size, with pages of the user, or leaves it as it is. -/
theorem allocuvm_resized (hsz : sz' < KERNBASE) (hc : Covers d sz) (ho : Owns k s (d.pages + F))
    (hle : sz ≤ sz') : Total (allocuvm k d sz sz') (fun r t => SameKernel d r.1 ∧
      (∀ p ∈ F, Keeps s t p) ∧ Owns k t (r.1.pages + F) ∧
        (r.2 = sz' ∧ Resized s t d r.1 sz sz' ∧
            (∀ j, npages sz ≤ j → j < npages sz' → (r.1.pte j).has PTE_U = true) ∨
          r.2 = 0 ∧ Unchanged s t d r.1)) s := by
  have hF : ∀ p ∈ F, p ∈ d.pages + F := fun p hp => Multiset.mem_add.mpr (.inr hp)
  have hun : ∀ j, npages sz ≤ j → j < USER → ¬ d.Mapped j := fun j hj hj' h => by
    have := (hc j hj').mp h
    omega
  refine wp_mono (allocuvm_total hle hsz hun ho) fun r t ⟨hbal, hres⟩ => ?_
  have ho' : Owns k t (r.1.pages + F) := ho.of_eq (by rw [← add_assoc, hbal, add_assoc])
  have hnp := npages_le_USER hsz.le
  rcases hres with ⟨hr, hg⟩ | ⟨hr, hu⟩
  · refine ⟨fun j hj hj' => hg.old j hj' (by omega),
      fun p hp => hg.keeps p (ho.valid_goods (hF p hp)).aligned (ho.not_free (hF p hp)), ho',
      .inl ⟨hr, hg.resized hc ho hle hsz.le, fun j hj hj' => ?_⟩⟩
    obtain ⟨p, -, hpte, -⟩ := hg.new j hj hj'
    rw [hpte, Pte.or_P_has_U, Pte.has_U]
    show (PTE_W ||| PTE_U).getLsbD 2 = true
    decide
  · exact ⟨fun j hj hj' => hu.old j hj' (by omega),
      fun p hp => hu.keeps p (ho.valid_goods (hF p hp)).aligned (ho.not_free (hF p hp))
        fun j _ _ => by omega, ho', .inr ⟨hr, hu.unchanged le_rfl hc ho⟩⟩

/-- **`growproc`**, unless it is to shrink the process to `0` or below. -/
theorem growproc_total (hsz : sz < KERNBASE) (hc : Covers d sz) (ho : Owns k s (d.pages + F))
    (hlo : -2 ^ 31 ≤ n) (hhi : n < 2 ^ 31) (hp : Proper sz n) :
    Total (growproc k d sz n) (fun r t => SameKernel d r.2.1 ∧ (∀ p ∈ F, Keeps s t p) ∧
      Owns k t (r.2.1.pages + F) ∧
      (r.1 = 0 ∧ (r.2.2 : ℤ) = sz + n ∧ r.2.2 < KERNBASE ∧ Resized s t d r.2.1 sz r.2.2 ∨
        r.1 = -1 ∧ r.2.2 = sz ∧ Unchanged s t d r.2.1)) s := by
  have hK : KERNBASE = 2 ^ 31 := rfl
  have hnew : ∀ newsz : ℕ, (newsz : ℤ) = sz + n → ((sz + n) % 2 ^ 32).toNat = newsz := fun _ _ => by
    omega
  rw [growproc]
  dsimp only
  split
  · rename_i hpos
    obtain ⟨newsz, he⟩ : ∃ newsz : ℕ, (newsz : ℤ) = sz + n := ⟨(sz + n).toNat, by omega⟩
    rw [hnew newsz he]
    by_cases hbig : KERNBASE ≤ newsz
    · rw [allocuvm, if_pos hbig]
      exact ⟨.refl d, fun p _ => .refl s p, ho, .inr ⟨rfl, rfl, .refl s d⟩⟩
    · refine wp_seq (allocuvm_resized (by omega) hc ho (by omega)) ?_
      rintro r t ⟨hk, hkeep, ho', hres⟩
      obtain ⟨d', r⟩ := r
      have hpos' : newsz ≠ 0 := by omega
      have hlt : newsz < KERNBASE := by omega
      rcases hres with ⟨rfl, hg, -⟩ | ⟨rfl, hu⟩
      · dsimp only
        rw [if_neg hpos']
        exact ⟨hk, hkeep, ho', .inl ⟨rfl, he, hlt, hg⟩⟩
      · exact ⟨hk, hkeep, ho', .inr ⟨rfl, rfl, hu⟩⟩
  split
  · rename_i hneg
    -- A process without memory has nothing to give back.
    rcases hp hneg with h0 | hpos
    · subst h0
      rw [deallocuvm, if_pos (Nat.zero_le _)]
      exact ⟨.refl d, fun p _ => .refl s p, ho, .inr ⟨rfl, rfl, .refl s d⟩⟩
    · obtain ⟨newsz, he⟩ : ∃ newsz : ℕ, (newsz : ℤ) = sz + n := ⟨(sz + n).toNat, by omega⟩
      rw [hnew newsz he]
      refine wp_seq (deallocuvm_resized hsz hc ho (by omega)) ?_
      rintro r t ⟨hr, hk, hkeep, ho', hres⟩
      obtain ⟨d', r⟩ := r
      have hpos' : newsz ≠ 0 := by omega
      have hlt : newsz < KERNBASE := by omega
      obtain rfl : r = newsz := hr
      dsimp only
      rw [if_neg hpos']
      exact ⟨hk, hkeep, ho', .inl ⟨rfl, he, hlt, hres⟩⟩
  · have hn : n = 0 := by omega
    subst hn
    refine ⟨.refl d, fun p _ => .refl s p, ho, .inl ⟨rfl, by simp, hsz, hc, fun va h₁ h₂ => ?_,
      fun _ _ => rfl, fun _ _ => rfl⟩⟩
    exact absurd h₂ (not_lt.mpr h₁)

/-- **A shrink to `0` returns `-1`**, with the size as it was and no user page left. -/
theorem growproc_to_zero (hsz : sz < KERNBASE) (hpos : 0 < sz) (hc : Covers d sz)
    (ho : Owns k s (d.pages + F)) : Total (growproc k d sz (-sz)) (fun r _ =>
      r.1 = -1 ∧ r.2.2 = sz ∧ ∀ j < USER, ¬ r.2.1.Mapped j) s := by
  have h0 : ((sz + -(sz : ℤ)) % 2 ^ 32).toNat = 0 := by simp
  rw [growproc]
  dsimp only
  rw [if_neg (by omega), if_pos (by omega), h0]
  refine wp_seq (deallocuvm_resized hsz hc ho (Nat.zero_le sz)) fun r t ⟨hr, _, _, _, hres⟩ => ?_
  obtain ⟨d', r⟩ := r
  obtain rfl : r = 0 := hr
  refine ⟨rfl, rfl, fun j hj hm => ?_⟩
  exact absurd ((hres.covers j hj).mp hm) (Nat.not_lt_zero j)

/-- **A shrink below `0` returns `0`**, and nothing has changed. -/
theorem growproc_below_zero (hsz : sz < KERNBASE) (hpos : 0 < sz) (hlo : -2 ^ 31 ≤ n)
    (hn : sz + n < 0) (d : Pgdir) : growproc k d sz n = pure (0, d, sz) := by
  have hK : KERNBASE = 2 ^ 31 := rfl
  have hle : sz ≤ ((sz + n) % 2 ^ 32).toNat := by omega
  rw [growproc]
  dsimp only
  rw [if_neg (by omega), if_pos (by omega), deallocuvm, if_pos hle]
  show (pure (if sz = 0 then (-1, d, sz) else (0, d, sz)) : Uvm (ℤ × Pgdir × ℕ)) = _
  rw [if_neg hpos.ne']

end Xv6.Uvm
