import Xv6.Uvm.Supply

/-!
# Address spaces — `copyuvm` copies

`copyuvm` gives `fork` a directory of new pages with the flags and the bytes of the old.  Where it
is refused a page, a table or a directory, everything it took goes back.

* `Copied` — the pages below a size are copies, in pages of their own.
* `copyFrom_total` — from any page on, the loop copies or gives all back.
* `foldl_store_of_owns` — what one address space stores, another does not read.
* `copyuvm_copies`.
-/

namespace Xv6.Uvm

open Vm (Page Kmem Panic PGSIZE NPDENTRIES KERNBASE PGROUNDUP)
open Lib (wp_seq wp_mono)

variable {k : Vm.Symbols} {s t u : Machine} {d d' pgdir : Pgdir} {i j sz : ℕ} {F : Multiset Page}

/-! ### Stores -/

/-- A user's store of a byte in the address space `d`: without a writable page it faults. -/
def store (d : Pgdir) (s : Machine) (w : ℕ × UInt8) : Machine :=
  if w.1 < KERNBASE ∧ (d.entry w.1).has PTE_P ∧ (d.entry w.1).has PTE_W ∧ (d.entry w.1).has PTE_U
  then { s with ram := Function.update s.ram (d.phys w.1) w.2 }
  else s

/-- Addresses in different pages are in different places. -/
theorem phys_ne {va vb : ℕ} (ha : (d.entry va).addr % PGSIZE = 0)
    (hb : (d'.entry vb).addr % PGSIZE = 0) (hne : (d.entry va).addr ≠ (d'.entry vb).addr) :
    d.phys va ≠ d'.phys vb := by
  unfold Pgdir.phys
  generalize (d.entry va).addr = a at *
  generalize (d'.entry vb).addr = b at *
  simp only [Page, PGSIZE] at *
  omega

/-- **What one address space stores, another does not read.** -/
theorem foldl_store_of_owns (ho : Owns k s (d.pages + (d'.pages + F))) {va : ℕ} (hva : va < KERNBASE)
    (hm : (d'.entry va).has PTE_P = true) (ws : List (ℕ × UInt8)) (s : Machine) :
    (ws.foldl (store d) s).ram (d'.phys va) = s.ram (d'.phys va) := by
  induction ws generalizing s with
  | nil => rfl
  | cons w ws ih =>
      rw [List.foldl_cons, ih]
      unfold store
      split
      · rename_i hw
        have h₁ := mem_pages_of_address hw.1 hw.2.1
        have h₂ := mem_pages_of_address hva hm
        have hne : (d'.entry va).addr ≠ (d.entry w.1).addr := fun he =>
          Multiset.disjoint_left.mp (Multiset.nodup_add.mp ho.nodup_goods).2.2 h₁
            (Multiset.mem_add.mpr (.inl (he ▸ h₂)))
        refine Function.update_of_ne (phys_ne ?_ ?_ hne) _ _
        · exact (ho.valid_goods (Multiset.mem_add.mpr (.inr (Multiset.mem_add.mpr (.inl h₂))))).aligned
        · exact (ho.valid_goods (Multiset.mem_add.mpr (.inl h₁))).aligned
      · rfl

/-! ### The loop -/

theorem or_P_of_has {e : Pte} (h : e.has PTE_P = true) : e.flags ||| PTE_P = e.flags := by
  rw [Pte.has_P] at h
  refine BitVec.eq_of_getLsbD_eq fun i hi => ?_
  rw [BitVec.getLsbD_or]
  cases i with
  | zero => simp [h]
  | succ i => simp [PTE_P]

/-- The pages from `lo` to `hi` of `d'` are copies of those of `pgdir`. -/
structure Copied (s t : Machine) (pgdir d d' : Pgdir) (lo hi : ℕ) : Prop where
  copy : ∀ j, lo ≤ j → j < hi → ∃ p ∈ s.kmem.free, d'.pte j = ⟨p, (pgdir.pte j).flags⟩ ∧
    ∀ o < PGSIZE, t.ram (p + o) = s.ram ((pgdir.pte j).addr + o)
  old : ∀ j < 2 ^ 20, j < lo ∨ hi ≤ j → d'.pte j = d.pte j

/-- The loop of `copyuvm` from the page `i`, for the `n` pages that are left. -/
theorem copyFrom_total (hsz : sz ≤ KERNBASE) (hmap : ∀ j < npages sz, pgdir.Mapped j) (n : ℕ) :
    ∀ (d : Pgdir) (i : ℕ) (s : Machine), i + n = npages sz →
      (∀ j, i ≤ j → j < USER → ¬ d.Mapped j) → Owns k s (d.pages + (pgdir.pages + F)) →
      Total (copyFrom k pgdir n d (i * PGSIZE)) (fun r t =>
        t.kmem.free + r.elim 0 Pgdir.pages = s.kmem.free + d.pages ∧
        (∀ p, p % PGSIZE = 0 → p ∉ s.kmem.free → p ∉ d.pages → Keeps s t p) ∧
        ∀ d', r = some d' → (∀ p, p % PGSIZE = 0 → p ∉ s.kmem.free → Keeps s t p) ∧
          Copied s t pgdir d d' i (npages sz)) s := by
  induction n with
  | zero =>
      intro d i s hn _ _
      refine ⟨rfl, fun p _ _ _ => .refl s p, ?_⟩
      rintro _ ⟨⟩
      exact ⟨fun p _ _ => .refl s p, fun j _ _ => by omega, fun _ _ _ => rfl⟩
  | succ n ih =>
      intro d i s hn hun ho
      have hU : USER < 2 ^ 20 := by decide
      have hnp := npages_le_USER hsz
      have hiU : i < USER := by omega
      have hmi := hmap i (by omega)
      have hv : ∀ p ∈ d.pages, Valid k p := fun p hp =>
        ho.valid_goods (Multiset.mem_add.mpr (.inl hp))
      rw [copyFrom, lookup_of_mapped hmi]
      dsimp only
      rw [if_neg (by rw [show (pgdir.pte i).has PTE_P = true from hmi]; exact Bool.noConfusion)]
      refine wp_seq (kalloc_total s) ?_
      rintro r t ⟨hram, hfree⟩
      cases r with
      | none =>
          rw [Option.elim_none, add_zero] at hfree
          refine wp_seq (freevm_total hv t) ?_
          rintro _ u ⟨hu, hkeep⟩
          refine ⟨?_, fun p hp _ hd => ?_, ?_⟩
          · rw [Option.elim_none, add_zero, hu, hfree]
          · exact (Keeps.of_ram hram p).trans (hkeep p hp hd)
          · rintro _ ⟨⟩
      | some mem =>
          rw [Option.elim_some] at hfree
          have hmem : mem ∈ s.kmem.free :=
            hfree ▸ Multiset.mem_add.mpr (.inr (Multiset.mem_singleton_self mem))
          have hvm := ho.valid_free hmem
          have hne : ∀ p, p ∉ s.kmem.free → p ≠ mem := by
            rintro p hf rfl
            exact hf hmem
          refine get_total ?_
          refine wp_seq (memmove_page hvm.aligned _ t) ?_
          rintro _ t' ⟨hkm, hcopy, hmove⟩
          have hfree' : t'.kmem.free + {mem} = s.kmem.free := by rw [hkm, ← hfree]
          refine wp_seq (mapPage_total hiU (hun i le_rfl hiU) mem _ t') ?_
          rintro r u ⟨huram, hle, hother, hself, hfail, hbal⟩
          obtain ⟨ok, d₁⟩ := r
          have hbal' : u.kmem.free + (d₁.pages + if ok then 0 else {mem}) =
              s.kmem.free + d.pages := by
            rw [hbal, ← hfree']
            ac_rfl
          have hsub : ∀ p, p ∉ s.kmem.free → p ∉ u.kmem.free := fun p hf h =>
            hf (hfree' ▸ Multiset.mem_add.mpr (.inl (Multiset.mem_of_le hle h)))
          have hkeepu : ∀ p, p % PGSIZE = 0 → p ∉ s.kmem.free → Keeps s u p := fun p hp hf =>
            ((Keeps.of_ram hram p).trans (hmove p hp (hne p hf))).trans (.of_ram huram p)
          cases ok with
          | true =>
              rw [if_pos rfl, add_zero] at hbal'
              have ho' : Owns k u (d₁.pages + (pgdir.pages + F)) :=
                ho.of_eq (by rw [← add_assoc, hbal', add_assoc])
              have hpi : d₁.pte i = ⟨mem, (pgdir.pte i).flags⟩ := by rw [hself rfl, or_P_of_has hmi]
              have hmi₁ : d₁.Mapped i := by rw [Pgdir.Mapped, hself rfl, Pte.or_P_has_P]
              have hmem₁ : mem ∈ d₁.pages := by
                have := mem_pages hiU hmi₁
                rwa [hpi] at this
              have hmemu : mem ∉ u.kmem.free := ho'.not_free (Multiset.mem_add.mpr (.inl hmem₁))
              have hd₁ : ∀ p, p ∉ s.kmem.free → p ∉ d.pages → p ∉ d₁.pages := fun p hf hd h =>
                (Multiset.mem_add.mp (hbal' ▸ Multiset.mem_add.mpr (.inr h))).elim hf hd
              have hun' : ∀ j, i + 1 ≤ j → j < USER → ¬ d₁.Mapped j := fun j hj hj' => by
                rw [Pgdir.Mapped, hother j (by omega) (by omega)]
                exact hun j (by omega) hj'
              -- The pages of the old space are not free: they are what they were.
              have hpgdir : ∀ j < npages sz, ∀ o < PGSIZE,
                  u.ram ((pgdir.pte j).addr + o) = s.ram ((pgdir.pte j).addr + o) := fun j hj => by
                have hin := mem_pages (hj.trans_le hnp) (hmap j hj)
                have hin' : (pgdir.pte j).addr ∈ d.pages + (pgdir.pages + F) :=
                  Multiset.mem_add.mpr (.inr (Multiset.mem_add.mpr (.inl hin)))
                exact hkeepu _ (ho.valid_goods hin').aligned (ho.not_free hin')
              rw [← Nat.succ_mul]
              refine wp_mono (ih d₁ (i + 1) u (by omega) hun' ho') ?_
              rintro r v ⟨hb, hkeep, hsome⟩
              refine ⟨hb.trans hbal', fun p hp hf hd => ?_, fun d' hr => ?_⟩
              · exact (hkeepu p hp hf).trans (hkeep p hp (hsub p hf) (hd₁ p hf hd))
              · obtain ⟨hkeep', hcopied⟩ := hsome d' hr
                refine ⟨fun p hp hf => (hkeepu p hp hf).trans (hkeep' p hp (hsub p hf)),
                  fun j hj hj' => ?_, fun j hj hout => ?_⟩
                · by_cases hji : j = i
                  · subst hji
                    refine ⟨mem, hmem, (hcopied.old j (by omega) (by omega)).trans hpi,
                      fun o hlt => ?_⟩
                    rw [hkeep' mem hvm.aligned hmemu o hlt, huram, hcopy o hlt, hram]
                  · obtain ⟨p, hp, hpte, hbytes⟩ := hcopied.copy j (by omega) hj'
                    refine ⟨p, ?_, hpte, fun o hlt => (hbytes o hlt).trans (hpgdir j hj' o hlt)⟩
                    by_contra hf
                    exact hsub p hf hp
                · rw [hcopied.old j hj (by omega), hother j hj (by omega)]
          | false =>
              -- `mappages` has failed: the page is given back, and the copies with the directory.
              obtain rfl : d₁ = d := hfail rfl
              refine wp_seq (kfree_total hvm u) ?_
              rintro _ v ⟨hvfree, hkeep⟩
              refine wp_seq (freevm_total hv v) ?_
              rintro _ w ⟨hw, hkeep'⟩
              refine ⟨?_, fun p hp hf hd => ?_, ?_⟩
              · rw [Option.elim_none, add_zero, hw, hvfree, ← hbal', if_neg Bool.false_ne_true]
                ac_rfl
              · exact ((hkeepu p hp hf).trans (hkeep p hp (hne p hf))).trans (hkeep' p hp hd)
              · rintro _ ⟨⟩

/-- `copyuvm` copies every page into one of its own, or takes none. -/
theorem copyuvm_total {k : Linked} (hsz : sz ≤ KERNBASE) (hmap : ∀ j < npages sz, pgdir.Mapped j)
    (ho : Owns k.toSymbols s (pgdir.pages + F)) :
    Total (copyuvm k.toSymbols pgdir sz) (fun r t =>
      t.kmem.free + r.elim 0 Pgdir.pages = s.kmem.free ∧
      (∀ p, p % PGSIZE = 0 → p ∉ s.kmem.free → Keeps s t p) ∧
      ∀ d, r = some d → Sealed d ∧ (∀ j, npages sz ≤ j → j < USER → ¬ d.Mapped j) ∧
        ∀ j < npages sz, ∃ p ∈ s.kmem.free, d.pte j = ⟨p, (pgdir.pte j).flags⟩ ∧
          ∀ o < PGSIZE, t.ram (p + o) = s.ram ((pgdir.pte j).addr + o)) s := by
  have hU : USER < 2 ^ 20 := by decide
  have hnp := npages_le_USER hsz
  refine wp_seq (setupkvm_total k ho) fun r t ⟨hkeep, hfree, hun⟩ => ?_
  cases r with
  | none => exact ⟨hfree, hkeep, by rintro _ ⟨⟩⟩
  | some d₀ =>
      rw [Option.elim_some] at hfree
      have hgoods : t.kmem.free + (d₀.pages + (pgdir.pages + F)) =
          s.kmem.free + (pgdir.pages + F) := by rw [← hfree, add_assoc]
      have hsub : ∀ p, p ∉ s.kmem.free → p ∉ t.kmem.free ∧ p ∉ d₀.pages := fun p hf =>
        ⟨fun h => hf (hfree ▸ Multiset.mem_add.mpr (.inl h)),
          fun h => hf (hfree ▸ Multiset.mem_add.mpr (.inr h))⟩
      have hold : ∀ j < npages sz, ∀ o < PGSIZE,
          t.ram ((pgdir.pte j).addr + o) = s.ram ((pgdir.pte j).addr + o) := fun j hj => by
        have hin : (pgdir.pte j).addr ∈ pgdir.pages + F :=
          Multiset.mem_add.mpr (.inl (mem_pages (hj.trans_le hnp) (hmap j hj)))
        exact hkeep _ (ho.valid_goods hin).aligned (ho.not_free hin)
      have hzero : 0 + PGROUNDUP sz / PGSIZE = npages sz := by
        rw [PGROUNDUP_eq, Nat.mul_div_cancel _ (by decide), zero_add]
      have hloop := copyFrom_total (F := F) hsz hmap _ d₀ 0 t hzero
        (fun j _ hj => (hun d₀ rfl).1 j hj) (ho.of_eq hgoods)
      rw [Nat.zero_mul] at hloop
      refine wp_mono hloop fun r u ⟨hb, hkeep', hsome⟩ => ⟨hb.trans hfree, fun p hp hf => ?_,
        fun d hr => ?_⟩
      · exact (hkeep p hp hf).trans (hkeep' p hp (hsub p hf).1 (hsub p hf).2)
      · obtain ⟨_, hcopied⟩ := hsome d hr
        refine ⟨fun j hj hj' => ?_, fun j hj hj' => ?_, fun j hj => ?_⟩
        · rw [hcopied.old j hj' (.inr (hnp.trans hj))]
          exact (hun d₀ rfl).2.1 j hj hj'
        · rw [Pgdir.Mapped, hcopied.old j (hj'.trans hU) (.inr hj)]
          exact (hun d₀ rfl).1 j hj'
        · obtain ⟨p, hp, hpte, hbytes⟩ := hcopied.copy j (Nat.zero_le j) hj
          refine ⟨p, ?_, hpte, fun o hlt => (hbytes o hlt).trans (hold j hj o hlt)⟩
          by_contra hf
          exact (hsub p hf).1 hp

/-- **`copyuvm` copies the address space, or takes nothing.** -/
theorem copyuvm_copies {k : Linked} (hsz : sz ≤ KERNBASE)
    (hmap : ∀ va < sz, (pgdir.entry va).has PTE_P = true)
    (ho : Owns k.toSymbols s (pgdir.pages + F)) :
    Total (copyuvm k.toSymbols pgdir sz) (fun r t => (∀ p ∈ pgdir.pages + F, Keeps s t p) ∧
      (r = none → t.kmem.free = s.kmem.free) ∧
      ∀ d, r = some d → Owns k.toSymbols t (d.pages + (pgdir.pages + F)) ∧
        (∀ va < PGROUNDUP sz, (∃ p ∈ s.kmem.free, d.entry va = ⟨p, (pgdir.entry va).flags⟩) ∧
          t.ram (d.phys va) = s.ram (pgdir.phys va)) ∧
        (∀ va, PGROUNDUP sz ≤ va → va < KERNBASE → (d.entry va).has PTE_P = false) ∧
        (∀ va vb, va < PGROUNDUP sz → vb < PGROUNDUP sz → va / PGSIZE ≠ vb / PGSIZE →
          (d.entry va).addr ≠ (d.entry vb).addr) ∧
        (∀ va vb, va < PGROUNDUP sz → vb < KERNBASE → (pgdir.entry vb).has PTE_P = true →
          (d.entry va).addr ≠ (pgdir.entry vb).addr) ∧
        ∀ ws : List (ℕ × UInt8),
          (∀ va < KERNBASE, (pgdir.entry va).has PTE_P = true →
            (ws.foldl (store d) t).ram (pgdir.phys va) = t.ram (pgdir.phys va)) ∧
          ∀ va < KERNBASE, (d.entry va).has PTE_P = true →
            (ws.foldl (store pgdir) t).ram (d.phys va) = t.ram (d.phys va)) s := by
  have hnp := npages_le_USER hsz
  have hround : ∀ va < PGROUNDUP sz, va / PGSIZE < npages sz := fun va h =>
    not_le.mp (mt le_page_number.mp (not_le.mpr h))
  have hmap' : ∀ j < npages sz, pgdir.Mapped j := fun j hj => hmap _ (lt_npages.mp hj)
  refine wp_mono (copyuvm_total hsz hmap' ho) fun r t ⟨hfree, hkeep, hsome⟩ =>
    ⟨fun p hp => hkeep p (ho.valid_goods hp).aligned (ho.not_free hp), fun hr => ?_, fun d hr => ?_⟩
  · rwa [hr, Option.elim_none, add_zero] at hfree
  obtain ⟨_, hun, hcopy⟩ := hsome d hr
  have ho' : Owns k.toSymbols t (d.pages + (pgdir.pages + F)) := ho.of_eq (by
    rw [hr, Option.elim_some] at hfree
    rw [← hfree, add_assoc])
  have hmapped : ∀ j < npages sz, d.Mapped j := fun j hj => by
    obtain ⟨p, -, hpte, -⟩ := hcopy j hj
    rw [Pgdir.Mapped, hpte]
    exact hmap' j hj
  -- To each of the two spaces, the other is somebody else's.
  have hswap : Owns k.toSymbols t (pgdir.pages + (d.pages + F)) := ho'.of_eq (by ac_rfl)
  refine ⟨ho', fun va hva => ?_, fun va hlo hhi => ?_, fun va vb hva hvb hne => ?_,
    fun va vb hva hvb hm => ?_, fun ws => ⟨fun va hva hm => foldl_store_of_owns ho' hva hm ws t,
      fun va hva hm => foldl_store_of_owns hswap hva hm ws t⟩⟩
  · obtain ⟨p, hp, hpte, hbytes⟩ := hcopy _ (hround va hva)
    refine ⟨⟨p, hp, by rw [entry_eq, entry_eq]; exact hpte⟩, ?_⟩
    rw [Pgdir.phys, Pgdir.phys, entry_eq, entry_eq, hpte]
    exact hbytes _ (Nat.mod_lt _ (by decide))
  · rw [entry_eq]
    exact Bool.eq_false_iff.mpr (hun _ (le_page_number.mpr hlo) (page_number_lt hhi))
  · rw [entry_eq, entry_eq]
    exact addr_injective (Multiset.nodup_add.mp ho'.nodup_goods).1 ((hround va hva).trans_le hnp)
      ((hround vb hvb).trans_le hnp) (hmapped _ (hround va hva)) (hmapped _ (hround vb hvb)) hne
  · have h₁ := mem_pages ((hround va hva).trans_le hnp) (hmapped _ (hround va hva))
    rw [entry_eq]
    intro he
    exact Multiset.disjoint_left.mp (Multiset.nodup_add.mp ho'.nodup_goods).2.2 h₁
      (Multiset.mem_add.mpr (.inl (he ▸ mem_pages_of_address hvb hm)))

/-- With pages enough the copy is made: the byte 5 is there, in a page that was free. -/
theorem copyuvm_copies_small : ∃ d t,
    copyuvm smallLinked.toSymbols smallSpace 100 roomyMachine = .ok (some d, t) ∧
      Owns smallLinked.toSymbols t (d.pages + (smallSpace.pages + 0)) ∧
      (∃ p ∈ roomyMachine.kmem.free, d.entry 5 = ⟨p, (smallSpace.entry 5).flags⟩) ∧
      t.ram (d.phys 5) = roomyMachine.ram (smallSpace.phys 5) := by
  have hmap : ∀ va < 100, (smallSpace.entry va).has PTE_P = true := fun va hva => by
    rw [entry_eq, Nat.div_eq_of_lt (hva.trans (by decide))]
    exact (smallSpace_mapped (by decide)).mpr rfl
  have hlen : 1 + NPDENTRIES + npages 100 ≤ roomyMachine.kmem.freelist.length := by
    show 1 + NPDENTRIES + npages 100 ≤ roomyPages.length
    rw [length_roomyPages]
    decide
  have hsome : Partly (copyuvm smallLinked.toSymbols smallSpace 100)
      (fun r _ => ∃ d, r = some d) roomyMachine := copyuvm_supplied roomyMachine_granting hlen
  obtain ⟨r, t, hr, -, -, hcopied⟩ :=
    Lib.wp_returns (copyuvm_copies (by decide) hmap roomyMachine_owns) fun _ => id
  obtain ⟨d, rfl⟩ := Lib.wp_of_ok hsome hr
  obtain ⟨howns, hbytes, -⟩ := hcopied d rfl
  exact ⟨d, t, hr, howns, hbytes 5 (by decide)⟩

end Xv6.Uvm
