import Xv6.Uvm.Pages

/-!
# Address spaces — `deallocuvm` page by page

`deallocuvm` goes to the next directory entry where a table is missing.  Here it is compared with
the loop that visits every page.

* `Uint` — `mmu.h`'s macros and `deallocuvm` on 32-bit addresses; below `KERNBASE` they are those on
  numbers (`Uint.deallocuvm_eq`).
* `visitPages` — the loop without the jump; `deallocFrom_eq_visitPages`.
* `visitPages_spec` — what that loop does, and when it does not panic.
* `deallocuvm_visits` — the same of `deallocuvm`.
-/

namespace Xv6.Uvm

open Vm (Page Panic PGSIZE KERNBASE PDX PTX PGADDR PGROUNDUP)
open Lib (wp_seq wp_mono)

variable {k : Vm.Symbols} {s t : Machine} {d d' : Pgdir} {i j n : ℕ}

/-! ### 32-bit addresses -/

namespace Uint

/-- The macros of `mmu.h`, on `uint`. -/
def PDX (va : UInt32) : UInt32 := (va >>> 22) &&& 0x3FF
def PTX (va : UInt32) : UInt32 := (va >>> 12) &&& 0x3FF
def PGADDR (d t o : UInt32) : UInt32 := d <<< 22 ||| t <<< 12 ||| o
def PGROUNDUP (sz : UInt32) : UInt32 := (sz + 4096 - 1) &&& ~~~(4096 - 1)

/-- `walkpgdir` with `alloc = 0`. -/
def walkpgdir (d : Pgdir) (va : UInt32) : Option Pte :=
  (d.pde (PDX va).toNat).map fun t => t.pte (PTX va).toNat

variable (k : Vm.Symbols)

/-- The passes of the loop of `deallocuvm`, `n` of them at most. -/
def deallocFrom (oldsz : UInt32) : ℕ → Pgdir → UInt32 → Uvm Pgdir
  | 0, d, _ => pure d
  | n + 1, d, a =>
      if a < oldsz then
        match walkpgdir d a with
        | none => deallocFrom oldsz n d (PGADDR (PDX a + 1) 0 0 - 4096 + 4096)
        | some pte =>
            if pte.has PTE_P then
              if pte.addr = 0 then throw .kfree
              else do
                kfree k pte.addr
                deallocFrom oldsz n (d.setPte a.toNat 0) (a + 4096)
            else deallocFrom oldsz n d (a + 4096)
      else pure d

/-- `deallocuvm`, with the directory it leaves, in `n` passes at most. -/
def deallocuvm (n : ℕ) (d : Pgdir) (oldsz newsz : UInt32) : Uvm (Pgdir × UInt32) :=
  if newsz ≥ oldsz then pure (d, oldsz)
  else do
    let d ← deallocFrom k oldsz n d (PGROUNDUP newsz)
    pure (d, newsz)

theorem toNat_PDX (va : UInt32) : (PDX va).toNat = Vm.PDX va.toNat := by
  rw [PDX, UInt32.toNat_and, UInt32.toNat_shiftRight]
  exact (Nat.and_two_pow_sub_one_eq_mod _ 10).trans (by rw [Nat.shiftRight_eq_div_pow]; rfl)

theorem toNat_PTX (va : UInt32) : (PTX va).toNat = Vm.PTX va.toNat := by
  rw [PTX, UInt32.toNat_and, UInt32.toNat_shiftRight]
  exact (Nat.and_two_pow_sub_one_eq_mod _ 10).trans (by rw [Nat.shiftRight_eq_div_pow]; rfl)

theorem walkpgdir_eq (d : Pgdir) (va : UInt32) : walkpgdir d va = d.lookup va.toNat := by
  rw [walkpgdir, toNat_PDX, toNat_PTX, Pgdir.lookup]

/-- The last directory entry is that of `KERNBASE` or below. -/
theorem toNat_PGADDR {va : UInt32} (h : va.toNat < KERNBASE) :
    (PGADDR (PDX va + 1) 0 0 - 4096 + 4096).toNat = Vm.PGADDR (Vm.PDX va.toNat + 1) 0 0 := by
  have hpdx : Vm.PDX va.toNat < 512 := by
    simp only [Vm.PDX, KERNBASE] at h ⊢
    omega
  have hadd : (PDX va + 1).toNat = Vm.PDX va.toNat + 1 := by
    rw [UInt32.toNat_add, toNat_PDX]
    exact Nat.mod_eq_of_lt (Nat.lt_trans (Nat.succ_lt_succ hpdx) (by decide))
  rw [UInt32.sub_add_cancel, PGADDR, UInt32.zero_shiftLeft, UInt32.or_zero, UInt32.or_zero,
    UInt32.toNat_shiftLeft, hadd, Nat.shiftLeft_eq, show (22 : UInt32).toNat % 32 = 22 from rfl,
    Vm.PGADDR]
  omega

/-- Below `KERNBASE`, rounding up does not wrap. -/
theorem toNat_PGROUNDUP {sz : UInt32} (h : sz.toNat < KERNBASE) :
    (PGROUNDUP sz).toNat = Vm.PGROUNDUP sz.toNat := by
  have hadd : (sz + 4096 - 1).toNat = sz.toNat + PGSIZE - 1 := by
    have hsub : sz + 4096 - 1 = sz + 4095 := by
      rw [UInt32.sub_eq_add_neg, UInt32.add_assoc]
      rfl
    rw [hsub, UInt32.toNat_add]
    exact Nat.mod_eq_of_lt (Nat.lt_trans (Nat.add_lt_add_right h 4095) (by decide))
  have hmask : (PGROUNDUP sz).toBitVec = (sz + 4096 - 1).toBitVec >>> 12 <<< 12 := by
    rw [BitVec.shiftLeft_ushiftRight]
    rfl
  rw [← UInt32.toNat_toBitVec, hmask, BitVec.toNat_shiftLeft, BitVec.toNat_ushiftRight,
    UInt32.toNat_toBitVec, hadd, Nat.shiftLeft_eq, Nat.shiftRight_eq_div_pow]
  refine (Nat.mod_eq_of_lt ?_).trans rfl
  simp only [KERNBASE, PGSIZE] at h ⊢
  omega

/-- No address on the way wraps around. -/
theorem deallocFrom_eq {oldsz : UInt32} (hk : oldsz.toNat ≤ KERNBASE) (n : ℕ) :
    ∀ (d : Pgdir) (a : UInt32), deallocFrom k oldsz n d a = Uvm.deallocFrom k oldsz.toNat n d a.toNat := by
  induction n with
  | zero => exact fun d a => rfl
  | succ n ih =>
      intro d a
      rw [deallocFrom, Uvm.deallocFrom, walkpgdir_eq]
      simp only [UInt32.lt_iff_toNat_lt]
      split
      case isFalse => rfl
      rename_i hlt
      have hnext : (a + 4096).toNat = a.toNat + PGSIZE := by
        rw [UInt32.toNat_add]
        exact Nat.mod_eq_of_lt
          (Nat.lt_trans (Nat.add_lt_add_right (hlt.trans_le hk) 4096) (by decide))
      have hjump : (PGADDR (PDX a + 1) 0 0 - 4096 + 4096).toNat =
          Vm.PGADDR (Vm.PDX a.toNat + 1) 0 0 - PGSIZE + PGSIZE := by
        rw [toNat_PGADDR (hlt.trans_le hk)]
        refine (Nat.sub_add_cancel ?_).symm
        simp only [Vm.PGADDR, PGSIZE]
        omega
      cases d.lookup a.toNat with
      | none => simp only [ih, hjump]
      | some pte => simp only [ih, hnext]

/-- **Below `KERNBASE` the code's addresses are numbers.** -/
theorem deallocuvm_eq {oldsz newsz : UInt32} (hk : oldsz.toNat ≤ KERNBASE) (hlt : newsz < oldsz)
    (n : ℕ) (d : Pgdir) : deallocuvm k n d oldsz newsz =
      Uvm.deallocFrom k oldsz.toNat n d (Vm.PGROUNDUP newsz.toNat) >>= fun d =>
        pure (d, newsz) := by
  rw [deallocuvm, if_neg (UInt32.not_le.mpr hlt), deallocFrom_eq k hk,
    toNat_PGROUNDUP ((UInt32.lt_iff_toNat_lt.mp hlt).trans_le hk)]

end Uint

/-! ### Every page -/

/-- The loop of `deallocuvm` without the jump, over `n` pages from the page `i`. -/
def visitPages (k : Vm.Symbols) : ℕ → Pgdir → ℕ → Uvm Pgdir
  | 0, d, _ => pure d
  | n + 1, d, i =>
      match d.lookup (i * PGSIZE) with
      | none => visitPages k n d (i + 1)
      | some pte =>
          if pte.has PTE_P then
            if pte.addr = 0 then throw .kfree
            else do
              kfree k pte.addr
              visitPages k n (d.setPte (i * PGSIZE) 0) (i + 1)
          else visitPages k n d (i + 1)

/-- Over pages without a table it does nothing. -/
theorem visitPages_skip (m : ℕ) : ∀ n i, (∀ j, i ≤ j → j < i + m → d.lookup (j * PGSIZE) = none) →
    visitPages k n d i = visitPages k (n - m) d (i + m) := by
  induction m with
  | zero => exact fun n i _ => rfl
  | succ m ih =>
      intro n i h
      cases n with
      | zero => rw [Nat.zero_sub, visitPages, visitPages]
      | succ n =>
          rw [visitPages, h i le_rfl (by omega)]
          dsimp only
          rw [ih n (i + 1) fun j hj hj' => h j (by omega) (by omega), Nat.succ_sub_succ,
            Nat.add_right_comm, Nat.add_assoc]

theorem lookup_none_of_table (h : d.lookup (i * PGSIZE) = none) (hj : j / 1024 = i / 1024) :
    d.lookup (j * PGSIZE) = none := by
  rw [Pgdir.lookup, Option.map_eq_none_iff, PDX_page] at *
  rwa [hj]

/-- **The jump over a missing table is sound**, for any number of passes that is enough. -/
theorem deallocFrom_eq_visitPages {oldsz : ℕ} (hk : oldsz ≤ KERNBASE) (n : ℕ) :
    ∀ (d : Pgdir) (i : ℕ), oldsz - i * PGSIZE ≤ n →
      deallocFrom k oldsz n d (i * PGSIZE) = visitPages k (npages oldsz - i) d i := by
  have hdone : ∀ (d : Pgdir) (i : ℕ), oldsz ≤ i * PGSIZE →
      (Pure.pure d : Uvm Pgdir) = visitPages k (npages oldsz - i) d i := fun d i h => by
    rw [Nat.sub_eq_zero_of_le (not_lt.mp fun hlt => absurd (lt_npages.mp hlt) (not_lt.mpr h))]
    rfl
  induction n with
  | zero => exact fun d i hn => hdone d i (by omega)
  | succ n ih =>
      intro d i hn
      have hpos : 0 < PGSIZE := by decide
      have hnext : i * PGSIZE + PGSIZE = (i + 1) * PGSIZE := by rw [Nat.succ_mul]
      rw [deallocFrom]
      split
      case isFalse h => exact hdone d i (not_lt.mp h)
      rename_i hlt
      have hi : i < USER := (lt_npages.mpr hlt).trans_le (npages_le_USER hk)
      have hU := USER_eq
      have hleft : npages oldsz - i = npages oldsz - (i + 1) + 1 := by
        have := lt_npages.mpr hlt
        omega
      cases hl : d.lookup (i * PGSIZE) with
      | none =>
          have hskip : PGADDR (PDX (i * PGSIZE) + 1) 0 0 - PGSIZE + PGSIZE =
              ((i / 1024 + 1) * 1024) * PGSIZE := by
            rw [PDX_page]
            simp only [PGADDR, PGSIZE]
            omega
          have hle : (i + 1) * PGSIZE ≤ ((i / 1024 + 1) * 1024) * PGSIZE :=
            Nat.mul_le_mul_right _ (by omega)
          dsimp only
          -- The pages up to the next table are those of this one.
          rw [hskip, ih d _ (by omega), visitPages_skip ((i / 1024 + 1) * 1024 - i) _ i
            fun j hj hj' => lookup_none_of_table hl (by omega),
            show i + ((i / 1024 + 1) * 1024 - i) = (i / 1024 + 1) * 1024 by omega,
            show npages oldsz - i - ((i / 1024 + 1) * 1024 - i) =
              npages oldsz - (i / 1024 + 1) * 1024 by omega]
      | some pte =>
          rw [hleft, visitPages, hl, hnext]
          dsimp only
          rw [ih d (i + 1) (by omega), ih (d.setPte (i * PGSIZE) 0) (i + 1) (by omega)]

/-! ### What the visits do -/

/-- The physical pages of `n` pages from the page `i`, as far as they are mapped. -/
def present (d : Pgdir) (i n : ℕ) : List Page :=
  ((List.range' i n).filter (d.Mapped ·)).map fun j => (d.pte j).addr

/-- `kfree` takes every page that is mapped from `i` to before `j`. -/
def Taken (k : Vm.Symbols) (d : Pgdir) (i j : ℕ) : Prop :=
  ∀ l, i ≤ l → l < j → d.Mapped l → Valid k (d.pte l).addr

/-- The same tables at the same pages. -/
def SameTables (d d' : Pgdir) : Prop := ∀ i, (d'.pde i).map Pgtab.page = (d.pde i).map Pgtab.page

/-- Setting an entry leaves the tables. -/
theorem SameTables.setPte (d : Pgdir) (va : ℕ) (x : Pte) : SameTables d (d.setPte va x) := by
  intro i
  by_cases h : i = PDX va
  · subst h
    rw [Pgdir.setPte]
    dsimp only
    rw [Function.update_self, Option.map_map]
    rfl
  · rw [Pgdir.setPte]
    dsimp only
    rw [Function.update_of_ne h]

/-- What `d` and `s` become when the entries from `i` to before `i + n` are cleared. -/
structure Cleared (d : Pgdir) (s : Machine) (i n : ℕ) (d' : Pgdir) (t : Machine) : Prop where
  tables : SameTables d d'
  pte : ∀ j < 2 ^ 20, d'.pte j = if i ≤ j ∧ j < i + n then (d.pte j).unmap else d.pte j
  freed : t.kmem = { s.kmem with freelist := (present d i n).reverse ++ s.kmem.freelist }

theorem Cleared.refl (d : Pgdir) (s : Machine) (i : ℕ) : Cleared d s i 0 d s :=
  ⟨fun _ => rfl, fun _ _ => by rw [if_neg (by omega)], rfl⟩

/-- `kfree` panics, or the page is on the free list. -/
theorem kfree_spec (p : Page) (s : Machine) : Lib.wp (fun e => e = .kfree ∧ ¬ Valid k p) (kfree k p)
    (fun _ t => Valid k p ∧ t.kmem = { s.kmem with freelist := p :: s.kmem.freelist }) s := by
  by_cases h : Valid k p
  · have hk : Vm.kfree k p = modify fun m => { m with freelist := p :: m.freelist } :=
      if_neg fun hbad => hbad.elim (fun ha => ha h.aligned) fun hbad =>
        hbad.elim (not_lt.mpr h.lo) (not_le.mpr h.hi)
    rw [kfree, hk]
    exact ⟨h, rfl⟩
  · have hk : Vm.kfree k p = throw .kfree := by
      refine if_pos ?_
      by_contra hno
      obtain ⟨ha, hlo, hhi⟩ := not_or.mp hno |>.imp not_not.mp not_or.mp
      exact h ⟨ha, not_lt.mp hlo, not_le.mp hhi⟩
    rw [kfree, hk]
    exact ⟨rfl, h⟩

theorem present_succ_of_mapped (h : d.Mapped i) :
    present d i (n + 1) = (d.pte i).addr :: present d (i + 1) n := by
  rw [present, List.range'_succ, List.filter_cons, if_pos (decide_eq_true h), List.map_cons, present]

theorem present_succ_of_not_mapped (h : ¬ d.Mapped i) :
    present d i (n + 1) = present d (i + 1) n := by
  rw [present, List.range'_succ, List.filter_cons, if_neg (by simpa using h), present]

theorem present_congr (h : ∀ j, i ≤ j → j < i + n → d'.pte j = d.pte j) :
    present d' i n = present d i n := by
  have hmem : ∀ j ∈ List.range' i n, d'.pte j = d.pte j := fun j hj => by
    obtain ⟨hle, hlt⟩ := List.mem_range'_1.mp hj
    exact h j hle hlt
  have hf : (List.range' i n).filter (d'.Mapped ·) = (List.range' i n).filter (d.Mapped ·) :=
    List.filter_congr fun j hj => decide_eq_decide.mpr (by simp only [Pgdir.Mapped, hmem j hj])
  rw [present, present, hf]
  exact List.map_congr_left fun j hj => by rw [hmem j (List.mem_of_mem_filter hj)]

theorem unmap_of_mapped (h : d.Mapped i) : (d.pte i).unmap = 0 := if_pos h

theorem unmap_of_not_mapped (h : ¬ d.Mapped i) : (d.pte i).unmap = d.pte i := if_neg h

/-- A page that is not mapped is passed over. -/
theorem Cleared.skip (h : ¬ d.Mapped i) (hc : Cleared d s (i + 1) n d' t) :
    Cleared d s i (n + 1) d' t := by
  refine ⟨hc.tables, fun j hj => ?_, by rw [hc.freed, present_succ_of_not_mapped h]⟩
  rw [hc.pte j hj]
  by_cases hji : j = i
  · subst hji
    rw [if_neg (by omega), if_pos (by omega), unmap_of_not_mapped h]
  · simp only [show i + 1 ≤ j ∧ j < i + 1 + n ↔ i ≤ j ∧ j < i + (n + 1) by omega]

theorem Taken.skip (h : ¬ d.Mapped i) (ht : Taken k d (i + 1) j) : Taken k d i j :=
  fun l hl hlj hm => ht l (Nat.lt_of_le_of_ne hl fun he => h (he ▸ hm)) hlj hm

section

variable {u : Machine} {pte : Pte} (hl : d.lookup (i * PGSIZE) = some pte) (hm : d.Mapped i)
  (hn : i + (n + 1) ≤ 2 ^ 20)

include hl hn

theorem pte_after (hj : j < 2 ^ 20) :
    (d.setPte (i * PGSIZE) 0).pte j = if j = i then 0 else d.pte j :=
  pte_setPte hl (by omega) hj

theorem pte_later (hj : i + 1 ≤ j) (hjn : j < i + 1 + n) :
    (d.setPte (i * PGSIZE) 0).pte j = d.pte j := by
  rw [pte_after hl hn (by omega), if_neg (by omega)]

include hm

/-- A page that is mapped is cleared and freed. -/
theorem Cleared.clear (hu : u.kmem = { s.kmem with freelist := (d.pte i).addr :: s.kmem.freelist })
    (hc : Cleared (d.setPte (i * PGSIZE) 0) u (i + 1) n d' t) : Cleared d s i (n + 1) d' t := by
  refine ⟨fun b => (hc.tables b).trans (SameTables.setPte d _ 0 b), fun j hj => ?_, ?_⟩
  · rw [hc.pte j hj, pte_after hl hn hj]
    by_cases hji : j = i
    · subst hji
      rw [if_neg (by omega), if_pos rfl, if_pos (by omega), unmap_of_mapped hm]
    · simp only [if_neg hji, show i + 1 ≤ j ∧ j < i + 1 + n ↔ i ≤ j ∧ j < i + (n + 1) by omega]
  · rw [hc.freed, hu, present_congr fun j hj hjn => pte_later hl hn hj hjn,
      present_succ_of_mapped hm, List.reverse_cons, List.append_assoc]
    rfl

/-- The first page is taken, and the others. -/
theorem taken_succ_iff : Taken k d i (i + (n + 1)) ↔
    Valid k (d.pte i).addr ∧ Taken k (d.setPte (i * PGSIZE) 0) (i + 1) (i + 1 + n) := by
  refine ⟨fun h => ⟨h i le_rfl (by omega) hm, fun l hli hln hml => ?_⟩, fun ⟨hv, h⟩ l hli hln hml => ?_⟩
  · have hlater := pte_later hl hn hli hln
    rw [Pgdir.Mapped, hlater] at hml
    exact hlater ▸ h l (by omega) (by omega) hml
  · by_cases he : l = i
    · exact he ▸ hv
    · have hlater := pte_later hl hn (j := l) (by omega) (by omega)
      have := h l (by omega) (by omega) (by rwa [Pgdir.Mapped, hlater])
      rwa [hlater] at this

end

/-- **What the visits do.**  They panic only on a page that `kfree` does not take. -/
theorem visitPages_spec (n : ℕ) : ∀ (d : Pgdir) (i : ℕ) (s : Machine), i + n ≤ 2 ^ 20 →
    Lib.wp (fun e => e = .kfree ∧ ¬ Taken k d i (i + n)) (visitPages k n d i)
      (fun d' t => Taken k d i (i + n) ∧ Cleared d s i n d' t) s := by
  induction n with
  | zero =>
      intro d i s _
      exact ⟨fun l hl hli => by omega, .refl d s i⟩
  | succ n ih =>
      intro d i s hn
      -- A page that is not there is passed over.
      have hskip : ¬ d.Mapped i → Lib.wp (fun e => e = .kfree ∧ ¬ Taken k d i (i + (n + 1)))
          (visitPages k n d (i + 1))
          (fun d' t => Taken k d i (i + (n + 1)) ∧ Cleared d s i (n + 1) d' t) s := fun hm => by
        have heq : i + 1 + n = i + (n + 1) := by omega
        refine Lib.wp_weaken (wp_mono (ih d (i + 1) s (by omega)) ?_) ?_
        · rintro d' t ⟨ht, hc⟩
          exact ⟨.skip hm (heq ▸ ht), hc.skip hm⟩
        · rintro e ⟨he, ht⟩
          exact ⟨he, fun hall => ht fun l hl hl' => hall l (by omega) (by omega)⟩
      rw [visitPages]
      cases hl : d.lookup (i * PGSIZE) with
      | none =>
          refine hskip fun hm => ?_
          rw [lookup_of_mapped hm] at hl
          cases hl
      | some pte =>
          have hpte : d.pte i = pte := pte_of_lookup hl
          dsimp only
          split
          case isFalse hP => exact hskip (by rwa [Pgdir.Mapped, hpte])
          rename_i hP
          have hm : d.Mapped i := by rwa [Pgdir.Mapped, hpte]
          split
          · rename_i h0
            refine ⟨rfl, fun hall => (hall i le_rfl (by omega) hm).ne_zero ?_⟩
            rw [hpte, h0]
          have htaken := taken_succ_iff (k := k) hl hm hn
          refine wp_seq (Lib.wp_weaken (kfree_spec pte.addr s) ?_) ?_
          · rintro e ⟨he, hbad⟩
            exact ⟨he, fun hall => hbad (hpte ▸ (htaken.mp hall).1)⟩
          rintro _ u ⟨hv, hu⟩
          rw [← hpte] at hv hu
          refine Lib.wp_weaken (wp_mono (ih _ (i + 1) u (by omega)) ?_) ?_
          · rintro d' t ⟨ht, hc⟩
            exact ⟨htaken.mpr ⟨hv, ht⟩, hc.clear hl hm hn hu⟩
          · rintro e ⟨he, ht⟩
            exact ⟨he, fun hall => ht (htaken.mp hall).2⟩

/-! ### `deallocuvm` -/

/-- The page `j` starts in `[PGROUNDUP(newsz), oldsz)`. -/
def Between (newsz oldsz j : ℕ) : Prop := PGROUNDUP newsz ≤ j * PGSIZE ∧ j * PGSIZE < oldsz

instance (newsz oldsz j : ℕ) : Decidable (Between newsz oldsz j) := instDecidableAnd

/-- How many pages start there. -/
def span (newsz oldsz : ℕ) : ℕ := npages oldsz - npages newsz

theorem between_iff {newsz oldsz : ℕ} (h : newsz < oldsz) :
    Between newsz oldsz j ↔ npages newsz ≤ j ∧ j < npages newsz + span newsz oldsz := by
  rw [Between, PGROUNDUP_eq, Nat.mul_le_mul_right_iff (by decide), ← lt_npages, span,
    Nat.add_sub_cancel' (npages_mono h.le)]

/-- **Jumping over a missing table is visiting every page.**  It returns if `kfree` takes the pages,
and then has cleared their entries and freed each of them once. -/
theorem deallocuvm_visits (k : Vm.Symbols) (d : Pgdir) {oldsz newsz : UInt32} (hlt : newsz < oldsz)
    (hk : oldsz.toNat ≤ KERNBASE) {n : ℕ} (hn : oldsz.toNat ≤ n) :
    (Uint.deallocuvm k n d oldsz newsz =
      visitPages k (span newsz.toNat oldsz.toNat) d (npages newsz.toNat) >>= fun d =>
        pure (d, newsz)) ∧
    ∀ s : Machine,
      ((∀ j, Between newsz.toNat oldsz.toNat j → d.Mapped j → Valid k (d.pte j).addr) →
        ∃ d' t, Uint.deallocuvm k n d oldsz newsz s = .ok ((d', newsz), t) ∧ SameTables d d' ∧
          (∀ j < 2 ^ 20, d'.pte j = if Between newsz.toNat oldsz.toNat j ∧ d.Mapped j then 0
            else d.pte j) ∧
          t.kmem = { s.kmem with freelist :=
            (present d (npages newsz.toNat) (span newsz.toNat oldsz.toNat)).reverse ++
              s.kmem.freelist }) ∧
      ((¬ ∀ j, Between newsz.toNat oldsz.toNat j → d.Mapped j → Valid k (d.pte j).addr) →
        Uint.deallocuvm k n d oldsz newsz s = .error .kfree) := by
  have hlt' := UInt32.lt_iff_toNat_lt.mp hlt
  have heq : Uint.deallocuvm k n d oldsz newsz =
      visitPages k (span newsz.toNat oldsz.toNat) d (npages newsz.toNat) >>= fun d =>
        pure (d, newsz) := by
    rw [Uint.deallocuvm_eq k hk hlt, PGROUNDUP_eq, deallocFrom_eq_visitPages hk n _ _ (by omega)]
    rfl
  have htaken : Taken k d (npages newsz.toNat)
      (npages newsz.toNat + span newsz.toNat oldsz.toNat) ↔
      ∀ j, Between newsz.toNat oldsz.toNat j → d.Mapped j → Valid k (d.pte j).addr := by
    simp only [between_iff hlt', and_imp]
    rfl
  have hend : npages newsz.toNat + span newsz.toNat oldsz.toNat ≤ 2 ^ 20 := by
    have := npages_le_USER hk
    have := npages_mono hlt'.le
    have := USER_eq
    rw [span]
    omega
  refine ⟨heq, fun s => ?_⟩
  have hspec := visitPages_spec (k := k) _ d (npages newsz.toNat) s hend
  rw [heq, ← htaken]
  unfold Lib.wp at hspec
  simp only [bind, StateT.bind]
  split at hspec
  · rename_i d' t hrun
    obtain ⟨hall, htab, hpte, hfreed⟩ := hspec
    rw [hrun]
    refine ⟨fun _ => ⟨d', t, rfl, htab, fun j hj => ?_, hfreed⟩, fun hno => absurd hall hno⟩
    have hiff := between_iff hlt' (j := j)
    rw [hpte j hj]
    by_cases hb : Between newsz.toNat oldsz.toNat j
    · rw [if_pos (hiff.mp hb)]
      by_cases hm : d.Mapped j
      · rw [if_pos ⟨hb, hm⟩, unmap_of_mapped hm]
      · rw [if_neg fun h => hm h.2, unmap_of_not_mapped hm]
    · rw [if_neg (mt hiff.mpr hb), if_neg fun h => hb h.1]
  · rename_i e hrun
    obtain ⟨rfl, hno⟩ := hspec
    rw [hrun]
    exact ⟨fun hall => absurd hall hno, fun _ => rfl⟩

/-- Two pages are given back. -/
theorem deallocuvm_visits_small : ∃ d' t,
    Uint.deallocuvm smallLinked.toSymbols 8192 smallSpace 8192 0 smallMachine = .ok ((d', 0), t) ∧
      t.kmem.freelist = [0x302000, 0x200000, 0x201000, 0x202000] := by
  have hU := USER_eq
  have hmapped : ∀ j, Between 0 8192 j → smallSpace.Mapped j → j = 0 := fun j hb hm => by
    refine (smallSpace_mapped ?_).mp hm
    have := hb.2
    simp only [PGSIZE] at this
    omega
  have h0 : (smallSpace.pte 0).addr = 0x302000 := rfl
  obtain ⟨d', t, hrun, -, -, hfreed⟩ := ((deallocuvm_visits smallLinked.toSymbols smallSpace
    (show (0 : UInt32) < 8192 by decide) (by decide) (show (8192 : UInt32).toNat ≤ 8192 by decide)).2
      smallMachine).1 fun j hb hm => by
        rw [hmapped j hb hm, h0]
        exact ⟨by decide, by decide, by decide⟩
  have hpages : present smallSpace 0 2 = [0x302000] := by decide
  refine ⟨d', t, hrun, ?_⟩
  rw [hfreed]
  show (present smallSpace 0 2).reverse ++ _ = _
  rw [hpages]
  simp [smallMachine]

/-- A directory whose page 0 is mapped to the physical page 0. -/
def zeroSpace : Pgdir :=
  ((Pgdir.mk 0x300000 fun _ => none).addTable 0 0x301000).setPte 0 ⟨0, PTE_P⟩

/-- The physical page 0 is not freed: `deallocuvm` panics. -/
theorem not_deallocuvm_returns : ¬ ∀ (k : Vm.Symbols) (d : Pgdir) (oldsz newsz : UInt32),
    newsz < oldsz → oldsz.toNat ≤ KERNBASE → ∃ n, ∀ s : Machine,
      ∃ d' t, Uint.deallocuvm k n d oldsz newsz s = .ok ((d', newsz), t) ∧
        ∀ j < 2 ^ 20, d'.pte j = if Between newsz.toNat oldsz.toNat j ∧ d.Mapped j then 0
          else d.pte j := by
  intro h
  obtain ⟨n, hn⟩ := h smallLinked.toSymbols zeroSpace 1 0 (by decide) (by decide)
  obtain ⟨d', t, hrun, hpte⟩ := hn smallMachine
  cases n with
  | zero =>
      -- No pass at all leaves the entry.
      cases hrun
      exact absurd (hpte 0 (by decide)) (by decide)
  | succ n => cases hrun

end Xv6.Uvm
