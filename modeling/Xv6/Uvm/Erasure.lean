import Xv6.Uvm.Basic

/-!
# Address spaces — the pages, without what they hold

`Vm.Pages` accounts for the pages and knows of no contents and of three flags only.  It is this
model with the contents and the other flags erased (`Erases`): every function here returns what
its namesake there returns, and fails where it fails.  So the books balance here too, for every
pattern of refusals.

* `allocuvm_erases`, `deallocuvm_erases`, `freevm_erases`, `setupkvm_erases`, `copyuvm_erases`.
-/

namespace Xv6.Uvm

open Vm (Page Kmem Panic PGSIZE NPDENTRIES KERNBASE PDX PTX PGADDR PGROUNDUP PGROUNDDOWN P2V)
open Lib (Balances)

/-! ### Flags -/

namespace Pte

theorem has_twoPow (e : Pte) {i : ℕ} (h : i < 12) : e.has (BitVec.twoPow 12 i) = e.flags.getLsbD i := by
  have hne : BitVec.twoPow 12 i ≠ 0#12 := by
    intro h0
    have := congrArg (BitVec.getLsbD · i) h0
    simp [h] at this
  rw [has, BitVec.and_twoPow]
  cases e.flags.getLsbD i <;> simp [hne]

theorem has_P (e : Pte) : e.has PTE_P = e.flags.getLsbD 0 := e.has_twoPow (show 0 < 12 by decide)

theorem has_W (e : Pte) : e.has PTE_W = e.flags.getLsbD 1 := e.has_twoPow (show 1 < 12 by decide)

theorem has_U (e : Pte) : e.has PTE_U = e.flags.getLsbD 2 := e.has_twoPow (show 2 < 12 by decide)

@[simp]
theorem or_P_has_P (pa : Page) (perm : Flags) : (Pte.mk pa (perm ||| PTE_P)).has PTE_P = true := by
  rw [has_P, BitVec.getLsbD_or, show PTE_P.getLsbD 0 = true by decide, Bool.or_true]

@[simp]
theorem or_P_has_W (pa : Page) (perm : Flags) :
    (Pte.mk pa (perm ||| PTE_P)).has PTE_W = (Pte.mk pa perm).has PTE_W := by
  rw [has_W, has_W, BitVec.getLsbD_or, show PTE_P.getLsbD 1 = false by decide, Bool.or_false]

@[simp]
theorem or_P_has_U (pa : Page) (perm : Flags) :
    (Pte.mk pa (perm ||| PTE_P)).has PTE_U = (Pte.mk pa perm).has PTE_U := by
  rw [has_U, has_U, BitVec.getLsbD_or, show PTE_P.getLsbD 2 = false by decide, Bool.or_false]

@[simp]
theorem zero_has (flag : Flags) : (0 : Pte).has flag = false := by
  show decide (0#12 &&& flag ≠ 0) = false
  simp

end Pte

/-! ### Erasure -/

/-- An entry, as `Vm` sees it. -/
def Pte.erase (e : Pte) : Option Vm.Pte :=
  if e.has PTE_P then some ⟨e.addr, e.has PTE_W, e.has PTE_U⟩ else none

/-- A table, as `Vm` sees it. -/
def Pgtab.erase (t : Pgtab) : Vm.Pgtab := ⟨t.page, fun i => (t.pte i).erase⟩

/-- A directory, as `Vm` sees it. -/
def Pgdir.erase (d : Pgdir) : Vm.Pgdir := ⟨d.page, fun i => (d.pde i).map Pgtab.erase⟩

/-- `y` is `x` without the contents of memory, its results seen through `f`. -/
def Erases {α β : Type} (x : Uvm α) (y : Vm.Vm β) (f : α → β) : Prop :=
  ∀ s, y s.kmem = (x s).map fun r => (f r.1, r.2.kmem)

namespace Erases

variable {α β γ δ : Type} {x : Uvm α} {y : Vm.Vm β} {f : α → β}

theorem pure {a : α} {b : β} (h : f a = b) : Erases (pure a) (pure b) f := by
  subst h
  exact fun s => rfl

theorem throw {e : Panic} : Erases (throw e) (throw e) f := fun _ => rfl

theorem bind {g : α → Uvm γ} {h : β → Vm.Vm δ} {f' : γ → δ} (hx : Erases x y f)
    (hg : ∀ a, Erases (g a) (h (f a)) f') : Erases (x >>= g) (y >>= h) f' := by
  intro s
  simp only [Bind.bind, StateT.bind, Except.bind, hx s]
  cases x s with
  | error e => rfl
  | ok r => exact hg r.1 r.2

/-- What only changes the contents of memory is nothing. -/
theorem skip {u : Machine → Machine} {g : PUnit → Uvm γ} {z : Vm.Vm δ} {f' : γ → δ}
    (hu : ∀ s, (u s).kmem = s.kmem) (hg : Erases (g ⟨⟩) z f') : Erases (modify u >>= g) z f' := by
  intro s
  rw [← hu s]
  exact hg (u s)

theorem get {g : Machine → Uvm γ} {z : Vm.Vm δ} {f' : γ → δ} (hg : ∀ s, Erases (g s) z f') :
    Erases (get >>= g) z f' :=
  fun s => hg s s

theorem onKmem (x : Vm.Vm α) : Erases (onKmem x) x id := by
  intro s
  simp only [Uvm.onKmem]
  cases x s.kmem <;> rfl

/-- Two branches, each without the addresses. -/
theorem ite {p q : Prop} [Decidable p] [Decidable q] {x' : Uvm α} {y' : Vm.Vm β} (hp : p ↔ q)
    (hx : q → Erases x y f) (hx' : ¬ q → Erases x' y' f) :
    Erases (if p then x else x') (if q then y else y') f := by
  by_cases h : q
  · rw [if_pos h, if_pos (hp.mpr h)]
    exact hx h
  · rw [if_neg h, if_neg fun h' => h (hp.mp h')]
    exact hx' h

/-- The books of what is erased balance. -/
theorem balances {g : Multiset Page} {post : β → Multiset Page → Prop} (hx : Erases x y f)
    (hy : Balances Kmem.free g y post) :
    Balances (fun s : Machine => s.kmem.free) g x fun a r => post (f a) r := by
  intro s a t h
  have := hx s
  rw [h] at this
  exact hy _ _ _ this

end Erases

variable {d : Pgdir} {va : ℕ}

@[simp]
theorem erase_zero : (0 : Pte).erase = none := rfl

theorem lookup_erase (d : Pgdir) (va : ℕ) : d.erase.lookup va = (d.lookup va).map Pte.erase := by
  simp only [Vm.Pgdir.lookup, Pgdir.erase, Pgdir.lookup]
  cases d.pde (PDX va) <;> rfl

/-- A new table, without the addresses. -/
theorem erase_addTable (d : Pgdir) (va : ℕ) (p : Page) :
    (d.addTable va p).erase = d.erase.addTable va p := by
  simp only [Pgdir.erase, Pgdir.addTable, Vm.Pgdir.addTable, Vm.Pgdir.mk.injEq, true_and]
  funext i
  by_cases h : i = PDX va
  · subst h
    simp [Pgtab.erase]
  · simp [Function.update_of_ne h]

/-- Setting an entry, and forgetting its address. -/
theorem erase_setPte (d : Pgdir) (va : ℕ) (x : Pte) :
    (d.setPte va x).erase = d.erase.setPte va x.erase := by
  simp only [Pgdir.erase, Pgdir.setPte, Vm.Pgdir.setPte, Vm.Pgdir.mk.injEq, true_and]
  funext i
  by_cases h : i = PDX va
  · subst h
    simp only [Function.update_self]
    cases d.pde (PDX va) with
    | none => rfl
    | some t =>
        simp only [Option.map_some, Pgtab.erase, Option.some.injEq, Vm.Pgtab.mk.injEq, true_and]
        funext j
        by_cases hj : j = PTX va
        · subst hj
          simp
        · simp [Function.update_of_ne hj]
  · simp [Function.update_of_ne h]

/-- An entry is present without its address, too. -/
theorem present_erase (d : Pgdir) (va : ℕ) :
    (d.entry va).has PTE_P = ((d.erase.lookup va).join).isSome := by
  rw [lookup_erase, Pgdir.entry]
  cases d.lookup va with
  | none => rfl
  | some e =>
      simp only [Option.getD_some, Option.map_some, Option.join_some, Pte.erase]
      cases e.has PTE_P <;> rfl

/-! ### The functions -/

variable (k : Vm.Symbols)

theorem kalloc_erases : Erases kalloc Vm.kalloc id := .onKmem _

theorem kfree_erases (v : Page) : Erases (kfree k v) (Vm.kfree k v) id := by
  intro s
  simp only [kfree, Bind.bind, StateT.bind, onKmem]
  cases Vm.kfree k v s.kmem <;> rfl

/-- `walkpgdir` does the same without the addresses. -/
theorem walkpgdir_erases (d : Pgdir) (va : ℕ) :
    Erases (walkpgdir d va) (Vm.walkpgdir d.erase va) (Option.map Pgdir.erase) := by
  rw [walkpgdir, Vm.walkpgdir]
  simp only [Pgdir.erase]
  cases d.pde (PDX va) with
  | some t => exact .pure rfl
  | none =>
      refine kalloc_erases.bind fun r => ?_
      cases r with
      | none => exact .pure rfl
      | some p => exact .pure (congrArg some (erase_addTable d va p))

/-- The loop of `mappages` does the same without the addresses. -/
theorem mapFrom_erases (perm : Flags) (n : ℕ) : ∀ (d : Pgdir) (a pa : ℕ),
    Erases (mapFrom perm n d a pa)
      (Vm.mapFrom ((Pte.mk 0 perm).has PTE_W) ((Pte.mk 0 perm).has PTE_U) n d.erase a pa)
      (Prod.map id Pgdir.erase) := by
  induction n with
  | zero => exact fun d a pa => .pure rfl
  | succ n ih =>
      intro d a pa
      refine (walkpgdir_erases d a).bind fun r => ?_
      cases r with
      | none => exact .pure rfl
      | some d =>
          refine .ite (by rw [present_erase]) (fun _ => .throw) fun _ => ?_
          have hset := erase_setPte d a ⟨pa, perm ||| PTE_P⟩
          simp only [Pte.erase, Pte.or_P_has_P, Pte.or_P_has_W, Pte.or_P_has_U, if_true] at hset
          have := ih (d.setPte a ⟨pa, perm ||| PTE_P⟩) (a + PGSIZE) (pa + PGSIZE)
          rw [hset] at this
          exact this

theorem mappages_erases (d : Pgdir) (va size pa : ℕ) (perm : Flags) :
    Erases (mappages d va size pa perm)
      (Vm.mappages d.erase va size pa ((Pte.mk 0 perm).has PTE_W) ((Pte.mk 0 perm).has PTE_U))
      (Prod.map id Pgdir.erase) :=
  mapFrom_erases perm _ d _ pa

/-- So does the loop of `deallocuvm`. -/
theorem deallocFrom_erases (oldsz n : ℕ) : ∀ (d : Pgdir) (a : ℕ),
    Erases (deallocFrom k oldsz n d a) (Vm.deallocFrom k oldsz n d.erase a) Pgdir.erase := by
  induction n with
  | zero => exact fun d a => .pure rfl
  | succ n ih =>
      intro d a
      rw [deallocFrom, Vm.deallocFrom]
      refine .ite Iff.rfl (fun _ => ?_) fun _ => .pure rfl
      rw [lookup_erase]
      cases d.lookup a with
      | none => exact ih _ _
      | some e =>
          simp only [Option.map_some, Pte.erase]
          cases e.has PTE_P with
          | false => exact ih _ _
          | true =>
              simp only [if_true]
              refine .ite Iff.rfl (fun _ => .throw) fun _ => (kfree_erases k _).bind fun _ => ?_
              have := ih (d.setPte a 0) (a + PGSIZE)
              rw [erase_setPte, erase_zero] at this
              exact this

theorem deallocuvm_erases (d : Pgdir) (oldsz newsz : ℕ) :
    Erases (deallocuvm k d oldsz newsz) (Vm.deallocuvm k d.erase oldsz newsz)
      (Prod.map Pgdir.erase id) :=
  .ite Iff.rfl (fun _ => .pure rfl) fun _ =>
    (deallocFrom_erases k oldsz oldsz d _).bind fun _ => .pure rfl

/-- So does the loop of `freevm`. -/
theorem freeTables_erases (d : Pgdir) (n : ℕ) :
    Erases (freeTables k d n) (Vm.freeTables k d.erase n) id := by
  induction n with
  | zero => exact .pure rfl
  | succ n ih =>
      refine ih.bind fun _ => ?_
      simp only [Pgdir.erase]
      cases d.pde n with
      | none => exact .pure rfl
      | some t => exact kfree_erases k t.page

theorem freevm_erases (d : Option Pgdir) :
    Erases (freevm k d) (Vm.freevm k (d.map Pgdir.erase)) id := by
  cases d with
  | none => exact .throw
  | some d =>
      exact (deallocuvm_erases k d _ _).bind fun r => (freeTables_erases k r.1 _).bind fun _ =>
        kfree_erases k _

/-- So do the mappings of the kernel. -/
theorem mapKernel_erases (es : List Vm.Kmap) : ∀ d : Pgdir,
    Erases (mapKernel k d es) (Vm.mapKernel k d.erase es) (Option.map Pgdir.erase) := by
  induction es with
  | nil => exact fun d => .pure rfl
  | cons e es ih =>
      intro d
      have hmap := mappages_erases d e.virt ((e.physEnd + 2 ^ 32 - e.physStart) % 2 ^ 32) e.physStart
        (perm e)
      have hw : (Pte.mk 0 (perm e)).has PTE_W = e.w := by
        unfold perm
        cases e.w <;> rfl
      have hu : (Pte.mk 0 (perm e)).has PTE_U = false := by
        unfold perm
        cases e.w <;> rfl
      rw [hw, hu] at hmap
      refine hmap.bind fun ⟨ok, d⟩ => ?_
      cases ok with
      | true => exact ih d
      | false => exact (freevm_erases k (some d)).bind fun _ => .pure rfl

theorem setupkvm_erases : Erases (setupkvm k) (Vm.setupkvm k) (Option.map Pgdir.erase) := by
  refine kalloc_erases.bind fun r => ?_
  cases r with
  | none => exact .pure rfl
  | some p => exact .ite Iff.rfl (fun _ => .throw) fun _ => mapKernel_erases k _ ⟨p, fun _ => none⟩

/-- So does the loop of `allocuvm`. -/
theorem allocFrom_erases (oldsz newsz n : ℕ) : ∀ (d : Pgdir) (a : ℕ),
    Erases (allocFrom k oldsz newsz n d a) (Vm.allocFrom k oldsz newsz n d.erase a)
      (Prod.map Pgdir.erase id) := by
  induction n with
  | zero => exact fun d a => .pure rfl
  | succ n ih =>
      intro d a
      refine kalloc_erases.bind fun r => ?_
      cases r with
      | none => exact (deallocuvm_erases k d _ _).bind fun _ => .pure rfl
      | some mem =>
          refine .skip (fun _ => rfl) ((mappages_erases d a PGSIZE mem _).bind fun ⟨ok, d⟩ => ?_)
          cases ok with
          | true => exact ih _ _
          | false =>
              exact (deallocuvm_erases k d _ _).bind fun _ => (kfree_erases k mem).bind fun _ =>
                .pure rfl

theorem allocuvm_erases (d : Pgdir) (oldsz newsz : ℕ) :
    Erases (allocuvm k d oldsz newsz) (Vm.allocuvm k d.erase oldsz newsz)
      (Prod.map Pgdir.erase id) :=
  .ite Iff.rfl (fun _ => .pure rfl) fun _ =>
    .ite Iff.rfl (fun _ => .pure rfl) fun _ => allocFrom_erases k oldsz newsz _ d _

/-- So does the loop of `copyuvm`. -/
theorem copyFrom_erases (pgdir : Pgdir) (n : ℕ) : ∀ (d : Pgdir) (i : ℕ),
    Erases (copyFrom k pgdir n d i) (Vm.copyFrom k pgdir.erase n d.erase i)
      (Option.map Pgdir.erase) := by
  induction n with
  | zero => exact fun d i => .pure rfl
  | succ n ih =>
      intro d i
      rw [copyFrom, Vm.copyFrom, lookup_erase]
      cases pgdir.lookup i with
      | none => exact .throw
      | some e =>
          simp only [Option.map_some, Pte.erase]
          cases hp : e.has PTE_P with
          | false => exact .throw
          | true =>
              simp only [if_true, Bool.true_eq_false, if_false]
              refine kalloc_erases.bind fun r => ?_
              cases r with
              | none => exact (freevm_erases k (some d)).bind fun _ => .pure rfl
              | some mem =>
                  refine .get fun s => .skip (fun _ => rfl)
                    ((mappages_erases d i PGSIZE mem _).bind fun r => ?_)
                  obtain ⟨ok, d⟩ := r
                  cases ok with
                  | true => exact ih _ _
                  | false =>
                      exact (kfree_erases k mem).bind fun _ =>
                        (freevm_erases k (some d)).bind fun _ => .pure rfl

theorem copyuvm_erases (pgdir : Pgdir) (sz : ℕ) :
    Erases (copyuvm k pgdir sz) (Vm.copyuvm k pgdir.erase sz) (Option.map Pgdir.erase) := by
  refine (setupkvm_erases k).bind fun r => ?_
  cases r with
  | none => exact .pure rfl
  | some d => exact copyFrom_erases k pgdir _ d 0

end Xv6.Uvm
