import Xv6.Kernel.Files

/-!
# Kernel — the start of the kernel in `main.c`

`main` as far as pages go: the pages below and above 4 MB are handed to the allocator, and between
them and after them the kernel's directory, the stacks of the other CPUs and the first process are
made.

* `boot_booted` — when `inituvm` has mapped the page of the first process, the kernel is `Booted`,
  with the pages that `kinit1` and `kinit2` handed out (`handed`).
-/

namespace Xv6.Kernel

open Xv6.Process (NPROC)
open Xv6.Vm (Page Pgdir Kmem Symbols PGSIZE PHYSTOP V2P PGROUNDUP)
open Lib (Balances)

/-- `P2V(4 * 1024 * 1024)`, as a physical address. -/
def FOURMB : ℕ := 4 * 1024 * 1024

/-- The kernel when `main` has started the first process: its entry is `0`, no file is open, and
each of the pages `all` is in one place. -/
structure Booted (all : Multiset Page) (s : System) : Prop where
  distinct : all.Nodup
  total : s.kmem.free + s.pages = all
  files : ∀ f, (s.file f).ref = 0 ∧ (s.file f).type = .none
  pipes : s.pipes = [] ∧ s.made = [] ∧ s.freed = []
  descriptors : ∀ i fd, (s.proc i).ofile fd = none
  initproc : (s.proc s.initproc).state = .runnable ∧ (s.proc s.initproc).sz = Vm.PGSIZE
  others : ∀ i, i ≠ s.initproc → (s.proc i).state = .unused

variable (k : Symbols)

/-- The pages handed to the allocator, by `kinit1` and by `kinit2`. -/
def handed : List Page :=
  Vm.rangePages (V2P k.kend) FOURMB ++ Vm.rangePages FOURMB PHYSTOP

/-- `startothers`: a stack for each of the other CPUs, unchecked. -/
def startothers : ℕ → Vm.Vm (List Page)
  | 0 => pure []
  | n + 1 => do
      let stack ← Vm.kalloc
      let bootStacks ← startothers n
      pure (stack.toList ++ bootStacks)

/-- What `main` allocates: the kernel's directory, the boot stacks, and the kernel stack and the
directory of the first process; and whether `inituvm` has mapped its page, which it does not check. -/
structure Boot where
  kpgdir : Pgdir
  bootStacks : List Page
  kstack : Page
  pgdir : Pgdir
  mem : Page
  mapped : Bool

/-- `userinit`. -/
def userinit (kpgdir : Pgdir) (bootStacks : List Page) : Vm.Vm Boot := do
  match ← Vm.kalloc with
  | none => throw .fault
  | some kstack =>
      match ← Vm.setupkvm k with
      | none => throw .userinit
      | some pgdir =>
          match ← Vm.kalloc with
          | none => throw .fault
          | some mem => do
              let (mapped, pgdir) ← Vm.mappages pgdir 0 PGSIZE mem true true
              pure ⟨kpgdir, bootStacks, kstack, pgdir, mem, mapped⟩

/-- `main`, for `ncpu` CPUs. -/
def main (ncpu : ℕ) : Vm.Vm Boot := do
  Vm.freerange k (V2P k.kend) FOURMB
  match ← Vm.setupkvm k with
  | none => throw .fault
  | some kpgdir => do
      let bootStacks ← startothers (ncpu - 1)
      Vm.freerange k FOURMB PHYSTOP
      userinit k kpgdir bootStacks

/-- The kernel with the first process, and nothing else. -/
def Boot.kernel (b : Boot) (m : Kmem) : System where
  kmem := m
  file := fun _ => ⟨.none, 0, false, false, 0, 0, 0⟩
  pipes := []
  proc := fun i =>
    if i = 0 then ⟨.runnable, none, some b.kstack, some b.pgdir, PGSIZE, fun _ => none⟩
    else ⟨.unused, none, none, none, 0, fun _ => none⟩
  initproc := 0
  kpgdir := b.kpgdir
  bootStacks := b.bootStacks
  made := []
  freed := []

/-- What the first allocations hold. -/
def Boot.pages (b : Boot) : Multiset Page :=
  b.kpgdir.pages + b.bootStacks + {b.kstack} + b.pgdir.pages + if b.mapped then 0 else {b.mem}

/-- Each CPU gets a page for its stack. -/
theorem startothers_balances (n : ℕ) :
    Balances Kmem.free 0 (startothers n) fun bootStacks g => g = (bootStacks : Multiset Page) := by
  induction n with
  | zero => exact .pure rfl
  | succ n ih =>
      refine .bind Vm.kalloc_balances fun r g hg => ?_
      refine .seq g ih (fun bootStacks g' hg' => ?_) (zero_add g).symm
      subst hg hg'
      refine .pure ?_
      rw [← Multiset.coe_add, add_comm]
      cases r <;> rfl

/-- `userinit` takes the pages of the first process. -/
theorem userinit_balances (kpgdir : Pgdir) (bootStacks : List Page) :
    Balances Kmem.free (kpgdir.pages + bootStacks) (userinit k kpgdir bootStacks) fun b g => g = b.pages := by
  refine .seq _ Vm.kalloc_balances (fun r g hg => ?_) (zero_add _).symm
  subst hg
  cases r with
  | none => exact .throw
  | some kstack =>
      refine .seq _ (Vm.setupkvm_balances k) (fun r g hg => ?_) (zero_add _).symm
      subst hg
      cases r with
      | none => exact .throw
      | some d =>
          refine .seq _ Vm.kalloc_balances (fun r g hg => ?_) (zero_add _).symm
          subst hg
          cases r with
          | none => exact .throw
          | some mem =>
              refine .seq ({kstack} + (kpgdir.pages + bootStacks))
                (Vm.mappages_user rfl (by decide) d mem true true) (fun r g hg => ?_) ?_
              · subst hg
                refine .pure ?_
                simp only [Boot.pages]
                ac_rfl
              · simp only [Option.elim_some, Vm.dirPages]
                ac_rfl

/-- After `main` every page that was handed over is in one place. -/
theorem main_balances (ncpu : ℕ) :
    Balances Kmem.free (handed k : Multiset Page) (main k ncpu) fun b g => g = b.pages := by
  have hlow := Vm.freerange_balances k (V2P k.kend) FOURMB
  have hhigh := Vm.freerange_balances k FOURMB PHYSTOP
  refine .seq (Vm.rangePages FOURMB PHYSTOP) hlow (fun _ g hg => ?_) rfl
  refine .seq _ (Vm.setupkvm_balances k) (fun r g' hg' => ?_) (zero_add _).symm
  subst hg hg'
  cases r with
  | none => exact .throw
  | some kpgdir =>
      refine .seq _ (startothers_balances _) (fun bootStacks g hg => ?_) (zero_add _).symm
      subst hg
      refine .seq (kpgdir.pages + bootStacks) hhigh (fun _ g hg => ?_) ?_
      · subst hg
        rw [zero_add]
        exact userinit_balances k kpgdir bootStacks
      · generalize Vm.rangePages FOURMB PHYSTOP = high
        rw [zero_add, Vm.dirPages]
        ac_rfl

/-- The pages handed out are distinct. -/
theorem handed_nodup : (handed k).Nodup := by
  have hpos : 0 < PGSIZE := by decide
  have hrange : ∀ a b, (Vm.rangePages a b).Nodup := by
    intro a b
    refine (List.nodup_range).map fun i j h => ?_
    exact Nat.eq_of_mul_eq_mul_right hpos (Nat.add_left_cancel h)
  have hbelow : ∀ a b p : ℕ, p ∈ Vm.rangePages a b → a ≤ p ∧ p < b := by
    intro a b p hp
    obtain ⟨i, hi, rfl⟩ := List.mem_map.mp hp
    have hi := List.mem_range.mp hi
    simp only [PGROUNDUP, PGSIZE] at *
    omega
  refine List.Nodup.append (hrange _ _) (hrange _ _) fun p hlow hhigh => ?_
  have h₁ := (hbelow _ _ p hlow).2
  have h₂ := (hbelow _ _ p hhigh).1
  omega

/-- The first process, with the rest of the pages on the free list. -/
theorem Boot.booted {b : Boot} {m : Kmem} {all : Multiset Page} (hd : all.Nodup)
    (h : m.free + b.pages = all) (hm : b.mapped = true) : Booted all (b.kernel m) where
  distinct := hd
  total := by
    have hsum : ∑ i, procPages ((b.kernel m).proc i) = {b.kstack} + b.pgdir.pages := by
      rw [Finset.sum_eq_single 0]
      · rfl
      · intro i _ hi
        simp [Boot.kernel, hi, procPages]
      · simp
    rw [← h, System.pages, hsum]
    simp only [Boot.pages, Boot.kernel, hm, if_true, List.map_nil, Multiset.coe_nil, add_zero]
    ac_rfl
  files f := ⟨rfl, rfl⟩
  pipes := ⟨rfl, rfl, rfl⟩
  descriptors i fd := by
    simp only [Boot.kernel]
    split <;> rfl
  initproc := ⟨rfl, rfl⟩
  others i hi := by
    have : i ≠ 0 := hi
    simp [Boot.kernel, this]

/-- **The kernel that `main` leaves.** -/
theorem boot_booted {ncpu : ℕ} {refuse : ℕ → Bool} {b : Boot} {m : Kmem}
    (h : main k ncpu ⟨[], 0, refuse⟩ = .ok (b, m)) (hm : b.mapped = true) :
    Booted (handed k : Multiset Page) (b.kernel m) := by
  obtain ⟨r, rfl, e⟩ := main_balances k ncpu _ _ _ h
  refine Boot.booted (Multiset.coe_nodup.mpr (handed_nodup k)) ?_ hm
  rw [e]
  exact zero_add _

end Xv6.Kernel
