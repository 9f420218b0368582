import Xv6.Uvm.Fork
import Xv6.Uvm.Call

/-!
# Address spaces — the processes of a running system

The processes that have an address space, in one machine: the first is made by `userinit`, the
others by `fork`; `growproc` and `exec` change an address space and `wait` frees it, while user code
stores into its own pages and the rest of the kernel takes pages and gives them back.

* `Sound` — every process has the pages of its size mapped, and no page is in two places.
* `Step.sound` — a step keeps that, by one lemma for each call; `Reachable.sound` — so does a run.
* `growproc_contract` — what `growproc` does, with what it is relied on for.

A call whose panic or null pointer stops the kernel is not a step.
-/

namespace Xv6.Uvm

open Vm (Page PGSIZE KERNBASE PGROUNDUP)
open Lib (wp_seq wp_mono wp_of_ok)

/-! ### The first process -/

/-- `inituvm`, with what `mappages` returned, which it does not check. -/
def inituvm (d : Pgdir) (init : List UInt8) : Uvm (Bool × Pgdir) :=
  if PGSIZE ≤ init.length then throw .inituvm
  else do
    match ← kalloc with
    | none => throw .fault
    | some mem => do
        memset mem 0 PGSIZE
        let (mapped, d) ← mappages d 0 PGSIZE mem (PTE_W ||| PTE_U)
        memmove mem (bytes init) init.length
        pure (mapped, d)

/-- `userinit`, and whether `inituvm` has mapped the page. -/
def userinit (k : Vm.Symbols) (init : List UInt8) : Uvm (Bool × Process) := do
  match ← setupkvm k with
  | none => throw .userinit
  | some d => do
      let (mapped, d) ← inituvm d init
      pure (mapped, ⟨d, PGSIZE, 0, PGSIZE, "initcode".toUTF8.toList⟩)

/-! ### Runs -/

/-- Memory, and the processes with their address spaces. -/
structure System where
  mem : Machine
  /-- The processes that have an address space. -/
  procs : Multiset Process
  /-- The pages that the rest of the kernel has taken. -/
  held : Multiset Page

/-- The pages of the address spaces. -/
def spacePages (ps : Multiset Process) : Multiset Page := (ps.map fun p => p.pgdir.pages).sum

/-- The directory and the size of a process are changed. -/
def Process.resize (p : Process) (d : Pgdir) (sz : ℕ) : Process := { p with pgdir := d, sz := sz }

/-- One call of one process, or of the kernel for itself. -/
inductive Step (k : Vm.Symbols) : System → System → Prop
  | growproc {s t : Machine} {p : Process} {ps : Multiset Process} {held : Multiset Page} {n r : ℤ}
      {d : Pgdir} {sz : ℕ} (hlo : -2 ^ 31 ≤ n) (hhi : n < 2 ^ 31) (hn : Proper p.sz n)
      (h : growproc k p.pgdir p.sz n s = .ok ((r, d, sz), t)) :
      Step k ⟨s, p ::ₘ ps, held⟩ ⟨t, p.resize d sz ::ₘ ps, held⟩
  | fork {s t : Machine} {p : Process} {ps : Multiset Process} {held : Multiset Page}
      {r : Option Pgdir} (h : copyuvm k p.pgdir p.sz s = .ok (r, t)) :
      Step k ⟨s, p ::ₘ ps, held⟩
        ⟨t, r.elim 0 (fun d => {p.resize d p.sz}) + (p ::ₘ ps), held⟩
  | exec {s : Machine} {p : Process} {ps : Multiset Process} {held : Multiset Page} {found : Bool}
      {f path : List UInt8} {argv : List (List UInt8)} {outstanding ref : ℕ} {r : ℤ} {u : Kernel}
      (h : exec k found f path argv ⟨s, p, outstanding, ref, false⟩ = .ok (r, u)) :
      Step k ⟨s, p ::ₘ ps, held⟩ ⟨u.mem, u.proc ::ₘ ps, held⟩
  | wait {s t : Machine} {p : Process} {ps : Multiset Process} {held : Multiset Page}
      (h : freevm k (some p.pgdir) s = .ok ((), t)) :
      Step k ⟨s, p ::ₘ ps, held⟩ ⟨t, ps, held⟩
  | store {s : Machine} {p : Process} {ps : Multiset Process} {held : Multiset Page} (w : ℕ × UInt8) :
      Step k ⟨s, p ::ₘ ps, held⟩ ⟨store p.pgdir s w, p ::ₘ ps, held⟩
  | kalloc {s t : Machine} {ps : Multiset Process} {held : Multiset Page} {r : Option Page}
      (h : kalloc s = .ok (r, t)) : Step k ⟨s, ps, held⟩ ⟨t, ps, r.elim 0 ({·}) + held⟩
  | kfree {s t : Machine} {ps : Multiset Process} {held : Multiset Page} {v : Page}
      (h : kfree k v s = .ok ((), t)) : Step k ⟨s, ps, v ::ₘ held⟩ ⟨t, ps, held⟩

/-- The states of a system that `userinit` has started, with memory for the page of the first
process. -/
inductive Reachable (k : Vm.Symbols) : System → Prop
  | boot {s t : Machine} {held : Multiset Page} {init : List UInt8} {p : Process}
      (ho : Owns k s held) (h : userinit k init s = .ok ((true, p), t)) : Reachable k ⟨t, {p}, held⟩
  | step {σ τ : System} (hσ : Reachable k σ) (h : Step k σ τ) : Reachable k τ

/-! ### The invariant -/

/-- A process has the pages of its size mapped, and of the kernel's pages none for the user. -/
structure Process.Sound (p : Process) : Prop where
  covers : Covers p.pgdir p.sz
  size : p.sz < KERNBASE
  sealed : Sealed p.pgdir

/-- Every page belongs to one process at most, and every process is sound. -/
structure Sound (k : Vm.Symbols) (σ : System) : Prop where
  owns : Owns k σ.mem (spacePages σ.procs + σ.held)
  procs : ∀ p ∈ σ.procs, p.Sound

variable {k : Linked} {s t : Machine} {p p' : Process} {ps : Multiset Process} {held F : Multiset Page}
  {d : Pgdir} {σ τ : System}

theorem spacePages_cons (p : Process) (ps : Multiset Process) :
    spacePages (p ::ₘ ps) = p.pgdir.pages + spacePages ps := by
  rw [spacePages, Multiset.map_cons, Multiset.sum_cons, spacePages]

/-- One process, with the pages of everybody else. -/
theorem Sound.split {k : Vm.Symbols} (h : Sound k ⟨s, p ::ₘ ps, held⟩) :
    Owns k s (p.pgdir.pages + (spacePages ps + held)) ∧ p.Sound ∧ ∀ q ∈ ps, q.Sound := by
  have ho := h.owns
  rw [spacePages_cons, add_assoc] at ho
  exact ⟨ho, h.procs p (Multiset.mem_cons_self p ps), fun q hq => h.procs q (Multiset.mem_cons_of_mem hq)⟩

theorem Sound.join {k : Vm.Symbols} (ho : Owns k t (p.pgdir.pages + (spacePages ps + held)))
    (hp : p.Sound) (hps : ∀ q ∈ ps, q.Sound) : Sound k ⟨t, p ::ₘ ps, held⟩ where
  owns := by
    rw [spacePages_cons, add_assoc]
    exact ho
  procs q hq := (Multiset.mem_cons.mp hq).elim (fun he => he ▸ hp) (hps q)

/-! ### What each call keeps -/

/-- `inituvm` into a directory that maps no user page. -/
theorem inituvm_total {k : Vm.Symbols} (hd : Sealed d) (hun : ∀ j < USER, ¬ d.Mapped j)
    (ho : Owns k s (d.pages + F)) {init : List UInt8} :
    Lib.wp (fun _ => True) (inituvm d init) (fun r t => r.1 = true →
      Covers r.2 PGSIZE ∧ Sealed r.2 ∧ Owns k t (r.2.pages + F)) s := by
  have hU : 0 < USER := by decide
  have hlt : USER < 2 ^ 20 := by decide
  have hone : npages PGSIZE = 1 := by decide
  unfold inituvm
  split
  · trivial
  refine wp_seq (Lib.wp_weaken (kalloc_total s) fun _ _ => trivial) fun r u ⟨_, hfree⟩ => ?_
  cases r with
  | none => trivial
  | some mem =>
      have hset : Lib.wp (fun _ => True) (memset mem 0 PGSIZE) (fun _ v => v.kmem = u.kmem) u := rfl
      refine wp_seq hset fun _ v hv => ?_
      have hmap := mapPage_total hU (hun 0 hU) mem (PTE_W ||| PTE_U) v
      rw [Nat.zero_mul] at hmap
      refine wp_seq (Lib.wp_weaken hmap fun _ _ => trivial) fun r w ⟨_, _, hother, hself, _, hbal⟩ => ?_
      obtain ⟨mapped, d'⟩ := r
      have hmove : Lib.wp (fun _ : Vm.Panic => True) (memmove mem (bytes init) init.length)
          (fun _ x => x.kmem = w.kmem) w := rfl
      refine wp_seq hmove fun _ x hx hr => ?_
      obtain rfl : mapped = true := hr
      refine ⟨fun j hj => ?_, fun j hj hj' => ?_, ho.of_eq ?_⟩
      · rw [hone, Nat.lt_one_iff, Pgdir.Mapped]
        by_cases h0 : j = 0
        · subst h0
          rw [hself rfl]
          exact iff_of_true (Pte.or_P_has_P _ _) rfl
        · rw [hother j (hj.trans hlt) h0]
          exact iff_of_false (hun j hj) h0
      · rw [hother j hj' (hU.trans_le hj).ne']
        exact hd j hj hj'
      · rw [if_pos rfl, add_zero, hv] at hbal
        rw [hx, ← add_assoc, hbal, ← hfree, Option.elim_some]
        ac_rfl

/-- The first process is sound. -/
theorem userinit_sound {init : List UInt8} (ho : Owns k.toSymbols s held)
    (h : userinit k.toSymbols init s = .ok ((true, p), t)) : Sound k.toSymbols ⟨t, {p}, held⟩ := by
  have hwp : Lib.wp (fun _ => True) (userinit k.toSymbols init) (fun r t => r.1 = true →
      Sound k.toSymbols ⟨t, {r.2}, held⟩) s := by
    refine wp_seq (Lib.wp_weaken (setupkvm_total k ho) fun _ _ => trivial) fun r u ⟨_, hfree, hun⟩ => ?_
    cases r with
    | none => trivial
    | some d =>
        obtain ⟨hun, hsealed, -⟩ := hun d rfl
        rw [Option.elim_some] at hfree
        have ho' : Owns k.toSymbols u (d.pages + held) := ho.of_eq (by rw [← add_assoc, hfree])
        refine wp_seq (inituvm_total hsealed hun ho') fun r v hr hm => ?_
        obtain ⟨hc, hs, ho''⟩ := hr hm
        have hsz : PGSIZE < KERNBASE := by decide
        have hsum : spacePages 0 + held = held := zero_add held
        rw [← hsum] at ho''
        exact Sound.join ho'' ⟨hc, hsz, hs⟩ fun q hq => absurd hq (Multiset.notMem_zero q)
  exact wp_of_ok hwp h rfl

/-- `growproc` of a process that is sound. -/
theorem growproc_sound {n r : ℤ} {sz : ℕ} (hlo : -2 ^ 31 ≤ n) (hhi : n < 2 ^ 31) (hn : Proper p.sz n)
    (h : growproc k.toSymbols p.pgdir p.sz n s = .ok ((r, d, sz), t))
    (hσ : Sound k.toSymbols ⟨s, p ::ₘ ps, held⟩) :
    Sound k.toSymbols ⟨t, p.resize d sz ::ₘ ps, held⟩ := by
  obtain ⟨ho, hp, hps⟩ := hσ.split
  obtain ⟨hkern, _, ho', hres⟩ := wp_of_ok (growproc_total hp.size hp.covers ho hlo hhi hn) h
  have hcovers : Covers d sz ∧ sz < KERNBASE := by
    rcases hres with ⟨_, _, hlt, hg⟩ | ⟨_, hsz, hu⟩
    · exact ⟨hg.covers, hlt⟩
    · obtain rfl : sz = p.sz := hsz
      exact ⟨hu.covers hp.covers, hp.size⟩
  exact .join ho' ⟨hcovers.1, hcovers.2, hkern.sealed hp.sealed⟩ hps

/-- `fork`: the child gets a copy, or there is none. -/
theorem fork_sound {r : Option Pgdir} (h : copyuvm k.toSymbols p.pgdir p.sz s = .ok (r, t))
    (hσ : Sound k.toSymbols ⟨s, p ::ₘ ps, held⟩) :
    Sound k.toSymbols ⟨t, r.elim 0 (fun d => {p.resize d p.sz}) + (p ::ₘ ps), held⟩ := by
  obtain ⟨ho, hp, hps⟩ := hσ.split
  have hmap : ∀ j < npages p.sz, p.pgdir.Mapped j := fun j hj =>
    (hp.covers j (hj.trans_le (npages_le_USER hp.size.le))).mpr hj
  obtain ⟨hfree, _, hsome⟩ := wp_of_ok (copyuvm_total hp.size.le hmap ho) h
  cases r with
  | none =>
      rw [Option.elim_none, add_zero] at hfree
      rw [Option.elim_none, zero_add]
      exact .join (ho.of_eq (by rw [hfree])) hp hps
  | some d =>
      obtain ⟨hsealed, hun, hcopy⟩ := hsome d rfl
      rw [Option.elim_some] at hfree
      rw [Option.elim_some, Multiset.singleton_add]
      refine .join (p := p.resize d p.sz) (ho.of_eq ?_) ⟨fun j hj => ?_, hp.size, hsealed⟩ hσ.procs
      · rw [spacePages_cons, ← hfree]
        simp only [Process.resize]
        ac_rfl
      · by_cases hlt : j < npages p.sz
        · obtain ⟨q, _, hpte, _⟩ := hcopy j hlt
          rw [Process.resize, Pgdir.Mapped, hpte]
          exact iff_of_true (hmap j hlt) hlt
        · exact iff_of_false (hun j (not_lt.mp hlt) hj) hlt

/-- After `exec` all processes are sound. -/
theorem exec_sound {found : Bool} {f path : List UInt8} {argv : List (List UInt8)}
    {outstanding ref : ℕ} {r : ℤ} {u : Kernel}
    (h : exec k.toSymbols found f path argv ⟨s, p, outstanding, ref, false⟩ = .ok (r, u))
    (hσ : Sound k.toSymbols ⟨s, p ::ₘ ps, held⟩) : Sound k.toSymbols ⟨u.mem, u.proc ::ₘ ps, held⟩ := by
  obtain ⟨ho, hp, hps⟩ := hσ.split
  rcases (wp_of_ok (exec_ends (s := ⟨s, p, outstanding, ref, false⟩) found f ho rfl) h).1 with
    ⟨_, hc⟩ | ⟨_, hc⟩
  · exact .join hc.owns ⟨hc.covers, hc.size, hc.sealed⟩ hps
  · rw [hc.proc]
    exact .join (ho.of_eq (by rw [hc.free])) hp hps

theorem wait_sound (h : freevm k.toSymbols (some p.pgdir) s = .ok ((), t))
    (hσ : Sound k.toSymbols ⟨s, p ::ₘ ps, held⟩) : Sound k.toSymbols ⟨t, ps, held⟩ := by
  obtain ⟨ho, _, hps⟩ := hσ.split
  have hv : ∀ q ∈ p.pgdir.pages, Valid k.toSymbols q := fun q hq =>
    ho.valid_goods (Multiset.mem_add.mpr (.inl hq))
  obtain ⟨hfree, _⟩ := wp_of_ok (freevm_total hv s) h
  exact ⟨ho.of_eq (by rw [hfree, add_assoc]), hps⟩

/-- The kernel takes a page, or there is none. -/
theorem kalloc_sound {r : Option Page} (h : kalloc s = .ok (r, t)) (hσ : Sound k.toSymbols ⟨s, ps, held⟩) :
    Sound k.toSymbols ⟨t, ps, r.elim 0 ({·}) + held⟩ := by
  obtain ⟨_, hfree⟩ := wp_of_ok (kalloc_total s) h
  refine ⟨hσ.owns.of_eq ?_, hσ.procs⟩
  dsimp only
  rw [← hfree]
  ac_rfl

/-- The kernel gives a page back. -/
theorem kfree_sound {v : Page} (h : kfree k.toSymbols v s = .ok ((), t))
    (hσ : Sound k.toSymbols ⟨s, ps, v ::ₘ held⟩) : Sound k.toSymbols ⟨t, ps, held⟩ := by
  have hv := hσ.owns.valid_goods (Multiset.mem_add.mpr (.inr (Multiset.mem_cons_self v held)))
  obtain ⟨hfree, _⟩ := wp_of_ok (kfree_total hv s) h
  refine ⟨hσ.owns.of_eq ?_, hσ.procs⟩
  dsimp only
  rw [hfree, ← Multiset.singleton_add]
  ac_rfl

/-- **A step keeps every process sound.** -/
theorem Step.sound (h : Step k.toSymbols σ τ) (hσ : Sound k.toSymbols σ) : Sound k.toSymbols τ := by
  cases h with
  | growproc hlo hhi hn h => exact growproc_sound hlo hhi hn h hσ
  | fork h => exact fork_sound h hσ
  | exec h => exact exec_sound h hσ
  | wait h => exact wait_sound h hσ
  | store w =>
      refine ⟨hσ.owns.of_eq ?_, hσ.procs⟩
      unfold Uvm.store
      split <;> rfl
  | kalloc h => exact kalloc_sound h hσ
  | kfree h => exact kfree_sound h hσ

/-- **Every process of a running system is sound.** -/
theorem Reachable.sound (h : Reachable k.toSymbols σ) : Sound k.toSymbols σ := by
  induction h with
  | boot ho h => exact userinit_sound ho h
  | step _ h ih => exact h.sound ih

/-! ### `sbrk` -/

/-- **The contract of `growproc`**, outside of a shrink to `0` or below, and what comes of it: in
every reachable state, exactly the pages of its size are mapped in every process. -/
theorem growproc_contract (k : Linked) :
    (∀ (s : Machine) (d : Pgdir) (sz : ℕ) (n : ℤ) (F : Multiset Page), sz < KERNBASE → Covers d sz →
      Owns k.toSymbols s (d.pages + F) → -2 ^ 31 ≤ n → n < 2 ^ 31 → Proper sz n →
      Total (growproc k.toSymbols d sz n) (fun r t => (∀ p ∈ F, Keeps s t p) ∧
        (r.1 = 0 ∧ (r.2.2 : ℤ) = sz + n ∧ r.2.2 < KERNBASE ∧ Resized s t d r.2.1 sz r.2.2 ∨
          r.1 = -1 ∧ r.2.2 = sz ∧ Unchanged s t d r.2.1)) s) ∧
    ∀ σ, Reachable k.toSymbols σ → ∀ p ∈ σ.procs, p.sz < KERNBASE ∧ Covers p.pgdir p.sz := by
  refine ⟨fun s d sz n F hsz hc ho hlo hhi hn => ?_, fun σ hσ p hp => ?_⟩
  · exact wp_mono (growproc_total hsz hc ho hlo hhi hn) fun _ _ h => ⟨h.2.1, h.2.2.2⟩
  · have hs := hσ.sound.procs p hp
    exact ⟨hs.size, hs.covers⟩

theorem smallSpace_covers : Covers smallSpace 100 := fun j hj => by
  rw [smallSpace_mapped hj]
  exact Nat.lt_one_iff.symm

theorem growproc_contract_small :
    Total (growproc smallLinked.toSymbols smallSpace 100 5000) (fun r t =>
      r.1 = 0 ∧ (r.2.2 : ℤ) = 5100 ∨ r.1 = -1 ∧ Unchanged smallMachine t smallSpace r.2.1)
      smallMachine :=
  wp_mono ((growproc_contract smallLinked).1 smallMachine smallSpace 100 5000 0 (by decide)
    smallSpace_covers smallSpace_owns (by decide) (by decide) fun _ => .inr (by decide))
    fun _ _ h => h.2.imp (fun h => ⟨h.1, h.2.1⟩) fun h => ⟨h.1, h.2.2⟩

/-- What `growproc` is asked for: `0` for the new size, with new bytes that are zero, and `-1` for
no change. -/
def Asked (s t : Machine) (d d' : Pgdir) (sz sz' : ℕ) (n r : ℤ) : Prop :=
  (r = 0 → (sz' : ℤ) = sz + n ∧ sz' < KERNBASE ∧ Covers d' sz' ∧
    (∀ va, sz ≤ va → va < sz' → t.ram (d'.phys va) = 0) ∧
    ∀ va < min sz sz', t.ram (d'.phys va) = s.ram (d.phys va)) ∧
  (r = -1 → sz' = sz ∧ Unchanged s t d d')

theorem smallMachine_ram (a : ℕ) : smallMachine.ram a = 7 := by
  unfold smallMachine
  rfl

/-- `growproc` by `n` bytes of a process of 100 does what it is asked for. -/
def SmallAsked (n : ℤ) : Prop :=
  Total (growproc smallLinked.toSymbols smallSpace 100 n)
    (fun r t => Asked smallMachine t smallSpace r.2.1 100 r.2.2 n r.1) smallMachine

/-- The rest of the last page is not cleared, a shrink to `0` fails when it has freed all, and a
shrink below `0` returns `0`. -/
theorem growproc_not_asked : ¬ SmallAsked 100 ∧ ¬ SmallAsked (-100) ∧ ¬ SmallAsked (-200) := by
  refine ⟨fun h => ?_, fun h => ?_, fun h => ?_⟩ <;> unfold SmallAsked at h
  · have hr : growproc smallLinked.toSymbols smallSpace 100 100 = pure (0, smallSpace, 200) := by
      have hpages : (200 - PGROUNDUP 100 + PGSIZE - 1) / PGSIZE = 0 := by decide
      have halloc : allocuvm smallLinked.toSymbols smallSpace 100 200 = pure (smallSpace, 200) := by
        rw [allocuvm, if_neg (by decide), if_neg (by decide)]
        dsimp only
        rw [hpages, allocFrom]
      have hnew : (((100 : ℕ) + (100 : ℤ)) % 2 ^ 32).toNat = 200 := by decide
      rw [growproc, hnew]
      dsimp only
      rw [if_pos (by decide), halloc]
      rfl
    rw [hr] at h
    have := (h.1 rfl).2.2.2.1 100 le_rfl (by decide)
    rw [smallMachine_ram] at this
    exact absurd this (by decide)
  · have hto := growproc_to_zero (by decide) (by decide) smallSpace_covers smallSpace_owns
    cases hr : growproc smallLinked.toSymbols smallSpace 100 (-(100 : ℕ)) smallMachine with
    | error e =>
        rw [Total, Lib.wp, hr] at hto
        exact hto
    | ok r =>
        obtain ⟨hneg, _, hun⟩ := wp_of_ok hto hr
        have hmap := ((wp_of_ok h hr).2 hneg).2.covers smallSpace_covers 0 (by decide)
        exact hun 0 (by decide) (hmap.mpr (by decide))
  · rw [growproc_below_zero (by decide) (by decide) (by decide) (by decide)] at h
    exact absurd (h.1 rfl).1 (by decide)

end Xv6.Uvm
