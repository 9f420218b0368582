import Xv6.Uvm.Loadable

/-!
# Address spaces — `exec` survives any file and fails cleanly

Every failure goes through `cleanupexec`, inside the transaction or after it, with or without a new
directory; and each has one of a few causes.

* `Clean`, `Committed` — what a call leaves that fails, and one that succeeds.
* `Started` — what a call that succeeds has done with the image and the arguments.
* `Refused` — why a call fails; `Refused.elim` — none of that, where there are pages enough, of a
  file in order and arguments that fit.
* `exec_starts` — the call, if the push of the arguments reaches no panic.
* `exec_succeeds`, `exec_fails_cleanly` — it does not, where no push wraps.
-/

namespace Xv6.Uvm

open Vm (Page PGSIZE KERNBASE NPDENTRIES PGROUNDUP MAXARG)
open Lib (wp_seq wp_mono wp_bind wp_of_ok wp_weaken wp_returns)
open Fs (field EHSIZE PHSIZE ELF_MAGIC ELF_PROG_LOAD)

variable {k : Vm.Symbols} {s t u : Machine} {d d' d'' : Pgdir} {va sz sz' : ℕ} {f : List UInt8}
  {F : Multiset Page}

/-! ### Out of a call -/

/-- `x`, run in `s`, returns, with `Q`, or follows a null pointer; that only if `P`. -/
abbrev Ends (P : Prop) {α : Type} (x : Exec α) (Q : α → Kernel → Prop) (s : Kernel) : Prop :=
  Lib.wp (fun e : Stop => e = .vm .fault ∧ P) x Q s

variable {P : Prop}

theorem onMem_ends {α : Type} {x : Uvm α} {Q : α → Kernel → Prop} {s : Kernel}
    (h : Faults P x (fun a m => Q a { s with mem := m }) s.mem) : Ends P (onMem x) Q s := by
  unfold Ends Faults Lib.wp onMem at *
  split at h <;> simp_all

/-- The call is inside its transaction, with the inode locked; or it is out of both. -/
structure Inside (s u : Kernel) : Prop where
  proc : u.proc = s.proc
  outstanding : u.outstanding = s.outstanding + 1
  ref : u.ref = s.ref + 1
  locked : u.locked = true

/-- What is outside of memory is as it was, and the inode is unlocked. -/
structure Outside (s u : Kernel) : Prop where
  proc : u.proc = s.proc
  outstanding : u.outstanding = s.outstanding
  ref : u.ref = s.ref
  locked : u.locked = false

/-- The new directory is made of pages that were free; the pages `G` are as before. -/
structure Built (G : Multiset Page) (s t : Machine) (d : Pgdir) : Prop where
  books : t.kmem.free + d.pages = s.kmem.free
  keeps : ∀ p ∈ G, Keeps s t p

namespace Built

variable {G : Multiset Page}

theorem trans (h : Built G s t d) (h' : Builds G t d u d') : Built G s u d' :=
  ⟨h'.books.trans h.books, fun p hp => (h.keeps p hp).trans (h'.keeps p hp)⟩

theorem owns (h : Built G s t d) (ho : Owns k s G) : Owns k t (d.pages + G) :=
  ho.of_eq (by rw [← add_assoc, h.books])

/-- `freevm` of the new directory gives its pages back. -/
theorem freevm (h : Built G s t d) (ho : Owns k s G) : Total (freevm k (some d))
    (fun _ u => u.kmem.free = s.kmem.free ∧ ∀ p ∈ G, Keeps s u p) t := by
  have ho' := h.owns ho
  refine wp_mono (freevm_total (fun p hp => ho'.valid_goods (Multiset.mem_add.mpr (.inl hp))) t)
    fun _ u ⟨hfree, hkeep⟩ => ⟨hfree.trans h.books, fun p hp => (h.keeps p hp).trans
      (hkeep p (ho.valid_goods hp).aligned fun hd => ?_)⟩
  exact Multiset.disjoint_left.mp (Multiset.nodup_add.mp ho'.nodup_goods).2.2 hd hp

end Built

/-- **What a failed call leaves**: everything as it was, and the inode not locked. -/
structure Clean (F : Multiset Page) (s t : Kernel) : Prop where
  proc : t.proc = s.proc
  free : t.mem.kmem.free = s.mem.kmem.free
  keeps : ∀ p ∈ s.proc.pgdir.pages + F, Keeps s.mem t.mem p
  outstanding : t.outstanding = s.outstanding
  ref : t.ref = s.ref
  locked : t.locked = false

/-- What a call that succeeds leaves. -/
structure Committed (k : Vm.Symbols) (F : Multiset Page) (s t : Kernel) : Prop where
  owns : Owns k t.mem (t.proc.pgdir.pages + F)
  keeps : ∀ p ∈ F, Keeps s.mem t.mem p
  covers : Covers t.proc.pgdir t.proc.sz
  sealed : Sealed t.proc.pgdir
  size : t.proc.sz < KERNBASE
  outstanding : t.outstanding = s.outstanding
  ref : t.ref = s.ref
  locked : t.locked = false

variable {s₀ s' : Kernel} {path : List UInt8} {argv : List (List UInt8)} {entry : ℕ}

/-- The lock of the file is given back, and the operation ends. -/
theorem release_ends {Q : Unit → Kernel → Prop} (h : Inside s₀ s')
    (hQ : ∀ t, Outside s₀ t → t.mem = s'.mem → Q () t) :
    Ends P (do iunlockput; end_op) Q s' := by
  have hno : ¬ (s'.locked = false ∨ s'.ref < 1) := by
    simp [h.locked, h.ref]
  have hrun : (do iunlockput; end_op : Exec Unit) s' = .ok ((), { s' with
      locked := false, ref := s'.ref - 1, outstanding := s'.outstanding - 1 }) := by
    simp only [iunlockput, iunlock, iput, end_op, Bind.bind, StateT.bind, Except.bind, if_neg hno]
    rfl
  rw [Ends, Lib.wp, hrun]
  exact hQ _ ⟨h.proc, by rw [h.outstanding, Nat.add_sub_cancel], by rw [h.ref, Nat.add_sub_cancel],
    rfl⟩ rfl

theorem fail_inside (h : Inside s₀ s')
    (hb : ∀ p ∈ s₀.proc.pgdir.pages + F, Keeps s₀.mem s'.mem p)
    (hfree : s'.mem.kmem.free = s₀.mem.kmem.free) :
    Ends P (fail k none true) (fun r t => r = -1 ∧ Clean F s₀ t) s' :=
  wp_seq (release_ends h fun t ht hm => (⟨ht.proc, by rw [hm, hfree], by rw [hm]; exact hb,
    ht.outstanding, ht.ref, ht.locked⟩ : Clean F s₀ t)) fun _ _ h => ⟨rfl, h⟩

/-- `exec` fails while it has the file, and frees what it built. -/
theorem fail_inside_built (h : Inside s₀ s') (ho : Owns k s₀.mem (s₀.proc.pgdir.pages + F))
    (hb : Built (s₀.proc.pgdir.pages + F) s₀.mem s'.mem d) :
    Ends P (fail k (some d) true) (fun r t => r = -1 ∧ Clean F s₀ t) s' := by
  have hclean : Ends P (cleanupexec k (some d) true) (fun _ t => Clean F s₀ t) s' := by
    refine wp_seq (onMem_ends (Q := fun _ t => Inside s₀ t ∧ t.mem.kmem.free = s₀.mem.kmem.free ∧
      ∀ p ∈ s₀.proc.pgdir.pages + F, Keeps s₀.mem t.mem p)
      (wp_mono (hb.freevm ho).faults fun _ u hu => ⟨⟨h.proc, h.outstanding, h.ref, h.locked⟩, hu⟩))
      fun _ u ⟨hin, hfree, hkeep⟩ => ?_
    exact release_ends hin fun t ht hm => ⟨ht.proc, by rw [hm, hfree], by rw [hm]; exact hkeep,
      ht.outstanding, ht.ref, ht.locked⟩
  exact wp_seq hclean fun _ _ h => ⟨rfl, h⟩

theorem fail_outside (h : Outside s₀ s') (ho : Owns k s₀.mem (s₀.proc.pgdir.pages + F))
    (hb : Built (s₀.proc.pgdir.pages + F) s₀.mem s'.mem d) :
    Ends P (fail k (some d) false) (fun r t => r = -1 ∧ Clean F s₀ t) s' := by
  have hclean : Ends P (cleanupexec k (some d) false) (fun _ t => Clean F s₀ t) s' :=
    wp_seq (onMem_ends (Q := fun _ t => Clean F s₀ t) (wp_mono (hb.freevm ho).faults
      fun _ u hu => ⟨h.proc, hu.1, hu.2, h.outstanding, h.ref, h.locked⟩)) fun _ _ h => h
  exact wp_seq hclean fun _ _ h => ⟨rfl, h⟩

/-- `exec` cannot fail any more: the old directory is freed. -/
theorem commit_ends (h : Outside s₀ s') (ho : Owns k s₀.mem (s₀.proc.pgdir.pages + F))
    (hb : Built (s₀.proc.pgdir.pages + F) s₀.mem s'.mem d) (hsz : sz < KERNBASE)
    (hc : Covers d sz) (hs : Sealed d) (sp : ℕ) :
    Ends P (commit k path d sz entry sp) (fun r t => r = 0 ∧ Committed k F s₀ t ∧
      t.proc = ⟨d, sz, entry, sp, (lastElem path).take 15⟩ ∧
      ∀ p ∈ d.pages, Keeps s'.mem t.mem p) s' := by
  have ho' := hb.owns ho
  have hold : ∀ p ∈ s₀.proc.pgdir.pages, p ∈ d.pages + (s₀.proc.pgdir.pages + F) := fun p hp =>
    Multiset.mem_add.mpr (.inr (Multiset.mem_add.mpr (.inl hp)))
  have hfree := freevm_total (fun p hp => ho'.valid_goods (hold p hp)) s'.mem
  rw [← h.proc] at hfree
  have hmem : Ends P (onMem (freevm k (some s'.proc.pgdir))) (fun _ t => Committed k F s₀ t ∧
      t.proc = ⟨d, sz, entry, sp, (lastElem path).take 15⟩ ∧ ∀ p ∈ d.pages, Keeps s'.mem t.mem p)
      { s' with proc := ⟨d, sz, entry, sp, (lastElem path).take 15⟩ } := by
    refine onMem_ends (wp_mono hfree.faults fun _ u ⟨hu, hkeep⟩ => ?_)
    rw [h.proc] at hu hkeep
    refine ⟨⟨ho'.of_eq ?_, fun p hp => ?_, hc, hs, hsz, h.outstanding, h.ref, h.locked⟩, rfl,
      fun p hp => hkeep p (ho'.valid_goods (Multiset.mem_add.mpr (.inl hp))).aligned fun hd => ?_⟩
    · show u.kmem.free + (d.pages + F) = _
      rw [hu]
      ac_rfl
    · have hpG : p ∈ s₀.proc.pgdir.pages + F := Multiset.mem_add.mpr (.inr hp)
      refine (hb.keeps p hpG).trans (hkeep p (ho.valid_goods hpG).aligned fun hd => ?_)
      exact Multiset.disjoint_left.mp (Multiset.nodup_add.mp ho.nodup_goods).2.2 hd hp
    · exact Multiset.disjoint_left.mp (Multiset.nodup_add.mp ho'.nodup_goods).2.2 hp
        (Multiset.mem_add.mpr (.inl hd))
  exact wp_bind.mpr (wp_bind.mpr (wp_seq hmem fun _ _ h => ⟨rfl, h⟩))

theorem onMem_inside {α : Type} {x : Uvm α} {Q : α → Machine → Prop} (h : Inside s₀ s')
    (hx : Faults P x Q s'.mem) : Ends P (onMem x) (fun a t => Inside s₀ t ∧ Q a t.mem) s' :=
  onMem_ends (wp_mono hx fun _ _ hQ => ⟨⟨h.proc, h.outstanding, h.ref, h.locked⟩, hQ⟩)

theorem onMem_outside {α : Type} {x : Uvm α} {Q : α → Machine → Prop} (h : Outside s₀ s')
    (hx : Faults P x Q s'.mem) : Ends P (onMem x) (fun a t => Outside s₀ t ∧ Q a t.mem) s' :=
  onMem_ends (wp_mono hx fun _ _ hQ => ⟨⟨h.proc, h.outstanding, h.ref, h.locked⟩, hQ⟩)

/-- What a call leaves, whether it succeeds or fails. -/
def Outcome (k : Vm.Symbols) (F : Multiset Page) (s : Kernel) (r : ℤ) (t : Kernel) : Prop :=
  r = 0 ∧ Committed k F s t ∨ r = -1 ∧ Clean F s t

/-- What a call that succeeds has made of the directory `d` of an image of the size `sz`, in the
memory `m`: in `v` the stack is there, in `w` the arguments are pushed, in `x` the words are
copied. -/
structure Started (k : Vm.Symbols) (G : Multiset Page) (m : Machine) (d : Pgdir) (sz : ℕ)
    (argv : List (List UInt8)) (v w x : Machine) (sp : ℕ) (us : List ℕ) (t : Kernel) : Prop where
  size : t.proc.sz = PGROUNDUP sz + 2 * PGSIZE
  stack : HasStack t.proc.pgdir t.proc.sz
  owns : Owns k v (t.proc.pgdir.pages + G)
  entries : ∀ va < PGROUNDUP sz, t.proc.pgdir.entry va = d.entry va
  program : ∀ va < PGROUNDUP sz, v.ram (d.phys va) = m.ram (d.phys va)
  pushed : pushArgs t.proc.pgdir argv t.proc.sz [] v = .ok (some (sp, us), w)
  esp : t.proc.esp = (sp + 2 ^ 32 - (ustackWords sp us).length * 4) % 2 ^ 32
  copied : copyout t.proc.pgdir t.proc.esp (bytes ((ustackWords sp us).flatMap (Lib.toLE 4)))
    ((ustackWords sp us).length * 4) w = .ok (true, x)
  kept : ∀ p ∈ t.proc.pgdir.pages, Keeps x t.mem p

/-- Why no stack has been built above an image of the size `sz`, of the directory `d` in the memory
`m`: there were no pages for it, or the arguments did not fit. -/
inductive StackRefused (k : Vm.Symbols) (m : Machine) (d : Pgdir) (sz top : ℕ)
    (argv : List (List UInt8)) : Prop
  | pages {d' : Pgdir} {u : Machine} (h : allocuvm k d (PGROUNDUP sz) top m = .ok ((d', 0), u))
  | strings {d' : Pgdir} {u v : Machine} (hd : HasStack d' top)
      (h : pushArgs d' argv top [] u = .ok (none, v))
  | words {d' : Pgdir} {u v w : Machine} {sp : ℕ} {us : List ℕ} (hd : HasStack d' top)
      (hpush : pushArgs d' argv top [] u = .ok (some (sp, us), v))
      (h : copyout d' ((sp + 2 ^ 32 - (ustackWords sp us).length * 4) % 2 ^ 32)
        (bytes ((ustackWords sp us).flatMap (Lib.toLE 4))) ((ustackWords sp us).length * 4) v =
          .ok (false, w))

/-- A call from the stack on: it succeeds, or it fails for a cause. -/
def Stacks (k : Vm.Symbols) (F : Multiset Page) (s : Kernel) (m : Machine) (d : Pgdir) (sz top : ℕ)
    (argv : List (List UInt8)) (r : ℤ) (t : Kernel) : Prop :=
  Outcome k F s r t ∧
    (r = 0 → ∃ v w x sp us, Started k (s.proc.pgdir.pages + F) m d sz argv v w x sp us t) ∧
    (r = -1 → StackRefused k m d sz top argv)

/-- From the stack on. -/
theorem buildStack_ends (h : Outside s₀ s') (ho : Owns k s₀.mem (s₀.proc.pgdir.pages + F))
    (hb : Built (s₀.proc.pgdir.pages + F) s₀.mem s'.mem d) (hs : Sealed d) (hc : Covers d sz)
    {newsz : ℕ} (hnew : PGROUNDUP sz + 2 * PGSIZE = newsz)
    (hpush : ∀ d' u, HasStack d' newsz → SameKernel d d' →
      Owns k u (d'.pages + (s₀.proc.pgdir.pages + F)) →
        Pushes P (s₀.proc.pgdir.pages + F) d' newsz argv newsz [] u) :
    Ends P (buildStack k path argv entry d sz) (Stacks k F s₀ s'.mem d sz newsz argv) s' := by
  have hpg : 0 < PGSIZE := by decide
  have halign : PGROUNDUP sz % PGSIZE = 0 := Vm.PGROUNDUP_mod sz
  have hc' : Covers d (PGROUNDUP sz) := fun j hj => by
    rw [hc j hj, PGROUNDUP_eq, lt_npages, lt_npages, Nat.mul_lt_mul_right hpg, lt_npages]
  -- Before the commit, every failure frees what was built.
  have hfail : ∀ {d' u}, Outside s₀ u → Built (s₀.proc.pgdir.pages + F) s₀.mem u.mem d' →
      StackRefused k s'.mem d sz newsz argv →
      Ends P (fail k (some d') false) (Stacks k F s₀ s'.mem d sz newsz argv) u :=
    fun hu hbu hno => wp_mono (fail_outside hu ho hbu) fun r _ h =>
      ⟨.inr h, fun h0 => by omega, fun _ => hno⟩
  -- The two pages of `allocuvm`, which are the user's if there were pages enough.
  have hgrow : Total (allocuvm k d (PGROUNDUP sz) newsz)
      (fun r t => Builds (s₀.proc.pgdir.pages + F) s'.mem d t r.1 ∧
        (r.2 ≠ 0 → r.2 = newsz ∧ r.2 < KERNBASE ∧ Covers r.1 r.2 ∧
          Resized s'.mem t d r.1 (PGROUNDUP sz) newsz ∧
          ∀ j, npages (PGROUNDUP sz) ≤ j → j < npages newsz →
            (r.1.pte j).has PTE_U = true)) s'.mem := by
    by_cases hbig : KERNBASE ≤ newsz
    · rw [allocuvm, if_pos hbig]
      exact ⟨.refl _ d, fun h => absurd rfl h⟩
    · refine wp_mono (allocuvm_builds (by omega) hc' (hb.owns ho) _) ?_
      rintro r t ⟨h₁, h₂⟩
      refine ⟨h₁, fun hr => ?_⟩
      rw [max_eq_right (by omega)] at h₂
      obtain ⟨h₃, h₄, h₅, h₆⟩ := h₂ hr
      exact ⟨h₃, h₄, h₅, h₆ (by omega)⟩
  unfold buildStack
  rw [hnew]
  refine wp_seq (onMem_outside h (Lib.wp_run hgrow.faults)) ?_
  rintro r u ⟨hu, ⟨hbuild, hr⟩, hgrown⟩
  obtain ⟨d₁, top⟩ := r
  have hb₁ := hb.trans hbuild
  dsimp only
  split
  · rename_i h0
    obtain rfl : top = 0 := h0
    exact hfail hu hb₁ (.pages hgrown)
  rename_i hne
  obtain ⟨htop, hlt, hc₁, hres, hnewU⟩ := hr hne
  dsimp only at htop hlt hc₁ hres hnewU
  subst htop
  have h2 : 2 * PGSIZE ≤ top := by omega
  have htop' : top % PGSIZE = 0 := by
    rw [← hnew, Nat.add_mul_mod_self_right, halign]
  -- The lower of them becomes the guard page; the stack above it stays the user's.
  refine wp_seq (onMem_outside hu (clearpteu_total hlt.le hc₁ h2 htop' u.mem).faults) ?_
  rintro d₂ v ⟨hv, hmem, hpages, hc₂, hk₂, hentry, hguard⟩
  have hb₂ : Built (s₀.proc.pgdir.pages + F) s₀.mem v.mem d₂ := by
    rw [hmem]
    exact ⟨by rw [hpages]; exact hb₁.books, hb₁.keeps⟩
  have hpage : UserPage d₂ (top - PGSIZE) := by
    have hround := PGROUNDUP_of_aligned htop'
    have hva : top - PGSIZE < PGROUNDUP top := by omega
    obtain ⟨hlow, hm⟩ := hc₂.mapped hlt.le hva
    have hU : (d₂.entry (top - PGSIZE)).has PTE_U = true := by
      rw [hentry _ hlow (.inr le_rfl), entry_eq]
      refine hnewU _ ?_ ?_
      · simp only [npages, PGSIZE] at *
        omega
      · simp only [npages, PGSIZE] at *
        omega
    rw [entry_eq] at hm hU
    exact ⟨_, by rw [← lookup_page, lookup_of_mapped hm], hm, hU⟩
  have hstack : HasStack d₂ top :=
    ⟨hc₂, hk₂.sealed (hbuild.sealed hs), hguard, hpage, h2, htop', hlt.le⟩
  have hkern : SameKernel d d₂ := fun j hj hj' => (hk₂ j hj hj').trans (hbuild.kernel j hj hj')
  have hpush' := hpush d₂ v.mem hstack hkern (hb₂.owns ho)
  refine wp_seq (onMem_outside hv (Lib.wp_run hpush')) ?_
  rintro r w ⟨hw', ⟨hbuild₂, hr₂⟩, hpushed⟩
  have hb₃ := hb₂.trans hbuild₂
  cases r with
  | none => exact hfail hw' hb₃ (.strings hstack hpushed)
  | some r =>
      obtain ⟨sp, us⟩ := r
      obtain ⟨hlo, hhi, hlen⟩ := hr₂ sp us rfl
      have hround := PGROUNDUP_of_aligned htop'
      have hwords : (ustackWords sp us).length = us.length + 4 := by simp [ustackWords]
      have hK : KERNBASE < 2 ^ 32 := by decide
      have hroom : (ustackWords sp us).length * 4 ≤ sp := by
        have : (MAXARG + 4) * 4 ≤ PGSIZE := by decide
        omega
      have hend : (sp + 2 ^ 32 - (ustackWords sp us).length * 4) % 2 ^ 32 +
          (ustackWords sp us).length * 4 ≤ PGROUNDUP top := by omega
      dsimp only
      -- The strings are there: the words go below them.
      refine wp_seq (onMem_outside hw' (Lib.wp_run (copyout_total hlt.le hc₂ hstack.sealed
        (hb₃.owns ho) (Nat.mod_lt _ (by decide)) hend _).faults)) ?_
      rintro ok x ⟨hx, ⟨hbuild₃, _⟩, hcopied⟩
      have hb₄ := hb₃.trans hbuild₃
      cases ok with
      | false => exact hfail hx hb₄ (.words hstack hpushed hcopied)
      | true =>
          refine wp_mono (commit_ends hx ho hb₄ hlt hc₂ hstack.sealed _) ?_
          rintro r t ⟨hr, hcommit, hproc, hkept⟩
          refine ⟨.inl ⟨hr, hcommit⟩, fun _ => ⟨v.mem, w.mem, x.mem, sp, us, ?_⟩,
            fun h1 => by omega⟩
          have hlow : ∀ va < PGROUNDUP sz, va < min (PGROUNDUP (PGROUNDUP sz)) (PGROUNDUP top) ∧
              va < top - 2 * PGSIZE := fun va hva => by
            rw [PGROUNDUP_of_aligned halign, hround, lt_min_iff]
            omega
          have hsame : ∀ va < PGROUNDUP sz, d₁.entry va = d.entry va := fun va hva =>
            hres.entry va (hlow va hva).1
          constructor
          case size => rw [hproc]; exact hnew.symm
          case stack => rw [hproc]; exact hstack
          case owns => rw [hproc]; exact hb₂.owns ho
          case entries =>
            rw [hproc]
            exact fun va hva => (hentry va (by have := (hlow va hva).2; omega)
              (.inl (hlow va hva).2)).trans (hsame va hva)
          case program =>
            intro va hva
            have hkeep := hres.kept va (hlow va hva).1
            rwa [Pgdir.phys, hsame va hva, ← Pgdir.phys, ← hmem] at hkeep
          case pushed => rw [hproc]; exact hpushed
          case esp => rw [hproc]
          case copied => rw [hproc]; exact hcopied
          case kept => rw [hproc]; exact hkept

/-- The top of the stack of the image of a file. -/
def stackTop (f : List UInt8) : ℕ :=
  PGROUNDUP (loadSize f (field (f.take EHSIZE) 44 2) (field (f.take EHSIZE) 28 4) 0) + 2 * PGSIZE

theorem readi_header (f : List UInt8) : readi f 0 EHSIZE = some (f.take EHSIZE) := by
  rw [readi, if_neg (by
    have : EHSIZE = 52 := rfl
    omega), List.drop_zero]

/-- The image of the file `f`, loaded in the memory `s`: the directory `d`, of the size `sz`. -/
def Loaded (k : Vm.Symbols) (f : List UInt8) (s : Machine) (d : Pgdir) (sz : ℕ) (m : Machine) :
    Prop :=
  ∃ d₀ m₀, setupkvm k s = .ok (some d₀, m₀) ∧
    loadProgram k f (field (f.take EHSIZE) 44 2) (field (f.take EHSIZE) 28 4) d₀ 0 m₀ =
      .ok ((d, some sz), m)

/-- Why a call has failed: for the file, for want of pages, or for the arguments. -/
inductive Refused (k : Vm.Symbols) (f : List UInt8) (argv : List (List UInt8)) (s : Machine) : Prop
  | header (h : (f.take EHSIZE).length ≠ EHSIZE ∨ field (f.take EHSIZE) 0 4 ≠ ELF_MAGIC)
  | kernel {t : Machine} (h : setupkvm k s = .ok (none, t))
  | segment {d₀ d : Pgdir} {m₀ m : Machine} (hk : setupkvm k s = .ok (some d₀, m₀))
      (h : loadProgram k f (field (f.take EHSIZE) 44 2) (field (f.take EHSIZE) 28 4) d₀ 0 m₀ =
        .ok ((d, none), m))
  | stack {d : Pgdir} {sz : ℕ} {m : Machine} (hload : Loaded k f s d sz m)
      (h : StackRefused k m d sz (stackTop f) argv)

/-- What a call leaves; where it succeeds, an image has been loaded and a stack built, and where it
fails, for a file that there is, something was refused. -/
def Execs (k : Vm.Symbols) (F : Multiset Page) (found : Bool) (f : List UInt8)
    (argv : List (List UInt8)) (s : Kernel) (r : ℤ) (t : Kernel) : Prop :=
  Outcome k F s r t ∧
    (r = 0 → ∃ d sz m v w x sp us, Loaded k f s.mem d sz m ∧
      PGROUNDUP sz + 2 * PGSIZE = stackTop f ∧
        Started k (s.proc.pgdir.pages + F) m d sz argv v w x sp us t) ∧
    (r = -1 → found = true → Refused k f argv s.mem)

/-- `exec` reaches no panic, if the push of the arguments does not. -/
theorem exec_starts {k : Linked} {s : Kernel} (found : Bool) (f : List UInt8)
    (ho : Owns k.toSymbols s.mem (s.proc.pgdir.pages + F)) (hl : s.locked = false)
    (hpush : ∀ d u, HasStack d (stackTop f) → d.Mapped (2 ^ 20 - 1) →
      Owns k.toSymbols u (d.pages + (s.proc.pgdir.pages + F)) →
        Pushes P (s.proc.pgdir.pages + F) d (stackTop f) argv (stackTop f) [] u) :
    Ends P (exec k.toSymbols found f path argv) (Execs k.toSymbols F found f argv s) s := by
  refine wp_bind.mpr ?_
  show Ends _ _ _ { s with outstanding := s.outstanding + 1 }
  cases found with
  | false =>
      refine ⟨.inr ⟨rfl, rfl, rfl, fun p _ => .refl s.mem p, ?_, rfl, hl⟩, (absurd · (by decide)),
        fun _ h => by cases h⟩
      exact Nat.add_sub_cancel ..
  | true =>
      let s₁ : Kernel :=
        { s with outstanding := s.outstanding + 1, ref := s.ref + 1, locked := true }
      have hin : Inside s s₁ := ⟨rfl, rfl, rfl, rfl⟩
      have hkeep : ∀ p ∈ s.proc.pgdir.pages + F, Keeps s.mem s₁.mem p := fun p _ => .refl s.mem p
      -- A failure with its reason is one that `Execs` allows.
      have hcleaned : Refused k.toSymbols f argv s.mem → ∀ r t, r = -1 ∧ Clean F s t →
          Execs k.toSymbols F true f argv s r t :=
        fun hno r t h => ⟨.inr h, fun h0 => by omega, fun _ _ => hno⟩
      -- The lock of the file is free, so `ilock` returns.
      have hlock : ∀ {P : Prop} {x : Unit → Exec ℤ} {Q}, Ends P (x ()) Q s₁ →
          Ends P (ilock >>= x) Q { s with outstanding := s.outstanding + 1, ref := s.ref + 1 } :=
        fun hx => by
          have hrun : ilock { s with outstanding := s.outstanding + 1, ref := s.ref + 1 } =
              .ok ((), s₁) := if_neg (by simp)
          refine wp_bind.mpr ?_
          rw [Lib.wp, hrun]
          exact hx
      refine wp_bind.mpr (hlock ?_)
      rw [readi_header]
      dsimp only
      split
      · rename_i hlen
        exact wp_mono (fail_inside hin hkeep rfl) (hcleaned (.header (.inl hlen)))
      split
      · rename_i hmagic
        exact wp_mono (fail_inside hin hkeep rfl) (hcleaned (.header (.inr hmagic)))
      -- The header is accepted; the new directory comes next.
      refine wp_seq (onMem_inside hin (Lib.wp_run (setupkvm_total k ho).faults)) ?_
      rintro r u ⟨hu, ⟨hkv, hfree, hun⟩, hsetup⟩
      have hkeepu : ∀ p ∈ s.proc.pgdir.pages + F, Keeps s.mem u.mem p := fun p hp =>
        hkv p (ho.valid_goods hp).aligned (ho.not_free hp)
      cases r with
      | none =>
          rw [Option.elim_none, add_zero] at hfree
          exact wp_mono (fail_inside hu hkeepu hfree) (hcleaned (.kernel hsetup))
      | some d =>
          obtain ⟨hun, hsealed, hlast⟩ := hun d rfl
          have hb : Built (s.proc.pgdir.pages + F) s.mem u.mem d := ⟨hfree, hkeepu⟩
          have hc : Covers d 0 := fun j hj => iff_of_false (hun j hj) (by simp [npages, PGSIZE])
          dsimp only
          refine wp_seq (onMem_inside hu (Lib.wp_run (loadProgram_total (f := f) _
            (field (f.take EHSIZE) 28 4) d 0 u.mem (by decide) hc (hb.owns ho)).faults)) ?_
          rintro r v ⟨hv, ⟨hbuild, hr⟩, hload⟩
          obtain ⟨d₁, r⟩ := r
          have hb₁ := hb.trans hbuild
          cases r with
          | none =>
              exact wp_mono (fail_inside_built hv ho hb₁) (hcleaned (.segment hsetup hload))
          | some sz =>
              obtain ⟨hsz, -, hc₁⟩ := hr sz rfl
              have htop : PGROUNDUP sz + 2 * PGSIZE = stackTop f := by rw [hsz, stackTop]
              have hloaded : Loaded k.toSymbols f s.mem d₁ sz v.mem := ⟨d, u.mem, hsetup, hload⟩
              have hrel := release_ends (P := P) (Q := fun _ t => Outside s t ∧ t.mem = v.mem) hv
                fun t ht hm => ⟨ht, hm⟩
              have hstack : ∀ t, Outside s t ∧ t.mem = v.mem →
                  Ends P (buildStack k.toSymbols path argv (field (f.take EHSIZE) 24 4) d₁ sz)
                    (Execs k.toSymbols F true f argv s) t := fun t ht => by
                have hb₂ : Built (s.proc.pgdir.pages + F) s.mem t.mem d₁ := by rwa [ht.2]
                refine wp_mono (buildStack_ends ht.1 ho hb₂ (hbuild.sealed hsealed) hc₁ htop
                  fun d' w hd hk ho' => hpush d' w hd ?_ ho') ?_
                · have hU : USER ≤ 2 ^ 20 - 1 := by decide
                  have hlt : 2 ^ 20 - 1 < 2 ^ 20 := by decide
                  rw [Pgdir.Mapped, hk _ hU hlt, hbuild.kernel _ hU hlt]
                  exact hlast
                · rintro r t' ⟨hout, hrun, hno⟩
                  rw [ht.2] at hrun hno
                  refine ⟨hout, fun hr => ?_, fun hr _ => .stack hloaded (hno hr)⟩
                  obtain ⟨v', w', x, sp, us, hstarted⟩ := hrun hr
                  exact ⟨d₁, sz, v.mem, v', w', x, sp, us, hloaded, htop, hstarted⟩
              have := wp_seq hrel fun _ t ht => hstack t ht
              rwa [bind_assoc] at this

/-! ### Calls that succeed -/

/-- A file in order: its header, its segments, and room for the stack above them. -/
structure InOrder (f : List UInt8) : Prop where
  length : f.length < 2 ^ 32
  header : (f.take EHSIZE).length = EHSIZE
  magic : field (f.take EHSIZE) 0 4 = ELF_MAGIC
  segments : Loadable f (field (f.take EHSIZE) 44 2) (field (f.take EHSIZE) 28 4)
  size : stackTop f < KERNBASE

/-- Pages enough for the image of a file, its stack, the directory and every table. -/
structure Ample (s : Machine) (f : List UInt8) : Prop where
  granting : Granting s
  enough : 1 + NPDENTRIES + npages (stackTop f) ≤ s.kmem.freelist.length

/-- With enough pages, and arguments that fit, the stack is not refused. -/
theorem StackRefused.elim {m : Machine} {top : ℕ} (h : StackRefused k m d sz top argv)
    (htop : PGROUNDUP sz + 2 * PGSIZE = top) (hK : top < KERNBASE)
    (hm : Supplied m d (npages top - npages sz)) (hn : argv.length ≤ MAXARG)
    (hfits : stackBytes argv ≤ PGSIZE) : False := by
  unfold stackBytes at hfits
  have hpush : ∀ {d' : Pgdir} {u : Machine}, HasStack d' top → Partly (pushArgs d' argv top [])
      (fun r _ => ∃ sp us, r = some (sp, us) ∧ sp + (argv.map width).sum = top ∧
        us.length = [].length + argv.length) u := fun {d' u} hd => by
    have halign := hd.aligned
    have hroom := hd.room
    refine pushArgs_fits hd argv top [] u le_rfl ?_ ?_ (by simpa using hn)
    · simp only [PGSIZE] at halign
      omega
    · omega
  cases h with
  | @pages d' u h =>
      have hround : npages (PGROUNDUP sz) = npages sz := by
        simp only [npages, PGROUNDUP, PGSIZE]
        omega
      have hmax : max (PGROUNDUP sz) top = top := max_eq_right (by omega)
      have hcall : Partly (allocuvm k d (PGROUNDUP sz) top)
          (fun r t => r.2 = max (PGROUNDUP sz) top ∧ Supplied t r.1 0) m :=
        allocuvm_supplied hK (by rwa [hmax, hround])
      have hr := (wp_of_ok hcall h).1
      have hpos : 0 < PGSIZE := by decide
      rw [hmax] at hr
      dsimp only at hr
      omega
  | strings hd h =>
      obtain ⟨sp, us, hr, -⟩ := wp_of_ok (hpush hd) h
      cases hr
  | @words d' u v w sp us hd hpushed h =>
      obtain ⟨sp', us', hr, hsum, hlen⟩ := wp_of_ok (hpush hd) hpushed
      cases hr
      have hsize := hd.size
      have hroom := hd.room
      have hK' : KERNBASE < 2 ^ 32 := by decide
      have hwords : (ustackWords sp us).length = argv.length + 4 := by
        simp [ustackWords, hlen]
      rw [hwords] at h
      have hesp : (sp + 2 ^ 32 - (argv.length + 4) * 4) % 2 ^ 32 + (argv.length + 4) * 4 = sp := by
        omega
      cases wp_of_ok (copyout_fits hd (by omega) (by omega) _ v) h

/-- Arguments that fit in a page do not wrap. -/
theorem noWrap_of_le {top : ℕ} (argv : List (List UInt8)) : ∀ sp, sp < 2 ^ 32 → sp % 4 = 0 →
    (argv.map width).sum ≤ sp → NoWrap top argv sp := by
  induction argv with
  | nil => exact fun _ _ _ _ => trivial
  | cons arg argv ih =>
      intro sp hsp halign hsum
      rw [List.map_cons, List.sum_cons] at hsum
      have hwidth := length_lt_width arg
      have hfit : arg.length + 1 ≤ sp := by omega
      obtain ⟨hp, halign'⟩ := below_add_width hsp halign hfit
      exact ⟨hfit, fun _ => ih _ (by omega) halign' (by omega)⟩

/-- Arguments that fit into the page do not wrap. -/
theorem noWrap_stackTop (hf : InOrder f) (hfits : stackBytes argv ≤ PGSIZE) :
    NoWrap (stackTop f) argv (stackTop f) := by
  have hK : KERNBASE < 2 ^ 32 := by decide
  have hsize := hf.size
  unfold stackBytes at hfits
  refine noWrap_of_le argv _ (by omega) ?_ ?_
  · simp only [stackTop, PGROUNDUP, PGSIZE]
    omega
  · rw [stackTop]
    omega

/-- **Nothing is refused**, of a file in order and arguments that fit, where there are pages. -/
theorem Refused.elim {s : Machine} (h : Refused k f argv s) (hf : InOrder f) (hs : Ample s f)
    (hn : argv.length ≤ MAXARG) (hfits : stackBytes argv ≤ PGSIZE) : False := by
  have hle : npages (loadSize f (field (f.take EHSIZE) 44 2) (field (f.take EHSIZE) 28 4) 0) ≤
      npages (stackTop f) := npages_mono (by
    rw [stackTop]
    simp only [PGROUNDUP, PGSIZE]
    omega)
  have hsetup : Partly (setupkvm k)
      (fun r t => ∃ d, r = some d ∧ Supplied t d (npages (stackTop f))) s :=
    setupkvm_supplied hs.granting hs.enough
  have hloads : ∀ {d₀ : Pgdir} {m₀ : Machine}, setupkvm k s = .ok (some d₀, m₀) →
      Partly (loadProgram k f (field (f.take EHSIZE) 44 2) (field (f.take EHSIZE) 28 4) d₀ 0)
        (fun r t => r.2 = some (loadSize f (field (f.take EHSIZE) 44 2)
            (field (f.take EHSIZE) 28 4) 0) ∧
          Supplied t r.1 (npages (stackTop f) - npages (loadSize f (field (f.take EHSIZE) 44 2)
            (field (f.take EHSIZE) 28 4) 0))) m₀ := fun hk => by
    obtain ⟨d, hd, hm⟩ := wp_of_ok hsetup hk
    cases hd
    refine loadProgram_supplied hf.length _ _ _ 0 _ hf.segments ?_
    rwa [show npages 0 = 0 from rfl, Nat.sub_zero, Nat.add_sub_cancel' hle]
  cases h with
  | header h => exact h.elim (absurd hf.header) (absurd hf.magic)
  | kernel h =>
      obtain ⟨d, hd, -⟩ := wp_of_ok hsetup h
      cases hd
  | segment hk h =>
      cases (wp_of_ok (hloads hk) h).1
  | stack hload h =>
      obtain ⟨d₀, m₀, hk, hrun⟩ := hload
      obtain ⟨hsz, hm⟩ := wp_of_ok (hloads hk) hrun
      cases hsz
      exact h.elim rfl hf.size hm hn hfits

/-! ### The call -/

/-- A null pointer is followed only where the stack pointer wraps. -/
theorem exec_ends {k : Linked} {s : Kernel} (found : Bool) (f : List UInt8)
    (ho : Owns k.toSymbols s.mem (s.proc.pgdir.pages + F)) (hl : s.locked = false) :
    Ends (¬ NoWrap (stackTop f) argv (stackTop f)) (exec k.toSymbols found f path argv)
      (Execs k.toSymbols F found f argv s) s :=
  exec_starts found f ho hl fun _ u hd _ ho' => pushArgs_faults hd argv _ _ u
    (Nat.sub_le _ _) le_rfl (Nat.zero_le _) ho'

/-- The call returns, where no push wraps. -/
theorem exec_returns {k : Linked} {s : Kernel} (found : Bool) (f path : List UInt8)
    {argv : List (List UInt8)} (ho : Owns k.toSymbols s.mem (s.proc.pgdir.pages + F))
    (hl : s.locked = false) (hw : NoWrap (stackTop f) argv (stackTop f)) :
    ∃ r t, exec k.toSymbols found f path argv s = .ok (r, t) ∧
      Execs k.toSymbols F found f argv s r t :=
  wp_returns (exec_ends found f ho hl) fun _ he => he.2 hw

/-- **A file in order is run**, with arguments that fit, where there are pages enough. -/
theorem exec_succeeds {k : Linked} {s : Kernel} (path : List UInt8) (argv : List (List UInt8))
    (ho : Owns k.toSymbols s.mem (s.proc.pgdir.pages + F)) (hl : s.locked = false)
    (hf : InOrder f) (hs : Ample s.mem f) (hn : argv.length ≤ MAXARG)
    (hfits : stackBytes argv ≤ PGSIZE) :
    ∃ t, exec k.toSymbols true f path argv s = .ok (0, t) ∧ Committed k.toSymbols F s t := by
  obtain ⟨r, t, hr, hout, -, hno⟩ :=
    exec_returns true f path ho hl (noWrap_stackTop hf hfits)
  rcases hout with ⟨rfl, hc⟩ | ⟨h1, -⟩
  · exact ⟨t, hr, hc⟩
  · exact ((hno h1 rfl).elim hf hs hn hfits).elim

/-- A string that is longer than a page is not pushed. -/
theorem Started.length_lt {G : Multiset Page} {m v w x : Machine} {sp : ℕ} {us : List ℕ}
    {u : Kernel} {arg : List UInt8} (h : Started k G m d sz (arg :: argv) v w x sp us u) :
    arg.length < PGSIZE := by
  have hd := h.stack
  have hpush := h.pushed
  by_contra hlen
  have hno : Lib.wp (fun _ => True) (pushArgs u.proc.pgdir (arg :: argv) u.proc.sz [])
      (fun r _ => r = none) v := by
    rw [pushArgs, if_neg (by decide)]
    refine wp_seq (wp_weaken (push_faults hd h.owns (Nat.sub_le _ _) le_rfl arg.length (bytes arg))
      fun _ _ => trivial) ?_
    rintro ok t ⟨-, hok⟩
    cases ok with
    | false => exact rfl
    | true =>
        obtain ⟨hfit, hlow, -⟩ := hok rfl
        have hK : KERNBASE < 2 ^ 32 := by decide
        have hpg : 0 < PGSIZE := by decide
        have hsize := hd.size
        rw [below_eq (by omega) hfit] at hlow
        omega
  cases wp_of_ok hno hpush

/-- A process with one page, outside of any transaction. -/
def roomyKernel : Kernel := ⟨roomyMachine, ⟨smallSpace, 100, 0, 0, []⟩, 0, 1, false⟩

theorem spinFile_stackTop : stackTop spinFile = 4 * PGSIZE := by decide

theorem spinFile_inOrder : InOrder spinFile :=
  ⟨by decide, by decide, by decide, by decide, by rw [spinFile_stackTop]; decide⟩

theorem roomyMachine_ample : Ample roomyMachine spinFile := by
  refine ⟨roomyMachine_granting, ?_⟩
  show 1 + NPDENTRIES + npages (stackTop spinFile) ≤ roomyPages.length
  rw [spinFile_stackTop, length_roomyPages]
  decide

/-- **`exec` survives any file and fails cleanly**: it reaches no panic, and where it returns `-1`
the process is what it was, every page taken is back, and the inode and the log are let go. -/
theorem exec_fails_cleanly {k : Linked} {s : Kernel} (found : Bool) (f path : List UInt8)
    {argv : List (List UInt8)} (ho : Owns k.toSymbols s.mem (s.proc.pgdir.pages + F))
    (hl : s.locked = false) (hw : NoWrap (stackTop f) argv (stackTop f)) :
    ∃ r t, exec k.toSymbols found f path argv s = .ok (r, t) ∧
      (r = 0 ∧ Committed k.toSymbols F s t ∨ r = -1 ∧ Clean F s t) := by
  obtain ⟨r, t, hr, hout, -⟩ := exec_returns found f path ho hl hw
  exact ⟨r, t, hr, hout⟩

/-- A program is run; and a string that is longer than a page is refused when all else is done. -/
theorem exec_fails_cleanly_small :
    (∃ t, exec smallLinked.toSymbols true spinFile [] [[0x78]] roomyKernel = .ok (0, t) ∧
      Committed smallLinked.toSymbols 0 roomyKernel t) ∧
    ∃ t, exec smallLinked.toSymbols true spinFile [] [List.replicate 5000 0x78] roomyKernel =
      .ok (-1, t) ∧ Clean 0 roomyKernel t := by
  have ho : Owns smallLinked.toSymbols roomyKernel.mem (roomyKernel.proc.pgdir.pages + 0) :=
    roomyMachine_owns
  have hlong : NoWrap (stackTop spinFile) [List.replicate 5000 0x78] (stackTop spinFile) := by
    refine ⟨?_, fun _ => trivial⟩
    rw [spinFile_stackTop, List.length_replicate]
    decide
  have hshort : NoWrap (stackTop spinFile) [[0x78]] (stackTop spinFile) :=
    noWrap_stackTop spinFile_inOrder (by decide)
  constructor
  · obtain ⟨t, ht, -⟩ := exec_succeeds [] [[0x78]] ho rfl spinFile_inOrder roomyMachine_ample
      (by decide) (by decide)
    obtain ⟨r, u, hu, hout⟩ := exec_fails_cleanly true spinFile [] ho rfl hshort
    rw [ht] at hu
    cases hu
    exact ⟨t, ht, hout.elim And.right fun h => absurd h.1 (by decide)⟩
  · obtain ⟨r, u, hu, -, hstarted, -⟩ := exec_returns true spinFile [] ho rfl hlong
    obtain ⟨r', u', hu', hout⟩ := exec_fails_cleanly true spinFile [] ho rfl hlong
    rw [hu] at hu'
    cases hu'
    rcases hout with ⟨h0, -⟩ | ⟨rfl, hc⟩
    · obtain ⟨d, sz, m, v, w, x, sp, us, -, -, h⟩ := hstarted h0
      have hlt := h.length_lt
      rw [List.length_replicate] at hlt
      exact absurd hlt (by decide)
    · exact ⟨u, hu, hc⟩

end Xv6.Uvm
