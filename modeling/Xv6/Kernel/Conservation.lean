import Xv6.Kernel.Boot
import Xv6.Uvm.Fork
import Mathlib.Algebra.Order.BigOperators.Group.Finset

/-!
# Kernel — nothing is lost, and nothing is freed twice

Every system call takes the kernel from rest to rest: with nothing in anyone's hand, each page is
on the free list or owned once (`Inv`), and each file has as many references as descriptors.  This
holds on every path of a call, whatever `kalloc` refuses and whatever tables are full.

* `pages_conserved` — after any sequence of system calls every page handed to the allocator is in
  exactly one place.
* `files_counted` — after any sequence of system calls the references are counted right, the pipes
  are open as their files are, and no call panics in `file.c`.
-/

namespace Xv6.Kernel

open Xv6.Process (NPROC State)
open Xv6.Vm (Page Pgdir Kmem Symbols KERNBASE)
open Xv6.Uvm (smallLinked smallSpace roomyPages roomyMachine)
open Lib (Balances wp wp_bind wp_get wp_modify)

variable {all hp : Multiset Page} {hr : Fin NFILE → ℤ} {fresh : List (Fin NFILE)} {s t : System}
  {i np : Fin NPROC} {f : Fin NFILE} {fd : Fin NOFILE} {k : Symbols}

/-- No call is in progress. -/
def Rest (all : Multiset Page) (s : System) : Prop := Inv all 0 (fun _ => 0) [] s

theorem slots_pos (h : (s.proc i).ofile fd = some f) : 0 < s.slots f := by
  have hfd : 1 ≤ ∑ fd, if (s.proc i).ofile fd = some f then 1 else 0 := by
    refine le_trans ?_ (Finset.single_le_sum (fun _ _ => Nat.zero_le _) (Finset.mem_univ fd))
    simp [h]
  refine lt_of_lt_of_le hfd ?_
  exact Finset.single_le_sum (f := fun i => ∑ fd, if (s.proc i).ofile fd = some f then 1 else 0)
    (fun _ _ => Nat.zero_le _) (Finset.mem_univ i)

/-- A file with a descriptor has references. -/
theorem Inv.ref_pos (h : Inv all hp hr fresh s) (hf : 0 ≤ hr f)
    (hfd : (s.proc i).ofile fd = some f) : 0 < (s.file f).ref := by
  have h₁ := h.refs f
  have h₂ := slots_pos hfd
  omega

theorem not_free_of_live (h : (s.proc i).state.live = true) :
    (s.proc i).state ≠ .unused ∧ (s.proc i).state ≠ .zombie := by
  constructor <;> intro e <;> simp [e, State.live] at h

/-- The position in an inode moves on. -/
theorem Rest.setOff (h : Rest all s) (n : ℕ) :
    Rest all (s.setFile f { s.file f with off := n }) := by
  refine (h.setFile (x := { s.file f with off := n }) [] (fun _ _ => by simp [IsEnd]) (h.free f)
    (h.typed f) (by simp)).congr rfl (fun g => ?_) (by simp)
  simp

section Sysfile

variable (h : Rest all s) (hi : (s.proc i).state.live = true)
include h

/-- A descriptor is of a file that has a type. -/
theorem Rest.typed_of_fd (hf : (s.proc i).ofile fd = some f) : (s.file f).type ≠ .none := by
  simpa using h.typed f (h.ref_pos le_rfl hf)

/-- `read` goes from rest to rest. -/
theorem Rest.sys_read {n r : ℤ} : wp Admitted (sys_read i n r) (fun _ t => Rest all t) s := by
  refine wp_bind.mpr (wp_argfd h fun fd f hf => ?_)
  show wp Admitted (if (s.file f).readable = false then pure (-1) else _) _ s
  split
  · exact h
  split
  · exact h
  · split
    · exact h.setOff _
    · exact h
  · rename_i ht
    exact absurd ht (h.typed_of_fd hf)

/-- `write` goes from rest to rest. -/
theorem Rest.sys_write {n r : ℤ} : wp Admitted (sys_write i n r) (fun _ t => Rest all t) s := by
  refine wp_bind.mpr (wp_argfd h fun fd f hf => ?_)
  show wp Admitted (if (s.file f).writable = false then pure (-1) else _) _ s
  split
  · exact h
  split
  · exact h
  · split
    · exact h.setOff _
    · exact h
  · rename_i ht
    exact absurd ht (h.typed_of_fd hf)

theorem Rest.sys_close {n : ℤ} : wp Admitted (sys_close k i n) (fun _ t => Rest all t) s := by
  refine wp_bind.mpr (wp_argfd h fun fd f hf => ?_)
  dsimp only
  rw [wp_bind, wp_modify, wp_bind]
  refine wp_fileclose (h.setFd i fd none (.inl rfl)) (h.ref_pos le_rfl hf) fun t ht => ?_
  exact ht.inv.congr rfl (fun g => by simp [hf]) (by simp)

include hi

theorem Rest.sys_dup {n : ℤ} : wp Admitted (sys_dup i n) (fun _ t => Rest all t) s := by
  refine wp_bind.mpr (wp_argfd h fun fd f hf => wp_bind.mpr (wp_fdalloc h fun fd' hfd' => ?_))
  have hI := h.setFd i fd' (some f) (.inr (not_free_of_live hi))
  refine wp_bind.mpr (wp_filedup (h.ref_pos le_rfl hf) ?_)
  exact (hI.dup (h.ref_pos le_rfl hf)).congr rfl (fun g => by simp [hfd']) (by simp)

/-- `open` goes from rest to rest: a file without a descriptor is closed again. -/
theorem Rest.sys_open {ip : Option ℕ} {wronly rdwr : Bool} :
    wp Admitted (sys_open k i ip wronly rdwr) (fun _ t => Rest all t) s := by
  cases ip with
  | none => exact h
  | some ip =>
      refine wp_bind.mpr (wp_filealloc h h fun f t ht => wp_bind.mpr (wp_fdalloc ?_ fun fd hfd => ?_))
      · refine wp_bind.mpr (wp_fileclose_fresh ht.inv ht.ref fun u hu _ _ => ?_)
        exact hu
      · have hlive : (t.proc i).state.live = true := by rwa [ht.proc]
        have hI := ht.inv.setFd i fd (some f) (.inr (not_free_of_live hlive))
        have hpos : 0 < (t.file f).ref := by rw [ht.ref]; decide
        refine (hI.setFile (x := { t.file f with
          type := .inode
          ip := ip
          off := 0
          readable := !wronly
          writable := wronly || rdwr }) [] (fun _ _ => ?_) (fun e => ?_) (by simp)
          (by simp)).congr rfl (fun g => ?_) (by simp)
        · have : ((t.setFd i fd (some f)).file f).type = .none := ht.type
          simp [IsEnd, this]
        · dsimp only at e
          omega
        · simp [hfd, System.setFd, System.setProc]

/-- `pipe` goes from rest to rest: whatever it cannot finish it gives up. -/
theorem Rest.sys_pipe {argptr : Bool} :
    wp Admitted (sys_pipe k i argptr) (fun _ t => Rest all t) s := by
  rw [Kernel.sys_pipe]
  split
  · exact h
  refine wp_bind.mpr (wp_pipealloc h (fun t ht _ => ht) fun rf wf t ht => ?_)
  have hlive : (t.proc i).state.live = true := by rwa [ht.proc]
  -- Both files are given up again.
  have hclose : ∀ u : System, u.file = t.file →
      Inv all 0 (fun g => one (some rf) g + one (some wf) g) [] u →
      wp Admitted (do fileclose k rf; fileclose k wf; pure (-1) : Sys ℤ) (fun _ t => Rest all t) u := by
    intro u hu hI
    refine wp_bind.mpr (wp_fileclose hI (by rw [hu, ht.refs.1]; decide) fun v hv => ?_)
    have hwf : 0 < (v.file wf).ref := by
      rw [hv.others wf ht.ne.symm, hu, ht.refs.2]
      decide
    refine wp_bind.mpr (wp_fileclose hv.inv hwf fun w hw => ?_)
    exact hw.inv.congr rfl (fun g => by omega) (by simp)
  refine wp_bind.mpr (wp_fdalloc ?_ fun fd₀ h₀ => ?_)
  · exact hclose t rfl (ht.inv.congr rfl (fun g => by omega) (by simp))
  have hI := ht.inv.setFd i fd₀ (some rf) (.inr (not_free_of_live hlive))
  have hlive' : ((t.setFd i fd₀ (some rf)).proc i).state.live = true := by
    simpa [System.setFd, System.setProc] using hlive
  refine wp_bind.mpr (wp_fdalloc ?_ fun fd₁ h₁ => ?_)
  · dsimp only
    rw [wp_bind, wp_modify]
    refine hclose _ rfl ((hI.setFd i fd₀ none (.inl rfl)).congr rfl (fun g => ?_) (by simp))
    have : ((t.setFd i fd₀ (some rf)).proc i).ofile fd₀ = some rf := by
      simp [System.setFd, System.setProc]
    simp only [this, h₀, one_none]
    omega
  · refine (hI.setFd i fd₁ (some wf) (.inr (not_free_of_live hlive'))).congr rfl (fun g => ?_) (by simp)
    simp only [h₀, h₁, one_none]
    omega

end Sysfile

/-! ### The calls of `proc.c` and `exec.c` -/

theorem procPages_used {x : Proc} (h : x.state ≠ .unused) :
    procPages x = x.kstack.elim 0 ({·}) + Vm.dirPages x.pgdir := if_neg h

/-- A process has a new directory, for its old one and pages of the free list. -/
theorem Rest.setPgdir (h : Rest all s) (hi : (s.proc i).state.live = true) {m : Kmem} {d : Pgdir}
    {sz : ℕ} (hm : m.free + d.pages = s.kmem.free + Vm.dirPages (s.proc i).pgdir)
    (hsz : sz < KERNBASE) :
    Rest all ({ s with kmem := m }.setProc i { s.proc i with pgdir := some d, sz := sz }) := by
  have hne := not_free_of_live hi
  refine h.setProc rfl ?_ (fun e => absurd e (by simp [hne])) fun _ => hsz
  simp only [procPages, if_neg hne.1, add_zero]
  calc _ = (s.proc i).kstack.elim 0 ({·}) + (m.free + d.pages) := by ac_rfl
    _ = _ := by rw [hm]; ac_rfl

/-- The free list is what it was. -/
theorem Rest.mem (h : Rest all s) {m : Kmem} (hm : m.free = s.kmem.free) :
    Rest all { s with kmem := m } :=
  { h with
    total := by
      rw [← h.total, ← hm]
      rfl }

/-- `growproc` goes from rest to rest. -/
theorem Rest.growproc (h : Rest all s) (hi : (s.proc i).state.live = true) {n : ℤ} :
    wp Admitted (growproc k i n) (fun _ t => Rest all t) s := by
  have hsz := h.sizes i (not_free_of_live hi).1
  rw [Kernel.growproc, wp_bind, wp_get]
  dsimp only
  split
  · trivial
  rename_i d hd
  split
  · exact h
  have hbal : Balances Kmem.free d.pages
      (if 0 < n then Vm.allocuvm k d (s.proc i).sz (addSize (s.proc i).sz n)
        else Vm.deallocuvm k d (s.proc i).sz (addSize (s.proc i).sz n))
      fun r g => g = r.1.pages ∧ r.2 < KERNBASE := by
    split
    · exact Vm.allocuvm_balances k (.inl hsz) d
    · refine (Vm.deallocuvm_balances k hsz.le d).mono ?_
      rintro r g ⟨hg, e, _⟩
      refine ⟨hg, ?_⟩
      rw [e]
      omega
  refine wp_bind.mpr (wp_onMem hbal ?_)
  rintro r m g ⟨hg, hlt⟩ hm
  have hm' : m.free + r.1.pages = s.kmem.free + Vm.dirPages (s.proc i).pgdir := by
    rw [hd, ← hg]
    exact hm
  split
  · exact h.setPgdir hi hm' hsz
  · exact h.setPgdir hi hm' hlt

/-- `exec` goes from rest to rest: the old directory is freed after the new one is there. -/
theorem Rest.exec (h : Rest all s) (hi : (s.proc i).state.live = true) {img : Vm.Image} :
    wp Admitted (exec k i img) (fun _ t => Rest all t) s := by
  refine wp_bind.mpr (wp_onMem (Vm.exec_balances k img) fun r m g ⟨hg, hlt⟩ hm => ?_)
  subst hg
  cases r with
  | none =>
      exact h.mem (by simpa [Vm.dirPages] using hm)
  | some r =>
      dsimp only
      rw [wp_bind, wp_get, wp_bind, wp_modify]
      refine wp_bind.mpr (wp_onMem (Vm.freevm_balances k (s.proc i).pgdir) fun _ m' g hg hm' => ?_)
      subst hg
      refine h.setPgdir hi ?_ (hlt r.1 r.2 rfl)
      have hm : m.free + r.1.pages = s.kmem.free := by simpa [Vm.dirPages] using hm
      have hm' : m'.free = m.free + Vm.dirPages (s.proc i).pgdir := (add_zero _).symm.trans hm'
      rw [hm', ← hm]
      ac_rfl

/-- `wait` goes from rest to rest: stack and directory of the zombie are freed. -/
theorem Rest.wait (h : Rest all s) : wp Admitted (wait k i) (fun _ t => Rest all t) s := by
  rw [Kernel.wait, wp_bind, wp_get]
  dsimp only
  split
  · exact h
  rename_i q hq
  have hz : (s.proc q).state = .zombie := by
    have := List.find?_some hq
    simp only [decide_eq_true_eq] at this
    exact this.2
  split
  · trivial
  rename_i kstack hk
  refine wp_bind.mpr (wp_onMem (Vm.kfree_balances k kstack) fun _ m g hg hm => ?_)
  subst hg
  refine wp_bind.mpr (wp_onMem (Vm.freevm_balances k (s.proc q).pgdir) fun _ m' g hg hm' => ?_)
  subst hg
  refine Inv.setProc h rfl ?_ (fun _ => h.closed q (.inr hz)) (fun e => absurd rfl e)
  have hm' : m'.free = m.free + Vm.dirPages (s.proc q).pgdir := by simpa using hm'
  have hm : m.free = s.kmem.free + {kstack} := by simpa using hm
  show m'.free + 0 + 0 = s.kmem.free + procPages (s.proc q) + 0
  rw [procPages_used (by simp [hz]), hk, hm', hm]
  simp only [Option.elim_some, add_zero]
  ac_rfl

/-- The loop of `fork` over the descriptors, into an entry that has none of them yet. -/
theorem Rest.dupFiles (fds : List (Fin NOFILE)) : ∀ s, Rest all s →
    (s.proc np).state = .embryo → (∀ fd ∈ fds, (s.proc np).ofile fd = none) → fds.Nodup →
      wp Admitted (dupFiles i np fds) (fun _ t => Rest all t ∧ (t.proc np).state = .embryo) s := by
  induction fds with
  | nil => exact fun s h hst _ _ => ⟨h, hst⟩
  | cons fd fds ih =>
      intro s h hst hno hnd
      obtain ⟨hfd, hnd⟩ := List.nodup_cons.mp hnd
      have hrest : ∀ fd' ∈ fds, (s.proc np).ofile fd' = none := fun fd' h' => hno fd' (by simp [h'])
      rw [Kernel.dupFiles, wp_bind, wp_get]
      dsimp only
      split
      · exact ih s h hst hrest hnd
      · rename_i f hf
        have hpos := h.ref_pos le_rfl hf
        refine wp_bind.mpr (wp_filedup hpos ?_)
        have hI := (h.dup hpos).setFd np fd (some f) (.inr (by simp [System.setFile, hst]))
        refine ih _ (hI.congr rfl (fun g => ?_) (by simp)) ?_ (fun fd' h' => ?_) hnd
        · have : ((s.setFile f { s.file f with ref := (s.file f).ref + 1 }).proc np).ofile fd = none :=
            hno fd (by simp)
          simp [this]
        · simpa [System.setFd, System.setProc, System.setFile] using hst
        · have : fd' ≠ fd := by
            rintro rfl
            exact hfd h'
          simpa [System.setFd, System.setProc, System.setFile, this] using hrest fd' h'

/-- `fork` goes from rest to rest, wherever it fails. -/
theorem Rest.fork (h : Rest all s) (hi : (s.proc i).state.live = true) :
    wp Admitted (fork k i) (fun _ t => Rest all t) s := by
  rw [Kernel.fork, wp_bind, wp_get]
  dsimp only
  split
  · exact h
  rename_i np hnp
  have hun : (s.proc np).state = .unused := by simpa using List.find?_some hnp
  have hne : i ≠ np := by
    rintro rfl
    exact (not_free_of_live hi).1 hun
  have hno := h.closed np (.inl hun)
  have hold : procPages (s.proc np) = 0 := if_pos hun
  -- A free entry may be set to any other.
  have hfree : ∀ (m : Kmem) (x : Proc), m.free = s.kmem.free → x.state = .unused →
      x.ofile = (s.proc np).ofile → Rest all ({ s with kmem := m }.setProc np x) := by
    intro m x hm hx hof
    refine Inv.setProc h hof ?_ (fun _ => hof ▸ hno) fun e => absurd hx e
    rw [hold, show procPages x = 0 from if_pos hx, hm]
  rw [wp_bind, wp_modify]
  refine wp_bind.mpr (wp_onMem Vm.kalloc_balances fun r m g hg hm => ?_)
  subst hg
  have hm : m.free + r.elim 0 ({·}) = s.kmem.free := hm.trans (add_zero _)
  cases r with
  | none =>
      have := hfree m { s.proc np with kstack := none, state := .unused } (by simpa using hm) rfl rfl
      rw [wp_bind, wp_modify]
      simpa [System.setProc] using this
  | some kstack =>
      dsimp only
      rw [wp_bind, wp_modify]
      split
      · trivial
      rename_i pgdir hpg
      have hsz := h.sizes i (not_free_of_live hi).1
      refine wp_bind.mpr (wp_onMem (Vm.copyuvm_balances k hsz pgdir) fun r m' g hg hm' => ?_)
      subst hg
      have hm' : m'.free + Vm.dirPages r = m.free := hm'.trans (add_zero _)
      cases r with
      | none =>
          refine wp_bind.mpr (wp_onMem (Vm.kfree_balances k kstack) fun _ m'' g hg hm'' => ?_)
          subst hg
          have hm'' : m''.free + 0 = m'.free + {kstack} := hm''
          have hfr : m''.free = s.kmem.free := by
            rw [← hm, ← hm', ← add_zero m''.free, hm'']
            simp [Vm.dirPages]
          have := hfree m'' { s.proc np with pgdir := none, kstack := none, state := .unused } hfr rfl rfl
          rw [wp_bind, wp_modify]
          simpa [System.setProc] using this
      | some d =>
          rw [wp_bind, wp_modify]
          have hchild : Rest all ({ s with kmem := m' }.setProc np { s.proc np with
              state := .embryo
              kstack := some kstack
              pgdir := some d
              sz := (s.proc i).sz
              parent := some i }) := by
            refine Inv.setProc h rfl ?_ (by simp) fun _ => hsz
            rw [hold, procPages_used (by simp), ← hm, ← hm']
            simp only [Vm.dirPages, Option.elim_some, add_zero]
            ac_rfl
          refine wp_bind.mpr (Lib.wp_mono (Q := fun _ t => Rest all t ∧ (t.proc np).state = .embryo)
            (Rest.dupFiles (List.finRange NOFILE) _ ?_ ?_ ?_ (List.nodup_finRange _)) ?_)
          · simpa [System.setProc, hne] using hchild
          · simp [System.setProc]
          · simpa [System.setProc] using hno
          · rintro _ t ⟨ht, hst⟩
            rw [wp_bind, wp_modify]
            refine Inv.setProc ht rfl ?_ (by simp) fun _ => ht.sizes np (by simp [hst])
            simp [procPages, hst]

/-- The loop of `exit` over the descriptors. -/
theorem Rest.closeFiles (fds : List (Fin NOFILE)) : ∀ s, Rest all s →
    (s.proc i).state.live = true → (∀ fd ∉ fds, (s.proc i).ofile fd = none) →
      wp Admitted (closeFiles k i fds) (fun _ t => Rest all t ∧ (t.proc i).state.live = true ∧
        ∀ fd, (t.proc i).ofile fd = none) s := by
  induction fds with
  | nil => exact fun s h hi hno => ⟨h, hi, fun fd => hno fd (by simp)⟩
  | cons fd fds ih =>
      intro s h hi hno
      rw [Kernel.closeFiles, wp_bind, wp_get]
      dsimp only
      split
      · rename_i hf
        refine ih s h hi fun fd' h' => ?_
        by_cases e : fd' = fd
        · rw [e, hf]
        · exact hno fd' (by simp [e, h'])
      · rename_i f hf
        refine wp_bind.mpr (wp_fileclose h (h.ref_pos le_rfl hf) fun t ht => ?_)
        rw [wp_bind, wp_modify]
        refine ih _ ((ht.inv.setFd i fd none (.inl rfl)).congr rfl (fun g => ?_) (by simp)) ?_
          fun fd' h' => ?_
        · rw [ht.proc, hf]
          simp
        · simpa [System.setFd, System.setProc, ht.proc] using hi
        · by_cases e : fd' = fd
          · simp [System.setFd, System.setProc, e]
          · simpa [System.setFd, System.setProc, ht.proc, e] using hno fd' (by simp [e, h'])

/-- A process without open files becomes a zombie. -/
theorem Rest.bury (h : Rest all s) (hi : (s.proc i).state.live = true)
    (hno : ∀ fd, (s.proc i).ofile fd = none) : Rest all (s.bury i) := by
  have hof : ∀ j, ((s.bury i).proc j).ofile = (s.proc j).ofile := by
    intro j
    simp only [System.bury]
    split <;> split <;> rfl
  have hstate : ∀ j, ((s.bury i).proc j).state = if j = i then .zombie else (s.proc j).state := by
    intro j
    simp only [System.bury]
    split <;> split <;> rfl
  have hsz : ∀ j, ((s.bury i).proc j).sz = (s.proc j).sz := by
    intro j
    simp only [System.bury]
    split <;> split <;> rfl
  have hpages : ∀ j, procPages ((s.bury i).proc j) = procPages (s.proc j) := by
    intro j
    have hk : ((s.bury i).proc j).kstack = (s.proc j).kstack ∧
        ((s.bury i).proc j).pgdir = (s.proc j).pgdir := by
      simp only [System.bury]
      split <;> split <;> exact ⟨rfl, rfl⟩
    rw [procPages, hk.1, hk.2, hstate]
    by_cases e : j = i
    · rw [if_pos e, e, procPages_used (not_free_of_live hi).1]
      rfl
    · rw [if_neg e]
      rfl
  exact { h with
    total := by
      rw [← h.total, System.pages, Finset.sum_congr rfl fun j _ => hpages j]
      rfl
    refs := by
      intro f
      simp only [System.slots, hof]
      exact h.refs f
    closed := by
      intro j hj fd
      rw [hof]
      by_cases e : j = i
      · rw [e, hno]
      · rw [hstate, if_neg e] at hj
        exact h.closed j hj fd
    sizes := by
      intro j hj
      rw [hsz]
      by_cases e : j = i
      · rw [e]
        exact h.sizes i (not_free_of_live hi).1
      · rw [hstate, if_neg e] at hj
        exact h.sizes j hj }

/-- `exit` goes from rest to rest: every descriptor is closed. -/
theorem Rest.exit (h : Rest all s) (hi : (s.proc i).state.live = true) :
    wp Admitted (exit k i) (fun _ t => Rest all t) s := by
  rw [Kernel.exit, wp_bind, wp_get]
  split
  · trivial
  · refine wp_bind.mpr (Lib.wp_mono (Rest.closeFiles (List.finRange NOFILE) s h hi ?_)
      fun _ t ⟨ht, hi', hno⟩ => ht.bury hi' hno)
    exact fun fd hfd => absurd (List.mem_finRange fd) hfd

/-- **Every system call goes from rest to rest.** -/
theorem Rest.call (h : Rest all s) (hi : (s.proc i).state.live = true) (c : Call) :
    wp Admitted (call k i c) (fun _ t => Rest all t) s := by
  cases c with
  | fork => exact wp_bind.mpr (h.fork hi)
  | exec img => exact wp_bind.mpr (h.exec hi)
  | sbrk n => exact wp_bind.mpr (h.growproc hi)
  | exit => exact h.exit hi
  | wait => exact wp_bind.mpr h.wait
  | pipe argptr => exact wp_bind.mpr (h.sys_pipe hi)
  | openFile ip wronly rdwr => exact wp_bind.mpr (h.sys_open hi)
  | dup fd => exact wp_bind.mpr (h.sys_dup hi)
  | close fd => exact wp_bind.mpr h.sys_close
  | read fd r => exact wp_bind.mpr h.sys_read
  | write fd r => exact wp_bind.mpr h.sys_write

theorem Rest.run {cs : List (Fin NPROC × Call)} (h : Rest all s) (hr : Lib.Run (Step k) s cs t) :
    Rest all t :=
  hr.inv (fun _ c _ hstep hs =>
    Lib.wp_of_ok (Q := fun _ t => Rest all t) (hs.call hstep.1 c.2) hstep.2) h

/-- After boot the kernel is at rest. -/
theorem Booted.rest (h : Booted all s) : Rest all s where
  total := (add_zero _).trans h.total
  distinct := h.distinct
  refs f := by simp [System.slots, h.descriptors, (h.files f).1]
  free f _ := (h.files f).2
  typed f hf := by
    rw [(h.files f).1] at hf
    omega
  piped := by
    rw [h.pipes.1]
    have hno : ∀ f p w, ¬ IsEnd s.file f p w := fun f p w hf => by simp [IsEnd, h.files] at hf
    exact ⟨by simp, fun f p w hf => absurd hf (hno f p w), by simp,
      fun f g p w hf => absurd hf (hno f p w), by simp⟩
  history := by simp [h.pipes]
  closed i _ := h.descriptors i
  sizes i hi := by
    by_cases e : i = s.initproc
    · rw [e, h.initproc.2]
      decide
    · exact absurd (h.others i e) hi

/-! ### A run with a child -/

/-- `fork`, where `kalloc` and `copyuvm` succeed: the loop over the descriptors is left. -/
theorem fork_copied {kstack : Page} {d d' : Pgdir} {m m' : Kmem}
    (hnp : ((List.finRange NPROC).find? fun i => (s.proc i).state = .unused) = some np)
    (hne : i ≠ np) (hk : Vm.kalloc s.kmem = .ok (some kstack, m)) (hd : (s.proc i).pgdir = some d)
    (hc : Vm.copyuvm k d (s.proc i).sz m = .ok (some d', m')) :
    fork k i s = (do
      dupFiles i np (List.finRange NOFILE)
      modify fun s => s.setProc np { s.proc np with state := .runnable }
      pure (some np) : Sys _) ({ s with kmem := m' }.setProc np { s.proc np with
        state := .embryo
        kstack := some kstack
        pgdir := some d'
        sz := (s.proc i).sz
        parent := some i }) := by
  simp only [fork, bind, StateT.bind, Except.bind, get, getThe, MonadStateOf.get, StateT.get, pure,
    Except.pure, hnp, modify, modifyGet, MonadStateOf.modifyGet, StateT.modifyGet, onMem,
    System.setProc, hk, Function.update_of_ne hne, hd, hc, Function.update_self,
    Function.update_idem]

/-- `wait`, where a child is a zombie and its pages can be freed. -/
theorem wait_freed {q : Fin NPROC} {kstack : Page} {m m' : Kmem}
    (hq : ((List.finRange NPROC).find? fun j =>
      (s.proc j).parent = some i ∧ (s.proc j).state = .zombie) = some q)
    (hk : (s.proc q).kstack = some kstack) (hm : Vm.kfree k kstack s.kmem = .ok ((), m))
    (hm' : Vm.freevm k (s.proc q).pgdir m = .ok ((), m')) :
    wait k i s = .ok (some q, { s with kmem := m' }.setProc q
      { s.proc q with kstack := none, parent := none, state := .unused }) := by
  simp only [wait, bind, StateT.bind, Except.bind, get, getThe, MonadStateOf.get, StateT.get, pure,
    Except.pure, hq, hk, modify, modifyGet, MonadStateOf.modifyGet, StateT.modifyGet, onMem,
    System.setProc, hm, hm']
  rfl

/-- A call of a process that can make it, if it returns. -/
def next (k : Symbols) (s : System) (c : Fin NPROC × Call) : Option System :=
  if (s.proc c.1).state.live then (call k c.1 c.2 s).toOption.map Prod.snd else none

theorem run_of_next {cs : List (Fin NPROC × Call)} (h : cs.foldlM (next k) s = some t) :
    Lib.Run (Step k) s cs t := by
  refine (Lib.Run.of_foldlM h).mono fun c _ s u hu => ?_
  simp only [next, Option.ite_none_right_eq_some, Option.map_eq_some_iff, Lib.toOption_eq_some] at hu
  obtain ⟨hlive, ⟨⟨⟩, u'⟩, hc, rfl⟩ := hu
  exact ⟨hlive, hc⟩

/-- A first process of one page, with two thousand free pages and one. -/
def smallBoot : Boot := ⟨⟨0x303000, fun _ => none⟩, [], 0x304000, smallSpace.erase, 0, true⟩

/-- The kernel after such a boot. -/
def smallKernel : System := smallBoot.kernel ⟨0x310000 :: roomyPages, 0, fun _ => false⟩

/-- The pages of the kernel, apart from the two thousand. -/
def smallGoods : Multiset Page := {0x310000, 0x303000, 0x304000, 0x300000, 0x301000, 0x302000}

/-- The pages of the small kernel are distinct, and each is in one place. -/
theorem smallKernel_booted : Booted (roomyPages + smallGoods) smallKernel := by
  refine Boot.booted ?_ ?_ rfl
  · refine Multiset.nodup_add.mpr ⟨Multiset.coe_nodup.mpr Uvm.nodup_roomyPages, by decide, ?_⟩
    refine Multiset.disjoint_left.mpr fun hp hq => ?_
    obtain ⟨j, -, rfl⟩ := Uvm.mem_roomyPages.mp (Multiset.mem_coe.mp hp)
    have hlow : ∀ p ∈ smallGoods, p < 0x400000 := by decide
    have := hlow _ hq
    simp only [Page] at this
    omega
  · have hspace := Uvm.smallSpace_pages
    unfold Uvm.Pgdir.pages at hspace
    have hfree : Kmem.free ⟨0x310000 :: roomyPages, 0, fun _ => false⟩ =
        {0x310000} + (roomyPages : Multiset Page) := rfl
    have hgoods : smallGoods =
        {0x310000} + ({0x303000} + {0x304000} + {0x300000, 0x301000, 0x302000}) := rfl
    simp only [Boot.pages, smallBoot, Vm.pages_empty, hspace, hfree, hgoods, if_true,
      Multiset.coe_nil, add_zero]
    ac_rfl

/-- A descriptor more for a file. -/
def System.addFd (s : System) (i : Fin NPROC) (fd : Fin NOFILE) (f : Fin NFILE) : System :=
  (s.setFile f { s.file f with ref := (s.file f).ref + 1 }).setFd i fd (some f)

/-- The first process has made a pipe, and duplicated its read end. -/
def pipedKernel : System :=
  let rf : Fin NFILE := ⟨0, by decide⟩
  let wf : Fin NFILE := ⟨1, by decide⟩
  let s := smallKernel.setFile rf { smallKernel.file rf with ref := 1 }
  let s := s.setFile wf { s.file wf with ref := 1 }
  let s := { s with kmem := ⟨roomyPages, 1, fun _ => false⟩ }.addPipe 0x310000 rf wf
  let s := (s.setFd 0 ⟨0, by decide⟩ (some rf)).setFd 0 ⟨1, by decide⟩ (some wf)
  (s.setFd 0 ⟨2, by decide⟩ (some rf)).setFile rf { s.file rf with ref := 2 }

/-- It has a child, with the kernel stack `q` and the directory `d`. -/
def forkedKernel (q : Page) (d : Pgdir) (m : Kmem) : System :=
  let rf : Fin NFILE := ⟨0, by decide⟩
  let wf : Fin NFILE := ⟨1, by decide⟩
  let s := { pipedKernel with kmem := m }.setProc 1 { pipedKernel.proc 1 with
    state := .embryo
    kstack := some q
    pgdir := some d
    sz := Vm.PGSIZE
    parent := some 0 }
  let s := (s.addFd 1 ⟨0, by decide⟩ rf).addFd 1 ⟨1, by decide⟩ wf
  let s := s.addFd 1 ⟨2, by decide⟩ rf
  s.setProc 1 { s.proc 1 with state := .runnable }

/-- The child closes its read ends and exits, and is the zombie for which the first process
waits. -/
theorem forkedKernel_ends (q : Page) (d : Pgdir) (m : Kmem) :
    ([(1, .close 0), (1, .close 2), (1, .exit)].foldlM (next smallLinked.toSymbols)
      (forkedKernel q d m)).map (fun s => ((List.finRange NPROC).find? fun j =>
        (s.proc j).parent = some 0 ∧ (s.proc j).state = .zombie, (s.proc 1).kstack,
          (s.proc 1).pgdir, (s.proc 0).state, s.kmem)) =
      some (some 1, some q, some d, .runnable, m) := rfl

/-- The space of the first process is copied, into pages that can be freed. -/
theorem smallSpace_copied {q : ℕ} {rest : List ℕ} (h : roomyPages = q :: rest) :
    ∃ (d : Uvm.Pgdir) (u : Uvm.Machine), Vm.copyuvm smallLinked.toSymbols smallSpace.erase Vm.PGSIZE
        ⟨rest, 2, fun _ => false⟩ = .ok (some d.erase, u.kmem) ∧
      Uvm.Valid smallLinked.toSymbols q ∧ ∀ p ∈ d.pages, Uvm.Valid smallLinked.toSymbols p := by
  let s : Uvm.Machine := ⟨⟨rest, 2, fun _ => false⟩, fun _ => 7⟩
  have ho : Uvm.Owns smallLinked.toSymbols s (smallSpace.pages + {q}) := by
    refine Uvm.roomyMachine_owns.of_eq ?_
    have hfree : s.kmem.free + {q} = roomyMachine.kmem.free := by
      show (rest : Multiset Page) + {q} = (roomyPages : Multiset Page)
      rw [h, add_comm, Multiset.singleton_add, Multiset.cons_coe]
    rw [add_comm smallSpace.pages, ← add_assoc, hfree, add_zero]
  have hmap : ∀ j < Uvm.npages Vm.PGSIZE, smallSpace.Mapped j := by
    intro j hj
    obtain rfl : j = 0 := Nat.lt_one_iff.mp hj
    exact (Uvm.smallSpace_mapped (by decide)).mpr rfl
  have hlen : 1 + Vm.NPDENTRIES + Uvm.npages Vm.PGSIZE ≤ s.kmem.freelist.length := by
    have hroomy := Uvm.length_roomyPages
    rw [h, List.length_cons] at hroomy
    show _ ≤ rest.length
    rw [Nat.succ.inj hroomy]
    decide
  obtain ⟨r, u, hr, hfree, -⟩ := Lib.wp_returns (Uvm.copyuvm_total (by decide) hmap ho) fun _ => id
  obtain ⟨d, rfl⟩ := Lib.wp_of_ok (Uvm.copyuvm_supplied (fun _ => rfl) hlen) hr
  have herase := Uvm.copyuvm_erases smallLinked.toSymbols smallSpace Vm.PGSIZE s
  rw [hr] at herase
  rw [Option.elim_some] at hfree
  refine ⟨d, u, herase, ho.valid_goods (by simp), fun p hp => ho.valid_free ?_⟩
  exact hfree ▸ Multiset.mem_add.mpr (.inr hp)

/-- A pipe is made, its read end duplicated, and a child started that shares the three descriptors;
the child closes two of them and exits, which closes the third, and is waited for. -/
def smallCalls : List (Fin NPROC × Call) :=
  [(0, .pipe true), (0, .dup 0), (0, .fork), (1, .close 0), (1, .close 2), (1, .exit), (0, .wait)]

/-- The calls are made, and each returns. -/
theorem smallCalls_run :
    ∃ t, Lib.Run (Step smallLinked.toSymbols) smallKernel smallCalls t := by
  obtain ⟨q, rest, hrest⟩ : ∃ q rest, roomyPages = q :: rest :=
    List.exists_cons_of_length_pos (by rw [Uvm.length_roomyPages]; decide)
  obtain ⟨d, u, hc, hq, hd⟩ := smallSpace_copied hrest
  have hfork : fork smallLinked.toSymbols 0 pipedKernel =
      .ok (some 1, forkedKernel q d.erase u.kmem) := by
    have hnp : ((List.finRange NPROC).find? fun i => (pipedKernel.proc i).state = .unused) =
      some 1 := rfl
    have hk : Vm.kalloc ⟨roomyPages, 1, fun _ => false⟩ =
        .ok (some q, ⟨rest, 2, fun _ => false⟩) := by
      rw [hrest]
      rfl
    have hpgdir : (pipedKernel.proc 0).pgdir = some smallSpace.erase := rfl
    rw [fork_copied hnp (by decide) hk hpgdir hc]
    rfl
  obtain ⟨s, hs, hends⟩ := Option.map_eq_some_iff.mp (forkedKernel_ends q d.erase u.kmem)
  simp only [Prod.mk.injEq] at hends
  obtain ⟨hz, hkstack, hpgdir, hlive, hm⟩ := hends
  -- The stack and the space of the child are freed.
  obtain ⟨_, v, hv, -⟩ := Lib.wp_returns (Uvm.kfree_total hq u) fun _ => id
  obtain ⟨_, w, hw, -⟩ := Lib.wp_returns (Uvm.freevm_total hd v) fun _ => id
  have hfree : Vm.kfree smallLinked.toSymbols q s.kmem = .ok ((), v.kmem) := by
    rw [hm, Uvm.kfree_erases smallLinked.toSymbols q u, hv]
    rfl
  have hfreevm : Vm.freevm smallLinked.toSymbols (s.proc 1).pgdir v.kmem = .ok ((), w.kmem) := by
    have herase := Uvm.freevm_erases smallLinked.toSymbols (some d) v
    rw [hw] at herase
    rw [hpgdir]
    exact herase
  have hcall : ∀ {α : Type} {x : Sys α} {s t : System} {a : α}, x s = .ok (a, t) →
      (x >>= fun _ => pure ()) s = .ok ((), t) := fun h => by
    simp only [bind, StateT.bind, Except.bind, h]
    rfl
  have hstart : Step smallLinked.toSymbols pipedKernel (0, .fork)
      (forkedKernel q d.erase u.kmem) := ⟨rfl, hcall hfork⟩
  have hend : Step smallLinked.toSymbols s (0, .wait) _ :=
    ⟨by rw [hlive]; rfl, hcall (wait_freed hz hkstack hfree hfreevm)⟩
  have hfirst : Lib.Run (Step smallLinked.toSymbols) smallKernel [(0, .pipe true), (0, .dup 0)]
    pipedKernel := run_of_next rfl
  exact ⟨_, hfirst.append (.cons hstart ((run_of_next hs).snoc hend))⟩

/-! ### The theorems -/

/-- **Pages are conserved.**  Whatever system calls the processes make, and whichever allocations
are refused, between calls each page handed to the allocator is once on the free list, or owned
once: as a directory, as a table of a directory, as a page mapped below `KERNBASE` by a directory,
as the kernel stack of a process, as a boot stack, or as a pipe.  No other page is. -/
theorem pages_conserved {cs : List (Fin NPROC × Call)} (hb : Booted all s)
    (hr : Lib.Run (Step k) s cs t) (a : Page) :
    (t.kmem.free + t.pages).count a = if a ∈ all then 1 else 0 := by
  have h := hb.rest.run hr
  rw [← add_zero (t.kmem.free + t.pages), h.total]
  split
  · rename_i ha
    exact Multiset.count_eq_one_of_mem h.distinct ha
  · rename_i ha
    exact Multiset.count_eq_zero_of_notMem ha

theorem pages_conserved_smallCalls :
    ∃ t, Lib.Run (Step smallLinked.toSymbols) smallKernel smallCalls t ∧
      (t.kmem.free + t.pages).count 0x310000 = 1 := by
  obtain ⟨t, ht⟩ := smallCalls_run
  refine ⟨t, ht, (pages_conserved smallKernel_booted ht 0x310000).trans (if_pos ?_)⟩
  exact Multiset.mem_add.mpr (.inr (by decide))

/-- **Open files are counted.**  Whatever system calls the processes make, and whichever tables and
allocations run out, between calls: a file has as many references as it has descriptors; an end of
a pipe is open exactly when a file with references is that end, and there is one such file; a page
that became a pipe has been freed once for each time, except while it is a pipe, when it has an
open end; and no further call panics in `file.c` or uses a pipe that has been freed. -/
theorem files_counted {cs : List (Fin NPROC × Call)} (hb : Booted all s)
    (hr : Lib.Run (Step k) s cs t) :
    (∀ f, (t.file f).ref = t.slots f) ∧
      (∀ q ∈ t.pipes, ∀ w, q.isOpen w = true ↔ ∃! f, 0 < (t.file f).ref ∧ IsEnd t.file f q.page w) ∧
      (∀ a, t.made.count a = t.freed.count a + if a ∈ t.pipes.map Pipe.page then 1 else 0) ∧
      (∀ q ∈ t.pipes, q.readopen = true ∨ q.writeopen = true) ∧
      ∀ i c e, (t.proc i).state.live = true → call k i c t = .error e →
        e ≠ .filedup ∧ e ≠ .fileclose ∧ e ≠ .fileread ∧ e ≠ .filewrite ∧ e ≠ .dangling := by
  have h := hb.rest.run hr
  refine ⟨fun f => ?_, fun q hq w => ⟨fun ho => ?_, fun ⟨f, hf, _⟩ => ?_⟩, fun a => ?_, fun q hq => ?_,
    fun i c e hi he => ?_⟩
  · have := h.refs f
    omega
  · obtain ⟨f, hf⟩ := h.piped.opened q hq w ho
    refine ⟨f, ⟨Nat.pos_of_ne_zero fun e => ?_, hf⟩, fun g hg => h.piped.unique g f _ w hg.2 hf⟩
    have := h.free f e
    rw [hf.1] at this
    cases this
  · obtain ⟨q', hq', hpage, ho⟩ := h.piped.ends f _ w hf.2
    rwa [← List.inj_on_of_nodup_map h.piped.nodup hq' hq hpage]
  · have := congrArg (Multiset.count a) h.history
    rw [Multiset.count_add, Multiset.coe_count, Multiset.coe_count, Multiset.coe_count] at this
    rw [this, h.piped.nodup.count]
  · obtain ⟨w, hw⟩ := h.piped.live q hq
    cases w with
    | false => exact .inl hw
    | true => exact .inr hw
  · have := Lib.wp_of_error (h.call hi c) he
    refine ⟨?_, ?_, ?_, ?_, ?_⟩ <;> rintro rfl <;> exact this

theorem files_counted_smallCalls :
    ∃ t, Lib.Run (Step smallLinked.toSymbols) smallKernel smallCalls t ∧
      ∀ f, (t.file f).ref = t.slots f := by
  obtain ⟨t, ht⟩ := smallCalls_run
  exact ⟨t, ht, (files_counted smallKernel_booted ht).1⟩

end Xv6.Kernel
