import Xv6.Kernel.Calls
import Xv6.Lib.Partial
import Mathlib.Algebra.BigOperators.Group.Finset.Piecewise
import Mathlib.Algebra.BigOperators.Fin

/-!
# Kernel — references to open files, and the pages of the kernel

The invariant of the kernel between system calls, and in the middle of one, where the call has
pages and references of its own (`Inv`):

* every page is on the free list, owned by the kernel, or in the caller's hand;
* a file has as many references as there are descriptors of it, and references in hand;
* a file without references has no type, and one with references has one, unless it is fresh;
* the files of type `FD_PIPE` are the open ends of the pipes, one for each (`Piped`);
* processes that are free or dead have no open files.

The functions of `file.c` and `pipe.c` move references and pages between the kernel and the hand
of the caller, and do not panic.
-/

namespace Xv6.Kernel

open Xv6.Process (NPROC State)
export Xv6.Vm (KERNBASE)
open Xv6.Vm (Page Pgdir Kmem Symbols)
open Lib (Balances wp wp_bind wp_get wp_modify)

/-! ### The ends of pipes -/

/-- The end is open. -/
def Pipe.isOpen (q : Pipe) (writable : Bool) : Bool :=
  if writable then q.writeopen else q.readopen

/-- `f` is the read end, or the write end, of the pipe in page `p`. -/
def IsEnd (file : Fin NFILE → File) (f : Fin NFILE) (p : Page) (writable : Bool) : Prop :=
  (file f).type = .pipe ∧ (file f).pipe = p ∧ (file f).writable = writable

/-- The files and the pipes fit: an open end is the end of one file. -/
structure Piped (file : Fin NFILE → File) (pipes : List Pipe) : Prop where
  nodup : (pipes.map Pipe.page).Nodup
  ends : ∀ f p w, IsEnd file f p w → ∃ q ∈ pipes, q.page = p ∧ q.isOpen w = true
  opened : ∀ q ∈ pipes, ∀ w, q.isOpen w = true → ∃ f, IsEnd file f q.page w
  unique : ∀ f g p w, IsEnd file f p w → IsEnd file g p w → f = g
  live : ∀ q ∈ pipes, ∃ w, q.isOpen w = true

@[simp]
theorem Pipe.page_close (q : Pipe) (w : Bool) : (q.close w).page = q.page := by
  unfold Pipe.close
  split <;> rfl

@[simp]
theorem Pipe.isOpen_close (q : Pipe) (w v : Bool) :
    (q.close w).isOpen v = (q.isOpen v && v != w) := by
  cases w <;> cases v <;> simp [Pipe.close, Pipe.isOpen]

variable {file file' : Fin NFILE → File} {pipes : List Pipe} {f : Fin NFILE} {p : Page} {w : Bool}
  {q : Pipe}

theorem Pipe.closed_iff : q.readopen = false ∧ q.writeopen = false ↔ ∀ v, q.isOpen v = false := by
  simp [Pipe.isOpen]

/-- What is done to the references changes no pipe. -/
theorem Piped.congr (h : Piped file pipes) (he : ∀ f p w, IsEnd file' f p w ↔ IsEnd file f p w) :
    Piped file' pipes where
  nodup := h.nodup
  ends f p w hf := h.ends f p w ((he f p w).mp hf)
  opened q hq w ho := by
    obtain ⟨f, hf⟩ := h.opened q hq w ho
    exact ⟨f, (he f _ w).mpr hf⟩
  unique f g p w hf hg := h.unique f g p w ((he f p w).mp hf) ((he g p w).mp hg)
  live := h.live

/-- A new pipe, with its two ends. -/
theorem Piped.add {f₀ f₁ : Fin NFILE} (h : Piped file pipes) (hp : p ∉ pipes.map Pipe.page)
    (he : ∀ f a v, IsEnd file' f a v ↔
      IsEnd file f a v ∨ a = p ∧ (v = false ∧ f = f₀ ∨ v = true ∧ f = f₁)) :
    Piped file' (⟨p, true, true⟩ :: pipes) where
  nodup := by simpa using ⟨by simpa using hp, h.nodup⟩
  ends f a v hf := by
    rcases (he f a v).mp hf with hf | ⟨rfl, -⟩
    · obtain ⟨q, hq, e⟩ := h.ends f a v hf
      exact ⟨q, List.mem_cons_of_mem _ hq, e⟩
    · exact ⟨_, List.mem_cons_self, rfl, by cases v <;> rfl⟩
  opened q hq v ho := by
    rcases List.mem_cons.mp hq with rfl | hq
    · cases v with
      | false => exact ⟨f₀, (he _ _ _).mpr (.inr ⟨rfl, .inl ⟨rfl, rfl⟩⟩)⟩
      | true => exact ⟨f₁, (he _ _ _).mpr (.inr ⟨rfl, .inr ⟨rfl, rfl⟩⟩)⟩
    · obtain ⟨f, hf⟩ := h.opened q hq v ho
      exact ⟨f, (he _ _ _).mpr (.inl hf)⟩
  unique f g a v hf hg := by
    -- No file was an end of a pipe in the new page.
    have hold : ∀ f v, ¬ IsEnd file f p v := by
      intro f v hf
      obtain ⟨q, hq, e, -⟩ := h.ends f p v hf
      exact hp (e ▸ List.mem_map_of_mem hq)
    rcases (he f a v).mp hf with hf | ⟨rfl, hf⟩ <;> rcases (he g _ v).mp hg with hg | ⟨e, hg⟩
    · exact h.unique f g a v hf hg
    · exact absurd (e ▸ hf) (hold f v)
    · exact absurd hg (hold g v)
    · rcases hf with ⟨rfl, rfl⟩ | ⟨rfl, rfl⟩ <;> rcases hg with ⟨e, rfl⟩ | ⟨e, rfl⟩ <;>
        first | rfl | cases e
  live q hq := by
    rcases List.mem_cons.mp hq with rfl | hq
    · exact ⟨true, rfl⟩
    · exact h.live q hq

section Close

variable (h : Piped file pipes) (hf : IsEnd file f p w)
  (hq : pipes.find? (fun q => q.page = p) = some q)
  (he : ∀ g a v, IsEnd file' g a v ↔ IsEnd file g a v ∧ g ≠ f)
include h hq

/-- The pipe at a page is found once. -/
theorem Piped.find_spec :
    q.page = p ∧ (∀ x, x ∈ pipes ↔ x = q ∨ x ∈ pipes.eraseP fun q => q.page = p) ∧
      p ∉ (pipes.eraseP fun q => q.page = p).map Pipe.page ∧
      ((pipes.eraseP fun q => q.page = p).map Pipe.page).Nodup := by
  have hperm := Lib.perm_of_find? hq
  have hpage : q.page = p := by simpa using List.find?_some hq
  have hn := (hperm.map Pipe.page).nodup_iff.mp h.nodup
  rw [List.map_cons, List.nodup_cons, hpage] at hn
  refine ⟨hpage, fun x => ?_, hn⟩
  rw [hperm.mem_iff, List.mem_cons]

include hf

include he

/-- The ends that stay, of the pipes that stay. -/
theorem Piped.ends_close {g : Fin NFILE} {a : Page} {v : Bool} (hg : IsEnd file' g a v) :
    (∃ x ∈ pipes.eraseP fun q => q.page = p, x.page = a ∧ x.isOpen v = true) ∨
      a = p ∧ (q.close w).isOpen v = true := by
  obtain ⟨hpage, hmem, hnot, -⟩ := h.find_spec hq
  obtain ⟨hg, hne⟩ := (he g a v).mp hg
  obtain ⟨x, hx, rfl, ho⟩ := h.ends g a v hg
  rcases (hmem x).mp hx with rfl | hx
  · refine .inr ⟨hpage, ?_⟩
    have hv : v ≠ w := by
      rintro rfl
      exact hne (h.unique g f p v (hpage ▸ hg) hf)
    simp [ho, hv]
  · exact .inl ⟨x, hx, rfl, ho⟩

theorem Piped.opened_close {x : Pipe} (hx : x ∈ pipes.eraseP fun q => q.page = p) {v : Bool}
    (ho : x.isOpen v = true) : ∃ g, IsEnd file' g x.page v := by
  obtain ⟨-, hmem, hnot, -⟩ := h.find_spec hq
  obtain ⟨g, hg⟩ := h.opened x ((hmem x).mpr (.inr hx)) v ho
  refine ⟨g, (he _ _ _).mpr ⟨hg, ?_⟩⟩
  rintro rfl
  exact hnot (List.mem_map.mpr ⟨x, hx, hg.2.1.symm.trans hf.2.1⟩)

/-- The other end stays open. -/
theorem Piped.close (hlive : ¬ ∀ v, (q.close w).isOpen v = false) :
    Piped file' (q.close w :: pipes.eraseP fun q => q.page = p) := by
  obtain ⟨hpage, hmem, hnot, hnd⟩ := h.find_spec hq
  refine ⟨?_, fun g a v hg => ?_, fun x hx v ho => ?_, fun g g' a v hg hg' => ?_, fun x hx => ?_⟩
  · rw [List.map_cons, List.nodup_cons, Pipe.page_close, hpage]
    exact ⟨hnot, hnd⟩
  · rcases h.ends_close hf hq he hg with ⟨x, hx, e⟩ | ⟨rfl, ho⟩
    · exact ⟨x, List.mem_cons_of_mem _ hx, e⟩
    · exact ⟨_, List.mem_cons_self, by simp [hpage], ho⟩
  · rcases List.mem_cons.mp hx with rfl | hx
    · simp only [Pipe.isOpen_close, Bool.and_eq_true, bne_iff_ne, Pipe.page_close] at ho ⊢
      obtain ⟨g, hg⟩ := h.opened q ((hmem q).mpr (.inl rfl)) v ho.1
      refine ⟨g, (he _ _ _).mpr ⟨hg, ?_⟩⟩
      rintro rfl
      exact ho.2 (hg.2.2.symm.trans hf.2.2)
    · exact h.opened_close hf hq he hx ho
  · exact h.unique g g' a v ((he _ _ _).mp hg).1 ((he _ _ _).mp hg').1
  · rcases List.mem_cons.mp hx with rfl | hx
    · obtain ⟨v, hv⟩ := not_forall.mp hlive
      exact ⟨v, Bool.eq_true_of_not_eq_false hv⟩
    · exact h.live x ((hmem x).mpr (.inr hx))

/-- The last end is closed. -/
theorem Piped.free (hdead : ∀ v, (q.close w).isOpen v = false) :
    Piped file' (pipes.eraseP fun q => q.page = p) := by
  obtain ⟨-, hmem, -, hnd⟩ := h.find_spec hq
  refine ⟨hnd, fun g a v hg => ?_, fun x hx v ho => h.opened_close hf hq he hx ho,
    fun g g' a v hg hg' => ?_, fun x hx => h.live x ((hmem x).mpr (.inr hx))⟩
  · rcases h.ends_close hf hq he hg with hx | ⟨-, ho⟩
    · exact hx
    · rw [hdead v] at ho
      cases ho
  · exact h.unique g g' a v ((he _ _ _).mp hg).1 ((he _ _ _).mp hg').1

end Close

/-! ### The invariant -/

/-- The pages of an entry of the process table. -/
def procPages (x : Proc) : Multiset Page :=
  if x.state = .unused then 0 else x.kstack.elim 0 ({·}) + Vm.dirPages x.pgdir

/-- The pages that the kernel owns: its own directory, the boot stacks of the CPUs, the pipes, and
the kernel stacks and directories of the processes. -/
def System.pages (s : System) : Multiset Page :=
  s.kpgdir.pages + s.bootStacks + s.pipes.map Pipe.page + ∑ i, procPages (s.proc i)

/-- The descriptors of a file. -/
def System.slots (s : System) (f : Fin NFILE) : ℕ :=
  ∑ i, ∑ fd, if (s.proc i).ofile fd = some f then 1 else 0

/-- One reference to a file, or none. -/
def one (o : Option (Fin NFILE)) (f : Fin NFILE) : ℤ := if o = some f then 1 else 0

@[simp]
theorem one_none (f : Fin NFILE) : one none f = 0 := rfl

theorem one_some (f g : Fin NFILE) : one (some f) g = if g = f then 1 else 0 := by
  simp [one, eq_comm]

/-- The invariant in the middle of a call that has the pages `hp` and the references `hr` in hand,
a negative number for references it owes, and that has yet to give the `fresh` files a type.  All
pages are `all`. -/
structure Inv (all hp : Multiset Page) (hr : Fin NFILE → ℤ) (fresh : List (Fin NFILE)) (s : System) :
    Prop where
  total : s.kmem.free + s.pages + hp = all
  distinct : all.Nodup
  refs : ∀ f, ((s.file f).ref : ℤ) = s.slots f + hr f
  free : ∀ f, (s.file f).ref = 0 → (s.file f).type = .none
  typed : ∀ f, 0 < (s.file f).ref → (s.file f).type ≠ .none ∨ f ∈ fresh
  piped : Piped s.file s.pipes
  history : (s.made : Multiset Page) = s.freed + s.pipes.map Pipe.page
  closed : ∀ i, (s.proc i).state = .unused ∨ (s.proc i).state = .zombie →
    ∀ fd, (s.proc i).ofile fd = none
  sizes : ∀ i, (s.proc i).state ≠ .unused → (s.proc i).sz < KERNBASE

/-- The panics of a call that the invariant does not exclude: those of `vm.c`, and the exit of
`init`. -/
def Admitted : Panic → Prop
  | .vm _ | .initExiting => True
  | .filedup | .fileclose | .fileread | .filewrite | .dangling => False

variable {all hp hp' : Multiset Page} {hr hr' : Fin NFILE → ℤ} {fresh fresh' : List (Fin NFILE)}
  {s : System} {i : Fin NPROC} {fd : Fin NOFILE} {k : Symbols}

namespace Inv

/-- The invariant speaks of pipes and counts only. -/
theorem congr (h : Inv all hp hr fresh s) (hhp : hp' = hp) (hhr : ∀ f, hr' f = hr f)
    (hfr : ∀ f ∈ fresh, 0 < (s.file f).ref → (s.file f).type ≠ .none ∨ f ∈ fresh') :
    Inv all hp' hr' fresh' s where
  total := hhp ▸ h.total
  distinct := h.distinct
  refs f := by rw [hhr, h.refs]
  free := h.free
  typed f hf := by
    rcases h.typed f hf with e | e
    · exact .inl e
    · exact hfr f e hf
  piped := h.piped
  history := h.history
  closed := h.closed
  sizes := h.sizes

/-- Pages move between the free list and the hand. -/
theorem mem (h : Inv all (hp + hp') hr fresh s) {m : Kmem} {r : Multiset Page}
    (hm : m.free + r = s.kmem.free + hp) : Inv all (r + hp') hr fresh { s with kmem := m } :=
  { h with
    total := by
      show m.free + s.pages + (r + hp') = all
      rw [← h.total]
      calc _ = (m.free + r) + s.pages + hp' := by ac_rfl
        _ = _ := by
          rw [hm]
          ac_rfl }

/-- Pages move between the free list, an entry of the process table and the hand. -/
theorem setProc (h : Inv all hp hr fresh s) {m : Kmem} {x : Proc}
    (hof : x.ofile = (s.proc i).ofile)
    (hpg : m.free + procPages x + hp' = s.kmem.free + procPages (s.proc i) + hp)
    (hcl : x.state = .unused ∨ x.state = .zombie → ∀ fd, x.ofile fd = none)
    (hsz : x.state ≠ .unused → x.sz < KERNBASE) :
    Inv all hp' hr fresh ({ s with kmem := m }.setProc i x) :=
  { h with
    total := by
      have hsum := Lib.sum_update (Finset.mem_univ i) (fun _ => procPages) s.proc x
      rw [← h.total]
      simp only [System.pages, System.setProc]
      refine add_right_cancel (b := procPages (s.proc i)) ?_
      generalize ∑ j, procPages (Function.update s.proc i x j) = A at *
      generalize ∑ j, procPages (s.proc j) = B at *
      generalize s.kpgdir.pages + (s.bootStacks : Multiset Page) + (s.pipes.map Pipe.page : List Page)
        = C
      calc _ = C + (A + procPages (s.proc i)) + m.free + hp' := by ac_rfl
        _ = C + B + (m.free + procPages x + hp') := by rw [hsum]; ac_rfl
        _ = _ := by rw [hpg]; ac_rfl
    refs := by
      intro f
      have hslots : ({ s with kmem := m }.setProc i x : System).slots f = s.slots f := by
        refine Finset.sum_congr rfl fun j _ => ?_
        by_cases hj : j = i
        · subst hj
          simp [System.setProc, hof]
        · simp [System.setProc, hj]
      rw [hslots]
      exact h.refs f
    closed := by
      intro j hj
      by_cases e : j = i
      · subst e
        simp only [System.setProc, Function.update_self] at hj ⊢
        exact hcl hj
      · simp only [System.setProc, Function.update_of_ne e] at hj ⊢
        exact h.closed j hj
    sizes := by
      intro j hj
      by_cases e : j = i
      · subst e
        simp only [System.setProc, Function.update_self] at hj ⊢
        exact hsz hj
      · simp only [System.setProc, Function.update_of_ne e] at hj ⊢
        exact h.sizes j hj }

/-- A descriptor that changes its file is counted for the new one. -/
theorem slots_setFd (s : System) (i : Fin NPROC) (fd : Fin NOFILE) (o : Option (Fin NFILE))
    (f : Fin NFILE) :
    ((s.setFd i fd o).slots f : ℤ) + one ((s.proc i).ofile fd) f = s.slots f + one o f := by
  have h₁ := Lib.sum_update (Finset.mem_univ i)
    (fun _ (x : Proc) => ∑ fd, if x.ofile fd = some f then 1 else 0) s.proc
    { s.proc i with ofile := Function.update (s.proc i).ofile fd o }
  have h₂ := Lib.sum_update (Finset.mem_univ fd)
    (fun _ (o : Option (Fin NFILE)) => if o = some f then 1 else 0) (s.proc i).ofile o
  have hone : ∀ o, one o f = ((if o = some f then 1 else 0 : ℕ) : ℤ) := by
    intro o
    unfold one
    split <;> rfl
  rw [hone, hone]
  dsimp only at h₁
  have h₃ : (s.setFd i fd o).slots f + ∑ fd, (if (s.proc i).ofile fd = some f then 1 else 0) =
      s.slots f + ∑ fd', if Function.update (s.proc i).ofile fd o fd' = some f then 1 else 0 := h₁
  omega

/-- References move between the descriptors and the hand. -/
theorem setFd (h : Inv all hp hr fresh s) (i : Fin NPROC) (fd : Fin NOFILE) (o : Option (Fin NFILE))
    (hi : o = none ∨ (s.proc i).state ≠ .unused ∧ (s.proc i).state ≠ .zombie) :
    Inv all hp (fun f => hr f + one ((s.proc i).ofile fd) f - one o f) fresh (s.setFd i fd o) :=
  { h with
    total := by
      have hsum : ∑ j, procPages ((s.setFd i fd o).proc j) = ∑ j, procPages (s.proc j) := by
        refine Finset.sum_congr rfl fun j _ => ?_
        by_cases hj : j = i
        · subst hj
          simp [System.setFd, System.setProc, procPages]
        · simp [System.setFd, System.setProc, hj]
      rw [System.pages, hsum]
      exact h.total
    refs := by
      intro f
      have h₁ := slots_setFd s i fd o f
      have h₂ := h.refs f
      show ((s.file f).ref : ℤ) = _
      omega
    closed := by
      intro j hj fd'
      by_cases e : j = i
      · subst e
        simp only [System.setFd, System.setProc, Function.update_self] at hj ⊢
        rcases hi with rfl | ⟨h₁, h₂⟩
        · by_cases e' : fd' = fd
          · rw [e', Function.update_self]
          · rw [Function.update_of_ne e']
            exact h.closed j hj fd'
        · exact absurd hj (by simp [h₁, h₂])
      · simp only [System.setFd, System.setProc, Function.update_of_ne e] at hj ⊢
        exact h.closed j hj fd'
    sizes := by
      intro j hj
      by_cases e : j = i
      · subst e
        simp only [System.setFd, System.setProc, Function.update_self] at hj ⊢
        exact h.sizes j hj
      · simp only [System.setFd, System.setProc, Function.update_of_ne e] at hj ⊢
        exact h.sizes j hj }

/-- A file is set, and with it, maybe, the pipes and the free list. -/
theorem setFileOf {t : System} {x : File} (fresh' : List (Fin NFILE)) (h : Inv all hp hr fresh s)
    (hfile : t.file = Function.update s.file f x) (hproc : t.proc = s.proc)
    (htotal : t.kmem.free + t.pages + hp = all) (hpi : Piped t.file t.pipes)
    (hhist : (t.made : Multiset Page) = t.freed + t.pipes.map Pipe.page)
    (hfree : x.ref = 0 → x.type = .none) (htyped : 0 < x.ref → x.type ≠ .none ∨ f ∈ fresh')
    (hfr : ∀ g ∈ fresh, g ≠ f → g ∈ fresh') :
    Inv all hp (fun g => hr g + if g = f then (x.ref : ℤ) - (s.file f).ref else 0) fresh' t where
  total := htotal
  distinct := h.distinct
  refs g := by
    have := h.refs g
    rw [show t.slots g = s.slots g by rw [System.slots, hproc]; rfl, hfile]
    by_cases e : g = f
    · subst e
      simp only [Function.update_self, if_pos]
      omega
    · simp only [Function.update_of_ne e, if_neg e]
      omega
  free g hg := by
    rw [hfile] at hg ⊢
    by_cases e : g = f
    · subst e
      rw [Function.update_self] at hg ⊢
      exact hfree hg
    · rw [Function.update_of_ne e] at hg ⊢
      exact h.free g hg
  typed g hg := by
    rw [hfile] at hg ⊢
    by_cases e : g = f
    · subst e
      rw [Function.update_self] at hg ⊢
      exact htyped hg
    · rw [Function.update_of_ne e] at hg ⊢
      exact (h.typed g hg).imp_right fun hm => hfr g hm e
  piped := hpi
  history := hhist
  closed := hproc ▸ h.closed
  sizes := hproc ▸ h.sizes

/-- A file is set; the pipes stay. -/
theorem setFile {x : File} (fresh' : List (Fin NFILE)) (h : Inv all hp hr fresh s)
    (hpi : ∀ a v, IsEnd (Function.update s.file f x) f a v ↔ IsEnd s.file f a v)
    (hfree : x.ref = 0 → x.type = .none) (htyped : 0 < x.ref → x.type ≠ .none ∨ f ∈ fresh')
    (hfr : ∀ g ∈ fresh, g ≠ f → g ∈ fresh') :
    Inv all hp (fun g => hr g + if g = f then (x.ref : ℤ) - (s.file f).ref else 0) fresh'
      (s.setFile f x) := by
  refine h.setFileOf fresh' rfl rfl h.total (h.piped.congr fun g a v => ?_) h.history hfree htyped hfr
  by_cases e : g = f
  · subst e
    exact hpi a v
  · simp [IsEnd, System.setFile, e]

/-- The references of a file are set. -/
theorem setRef (fresh' : List (Fin NFILE)) (h : Inv all hp hr fresh s) {n : ℕ} (hfree : n = 0 → (s.file f).type = .none)
    (htyped : 0 < n → (s.file f).type ≠ .none ∨ f ∈ fresh') (hfr : ∀ g ∈ fresh, g ≠ f → g ∈ fresh') :
    Inv all hp (fun g => hr g + if g = f then (n : ℤ) - (s.file f).ref else 0) fresh'
      (s.setFile f { s.file f with ref := n }) := by
  refine h.setFile (x := { s.file f with ref := n }) fresh' (fun _ _ => ?_) hfree htyped hfr
  simp [IsEnd]

/-- `filealloc` gives out a reference to a fresh file. -/
theorem alloc (h : Inv all hp hr fresh s) (hf : (s.file f).ref = 0) :
    Inv all hp (fun g => hr g + one (some f) g) (f :: fresh)
      (s.setFile f { s.file f with ref := 1 }) := by
  refine (h.setRef (f :: fresh) (by simp) (by simp) (by simp +contextual)).congr rfl
    (fun g => ?_) fun g hg _ => .inr hg
  by_cases e : g = f <;> simp [one_some, e, hf]

theorem dup (h : Inv all hp hr fresh s) (hf : 0 < (s.file f).ref) :
    Inv all hp (fun g => hr g + one (some f) g) fresh
      (s.setFile f { s.file f with ref := (s.file f).ref + 1 }) := by
  refine (h.setRef fresh (by simp) (fun _ => h.typed f hf) (fun g hg _ => hg)).congr rfl
    (fun g => ?_) fun g hg _ => .inr hg
  by_cases e : g = f <;> simp [one_some, e]

end Inv

/-! ### The functions of `file.c` and `pipe.c` -/

section Rules

variable {α : Type}

/-- What the memory does leaves files and processes. -/
theorem wp_onMem {x : Vm.Vm α} {g : Multiset Page} {post : α → Multiset Page → Prop}
    {Q : α → System → Prop} (hx : Balances Kmem.free g x post)
    (hQ : ∀ a m r, post a r → m.free + r = s.kmem.free + g → Q a { s with kmem := m }) :
    wp Admitted (onMem x) Q s := by
  unfold wp onMem
  cases hm : x s.kmem with
  | error e => trivial
  | ok y =>
      obtain ⟨r, hr, e⟩ := hx _ _ _ hm
      exact hQ _ _ r hr e

/-- What `filealloc` gives out: a fresh file, with one reference. -/
structure Allocated (all hp : Multiset Page) (hr : Fin NFILE → ℤ) (fresh : List (Fin NFILE))
    (f : Fin NFILE) (s t : System) : Prop where
  inv : Inv all hp (fun g => hr g + one (some f) g) (f :: fresh) t
  proc : t.proc = s.proc
  others : ∀ g, g ≠ f → t.file g = s.file g
  free : (s.file f).ref = 0
  ref : (t.file f).ref = 1
  type : (t.file f).type = .none

/-- `filealloc` gives a file with one count, or nothing. -/
theorem wp_filealloc (h : Inv all hp hr fresh s) {Q : Option (Fin NFILE) → System → Prop}
    (hnone : Q none s) (hsome : ∀ f t, Allocated all hp hr fresh f s t → Q (some f) t) :
    wp Admitted filealloc Q s := by
  rw [filealloc, wp_bind, wp_get]
  dsimp only
  split
  · exact hnone
  · rename_i f hf
    have hz : (s.file f).ref = 0 := by simpa using List.find?_some hf
    exact hsome f _ ⟨h.alloc hz, rfl, fun g hg => Function.update_of_ne hg _ _, hz,
      by simp [System.setFile], by simpa [System.setFile] using h.free f hz⟩

theorem wp_filedup {Q : Unit → System → Prop} (hf : 0 < (s.file f).ref)
    (hQ : Q () (s.setFile f { s.file f with ref := (s.file f).ref + 1 })) :
    wp Admitted (filedup f) Q s := by
  show wp Admitted (if (s.file f).ref < 1 then throw .filedup else _) Q s
  rw [if_neg (by omega)]
  exact hQ

/-- `fdalloc` takes a descriptor that is free, or nothing. -/
theorem wp_fdalloc {Q : Option (Fin NOFILE) → System → Prop} (hnone : Q none s)
    (hsome : ∀ fd, (s.proc i).ofile fd = none → Q (some fd) (s.setFd i fd (some f))) :
    wp Admitted (fdalloc i f) Q s := by
  rw [fdalloc, wp_bind, wp_get]
  split
  · exact hnone
  · rename_i fd hfd
    exact hsome fd (by simpa using List.find?_some hfd)

/-- `argfd` finds a descriptor that is open, or nothing. -/
theorem wp_argfd {n : ℤ} {Q : Option (Fin NOFILE × Fin NFILE) → System → Prop} (hnone : Q none s)
    (hsome : ∀ fd f, (s.proc i).ofile fd = some f → Q (some (fd, f)) s) :
    wp Admitted (argfd i n) Q s := by
  show wp Admitted (if h : 0 ≤ n ∧ n.toNat < NOFILE then _ else pure none) Q s
  split
  · split
    · exact hnone
    · rename_i f hf
      exact hsome _ f hf
  · exact hnone

/-- What `fileclose` leaves: the caller has given a reference up. -/
structure Closed (all hp : Multiset Page) (hr : Fin NFILE → ℤ) (fresh : List (Fin NFILE))
    (f : Fin NFILE) (s t : System) : Prop where
  inv : Inv all hp (fun g => hr g - one (some f) g) fresh t
  proc : t.proc = s.proc
  others : ∀ g, g ≠ f → t.file g = s.file g
  ref : (t.file f).ref = (s.file f).ref - 1

/-- The last reference to a file that is no pipe is given up. -/
theorem Inv.release (h : Inv all hp hr fresh s) (hf : (s.file f).ref = 1)
    (ht : (s.file f).type ≠ .pipe) :
    Closed all hp hr fresh f s (s.setFile f { s.file f with ref := 0, type := .none }) where
  inv := by
    refine (h.setFile (x := { s.file f with ref := 0, type := .none }) fresh (fun _ _ => ?_)
      (fun _ => rfl) (by simp) (fun g hg _ => hg)).congr rfl (fun g => ?_) fun g hg _ => .inr hg
    · simp [IsEnd, ht]
    · by_cases e : g = f <;> simp [one_some, e, hf]
      rfl
  proc := rfl
  others g hg := Function.update_of_ne hg _ _
  ref := by simp [System.setFile, hf]

/-- The last reference to an end of a pipe is given up; `t` is the kernel with the end closed. -/
theorem Inv.releaseEnd {t : System} (h : Inv all hp hr fresh s) (hf : (s.file f).ref = 1)
    (hfile : t.file = Function.update s.file f { s.file f with ref := 0, type := .none })
    (hproc : t.proc = s.proc) (htotal : t.kmem.free + t.pages = s.kmem.free + s.pages)
    (hpi : Piped t.file t.pipes)
    (hhist : (t.made : Multiset Page) = t.freed + t.pipes.map Pipe.page) :
    Closed all hp hr fresh f s t where
  inv := by
    refine (h.setFileOf fresh hfile hproc (htotal ▸ h.total) hpi hhist (fun _ => rfl) (by simp)
      (fun g hg _ => hg)).congr rfl (fun g => ?_) fun g hg _ => .inr hg
    by_cases e : g = f <;> simp [one_some, e, hf]
    rfl
  proc := hproc
  others g hg := by rw [hfile, Function.update_of_ne hg]
  ref := by rw [hfile, Function.update_self, hf]

/-- `pipeclose`, when the last reference to an end of the pipe is given up. -/
theorem Inv.pipeclose (h : Inv all hp hr fresh s) (hf : (s.file f).ref = 1)
    (ht : (s.file f).type = .pipe) {Q : Unit → System → Prop}
    (hQ : ∀ t, Closed all hp hr fresh f s t → Q () t) :
    wp Admitted (pipeclose k (s.file f).pipe (s.file f).writable) Q
      (s.setFile f { s.file f with ref := 0, type := .none }) := by
  have hend : IsEnd s.file f (s.file f).pipe (s.file f).writable := ⟨ht, rfl, rfl⟩
  have hends : ∀ g a v, IsEnd (Function.update s.file f { s.file f with ref := 0, type := .none }) g a v ↔
      IsEnd s.file g a v ∧ g ≠ f := by
    intro g a v
    by_cases e : g = f
    · subst e
      simp [IsEnd]
    · simp [IsEnd, e]
  obtain ⟨x, hx, hxp, -⟩ := h.piped.ends f _ _ hend
  obtain ⟨q, hq⟩ : ∃ q, s.pipes.find? (fun q => q.page = (s.file f).pipe) = some q :=
    Option.isSome_iff_exists.mp (List.find?_isSome.mpr ⟨x, hx, by simpa using hxp⟩)
  obtain ⟨hpage, -⟩ := h.piped.find_spec hq
  have hperm : ((s.pipes.map Pipe.page : List Page) : Multiset Page) =
      {(s.file f).pipe} + ((s.pipes.eraseP fun q => q.page = (s.file f).pipe).map Pipe.page : List Page) := by
    have := (Lib.perm_of_find? hq).map Pipe.page
    rw [Multiset.coe_eq_coe.mpr this, List.map_cons, hpage]
    rfl
  rw [Kernel.pipeclose, wp_bind, wp_get]
  dsimp only [System.setFile]
  rw [hq]
  dsimp only
  split
  · rename_i hdead
    -- The page goes from the pipes to the free list.
    rw [wp_bind, wp_modify]
    refine wp_onMem (Vm.kfree_balances k _) fun _ m r hr hm => hQ _ ?_
    subst hr
    refine h.releaseEnd hf rfl rfl ?_ (h.piped.free hend hq hends (Pipe.closed_iff.mp hdead)) ?_
    · show m.free + (_ + ((s.pipes.eraseP fun q => q.page = (s.file f).pipe).map Pipe.page : List Page)
        + _) = _
      rw [System.pages, hperm, ← add_zero m.free, hm]
      dsimp only
      ac_rfl
    · show (s.made : Multiset Page) = ((s.file f).pipe :: s.freed : List Page) + _
      rw [h.history, hperm, ← Multiset.cons_coe, ← Multiset.singleton_add]
      ac_rfl
  · rename_i hlive
    refine hQ _ (h.releaseEnd hf rfl rfl ?_ (h.piped.close hend hq hends ?_) ?_)
    · show s.kmem.free + (_ + ((q.close _ :: s.pipes.eraseP _).map Pipe.page : List Page) + _) = _
      rw [System.pages, hperm, List.map_cons, Pipe.page_close, hpage]
      rfl
    · rwa [Pipe.closed_iff] at hlive
    · show (s.made : Multiset Page) = s.freed + ((q.close _ :: s.pipes.eraseP _).map Pipe.page : List Page)
      rw [h.history, hperm, List.map_cons, Pipe.page_close, hpage]
      rfl

/-- `fileclose` takes one count, and with the last one the end of the pipe. -/
theorem wp_fileclose (h : Inv all hp hr fresh s) (hf : 0 < (s.file f).ref) {Q : Unit → System → Prop}
    (hQ : ∀ t, Closed all hp hr fresh f s t → Q () t) : wp Admitted (fileclose k f) Q s := by
  show wp Admitted (if (s.file f).ref < 1 then throw .fileclose
    else if (s.file f).ref - 1 > 0 then _ else _) Q s
  rw [if_neg (by omega)]
  split
  · rename_i hlt
    refine hQ _ ⟨?_, rfl, fun g hg => Function.update_of_ne hg _ _, by simp [System.setFile]⟩
    refine (h.setRef fresh (by omega) (fun _ => h.typed f hf) fun g hg _ => hg).congr rfl
      (fun g => ?_) fun g hg _ => .inr hg
    rw [one_some]
    split
    · omega
    · omega
  · have hone : (s.file f).ref = 1 := by omega
    rw [wp_bind, wp_modify]
    cases ht : (s.file f).type with
    | pipe => exact h.pipeclose hone ht hQ
    | inode => exact hQ _ (h.release hone (by simp [ht]))
    | none => exact hQ _ (h.release hone (by simp [ht]))

/-- A fresh file that is given up, or that has a type, is fresh no more. -/
theorem Inv.unfresh (h : Inv all hp hr (f :: fresh) s)
    (hf : (s.file f).ref = 0 ∨ (s.file f).type ≠ .none) : Inv all hp hr fresh s := by
  refine h.congr rfl (fun _ => rfl) fun g hg hpos => ?_
  rcases List.mem_cons.mp hg with rfl | hg
  · rcases hf with e | e
    · omega
    · exact .inl e
  · exact .inr hg

/-- The two fresh files become the ends of a new pipe, in a page that is in hand. -/
theorem Inv.addPipe {f₀ f₁ : Fin NFILE} (h : Inv all ({p} + hp) hr (f₁ :: f₀ :: fresh) s)
    (hne : f₀ ≠ f₁) (h₀ : 0 < (s.file f₀).ref ∧ (s.file f₀).type = .none)
    (h₁ : 0 < (s.file f₁).ref ∧ (s.file f₁).type = .none) :
    Inv all hp hr fresh (s.addPipe p f₀ f₁) := by
  have hother : ∀ g, g ≠ f₀ → g ≠ f₁ → (s.addPipe p f₀ f₁).file g = s.file g := by
    intro g e₀ e₁
    simp [System.addPipe, System.setFile, e₀, e₁]
  have hfile₀ : (s.addPipe p f₀ f₁).file f₀ =
      { s.file f₀ with type := .pipe, readable := true, writable := false, pipe := p } := by
    simp [System.addPipe, System.setFile, hne]
  have hfile₁ : (s.addPipe p f₀ f₁).file f₁ =
      { s.file f₁ with type := .pipe, readable := false, writable := true, pipe := p } := by
    simp [System.addPipe, System.setFile, hne.symm]
  have hnew : p ∉ s.pipes.map Pipe.page := by
    have hd := h.distinct
    rw [← h.total, Multiset.nodup_add] at hd
    intro hp
    refine Multiset.disjoint_left.mp hd.2.2 ?_ (Multiset.mem_add.mpr (.inl (Multiset.mem_singleton_self p)))
    simp only [System.pages, Multiset.mem_add, Multiset.mem_coe]
    exact .inr (.inl (.inr hp))
  -- The new pipe has its two ends, the others have theirs.
  have hends : ∀ g a v, IsEnd (s.addPipe p f₀ f₁).file g a v ↔
      IsEnd s.file g a v ∨ a = p ∧ (v = false ∧ g = f₀ ∨ v = true ∧ g = f₁) := by
    intro g a v
    by_cases e₀ : g = f₀
    · subst e₀
      simp only [IsEnd, hfile₀, h₀.2, hne]
      grind
    by_cases e₁ : g = f₁
    · subst e₁
      simp only [IsEnd, hfile₁, h₁.2, hne.symm]
      grind
    · simp [IsEnd, hother g e₀ e₁, e₀, e₁]
  have hkeep : ∀ g, ((s.addPipe p f₀ f₁).file g).ref = (s.file g).ref := by
    intro g
    by_cases e₀ : g = f₀
    · rw [e₀, hfile₀]
    by_cases e₁ : g = f₁
    · rw [e₁, hfile₁]
    · rw [hother g e₀ e₁]
  refine ⟨?_, h.distinct, fun g => ?_, fun g hg => ?_, fun g hg => ?_,
    h.piped.add hnew hends, ?_, h.closed, h.sizes⟩
  · show s.kmem.free + (_ + ((p :: s.pipes.map Pipe.page : List Page) : Multiset Page) + _) + hp = all
    rw [← h.total, System.pages, ← Multiset.cons_coe, ← Multiset.singleton_add]
    simp only [System.addPipe, System.setFile]
    ac_rfl
  · rw [hkeep]
    exact h.refs g
  · rw [hkeep] at hg
    rw [hother g (by rintro rfl; omega) (by rintro rfl; omega)]
    exact h.free g hg
  · rw [hkeep] at hg
    by_cases e₀ : g = f₀
    · simp [e₀, hfile₀]
    by_cases e₁ : g = f₁
    · simp [e₁, hfile₁]
    · rw [hother g e₀ e₁]
      simpa [e₀, e₁] using h.typed g hg
  · show ((p :: s.made : List Page) : Multiset Page) = s.freed + ((p :: s.pipes.map Pipe.page : List Page) : Multiset Page)
    rw [← Multiset.cons_coe, h.history, ← Multiset.cons_coe, ← Multiset.singleton_add,
      ← Multiset.singleton_add]
    ac_rfl

/-- What `pipealloc` gives out: the two ends of a new pipe, with a reference to each. -/
structure NewPipe (all hp : Multiset Page) (hr : Fin NFILE → ℤ) (fresh : List (Fin NFILE))
    (rf wf : Fin NFILE) (s t : System) : Prop where
  inv : Inv all hp (fun g => hr g + one (some rf) g + one (some wf) g) fresh t
  proc : t.proc = s.proc
  ne : rf ≠ wf
  refs : (t.file rf).ref = 1 ∧ (t.file wf).ref = 1
  types : (t.file rf).type ≠ .none ∧ (t.file wf).type ≠ .none

/-- A fresh file is given up. -/
theorem wp_fileclose_fresh (h : Inv all hp (fun g => hr g + one (some f) g) (f :: fresh) s)
    (hf : (s.file f).ref = 1) {Q : Unit → System → Prop}
    (hQ : ∀ t, Inv all hp hr fresh t → t.proc = s.proc → (∀ g, g ≠ f → t.file g = s.file g) →
      Q () t) : wp Admitted (fileclose k f) Q s := by
  refine wp_fileclose h (by omega) fun t ht => hQ t ?_ ht.proc ht.others
  have hz := ht.ref
  rw [hf] at hz
  exact (ht.inv.unfresh (.inl hz)).congr rfl (fun g => by omega) fun g hg _ => .inr hg

/-- `pipealloc` gives two files with one pipe, or takes everything back. -/
theorem wp_pipealloc (h : Inv all hp hr fresh s)
    {Q : Option (Fin NFILE × Fin NFILE) → System → Prop}
    (hnone : ∀ t, Inv all hp hr fresh t → t.proc = s.proc → Q none t)
    (hsome : ∀ rf wf t, NewPipe all hp hr fresh rf wf s t → Q (some (rf, wf)) t) :
    wp Admitted (pipealloc k) Q s := by
  rw [pipealloc, wp_bind]
  refine wp_filealloc h (hnone s h rfl) fun f₀ s₀ h₀ => ?_
  simp only [cleanuppipealloc, pure_bind, bind_assoc]
  rw [wp_bind]
  refine wp_filealloc h₀.inv ?_ fun f₁ s₁ h₁ => ?_
  · -- There is no second file.
    refine wp_bind.mpr (wp_fileclose_fresh h₀.inv h₀.ref fun t ht hp _ => ?_)
    exact hnone t ht (hp.trans h₀.proc)
  have hne : f₀ ≠ f₁ := by
    rintro rfl
    have := h₁.free
    rw [h₀.ref] at this
    cases this
  have hf₀ := h₁.others f₀ hne
  have hproc := h₁.proc.trans h₀.proc
  rw [wp_bind]
  refine wp_onMem Vm.kalloc_balances fun r m g hg hm => ?_
  subst hg
  have hI := (h₁.inv.congr (zero_add hp) (fun _ => rfl) fun g hg _ => .inr hg).mem hm
  cases r with
  | none =>
      -- There is no page for the pipe.
      have hI : Inv all hp (fun g => hr g + one (some f₁) g + one (some f₀) g) (f₀ :: f₁ :: fresh)
          { s₁ with kmem := m } :=
        hI.congr (zero_add hp).symm (fun _ => add_right_comm _ _ _) fun g hg _ => .inr (by grind)
      refine wp_bind.mpr (wp_fileclose_fresh hI (by rw [← h₀.ref, ← hf₀]) fun t ht hp ho => ?_)
      have hf₁ : (t.file f₁).ref = 1 := by
        rw [ho f₁ hne.symm]
        exact h₁.ref
      refine wp_bind.mpr (wp_fileclose_fresh ht hf₁ fun u hu hp' _ => ?_)
      exact hnone u hu (hp'.trans (hp.trans hproc))
  | some p =>
      have h₀' : 0 < (s₁.file f₀).ref ∧ (s₁.file f₀).type = .none := by
        rw [hf₀]
        exact ⟨by rw [h₀.ref]; decide, h₀.type⟩
      have h₁' : 0 < (s₁.file f₁).ref ∧ (s₁.file f₁).type = .none :=
        ⟨by rw [h₁.ref]; decide, h₁.type⟩
      refine hsome f₀ f₁ _ ⟨hI.addPipe hne h₀' h₁', hproc, hne, ⟨?_, ?_⟩, ?_, ?_⟩
      · simp [System.addPipe, System.setFile, hne, hf₀, h₀.ref]
      · simp [System.addPipe, System.setFile, hne.symm, h₁.ref]
      · simp [System.addPipe, System.setFile, hne]
      · simp [System.addPipe, System.setFile]

end Rules

end Xv6.Kernel
