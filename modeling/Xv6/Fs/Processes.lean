import Xv6.Fs.Names
import Xv6.Fs.Owners
import Xv6.Fs.Rules
import Xv6.Kernel.Calls
import Mathlib.Data.Fintype.Basic

/-!
# File system — processes that call it together

A process has a current directory and open files, and makes system calls one after the other; what
it calls next may depend on what the calls before returned.  Any number of processes take turns, an
operation on an inode at a time.

* `Task.call` — a system call of a process; `Owns.call`, what it leaves the process with.
* `processes_keep_directories` — whatever the processes call, and in whatever order they take turns,
  every directory stays well formed, and they stop only for the reasons of `Wanting`; no process
  unlocks an inode that another has locked.
* `processes_return_references` — when they have all returned, no lock is held, and the references
  are those of their current directories and open files.
-/

namespace Xv6.Fs

open Lib

open Xv6.Kernel (NOFILE)

/-! ### Processes -/

/-- The fields of `struct proc` that the file system reads. -/
structure Task where
  cwd : Inum
  ofile : Fin NOFILE → Option OpenFile

namespace Task

variable (t : Task)

/-- A descriptor refers to a file, or to none. -/
def setFile (fd : Fin NOFILE) (f : Option OpenFile) : Task :=
  { t with ofile := Function.update t.ofile fd f }

/-- The descriptor and its file. -/
def argfd (fd : ℤ) : Option (Fin NOFILE × OpenFile) :=
  if h : 0 ≤ fd ∧ fd.toNat < NOFILE then
    (t.ofile ⟨fd.toNat, h.2⟩).map fun f => (⟨fd.toNat, h.2⟩, f)
  else none

/-- The first free descriptor. -/
def fdalloc : Option (Fin NOFILE) := (List.finRange NOFILE).find? fun fd => (t.ofile fd).isNone

end Task

/-- What a process calls; with what each call needs of the rest of the kernel. -/
inductive Request where
  | link (old new : Option Str)
  | unlink (path : Option Str)
  | openFile (path : Option Str) (omode : ℕ) (full : Bool)
  | mkdir (path : Option Str)
  | mknod (path : Option Str) (major minor : Option ℤ)
  | chdir (path : Option Str)
  | close (fd : ℤ)
  | read (fd : ℤ) (n : ℕ)
  | write (fd : ℤ) (addr : ℕ → UInt8) (n : ℕ)
  | fstat (fd : ℤ)
  | exec (path : Str) (mem : Memory)

/-- What it gets back. -/
@[reducible]
def Request.Res : Request → Type
  | .read .. => Option (List UInt8)
  | .fstat _ => Option (Inum × Attr)
  | _ => ℤ

/-- The new file of `sys_open`. -/
def OpenFile.new (ip : Inum) (omode : ℕ) : OpenFile where
  writable := omode &&& O_WRONLY ≠ 0 ∨ omode &&& O_RDWR ≠ 0
  ip := ip
  off := 0
  readable := omode &&& O_WRONLY = 0

/-- A call, with the process it leaves. -/
def Task.call (t : Task) : (q : Request) → Call (q.Res × Task)
  | .link (some old) (some new) => do
      let r ← sys_link t.cwd old new
      pure (r, t)
  | .link _ _ => pure (-1, t)
  | .unlink (some path) => do
      let r ← sys_unlink t.cwd path
      pure (r, t)
  | .unlink none => pure (-1, t)
  | .openFile path omode full => do
      match ← sys_open t.cwd path omode (full || t.fdalloc.isNone), t.fdalloc with
      | some ip, some fd => pure (((fd : ℕ) : ℤ), t.setFile fd (some (.new ip omode)))
      | _, _ => pure (-1, t)
  | .mkdir path => do
      let r ← sys_mkdir t.cwd path
      pure (r, t)
  | .mknod path major minor => do
      let r ← sys_mknod t.cwd path major minor
      pure (r, t)
  | .chdir path => do
      match ← sys_chdir t.cwd path with
      | some ip => pure (0, { t with cwd := ip })
      | none => pure (-1, t)
  | .close fd =>
      match t.argfd fd with
      | none => pure (-1, t)
      | some (i, f) => do
          fileclose (some f.ip)
          pure (0, t.setFile i none)
  | .read fd n =>
      match t.argfd fd with
      | none => pure (none, t)
      | some (i, f) => do
          let r ← fileread f n
          pure (r.1, t.setFile i (some r.2))
  | .write fd addr n =>
      match t.argfd fd with
      | none => pure (-1, t)
      | some (i, f) => do
          let r ← filewrite f.toFile addr n
          pure (r.1, t.setFile i (some { f with toFile := r.2 }))
  | .fstat fd =>
      match t.argfd fd with
      | none => pure (none, t)
      | some (_, f) => do
          let r ← filestat f
          pure (some r, t)
  | .exec path mem => do
      let r ← exec t.cwd path mem
      pure (r, t)

namespace Task

variable {t : Task} {v w : Local} {fd : Fin NOFILE} {f g : OpenFile}

/-- The inode of a descriptor. -/
def ref (f : Option OpenFile) : Multiset Inum := f.elim 0 fun f => {f.ip}

/-- The references of a process. -/
def refs (t : Task) : Multiset Inum := t.cwd ::ₘ ∑ fd, ref (t.ofile fd)

theorem refs_setFile (t : Task) (fd : Fin NOFILE) (f : Option OpenFile) :
    (t.setFile fd f).refs + ref (t.ofile fd) = t.refs + ref f := by
  have hsum := sum_update (Finset.mem_univ fd) (fun _ f => ref f) t.ofile f
  rw [refs, refs, Multiset.cons_add, Multiset.cons_add]
  exact congrArg (t.cwd ::ₘ ·) hsum

theorem refs_eq (hf : t.ofile fd = some f) : t.refs = f.ip ::ₘ (t.setFile fd none).refs := by
  have h := t.refs_setFile fd none
  rw [hf] at h
  rw [← Multiset.singleton_add, add_comm]
  exact ((h.trans (add_zero _)).symm : _)

theorem mem_refs (hf : t.ofile fd = some f) : f.ip ∈ t.refs := by
  rw [refs_eq hf]
  exact Multiset.mem_cons_self ..

theorem argfd_spec {i : ℤ} (h : t.argfd i = some (fd, f)) : t.ofile fd = some f := by
  unfold argfd at h
  split at h
  · obtain ⟨g, hg, he⟩ := Option.map_eq_some_iff.mp h
    obtain ⟨rfl, rfl⟩ := Prod.mk.inj he
    exact hg
  · cases h

/-- The view `v` of a process between its calls. -/
structure Owns (t : Task) (v : Local) : Prop where
  know : v.know = noLocks
  held : v.held = t.refs
  /-- a file that can be written is not a directory -/
  regular : ∀ fd f, t.ofile fd = some f → f.writable = true →
    ∃ type, v.kind f.ip = some type ∧ type ≠ T_DIR

namespace Owns

variable {n : ℕ} {devsw : Devsw} {more : Multiset Inum} {i : Inum}

theorem start (h : t.Owns v) : During v 0 noLocks v := During.start v h.know

theorem cwd (h : t.Owns v) : t.cwd ∈ 0 + v.held := by
  rw [zero_add, h.held]
  exact Multiset.mem_cons_self ..

theorem file (h : t.Owns v) (hf : t.ofile fd = some f) : f.ip ∈ 0 + v.held := by
  rw [zero_add, h.held]
  exact mem_refs hf

/-- A reference of the process is the call's, to be given up. -/
theorem lend (h : t.Owns v) (hi : i ∈ t.refs) : During (v.put i) (i ::ₘ 0) noLocks v := by
  refine ⟨?_, h.know, fun j type hk => ?_, fun _ _ hk => by cases hk⟩
  · rw [Multiset.cons_add, zero_add, Local.held_put, h.held, Multiset.cons_erase hi]
  · rwa [← v.kind_put i ((v.put i).fits j type hk)]

/-- After the call, in which the reference to `i` was given up. -/
theorem give {t' : Task} (h : t.Owns v) (hw : During (v.put i) more noLocks w)
    (hrefs : t'.refs = more + t.refs.erase i)
    (hfile : ∀ fd f, t'.ofile fd = some f → t.ofile fd = some f ∧ f.ip ∈ t.refs.erase i) :
    t'.Owns w := by
  have hheld : (v.put i).held = t.refs.erase i := by rw [Local.held_put, h.held]
  refine ⟨hw.know, by rw [hw.held, hrefs, hheld], fun fd f hf hwr => ?_⟩
  obtain ⟨hf, hm⟩ := hfile fd f hf
  obtain ⟨type, hk, ht⟩ := h.regular fd f hf hwr
  exact ⟨type, hw.kind f.ip type ((v.kind_put i (hheld ▸ hm)).trans hk), ht⟩

theorem same (h : t.Owns v) (hw : During v 0 noLocks w) : t.Owns w := by
  refine ⟨hw.know, by rw [hw.held, zero_add, h.held], fun fd f hf hwr => ?_⟩
  obtain ⟨type, hk, ht⟩ := h.regular fd f hf hwr
  exact ⟨type, hw.kind f.ip type hk, ht⟩

/-- A file has moved its offset, or is new. -/
theorem setFile (h : t.Owns v) (hw : During v more noLocks w)
    (hrefs : more + ref (t.ofile fd) = {g.ip})
    (hg : g.writable = true → ∃ type, w.kind g.ip = some type ∧ type ≠ T_DIR) :
    (t.setFile fd (some g)).Owns w := by
  refine ⟨hw.know, ?_, fun fd' f hf hwr => ?_⟩
  · have := t.refs_setFile fd (some g)
    have hone : ref (some g) = {g.ip} := rfl
    rw [hone, ← hrefs, ← add_assoc] at this
    rw [hw.held, h.held, add_comm more]
    exact (add_right_cancel this).symm
  · by_cases hfd : fd' = fd
    · subst hfd
      have hf : Function.update t.ofile fd' (some g) fd' = some f := hf
      rw [Function.update_self] at hf
      obtain rfl := Option.some.inj hf
      exact hg hwr
    · have hf : Function.update t.ofile fd (some g) fd' = some f := hf
      rw [Function.update_of_ne hfd] at hf
      obtain ⟨type, hk, ht⟩ := h.regular fd' f hf hwr
      exact ⟨type, hw.kind f.ip type hk, ht⟩

/-- **A call takes a process from what it owns to what it owns**, whatever others do meanwhile. -/
theorem call (h : t.Owns v) (hn : n ≤ 2 ^ 16) (hroot : ROOTINO < n) (q : Request) :
    Safe n devsw (t.call q) (fun r w => r.2.Owns w) v := by
  have hpure : ∀ {α : Type} {p : Call α}, Safe n devsw p (fun _ w => During v 0 noLocks w) v →
      Safe n devsw (do let r ← p; pure (r, t)) (fun r w => r.2.Owns w) v := by
    intro α p hp
    exact Prog.lwp_seq hp fun r w hw => h.same hw
  -- One case per call: what the task lends to it, and what it gets back.
  cases q with
  | link old new =>
      cases old with
      | none => exact h
      | some old =>
          cases new with
          | none => exact h
          | some new => exact hpure (h.start.sys_link hn hroot h.cwd old new)
  | unlink path =>
      cases path with
      | none => exact h
      | some path => exact hpure (h.start.sys_unlink hroot h.cwd path)
  | openFile path omode full =>
      refine Prog.lwp_seq (h.start.sys_open hn hroot h.cwd path omode _) ?_
      rintro r w ⟨hw, hfull, hmode⟩
      cases r with
      | none => exact h.same (by simpa using hw)
      | some ip =>
          cases hfd : t.fdalloc with
          | none => exact absurd (hfull (by simp [hfd])) (Option.some_ne_none ip)
          | some fd =>
              have hfree : t.ofile fd = none := by
                simpa [Task.fdalloc] using List.find?_some hfd
              refine h.setFile hw ?_ fun hwr => ?_
              · rw [hfree]
                rfl
              · refine hmode ip rfl ?_
                rintro rfl
                simp [OpenFile.new, O_RDONLY] at hwr
  | mkdir path => exact hpure (h.start.sys_mkdir hn hroot h.cwd path)
  | mknod path major minor => exact hpure (h.start.sys_mknod hn hroot h.cwd path major minor)
  | chdir path =>
      have hcwd : t.refs.erase t.cwd = ∑ fd, ref (t.ofile fd) := Multiset.erase_cons_head ..
      refine Prog.lwp_seq ((h.lend (Multiset.mem_cons_self ..)).sys_chdir hroot path) ?_
      intro r w hw
      -- The old directory is lent to the call, which returns the new one in its place.
      have hgive : ∀ ip, During (v.put t.cwd) (ip ::ₘ 0) noLocks w → Owns { t with cwd := ip } w := by
        intro ip hip
        refine h.give hip ?_ fun fd f hf => ⟨hf, ?_⟩
        · rw [hcwd, Multiset.cons_add, zero_add]
          rfl
        · rw [hcwd]
          exact Multiset.mem_sum.mpr ⟨fd, Finset.mem_univ fd, by rw [hf]; simp [ref]⟩
      cases r with
      | none => exact hgive t.cwd hw
      | some ip => exact hgive ip hw
  | close fd =>
      rw [Task.call]
      cases hfd : t.argfd fd with
      | none => exact h
      | some d =>
          obtain ⟨i, f⟩ := d
          have hf := argfd_spec hfd
          have hrest : t.refs.erase f.ip = (t.setFile i none).refs := by
            rw [refs_eq hf, Multiset.erase_cons_head]
          refine Prog.lwp_seq (h.lend (mem_refs hf)).fileclose ?_
          intro _ w hw
          refine h.give hw (by rw [hrest, zero_add]) fun fd' f' hf' => ?_
          rw [hrest]
          refine ⟨?_, mem_refs hf'⟩
          have hf' : Function.update t.ofile i none fd' = some f' := hf'
          rw [Function.update_apply] at hf'
          split at hf'
          · cases hf'
          · exact hf'
  | read fd m =>
      rw [Task.call]
      cases hfd : t.argfd fd with
      | none => exact h
      | some d =>
          obtain ⟨i, f⟩ := d
          have hf := argfd_spec hfd
          refine Prog.lwp_seq (h.start.fileread (h.file hf) m) ?_
          rintro r w ⟨hw, hip, hwr⟩
          refine h.setFile hw (by rw [hf, hip]; rfl) fun hg => ?_
          obtain ⟨type, hk, ht⟩ := h.regular i f hf (hwr ▸ hg)
          exact ⟨type, hip ▸ hw.kind f.ip type hk, ht⟩
  | write fd addr m =>
      rw [Task.call]
      cases hfd : t.argfd fd with
      | none => exact h
      | some d =>
          obtain ⟨i, f⟩ := d
          have hf := argfd_spec hfd
          refine Prog.lwp_seq (h.start.filewrite (h.file hf) (h.regular i f hf) addr m) ?_
          rintro r w ⟨hw, hip, hwr⟩
          have href : (0 : Multiset Inum) + ref (t.ofile i) = {r.2.ip} := by
            rw [hf, hip]
            rfl
          refine h.setFile hw href fun hg => ?_
          obtain ⟨type, hk, ht⟩ := h.regular i f hf (hwr.symm.trans hg)
          exact ⟨type, (congrArg w.kind hip).trans (hw.kind f.ip type hk), ht⟩
  | fstat fd =>
      rw [Task.call]
      cases hfd : t.argfd fd with
      | none => exact h
      | some d =>
          obtain ⟨i, f⟩ := d
          exact Prog.lwp_seq (h.start.filestat (h.file (argfd_spec hfd))) fun r w hw => h.same hw
  | exec path mem => exact hpure (h.start.exec hroot h.cwd path mem)

end Owns

end Task

/-! ### Together -/

/-- What a process does: the calls it makes, each after what those before it returned. -/
abbrev Behaviour (α : Type) := Prog Request Request.Res α

variable {ι α : Type}

/-- The processes `task`, with what each does, on the disk. -/
def together (p : ι → Behaviour α) (task : ι → Task) (s : State) :
    Pool Op Op.Res ι (α × Task) State :=
  ⟨fun t => (p t).serve Task.call (task t), s⟩

/-- The same processes, where the locks have owners; no inode is locked. -/
def togetherOwned (p : ι → Behaviour α) (task : ι → Task) (s : State) :
    Pool Op Op.Res ι (α × Task) (Owned ι State) :=
  ⟨fun t => (p t).serve Task.call (task t), ⟨s, fun _ => none⟩⟩

variable [Fintype ι] {sb : Superblock} {devsw : Devsw} {s : State} {task : ι → Task}

/-- The processes are between calls: no inode is locked, the directories are well formed, and the
processes have their references, beside those of others. -/
structure State.Ready (sb : Superblock) (task : ι → Task) (s : State) : Prop where
  inv : s.Inv sb
  unlocked : ∀ i, s.locked i = false
  refs : ∀ i, ∑ t, (task t).refs.count i ≤ s.ref i
  dirs : ∀ d, (s.img.dinode d).type = T_DIR →
    (s.img.node sb d).IsDir sb.ninodes ∧ (s.img.node sb d).Distinct
  regular : ∀ t fd f, (task t).ofile fd = some f → f.writable = true →
    (s.img.dinode f.ip).type ≠ 0 ∧ (s.img.dinode f.ip).type ≠ T_DIR
  small : sb.ninodes ≤ 2 ^ 16
  root : ROOTINO < sb.ninodes

namespace State.Ready

/-- What a process knows between calls: the types of its open files. -/
def view (task : ι → Task) (s : State) (t : ι) : Local where
  held := (task t).refs
  know := noLocks
  kind := fun i => if i ∈ (task t).refs ∧ (s.img.dinode i).type ≠ 0 then
    some (s.img.dinode i).type else none
  fits := fun i type h => by
    split at h
    · rename_i hi
      exact hi.1
    · cases h

theorem good (h : s.Ready sb task) (i : Inum) : (s.img.node sb i).Good sb.ninodes := by
  refine ⟨?_, h.dirs i⟩
  by_cases hi : i < sb.ninodes ∧ (s.img.dinode i).type ≠ 0
  · rw [node_of_allocated hi.1 hi.2, length_bytes]
    exact h.inv.consistent.size_le hi.1 hi.2
  · rw [Image.node, if_neg hi]
    exact Nat.zero_le _

/-- What one process sees is a state between calls. -/
theorem sat (h : s.Ready sb task) :
    Sat sb.ninodes (fun i => s.ref i - ∑ t, (task t).refs.count i) (view task s) (s.view sb) where
  ref := fun i => (Nat.sub_add_cancel (h.refs i)).symm
  locked := fun i => by
    have hl : (s.view sb).locked i = false := h.unlocked i
    rw [hl]
    exact iff_of_false Bool.false_ne_true (by rintro ⟨_, hk⟩; exact hk rfl)
  alone := fun _ _ _ hk => absurd rfl hk
  content := fun _ _ _ hk => by cases hk
  kind := fun t i type hk => by
    have hk : (if i ∈ (task t).refs ∧ (s.img.dinode i).type ≠ 0 then
      some (s.img.dinode i).type else none) = some type := hk
    split at hk
    · rename_i hi
      exact ⟨Option.some.inj hk, Option.some.inj hk ▸ hi.2⟩
    · cases hk
  range := h.inv.range
  coherent := fun i hr hv => (h.inv.coherent i hr hv).2
  inUse := fun i hl => by
    have hl : s.locked i = true := hl
    rw [h.unlocked i] at hl
    cases hl
  good := h.good

theorem owns (h : s.Ready sb task) (t : ι) : (task t).Owns (view task s t) where
  know := rfl
  held := rfl
  regular := fun fd f hf hwr => by
    obtain ⟨h0, hdir⟩ := h.regular t fd f hf hwr
    exact ⟨_, if_pos ⟨Task.mem_refs hf, h0⟩, hdir⟩

/-- The processes are correct, each by itself. -/
theorem fits (h : s.Ready sb task) (devsw : Devsw) (p : ι → Behaviour α) :
    ((together p task s).map (State.view sb)).Fits (fsSpec sb.ninodes devsw)
      (Sat sb.ninodes fun i => s.ref i - ∑ t, (task t).refs.count i)
      (fun _ r w => r.2.Owns w) (view task s) :=
  ⟨h.sat, fun t => Prog.lwp_serve (fun _ q _ hv => hv.call h.small h.root q) (p t) (h.owns t)⟩

end State.Ready

variable [DecidableEq ι]

/-- Where nobody asks whose a lock is. -/
theorem together_keep_directories (h : s.Ready sb task) (p : ι → Behaviour α) (sched : List ι) :
    (∀ P', (together p task s).run (diskOps sb devsw) Stop.waits sched = .ok P' →
      P'.state.Inv sb ∧ ∀ d, (P'.state.img.dinode d).type = T_DIR →
        (P'.state.img.node sb d).IsDir sb.ninodes ∧ (P'.state.img.node sb d).Distinct) ∧
      ∀ e, (together p task s).run (diskOps sb devsw) Stop.waits sched = .error e →
        e = .ballocOutOfBlocks ∨ Wanting e := by
  obtain ⟨hok, herr⟩ := @processes_follow sb devsw ι _ _ (together p task s) h.inv sched
  obtain ⟨hflat, hstop⟩ := Pool.run_local (fsSpec_sound _) sched (h.fits devsw p)
  refine ⟨fun P' hP' => ?_, fun e he => ?_⟩
  · obtain ⟨hinv, hrun⟩ := hok P' hP'
    obtain ⟨ws, hfits⟩ := hflat _ hrun
    exact ⟨hinv, fun d => (hfits.sat.good d).dir⟩
  · exact (herr e he).imp_right (hstop e)

omit [DecidableEq ι] in
theorem State.Ready.ownLocks (h : s.Ready sb task) (devsw : Devsw) (p : ι → Behaviour α) :
    OwnLocks sb devsw (fun i => s.ref i - ∑ t, (task t).refs.count i) (fun _ r w => r.2.Owns w)
      (State.Ready.view task s) (togetherOwned p task s) where
  inv := h.inv
  fits := h.fits devsw p
  theirs := fun _ _ => iff_of_false (fun hp => by cases hp) fun hk => hk rfl

/-- **The directories stay well formed, whoever calls what.**  Processes with open files and current
directories make any system calls, each as it likes, and take turns in any order, an operation on an
inode at a time; an inode may be unlocked by the process only that has locked it.  At any time every
directory consists of whole entries, which hold numbers of inodes of the table and no name twice.
The processes stop for want of a block, an inode or a cache entry, at a name whose inode is not
allocated, or in one of four panics of the calls. -/
theorem processes_keep_directories (h : s.Ready sb task) (p : ι → Behaviour α) (sched : List ι) :
    (∀ P', (togetherOwned p task s).runBy Stop.waits (owned (diskOps sb devsw)) sched = .ok P' →
      P'.state.state.Inv sb ∧ ∀ d, (P'.state.state.img.dinode d).type = T_DIR →
        (P'.state.state.img.node sb d).IsDir sb.ninodes ∧
          (P'.state.state.img.node sb d).Distinct) ∧
      ∀ e, (togetherOwned p task s).runBy Stop.waits (owned (diskOps sb devsw)) sched = .error e →
        e = .ballocOutOfBlocks ∨ Wanting e := by
  have hrun := run_owned (h.ownLocks devsw p) sched
  obtain ⟨hok, herr⟩ := @together_keep_directories ι α _ sb devsw s task _ h p sched
  refine ⟨fun P' hP' => ?_, fun e he => herr e ?_⟩
  · rw [hP'] at hrun
    exact hok _ hrun
  · rw [he] at hrun
    exact hrun

/-- Two processes in the root directory: one makes a directory and enters it, the other makes a link
under the same name. -/
def twoInRoot : State :=
  { State.boot smallTree with ref := Function.update (fun _ => 0) ROOTINO 2 }

/-- A process in the root, without files. -/
def rootTask : Task := ⟨ROOTINO, fun _ => none⟩

/-- Two processes: one makes a directory and enters it, the other links to its name. -/
def makerAndLinker (b : Bool) : Behaviour Unit :=
  if b then do
    let _ ← .perform (.mkdir (some nameG))
    let _ ← .perform (.chdir (some nameG))
    pure ()
  else do
    let _ ← .perform (.link (some nameF) (some nameG))
    pure ()

/-- Turns for both, one after the other. -/
def inTurns : List Bool := (List.replicate 110 [true, false]).flatten

/-- Two processes in the root can call. -/
theorem twoInRoot_ready : twoInRoot.Ready smallDisk fun _ : Bool => rootTask where
  inv := by
    have hone : ∀ i, 0 < twoInRoot.ref i → i = ROOTINO := by
      intro i hi
      by_contra hr
      simp [twoInRoot, hr] at hi
    refine inRoot_settled.inv.entries (c := twoInRoot.toIcache) (fun i hi => ?_)
      (fun _ _ hv => (by cases hv)) fun _ hl => (by cases hl)
    rw [hone i hi]
    decide
  unlocked := fun _ => rfl
  refs := fun i => by
    have hrefs : rootTask.refs = {ROOTINO} := by
      simp [Task.refs, rootTask, Task.ref]
    by_cases hi : i = ROOTINO
    · subst hi
      simp [hrefs, twoInRoot]
    · simp [hrefs, hi]
  dirs := fun d hd => ⟨inRoot_settled.dirs d hd, inRoot_distinct d hd⟩
  regular := fun _ _ _ hf => by cases hf
  small := by decide
  root := by decide

/-- Two processes make directories in turns. -/
theorem processes_keep_directories_two :
    ∃ P' : Pool Op Op.Res Bool (Unit × Task) (Owned Bool State),
      (P'.state.state.img.dinode 3).type = T_DIR ∧ (P'.state.state.img.node smallDisk 3).IsDir 4 ∧
        (P'.state.state.img.node smallDisk 3).Distinct := by
  have hrun : ((togetherOwned makerAndLinker (fun _ => rootTask) twoInRoot).runBy Stop.waits
      (owned (diskOps smallDisk noDevices)) inTurns).toOption.any
        (fun P' => (P'.state.state.img.dinode 3).type = T_DIR) = true := by decide +kernel
  obtain ⟨P', hP', htype⟩ := (Option.any_eq_true _ _).mp hrun
  have htype : (P'.state.state.img.dinode 3).type = T_DIR := of_decide_eq_true htype
  have hkeep := @processes_keep_directories Bool Unit _ smallDisk noDevices twoInRoot
    (fun _ => rootTask) _ twoInRoot_ready makerAndLinker inTurns
  exact ⟨P', htype, (hkeep.1 P' (Lib.toOption_eq_some.mp hP')).2 3 htype⟩

/-- **No lock is left, and no reference is lost or made.**  When the processes have returned, from any
calls in any order of turns, no inode is locked, and the references to each are those of their
current directories and open files, beside those that others had before. -/
theorem processes_return_references (h : s.Ready sb task) (p : ι → Behaviour α) (sched : List ι)
    {P' : Pool Op Op.Res ι (α × Task) State} {r : ι → α × Task}
    (hP' : (together p task s).run (diskOps sb devsw) Stop.waits sched = .ok P')
    (hr : ∀ t, (P'.prog t).value = some (r t)) (i : Inum) :
    P'.state.locked i = false ∧ P'.state.ref i + ∑ t, (task t).refs.count i =
      s.ref i + ∑ t, (r t).2.refs.count i := by
  obtain ⟨hok, -⟩ := @processes_follow sb devsw ι _ _ (together p task s) h.inv sched
  obtain ⟨hflat, -⟩ := Pool.run_local (fsSpec_sound _) sched (h.fits devsw p)
  obtain ⟨ws, hfits⟩ := hflat _ (hok P' hP').2
  have howns : ∀ t, (r t).2.Owns (ws t) := fun t => by
    have hret := hfits.correct t
    have hprog : (P'.map (State.view sb)).prog t = .ret (r t) := Prog.value_eq_some.mp (hr t)
    rw [hprog] at hret
    exact hret
  refine ⟨?_, ?_⟩
  · by_contra hl
    have hl : P'.state.locked i = true := by simpa using hl
    obtain ⟨t, hk⟩ := (hfits.sat.locked i).mp hl
    rw [(howns t).know] at hk
    exact hk rfl
  · have href : P'.state.ref i = (s.ref i - ∑ t, (task t).refs.count i) +
        ∑ t, (ws t).held.count i := hfits.sat.ref i
    have hsum : ∑ t, (ws t).held.count i = ∑ t, (r t).2.refs.count i :=
      Finset.sum_congr rfl fun t _ => by rw [(howns t).held]
    have := h.refs i
    omega

/-- One of two processes ends in another directory, and the counts agree. -/
theorem processes_return_references_two :
    ∃ (P' : Pool Op Op.Res Bool (Unit × Task) State) (r : Bool → Unit × Task),
      (r true).2.cwd = 3 ∧ ∀ i, P'.state.locked i = false ∧
        P'.state.ref i + ∑ _ : Bool, rootTask.refs.count i =
          twoInRoot.ref i + ∑ t, (r t).2.refs.count i := by
  have hrun : ((together makerAndLinker (fun _ => rootTask) twoInRoot).run
      (diskOps smallDisk noDevices) Stop.waits inTurns).toOption.any
        (fun P' => (P'.prog true).value.any (fun r => r.2.cwd = 3) ∧ (P'.prog false).value.isSome)
          = true := by decide +kernel
  obtain ⟨P', hP', hdone⟩ := (Option.any_eq_true _ _).mp hrun
  obtain ⟨htrue, hfalse⟩ := of_decide_eq_true hdone
  obtain ⟨r₁, hr₁, hcwd⟩ := (Option.any_eq_true _ _).mp htrue
  obtain ⟨r₀, hr₀⟩ := Option.isSome_iff_exists.mp hfalse
  refine ⟨P', fun b => if b then r₁ else r₀, of_decide_eq_true hcwd, fun i => ?_⟩
  refine @processes_return_references Bool Unit _ smallDisk noDevices twoInRoot
    (fun _ => rootTask) _ twoInRoot_ready makerAndLinker inTurns P' _
    (Lib.toOption_eq_some.mp hP') (fun t => ?_) i
  cases t with
  | false => exact hr₀
  | true => exact hr₁

end Xv6.Fs
