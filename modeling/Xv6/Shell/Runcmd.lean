import Xv6.Lib.Prog
import Xv6.Lib.Runs
import Xv6.Shell.Grammar
import Mathlib.Data.List.Induction
import Mathlib.Algebra.Order.Ring.Int

/-!
# Shell — running a command

`runcmd` as a program over the system calls it makes, and the processes it runs in.  A process is
named after its parent and the number of the call, among the parent's calls of `fork` and `pipe`,
that made it; a pipe, after the process that made it and the number of that call.  A call that
allocates a descriptor allocates the lowest that is free.

* `Safe` — what holds of a process whenever it is about to make a call, in every run.
* `runcmd_safe` — a command that is on the way to a node of the tree has the descriptors which that
  way sets.
* `descriptor_plumbing` — every process of a run.
* `Line.fds_lt` — the redirections that a line may have.
-/

namespace Xv6.Sh

open Fs (Str NOFILE)
open Lib (Prog Run)

/-- A process: who made it, and by which call. -/
abbrev Name := List ℕ

/-- A pipe: who made it, and by which call. -/
structure PipeId where
  maker : Name
  call : ℕ

/-- What a descriptor may refer to: a file of the shell, one that was opened, or an end of a pipe.
-/
inductive File where
  | old (f : ℕ)
  | named (file : Str) (mode : ℕ)
  | readEnd (p : PipeId)
  | writeEnd (p : PipeId)

/-! ### Descriptors -/

/-- `ofile` of a process. -/
abbrev Table := ℕ → Option File

namespace Table

variable (D : Table)

/-- The lowest descriptor that is free. -/
def fdalloc : Option ℕ := (List.range NOFILE).find? fun fd => (D fd).isNone

/-- A descriptor refers to a file. -/
def set (fd : ℕ) (f : File) : Table := Function.update D fd (some f)

/-- A descriptor is free. -/
def free (fd : ℕ) : Table := Function.update D fd none

/-- The file of a descriptor. -/
def argfd (fd : ℕ) : Option File := if fd < NOFILE then D fd else none

def close (fd : ℕ) : ℤ × Table :=
  match D.argfd fd with
  | none => (-1, D)
  | some _ => (0, D.free fd)

/-- A file that is there gets a descriptor. -/
def place (f : File) : ℤ × Table :=
  match D.fdalloc with
  | none => (-1, D)
  | some fd => (fd, D.set fd f)

def dup (fd : ℕ) : ℤ × Table :=
  match D.argfd fd with
  | none => (-1, D)
  | some f => D.place f

/-- `p[0]` and `p[1]`. -/
def pipe (p : PipeId) : Option (ℕ × ℕ) × Table :=
  match D.fdalloc with
  | none => (none, D)
  | some fd0 =>
      match (D.set fd0 (.readEnd p)).fdalloc with
      | none => (none, D)
      | some fd1 => (some (fd0, fd1), (D.set fd0 (.readEnd p)).set fd1 (.writeEnd p))

end Table

/-! ### `runcmd` -/

/-- The system calls and library calls that `runcmd` makes. -/
inductive Op where
  | close (fd : ℕ)
  | openFile (file : Str) (omode : ℕ)
  | dup (fd : ℕ)
  | pipe
  | fork
  | wait
  | exec (argv : List Str)
  | printf (text : String) (arg : Str)
  | exit

/-- What a call returns; `exit` does not. -/
@[reducible]
def Op.Res : Op → Type
  | .pipe => Option (ℕ × ℕ)
  | .printf .. => Unit
  | .exit => Empty
  | _ => ℤ

/-- The code of a shell process. -/
abbrev Sh := Prog Op Op.Res

def close (fd : ℕ) : Sh ℤ := .perform (Op.close fd)
def openFile (file : Str) (omode : ℕ) : Sh ℤ := .perform (Op.openFile file omode)
def dup (fd : ℕ) : Sh ℤ := .perform (Op.dup fd)
def pipe : Sh (Option (ℕ × ℕ)) := .perform Op.pipe
def fork : Sh ℤ := .perform Op.fork
def wait : Sh ℤ := .perform Op.wait
def exec (argv : List Str) : Sh ℤ := .perform (Op.exec argv)
def printf (text : String) (arg : Str) : Sh Unit := .perform (Op.printf text arg)

/-- It does not return. -/
def exit : Sh Empty := .op .exit Empty.elim

/-- `panic`: a message, and the end of the process. -/
def panic (s : String) : Sh Empty := do
  printf s []
  exit

/-- `fork1`: a `fork` that may not fail. -/
def fork1 : Sh ℤ := do
  let pid ← fork
  if pid = -1 then do
    let e ← panic "fork"
    nomatch e
  else pure pid

/-- `runcmd`, on each kind of command: it never returns. -/
def runcmd : Cmd Str → Sh Empty
  | .exec [] => exit
  | .exec (file :: argv) => do
      let _ ← exec (file :: argv)
      printf "exec %s failed\n" file
      exit
  | .redir cmd file mode fd => do
      let _ ← close fd
      if (← openFile file mode) < 0 then do
        printf "open %s failed\n" file
        exit
      else runcmd cmd
  | .list left right => do
      if (← fork1) = 0 then runcmd left
      else do
        let _ ← wait
        runcmd right
  | .pipe left right => do
      match ← pipe with
      | none => panic "pipe"
      | some (p0, p1) =>
          if (← fork1) = 0 then do
            let _ ← close 1
            let _ ← dup p1
            let _ ← close p0
            let _ ← close p1
            runcmd left
          else if (← fork1) = 0 then do
            let _ ← close 0
            let _ ← dup p0
            let _ ← close p0
            let _ ← close p1
            runcmd right
          else do
            let _ ← close p0
            let _ ← close p1
            let _ ← wait
            let _ ← wait
            exit
  | .back cmd => do
      if (← fork1) = 0 then runcmd cmd else exit

/-! ### Processes -/

/-- What a process runs: the shell's code, the program of an `exec`, or nothing any more. -/
inductive Code where
  | sh (p : Sh Empty)
  | user (argv : List Str)
  | zombie

/-- A process: the code that is left, its descriptors, and how many calls it has made. -/
structure Process where
  code : Code
  fd : Table
  calls : ℕ

/-- What a call returns to its process, with its descriptors: `fork`, `pipe` and `dup` do not fail
for want of memory or of files, `open` and `exec` may. -/
inductive Does (q : Name) : (o : Op) → o.Res → Table → ℕ → Table → ℕ → Prop
  | close (fd : ℕ) (D : Table) (n : ℕ) :
      Does q (.close fd) (D.close fd).1 D n (D.close fd).2 n
  | opened (file : Str) (omode : ℕ) (D : Table) (n : ℕ) :
      Does q (.openFile file omode) (D.place (.named file omode)).1 D n
        (D.place (.named file omode)).2 n
  | notOpened (file : Str) (omode : ℕ) (D : Table) (n : ℕ) :
      Does q (.openFile file omode) (-1) D n D n
  | dup (fd : ℕ) (D : Table) (n : ℕ) : Does q (.dup fd) (D.dup fd).1 D n (D.dup fd).2 n
  | pipe (D : Table) (n : ℕ) : Does q .pipe (D.pipe ⟨q, n⟩).1 D n (D.pipe ⟨q, n⟩).2 (n + 1)
  | fork (D : Table) (n : ℕ) {pid : ℤ} (h : 0 < pid) : Does q .fork pid D n D (n + 1)
  | wait (D : Table) (n : ℕ) (pid : ℤ) : Does q .wait pid D n D n
  | exec (argv : List Str) (D : Table) (n : ℕ) : Does q (.exec argv) (-1) D n D n
  | printf (text : String) (arg : Str) (D : Table) (n : ℕ) : Does q (.printf text arg) () D n D n

/-- What `fork` returns to the child. -/
inductive Child : (o : Op) → o.Res → Prop
  | fork : Child .fork 0

/-- The processes by their names. -/
abbrev System := Name → Option Process

/-- A process goes on. -/
inductive Step : System → Name → System → Prop
  | call {s : System} {q : Name} {o : Op} {k : o.Res → Sh Empty} {r : o.Res} {D D' : Table}
      {n n' : ℕ} (hq : s q = some ⟨.sh (.op o k), D, n⟩) (hd : Does q o r D n D' n') (hf : o ≠ .fork)
      (hw : o ≠ .wait) : Step s q (Function.update s q (some ⟨.sh (k r), D', n'⟩))
  | fork {s : System} {q : Name} {k : ℤ → Sh Empty} {pid : ℤ} {D : Table} {n : ℕ}
      (hq : s q = some ⟨.sh (.op .fork k), D, n⟩) (hpid : 0 < pid) :
      Step s q (Function.update (Function.update s q (some ⟨.sh (k pid), D, n + 1⟩)) (n :: q)
        (some ⟨.sh (k 0), D, 0⟩))
  /-- a child has exited -/
  | wait {s : System} {q : Name} {k : ℤ → Sh Empty} {pid : ℤ} {D D' : Table} {n m n' : ℕ}
      (hq : s q = some ⟨.sh (.op .wait k), D, n⟩) (hc : s (m :: q) = some ⟨.zombie, D', n'⟩) :
      Step s q (Function.update (Function.update s (m :: q) none) q (some ⟨.sh (k pid), D, n⟩))
  /-- there is no child -/
  | noChild {s : System} {q : Name} {k : ℤ → Sh Empty} {D : Table} {n : ℕ}
      (hq : s q = some ⟨.sh (.op .wait k), D, n⟩) (hc : ∀ m, s (m :: q) = none) :
      Step s q (Function.update s q (some ⟨.sh (k (-1)), D, n⟩))
  | exec {s : System} {q : Name} {argv : List Str} {k : ℤ → Sh Empty} {D : Table} {n : ℕ}
      (hq : s q = some ⟨.sh (.op (.exec argv) k), D, n⟩) :
      Step s q (Function.update s q (some ⟨.user argv, D, n⟩))
  | exit {s : System} {q : Name} {k : Empty → Sh Empty} {D : Table} {n : ℕ}
      (hq : s q = some ⟨.sh (.op .exit k), D, n⟩) :
      Step s q (Function.update s q (some ⟨.zombie, fun _ => none, n⟩))
  | userExit {s : System} {q : Name} {argv : List Str} {D : Table} {n : ℕ}
      (hq : s q = some ⟨.user argv, D, n⟩) :
      Step s q (Function.update s q (some ⟨.zombie, fun _ => none, n⟩))

/-- One process enters `runcmd`. -/
def start (c : Cmd Str) (D : Table) : System :=
  fun q => if q = [] then some ⟨.sh (runcmd c), D, 0⟩ else none

/-! ### What holds before every call -/

/-- Before each call of `p`, and of the processes that it forks, `Rest` holds. -/
def Safe (Rest : Op → Name → Table → Prop) : Sh Empty → Name → ℕ → Table → Prop
  | .ret _, _, _, _ => True
  | .op o k, q, n, D => Rest o q D ∧
      (∀ r D' n', Does q o r D n D' n' → Safe Rest (k r) q n' D') ∧
      ∀ r, Child o r → Safe Rest (k r) (n :: q) 0 D

/-- The processes do what they may. -/
def Code.Safe (Rest : Op → Name → Table → Prop) (q : Name) (n : ℕ) (D : Table) : Code → Prop
  | .sh p => Sh.Safe Rest p q n D
  | .user argv => Rest (.exec argv) q D
  | .zombie => True

variable {Rest : Op → Name → Table → Prop} {s t : System} {q : Name} {n : ℕ} {D : Table}

/-- Every process keeps to `Rest` from where it is. -/
def System.Safe (Rest : Op → Name → Table → Prop) (s : System) : Prop :=
  ∀ q pr, s q = some pr → pr.code.Safe Rest q pr.calls pr.fd

/-- A process that is safe takes its place. -/
theorem System.Safe.update (hs : s.Safe Rest) {pr : Option Process}
    (hpr : ∀ p ∈ pr, p.code.Safe Rest q p.calls p.fd) :
    System.Safe Rest (Function.update s q pr) := by
  intro q' p hp
  by_cases h : q' = q
  · subst h
    rw [Function.update_self] at hp
    exact hpr p hp
  · rw [Function.update_of_ne h] at hp
    exact hs q' p hp

/-- **What one process does** keeps the others, and what it is about to do is as it should be. -/
theorem Step.safe (h : Step s q t) (hs : s.Safe Rest) : t.Safe Rest := by
  cases h with
  | call hq hd hf hw =>
      obtain ⟨-, hnext, -⟩ := hs q _ hq
      refine hs.update ?_
      rintro p ⟨⟩
      exact hnext _ _ _ hd
  | fork hq hpid =>
      obtain ⟨-, hnext, hchild⟩ := hs q _ hq
      refine System.Safe.update (hs.update ?_) ?_
      · rintro p ⟨⟩
        exact hnext _ _ _ (.fork _ _ hpid)
      · rintro p ⟨⟩
        exact hchild _ .fork
  | wait hq hc =>
      obtain ⟨-, hnext, -⟩ := hs q _ hq
      refine System.Safe.update (hs.update (by rintro p ⟨⟩)) ?_
      rintro p ⟨⟩
      exact hnext _ _ _ (.wait _ _ _)
  | noChild hq hc =>
      obtain ⟨-, hnext, -⟩ := hs q _ hq
      refine hs.update ?_
      rintro p ⟨⟩
      exact hnext _ _ _ (.wait _ _ _)
  | exec hq =>
      obtain ⟨hrest, -⟩ := hs q _ hq
      refine hs.update ?_
      rintro p ⟨⟩
      exact hrest
  | exit hq | userExit hq =>
      refine hs.update ?_
      rintro p ⟨⟩
      exact trivial

/-- A run from a safe start is safe. -/
theorem Safe.run {c : Cmd Str} {as : List Name} (h : Run Step (start c D) as t)
    (hc : Safe Rest (runcmd c) [] 0 D) : t.Safe Rest := by
  refine h.inv (I := fun s => s.Safe Rest) (fun _ _ _ => Step.safe) fun q p hp => ?_
  unfold start at hp
  split at hp
  · subst_vars
    cases hp
    exact hc
  · cases hp

/-! ### The rule of each call -/

section

variable {α : Type} {f : α → Sh Empty}

theorem Safe.op {o : Op} {k : o.Res → Sh Empty} (hrest : Rest o q D)
    (hnext : ∀ r D' n', Does q o r D n D' n' → Safe Rest (k r) q n' D')
    (hchild : ∀ r, ¬ Child o r) : Safe Rest (.op o k) q n D :=
  ⟨hrest, hnext, fun r h => absurd h (hchild r)⟩

theorem Safe.close {fd : ℕ} {f : ℤ → Sh Empty} (hrest : Rest (.close fd) q D)
    (h : Safe Rest (f (D.close fd).1) q n (D.close fd).2) :
    Safe Rest (Sh.close fd >>= f) q n D :=
  .op hrest (fun r D' n' hd => by cases hd; exact h) nofun

/-- The rule of `open`, for its two results. -/
theorem Safe.openFile {file : Str} {omode : ℕ} {f : ℤ → Sh Empty}
    (hrest : Rest (.openFile file omode) q D)
    (hok : Safe Rest (f (D.place (.named file omode)).1) q n (D.place (.named file omode)).2)
    (hno : Safe Rest (f (-1)) q n D) : Safe Rest (Sh.openFile file omode >>= f) q n D :=
  .op hrest (fun r D' n' hd => by
    cases hd with
    | opened => exact hok
    | notOpened => exact hno) nofun

theorem Safe.dup {fd : ℕ} {f : ℤ → Sh Empty} (hrest : Rest (.dup fd) q D)
    (h : Safe Rest (f (D.dup fd).1) q n (D.dup fd).2) : Safe Rest (Sh.dup fd >>= f) q n D :=
  .op hrest (fun r D' n' hd => by cases hd; exact h) nofun

theorem Safe.pipe {f : Option (ℕ × ℕ) → Sh Empty} (hrest : Rest .pipe q D)
    (h : Safe Rest (f (D.pipe ⟨q, n⟩).1) q (n + 1) (D.pipe ⟨q, n⟩).2) :
    Safe Rest (Sh.pipe >>= f) q n D :=
  .op hrest (fun r D' n' hd => by cases hd; exact h) nofun

/-- A `fork` that does not fail: the parent gets a pid. -/
theorem Safe.fork1 {f : ℤ → Sh Empty} (hrest : Rest .fork q D)
    (hparent : ∀ pid, pid ≠ 0 → Safe Rest (f pid) q (n + 1) D)
    (hchild : Safe Rest (f 0) (n :: q) 0 D) : Safe Rest (Sh.fork1 >>= f) q n D := by
  have hgo : ∀ {pid : ℤ} {q' n'}, 0 ≤ pid → Safe Rest (f pid) q' n' D →
      Safe Rest ((if pid = -1 then Sh.panic "fork" >>= fun e => nomatch e else pure pid) >>= f)
        q' n' D := by
    intro pid q' n' hpid h
    rw [if_neg (by omega)]
    exact h
  refine ⟨hrest, fun r D' n' hd => ?_, fun r hr => ?_⟩
  · cases hd with
    | fork _ _ h => exact hgo h.le (hparent r h.ne')
  · cases hr
    exact hgo le_rfl hchild

theorem Safe.wait {f : ℤ → Sh Empty} (hrest : Rest .wait q D) (h : ∀ pid, Safe Rest (f pid) q n D) :
    Safe Rest (Sh.wait >>= f) q n D :=
  .op hrest (fun r D' n' hd => by cases hd; exact h _) nofun

theorem Safe.exec {argv : List Str} {f : ℤ → Sh Empty} (hrest : Rest (.exec argv) q D)
    (h : Safe Rest (f (-1)) q n D) : Safe Rest (Sh.exec argv >>= f) q n D :=
  .op hrest (fun r D' n' hd => by cases hd; exact h) nofun

theorem Safe.printf {text : String} {arg : Str} {f : Unit → Sh Empty}
    (hrest : Rest (.printf text arg) q D) (h : Safe Rest (f ()) q n D) :
    Safe Rest (Sh.printf text arg >>= f) q n D :=
  .op hrest (fun r D' n' hd => by cases hd; exact h) nofun

theorem Safe.exit (hrest : Rest .exit q D) : Safe Rest Sh.exit q n D :=
  .op hrest (fun r => nomatch r) nofun

end

/-! ### The descriptors of a command -/

namespace Table

/-- Exactly the first three descriptors are open. -/
def Standard (D : Table) : Prop := ∀ fd, D fd ≠ none ↔ fd < 3

/-- A list of descriptors is set, one after the other. -/
def setAll (D : Table) (ss : List (ℕ × File)) : Table := ss.foldl (fun D s => D.set s.1 s.2) D

variable {D : Table} {fd : ℕ} {f : File}

theorem set_self (D : Table) (fd : ℕ) (f : File) : D.set fd f fd = some f := Function.update_self ..

theorem set_of_ne {j : ℕ} (h : j ≠ fd) (D : Table) (f : File) : D.set fd f j = D j :=
  Function.update_of_ne h ..

theorem free_self (D : Table) (fd : ℕ) : D.free fd fd = none := Function.update_self ..

theorem free_of_ne {j : ℕ} (h : j ≠ fd) (D : Table) : D.free fd j = D j :=
  Function.update_of_ne h ..

theorem set_free (D : Table) (fd : ℕ) (f : File) : (D.free fd).set fd f = D.set fd f :=
  Function.update_idem ..

theorem setAll_snoc (D : Table) (ss : List (ℕ × File)) (s : ℕ × File) :
    D.setAll (ss ++ [s]) = (D.setAll ss).set s.1 s.2 :=
  List.foldl_append ..

/-- The setting of a descriptor that no later one sets. -/
theorem setAll_apply (D : Table) (ss ss' : List (ℕ × File)) (hno : ∀ s ∈ ss', s.1 ≠ fd) :
    D.setAll (ss ++ (fd, f) :: ss') fd = some f := by
  induction ss' using List.reverseRecOn with
  | nil => rw [setAll_snoc, set_self]
  | append_singleton ss' s ih =>
      rw [List.forall_mem_append, List.forall_mem_singleton] at hno
      rw [← List.cons_append, ← List.append_assoc, setAll_snoc, set_of_ne hno.2.symm, ih hno.1]

/-- A file of the table was there before, or has been set. -/
theorem setAll_cases (D : Table) (ss : List (ℕ × File)) (h : D.setAll ss fd = some f) :
    D fd = some f ∨ (fd, f) ∈ ss := by
  induction ss using List.reverseRecOn with
  | nil => exact .inl h
  | append_singleton ss s ih =>
      rw [setAll_snoc, set, Function.update_apply] at h
      split_ifs at h with heq
      · obtain rfl := Option.some.inj h
        exact .inr (List.mem_append_right _ (by rw [heq]; exact List.mem_singleton_self _))
      · exact (ih h).imp_right (List.mem_append_left _)

theorem Standard.set (hD : D.Standard) (hfd : fd < 3) (f : File) : (D.set fd f).Standard := by
  intro j
  by_cases h : j = fd
  · rw [h, set_self]
    exact iff_of_true nofun hfd
  · rw [set_of_ne h]
    exact hD j

theorem Standard.eq_none (hD : D.Standard) {j : ℕ} (hj : 3 ≤ j) : D j = none :=
  not_not.mp fun h => absurd ((hD j).mp h) hj.not_gt

/-- The lowest free descriptor. -/
theorem fdalloc_eq (hfd : fd < NOFILE) (hfree : D fd = none) (hlow : ∀ j < fd, D j ≠ none) :
    D.fdalloc = some fd := by
  refine List.find?_range_eq_some.mpr ⟨by rw [hfree]; rfl, List.mem_range.mpr hfd, fun j hj => ?_⟩
  rw [Option.not_isNone, Option.isSome_iff_ne_none]
  exact hlow j hj

theorem close_eq (hfd : fd < NOFILE) (h : D fd = some f) : D.close fd = (0, D.free fd) := by
  rw [close, argfd, if_pos hfd, h]

theorem place_eq (hfd : fd < NOFILE) (hfree : D fd = none) (hlow : ∀ j < fd, D j ≠ none)
    (f : File) : D.place f = ((fd : ℤ), D.set fd f) := by
  rw [place, fdalloc_eq hfd hfree hlow]

theorem dup_eq {j : ℕ} (hj : j < NOFILE) (hf : D j = some f) (hfd : fd < NOFILE)
    (hfree : D fd = none) (hlow : ∀ j < fd, D j ≠ none) : D.dup j = ((fd : ℤ), D.set fd f) := by
  rw [dup, argfd, if_pos hj, hf]
  exact place_eq hfd hfree hlow f

/-- A standard descriptor that is closed is the next to be opened. -/
theorem Standard.reopen (hD : D.Standard) (hfd : fd < 3) (f : File) :
    D.close fd = (0, D.free fd) ∧ (D.free fd).place f = ((fd : ℤ), D.set fd f) := by
  have h16 : fd < NOFILE := hfd.trans (by decide)
  obtain ⟨g, hg⟩ := Option.ne_none_iff_exists'.mp ((hD fd).mpr hfd)
  refine ⟨close_eq h16 hg, ?_⟩
  rw [place_eq h16 (free_self ..) fun j hj => ?_, set_free]
  rw [free_of_ne hj.ne]
  exact (hD j).mpr (hj.trans hfd)

/-- The table behind `pipe`. -/
def piped (D : Table) (p : PipeId) : Table := (D.set 3 (.readEnd p)).set 4 (.writeEnd p)

/-- With the standard descriptors, `pipe` returns 3 and 4. -/
theorem Standard.pipe (hD : D.Standard) (p : PipeId) : D.pipe p = (some (3, 4), D.piped p) := by
  have h3 : D.fdalloc = some 3 :=
    fdalloc_eq (by decide) (hD.eq_none le_rfl) fun j hj => (hD j).mpr hj
  have h4 : (D.set 3 (.readEnd p)).fdalloc = some 4 := by
    refine fdalloc_eq (by decide) ?_ fun j hj => ?_
    · rw [set_of_ne (by decide)]
      exact hD.eq_none (by decide)
    · by_cases h : j = 3
      · rw [h, set_self]
        nofun
      · rw [set_of_ne h]
        exact (hD j).mpr (by omega)
  rw [Table.pipe, h3]
  dsimp only
  rw [h4]
  rfl

/-- The two ends are closed. -/
theorem Standard.unpipe (hD : D.Standard) {D' : Table} {a b : File} (h3 : D' 3 = some a)
    (h4 : D' 4 = some b) (h : ∀ j, j ≠ 3 → j ≠ 4 → D' j = D j) :
    ((D'.close 3).2.close 4).2 = D := by
  have h4' : D'.free 3 4 = some b := by rw [free_of_ne (by decide), h4]
  rw [close_eq (by decide) h3, close_eq (by decide) h4']
  funext j
  dsimp only
  by_cases hj4 : j = 4
  · rw [hj4, free_self, hD.eq_none (by decide)]
  by_cases hj3 : j = 3
  · rw [hj3, free_of_ne (by decide), free_self, hD.eq_none le_rfl]
  · rw [free_of_ne hj4, free_of_ne hj3, h j hj3 hj4]

theorem piped_read (D : Table) (p : PipeId) : D.piped p 3 = some (.readEnd p) := by
  rw [piped, set_of_ne (by decide), set_self]

theorem piped_write (D : Table) (p : PipeId) : D.piped p 4 = some (.writeEnd p) := set_self ..

theorem piped_of_ne {j : ℕ} (h3 : j ≠ 3) (h4 : j ≠ 4) (D : Table) (p : PipeId) :
    D.piped p j = D j := by
  rw [piped, set_of_ne h4, set_of_ne h3]

/-- What the shell does to put an end of a pipe in the place of a descriptor. -/
theorem Standard.replace (hD : D.Standard) (hfd : fd < 3) (p : PipeId) {e : ℕ} (he : e = 3 ∨ e = 4)
    (hf : D.piped p e = some f) :
    ((((((D.piped p).close fd).2.dup e).2.close 3).2).close 4).2 = D.set fd f := by
  have h16 : fd < NOFILE := hfd.trans (by decide)
  obtain ⟨g, hg⟩ := Option.ne_none_iff_exists'.mp ((hD fd).mpr hfd)
  have hg' : D.piped p fd = some g := by rw [piped_of_ne (by omega) (by omega), hg]
  have hfe : (D.piped p).free fd e = some f := by rw [free_of_ne (by omega), hf]
  have he16 : e < NOFILE := by rcases he with rfl | rfl <;> decide
  have hlow : ∀ j < fd, (D.piped p).free fd j ≠ none := fun j hj => by
    rw [free_of_ne hj.ne, piped_of_ne (by omega) (by omega)]
    exact (hD j).mpr (hj.trans hfd)
  rw [close_eq h16 hg', dup_eq he16 hfe h16 (free_self ..) hlow, set_free]
  have h3 : (D.piped p).set fd f 3 = some (.readEnd p) := by rw [set_of_ne (by omega), piped_read]
  have h4 : (D.piped p).set fd f 4 = some (.writeEnd p) := by rw [set_of_ne (by omega), piped_write]
  refine (hD.set hfd f).unpipe h3 h4 fun j hj3 hj4 => ?_
  dsimp only
  by_cases hj : j = fd
  · rw [hj, set_self, set_self]
  · rw [set_of_ne hj, set_of_ne hj, piped_of_ne hj3 hj4]

end Table

/-! ### The way to a command -/

variable {c : Cmd Str} {ss : List (ℕ × File)}

/-- From the tree `c`, which the process `[]` enters, to a command in it: the descriptors that are
set on the way, and the process that enters the command, with the calls that it has made. -/
inductive Route (c : Cmd Str) : List (ℕ × File) → Cmd Str → Name → ℕ → Prop
  | root : Route c [] c [] 0
  | redir {ss : List (ℕ × File)} {cmd : Cmd Str} {file : Str} {mode fd : ℕ} {q : Name} {n : ℕ}
      (h : Route c ss (.redir cmd file mode fd) q n) :
      Route c (ss ++ [(fd, .named file mode)]) cmd q n
  | listLeft {ss : List (ℕ × File)} {left right : Cmd Str} {q : Name} {n : ℕ}
      (h : Route c ss (.list left right) q n) : Route c ss left (n :: q) 0
  | listRight {ss : List (ℕ × File)} {left right : Cmd Str} {q : Name} {n : ℕ}
      (h : Route c ss (.list left right) q n) : Route c ss right q (n + 1)
  | pipeLeft {ss : List (ℕ × File)} {left right : Cmd Str} {q : Name} {n : ℕ}
      (h : Route c ss (.pipe left right) q n) :
      Route c (ss ++ [(1, .writeEnd ⟨q, n⟩)]) left ((n + 1) :: q) 0
  | pipeRight {ss : List (ℕ × File)} {left right : Cmd Str} {q : Name} {n : ℕ}
      (h : Route c ss (.pipe left right) q n) :
      Route c (ss ++ [(0, .readEnd ⟨q, n⟩)]) right ((n + 2) :: q) 0
  | back {ss : List (ℕ × File)} {cmd : Cmd Str} {q : Name} {n : ℕ}
      (h : Route c ss (.back cmd) q n) : Route c ss cmd (n :: q) 0

/-- What is before a call of `exec` and of `wait`: the descriptors of a command on the way. -/
def Plumbed (c : Cmd Str) (D₀ : Table) : Op → Name → Table → Prop
  | .exec argv, q, D => ∃ ss n, Route c ss (.exec argv) q n ∧ D = D₀.setAll ss ∧ D.Standard
  | .wait, q, D => ∃ ss c' n, Route c ss c' q n ∧ D = D₀.setAll ss
  | _, _, _ => True

/-- The descriptors of the redirections. -/
def Cmd.fds {α : Type} : Cmd α → List ℕ
  | exec _ => []
  | redir cmd _ _ fd => fd :: cmd.fds
  | pipe left right => left.fds ++ right.fds
  | list left right => left.fds ++ right.fds
  | back cmd => cmd.fds

/-- **A command** that is entered with the descriptors of its way runs with them. -/
theorem runcmd_safe {D₀ : Table} {c' : Cmd Str} (h : Route c ss c' q n) (hD : D = D₀.setAll ss)
    (hs : D.Standard) (hfds : ∀ fd ∈ c'.fds, fd < 3) :
    Safe (Plumbed c D₀) (runcmd c') q n D := by
  induction c' generalizing ss q n D with
  | exec argv =>
      cases argv with
      | nil => exact .exit trivial
      | cons file argv => exact .exec ⟨ss, n, h, hD, hs⟩ (.printf trivial (.exit trivial))
  | redir cmd file mode fd ih =>
      obtain ⟨hfd, hfds⟩ := List.forall_mem_cons.mp hfds
      obtain ⟨hclose, hplace⟩ := hs.reopen hfd (.named file mode)
      refine .close trivial (.openFile trivial ?_ ?_)
      · rw [hclose, hplace]
        dsimp only
        rw [if_neg (by omega)]
        exact ih h.redir (by rw [Table.setAll_snoc, hD]) (hs.set hfd _) hfds
      · exact .printf trivial (.exit trivial)
  | list left right ihl ihr =>
      obtain ⟨hl, hr⟩ := List.forall_mem_append.mp hfds
      refine .fork1 trivial (fun pid hpid => ?_) ?_
      · rw [if_neg hpid]
        exact .wait ⟨ss, _, n, h, hD⟩ fun _ => ihr h.listRight hD hs hr
      · exact ihl h.listLeft hD hs hl
  | pipe left right ihl ihr =>
      obtain ⟨hl, hr⟩ := List.forall_mem_append.mp hfds
      -- `pipe` returns 3 and 4, which each side closes after its `dup`.
      refine .pipe trivial ?_
      rw [hs.pipe]
      refine .fork1 trivial (fun pid hpid => ?_) ?_
      · dsimp only
        rw [if_neg hpid]
        refine .fork1 trivial (fun pid hpid => ?_) ?_
        · have hD' := hs.unpipe (D.piped_read ⟨q, n⟩) (D.piped_write ⟨q, n⟩) fun j h3 h4 =>
            Table.piped_of_ne h3 h4 D ⟨q, n⟩
          rw [if_neg hpid]
          refine .close trivial (.close trivial ?_)
          rw [hD']
          exact .wait ⟨ss, _, n, h, hD⟩ fun _ => .wait ⟨ss, _, n, h, hD⟩ fun _ => .exit trivial
        · refine .close trivial (.dup trivial (.close trivial (.close trivial ?_)))
          rw [hs.replace (by decide) ⟨q, n⟩ (.inl rfl) (D.piped_read ⟨q, n⟩)]
          exact ihr h.pipeRight (by rw [Table.setAll_snoc, hD]) (hs.set (by decide) _) hr
      · refine .close trivial (.dup trivial (.close trivial (.close trivial ?_)))
        rw [hs.replace (by decide) ⟨q, n⟩ (.inr rfl) (D.piped_write ⟨q, n⟩)]
        exact ihl h.pipeLeft (by rw [Table.setAll_snoc, hD]) (hs.set (by decide) _) hl
  | back cmd ih =>
      refine .fork1 trivial (fun pid hpid => ?_) (ih h.back hD hs hfds)
      rw [if_neg hpid]
      exact .exit trivial

/-! ### Every process -/

/-- A process that is about to call `exec`, or has done so. -/
def Process.AtExec (pr : Process) (argv : List Str) : Prop :=
  (∃ k, pr.code = .sh (.op (.exec argv) k)) ∨ pr.code = .user argv

/-- A process in `wait`. -/
def Process.Waits (pr : Process) : Prop := ∃ k, pr.code = .sh (.op .wait k)

theorem Process.AtExec.plumbed {pr : Process} {argv : List Str} {D₀ : Table} (h : pr.AtExec argv)
    (hs : pr.code.Safe (Plumbed c D₀) q pr.calls pr.fd) : Plumbed c D₀ (.exec argv) q pr.fd := by
  obtain ⟨k, h⟩ | h := h
  · rw [h] at hs
    exact hs.1
  · rw [h] at hs
    exact hs

theorem Process.Waits.plumbed {pr : Process} {D₀ : Table} (h : pr.Waits)
    (hs : pr.code.Safe (Plumbed c D₀) q pr.calls pr.fd) : Plumbed c D₀ .wait q pr.fd := by
  obtain ⟨k, h⟩ := h
  rw [h] at hs
  exact hs.1

/-- The ends of a pipe are set on the ways of the two processes that are made for it. -/
theorem Route.ends {c' : Cmd Str} (h : Route c ss c' q n) {fd : ℕ} {p : PipeId} :
    ((fd, .writeEnd p) ∈ ss → (p.call + 1) :: p.maker <:+ q) ∧
      ((fd, .readEnd p) ∈ ss → (p.call + 2) :: p.maker <:+ q) := by
  induction h with
  | root => exact ⟨nofun, nofun⟩
  | redir h ih =>
      refine ⟨fun hm => ih.1 ?_, fun hm => ih.2 ?_⟩ <;>
        exact (List.mem_append.mp hm).resolve_right (by rintro (_ | ⟨_, ⟨⟩⟩))
  | listLeft h ih | back h ih =>
      exact ⟨fun hm => (ih.1 hm).trans (List.suffix_cons ..),
        fun hm => (ih.2 hm).trans (List.suffix_cons ..)⟩
  | listRight h ih => exact ih
  | pipeLeft h ih =>
      refine ⟨fun hm => ?_, fun hm => ?_⟩
      · rcases List.mem_append.mp hm with hm | hm
        · exact (ih.1 hm).trans (List.suffix_cons ..)
        · cases List.mem_singleton.mp hm
          exact List.suffix_rfl
      · rcases List.mem_append.mp hm with hm | hm
        · exact (ih.2 hm).trans (List.suffix_cons ..)
        · cases List.mem_singleton.mp hm
  | pipeRight h ih =>
      refine ⟨fun hm => ?_, fun hm => ?_⟩
      · rcases List.mem_append.mp hm with hm | hm
        · exact (ih.1 hm).trans (List.suffix_cons ..)
        · cases List.mem_singleton.mp hm
      · rcases List.mem_append.mp hm with hm | hm
        · exact (ih.2 hm).trans (List.suffix_cons ..)
        · cases List.mem_singleton.mp hm
          exact List.suffix_rfl

/-- **The descriptors of every process** in every run of a command, which is entered with the first
three descriptors open, none of them an end of a pipe of the command.  The left process of a pipe
is the first that its maker forks behind it, and the right one the second. -/
theorem descriptor_plumbing {c : Cmd Str} {D₀ : Table} {as : List Name} {s : System}
    (h : Run Step (start c D₀) as s) (hfds : ∀ fd ∈ c.fds, fd < 3) (hD : D₀.Standard)
    (hold : ∀ fd f, D₀ fd = some f → ∃ k, f = .old k) {q : Name} {pr : Process}
    (hq : s q = some pr) :
    (∀ argv, pr.AtExec argv → pr.fd.Standard ∧ ∃ ss n, Route c ss (.exec argv) q n ∧
      pr.fd = D₀.setAll ss ∧ ∀ ss₁ fd f ss₂, ss = ss₁ ++ (fd, f) :: ss₂ →
        (∀ s ∈ ss₂, s.1 ≠ fd) → pr.fd fd = some f) ∧
    ((∃ argv, pr.AtExec argv) ∨ pr.Waits → ∀ fd p,
      (pr.fd fd = some (.writeEnd p) → (p.call + 1) :: p.maker <:+ q) ∧
      (pr.fd fd = some (.readEnd p) → (p.call + 2) :: p.maker <:+ q)) := by
  have hroot : Route c [] c [] 0 := .root
  have hsafe := Safe.run h (runcmd_safe hroot rfl hD hfds) q pr hq
  have hends : ∀ {ss c' n}, Route c ss c' q n → pr.fd = D₀.setAll ss → ∀ fd p,
      (pr.fd fd = some (.writeEnd p) → (p.call + 1) :: p.maker <:+ q) ∧
      (pr.fd fd = some (.readEnd p) → (p.call + 2) :: p.maker <:+ q) := by
    intro ss c' n hr heq fd p
    rw [heq]
    refine ⟨fun hf => ?_, fun hf => ?_⟩
    · rcases D₀.setAll_cases ss hf with hf | hm
      · obtain ⟨k, ⟨⟩⟩ := hold fd _ hf
      · exact hr.ends.1 hm
    · rcases D₀.setAll_cases ss hf with hf | hm
      · obtain ⟨k, ⟨⟩⟩ := hold fd _ hf
      · exact hr.ends.2 hm
  refine ⟨fun argv hexec => ?_, ?_⟩
  · obtain ⟨ss, n, hr, heq, hstd⟩ := hexec.plumbed hsafe
    refine ⟨hstd, ss, n, hr, heq, fun ss₁ fd f ss₂ hss hno => ?_⟩
    rw [heq, hss]
    exact D₀.setAll_apply ss₁ ss₂ hno
  · rintro (⟨argv, hexec⟩ | hwait)
    · obtain ⟨ss, n, hr, heq, -⟩ := hexec.plumbed hsafe
      exact hends hr heq
    · obtain ⟨ss, c', n, hr, heq⟩ := hwait.plumbed hsafe
      exact hends hr heq

/-- The shell's descriptors, when nothing has been redirected. -/
def plain : Table := fun fd => if fd < 3 then some (.old fd) else none

/-- `c | d` -/
def smallPipe : Cmd Str := .pipe (.exec [[99]]) (.exec [[100]])

/-- Both sides of a pipe come to their `exec`. -/
theorem descriptor_plumbing_smallPipe : ∃ as s left right, Run Step (start smallPipe plain) as s ∧
    s [1] = some left ∧ left.AtExec [[99]] ∧ left.fd.Standard ∧
      left.fd 1 = some (.writeEnd ⟨[], 0⟩) ∧
    s [2] = some right ∧ right.AtExec [[100]] ∧ right.fd.Standard ∧
      right.fd 0 = some (.readEnd ⟨[], 0⟩) := by
  have hstd : plain.Standard := fun fd => by
    unfold plain
    split
    · exact iff_of_true nofun ‹_›
    · exact iff_of_false (fun h => h rfl) ‹_›
  have hold : ∀ fd f, plain fd = some f → ∃ k, f = .old k := fun fd f h => by
    unfold plain at h
    split at h
    · exact ⟨fd, (Option.some.inj h).symm⟩
    · cases h
  have hrun : Run Step (start smallPipe plain)
      [[], [], [], [1], [1], [1], [1], [2], [2], [2], [2]] _ :=
    .cons (.call rfl (.pipe plain 0) nofun nofun) <|
    .cons (.fork rfl (by decide : (0 : ℤ) < 4)) <|
    .cons (.fork rfl (by decide : (0 : ℤ) < 5)) <|
    .cons (.call rfl (.close 1 _ _) nofun nofun) <|
    .cons (.call rfl (.dup 4 _ _) nofun nofun) <|
    .cons (.call rfl (.close 3 _ _) nofun nofun) <|
    .cons (.call rfl (.close 4 _ _) nofun nofun) <|
    .cons (.call rfl (.close 0 _ _) nofun nofun) <|
    .cons (.call rfl (.dup 3 _ _) nofun nofun) <|
    .cons (.call rfl (.close 3 _ _) nofun nofun) <|
    .cons (.call rfl (.close 4 _ _) nofun nofun) (.nil _)
  have hfds : ∀ fd ∈ smallPipe.fds, fd < 3 := by decide
  have hleft := (descriptor_plumbing hrun hfds hstd hold (q := [1]) rfl).1 [[99]] (.inl ⟨_, rfl⟩)
  have hright := (descriptor_plumbing hrun hfds hstd hold (q := [2]) rfl).1 [[100]] (.inl ⟨_, rfl⟩)
  exact ⟨_, _, _, _, hrun, rfl, .inl ⟨_, rfl⟩, hleft.1, rfl, rfl, .inl ⟨_, rfl⟩, hright.1, rfl⟩

/-! ### What the shell runs -/

theorem Redir.fd_lt {r : List Token} {f : Redirection} (h : Redir r f) : f.fd < 3 := by
  cases h <;> simp

theorem Redirs.fd_lt {rs : List Token} {fs : List Redirection} (h : Redirs rs fs) :
    ∀ f ∈ fs, f.fd < 3 := by
  induction h with
  | nil => exact nofun
  | cons h hs ih => exact List.forall_mem_cons.mpr ⟨h.fd_lt, ih⟩

theorem Args.fd_lt {ts : List Token} {ws : List Str} {fs : List Redirection} (h : Args ts ws fs) :
    ∀ f ∈ fs, f.fd < 3 := by
  induction h with
  | nil => exact nofun
  | cons hr h ih => exact List.forall_mem_append.mpr ⟨hr.fd_lt, ih⟩

theorem fds_wrap {fs : List Redirection} (hfs : ∀ f ∈ fs, f.fd < 3) {c : Cmd Str}
    (hc : ∀ fd ∈ c.fds, fd < 3) : ∀ fd ∈ (wrap fs c).fds, fd < 3 := by
  induction fs generalizing c with
  | nil => exact hc
  | cons f fs ih =>
      obtain ⟨hf, hfs⟩ := List.forall_mem_cons.mp hfs
      exact ih hfs (List.forall_mem_cons.mpr ⟨hf, hc⟩)

theorem fds_backs (k : ℕ) (c : Cmd Str) : (c.backs k).fds = c.fds := by
  induction k generalizing c with
  | zero => rfl
  | succ k ih => exact ih _

mutual

/-- The redirections of a line are of the first three descriptors. -/
theorem Line.fds_lt {ts : List Token} {c : Cmd Str} : Line ts c → ∀ fd ∈ c.fds, fd < 3
  | .pipe h k => by
      rw [fds_backs]
      exact h.fds_lt
  | .list h k h' => by
      rw [Cmd.fds, fds_backs]
      exact List.forall_mem_append.mpr ⟨h.fds_lt, h'.fds_lt⟩

theorem Pipe.fds_lt {ts : List Token} {c : Cmd Str} : Pipe ts c → ∀ fd ∈ c.fds, fd < 3
  | .exec h => h.fds_lt
  | .pipe h h' => List.forall_mem_append.mpr ⟨h.fds_lt, h'.fds_lt⟩

theorem Exec.fds_lt {ts : List Token} {c : Cmd Str} : Exec ts c → ∀ fd ∈ c.fds, fd < 3
  | .block h hr => fds_wrap hr.fd_lt h.fds_lt
  | .words hr ha _ => fds_wrap (List.forall_mem_append.mpr ⟨hr.fd_lt, ha.fd_lt⟩) nofun

end

end Xv6.Sh
