import Xv6.Fs.Local

/-!
# File system — whose lock it is

`iunlock` also asks whether it is this process that holds the lock: `holdingsleep` compares `lk->pid`
with the `pid` of the process.  The operations of `Icache` do not know who performs them; here they
are told, and `lk->pid` is kept for every inode.

* `owned` — the operations, each by a process.
* `run_owned` — processes that are correct, each by itself, unlock no lock of another: they run as
  they do where nobody asks.
-/

namespace Xv6.Fs

open Lib

variable {ι α σ : Type} [DecidableEq ι]

/-- A file system, with the process whose `pid` the lock of an inode has. -/
structure Owned (ι σ : Type) where
  state : σ
  pid : Inum → Option ι

/-- `holdingsleep`, where the operation asks for it: `lk->pid == myproc()->pid`. -/
def Op.holding (me : ι) (pid : Inum → Option ι) : Op → Bool
  | .iunlock ip => pid ip = some me
  | _ => true

/-- `lk->pid` after `acquiresleep` and `releasesleep`.  `iput`, which calls both, leaves a lock that
was free as it was. -/
def Op.store (me : ι) (pid : Inum → Option ι) : Op → Inum → Option ι
  | .ilock ip => Function.update pid ip (some me)
  | .iunlock ip => Function.update pid ip none
  | _ => pid

/-- The operations `h`, by the process `me`. -/
def owned (h : Handler Op Op.Res Stop σ) (me : ι) : Handler Op Op.Res Stop (Owned ι σ) := fun o s =>
  if o.holding me s.pid then (h o s.state).map fun r => (r.1, ⟨r.2, o.store me s.pid⟩)
  else .error .iunlock

/-! ### Correct processes -/

variable {n : ℕ} {sb : Superblock} {devsw : Devsw} {R : Inum → ℕ} {vs : ι → Local} {w : Local}
  {s : Flat} {me t : ι} {pid : Inum → Option ι} {o : Op} {r : o.Res} {Q : ι → α → Local → Prop}

/-- The locks that have a `pid` are those of the inodes that the processes know, each its own. -/
def Theirs (vs : ι → Local) (pid : Inum → Option ι) : Prop :=
  ∀ i t, pid i = some t ↔ (vs t).know i ≠ none

theorem Theirs.holding (h : Theirs vs pid) (ho : o.asks n devsw (vs me)) : o.holding me pid = true := by
  cases o with
  | iunlock ip =>
      obtain ⟨nd, hk⟩ := ho
      exact decide_eq_true ((h ip me).mpr (by rw [hk]; exact Option.some_ne_none nd))
  | _ => rfl

/-- A change of the view of one process. -/
theorem Theirs.update {pid' : Inum → Option ι} (h : Theirs vs pid)
    (hme : ∀ i, pid' i = some me ↔ w.know i ≠ none)
    (hothers : ∀ t ≠ me, ∀ i, pid' i = some t ↔ pid i = some t) :
    Theirs (Function.update vs me w) pid' := fun i t => by
  by_cases ht : t = me
  · subst ht
    rw [Function.update_self]
    exact hme i
  · rw [Function.update_of_ne ht, hothers t ht i]
    exact h i t

/-- **An operation keeps the locks with those who know the inodes.** -/
theorem Theirs.does [Fintype ι] (h : Theirs vs pid) (hsat : Sat n R vs s)
    (ho : o.asks n devsw (vs me)) (hpost : o.does n devsw (vs me) r w)
    (hsat' : ∀ t ≠ me, ∀ i, w.know i ≠ none → (vs t).know i = none) :
    Theirs (Function.update vs me w) (o.store me pid) := by
  have hsame : (∀ i, w.know i ≠ none ↔ (vs me).know i ≠ none) →
      Theirs (Function.update vs me w) pid := fun hk =>
    h.update (fun i => (h i me).trans (hk i).symm) fun _ _ _ => Iff.rfl
  have hset : ∀ {ip nd nd'}, (vs me).know ip = some nd → w = (vs me).set ip nd' →
      Theirs (Function.update vs me w) pid := by
    rintro ip nd nd' hk rfl
    refine hsame fun i => ?_
    by_cases hi : i = ip
    · subst hi
      simp [Local.set, hk]
    · simp [Local.set, hi]
  -- Only `ilock` and `iunlock` change who has a lock.
  cases o with
  | begin_op | end_op =>
      cases hpost
      exact hsame fun _ => Iff.rfl
  | panic p => cases hpost
  | iget ip | idup ip =>
      obtain ⟨-, rfl⟩ := hpost
      exact hsame fun _ => Iff.rfl
  | iput ip =>
      obtain ⟨-, rfl⟩ := hpost
      exact hsame fun _ => Iff.rfl
  | ialloc type =>
      obtain ⟨-, -, rfl⟩ := hpost
      exact hsame fun _ => Iff.rfl
  | attr ip | readi ip off k =>
      obtain ⟨_, -, -, rfl⟩ := hpost
      exact hsame fun _ => Iff.rfl
  | iupdate ip major minor nlink =>
      obtain ⟨nd, hk, hw⟩ := hpost
      exact hset hk hw
  | writei ip off src =>
      obtain ⟨nd, hk, -, hw⟩ := hpost
      exact hset hk hw
  | ilock ip =>
      obtain ⟨-, -, nd, -, -, rfl⟩ := hpost
      refine h.update (fun i => ?_) fun t ht i => ?_
      · by_cases hi : i = ip
        · subst hi
          simp [Op.store, Local.lock, Local.set]
        · simpa [Op.store, Local.lock, Local.set, Local.learn, hi] using h i me
      · by_cases hi : i = ip
        · subst hi
          have hfree := hsat' t ht i (by simp [Local.lock, Local.set])
          simp only [Op.store, Function.update_self, Option.some_inj]
          exact iff_of_false (Ne.symm ht) fun hp => (h i t).mp hp hfree
        · rw [Op.store, Function.update_of_ne hi]
  | iunlock ip =>
      obtain ⟨nd, hk⟩ := ho
      obtain rfl : w = (vs me).unlock ip := hpost
      refine h.update (fun i => ?_) fun t ht i => ?_
      · by_cases hi : i = ip
        · subst hi
          simp [Op.store, Local.unlock]
        · simpa [Op.store, Local.unlock, hi] using h i me
      · by_cases hi : i = ip
        · subst hi
          rw [Op.store, Function.update_self]
          refine iff_of_false (fun hp => by cases hp) fun hp => ht ?_
          exact hsat.alone t me i ((h i t).mp hp) (by rw [hk]; exact Option.some_ne_none nd)
        · rw [Op.store, Function.update_of_ne hi]

/-! ### Runs -/

/-- The processes are correct, each against its own view, and have the locks that they think. -/
structure OwnLocks (sb : Superblock) (devsw : Devsw) (R : Inum → ℕ) (Q : ι → α → Local → Prop)
    (vs : ι → Local) [Fintype ι] (P : Pool Op Op.Res ι α (Owned ι State)) : Prop where
  inv : P.state.state.Inv sb
  fits : (P.map fun s => s.state.view sb).Fits (fsSpec sb.ninodes devsw) (Sat sb.ninodes R) Q vs
  theirs : Theirs vs P.state.pid

/-- The turn of a correct process is what it is where nobody asks whose lock it is. -/
theorem turn_owned [Fintype ι] {P : Pool Op Op.Res ι α (Owned ι State)} (i : ι)
    (h : ∃ vs, OwnLocks sb devsw R Q vs P) :
    (P.map Owned.state).turn (diskOps sb devsw) Stop.waits i =
        (P.turn (owned (diskOps sb devsw) i) Stop.waits i).map (Pool.map Owned.state) ∧
      ∀ P', P.turn (owned (diskOps sb devsw) i) Stop.waits i = .ok P' →
        ∃ vs, OwnLocks sb devsw R Q vs P' := by
  obtain ⟨vs, hinv, ⟨hsat, hcorrect⟩, htheirs⟩ := h
  have hprog : (P.map Owned.state).prog i = P.prog i := rfl
  have hi : (P.prog i).lwp _ _ _ := hcorrect i
  unfold Pool.turn
  rw [hprog]
  cases hp : P.prog i with
  | ret a =>
      refine ⟨rfl, fun P' hr => ⟨vs, ?_⟩⟩
      cases hr
      exact ⟨hinv, ⟨hsat, hcorrect⟩, htheirs⟩
  | op o k =>
      rw [hp] at hi
      obtain ⟨hasks, hk⟩ := hi
      have hstate : (P.map Owned.state).state = P.state.state := rfl
      dsimp only
      rw [owned, if_pos (htheirs.holding hasks), hstate]
      cases ho : diskOps sb devsw o P.state.state with
      | error e =>
          simp only [Except.map]
          split
          · refine ⟨rfl, fun P' hr => ⟨vs, ?_⟩⟩
            cases hr
            exact ⟨hinv, ⟨hsat, hcorrect⟩, htheirs⟩
          · exact ⟨rfl, fun P' hr => by cases hr⟩
      | ok r =>
          obtain ⟨r, u⟩ := r
          obtain ⟨hinv', hflat⟩ := (diskOps_follows o P.state.state hinv).1 r u ho
          obtain ⟨w, hpost, hsat'⟩ := (fsSpec_sound R).ok hsat hasks hflat
          refine ⟨rfl, fun P' hr => ⟨Function.update vs i w, ?_⟩⟩
          cases hr
          refine ⟨hinv', ⟨hsat', fun j => ?_⟩, htheirs.does hsat hasks hpost fun t ht j hw => ?_⟩
          · by_cases hj : j = i
            · subst hj
              simpa only [Pool.map, Function.update_self] using hk r w hpost
            · simpa only [Pool.map, Function.update_of_ne hj] using hcorrect j
          · by_contra hne
            refine ht (hsat'.alone t i j ?_ ?_)
            · rwa [Function.update_of_ne ht]
            · rwa [Function.update_self]

/-- **Nobody unlocks the lock of another**: correct processes, in any order of turns, run as they do
where nobody asks whose lock it is. -/
theorem run_owned [Fintype ι] {P : Pool Op Op.Res ι α (Owned ι State)}
    (h : OwnLocks sb devsw R Q vs P) (sched : List ι) :
    (P.map Owned.state).run (diskOps sb devsw) Stop.waits sched =
      (P.runBy Stop.waits (owned (diskOps sb devsw)) sched).map (Pool.map Owned.state) :=
  Pool.map_runBy (fun _ i hP => turn_owned i hP) sched ⟨vs, h⟩

end Xv6.Fs
