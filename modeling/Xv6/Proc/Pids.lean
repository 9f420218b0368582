import Xv6.Proc.Kill

/-!
# Processes — pids

`allocproc` numbers the processes with an `int` that it increments and never compares with the
pids in use.  As long as the counter is positive each new pid is larger than every pid in the
table, free entries included, and a pid tells its process from all others: `kill` finds it and
nothing else, and `fork` returns a positive number exactly if it makes a child.  After
`2 ^ 31 - 2` calls the counter is negative, and so are the pids.

`pids_identify` says that the counter is all there is to it: the pids of a run are in order in
every state reached if and only if every `allocproc` that finds an entry finds the counter
positive.  `pid_negative` is the run in which it does not.
-/

namespace Xv6.Process.Ptable

open Lib

variable {s t : Ptable} {p q i j np : Fin NPROC} {a : Act} {pid : Int32} {n : ℕ}

/-- What `fork` returns in the parent, at the steps where it returns. -/
def forkReturns (s : Ptable) : Act → Option Int32
  | .allocproc _ => if ∃ i, (s.proc i).state = .unused then none else some (-1)
  | .kalloc _ ok | .copyuvm _ ok => if ok then none else some (-1)
  | .setRunnable p => (s.proc p).pc.reserves.map fun np => (s.proc np).pid
  | _ => none

/-- The pids of the processes are positive, and no other entry has the pid of a process. -/
structure Identified (s : Ptable) : Prop where
  positive : ∀ i, (s.proc i).state ≠ .unused → 0 < (s.proc i).pid
  distinct : ∀ i j, (s.proc i).state ≠ .unused → (s.proc j).state ≠ .unused →
    (s.proc i).pid = (s.proc j).pid → i = j
  lookup : ∀ i, (s.proc i).state ≠ .unused → s.lookup (s.proc i).pid = some i

/-- A step into a table with its pids in order, in which `fork` returns a positive number exactly
if it has made a child, and the pid that `wait` returns is that of one process only. -/
structure Identifies (s : Ptable) (a : Act) (t : Ptable) : Prop where
  identified : t.Identified
  fork : ∀ v, s.forkReturns a = some v → (0 < v ↔ ∃ u c, t.history = .forked u c :: s.history)
  wait : ∀ p, a = .scan p → ∀ pid, (s.scan p).2 = .reaped pid → ∃ q,
    (s.proc q).state = .zombie ∧ (s.proc q).parent = some p ∧ (t.proc q).state = .unused ∧
    ∀ j, (s.proc j).state ≠ .unused → ((s.proc j).pid = pid ↔ j = q)

/-- If the step numbers a process, the counter is positive. -/
def FreshPid (s : Ptable) : Act → Prop
  | .allocproc _ => (∃ i, (s.proc i).state = .unused) → 0 < s.nextpid
  | _ => True

/-! ### Steps that number nobody -/

/-- From `s` to `t` no pid changes, and no free entry is taken. -/
structure KeepsPids (s t : Ptable) : Prop where
  nextpid : t.nextpid = s.nextpid
  pid : ∀ i, (t.proc i).pid = (s.proc i).pid
  used : ∀ i, (t.proc i).state ≠ .unused → (s.proc i).state ≠ .unused

namespace KeepsPids

theorem refl (s : Ptable) : KeepsPids s s := ⟨rfl, fun _ => rfl, fun _ => id⟩

theorem trans {u : Ptable} (h : KeepsPids s t) (h' : KeepsPids t u) : KeepsPids s u where
  nextpid := h'.nextpid.trans h.nextpid
  pid i := (h'.pid i).trans (h.pid i)
  used i hi := h.used i (h'.used i hi)

/-- A change of one entry that leaves its number. -/
theorem set {x : Proc} (hp : x.pid = (s.proc p).pid)
    (hu : x.state ≠ .unused → (s.proc p).state ≠ .unused) : KeepsPids s (s.set p x) where
  nextpid := rfl
  pid i := by
    by_cases hi : i = p
    · subst hi; simpa using hp
    · simp [hi]
  used i := by
    by_cases hi : i = p
    · subst hi; simpa using hu
    · simp [hi]

theorem goto (s : Ptable) (p : Fin NPROC) (pc : Pc) : KeepsPids s (s.goto p pc) := set rfl id

/-- `wakeup1` leaves the numbers. -/
theorem wakeup1 (s : Ptable) (c : Option Chan) : KeepsPids s (s.wakeup1 c) := by
  refine ⟨rfl, fun i => ?_, fun i => ?_⟩
  · rw [wakeup1_proc, wake]
    split <;> rfl
  · rw [wakeup1_proc, wake]
    split
    · rename_i hi
      simp [hi.1]
    · exact id

/-- Passing on a child leaves the numbers. -/
theorem abandon (p : Fin NPROC) (s : Ptable) (q : Fin NPROC) :
    KeepsPids s (Ptable.abandon p s q) := by
  have hq : KeepsPids s (s.set q { s.proc q with parent := some s.initproc }) := set rfl id
  simp only [Ptable.abandon]
  split
  · split
    · exact hq.trans (wakeup1 _ _)
    · exact hq
  · exact refl s

theorem foldl_abandon (p : Fin NPROC) (l : List (Fin NPROC)) (s : Ptable) :
    KeepsPids s (l.foldl (Ptable.abandon p) s) := by
  induction l generalizing s with
  | nil => exact refl s
  | cons q l ih => exact (abandon p s q).trans (ih _)

/-- `exit` changes no number. -/
theorem exit (hp : (s.proc p).state ≠ .unused) (hi : p ≠ s.initproc) :
    KeepsPids s (s.exit p) := by
  have h := (wakeup1 s ((s.proc p).parent.map .proc)).trans
    (foldl_abandon p (List.finRange NPROC) _)
  have hs := (exit_spec hi).state
  unfold Ptable.exit at hs ⊢
  dsimp only at hs ⊢
  generalize (List.finRange NPROC).foldl (Ptable.abandon p) _ = u at h hs ⊢
  have hset : ∀ i, (({ u.set p { u.proc p with state := .zombie } with
      history := .exited (s.proc p).uid :: s.history } : Ptable).proc i) =
      if i = p then { u.proc p with state := .zombie } else u.proc i := set_proc u p _
  refine ⟨h.nextpid, fun i => ?_, fun i hu => ?_⟩
  · rw [hset, ← h.pid i]
    split
    · rename_i hip
      rw [hip]
    · rfl
  · by_cases hip : i = p
    · rw [hip]; exact hp
    · rcases hs i hip with e | ⟨e, -⟩
      · rwa [e] at hu
      · simp [e]

theorem forkFails (s : Ptable) (p np : Fin NPROC) : KeepsPids s (s.forkFails p np) :=
  (set (p := np) (x := { s.proc np with state := .unused }) rfl (by simp)).trans (goto _ p .user)

theorem setParent (s : Ptable) (p np : Fin NPROC) : KeepsPids s (s.setParent p np) :=
  (set (p := np) (x := { s.proc np with parent := some p }) rfl id).trans
    (goto _ p (.runnable np))

theorem setRunnable (hnp : (s.proc np).state = .embryo) : KeepsPids s (s.setRunnable p np) := by
  have h := (set (p := np) (x := { s.proc np with state := .runnable, pc := .user }) rfl
    (by simp [hnp])).trans (goto _ p .user)
  exact ⟨h.nextpid, h.pid, h.used⟩

theorem kill (s : Ptable) (pid : Int32) : KeepsPids s (s.kill pid).1 := by
  unfold Ptable.kill
  split
  · refine set rfl fun hu hs => hu ?_
    simp [kill1, hs]
  · exact refl s

/-- The steps but `allocproc` and a `wait` that returns a child. -/
theorem step (h : s.Inv) (hs : s.step a = some t) (ha : ∀ p, a ≠ .allocproc p)
    (hw : ∀ p, a ≠ .scan p) : KeepsPids s t := by
  cases a with
  | sched p =>
      obtain ⟨hp, rfl⟩ : _ ∧ s.sched p = t := by simpa [Ptable.step] using hs
      exact set rfl (by simp [hp])
  | yield p =>
      obtain ⟨hp, rfl⟩ : _ ∧ s.yield p = t := by simpa [Ptable.step] using hs
      exact set rfl (by simp [hp])
  | sleep p n =>
      obtain ⟨hp, rfl⟩ : _ ∧ s.sleep p _ = t := by simpa [Ptable.step] using hs
      exact set rfl (by simp [hp.1])
  | wakeup n =>
      obtain rfl : s.wakeup1 _ = t := by simpa [Ptable.step] using hs
      exact wakeup1 s _
  | allocproc p => exact absurd rfl (ha p)
  | kalloc p ok =>
      obtain ⟨np, -, rfl⟩ := step_kalloc hs
      split
      · exact goto s p _
      · exact forkFails s p np
  | copyuvm p ok =>
      obtain ⟨np, -, rfl⟩ := step_copyuvm hs
      split
      · exact goto s p _
      · exact forkFails s p np
  | setParent p =>
      obtain ⟨np, -, rfl⟩ := step_setParent hs
      exact setParent s p np
  | setRunnable p =>
      obtain ⟨np, hp, rfl⟩ := step_setRunnable hs
      exact setRunnable (h.reserved hp rfl).2.1
  | exit p =>
      obtain ⟨hp, rfl⟩ : _ ∧ s.exit p = t := by simpa [Ptable.step] using hs
      exact exit (by simp [hp.1.1]) hp.2
  | wait p =>
      obtain ⟨hp, rfl⟩ : _ ∧ s.goto p .wait = t := by simpa [Ptable.step] using hs
      exact goto s p .wait
  | scan p => exact absurd rfl (hw p)
  | kill pid =>
      obtain rfl : (s.kill pid).1 = t := by simpa [Ptable.step] using hs
      exact kill s pid

end KeepsPids

/-! ### The counter -/

/-- The pids of the table are the numbers below the counter `n`, each given out once; only a free
entry has none. -/
structure Numbered (n : ℕ) (s : Ptable) : Prop where
  nextpid : s.nextpid = Int32.ofNat n
  le : n ≤ 2 ^ 31
  pid : ∀ i, ∃ k < n, (s.proc i).pid = Int32.ofNat k ∧ ((s.proc i).state ≠ .unused → 0 < k)
  inj : ∀ i j, (s.proc i).pid = (s.proc j).pid → (s.proc i).pid ≠ 0 → i = j

theorem boot_numbered : boot.Numbered 2 := by
  refine ⟨rfl, by decide, fun i => ?_, fun i j => ?_⟩
  · by_cases hi : i = 0
    · exact ⟨1, by decide, by simp [boot, hi], by simp⟩
    · exact ⟨0, by decide, by simp [boot, hi], by simp [boot, hi]⟩
  · by_cases hi : i = 0 <;> by_cases hj : j = 0 <;> simp [boot, hi, hj]

theorem ofNat_pos {k : ℕ} (hk : k ≤ 2 ^ 31) : 0 < Int32.ofNat k ↔ 0 < k ∧ k < 2 ^ 31 := by
  rw [Int32.lt_iff_toInt_lt, Int32.toInt_zero]
  rcases Nat.lt_or_eq_of_le hk with hlt | rfl
  · rw [Int32.toInt_ofNat_of_lt hlt]
    omega
  · decide

theorem ofNat_inj {k l : ℕ} (hk : k < 2 ^ 31) (hl : l < 2 ^ 31) :
    Int32.ofNat k = Int32.ofNat l ↔ k = l := by
  rw [← Int32.toInt_inj, Int32.toInt_ofNat_of_lt hk, Int32.toInt_ofNat_of_lt hl, Int.natCast_inj]

namespace Numbered

/-- A table whose numbers stay is numbered as before. -/
theorem keeps (hn : s.Numbered n) (h : KeepsPids s t) : t.Numbered n where
  nextpid := h.nextpid.trans hn.nextpid
  le := hn.le
  pid i := by
    obtain ⟨k, hk, hp, hu⟩ := hn.pid i
    exact ⟨k, hk, (h.pid i).trans hp, fun hi => hu (h.used i hi)⟩
  inj i j := by
    rw [h.pid i, h.pid j]
    exact hn.inj i j

/-- An entry that is freed leaves the numbers as they are. -/
theorem free (hn : s.Numbered n) (hlt : 0 < n) (q : Fin NPROC) :
    (s.set q (freed (s.proc q))).Numbered n where
  nextpid := hn.nextpid
  le := hn.le
  pid i := by
    rw [set_proc]
    split
    · exact ⟨0, hlt, rfl, by simp [freed]⟩
    · exact hn.pid i
  inj i j := by
    rw [set_proc, set_proc]
    split <;> split
    · simp [freed]
    · simp [freed]
    · simp only [freed]
      exact fun h0 h => absurd h0 h
    · exact hn.inj i j

/-- A positive counter is a pid that no entry has. -/
theorem alloc (hn : s.Numbered n) (h0 : 0 < s.nextpid) (np : Fin NPROC) (u : ℕ) :
    Numbered (n + 1) { s.set np { s.proc np with
      state := .embryo, pid := s.nextpid, uid := u } with nextpid := s.nextpid + 1 } := by
  rw [hn.nextpid, ofNat_pos hn.le] at h0
  have hne : ∀ i, (s.proc i).pid ≠ Int32.ofNat n := by
    intro i hi
    obtain ⟨k, hk, hp, -⟩ := hn.pid i
    rw [hp, ofNat_inj (hk.trans h0.2) h0.2] at hi
    exact hk.ne hi
  refine ⟨?_, h0.2, fun i => ?_, fun i j => ?_⟩
  · simp [hn.nextpid]
  · simp only [set_proc]
    split
    · exact ⟨n, n.lt_succ_self, hn.nextpid, fun _ => h0.1⟩
    · obtain ⟨k, hk, hp⟩ := hn.pid i
      exact ⟨k, hk.trans n.lt_succ_self, hp⟩
  · simp only [set_proc, hn.nextpid]
    split <;> split
    · rename_i hi hj
      exact fun _ _ => hi.trans hj.symm
    · exact fun h => absurd h.symm (hne j)
    · exact fun h => absurd h (hne i)
    · exact hn.inj i j

theorem pos (hn : s.Numbered n) : 0 < n := by
  obtain ⟨k, hk, -⟩ := hn.pid 0
  omega

theorem pid_pos (hn : s.Numbered n) (hi : (s.proc i).state ≠ .unused) : 0 < (s.proc i).pid := by
  obtain ⟨k, hk, hp, hu⟩ := hn.pid i
  have := hn.le
  rw [hp, ofNat_pos (by omega)]
  exact ⟨hu hi, by omega⟩

theorem unique (hn : s.Numbered n) (hi : (s.proc i).state ≠ .unused)
    (hj : (s.proc j).pid = (s.proc i).pid) : j = i := by
  refine hn.inj j i hj ?_
  rw [hj]
  exact (Int32.ne_of_lt (hn.pid_pos hi)).symm

theorem identified (hn : s.Numbered n) : s.Identified where
  positive _ hi := hn.pid_pos hi
  distinct _ _ _ hj h := hn.unique hj h
  lookup i hi := by
    cases hl : s.lookup (s.proc i).pid with
    | none => exact absurd rfl (lookup_none hl i)
    | some j => rw [hn.unique hi (lookup_pid hl)]

/-- The scan of `wait` keeps the numbering. -/
theorem scan (hn : s.Numbered n) (hp : s.runs p .wait) : (s.scan p).1.Numbered n := by
  unfold Ptable.scan
  split
  · rename_i q k hq
    have h := (hn.free hn.pos q).keeps (KeepsPids.goto _ p .user)
    exact ⟨h.nextpid, h.le, h.pid, h.inj⟩
  · split
    · exact hn.keeps (.goto s p .user)
    · exact hn.keeps (.set rfl (by simp [hp.1]))

/-- `allocproc` gives the next number, if no process has it. -/
theorem allocproc (hn : s.Numbered n) (hf : s.FreshPid (.allocproc p)) :
    ∃ m, (s.allocproc p).Numbered m := by
  unfold Ptable.allocproc
  split
  · exact ⟨n, hn⟩
  · rename_i np hnp
    have hun : (s.proc np).state = .unused := by simpa using List.find?_some hnp
    have h := (hn.alloc (hf ⟨np, hun⟩) np s.nextuid).keeps (KeepsPids.goto _ p (.kalloc np))
    exact ⟨n + 1, h.nextpid, h.le, h.pid, h.inj⟩

/-- Every step that gives no number twice keeps the numbering. -/
theorem step (hn : s.Numbered n) (h : s.Inv) (hf : s.FreshPid a) (hs : s.step a = some t) :
    ∃ m, t.Numbered m := by
  by_cases ha : ∃ p, a = .allocproc p
  · obtain ⟨p, rfl⟩ := ha
    obtain ⟨-, rfl⟩ : _ ∧ s.allocproc p = t := by simpa [Ptable.step] using hs
    exact hn.allocproc hf
  · by_cases hw : ∃ p, a = .scan p
    · obtain ⟨p, rfl⟩ := hw
      obtain ⟨hp, rfl⟩ : _ ∧ (s.scan p).1 = t := by simpa [Ptable.step] using hs
      exact ⟨n, hn.scan hp⟩
    · exact ⟨n, hn.keeps (.step h hs (fun p e => ha ⟨p, e⟩) fun p e => hw ⟨p, e⟩)⟩

end Numbered

/-! ### What the pids are for -/

theorem not_forked (s : Ptable) : ¬ ∃ u c, s.history = .forked u c :: s.history := by
  rintro ⟨u, c, h⟩
  simpa using congrArg List.length h

theorem allocproc_full (h : ¬ ∃ i, (s.proc i).state = .unused) : s.allocproc p = s := by
  unfold Ptable.allocproc
  split
  · rfl
  · rename_i np hnp
    exact absurd ⟨np, by simpa using List.find?_some hnp⟩ h

/-- A fork that fails returns `-1`; one that does not returns the pid of the child. -/
theorem Numbered.fork (hn : s.Numbered n) (h : s.Inv) (hs : s.step a = some t) {v : Int32}
    (hv : s.forkReturns a = some v) : 0 < v ↔ ∃ u c, t.history = .forked u c :: s.history := by
  cases a with
  | allocproc p =>
      obtain ⟨-, rfl⟩ : _ ∧ s.allocproc p = t := by simpa [Ptable.step] using hs
      obtain ⟨hfull, rfl⟩ : (¬ ∃ i, _) ∧ -1 = v := by simpa [forkReturns] using hv
      rw [allocproc_full hfull]
      exact iff_of_false (by decide) s.not_forked
  | kalloc p ok =>
      obtain ⟨np, -, rfl⟩ := step_kalloc hs
      obtain ⟨rfl, rfl⟩ : ok = false ∧ -1 = v := by simpa [forkReturns] using hv
      exact iff_of_false (by decide) s.not_forked
  | copyuvm p ok =>
      obtain ⟨np, -, rfl⟩ := step_copyuvm hs
      obtain ⟨rfl, rfl⟩ : ok = false ∧ -1 = v := by simpa [forkReturns] using hv
      exact iff_of_false (by decide) s.not_forked
  | setRunnable p =>
      obtain ⟨np, hp, rfl⟩ := step_setRunnable hs
      obtain rfl : (s.proc np).pid = v := by simpa [forkReturns, hp.2, Pc.reserves] using hv
      refine iff_of_true (hn.pid_pos ?_) ⟨_, _, rfl⟩
      simp [(h.reserved hp rfl).2.1]
  | _ => simp [forkReturns] at hv

/-- The child that `wait` returns was a zombie, and the only process with its pid. -/
theorem Numbered.wait (hn : s.Numbered n) (hp : s.runs p .wait)
    (hr : (s.scan p).2 = .reaped pid) : ∃ q, (s.proc q).state = .zombie ∧
      (s.proc q).parent = some p ∧ ((s.scan p).1.proc q).state = .unused ∧
      ∀ j, (s.proc j).state ≠ .unused → ((s.proc j).pid = pid ↔ j = q) := by
  unfold Ptable.scan at hr ⊢
  split at hr
  · rename_i q k hq
    obtain ⟨h1, h2⟩ := scanFrom_some hq
    obtain rfl : (s.proc q).pid = pid := by simpa using hr
    have hqp : q ≠ p := by rintro rfl; simp [hp.1] at h2
    refine ⟨q, h2, h1, ?_, fun j hj => ⟨hn.unique (by simp [h2]), ?_⟩⟩
    · simp [hqp, freed]
    · rintro rfl
      rfl
  · split at hr <;> cases hr

/-- In a table that is numbered, `kill` and `wait` mean one process. -/
theorem Numbered.identifies (hn : s.Numbered n) (h : s.Inv) (hf : s.FreshPid a)
    (hs : s.step a = some t) : s.Identifies a t where
  identified := (hn.step h hf hs).elim fun _ hm => hm.identified
  fork _ hv := hn.fork h hs hv
  wait p ha pid hr := by
    subst ha
    obtain ⟨hp, rfl⟩ : _ ∧ (s.scan p).1 = t := by simpa [Ptable.step] using hs
    exact hn.wait hp hr

/-- A new process has a positive pid only if the counter was positive. -/
theorem freshPid_of_identified (hs : s.step a = some t) (ht : t.Identified) : s.FreshPid a := by
  cases a with
  | allocproc p =>
      rintro ⟨i, hi⟩
      obtain ⟨hp, rfl⟩ : _ ∧ s.allocproc p = t := by simpa [Ptable.step] using hs
      cases hnp : (List.finRange NPROC).find? fun i => (s.proc i).state = .unused with
      | none => simpa [hi] using List.find?_eq_none.mp hnp i (List.mem_finRange i)
      | some np =>
          have hne : np ≠ p := by
            rintro rfl
            have := List.find?_some hnp
            simp [hp.1] at this
          simpa [Ptable.allocproc, hnp, hne] using ht.positive np
  | _ => trivial

/-- **Pids.**  In a run, every state reached has the pids of its processes positive and distinct,
`kill` finding each process by its pid, every `fork` returning a positive number exactly if it
makes a child and every `wait` the pid of one process only, if and only if every `allocproc` that
finds an entry finds the counter positive. -/
theorem pids_identify (as : List Act) (s : Ptable) : boot.Identified ∧
    (Run (fun s a t => s.Identifies a t ∧ s.Step a t) boot as s ↔
      Run (fun s a t => s.FreshPid a ∧ s.Step a t) boot as s) := by
  refine ⟨boot_numbered.identified, fun h => ?_, fun h => ?_⟩
  · exact h.mono fun a _ s t hs => ⟨freshPid_of_identified hs.2 hs.1.identified, hs.2⟩
  · refine h.mono_inv (I := fun s => s.Inv ∧ ∃ n, s.Numbered n) ?_ ⟨boot_inv, 2, boot_numbered⟩
    rintro s a t ⟨hf, hs⟩ ⟨hi, n, hn⟩
    exact ⟨⟨hi.step hs, hn.step hi hf hs⟩, hn.identifies hi hf hs, hs⟩

/-! ### The end of the counter -/

/-- Only `initproc` is there, running, and the counter is at `n`. -/
structure Alone (n : ℕ) (s : Ptable) : Prop where
  runs : s.runs 0 .user
  unused : ∀ i, i ≠ 0 → (s.proc i).state = .unused
  nextpid : s.nextpid = Int32.ofNat n

@[simp]
theorem NPROC_ne_one : NPROC ≠ 1 := by decide

theorem boot_alone : Run Step boot [.sched 0] (boot.sched 0) ∧ (boot.sched 0).Alone 2 := by
  refine ⟨.cons rfl (.nil _), by decide, fun i hi => ?_, rfl⟩
  simp [Ptable.sched, boot, hi]

theorem Alone.allocproc (h : s.Alone n) : s.allocproc 0 =
    let s' := s.set 1 { s.proc 1 with state := .embryo, pid := s.nextpid, uid := s.nextuid }
    { s'.set 0 { s'.proc 0 with pc := .kalloc 1 } with
      nextpid := s.nextpid + 1
      nextuid := s.nextuid + 1 } := by
  have h0 := h.runs.1
  have h1 := h.unused 1 (by decide)
  have hf : (List.finRange NPROC).find? (fun i => (s.proc i).state = .unused) = some 1 := by
    rw [show List.finRange NPROC = 0 :: 1 :: (List.finRange NPROC).drop 2 by decide +kernel]
    simp [h0, h1]
  simp only [Ptable.allocproc, hf]

/-- A `fork` that finds no memory for the stack. -/
theorem Alone.fork_fails (h : s.Alone n) :
    ∃ t, Run Step s [.allocproc 0, .kalloc 0 false] t ∧ t.Alone (n + 1) := by
  have hr : (s.allocproc 0).runs 0 (.kalloc 1) := by
    rw [h.allocproc]
    simp [Ptable.runs, h.runs.1]
  refine ⟨(s.allocproc 0).forkFails 0 1, .cons (t := s.allocproc 0) ?_ (.cons ?_ (.nil _)), ?_⟩
  · simp [Ptable.Step, Ptable.step, h.runs]
  · simp [Ptable.Step, Ptable.step, hr, hr.2, Pc.reserves]
  · rw [h.allocproc]
    refine ⟨?_, fun i hi => ?_, ?_⟩
    · simp [Ptable.runs, Ptable.forkFails, h.runs.1]
    · by_cases h1 : i = 1
      · simp [Ptable.forkFails, h1]
      · simp [Ptable.forkFails, h1, hi, h.unused i hi]
    · calc s.nextpid + 1 = Int32.ofNat n + Int32.ofNat 1 := by rw [h.nextpid]; rfl
        _ = Int32.ofNat (n + 1) := (Int32.ofNat_add n 1).symm

theorem Alone.forks_fail (h : s.Alone n) (k : ℕ) : ∃ as t, Run Step s as t ∧ t.Alone (n + k) := by
  induction k with
  | zero => exact ⟨[], s, .nil s, h⟩
  | succ k ih =>
      obtain ⟨as, t, hrun, ht⟩ := ih
      obtain ⟨u, hrun', hu⟩ := ht.fork_fails
      exact ⟨_, u, hrun.append hrun', hu⟩

/-- A `fork` that succeeds returns the counter. -/
theorem Alone.fork (h : s.Alone n) : ∃ t u,
    Run Step s [.allocproc 0, .kalloc 0 true, .copyuvm 0 true, .setParent 0] t ∧
    t.Step (.setRunnable 0) u ∧ t.forkReturns (.setRunnable 0) = some (Int32.ofNat n) ∧
    u.history = .forked (t.proc 0).uid (t.proc 1).uid :: t.history ∧
    (u.proc 1).state = .runnable ∧ (u.proc 1).pid = Int32.ofNat n := by
  have hr : ((s.allocproc 0).proc 0).state = .running ∧ ((s.allocproc 0).proc 0).pc = .kalloc 1 ∧
      ((s.allocproc 0).proc 1).pid = Int32.ofNat n := by
    rw [h.allocproc]
    simp [h.runs.1, h.nextpid]
  have hs : s.Step (.allocproc 0) (s.allocproc 0) := by simp [Ptable.Step, Ptable.step, h.runs]
  generalize s.allocproc 0 = s₁ at hr hs
  have hk : s₁.Step (.kalloc 0 true) (s₁.goto 0 (.copyuvm 1)) := by
    simp [Ptable.Step, Ptable.step, Ptable.runs, hr, Pc.reserves]
  have hc : (s₁.goto 0 (.copyuvm 1)).Step (.copyuvm 0 true)
      ((s₁.goto 0 (.copyuvm 1)).goto 0 (.parent 1)) := by
    simp [Ptable.Step, Ptable.step, Ptable.runs, Ptable.goto, hr, Pc.reserves]
  have hp : ((s₁.goto 0 (.copyuvm 1)).goto 0 (.parent 1)).Step (.setParent 0)
      (((s₁.goto 0 (.copyuvm 1)).goto 0 (.parent 1)).setParent 0 1) := by
    simp [Ptable.Step, Ptable.step, Ptable.runs, Ptable.goto, hr, Pc.reserves]
  have ht : (((s₁.goto 0 (.copyuvm 1)).goto 0 (.parent 1)).setParent 0 1).runs 0 (.runnable 1) ∧
      ((((s₁.goto 0 (.copyuvm 1)).goto 0 (.parent 1)).setParent 0 1).proc 1).pid =
        Int32.ofNat n := by
    simp [Ptable.runs, Ptable.goto, Ptable.setParent, hr]
  have hrun := Run.cons hs (.cons hk (.cons hc (.cons hp (.nil _))))
  generalize ((s₁.goto 0 (.copyuvm 1)).goto 0 (.parent 1)).setParent 0 1 = t at hrun ht
  refine ⟨t, t.setRunnable 0 1, hrun, ?_, ?_, rfl, ?_, ?_⟩
  · simp [Ptable.Step, Ptable.step, ht.1, ht.1.2, Pc.reserves]
  · simp [forkReturns, ht.1.2, Pc.reserves, ht.2]
  · simp [Ptable.setRunnable]
  · simp [Ptable.setRunnable, ht.2]

/-- The counter runs out: `initproc` calls `fork` `2 ^ 31 - 2` times without memory, and the next
child has a negative pid, which its parent takes for a failure. -/
theorem pid_negative : ∃ as s t v, Run Step boot as s ∧ s.Step (.setRunnable 0) t ∧
    t.history = .forked (s.proc 0).uid (s.proc 1).uid :: s.history ∧
    s.forkReturns (.setRunnable 0) = some v ∧ v < 0 ∧
    (t.proc 1).state ≠ .unused ∧ ¬ 0 < (t.proc 1).pid := by
  obtain ⟨hb, ha⟩ := boot_alone
  obtain ⟨as, s, hrun, hs⟩ := ha.forks_fail (2 ^ 31 - 2)
  obtain ⟨t, u, hrun', hu, hv, hh, h1, h2⟩ := hs.fork
  refine ⟨_, t, u, _, (hb.append hrun).append hrun', hu, hh, hv, by decide, ?_, ?_⟩
  · rw [h1]; decide
  · rw [h2]; decide

end Xv6.Process.Ptable
