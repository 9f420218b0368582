import Xv6.Proc.Wait

/-!
# Processes — `kill`

`kill` takes the first entry whose `pid` field has the value, whatever the state of the entry.  A
free entry keeps the pid it had when a `fork` failed, and has pid `0` otherwise, so `kill` may
find one, and sets `killed` there; neither `allocproc` nor `fork` clears the flag, and the next
process in the entry starts killed.  The same happens to an entry that is still being set up.

`kill_target` is about the runs where every `kill` finds a process, or nothing; `kill_unused` says
what the others do.
-/

namespace Xv6.Process.Ptable

open Lib

variable {s t : Ptable} {p i j np : Fin NPROC} {a : Act} {pid : Int32}

/-! ### Who is found -/

theorem lookup_pid (h : s.lookup pid = some i) : (s.proc i).pid = pid := by
  simpa using List.find?_some h

theorem lookup_none (h : s.lookup pid = none) (i : Fin NPROC) : (s.proc i).pid ≠ pid := by
  simpa using List.find?_eq_none.mp h i (List.mem_finRange i)

/-- If the step is a `kill`, the entry it finds is a process, dead or alive. -/
def KillsProcess (s : Ptable) : Act → Prop
  | .kill pid => ∀ i, s.lookup pid = some i → s.Active i
  | _ => True

/-- `kill` of a process: it succeeds exactly if there is one with that pid, and then changes
that one. -/
theorem kill_spec (hk : s.KillsProcess (.kill pid)) :
    ((s.kill pid).2 = 0 ↔ ∃ i, (s.proc i).state ≠ .unused ∧ (s.proc i).pid = pid) ∧
    ((s.kill pid).2 = 0 → ∃ i, (s.proc i).state ≠ .unused ∧ (s.proc i).pid = pid ∧
      ((s.kill pid).1.proc i).killed = true ∧ ∀ j, j ≠ i → (s.kill pid).1.proc j = s.proc j) := by
  unfold kill
  cases hl : s.lookup pid with
  | none =>
      refine ⟨⟨fun h => by simp at h, fun ⟨i, _, hi⟩ => ?_⟩, fun h => by simp at h⟩
      exact absurd hi (lookup_none hl i)
  | some i =>
      have ha : (s.proc i).state ≠ .unused := (hk i hl).1
      have hpid := lookup_pid hl
      refine ⟨⟨fun _ => ⟨i, ha, hpid⟩, fun _ => rfl⟩, fun _ => ⟨i, ha, hpid, ?_, fun j hj => ?_⟩⟩
      · simp [kill1]
      · simp [hj]

/-- A free entry with the pid is taken for a process, and stays marked. -/
theorem kill_unused (hl : s.lookup pid = some i) (hi : (s.proc i).state = .unused) :
    (s.kill pid).2 = 0 ∧ ((s.kill pid).1.proc i).state = .unused ∧
      ((s.kill pid).1.proc i).killed = true := by
  simp [kill, hl, kill1, hi]

/-! ### The flag -/

/-- Free, or being set up. -/
def Blank (x : Proc) : Prop := x.state = .unused ∨ x.state = .embryo

/-- From `x` to `y` the flag is not set, and an entry that becomes free has it cleared. -/
structure Marks (x y : Proc) : Prop where
  killed : y.killed = true → x.killed = true
  blank : Blank y → Blank x ∨ y.killed = false

namespace Marks

variable {x y z : Proc}

theorem refl (x : Proc) : Marks x x := ⟨id, .inl⟩

/-- Two changes that set no mark. -/
theorem trans (h : Marks x y) (h' : Marks y z) : Marks x z where
  killed hz := h.killed (h'.killed hz)
  blank hz := by
    rcases h'.blank hz with hy | hy
    · rcases h.blank hy with hx | hx
      · exact .inl hx
      · refine .inr (Bool.eq_false_iff.mpr fun hk => ?_)
        simp [h'.killed hk] at hx
    · exact .inr hy

/-- Between states that are not blank. -/
theorem of_state (hk : y.killed = x.killed) (hs : ¬ Blank y) : Marks x y :=
  ⟨fun h => hk ▸ h, fun h => absurd h hs⟩

theorem of_eq (hk : y.killed = x.killed) (hs : Blank y → Blank x) : Marks x y :=
  ⟨fun h => hk ▸ h, fun h => .inl (hs h)⟩

end Marks

/-- No entry of `t` is marked that was not in `s`. -/
def Keeps (s t : Ptable) : Prop := ∀ i, Marks (s.proc i) (t.proc i)

theorem Keeps.refl (s : Ptable) : s.Keeps s := fun _ => .refl _

theorem Keeps.trans {u : Ptable} (h : s.Keeps t) (h' : t.Keeps u) : s.Keeps u :=
  fun i => (h i).trans (h' i)

/-- A change of one entry that sets no mark. -/
theorem keeps_set {x : Proc} (hx : Marks (s.proc p) x) : s.Keeps (s.set p x) := by
  intro i
  rw [set_proc]
  split
  · rename_i hi
    rw [hi]
    exact hx
  · exact .refl _

theorem keeps_wakeup1 (s : Ptable) (c : Option Chan) : s.Keeps (s.wakeup1 c) := by
  intro i
  rw [wakeup1_proc, wake]
  split
  · exact .of_state rfl (by simp [Blank])
  · exact .refl _

theorem keeps_goto (s : Ptable) (p : Fin NPROC) (pc : Pc) : s.Keeps (s.goto p pc) :=
  keeps_set (.of_eq rfl id)

/-- `allocproc` sets no mark. -/
theorem keeps_allocproc (s : Ptable) (p : Fin NPROC) : s.Keeps (s.allocproc p) := by
  unfold Ptable.allocproc
  split
  · exact .refl s
  · rename_i np hnp
    have hun : (s.proc np).state = .unused := by simpa using List.find?_some hnp
    have h1 : s.Keeps (s.set np { s.proc np with
        state := .embryo, pid := s.nextpid, uid := s.nextuid }) :=
      keeps_set (.of_eq rfl fun _ => .inl hun)
    exact h1.trans (keeps_goto _ p (.kalloc np))

theorem keeps_forkFails (hnp : (s.proc np).state = .embryo) : s.Keeps (s.forkFails p np) := by
  have h1 : s.Keeps (s.set np { s.proc np with state := .unused }) :=
    keeps_set (.of_eq rfl fun _ => .inr hnp)
  exact h1.trans (keeps_goto _ p .user)

theorem keeps_setParent (s : Ptable) (p np : Fin NPROC) : s.Keeps (s.setParent p np) := by
  have h1 : s.Keeps (s.set np { s.proc np with parent := some p }) :=
    keeps_set (.of_eq rfl id)
  exact h1.trans (keeps_goto _ p (.runnable np))

theorem keeps_setRunnable (s : Ptable) (p np : Fin NPROC) : s.Keeps (s.setRunnable p np) := by
  have h1 : s.Keeps (s.set np { s.proc np with state := .runnable, pc := .user }) :=
    keeps_set (.of_state rfl (by simp [Blank]))
  exact h1.trans (keeps_goto _ p .user)

/-- `exit` sets no mark. -/
theorem keeps_exit (hp : p ≠ s.initproc) : s.Keeps (s.exit p) := by
  have h := exit_spec hp
  intro i
  refine ⟨fun hk => h.killed i ▸ hk, fun hb => .inl ?_⟩
  by_cases hi : i = p
  · subst hi
    simp [Blank, h.zombie] at hb
  · rcases h.state i hi with e | ⟨-, e⟩
    · simpa [Blank, e] using hb
    · simp [Blank, e] at hb

/-- The scan of `wait` sets no mark. -/
theorem keeps_scan (s : Ptable) (p : Fin NPROC) : s.Keeps (s.scan p).1 := by
  unfold Ptable.scan
  split
  · rename_i q k hq
    have h1 : s.Keeps (s.set q (freed (s.proc q))) := keeps_set ⟨by simp [freed], fun _ => .inr rfl⟩
    exact h1.trans (keeps_goto _ p .user)
  · split
    · exact keeps_goto s p .user
    · exact keeps_set (.of_state rfl (by simp [Blank]))

/-- A step other than `kill` marks nobody. -/
theorem keeps_step (h : s.Inv) (hs : s.step a = some t) (ha : ∀ pid, a ≠ .kill pid) :
    s.Keeps t := by
  cases a with
  | sched p =>
      obtain ⟨hp, rfl⟩ : _ ∧ s.sched p = t := by simpa [Ptable.step] using hs
      exact keeps_set (.of_state rfl (by simp [Blank]))
  | yield p =>
      obtain ⟨hp, rfl⟩ : _ ∧ s.yield p = t := by simpa [Ptable.step] using hs
      exact keeps_set (.of_state rfl (by simp [Blank]))
  | sleep p n =>
      obtain ⟨hp, rfl⟩ : _ ∧ s.sleep p _ = t := by simpa [Ptable.step] using hs
      exact keeps_set (.of_state rfl (by simp [Blank]))
  | wakeup n =>
      obtain rfl : s.wakeup1 _ = t := by simpa [Ptable.step] using hs
      exact keeps_wakeup1 s _
  | allocproc p =>
      obtain ⟨hp, rfl⟩ : _ ∧ s.allocproc p = t := by simpa [Ptable.step] using hs
      exact keeps_allocproc s p
  | kalloc p ok =>
      obtain ⟨np, hp, rfl⟩ := step_kalloc hs
      split
      · exact keeps_goto s p _
      · exact keeps_forkFails (h.reserved hp rfl).2.1
  | copyuvm p ok =>
      obtain ⟨np, hp, rfl⟩ := step_copyuvm hs
      split
      · exact keeps_goto s p _
      · exact keeps_forkFails (h.reserved hp rfl).2.1
  | setParent p =>
      obtain ⟨np, hp, rfl⟩ := step_setParent hs
      exact keeps_setParent s p np
  | setRunnable p =>
      obtain ⟨np, hp, rfl⟩ := step_setRunnable hs
      exact keeps_setRunnable s p np
  | exit p =>
      obtain ⟨hp, rfl⟩ : _ ∧ s.exit p = t := by simpa [Ptable.step] using hs
      exact keeps_exit hp.2
  | wait p =>
      obtain ⟨hp, rfl⟩ : _ ∧ s.goto p .wait = t := by simpa [Ptable.step] using hs
      exact keeps_goto s p .wait
  | scan p =>
      obtain ⟨hp, rfl⟩ : _ ∧ (s.scan p).1 = t := by simpa [Ptable.step] using hs
      exact keeps_scan s p
  | kill pid => exact absurd rfl (ha pid)

/-- Free entries and entries being set up are not marked. -/
def Unmarked (s : Ptable) : Prop := ∀ i, Blank (s.proc i) → (s.proc i).killed = false

theorem boot_unmarked : boot.Unmarked := by
  intro i _
  simp only [boot]
  split <;> rfl

/-- While only processes are killed, no step marks an unused entry. -/
theorem Unmarked.step (h : s.Inv) (hu : s.Unmarked) (hk : s.KillsProcess a)
    (hs : s.step a = some t) : t.Unmarked := by
  by_cases ha : ∃ pid, a = .kill pid
  · obtain ⟨pid, rfl⟩ := ha
    obtain rfl : (s.kill pid).1 = t := by simpa [Ptable.step] using hs
    unfold kill
    cases hl : s.lookup pid with
    | none => exact hu
    | some i =>
        intro j hj
        by_cases hji : j = i
        · have hact := hk i hl
          subst hji
          grind [Blank, kill1, Active]
        · simp only [set_proc, if_neg hji] at hj ⊢
          exact hu j hj
  · have hkeep := keeps_step h hs fun pid e => ha ⟨pid, e⟩
    intro i hi
    rcases (hkeep i).blank hi with hb | hb
    · refine Bool.eq_false_iff.mpr fun hk => ?_
      have := (hkeep i).killed hk
      simp [hu i hb] at this
    · exact hb

/-- Whoever is marked after a step was so before, or the step is a `kill` of its pid. -/
theorem killed_of_step (h : s.Inv) (hs : s.step a = some t) (hk : (t.proc i).killed = true) :
    (s.proc i).killed = true ∨ ∃ pid, a = .kill pid ∧ (s.proc i).pid = pid := by
  by_cases ha : ∃ pid, a = .kill pid
  · obtain ⟨pid, rfl⟩ := ha
    obtain rfl : (s.kill pid).1 = t := by simpa [Ptable.step] using hs
    unfold kill at hk
    cases hl : s.lookup pid with
    | none =>
        rw [hl] at hk
        exact .inl hk
    | some j =>
        rw [hl] at hk
        by_cases hij : i = j
        · subst hij
          exact .inr ⟨pid, rfl, lookup_pid hl⟩
        · simp only [set_proc, if_neg hij] at hk
          exact .inl hk
  · exact .inl ((keeps_step h hs fun pid e => ha ⟨pid, e⟩) i |>.killed hk)

/-- **`kill` affects only its target.**  In every run where no `kill` finds a free entry or one
that is being set up, and in every state reached: no free entry is marked; the child that a `fork`
is about to start is not marked; a `kill` succeeds exactly if some entry in use has the pid, and
then marks one such entry and changes no other; and only a `kill` with its pid marks a process. -/
theorem kill_target {as : List Act}
    (hrun : Run (fun s a t => s.KillsProcess a ∧ s.Step a t) boot as s) :
    (∀ i, (s.proc i).state = .unused → (s.proc i).killed = false) ∧
    (∀ p np, s.runs p (.runnable np) → ((s.setRunnable p np).proc np).killed = false) ∧
    (∀ pid, s.KillsProcess (.kill pid) →
      ((s.kill pid).2 = 0 ↔ ∃ i, (s.proc i).state ≠ .unused ∧ (s.proc i).pid = pid) ∧
      ((s.kill pid).2 = 0 → ∃ i, (s.proc i).state ≠ .unused ∧ (s.proc i).pid = pid ∧
        ((s.kill pid).1.proc i).killed = true ∧
        ∀ j, j ≠ i → (s.kill pid).1.proc j = s.proc j)) ∧
    (∀ a t i, s.Step a t → (t.proc i).killed = true →
      (s.proc i).killed = true ∨ ∃ pid, a = .kill pid ∧ (s.proc i).pid = pid) := by
  obtain ⟨h, hu⟩ : s.Inv ∧ s.Unmarked := by
    refine Run.inv (I := fun s => s.Inv ∧ s.Unmarked) ?_ hrun ⟨boot_inv, boot_unmarked⟩
    rintro s a t ⟨hk, hs⟩ ⟨h, hu⟩
    exact ⟨h.step hs, hu.step h hk hs⟩
  refine ⟨fun i hi => hu i (.inl hi), fun p np hp => ?_, fun pid => kill_spec,
    fun a t i hs => killed_of_step h hs⟩
  obtain ⟨-, hem, -⟩ := h.reserved hp rfl
  refine Bool.eq_false_iff.mpr fun hk => ?_
  have := (keeps_setRunnable s p np np).killed hk
  simp [hu np (.inr hem)] at this

instance (s : Ptable) (i : Fin NPROC) : Decidable (s.Active i) :=
  inferInstanceAs (Decidable (_ ∧ _))

instance (s : Ptable) (a : Act) : Decidable (s.KillsProcess a) := by
  cases a with
  | kill pid =>
      exact decidable_of_iff (∀ i ∈ s.lookup pid, s.Active i) (by simp [KillsProcess])
  | _ => exact isTrue trivial

/-- `initproc` forks; the child, pid `2`, is killed while it is `RUNNABLE`. -/
def killChild : List Act :=
  [.sched 0, .allocproc 0, .kalloc 0 true, .copyuvm 0 true, .setParent 0, .setRunnable 0]

/-- A child is killed, and nobody else. -/
theorem kill_target_child : ∃ s, Run (fun s a t => s.KillsProcess a ∧ s.Step a t) boot killChild s ∧
    (s.kill 2).2 = 0 ∧ ∃ i, (s.proc i).state ≠ .unused ∧ (s.proc i).pid = 2 ∧
      ((s.kill 2).1.proc i).killed = true ∧ ∀ j, j ≠ i → (s.kill 2).1.proc j = s.proc j := by
  have hend : ((killChild.foldlM (fun (s : Ptable) a => if s.KillsProcess a then s.step a else none)
      boot).any fun s => s.KillsProcess (.kill 2) ∧ (s.kill 2).2 = 0) = true := by decide +kernel
  obtain ⟨s, hs, hd⟩ := (Option.any_eq_true _ _).mp hend
  obtain ⟨hk, h0⟩ := of_decide_eq_true hd
  have hrun : Run (fun s a t => s.KillsProcess a ∧ s.Step a t) boot killChild s :=
    (Run.of_foldlM hs).mono fun a _ s t h => by simpa [Step] using h
  exact ⟨s, hrun, h0, ((kill_target hrun).2.2.1 2 hk).2 h0⟩

/-- `kill(0)` right after boot finds the free entry `1` and succeeds, although no process has pid
`0`; the first child of `initproc` then starts killed. -/
theorem kill_zero_marks_child : (boot.kill 0).2 = 0 ∧
    (¬ ∃ i, (boot.proc i).state ≠ .unused ∧ (boot.proc i).pid = 0) ∧
    ∃ s, Run Step boot (.kill 0 :: killChild) s ∧ s.history = [.forked 0 1] ∧
      (s.proc 1).state = .runnable ∧ (s.proc 1).killed = true := by
  refine ⟨by decide +kernel, by decide +kernel, ?_⟩
  have hend : (((Act.kill 0 :: killChild).foldlM step boot).any fun s =>
      s.history = [.forked 0 1] ∧ (s.proc 1).state = .runnable ∧ (s.proc 1).killed = true) =
      true := by decide +kernel
  obtain ⟨s, hs, hd⟩ := (Option.any_eq_true _ _).mp hend
  exact ⟨s, Run.of_foldlM hs, of_decide_eq_true hd⟩

end Xv6.Process.Ptable
