import Xv6.Lib.Runs
import Xv6.Sleeplock.Locks

/-!
# Sleep locks — wakeups

A process asleep on a lock either finds it locked or has its wakeup coming: from the store that
clears `locked` to `wakeup` the releasing process owes it (`Pc.owes`), and a process on its way to
sleep has given up the spin lock only under `ptable.lock`, which `wakeup` waits for.

* `Sys.Woken.step` — a step keeps that; `Sys.Woken.progress` — what it says of who waits for whom.
* `sleeplocks_exclude` — exclusion and wakeups in every run.
-/

namespace Xv6.Sleeplock

open Lib

variable {P L : Type} [DecidableEq P] [DecidableEq L] {pid : P → ℤ} {s t : Sys P L} {p q : P}
  {a : Act P L} {ins : Instr L} {pc : Pc L} {l : L} {me : ℤ}

/-! ### Wakeups -/

/-- `SLEEPING` on the lock, or past `release(&lk->lk)` on the way there. -/
def Proc.Commits (x : Proc L) (l : L) : Prop :=
  x.pc = .acquiresleep l (.sleep .sched) ∨ x.sleepsOn l

/-- **The invariant of the wakeups.** -/
structure Sys.Woken (pid : P → ℤ) (s : Sys P L) : Prop where
  owned : s.Owned pid
  ptable : s.PtLocked
  asleep : ∀ q, (s.proc q).asleep = true → ∃ l, (s.proc q).pc = .acquiresleep l (.sleep .away)
  chan : ∀ q l, (s.proc q).pc = .acquiresleep l (.sleep .away) → (s.proc q).chan = some l
  owed : ∀ q l, (s.proc q).Commits l →
    (s.lock l).locked = true ∨ ∃ p, (s.proc p).pc.owes = some l

/-- An instruction of another process wakes a process up at most. -/
theorem Sys.exec_other (hq : q ≠ p) :
    (((s.exec p ins).proc q).asleep = true → (s.proc q).asleep = true) ∧
      ((s.exec p ins).proc q).chan = (s.proc q).chan := by
  cases ins with
  | sleep l => simp [Sys.exec, hq]
  | resume => simp [Sys.exec, hq]
  | wakeup l =>
      rw [Sys.exec, Sys.wakeup1_proc]
      split <;> simp
  | _ => exact ⟨id, rfl⟩

/-- Who sleeps after an instruction slept before, or begins to. -/
theorem Sys.exec_sleepsOn (h : ((s.exec p ins).proc q).sleepsOn l) :
    ((s.proc q).sleepsOn l ∧ ins ≠ .wakeup l) ∨ (q = p ∧ ins = .sleep l) := by
  cases ins with
  | sleep m =>
      by_cases hq : q = p
      · simp_all [Sys.exec, Proc.sleepsOn]
      · simp_all [Sys.exec]
  | taken m => exact .inl ⟨h, by simp⟩
  | _ => grind [Sys.exec, Proc.sleepsOn]

omit [DecidableEq L] in
@[simp]
theorem Sys.setPc_sleepsOn (s : Sys P L) (p : P) (pc : Pc L) (q : P) (l : L) :
    ((s.setPc p pc).proc q).sleepsOn l ↔ (s.proc q).sleepsOn l := by
  simp [Proc.sleepsOn]

/-- Who is committed to sleep on a lock after an instruction was so before, or has just given up its
spin lock; and a wakeup leaves nobody committed. -/
theorem Sys.commits_exec (hl : s.PtLocked) (hr : s.ready p ins)
    (hf : fetch s.lock me (s.proc p).pc = some (ins, pc))
    (hc : (((s.exec p ins).setPc p pc).proc q).Commits l) :
    ((s.proc q).Commits l ∧ ins ≠ .wakeup l) ∨
      (ins = .release l ∧ (s.proc p).pc = .acquiresleep l (.sleep .release)) := by
  rcases hc with hc | hc
  · rw [Sys.setPc_pc, Sys.exec_pc] at hc
    split at hc
    · exact .inr (fetch_sched (hc ▸ hf))
    · refine .inl ⟨.inl hc, ?_⟩
      -- `q` holds `ptable.lock`, so nobody can be inside `wakeup`
      rintro rfl
      have hq := (hl q).mpr (by rw [hc]; rfl)
      have hn : s.ptable = none := hr
      simp [hn] at hq
  · rw [Sys.setPc_sleepsOn] at hc
    obtain ⟨h, hne⟩ | ⟨rfl, rfl⟩ := Sys.exec_sleepsOn hc
    · exact .inl ⟨.inr h, hne⟩
    · exact .inl ⟨.inl (fetch_sleep hf).1, by simp⟩

namespace Sys.Woken

omit [DecidableEq P] [DecidableEq L] in
/-- Nobody sleeps at the start. -/
theorem init (h : s.Init) : s.Woken pid := by
  refine ⟨.init h, fun p => ?_, fun q hq => ?_, fun q l hq => ?_, fun q l hq => ?_⟩
  · obtain ⟨eax, hp⟩ := h.user p
    rw [h.ptable, hp]
    simp [Pc.ptable]
  · rw [h.awake] at hq
    cases hq
  · obtain ⟨eax, hp⟩ := h.user q
    rw [hp] at hq
    cases hq
  · obtain ⟨eax, hp⟩ := h.user q
    rcases hq with hq | hq
    · rw [hp] at hq
      cases hq
    · rw [Proc.sleepsOn, h.awake] at hq
      cases hq.1

/-- A process that sleeps, after an instruction. -/
theorem exec_asleep (h : s.Woken pid) (hr : s.ready p ins)
    (hf : fetch s.lock (pid p) (s.proc p).pc = some (ins, pc))
    (hq : (((s.exec p ins).setPc p pc).proc q).asleep = true) :
    ∃ l, (((s.exec p ins).setPc p pc).proc q).pc = .acquiresleep l (.sleep .away) := by
  rw [Sys.setPc_pc, Sys.exec_pc]
  rw [Sys.setPc_asleep] at hq
  by_cases hqp : q = p
  · subst hqp
    rw [if_pos rfl]
    cases ins with
    | sleep l => exact ⟨l, (fetch_sleep hf).2⟩
    | _ =>
        -- whoever was asleep already is at `resume`, which waits for its wakeup
        exfalso
        have hbefore : (s.proc q).asleep = true := by
          grind [Sys.exec, Sys.setHeld]
        obtain ⟨l, hl⟩ := h.asleep q hbefore
        rw [hl] at hf
        cases hf <;> simp_all [Sys.ready]
  · rw [if_neg hqp]
    exact h.asleep q ((Sys.exec_other hqp).1 hq)

/-- Who sleeps after an instruction, sleeps on the lock. -/
theorem exec_chan (h : s.Woken pid) (hf : fetch s.lock (pid p) (s.proc p).pc = some (ins, pc))
    (hq : (((s.exec p ins).setPc p pc).proc q).pc = .acquiresleep l (.sleep .away)) :
    (((s.exec p ins).setPc p pc).proc q).chan = some l := by
  rw [Sys.setPc_pc, Sys.exec_pc] at hq
  rw [Sys.setPc_chan]
  by_cases hqp : q = p
  · subst hqp
    rw [if_pos rfl] at hq
    subst hq
    rw [fetch_away hf]
    simp [Sys.exec]
  · rw [if_neg hqp] at hq
    rw [← h.chan q l hq]
    exact (Sys.exec_other hqp).2

/-- Whoever has decided to sleep finds the lock held, or somebody who owes a wakeup. -/
theorem exec_owed (h : s.Woken pid) (hr : s.ready p ins)
    (hf : fetch s.lock (pid p) (s.proc p).pc = some (ins, pc))
    (hq : (((s.exec p ins).setPc p pc).proc q).Commits l) :
    (((s.exec p ins).setPc p pc).lock l).locked = true ∨
      ∃ r, (((s.exec p ins).setPc p pc).proc r).pc.owes = some l := by
  have hlock : ((s.exec p ins).setPc p pc).lock = ins.store s.lock := s.exec_lock p ins
  obtain ⟨hc, hne⟩ | ⟨rfl, hpc⟩ := Sys.commits_exec h.ptable hr hf hq
  · obtain hb | ⟨r, hor⟩ := h.owed q l hc
    · by_cases hcl : ins = .locked l false
      · -- `releasesleep` has just cleared `locked`, and owes the wakeup
        subst hcl
        obtain ⟨-, -, rfl⟩ := (fetch_locked hf).resolve_left fun hc => (by cases hc.1)
        exact .inr ⟨p, by simp [Pc.owes]⟩
      · refine .inl ?_
        rw [hlock]
        exact Instr.store_locked hcl hb
    · refine .inr ⟨r, ?_⟩
      rw [Sys.setPc_pc, Sys.exec_pc]
      split
      · rename_i hrp
        rw [hrp] at hor
        exact (fetch_owes hf hor).resolve_right hne
      · exact hor
  · -- `p` has found the lock locked, and holds its spin lock still
    refine .inl ?_
    have hk := h.owned.knows p
    rw [hpc] at hk
    exact hk

/-- Every step keeps the wakeups. -/
theorem step (h : s.Woken pid) (hpid : Function.Injective pid) (hs : Sys.Step pid s a t) :
    t.Woken pid := by
  have howned := h.owned.step hpid hs
  have hpt := h.ptable.step hs.2
  obtain ⟨p, c, eax, rfl, hpc, rfl⟩ | ⟨p, ins, pc, rfl, hf, hr, rfl⟩ | ⟨p, rfl, -, rfl⟩ :=
    Sys.step_cases hs.2
  -- A call begins, which puts nobody to sleep.
  · obtain ⟨hlock, -, -, hproc⟩ := s.enter_fields p c
    have haway : ∀ l k, c.entry ≠ .acquiresleep l (.sleep k) := by
      intro l k
      cases c <;> simp [Call.entry]
    refine ⟨howned, hpt, fun q hq => ?_, fun q l hq => ?_, fun q l hq => ?_⟩
    · rw [(hproc q).1] at hq
      obtain ⟨l, hl⟩ := h.asleep q hq
      refine ⟨l, ?_⟩
      rw [Sys.enter_pc, if_neg, hl]
      rintro rfl
      rw [hpc] at hl
      cases hl
    · rw [(hproc q).2]
      rw [Sys.enter_pc] at hq
      split at hq
      · exact absurd hq (haway l _)
      · exact h.chan q l hq
    · have hc : (s.proc q).Commits l := by
        refine hq.imp (fun hq => ?_) fun hq => ?_
        · rw [Sys.enter_pc] at hq
          split at hq
          · exact absurd hq (haway l _)
          · exact hq
        · rwa [Proc.sleepsOn, (hproc q).1, (hproc q).2] at hq
      rw [hlock]
      refine (h.owed q l hc).imp_right ?_
      rintro ⟨r, hor⟩
      refine ⟨r, ?_⟩
      rw [Sys.enter_pc, if_neg]
      · exact hor
      · rintro rfl
        rw [hpc] at hor
        cases hor
  · exact ⟨howned, hpt, fun q hq => h.exec_asleep hr hf hq, fun q l hq => h.exec_chan hf hq,
      fun q l hq => h.exec_owed hr hf hq⟩
  -- `kill` wakes a sleeper, and changes nothing else.
  · have hfields : ∀ q, (((s.kill p).proc q).asleep = true → (s.proc q).asleep = true) ∧
        ((s.kill p).proc q).chan = (s.proc q).chan := by
      intro q
      by_cases hqp : q = p <;> simp [Sys.kill, hqp]
    refine ⟨howned, hpt, fun q hq => ?_, fun q l hq => ?_, fun q l hq => ?_⟩
    · rw [Sys.kill_pc]
      exact h.asleep q ((hfields q).1 hq)
    · rw [Sys.kill_pc] at hq
      rw [(hfields q).2]
      exact h.chan q l hq
    · have hc : (s.proc q).Commits l := by
        refine hq.imp (fun hq => ?_) fun hq => ⟨(hfields q).1 hq.1, (hfields q).2 ▸ hq.2⟩
        rwa [Sys.kill_pc] at hq
      refine (h.owed q l hc).imp_right ?_
      rintro ⟨r, hor⟩
      exact ⟨r, by rwa [Sys.kill_pc]⟩

/-- The holder of `ptable.lock` goes on. -/
theorem goes_on_ptable (h : s.Woken pid) (hp : s.ptable = some p) :
    ∃ t, s.step pid (.run p) = some t := by
  have hptable := (h.ptable p).mp hp
  obtain ⟨ins, pc, hf, hacquire, hresume, hno⟩ := fetch_goes s.lock (pid p) (.inr hptable)
  obtain ⟨hne, hnowake⟩ := hno hptable
  refine ⟨_, Sys.step_run hf ?_⟩
  cases ins <;> simp_all [Sys.ready]

/-- Whoever is inside a spin lock lets some process go on. -/
theorem goes_on (h : s.Woken pid) (hp : (s.proc p).pc.inside = some l) :
    ∃ r t, s.step pid (.run r) = some t := by
  cases hpt : s.ptable with
  | some r => exact ⟨r, h.goes_on_ptable hpt⟩
  | none =>
      have hinside : (s.proc p).pc.inside ≠ none := hp ▸ Option.some_ne_none l
      obtain ⟨ins, pc, hf, hacquire, hresume, -⟩ := fetch_goes s.lock (pid p) (.inl hinside)
      refine ⟨p, _, Sys.step_run hf ?_⟩
      cases ins <;> simp_all [Sys.ready]

/-- Where a process waits for a spin lock, or would, some process goes on. -/
theorem goes_on_acquire (h : s.Woken pid)
    (hf : fetch s.lock (pid p) (s.proc p).pc = some (.acquire l, pc)) :
    ∃ r t, s.step pid (.run r) = some t := by
  cases hl : s.lk l with
  | none => exact ⟨p, _, Sys.step_run hf hl⟩
  | some r => exact h.goes_on ((h.owned.inside l r).mp hl)

/-- An owner of a lock holds it, or some process goes on. -/
theorem goes_on_owner (h : s.Woken pid) (hp : s.Owns p l) :
    (∃ r t, s.step pid (.run r) = some t) ∨ s.held p l = true := by
  refine hp.symm.imp_left fun ho => ?_
  unfold Pc.owns at ho
  split at ho
  · rename_i m hpc
    exact h.goes_on (by rw [hpc]; rfl)
  · rename_i m hpc
    exact h.goes_on (by rw [hpc]; rfl)
  · rename_i m hpc
    exact h.goes_on_acquire (by rw [hpc]; rfl)
  · rename_i m hpc
    exact h.goes_on (by rw [hpc]; rfl)
  · cases ho

/-- **A process in a call goes on, or another does, or it sleeps while another holds its lock.** -/
theorem progress (h : s.Woken pid) (hq : ∀ eax, (s.proc q).pc ≠ .user eax) :
    (∃ r t, s.step pid (.run r) = some t) ∨
      ∃ l, (s.proc q).sleepsOn l ∧ ∃ p, s.held p l = true := by
  obtain ⟨ins, pc, hf⟩ := fetch_some s.lock (pid q) hq
  cases hpt : s.ptable with
  | some r => exact .inl ⟨r, h.goes_on_ptable hpt⟩
  | none =>
      by_cases hr : s.ready q ins
      · exact .inl ⟨q, _, Sys.step_run hf hr⟩
      cases ins with
      | acquire l => exact .inl (h.goes_on_acquire hf)
      | resume =>
          have hasleep : (s.proc q).asleep = true := by
            by_contra hno
            exact hr ⟨hpt, Bool.eq_false_iff.mpr hno⟩
          obtain ⟨l, hl⟩ := h.asleep q hasleep
          have hsleeps : (s.proc q).sleepsOn l := ⟨hasleep, h.chan q l hl⟩
          rcases h.owed q l (.inr hsleeps) with hlocked | ⟨p, ho⟩
          · obtain ⟨p, hp⟩ := (h.owned.locked l).mp hlocked
            exact (h.goes_on_owner hp).imp_right fun hheld => ⟨l, hsleeps, p, hheld⟩
          · refine .inl (h.goes_on (p := p) (l := l) ?_)
            unfold Pc.owes at ho
            split at ho
            · rename_i m hpc
              rw [hpc]
              exact ho
            · rename_i m hpc
              rw [hpc]
              exact ho
            · cases ho
      | _ => simp_all [Sys.ready]

end Sys.Woken

/-! ### Every run -/

/-- **Sleep locks exclude, and lose no wakeup.**  In every run at most one process holds a sleep
lock, and `holdingsleep` tells whether its process does; a process asleep on a lock finds it locked,
or a `releasesleep` has its wakeup still to make; and a process in one of the calls is asleep while
another holds its lock, unless some process can take a step. -/
theorem sleeplocks_exclude (hpid : Function.Injective pid) {s₀ : Sys P L} {as : List (Act P L)}
    (h₀ : s₀.Init) (hrun : Run (Sys.Step pid) s₀ as s) :
    (∀ l p q, s.held p l = true → s.held q l = true → p = q) ∧
    (∀ l p r, (s.proc p).pc = .holdingsleep l (.release r) →
      r = if s.held p l = true then 1 else 0) ∧
    (∀ l q, (s.proc q).sleepsOn l →
      (s.lock l).locked = true ∨ ∃ p, (s.proc p).pc.owes = some l) ∧
    ∀ q, (∀ eax, (s.proc q).pc ≠ .user eax) →
      (∃ p t, s.step pid (.run p) = some t) ∨
        ∃ l, (s.proc q).sleepsOn l ∧ ∃ p, s.held p l = true := by
  have h : s.Woken pid := hrun.inv (fun _ _ _ hs h => h.step hpid hs) (.init h₀)
  exact ⟨fun l p q hp hq => h.owned.unique l p q (.inl hp) (.inl hq), h.owned.answers,
    fun l q hq => h.owed q l (.inr hq), fun q hq => h.progress hq⟩

/-- Nobody is in a call, and the lock is free. -/
def idle : Sys Bool Unit where
  lock _ := ⟨false, 0⟩
  lk _ := none
  ptable := none
  proc _ := ⟨.user 0, false, none⟩
  held _ _ := false

theorem idle_init : idle.Init :=
  ⟨fun _ => rfl, fun _ => rfl, rfl, fun _ => ⟨0, rfl⟩, fun _ => rfl, fun _ _ => rfl⟩

/-- The numbers of two processes. -/
def twoPids (p : Bool) : ℤ := if p then 1 else 2

instance (s : Sys P L) (a : Act P L) : Decidable (s.Lawful a) := by
  unfold Sys.Lawful
  split <;> infer_instance

/-- One process takes the lock, and the other goes to sleep on it. -/
def takeAndSleep : List (Act Bool Unit) :=
  .call true (.acquiresleep ()) :: List.replicate 5 (.run true) ++
    .call false (.acquiresleep ()) :: List.replicate 5 (.run false)

/-- One process has the lock and the other sleeps on it. -/
theorem sleeplocks_exclude_two : ∃ s : Sys Bool Unit, Run (Sys.Step twoPids) idle takeAndSleep s ∧
    (s.proc false).sleepsOn () ∧ s.held true () = true ∧ s.held false () = false := by
  have hend : ((takeAndSleep.foldlM (fun (s : Sys Bool Unit) a =>
        if s.Lawful a then s.step twoPids a else none) idle).any fun s =>
      (s.proc false).sleepsOn () ∧ s.held true () = true) = true := by decide +kernel
  obtain ⟨s, hs, hd⟩ := (Option.any_eq_true _ _).mp hend
  obtain ⟨hsleeps, hheld⟩ := of_decide_eq_true hd
  have hrun : Run (Sys.Step twoPids) idle takeAndSleep s :=
    (Run.of_foldlM hs).mono fun a _ s t h => by simpa [Sys.Step] using h
  have hpid : Function.Injective twoPids := by
    unfold Function.Injective
    decide
  have h := (sleeplocks_exclude hpid idle_init hrun).1 () false true
  refine ⟨s, hrun, hsleeps, hheld, Bool.eq_false_iff.mpr fun hf => ?_⟩
  exact absurd (h hf hheld) (by decide)

end Xv6.Sleeplock
