import Xv6.Lib.Partial
import Xv6.Sleeplock.Basic

/-!
# Sleep locks — exclusion

In every interleaving at most one process holds a sleep lock, and `holdingsleep` tells which.
Between the stores of `acquiresleep` and of `releasesleep` a process owns the lock without holding
it (`Pc.owns`); the invariant says that `locked` is set exactly if somebody owns the lock, that
nobody else does, and that `pid` is the number of the owner once it is stored.

* `Sys.step_cases` — everything a step can be; `fetch_inside` and the lemmas beside it, everything
  an instruction can.
* `Sys.Owned.step` — a step keeps the invariant.
-/

namespace Xv6.Sleeplock

open Lib

variable {P L : Type} {pid : P → ℤ} {s t : Sys P L} {p q : P} {a : Act P L} {ins : Instr L}
  {pc pc' : Pc L} {l m : L} {lock lock' : L → Lock} {me v : ℤ} {b : Bool}

/-! ### Where a process is -/

/-- The lock between whose `acquire(&lk->lk)` and `release(&lk->lk)` a process is. -/
def Pc.inside : Pc L → Option L
  | .user _ | .acquiresleep _ .acquire | .releasesleep _ .acquire | .holdingsleep _ .acquire => none
  | .acquiresleep _ (.sleep .sched) | .acquiresleep _ (.sleep .away)
  | .acquiresleep _ (.sleep .acquire) => none
  | .acquiresleep l _ | .releasesleep l _ | .holdingsleep l _ => some l

/-- Between `acquire(&ptable.lock)` and the switch away. -/
def Pc.ptable : Pc L → Bool
  | .acquiresleep _ (.sleep .release) | .acquiresleep _ (.sleep .sched) => true
  | _ => false

/-- The lock that is taken and not yet returned with, or not yet given up. -/
def Pc.owns : Pc L → Option L
  | .acquiresleep l .pid | .acquiresleep l .release => some l
  | .releasesleep l .acquire | .releasesleep l .locked => some l
  | _ => none

/-- Of these, the lock that has the number of the process in it. -/
def Pc.signed : Pc L → Option L
  | .acquiresleep _ .pid => none
  | pc => pc.owns

/-- The lock whose sleepers have still to be woken. -/
def Pc.owes : Pc L → Option L
  | .releasesleep l .pid | .releasesleep l .wakeup => some l
  | _ => none

/-- What a process has found out or done under the spin lock. -/
def Pc.Knows (lock : L → Lock) : Pc L → Prop
  | .acquiresleep l .locked | .releasesleep l .pid => (lock l).locked = false
  | .acquiresleep l (.sleep .ptable) | .acquiresleep l (.sleep .release) => (lock l).locked = true
  | .holdingsleep l .pid => (lock l).locked = true
  | _ => True

/-- What it knows is about the lock that it is inside of. -/
theorem Pc.Knows.congr (h : pc.Knows lock) (hl : ∀ l, pc.inside = some l → lock' l = lock l) :
    pc.Knows lock' := by
  unfold Pc.Knows at *
  split <;> simp_all [Pc.inside]

/-! ### What an instruction does to that -/

/-- The spin lock that a process is inside of, after an instruction. -/
def Instr.insideAfter : Instr L → Option L → Option L
  | .acquire l, _ => some l
  | .release _, _ | .taken _, _ => none
  | _, i => i

/-- Whether it has the lock of the table, after an instruction. -/
def Instr.ptableAfter : Instr L → Bool → Bool
  | .ptable, _ => true
  | .sleep _, _ => false
  | _, b => b

/-- The spin lock that an instruction needs. -/
def Instr.needs : Instr L → Option L
  | .release l | .taken l | .locked l _ | .pid l _ | .wakeup l => some l
  | _ => none

/-- The instructions that concern neither the fields nor who holds a lock. -/
def Instr.quiet : Instr L → Bool
  | .taken _ | .locked _ _ | .pid _ _ => false
  | _ => true

theorem fetch_inside (h : fetch lock me pc = some (ins, pc')) :
    pc'.inside = ins.insideAfter pc.inside ∧ (∀ l, ins.needs = some l → pc.inside = some l) ∧
      ∀ l, ins = .acquire l → pc.inside = none := by
  unfold fetch acquiresleep releasesleep holdingsleep sleep at h
  repeat' split at h
  all_goals cases h
  all_goals exact ⟨rfl, by simp [Instr.needs, Pc.inside], by simp [Pc.inside]⟩

theorem fetch_ptable (h : fetch lock me pc = some (ins, pc')) :
    pc'.ptable = ins.ptableAfter pc.ptable ∧ ∀ l, ins = .sleep l → pc.ptable = true := by
  unfold fetch acquiresleep releasesleep holdingsleep sleep at h
  repeat' split at h
  all_goals cases h
  all_goals exact ⟨rfl, by simp [Pc.ptable]⟩

theorem fetch_quiet (h : fetch lock me pc = some (ins, pc')) (hq : ins.quiet = true) :
    pc'.owns = pc.owns ∧ pc'.signed = pc.signed := by
  unfold fetch acquiresleep releasesleep holdingsleep sleep at h
  repeat' split at h
  all_goals cases h
  all_goals first | exact ⟨rfl, rfl⟩ | cases hq

theorem fetch_taken (h : fetch lock me pc = some (.taken l, pc')) :
    pc = .acquiresleep l .release ∧ pc' = .user 0 := by
  unfold fetch acquiresleep releasesleep holdingsleep sleep at h
  repeat' split at h
  all_goals cases h
  exact ⟨rfl, rfl⟩

/-- Where `locked` is written. -/
theorem fetch_locked (h : fetch lock me pc = some (.locked l b, pc')) :
    b = true ∧ pc = .acquiresleep l .locked ∧ pc' = .acquiresleep l .pid ∨
      b = false ∧ pc = .releasesleep l .locked ∧ pc' = .releasesleep l .pid := by
  unfold fetch acquiresleep releasesleep holdingsleep sleep at h
  repeat' split at h
  all_goals cases h
  · exact .inl ⟨rfl, rfl, rfl⟩
  · exact .inr ⟨rfl, rfl, rfl⟩

/-- Where `pid` is written. -/
theorem fetch_pid (h : fetch lock me pc = some (.pid l v, pc')) :
    v = me ∧ pc = .acquiresleep l .pid ∧ pc' = .acquiresleep l .release ∨
      v = 0 ∧ pc = .releasesleep l .pid ∧ pc' = .releasesleep l .wakeup := by
  unfold fetch acquiresleep releasesleep holdingsleep sleep at h
  repeat' split at h
  all_goals cases h
  · exact .inl ⟨rfl, rfl, rfl⟩
  · exact .inr ⟨rfl, rfl, rfl⟩

/-- What an instruction stores into the fields. -/
def Instr.store [DecidableEq L] : Instr L → (L → Lock) → L → Lock
  | .locked l b, lock => Function.update lock l { lock l with locked := b }
  | .pid l v, lock => Function.update lock l { lock l with pid := v }
  | _, lock => lock

theorem Instr.store_quiet [DecidableEq L] (h : ins.quiet = true) : ins.store lock = lock := by
  cases ins <;> first | rfl | cases h

/-- An instruction stores into the lock that it needs. -/
theorem Instr.store_of_ne [DecidableEq L] (h : ins.needs ≠ some l) : ins.store lock l = lock l := by
  cases ins with
  | locked m b | pid m v =>
      have hne : l ≠ m := by
        rintro rfl
        exact h rfl
      exact Function.update_of_ne hne _ _
  | _ => rfl

/-- A lock stays locked, but for the store of `releasesleep`. -/
theorem Instr.store_locked [DecidableEq L] (h : ins ≠ .locked l false)
    (hl : (lock l).locked = true) : (ins.store lock l).locked = true := by
  cases ins with
  | locked m b =>
      rw [Instr.store, Function.update_apply]
      split
      · rename_i hlm
        cases b with
        | true => rfl
        | false => exact absurd (by rw [hlm]) h
      · exact hl
  | pid m v =>
      rw [Instr.store, Function.update_apply]
      split
      · rename_i hlm
        rwa [hlm] at hl
      · exact hl
  | _ => exact hl

theorem fetch_knows [DecidableEq L] (h : fetch lock me pc = some (ins, pc')) (hk : pc.Knows lock) :
    pc'.Knows (ins.store lock) := by
  unfold fetch acquiresleep releasesleep holdingsleep sleep at h
  repeat' split at h
  all_goals cases h
  all_goals simp_all [Pc.Knows, Instr.store]

theorem fetch_answers {r : ℤ} (h : fetch lock me pc = some (ins, .holdingsleep l (.release r))) :
    pc = .holdingsleep l .locked ∧ (lock l).locked = false ∧ r = 0 ∨
      pc = .holdingsleep l .pid ∧ r = if (lock l).pid = me then 1 else 0 := by
  unfold fetch acquiresleep releasesleep holdingsleep sleep at h
  repeat' split at h
  all_goals grind

/-- A process gives the spin lock up for sleep only from inside `sleep`. -/
theorem fetch_sched (h : fetch lock me pc = some (ins, .acquiresleep l (.sleep .sched))) :
    ins = .release l ∧ pc = .acquiresleep l (.sleep .release) := by
  unfold fetch acquiresleep releasesleep holdingsleep sleep at h
  repeat' split at h
  all_goals grind

theorem fetch_sleep (h : fetch lock me pc = some (.sleep l, pc')) :
    pc = .acquiresleep l (.sleep .sched) ∧ pc' = .acquiresleep l (.sleep .away) := by
  unfold fetch acquiresleep releasesleep holdingsleep sleep at h
  repeat' split at h
  all_goals cases h
  exact ⟨rfl, rfl⟩

theorem fetch_away (h : fetch lock me pc = some (ins, .acquiresleep l (.sleep .away))) :
    ins = .sleep l := by
  unfold fetch acquiresleep releasesleep holdingsleep sleep at h
  repeat' split at h
  all_goals grind

theorem fetch_some (lock : L → Lock) (me : ℤ) (hpc : ∀ eax, pc ≠ .user eax) :
    ∃ ins pc', fetch lock me pc = some (ins, pc') := by
  cases pc with
  | user eax => exact absurd rfl (hpc eax)
  | _ => exact ⟨_, _, rfl⟩

/-- Inside a spin lock, or on the way to sleep, a process waits for `ptable.lock` at most. -/
theorem fetch_goes (lock : L → Lock) (me : ℤ) (hpc : pc.inside ≠ none ∨ pc.ptable = true) :
    ∃ ins pc',
    fetch lock me pc = some (ins, pc') ∧ (∀ m, ins ≠ .acquire m) ∧ ins ≠ .resume ∧
      (pc.ptable = true → ins ≠ .ptable ∧ ∀ m, ins ≠ .wakeup m) := by
  cases pc with
  | user eax =>
      rcases hpc with hpc | hpc
      · exact absurd rfl hpc
      · cases hpc
  | acquiresleep m k =>
      refine ⟨_, _, rfl, ?_⟩
      cases k with
      | sleep k => cases k <;> simp_all [Pc.inside, Pc.ptable, sleep]
      | _ => simp_all [Pc.inside, Pc.ptable]
  | releasesleep m k =>
      refine ⟨_, _, rfl, ?_⟩
      cases k <;> simp_all [Pc.inside, Pc.ptable]
  | holdingsleep m k =>
      refine ⟨_, _, rfl, ?_⟩
      cases k <;> simp_all [Pc.inside, Pc.ptable]

/-- A wakeup that is owed stays owed until it is made. -/
theorem fetch_owes (h : fetch lock me pc = some (ins, pc')) (ho : pc.owes = some l) :
    pc'.owes = some l ∨ ins = .wakeup l := by
  unfold fetch acquiresleep releasesleep holdingsleep sleep at h
  repeat' split at h
  all_goals cases h
  all_goals simp_all [Pc.owes]

variable [DecidableEq P] [DecidableEq L]

/-! ### What a step is -/

/-- Everything a step can be. -/
theorem Sys.step_cases (h : s.step pid a = some t) :
    (∃ p c eax, a = .call p c ∧ (s.proc p).pc = .user eax ∧ t = s.enter p c) ∨
    (∃ p ins pc, a = .run p ∧ fetch s.lock (pid p) (s.proc p).pc = some (ins, pc) ∧
      s.ready p ins ∧ t = (s.exec p ins).setPc p pc) ∨
    (∃ p, a = .kill p ∧ s.ptable = none ∧ t = s.kill p) := by
  cases a with
  | call p c =>
      simp only [Sys.step] at h
      split at h
      · rename_i eax hpc
        exact .inl ⟨p, c, eax, rfl, hpc, (Option.some.inj h).symm⟩
      · cases h
  | run p =>
      simp only [Sys.step, Option.bind_eq_bind, Option.bind_eq_some_iff, guard_eq_some] at h
      obtain ⟨⟨ins, pc⟩, hf, -, hr, h⟩ := h
      exact .inr (.inl ⟨p, ins, pc, rfl, hf, hr, (Option.some.inj h).symm⟩)
  | kill p =>
      simp only [Sys.step] at h
      split at h
      · exact .inr (.inr ⟨p, rfl, ‹_›, (Option.some.inj h).symm⟩)
      · cases h

theorem Sys.step_run (hf : fetch s.lock (pid p) (s.proc p).pc = some (ins, pc))
    (hr : s.ready p ins) : s.step pid (.run p) = some ((s.exec p ins).setPc p pc) := by
  simp [Sys.step, hf, hr, guard]

omit [DecidableEq P] in
@[simp, grind =]
theorem Sys.wakeup1_proc (s : Sys P L) (l : L) (q : P) :
    (s.wakeup1 l).proc q =
      if (s.proc q).sleepsOn l then { s.proc q with asleep := false } else s.proc q := rfl

section

omit [DecidableEq L]

@[simp, grind =]
theorem Sys.setProc_proc (s : Sys P L) (p : P) (x : Proc L) (q : P) :
    (s.setProc p x).proc q = if q = p then x else s.proc q := Function.update_apply ..

@[simp]
theorem Sys.setPc_pc (s : Sys P L) (p : P) (pc : Pc L) (q : P) :
    ((s.setPc p pc).proc q).pc = if q = p then pc else (s.proc q).pc := by
  by_cases h : q = p <;> simp [Sys.setPc, h]

@[simp]
theorem Sys.setPc_asleep (s : Sys P L) (p : P) (pc : Pc L) (q : P) :
    ((s.setPc p pc).proc q).asleep = (s.proc q).asleep := by
  by_cases h : q = p <;> simp [Sys.setPc, h]

@[simp]
theorem Sys.setPc_chan (s : Sys P L) (p : P) (pc : Pc L) (q : P) :
    ((s.setPc p pc).proc q).chan = (s.proc q).chan := by
  by_cases h : q = p <;> simp [Sys.setPc, h]

@[simp]
theorem Sys.setPc_lock (s : Sys P L) (p : P) (pc : Pc L) : (s.setPc p pc).lock = s.lock := rfl

@[simp]
theorem Sys.setPc_lk (s : Sys P L) (p : P) (pc : Pc L) : (s.setPc p pc).lk = s.lk := rfl

@[simp]
theorem Sys.setPc_ptable (s : Sys P L) (p : P) (pc : Pc L) : (s.setPc p pc).ptable = s.ptable := rfl

@[simp]
theorem Sys.setPc_held (s : Sys P L) (p : P) (pc : Pc L) : (s.setPc p pc).held = s.held := rfl

@[simp]
theorem Sys.kill_pc (s : Sys P L) (p q : P) : ((s.kill p).proc q).pc = (s.proc q).pc := by
  by_cases h : q = p <;> simp [Sys.kill, h]

end

theorem Sys.setHeld_held (s : Sys P L) (p : P) (l : L) (b : Bool) (q : P) (m : L) :
    (s.setHeld p l b).held q m = if q = p ∧ m = l then b else s.held q m := by
  by_cases hq : q = p
  · by_cases hm : m = l <;> simp [Sys.setHeld, hq, hm]
  · simp [Sys.setHeld, hq]

@[simp]
theorem Sys.enter_pc (s : Sys P L) (p : P) (c : Call L) (q : P) :
    ((s.enter p c).proc q).pc = if q = p then c.entry else (s.proc q).pc := by
  cases c <;> simp [Sys.enter, Sys.setHeld]

/-- What entering a call leaves as it is. -/
theorem Sys.enter_fields (s : Sys P L) (p : P) (c : Call L) :
    (s.enter p c).lock = s.lock ∧ (s.enter p c).lk = s.lk ∧ (s.enter p c).ptable = s.ptable ∧
      ∀ q, ((s.enter p c).proc q).asleep = (s.proc q).asleep ∧
        ((s.enter p c).proc q).chan = (s.proc q).chan := by
  cases c <;> simp [Sys.enter, Sys.setHeld]

@[simp]
theorem Sys.exec_pc (s : Sys P L) (p : P) (ins : Instr L) (q : P) :
    ((s.exec p ins).proc q).pc = (s.proc q).pc := by
  cases ins with
  | sleep c => by_cases h : q = p <;> simp [Sys.exec, h]
  | taken l => rfl
  | _ => grind [Sys.exec]

/-! ### The spin locks -/

/-- A spin lock is held by the process that is inside of it. -/
def Sys.Locked (s : Sys P L) : Prop := ∀ l p, s.lk l = some p ↔ (s.proc p).pc.inside = some l

/-- `ptable.lock` is held by the process that is in the middle of `sleep`. -/
def Sys.PtLocked (s : Sys P L) : Prop := ∀ p, s.ptable = some p ↔ (s.proc p).pc.ptable = true

omit [DecidableEq L] in
theorem Call.entry_inside (c : Call L) : c.entry.inside = none ∧ c.entry.ptable = false := by
  cases c <;> exact ⟨rfl, rfl⟩

/-- A spin lock is with the process that is inside of it. -/
theorem Sys.exec_lk (hr : s.ready p ins) (hl : s.Locked)
    (hn : ∀ l, ins.needs = some l → (s.proc p).pc.inside = some l)
    (ha : ∀ l, ins = .acquire l → (s.proc p).pc.inside = none) (l : L) (q : P) :
    (s.exec p ins).lk l = some q ↔
      if q = p then ins.insideAfter (s.proc p).pc.inside = some l
      else (s.proc q).pc.inside = some l := by
  have hq := hl l q
  have hp := hl l p
  cases ins with
  | acquire m =>
      have hfree : s.lk m = none := hr
      have hout := ha m rfl
      show Function.update s.lk m (some p) l = some q ↔ if q = p then some m = some l else _
      by_cases h : l = m
      · subst h
        rw [hfree] at hq
        by_cases hqp : q = p <;> simp_all [Ne.symm]
      · rw [Function.update_of_ne h]
        by_cases hqp : q = p <;> simp_all [Ne.symm]
  | release m | taken m =>
      have hin := (hl m p).mpr (hn m rfl)
      have hpm := hn m rfl
      show Function.update s.lk m none l = some q ↔ if q = p then none = some l else _
      by_cases h : l = m
      · subst h
        rw [hin] at hq
        by_cases hqp : q = p
        · simp [hqp]
        · rw [if_neg hqp, ← hq]
          simp [Ne.symm hqp]
      · rw [Function.update_of_ne h]
        by_cases hqp : q = p <;> simp_all [Ne.symm]
  | _ => grind [Sys.exec, Sys.setProc, Sys.wakeup1, Instr.insideAfter]

/-- The spin locks stay with those who are inside of them. -/
theorem Sys.Locked.step (h : s.Locked) (hs : s.step pid a = some t) : t.Locked := by
  obtain ⟨p, c, eax, -, hpc, rfl⟩ | ⟨p, ins, pc, -, hf, hr, rfl⟩ | ⟨p, -, -, rfl⟩ :=
    Sys.step_cases hs
  · intro l q
    have hq := h l q
    rw [(s.enter_fields p c).2.1, Sys.enter_pc]
    by_cases hqp : q = p
    · subst hqp
      rw [hpc] at hq
      rw [if_pos rfl, c.entry_inside.1]
      exact hq
    · simpa [hqp] using hq
  · intro l q
    obtain ⟨hi, hn, ha⟩ := fetch_inside hf
    have hq := Sys.exec_lk hr h hn ha l q
    rw [Sys.setPc_pc]
    by_cases hqp : q = p
    · simpa [hqp, hi] using hq
    · simpa [hqp] using hq
  · intro l q
    rw [Sys.kill_pc]
    exact h l q

/-- Who has the lock of the table after an instruction. -/
theorem Sys.exec_ptable (hr : s.ready p ins) (hl : s.PtLocked)
    (hs : ∀ l, ins = .sleep l → (s.proc p).pc.ptable = true) (q : P) :
    (s.exec p ins).ptable = some q ↔
      if q = p then ins.ptableAfter (s.proc p).pc.ptable = true
      else (s.proc q).pc.ptable = true := by
  have hq := hl q
  have hp := hl p
  cases ins <;>
    grind [Sys.exec, Sys.ready, Sys.setProc, Sys.setHeld, Sys.wakeup1, Instr.ptableAfter]

/-- So does the lock of the table. -/
theorem Sys.PtLocked.step (h : s.PtLocked) (hs : s.step pid a = some t) : t.PtLocked := by
  obtain ⟨p, c, eax, -, hpc, rfl⟩ | ⟨p, ins, pc, -, hf, hr, rfl⟩ | ⟨p, -, -, rfl⟩ :=
    Sys.step_cases hs
  · intro q
    have hq := h q
    rw [(s.enter_fields p c).2.2.1, Sys.enter_pc]
    by_cases hqp : q = p
    · subst hqp
      rw [hpc] at hq
      rw [if_pos rfl, c.entry_inside.2]
      exact hq
    · simpa [hqp] using hq
  · intro q
    obtain ⟨hi, hn⟩ := fetch_ptable hf
    have hq := Sys.exec_ptable hr h hn q
    rw [Sys.setPc_pc]
    by_cases hqp : q = p
    · simpa [hqp, hi] using hq
    · simpa [hqp] using hq
  · intro q
    rw [Sys.kill_pc]
    exact h q

/-! ### Who owns a lock -/

/-- `p` holds the lock, or is about to return with it or to give it up. -/
def Sys.Owns (s : Sys P L) (p : P) (l : L) : Prop :=
  s.held p l = true ∨ (s.proc p).pc.owns = some l

/-- The same, once its number is in the lock. -/
def Sys.Signed (s : Sys P L) (p : P) (l : L) : Prop :=
  s.held p l = true ∨ (s.proc p).pc.signed = some l

/-- **The invariant of the locks.** -/
structure Sys.Owned (pid : P → ℤ) (s : Sys P L) : Prop where
  inside : s.Locked
  locked : ∀ l, (s.lock l).locked = true ↔ ∃ p, s.Owns p l
  unique : ∀ l p q, s.Owns p l → s.Owns q l → p = q
  signed : ∀ l p, s.Signed p l → (s.lock l).pid = pid p
  knows : ∀ p, (s.proc p).pc.Knows s.lock
  fresh : ∀ l p, (s.proc p).pc.owns = some l → s.held p l = false
  /-- `holdingsleep` is about to tell whether its process holds the lock. -/
  answers : ∀ l p r, (s.proc p).pc = .holdingsleep l (.release r) →
    r = if s.held p l = true then 1 else 0

omit [DecidableEq L] in
theorem Pc.owns_of_signed (h : pc.signed = some l) : pc.owns = some l := by
  unfold Pc.signed at h
  split at h
  · cases h
  · exact h

omit [DecidableEq P] [DecidableEq L] in
theorem Sys.Signed.owns (h : s.Signed p l) : s.Owns p l := h.imp_right Pc.owns_of_signed

theorem Sys.exec_lock (s : Sys P L) (p : P) (ins : Instr L) :
    (s.exec p ins).lock = ins.store s.lock := by
  cases ins <;> rfl

theorem Sys.exec_held (h : ins.quiet = true) : (s.exec p ins).held = s.held := by
  cases ins <;> first | rfl | cases h

theorem Sys.exec_held_other (hq : q ≠ p) : (s.exec p ins).held q = s.held q := by
  cases ins with
  | taken l => exact Function.update_of_ne hq _ _
  | _ => rfl

namespace Sys.Owned

omit [DecidableEq P] [DecidableEq L] in
/-- At the start no sleep lock has a holder. -/
theorem init (h : s.Init) : s.Owned pid := by
  have hpc : ∀ p, (s.proc p).pc.inside = none ∧ (s.proc p).pc.owns = none ∧
      (s.proc p).pc.Knows s.lock ∧ ∀ l k, (s.proc p).pc ≠ .holdingsleep l k := fun p => by
    obtain ⟨eax, hp⟩ := h.user p
    rw [hp]
    exact ⟨rfl, rfl, trivial, by simp⟩
  have hno : ∀ p l, ¬ s.Owns p l := by
    rintro p l (hh | ho)
    · rw [h.held] at hh
      cases hh
    · rw [(hpc p).2.1] at ho
      cases ho
  refine ⟨fun l p => ?_, fun l => ?_, fun l p q hp => absurd hp (hno p l),
    fun l p hp => absurd hp.owns (hno p l), fun p => (hpc p).2.2.1, fun l p _ => h.held p l,
    fun l p r hr => absurd hr ((hpc p).2.2.2 l _)⟩
  · rw [h.lk, (hpc p).1]
    simp
  · rw [h.lock]
    exact iff_of_false (by simp) fun hp => hp.elim fun p hp => hno p l hp

omit [DecidableEq P] [DecidableEq L] in
/-- The owner of a lock is unique, as it is inside of the spin lock, or it holds the lock. -/
theorem inside_unique (h : s.Owned pid) (hp : (s.proc p).pc.inside = some l)
    (hq : (s.proc q).pc.inside = some l) : p = q :=
  Option.some.inj (((h.inside l p).mpr hp).symm.trans ((h.inside l q).mpr hq))

omit [DecidableEq P] [DecidableEq L] in
/-- What `holdingsleep` has compared. -/
theorem answer (h : s.Owned pid) (hpid : Function.Injective pid)
    (hpc : (s.proc p).pc = .holdingsleep l .pid) :
    (if (s.lock l).pid = pid p then 1 else 0 : ℤ) = if s.held p l = true then 1 else 0 := by
  have hk := h.knows p
  rw [hpc] at hk
  obtain ⟨q, hq⟩ := (h.locked l).mp hk
  -- an owner that has not signed would be inside the spin lock, where `p` is
  have hsign : s.Signed q l := by
    refine hq.imp_right fun ho => ?_
    unfold Pc.signed
    split
    · rename_i m hqpc
      obtain rfl : m = l := by
        rw [hqpc] at ho
        exact Option.some.inj ho
      have hpq : p = q := h.inside_unique (by rw [hpc]; rfl) (by rw [hqpc]; rfl)
      rw [← hpq, hpc] at hqpc
      cases hqpc
    · exact ho
  refine if_congr ?_ rfl rfl
  rw [h.signed l q hsign]
  constructor
  · intro he
    obtain rfl := hpid he
    refine hq.resolve_right fun ho => ?_
    rw [hpc] at ho
    cases ho
  · intro hh
    rw [h.unique l q p hq (.inl hh)]

/-- Entering a call changes no owner. -/
theorem enter_owns {c : Call L} {eax : ℤ} (hpc : (s.proc p).pc = .user eax)
    (hl : s.Lawful (.call p c)) (q : P) (l : L) :
    ((s.enter p c).Owns q l ↔ s.Owns q l) ∧ ((s.enter p c).Signed q l ↔ s.Signed q l) := by
  unfold Sys.Owns Sys.Signed
  rw [Sys.enter_pc]
  by_cases hqp : q = p
  · subst hqp
    rw [if_pos rfl, hpc]
    cases c with
    | releasesleep m =>
        -- the lock that was held is from now on the one of the counter
        have hm : s.held q m = true := hl
        have hheld : ∀ l, (s.enter q (.releasesleep m)).held q l =
            if l = m then false else s.held q l := fun l => by simp [Sys.enter, Sys.setHeld_held]
        rw [hheld]
        by_cases hlm : l = m
        · subst hlm
          simp [hm, Call.entry, Pc.owns, Pc.signed]
        · simp [hlm, Ne.symm hlm, Call.entry, Pc.owns, Pc.signed]
    | _ => exact ⟨Iff.rfl, Iff.rfl⟩
  · rw [if_neg hqp]
    cases c with
    | releasesleep m =>
        have hheld : (s.enter p (.releasesleep m)).held q l = s.held q l := by
          simp [Sys.enter, Sys.setHeld_held, hqp]
        rw [hheld]
        exact ⟨Iff.rfl, Iff.rfl⟩
    | _ => exact ⟨Iff.rfl, Iff.rfl⟩

omit [DecidableEq P] [DecidableEq L] in
/-- A step that leaves the owners and the fields as they are. -/
theorem of_owns (h : s.Owned pid) (ht : t.Locked) (hlock : t.lock = s.lock)
    (howns : ∀ q l, (t.Owns q l ↔ s.Owns q l) ∧ (t.Signed q l ↔ s.Signed q l))
    (hknows : ∀ q, (t.proc q).pc.Knows t.lock)
    (hfresh : ∀ l q, (t.proc q).pc.owns = some l → t.held q l = false)
    (hanswers : ∀ l q r, (t.proc q).pc = .holdingsleep l (.release r) →
      r = if t.held q l = true then 1 else 0) : t.Owned pid where
  inside := ht
  locked l := by
    rw [hlock, h.locked]
    exact exists_congr fun q => (howns q l).1.symm
  unique l q r hq hr := h.unique l q r ((howns q l).1.mp hq) ((howns r l).1.mp hr)
  signed l q hq := by
    rw [hlock]
    exact h.signed l q ((howns q l).2.mp hq)
  knows := hknows
  fresh := hfresh
  answers := hanswers

/-- A call changes no lock. -/
theorem step_call {c : Call L} {eax : ℤ} (h : s.Owned pid) (hpc : (s.proc p).pc = .user eax)
    (hl : s.Lawful (.call p c)) (ht : (s.enter p c).Locked) : (s.enter p c).Owned pid := by
  have hlock := (s.enter_fields p c).1
  have hheld : ∀ q l, q ≠ p → (s.enter p c).held q l = s.held q l := by
    intro q l hqp
    cases c <;> simp [Sys.enter, Sys.setHeld_held, hqp]
  refine h.of_owns ht hlock (enter_owns hpc hl) (fun q => ?_) (fun l q ho => ?_) fun l q r hr => ?_
  · rw [hlock, Sys.enter_pc]
    split
    · cases c <;> trivial
    · exact h.knows q
  · rw [Sys.enter_pc] at ho
    split at ho
    · rename_i hqp
      subst hqp
      cases c with
      | releasesleep m =>
          obtain rfl : m = l := Option.some.inj ho
          simp [Sys.enter, Sys.setHeld_held]
      | _ => cases ho
    · rename_i hqp
      rw [hheld q l hqp]
      exact h.fresh l q ho
  · rw [Sys.enter_pc] at hr
    split at hr
    · cases c <;> cases hr
    · rename_i hqp
      rw [hheld q l hqp]
      exact h.answers l q r hr

/-- What holds after an instruction, whichever it is. -/
theorem knows_exec (h : s.Owned pid) (hf : fetch s.lock (pid p) (s.proc p).pc = some (ins, pc))
    (q : P) : (((s.exec p ins).setPc p pc).proc q).pc.Knows ((s.exec p ins).setPc p pc).lock := by
  rw [Sys.setPc_pc, Sys.setPc_lock, Sys.exec_pc, Sys.exec_lock]
  -- others know of the lock whose spin lock they hold, and a store needs that
  split
  · exact fetch_knows hf (h.knows p)
  · rename_i hqp
    refine (h.knows q).congr fun l hl => Instr.store_of_ne fun hn => hqp ?_
    exact h.inside_unique hl ((fetch_inside hf).2.1 l hn)

/-- `holdingsleep` returns whether the process has the lock. -/
theorem answers_exec (h : s.Owned pid) (hpid : Function.Injective pid)
    (hf : fetch s.lock (pid p) (s.proc p).pc = some (ins, pc)) {r : ℤ}
    (hr : (((s.exec p ins).setPc p pc).proc q).pc = .holdingsleep l (.release r)) :
    r = if ((s.exec p ins).setPc p pc).held q l = true then 1 else 0 := by
  rw [Sys.setPc_pc, Sys.exec_pc] at hr
  rw [Sys.setPc_held]
  by_cases hqp : q = p
  · subst hqp
    rw [if_pos rfl] at hr
    subst hr
    -- no instruction with a field to store leads to where `holdingsleep` answers
    have hheld : (s.exec q ins).held = s.held := by
      refine Sys.exec_held ?_
      cases ins with
      | taken m => cases (fetch_taken hf).2
      | locked m b => rcases fetch_locked hf with ⟨-, -, he⟩ | ⟨-, -, he⟩ <;> cases he
      | pid m v => rcases fetch_pid hf with ⟨-, -, he⟩ | ⟨-, -, he⟩ <;> cases he
      | _ => rfl
    rw [hheld]
    rcases fetch_answers hf with ⟨-, hfree, rfl⟩ | ⟨hpc, rfl⟩
    · rw [if_neg]
      intro hh
      rw [(h.locked l).mpr ⟨q, .inl hh⟩] at hfree
      cases hfree
    · exact h.answer hpid hpc
  · rw [if_neg hqp] at hr
    rw [Sys.exec_held_other hqp]
    exact h.answers l q r hr

/-- An instruction that leaves the owners, and the fields, as they are. -/
theorem exec_quiet (hf : fetch s.lock (pid p) (s.proc p).pc = some (ins, pc))
    (hq : ins.quiet = true) (q : P) (l : L) : (((s.exec p ins).setPc p pc).Owns q l ↔ s.Owns q l) ∧
      (((s.exec p ins).setPc p pc).Signed q l ↔ s.Signed q l) := by
  obtain ⟨howns, hsigned⟩ := fetch_quiet hf hq
  unfold Sys.Owns Sys.Signed
  rw [Sys.setPc_held, Sys.exec_held hq, Sys.setPc_pc, Sys.exec_pc]
  split
  · rename_i hqp
    rw [howns, hsigned, hqp]
    exact ⟨Iff.rfl, Iff.rfl⟩
  · exact ⟨Iff.rfl, Iff.rfl⟩

/-- The return of `acquiresleep` leaves the owners as they are. -/
theorem exec_taken (hf : fetch s.lock (pid p) (s.proc p).pc = some (.taken m, pc)) (q : P) (l : L) :
    (((s.exec p (.taken m)).setPc p pc).Owns q l ↔ s.Owns q l) ∧
      (((s.exec p (.taken m)).setPc p pc).Signed q l ↔ s.Signed q l) := by
  obtain ⟨hpc, rfl⟩ := fetch_taken hf
  have hheld : (s.exec p (.taken m)).held q l = if q = p ∧ l = m then true else s.held q l :=
    Sys.setHeld_held ..
  unfold Sys.Owns Sys.Signed
  rw [Sys.setPc_held, hheld, Sys.setPc_pc, Sys.exec_pc]
  by_cases hqp : q = p
  · subst hqp
    by_cases hlm : l = m
    · subst hlm
      simp [hpc, Pc.owns, Pc.signed]
    · simp [hpc, hlm, Ne.symm hlm, Pc.owns, Pc.signed]
  · simp [hqp]

/-- The owners after a store into a field, for a process that is not an owner by having returned. -/
theorem exec_store (hheld : (s.exec p ins).held = s.held) (q : P) (l : L) :
    (((s.exec p ins).setPc p pc).Owns q l ↔
      if q = p then s.held p l = true ∨ pc.owns = some l else s.Owns q l) ∧
    (((s.exec p ins).setPc p pc).Signed q l ↔
      if q = p then s.held p l = true ∨ pc.signed = some l else s.Signed q l) := by
  unfold Sys.Owns Sys.Signed
  rw [Sys.setPc_held, hheld, Sys.setPc_pc, Sys.exec_pc]
  by_cases hqp : q = p
  · subst hqp
    simp
  · simp [hqp]

/-- A store with which a process does not sign the lock leaves nobody new who has. -/
theorem signed_of_store (hheld : (s.exec p ins).held = s.held) (hpc : pc.signed ≠ some l)
    (hq : ((s.exec p ins).setPc p pc).Signed q l) : s.Signed q l := by
  rw [(exec_store hheld q l).2] at hq
  split at hq
  · rename_i hqp
    rw [hqp]
    exact .inl (hq.resolve_right hpc)
  · exact hq

omit [DecidableEq P] [DecidableEq L] in
/-- Nobody owns a lock that is not locked. -/
theorem no_owner (h : s.Owned pid) (hfree : (s.lock l).locked = false) (q : P) : ¬ s.Owns q l :=
  fun hq => by
    rw [(h.locked l).mpr ⟨q, hq⟩] at hfree
    cases hfree

/-- `acquiresleep` stores into `locked`. -/
theorem step_lock (h : s.Owned pid) (hpid : Function.Injective pid)
    (hf : fetch s.lock (pid p) (s.proc p).pc = some (.locked m true, pc))
    (ht : ((s.exec p (.locked m true)).setPc p pc).Locked) :
    ((s.exec p (.locked m true)).setPc p pc).Owned pid := by
  obtain ⟨-, hpc, rfl⟩ := (fetch_locked hf).resolve_right fun hc => (by cases hc.1)
  have hfree : ∀ q, ¬ s.Owns q m := h.no_owner (by have := h.knows p; rwa [hpc] at this)
  have howns : ∀ q l, ((s.exec p (.locked m true)).setPc p (.acquiresleep m .pid)).Owns q l ↔
      s.Owns q l ∨ q = p ∧ l = m := by
    intro q l
    rw [(exec_store rfl q l).1]
    by_cases hqp : q = p
    · subst hqp
      by_cases hlm : l = m
      · simp [hlm, Pc.owns]
      · simp [Sys.Owns, hpc, Pc.owns, hlm, Ne.symm hlm]
    · simp [hqp]
  have hlock : ∀ l, ((s.exec p (.locked m true)).setPc p (.acquiresleep m .pid)).lock l =
      if l = m then { s.lock m with locked := true } else s.lock l := fun l =>
    Function.update_apply ..
  refine ⟨ht, fun l => ?_, fun l q r hq hr => ?_, fun l q hq => ?_, h.knows_exec hf,
    fun l q ho => ?_, fun l q r hr => h.answers_exec hpid hf hr⟩
  · rw [hlock]
    by_cases hlm : l = m
    · rw [if_pos hlm]
      exact iff_of_true rfl ⟨p, (howns p l).mpr (.inr ⟨rfl, hlm⟩)⟩
    · rw [if_neg hlm, h.locked]
      exact exists_congr fun q => ((howns q l).trans (or_iff_left fun hc => hlm hc.2)).symm
  · rcases (howns q l).mp hq with hq | ⟨hqp, hlm⟩
    · rcases (howns r l).mp hr with hr | ⟨-, hlm⟩
      · exact h.unique l q r hq hr
      · exact absurd (hlm ▸ hq) (hfree q)
    · rcases (howns r l).mp hr with hr | ⟨hrp, -⟩
      · exact absurd (hlm ▸ hr) (hfree r)
      · rw [hqp, hrp]
  · have hs : s.Signed q l := signed_of_store rfl (by simp [Pc.signed]) hq
    rw [hlock]
    split
    · rename_i hlm
      exact absurd (hlm ▸ hs.owns) (hfree q)
    · exact h.signed l q hs
  · rw [Sys.setPc_pc, Sys.exec_pc] at ho
    split at ho
    · rename_i hqp
      obtain rfl : m = l := Option.some.inj ho
      refine Bool.eq_false_iff.mpr fun hh => hfree q (.inl hh)
    · exact h.fresh l q ho

/-- `releasesleep` stores into `locked`. -/
theorem step_unlock (h : s.Owned pid) (hpid : Function.Injective pid)
    (hf : fetch s.lock (pid p) (s.proc p).pc = some (.locked m false, pc))
    (ht : ((s.exec p (.locked m false)).setPc p pc).Locked) :
    ((s.exec p (.locked m false)).setPc p pc).Owned pid := by
  obtain ⟨-, hpc, rfl⟩ := (fetch_locked hf).resolve_left fun hc => (by cases hc.1)
  have howner : s.Owns p m := .inr (by rw [hpc]; rfl)
  have hfresh := h.fresh m p (by rw [hpc]; rfl)
  have howns : ∀ q l, ((s.exec p (.locked m false)).setPc p (.releasesleep m .pid)).Owns q l ↔
      s.Owns q l ∧ ¬ (q = p ∧ l = m) := by
    intro q l
    rw [(exec_store rfl q l).1]
    by_cases hqp : q = p
    · subst hqp
      by_cases hlm : l = m
      · subst hlm
        simp [hfresh, Pc.owns]
      · simp [Sys.Owns, hpc, Pc.owns, hlm, Ne.symm hlm]
    · simp [hqp]
  have hlock : ∀ l, ((s.exec p (.locked m false)).setPc p (.releasesleep m .pid)).lock l =
      if l = m then { s.lock m with locked := false } else s.lock l := fun l =>
    Function.update_apply ..
  refine ⟨ht, fun l => ?_, fun l q r hq hr => ?_, fun l q hq => ?_, h.knows_exec hf,
    fun l q ho => ?_, fun l q r hr => h.answers_exec hpid hf hr⟩
  · rw [hlock]
    by_cases hlm : l = m
    · rw [if_pos hlm]
      refine iff_of_false (by simp) ?_
      rintro ⟨q, hq⟩
      obtain ⟨hq, hne⟩ := (howns q l).mp hq
      exact hne ⟨h.unique l q p hq (hlm ▸ howner), hlm⟩
    · rw [if_neg hlm, h.locked]
      exact exists_congr fun q => ((howns q l).trans (and_iff_left fun hc => hlm hc.2)).symm
  · exact h.unique l q r ((howns q l).mp hq).1 ((howns r l).mp hr).1
  · have hs : s.Signed q l := signed_of_store rfl (by simp [Pc.signed, Pc.owns]) hq
    have := h.signed l q hs
    rw [hlock]
    split
    · rename_i hlm
      rwa [hlm] at this
    · exact this
  · rw [Sys.setPc_pc, Sys.exec_pc] at ho
    split at ho
    · cases ho
    · exact h.fresh l q ho

/-- `acquiresleep` and `releasesleep` store into `pid`. -/
theorem step_pid (h : s.Owned pid) (hpid : Function.Injective pid)
    (hf : fetch s.lock (pid p) (s.proc p).pc = some (.pid m v, pc))
    (ht : ((s.exec p (.pid m v)).setPc p pc).Locked) :
    ((s.exec p (.pid m v)).setPc p pc).Owned pid := by
  have hpcs : pc.owns = (s.proc p).pc.owns := by
    rcases fetch_pid hf with ⟨-, hpc, rfl⟩ | ⟨-, hpc, rfl⟩ <;> rw [hpc] <;> rfl
  have howns : ∀ q l, ((s.exec p (.pid m v)).setPc p pc).Owns q l ↔ s.Owns q l := by
    intro q l
    rw [(exec_store rfl q l).1]
    split
    · rename_i hqp
      rw [hpcs, hqp, Sys.Owns]
    · exact Iff.rfl
  -- whoever owns the lock is the process whose number is stored
  have hstored : ∀ q, s.Owns q m → q = p ∧ v = pid p := by
    intro q hq
    rcases fetch_pid hf with ⟨rfl, hpc, -⟩ | ⟨-, hpc, -⟩
    · exact ⟨h.unique m q p hq (.inr (by rw [hpc]; rfl)), rfl⟩
    · have hk := h.knows p
      rw [hpc] at hk
      exact absurd hq (h.no_owner hk q)
  have hlock : ∀ l, ((s.exec p (.pid m v)).setPc p pc).lock l =
      if l = m then { s.lock m with pid := v } else s.lock l := fun l => Function.update_apply ..
  refine ⟨ht, fun l => ?_, fun l q r hq hr => ?_, fun l q hq => ?_, h.knows_exec hf,
    fun l q ho => ?_, fun l q r hr => h.answers_exec hpid hf hr⟩
  · have hsame : (((s.exec p (.pid m v)).setPc p pc).lock l).locked = (s.lock l).locked := by
      rw [hlock]
      split
      · rename_i hlm
        rw [hlm]
      · rfl
    rw [hsame, h.locked]
    exact exists_congr fun q => (howns q l).symm
  · exact h.unique l q r ((howns q l).mp hq) ((howns r l).mp hr)
  · rw [hlock]
    split
    · rename_i hlm
      subst hlm
      obtain ⟨rfl, hv⟩ := hstored q ((howns q l).mp hq.owns)
      exact hv
    · rename_i hlm
      refine h.signed l q (signed_of_store rfl (fun hc => ?_) hq)
      rcases fetch_pid hf with ⟨-, -, rfl⟩ | ⟨-, -, rfl⟩
      · exact hlm (Option.some.inj hc).symm
      · cases hc
  · rw [Sys.setPc_pc, Sys.exec_pc] at ho
    split at ho
    · rename_i hqp
      rw [hpcs] at ho
      rw [hqp]
      exact h.fresh l p ho
    · exact h.fresh l q ho

/-- Every instruction keeps a lock with its holder. -/
theorem step_run (h : s.Owned pid) (hpid : Function.Injective pid)
    (hf : fetch s.lock (pid p) (s.proc p).pc = some (ins, pc))
    (ht : ((s.exec p ins).setPc p pc).Locked) : ((s.exec p ins).setPc p pc).Owned pid := by
  have hquiet : ∀ {ins pc}, fetch s.lock (pid p) (s.proc p).pc = some (ins, pc) → ins.quiet = true →
      ((s.exec p ins).setPc p pc).Locked → ((s.exec p ins).setPc p pc).Owned pid := by
    intro ins pc hf hq ht
    have hlock : ((s.exec p ins).setPc p pc).lock = s.lock := by
      rw [Sys.setPc_lock, Sys.exec_lock, Instr.store_quiet hq]
    refine h.of_owns ht hlock (exec_quiet hf hq) (h.knows_exec hf) (fun l q ho => ?_)
      fun l q r hr => h.answers_exec hpid hf hr
    rw [Sys.setPc_pc, Sys.exec_pc] at ho
    rw [Sys.setPc_held, Sys.exec_held hq]
    split at ho
    · rename_i hqp
      rw [(fetch_quiet hf hq).1] at ho
      rw [hqp]
      exact h.fresh l p ho
    · exact h.fresh l q ho
  cases ins with
  | taken m =>
      refine h.of_owns ht rfl (exec_taken hf) (h.knows_exec hf) (fun l q ho => ?_)
        fun l q r hr => h.answers_exec hpid hf hr
      rw [Sys.setPc_pc, Sys.exec_pc] at ho
      split at ho
      · rw [(fetch_taken hf).2] at ho
        cases ho
      · rename_i hqp
        rw [Sys.setPc_held, Sys.exec_held_other hqp]
        exact h.fresh l q ho
  | locked m b =>
      cases b with
      | true => exact h.step_lock hpid hf ht
      | false => exact h.step_unlock hpid hf ht
  | pid m v => exact h.step_pid hpid hf ht
  | _ => exact hquiet hf rfl ht

/-- **Every step keeps a lock with its holder.** -/
theorem step (h : s.Owned pid) (hpid : Function.Injective pid) (hs : Sys.Step pid s a t) :
    t.Owned pid := by
  have ht := h.inside.step hs.2
  obtain ⟨p, c, eax, rfl, hpc, rfl⟩ | ⟨p, ins, pc, rfl, hf, hr, rfl⟩ | ⟨p, rfl, -, rfl⟩ :=
    Sys.step_cases hs.2
  · exact h.step_call hpc hs.1 ht
  · exact h.step_run hpid hf ht
  · refine h.of_owns ht rfl (fun q l => ?_) (fun q => ?_) (fun l q ho => ?_) fun l q r hr => ?_
    · unfold Sys.Owns Sys.Signed
      rw [Sys.kill_pc]
      exact ⟨Iff.rfl, Iff.rfl⟩
    · rw [Sys.kill_pc]
      exact h.knows q
    · rw [Sys.kill_pc] at ho
      exact h.fresh l q ho
    · rw [Sys.kill_pc] at hr
      exact h.answers l q r hr

end Sys.Owned

end Xv6.Sleeplock
