import Xv6.Pipe.Stream
import Mathlib.Data.Fintype.Basic

/-!
# Pipes — wakeups

A process asleep on `&p->nread` waits for data or for the end of the writers; one asleep on
`&p->nwrite` waits for room or for the end of the readers (`Pipe.blocks`).  The argument that no
wakeup is missed: a process that has given up the lock in order to sleep on a channel (`Commits`)
either is rightly asleep, or the holder of the lock still owes that channel a wakeup (`Pc.owes`).

One path of `pipewrite` breaks it.  A writer that has stored bytes, finds the pipe full and then
leaves by `return -1`, being killed or without readers, calls no wakeup; a reader that went to
sleep on the empty pipe sleeps on, with the pipe full.  `no_missed_wakeup` is about the runs where
this exit is never taken while a process waits for data; `silent_exit_misses` says that taking it
with a process asleep always leaves that process behind.
-/

namespace Xv6.Pipe

open Lib

variable {P : Type} [DecidableEq P] {s t u : Sys P} {p q : P} {a : Act P} {ins : Instr}
  {pc pc' : Pc} {c : Chan}

/-! ### Who waits for what -/

/-- The pipe is such that a process has to sleep on the channel. -/
def Pipe.blocks (p : Pipe) : Chan → Prop
  | .nread => p.empty ∧ p.writeopen = true
  | .nwrite => p.full ∧ p.readopen = true

/-- The channel and the place of a process inside `sleep`. -/
def Pc.inSleep : Pc → Option (Chan × SleepPc)
  | .pipewrite _ _ _ (.sleep k) => some (.nwrite, k)
  | .piperead _ _ _ (.sleep k) => some (.nread, k)
  | _ => none

/-- Between `acquire(&ptable.lock)` and the switch away. -/
def Pc.ptable (pc : Pc) : Bool :=
  match pc.inSleep with
  | some (_, .release) | some (_, .sched) => true
  | _ => false

/-- `SLEEPING` on the channel, or past `release(lk)` on the way there. -/
def Proc.Commits (x : Proc) (c : Chan) : Prop :=
  x.pc.inSleep = some (c, .sched) ∨ x.sleepsOn c

instance (x : Proc) (c : Chan) : Decidable (x.Commits c) := inferInstanceAs (Decidable (_ ∨ _))

/-- About to `return -1` from `pipewrite`. -/
def Pc.fails : Pc → Bool
  | .pipewrite _ _ _ .fail => true
  | _ => false

/-- The holder of the lock has still to call `wakeup(c)`. -/
def Pc.owes : Chan → Pc → Bool
  | .nread, .pipewrite _ _ _ k =>
      match k with
      | .loop | .full | .readopen | .killed | .fail | .wakeFull | .wakeDone => true
      | .acquire | .sleep _ | .release => false
  | .nwrite, .piperead _ _ _ .loop | .nwrite, .piperead _ _ _ .wakeup => true
  | .nread, .pipeclose writable .wakeup => writable
  | .nwrite, .pipeclose writable .wakeup => !writable
  | _, _ => false

/-- What a process on its way to sleep has found out under the lock. -/
def Pc.Waits (p : Pipe) : Pc → Prop
  | .pipewrite _ _ _ .readopen => p.full
  | .pipewrite _ _ _ .fail => p.full
  | .pipewrite _ _ _ .killed | .pipewrite _ _ _ .wakeFull => p.blocks .nwrite
  | .pipewrite _ _ _ (.sleep .ptable) | .pipewrite _ _ _ (.sleep .release) => p.blocks .nwrite
  | .piperead _ _ _ .killed => p.blocks .nread
  | .piperead _ _ _ (.sleep .ptable) | .piperead _ _ _ (.sleep .release) => p.blocks .nread
  | _ => True

theorem Pc.Waits.of_not_locked {p : Pipe} (h : pc.locked = false) : pc.Waits p := by
  cases pc with
  | pipewrite addr n i k =>
      cases k with
      | sleep k => cases k <;> simp_all [Pc.Waits, Pc.locked, SleepPc.locked]
      | _ => simp_all [Pc.Waits, Pc.locked]
  | piperead addr n i k =>
      cases k with
      | sleep k => cases k <;> simp_all [Pc.Waits, Pc.locked, SleepPc.locked]
      | _ => simp_all [Pc.Waits, Pc.locked]
  | _ => trivial

/-! ### The code, as far as wakeups go -/

theorem fetch_waits {p : Pipe} {k : Bool} (h : fetch p k pc = some (ins, pc'))
    (hw : pc.Waits p) : pc'.Waits (ins.pipe p) := by
  unfold fetch pipewrite piperead pipeclose sleep at h
  repeat' split at h
  all_goals cases h
  all_goals simp_all [Pc.Waits, Instr.pipe, Pipe.blocks]

/-- A wakeup that is owed stays owed until it is made, or the call fails. -/
theorem fetch_owes {p : Pipe} {k : Bool} (h : fetch p k pc = some (ins, pc'))
    (ho : pc.owes c = true) : pc'.owes c = true ∨ ins = .wakeup c ∨ (pc.fails ∧ c = .nread) := by
  unfold fetch pipewrite piperead pipeclose sleep at h
  repeat' split at h
  all_goals cases h
  all_goals cases c <;> simp_all [Pc.owes, Pc.fails]

/-- An instruction that ends the reason to sleep makes its process owe the wakeup. -/
theorem fetch_unblocks {p : Pipe} {k : Bool} (h : fetch p k pc = some (ins, pc'))
    (hb : p.blocks c) (hb' : ¬ (ins.pipe p).blocks c) : pc'.owes c = true := by
  unfold fetch pipewrite piperead pipeclose sleep at h
  repeat' split at h
  all_goals cases h
  all_goals cases c <;> grind [Pc.owes, Instr.pipe, Pipe.blocks, Pipe.close, Pipe.full, Pipe.empty]

/-- The lock is given up for sleep only from inside `sleep`. -/
theorem fetch_sched {p : Pipe} {k : Bool} (h : fetch p k pc = some (ins, pc'))
    (hc : pc'.inSleep = some (c, .sched)) : ins = .release ∧ pc.inSleep = some (c, .release) := by
  unfold fetch pipewrite piperead pipeclose sleep at h
  repeat' split at h
  all_goals cases h
  all_goals simp_all [Pc.inSleep]

theorem fetch_sleep {p : Pipe} {k : Bool} (h : fetch p k pc = some (.sleep c, pc')) :
    pc.inSleep = some (c, .sched) := by
  unfold fetch pipewrite piperead pipeclose sleep at h
  repeat' split at h
  all_goals cases h
  all_goals rfl

/-- Whether `ptable.lock` is held after the instruction. -/
def Instr.ptableAfter : Instr → Bool → Bool
  | .ptable, _ => true
  | .sleep _, _ => false
  | _, l => l

theorem fetch_ptable {p : Pipe} {k : Bool} (h : fetch p k pc = some (ins, pc')) :
    pc'.ptable = ins.ptableAfter pc.ptable := by
  unfold fetch pipewrite piperead pipeclose sleep at h
  repeat' split at h
  all_goals cases h
  all_goals rfl

theorem Pc.locked_of_owes (h : pc.owes c = true) : pc.locked = true := by
  unfold Pc.owes at h
  repeat' split at h
  all_goals first | rfl | cases h

theorem Pc.Waits.blocks {p : Pipe} (h : pc.Waits p) (hc : pc.inSleep = some (c, .release)) :
    p.blocks c := by
  unfold Pc.inSleep at hc
  split at hc <;> cases hc <;> exact h

theorem Pc.ptable_of_sched (h : pc.inSleep = some (c, .sched)) : pc.ptable = true := by
  rw [Pc.ptable, h]

/-! ### The locks -/

/-- `ptable.lock` is held by the process that is in the middle of `sleep`. -/
def Sys.PtLocked (s : Sys P) : Prop := ∀ p, s.ptable = some p ↔ (s.proc p).pc.ptable = true

/-- Who has the lock of the table after an instruction. -/
theorem Sys.exec_ptable (hr : s.ready p ins) (hl : s.PtLocked)
    (hs : ∀ c, ins = .sleep c → (s.proc p).pc.ptable = true) (q : P) :
    (s.exec p ins).ptable = some q ↔
      if q = p then ins.ptableAfter (s.proc p).pc.ptable = true
      else (s.proc q).pc.ptable = true := by
  have hq := hl q
  have hp := hl p
  cases ins <;> grind [Sys.exec, Sys.ready, Sys.setProc, Sys.wakeup1, Instr.ptableAfter]

@[simp]
theorem Call.entry_ptable (c : Call) : c.entry.ptable = false := by
  cases c <;> rfl

@[simp]
theorem Pc.ptable_user (eax : ℤ) : (Pc.user eax).ptable = false := rfl

@[simp]
theorem Sys.setPc_ptable (s : Sys P) (p : P) (pc : Pc) : (s.setPc p pc).ptable = s.ptable := rfl

/-- The lock of the table stays with the process that is inside. -/
theorem Sys.PtLocked.step (hl : s.PtLocked) (h : s.step a = some t) : t.PtLocked := by
  obtain ⟨p, c, eax, -, hpc, rfl⟩ | ⟨p, ins, pc, -, hf, hr, rfl⟩ | ⟨p, -, -, rfl⟩ :=
    Sys.step_cases h
  · intro q
    have hq := hl q
    rw [Sys.setPc_pc]
    by_cases hqp : q = p
    · subst hqp
      rw [hpc] at hq
      simpa using hq
    · simpa [hqp] using hq
  · intro q
    have hs : ∀ c, ins = .sleep c → (s.proc p).pc.ptable = true := by
      rintro c rfl
      exact Pc.ptable_of_sched (fetch_sleep hf)
    have hq := Sys.exec_ptable hr hl hs q
    rw [Sys.setPc_pc]
    by_cases hqp : q = p
    · simpa [hqp, fetch_ptable hf] using hq
    · simpa [hqp] using hq
  · intro q
    rw [Sys.kill_pc]
    exact hl q

/-! ### Commitments -/

/-- Who sleeps after an instruction slept before, or begins to. -/
theorem Sys.exec_sleepsOn (h : ((s.exec p ins).proc q).sleepsOn c) :
    ((s.proc q).sleepsOn c ∧ ins ≠ .wakeup c) ∨ (q = p ∧ ins = .sleep c) := by
  cases ins with
  | sleep c' =>
      by_cases hq : q = p
      · simp_all [Sys.exec, Proc.sleepsOn]
      · simp_all [Sys.exec]
  | _ => grind [Sys.exec, Proc.sleepsOn]

@[simp]
theorem Sys.setPc_sleepsOn (s : Sys P) (p : P) (pc : Pc) (q : P) (c : Chan) :
    ((s.setPc p pc).proc q).sleepsOn c ↔ (s.proc q).sleepsOn c := by
  by_cases h : q = p <;> simp [Sys.setPc, Proc.sleepsOn, h]

/-- Who is committed to sleep on a channel after an instruction was so before, or has just given up
the lock; and a wakeup leaves nobody committed. -/
theorem Sys.commits_exec (hl : s.PtLocked) (hr : s.ready p ins) {k : Bool}
    (hf : fetch s.pipe k (s.proc p).pc = some (ins, pc))
    (hc : (((s.exec p ins).setPc p pc).proc q).Commits c) :
    ((s.proc q).Commits c ∧ ins ≠ .wakeup c) ∨
      (ins = .release ∧ (s.proc p).pc.inSleep = some (c, .release)) := by
  rcases hc with hc | hc
  · rw [Sys.setPc_pc, Sys.exec_pc] at hc
    split at hc
    · exact .inr (fetch_sched hf hc)
    · refine .inl ⟨.inl hc, ?_⟩
      -- `q` holds `ptable.lock`, so nobody can be inside `wakeup`
      rintro rfl
      have hq := (hl q).mpr (Pc.ptable_of_sched hc)
      have hn : s.ptable = none := hr
      simp [hn] at hq
  · rw [Sys.setPc_sleepsOn] at hc
    obtain ⟨h, hne⟩ | ⟨rfl, rfl⟩ := Sys.exec_sleepsOn hc
    · exact .inl ⟨.inr h, hne⟩
    · exact .inl ⟨.inl (fetch_sleep hf), by simp⟩

/-! ### No missed wakeup -/

/-- What processes on their way to sleep have found out is true. -/
structure Sys.Waiting (s : Sys P) : Prop where
  locked : s.Locked
  waits : ∀ p, (s.proc p).pc.Waits s.pipe

namespace Sys.Waiting

omit [DecidableEq P] in
theorem init (h : s.Init) : s.Waiting where
  locked := (Sys.Stream.init h).locked
  waits := by
    intro p
    obtain ⟨eax, hp⟩ := h.user p
    rw [hp]
    trivial

omit [DecidableEq P] in
/-- Others than the holder of the lock leave the pipe alone. -/
theorem pipe_eq (h : s.Waiting) {k : Bool} (hf : fetch s.pipe k (s.proc p).pc = some (ins, pc))
    (hp : (s.proc q).pc.locked = true) (hqp : q ≠ p) : ins.pipe s.pipe = s.pipe := by
  apply Instr.pipe_of_not_needsLock
  rw [← Bool.not_eq_true]
  intro hn
  have h1 := (h.locked p).mpr ((fetch_locked hf).2 hn)
  have h2 := (h.locked q).mpr hp
  exact hqp (Option.some.inj (h2.symm.trans h1))

/-- Whoever waits in the pipe has seen it full, or empty. -/
theorem step (h : s.Waiting) (hs : s.step a = some t) : t.Waiting := by
  refine ⟨h.locked.step hs, fun q => ?_⟩
  obtain ⟨p, c, eax, -, hpc, rfl⟩ | ⟨p, ins, pc, rfl, hf, hr, rfl⟩ | ⟨p, -, -, rfl⟩ :=
    Sys.step_cases hs
  · rw [Sys.setPc_pc, Sys.setPc_pipe]
    split
    · exact .of_not_locked (Call.entry_locked c)
    · exact h.waits q
  · rw [Sys.setPc_pc, Sys.exec_pc, Sys.setPc_pipe, Sys.exec_pipe]
    split
    · exact fetch_waits hf (h.waits p)
    · rename_i hq
      cases hlq : (s.proc q).pc.locked with
      | false => exact .of_not_locked hlq
      | true => rw [h.pipe_eq hf hlq hq]; exact h.waits q
  · rw [Sys.kill_pc]
    exact h.waits q

end Sys.Waiting

/-- The invariant: `ptable.lock`, what processes on their way to sleep know, and that every
process committed to sleep is rightly so or has its wakeup coming. -/
structure Sys.Woken (s : Sys P) : Prop where
  waiting : s.Waiting
  ptable : s.PtLocked
  owed : ∀ q c, (s.proc q).Commits c →
    s.pipe.blocks c ∨ ∃ p, s.lock = some p ∧ (s.proc p).pc.owes c = true

/-- The step is not the silent exit of a `pipewrite`, its `return -1`, with a process waiting for
data. -/
def Sys.NotSilent (s : Sys P) : Act P → Prop
  | .run p => (s.proc p).pc.fails = true → ∀ q, ¬ (s.proc q).Commits .nread
  | _ => True

namespace Sys.Woken

omit [DecidableEq P] in
/-- At the start nobody sleeps. -/
theorem init (h : s.Init) : s.Woken where
  waiting := .init h
  ptable := by
    intro p
    obtain ⟨eax, hp⟩ := h.user p
    simp [h.ptable, hp]
  owed := by
    intro q c hc
    obtain ⟨eax, hp⟩ := h.user q
    simp [Proc.Commits, Proc.sleepsOn, hp, h.awake q, Pc.inSleep] at hc

/-- One instruction of `p`: either the reason to sleep is unchanged or `p` now owes the wakeup;
and an owed wakeup stays owed. -/
theorem owed_exec (h : s.Woken) {k : Bool}
    (hf : fetch s.pipe k (s.proc p).pc = some (ins, pc)) (hr : s.ready p ins)
    (hns : (s.proc p).pc.fails = true → ∀ q, ¬ (s.proc q).Commits .nread)
    (hl : ((s.exec p ins).setPc p pc).Locked) (hc : (((s.exec p ins).setPc p pc).proc q).Commits c) :
    (ins.pipe s.pipe).blocks c ∨ ∃ r, ((s.exec p ins).setPc p pc).lock = some r ∧
      (((s.exec p ins).setPc p pc).proc r).pc.owes c = true := by
  -- whoever owes holds the lock
  have howes : ∀ r, (((s.exec p ins).setPc p pc).proc r).pc.owes c = true →
      ∃ r, ((s.exec p ins).setPc p pc).lock = some r ∧
        (((s.exec p ins).setPc p pc).proc r).pc.owes c = true :=
    fun r hr => ⟨r, (hl r).mpr (Pc.locked_of_owes hr), hr⟩
  obtain ⟨hcq, hne⟩ | ⟨rfl, hcp⟩ := Sys.commits_exec h.ptable hr hf hc
  · obtain hb | ⟨r, hlr, hor⟩ := h.owed q c hcq
    · by_cases hb' : (ins.pipe s.pipe).blocks c
      · exact .inl hb'
      · refine .inr (howes p ?_)
        simpa using fetch_unblocks hf hb hb'
    · refine .inr (howes r ?_)
      by_cases hrp : r = p
      · subst hrp
        obtain ho | hw | ⟨hfail, rfl⟩ := fetch_owes hf hor
        · simpa using ho
        · exact absurd hw hne
        · exact absurd hcq (hns hfail q)
      · simpa [hrp] using hor
  · exact .inl ((h.waiting.waits p).blocks hcp)

omit [DecidableEq P] in
/-- A step that leaves the pipe and the lock alone, changes no counter of the holder of the lock
and commits nobody to sleep. -/
theorem owed_quiet (h : s.Woken) (hpc : ∀ q, (s.proc q).pc.locked = true →
      (t.proc q).pc = (s.proc q).pc)
    (hc : ∀ q c, (t.proc q).Commits c → (s.proc q).Commits c) (hq : (t.proc q).Commits c) :
    s.pipe.blocks c ∨ ∃ p, s.lock = some p ∧ (t.proc p).pc.owes c = true := by
  refine (h.owed q c (hc q c hq)).imp_right fun ⟨r, hlr, hor⟩ => ⟨r, hlr, ?_⟩
  rwa [hpc r (Pc.locked_of_owes hor)]

/-- Every step but a silent return keeps the wakeups. -/
theorem step (h : s.Woken) (hns : s.NotSilent a) (hs : s.step a = some t) : t.Woken := by
  have hw := h.waiting.step hs
  refine ⟨hw, h.ptable.step hs, fun q d hq => ?_⟩
  obtain ⟨p, c, eax, -, hpc, rfl⟩ | ⟨p, ins, pc, rfl, hf, hr, rfl⟩ | ⟨p, -, -, rfl⟩ :=
    Sys.step_cases hs
  · refine h.owed_quiet (t := s.setPc p c.entry) (fun q hlq => ?_) (fun q d hq => ?_) hq
    · have hqp : q ≠ p := by
        rintro rfl
        simp [hpc] at hlq
      simp [hqp]
    · rw [Proc.Commits, Sys.setPc_sleepsOn, Sys.setPc_pc] at hq
      split at hq
      · exact .inr (hq.resolve_left (by cases c <;> simp [Call.entry, Pc.inSleep]))
      · exact hq
  · rw [Sys.setPc_pipe, Sys.exec_pipe]
    exact h.owed_exec hf hr hns hw.locked hq
  · refine h.owed_quiet (t := s.kill p) (fun q _ => Sys.kill_pc s p q) (fun q c hq => ?_) hq
    rw [Proc.Commits, Sys.kill_pc] at hq
    refine hq.imp_right fun hq => ?_
    by_cases hqp : q = p
    · simp [hqp, Sys.kill, Proc.sleepsOn] at hq
    · simpa [hqp, Sys.kill] using hq

end Sys.Woken

/-- **No missed wakeup.**  In every run where no `pipewrite` takes its silent exit while a process
waits for data, whenever the lock is free a process asleep on `&p->nread` faces an empty pipe with
its write end open, and one asleep on `&p->nwrite` a full pipe with its read end open. -/
theorem no_missed_wakeup {s₀ s : Sys P} {as : List (Act P)} (h₀ : s₀.Init)
    (hrun : Run (fun s a t => s.NotSilent a ∧ s.Step a t) s₀ as s) (hl : s.lock = none) (p : P) :
    ((s.proc p).sleepsOn .nread → s.pipe.empty ∧ s.pipe.writeopen = true) ∧
    ((s.proc p).sleepsOn .nwrite → s.pipe.full ∧ s.pipe.readopen = true) := by
  have h : s.Woken := hrun.inv (fun _ _ _ hs h => h.step hs.1 hs.2) (.init h₀)
  have hb : ∀ c, (s.proc p).sleepsOn c → s.pipe.blocks c := by
    intro c hc
    obtain hb | ⟨r, hr, -⟩ := h.owed p c (.inr hc)
    · exact hb
    · simp [hl] at hr
  exact ⟨hb .nread, hb .nwrite⟩

instance [Fintype P] (s : Sys P) (a : Act P) : Decidable (s.NotSilent a) := by
  cases a <;> unfold Sys.NotSilent <;> infer_instance

/-- A reader goes to sleep on the empty pipe. -/
theorem no_missed_wakeup_reader : ∃ s : Sys Bool,
    Run (fun s a t => s.NotSilent a ∧ s.Step a t) fresh
      (.call true (.piperead 1) :: List.replicate 6 (.run true)) s ∧
    (s.proc true).sleepsOn .nread ∧ s.pipe.empty ∧ s.pipe.writeopen = true := by
  have hend : (((Act.call true (.piperead 1) :: List.replicate 6 (.run true)).foldlM
      (fun (s : Sys Bool) a => if s.NotSilent a then s.step a else none) fresh).any fun s =>
      s.lock = none ∧ (s.proc true).sleepsOn .nread) = true := by decide +kernel
  obtain ⟨s, hs, hd⟩ := (Option.any_eq_true _ _).mp hend
  obtain ⟨hl, hq⟩ := of_decide_eq_true hd
  have hrun : Run (fun s a t => s.NotSilent a ∧ s.Step a t) fresh _ s :=
    (Run.of_foldlM hs).mono fun a _ s t h => by simpa [Sys.Step] using h
  exact ⟨s, hrun, hq, (no_missed_wakeup fresh_init hrun hl true).1 hq⟩

theorem Pipe.not_empty_of_full {p : Pipe} (h : p.full) : ¬ p.empty := by
  intro he
  have hn := congrArg UInt32.toNat (h.symm.trans he.symm)
  rw [UInt32.toNat_add, UInt32.toNat_ofNat', PIPESIZE] at hn
  have := p.nread.toNat_lt
  omega

/-- The silent exit, taken while a process is asleep waiting for data, leaves it asleep before a
full pipe with the lock free. -/
theorem silent_exit_misses {s₀ s t : Sys P} {as : List (Act P)} (h₀ : s₀.Init)
    (hrun : Run Sys.Step s₀ as s) (hp : (s.proc p).pc.fails = true)
    (hq : (s.proc q).sleepsOn .nread) (hs : s.Step (.run p) t) :
    t.lock = none ∧ (t.proc q).sleepsOn .nread ∧ ¬ t.pipe.empty := by
  have hw : s.Waiting := hrun.inv (fun _ _ _ hs h => h.step hs) (.init h₀)
  have hwp := hw.waits p
  obtain ⟨p', c, eax, he, -, -⟩ | ⟨p', ins, pc, he, hf, -, rfl⟩ | ⟨p', he, -, -⟩ :=
    Sys.step_cases hs
  · cases he
  · cases he
    unfold Pc.fails at hp
    split at hp
    · rename_i hpc
      rw [hpc] at hf hwp
      cases hf
      exact ⟨rfl, (Sys.setPc_sleepsOn ..).mpr hq, Pipe.not_empty_of_full hwp⟩
    · cases hp
  · cases he

/-! ### The silent exit -/

/-- A killed writer `p` is in a call of `PIPESIZE + 1` bytes, at `k`, and has stored `m` of them
into the empty pipe; `q` is asleep waiting for data. -/
structure Filling (s : Sys P) (p q : P) (m : ℕ) (k : WritePc) : Prop where
  freed : s.freed = false
  pc : (s.proc p).pc = .pipewrite (fun _ => 0) (PIPESIZE + 1) m k
  killed : (s.proc p).killed = true
  sleeps : (s.proc q).sleepsOn .nread
  readopen : s.pipe.readopen = true
  nread : s.pipe.nread = 0
  nwrite : s.pipe.nwrite = UInt32.ofNat m

theorem Sys.step_run (hs : s.freed = false)
    (hf : fetch s.pipe (s.proc p).killed (s.proc p).pc = some (ins, pc)) (hr : s.ready p ins) :
    s.Step (.run p) ((s.exec p ins).setPc p pc) := by
  simp [Sys.Step, Sys.step, hs, hf, hr, guard]

@[simp]
theorem Sys.setPc_killed (s : Sys P) (p : P) (pc : Pc) (q : P) :
    ((s.setPc p pc).proc q).killed = (s.proc q).killed := by
  by_cases h : q = p <;> simp [Sys.setPc, h]

namespace Filling

variable {m : ℕ} {k k' : WritePc}

omit [DecidableEq P] in
theorem full_iff (h : Filling s p q m k) (hm : m ≤ PIPESIZE) : s.pipe.full ↔ m = PIPESIZE := by
  have hp : PIPESIZE < 2 ^ 32 := by decide
  rw [Pipe.full, h.nread, h.nwrite, UInt32.zero_add, eq_comm, Ring.ofNat_eq_iff hm (by omega),
    eq_comm]

theorem nop (h : Filling s p q m k)
    (hf : pipewrite s.pipe true (fun _ => 0) (PIPESIZE + 1) m k =
      (.nop, .pipewrite (fun _ => 0) (PIPESIZE + 1) m k')) :
    ∃ t, s.Step (.run p) t ∧ Filling t p q m k' := by
  have hf' : fetch s.pipe (s.proc p).killed (s.proc p).pc =
      some (.nop, .pipewrite (fun _ => 0) (PIPESIZE + 1) m k') := by
    rw [h.pc, h.killed, fetch, hf]
  refine ⟨_, Sys.step_run h.freed hf' trivial,
    ⟨h.freed, by simp, ?_, ?_, h.readopen, h.nread, h.nwrite⟩⟩
  · simpa [Sys.exec] using h.killed
  · simpa [Sys.exec] using h.sleeps

/-- One byte more is written. -/
theorem store (h : Filling s p q m .full) (hm : m < PIPESIZE) :
    ∃ t, s.Step (.run p) t ∧ Filling t p q (m + 1) .loop := by
  have hfull : ¬ s.pipe.full := by rw [h.full_iff hm.le]; omega
  have hf : fetch s.pipe (s.proc p).killed (s.proc p).pc =
      some (.store 0, .pipewrite (fun _ => 0) (PIPESIZE + 1) (m + 1) .loop) := by
    rw [h.pc, fetch, pipewrite, if_neg hfull]
  refine ⟨_, Sys.step_run h.freed hf trivial,
    ⟨h.freed, by simp, ?_, ?_, h.readopen, h.nread, ?_⟩⟩
  · simpa [Sys.exec] using h.killed
  · simpa [Sys.exec] using h.sleeps
  · simp [Sys.exec, Pipe.store, h.nwrite, UInt32.ofNat_add]

theorem loop (h : Filling s p q m .loop) (hm : m ≤ PIPESIZE) :
    ∃ t, s.Step (.run p) t ∧ Filling t p q m .full := by
  apply h.nop
  have hlt : (m : ℤ) < PIPESIZE + 1 := by omega
  rw [pipewrite, if_pos hlt]

/-- The ring is filled, byte by byte. -/
theorem run (h : Filling s p q 0 .loop) {m : ℕ} (hm : m ≤ PIPESIZE) :
    ∃ as t, Run Sys.Step s as t ∧ Filling t p q m .loop := by
  induction m with
  | zero => exact ⟨[], s, .nil s, h⟩
  | succ m ih =>
      obtain ⟨as, t, hr, ht⟩ := ih (by omega)
      obtain ⟨t₁, h₁, ht⟩ := ht.loop (by omega)
      obtain ⟨t₂, h₂, ht⟩ := ht.store hm
      exact ⟨_, t₂, (hr.snoc h₁).snoc h₂, ht⟩

/-- With the pipe full the writer finds itself killed and leaves. -/
theorem exits (h : Filling s p q PIPESIZE .loop) :
    ∃ as t u, Run Sys.Step s as t ∧ Filling t p q PIPESIZE .fail ∧ t.Step (.run p) u := by
  obtain ⟨t₁, h₁, ht⟩ := h.loop le_rfl
  obtain ⟨t₂, h₂, ht⟩ := ht.nop (by rw [pipewrite, if_pos ((ht.full_iff le_rfl).mpr rfl)])
  obtain ⟨t₃, h₃, ht⟩ := ht.nop (by rw [pipewrite, if_pos ht.readopen])
  obtain ⟨t₄, h₄, ht⟩ := ht.nop (by rw [pipewrite, if_pos rfl])
  have hf : fetch t₄.pipe (t₄.proc p).killed (t₄.proc p).pc = some (.release, .user (-1)) := by
    rw [ht.pc, fetch, pipewrite]
  exact ⟨_, t₄, _, ((((Run.nil s).snoc h₁).snoc h₂).snoc h₃).snoc h₄, ht,
    Sys.step_run ht.freed hf trivial⟩

end Filling

/-- A reader goes to sleep on the empty pipe; then a writer is killed, and calls `pipewrite` all
the same. -/
def reader : List (Act Bool) :=
  [.call true (.piperead 1)] ++ List.replicate 6 (.run true) ++
  [.kill false, .call false (.pipewrite (fun _ => 0) (PIPESIZE + 1)), .run false]

theorem filling_reader : ∃ s, Run Sys.Step fresh reader s ∧ Filling s false true 0 .loop :=
  ⟨_, Run.of_foldlM rfl, rfl, rfl, rfl, ⟨rfl, rfl⟩, rfl, rfl, rfl⟩

/-- A killed writer that fills the pipe leaves the reader asleep before `PIPESIZE` bytes. -/
theorem reader_missed : ∃ (as : List (Act Bool)) (s : Sys Bool), Run Sys.Step fresh as s ∧
    s.lock = none ∧ (s.proc true).sleepsOn .nread ∧ ¬ s.pipe.empty := by
  obtain ⟨s₁, hr₁, h₁⟩ := filling_reader
  obtain ⟨as₂, s₂, hr₂, h₂⟩ := h₁.run le_rfl
  obtain ⟨as₃, s₃, s₄, hr₃, h₃, hs⟩ := h₂.exits
  have hr := (hr₁.append hr₂).append hr₃
  have hf : (s₃.proc false).pc.fails = true := by rw [h₃.pc]; rfl
  exact ⟨_, s₄, hr.snoc hs, silent_exit_misses fresh_init hr hf h₃.sleeps hs⟩

end Xv6.Pipe
