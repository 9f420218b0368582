import Xv6.Lib.Partial
import Xv6.Lib.Ring
import Xv6.Pipe.Basic

/-!
# Pipes — stream integrity

The bytes that come out of a pipe are the bytes that went in, in order, whatever the schedule.
The counters wrap, so the invariant speaks of the two histories instead: `nread` and `nwrite`
are their lengths modulo `2 ^ 32`, and the ring holds the accepted bytes that are not delivered
yet (`Lib.Ring.Holds`).  Only the holder of the lock touches the pipe (`Sys.Locked`), so what
a reader has found out about the pipe stays true until it releases the lock.
-/

namespace Xv6.Pipe

open Lib

variable {P : Type} [DecidableEq P] {s t u : Sys P} {p q : P} {a : Act P} {ins : Instr}
  {pc pc' : Pc}

/-! ### What a step is -/

/-- Everything a step can be. -/
theorem Sys.step_cases (h : s.step a = some t) :
    (∃ p c eax, a = .call p c ∧ (s.proc p).pc = .user eax ∧ t = s.setPc p c.entry) ∨
    (∃ p ins pc, a = .run p ∧ fetch s.pipe (s.proc p).killed (s.proc p).pc = some (ins, pc) ∧
      s.ready p ins ∧ t = (s.exec p ins).setPc p pc) ∨
    (∃ p, a = .kill p ∧ s.ptable = none ∧ t = s.kill p) := by
  cases a with
  | call p c =>
      simp only [Sys.step] at h
      split at h
      · rename_i eax hpc
        split at h
        · cases h
        · exact .inl ⟨p, c, eax, rfl, hpc, (Option.some.inj h).symm⟩
      · cases h
  | run p =>
      simp only [Sys.step, Option.bind_eq_bind, Option.bind_eq_some_iff, guard_eq_some] at h
      obtain ⟨-, -, ⟨ins, pc⟩, hf, -, hr, h⟩ := h
      exact .inr (.inl ⟨p, ins, pc, rfl, hf, hr, (Option.some.inj h).symm⟩)
  | kill p =>
      simp only [Sys.step] at h
      split at h
      · exact .inr (.inr ⟨p, rfl, ‹_›, (Option.some.inj h).symm⟩)
      · cases h

@[simp, grind =]
theorem Sys.setProc_proc (s : Sys P) (p : P) (x : Proc) (q : P) :
    (s.setProc p x).proc q = if q = p then x else s.proc q := Function.update_apply ..

omit [DecidableEq P] in
@[simp, grind =]
theorem Sys.wakeup1_proc (s : Sys P) (c : Chan) (q : P) :
    (s.wakeup1 c).proc q =
      if (s.proc q).sleepsOn c then { s.proc q with asleep := false } else s.proc q := rfl

@[simp]
theorem Sys.setPc_pc (s : Sys P) (p : P) (pc : Pc) (q : P) :
    ((s.setPc p pc).proc q).pc = if q = p then pc else (s.proc q).pc := by
  by_cases h : q = p <;> simp [Sys.setPc, h]

@[simp]
theorem Sys.setPc_pipe (s : Sys P) (p : P) (pc : Pc) : (s.setPc p pc).pipe = s.pipe := rfl

@[simp]
theorem Sys.setPc_lock (s : Sys P) (p : P) (pc : Pc) : (s.setPc p pc).lock = s.lock := rfl

@[simp]
theorem Sys.kill_pc (s : Sys P) (p q : P) : ((s.kill p).proc q).pc = (s.proc q).pc := by
  by_cases h : q = p <;> simp [Sys.kill, h]

@[simp]
theorem Sys.exec_pc (s : Sys P) (p : P) (ins : Instr) (q : P) :
    ((s.exec p ins).proc q).pc = (s.proc q).pc := by
  cases ins with
  | sleep c => by_cases h : q = p <;> simp [Sys.exec, h]
  | _ => grind [Sys.exec]

/-! ### The lock -/

/-- Between `acquire(lk)` and `release(lk)`. -/
def SleepPc.locked : SleepPc → Bool
  | .ptable | .release => true
  | .sched | .away | .acquire => false

/-- The process has the lock of the pipe. -/
def Pc.locked : Pc → Bool
  | .user _ => false
  | .pipewrite _ _ _ k =>
      match k with
      | .acquire => false
      | .sleep k => k.locked
      | .loop | .full | .readopen | .killed | .fail | .wakeFull | .wakeDone | .release => true
  | .piperead _ _ _ k =>
      match k with
      | .acquire => false
      | .sleep k => k.locked
      | .empty | .killed | .fail | .loop | .wakeup | .release => true
  | .pipeclose _ k =>
      match k with
      | .acquire => false
      | .clear | .wakeup | .release => true

@[simp]
theorem Pc.locked_user (eax : ℤ) : (Pc.user eax).locked = false := rfl

/-- Whether the lock is held after the instruction. -/
def Instr.lockAfter : Instr → Bool → Bool
  | .acquire, _ => true
  | .release, _ | .kfree, _ => false
  | _, l => l

/-- The instructions that need the lock. -/
def Instr.needsLock : Instr → Bool
  | .release | .kfree | .store _ | .load | .close _ => true
  | .nop | .acquire | .ptable | .sleep _ | .resume | .wakeup _ => false

theorem fetch_locked {p : Pipe} {k : Bool} (h : fetch p k pc = some (ins, pc')) :
    pc'.locked = ins.lockAfter pc.locked ∧ (ins.needsLock → pc.locked) := by
  unfold fetch pipewrite piperead pipeclose sleep at h
  repeat' split at h
  all_goals cases h
  all_goals simp [Pc.locked, SleepPc.locked, Instr.lockAfter, Instr.needsLock]

/-- The lock is held by the process that is between acquire and release. -/
def Sys.Locked (s : Sys P) : Prop := ∀ p, s.lock = some p ↔ (s.proc p).pc.locked = true

/-- Who has the lock of the pipe after an instruction. -/
theorem Sys.exec_lock (hr : s.ready p ins) (hl : s.Locked)
    (hn : ins.needsLock → (s.proc p).pc.locked) (q : P) :
    (s.exec p ins).lock = some q ↔
      if q = p then ins.lockAfter (s.proc p).pc.locked = true else (s.proc q).pc.locked = true := by
  have hq := hl q
  have hp := hl p
  cases ins <;>
    grind [Sys.exec, Sys.ready, Sys.setProc, Sys.wakeup1, Instr.lockAfter, Instr.needsLock]

@[simp]
theorem Call.entry_locked (c : Call) : c.entry.locked = false := by
  cases c <;> rfl

/-- The lock of the pipe stays with the process that is inside. -/
theorem Sys.Locked.step (hl : s.Locked) (h : s.step a = some t) : t.Locked := by
  obtain ⟨p, c, eax, -, hpc, rfl⟩ | ⟨p, ins, pc, -, hf, hr, rfl⟩ | ⟨p, -, -, rfl⟩ :=
    Sys.step_cases h
  · intro q
    have hq := hl q
    by_cases hqp : q = p
    · subst hqp
      rw [hpc] at hq
      simpa using hq
    · simpa [hqp] using hq
  · intro q
    obtain ⟨h1, h2⟩ := fetch_locked hf
    rw [Sys.setPc_lock, Sys.exec_lock hr hl h2, Sys.setPc_pc]
    by_cases hqp : q = p
    · simp [hqp, h1]
    · simp [hqp]
  · intro q
    rw [Sys.kill_pc]
    exact hl q

/-! ### What a process knows about the pipe -/

/-- What holds of the pipe at a counter of `piperead`: the copying loop is entered only with
something to read or with the write end closed, so a read that copied nothing although it was
asked to has found the pipe drained for good. -/
def Pc.Knows (p : Pipe) : Pc → Prop
  | .piperead _ _ i .loop => i = 0 → ¬ (p.empty ∧ p.writeopen)
  | .piperead _ n i .wakeup | .piperead _ n i .release =>
      i = 0 → 0 < n → p.empty ∧ p.writeopen = false
  | _ => True

theorem Pc.Knows.of_not_locked {p : Pipe} (h : pc.locked = false) : pc.Knows p := by
  cases pc with
  | piperead addr n i k => cases k <;> simp_all [Pc.Knows, Pc.locked]
  | _ => trivial

/-- The pipe after an instruction. -/
def Instr.pipe (p : Pipe) : Instr → Pipe
  | .store b => p.store b
  | .load => p.load
  | .close writable => p.close writable
  | .nop | .acquire | .release | .kfree | .ptable | .sleep _ | .resume | .wakeup _ => p

@[simp]
theorem Sys.exec_pipe (s : Sys P) (p : P) (ins : Instr) :
    (s.exec p ins).pipe = ins.pipe s.pipe := by
  cases ins <;> rfl

theorem Instr.pipe_of_not_needsLock {p : Pipe} (h : ins.needsLock = false) : ins.pipe p = p := by
  cases ins <;> simp_all [Instr.pipe, Instr.needsLock]

theorem fetch_knows {p : Pipe} {k : Bool} (h : fetch p k pc = some (ins, pc'))
    (hk : pc.Knows p) : pc'.Knows (ins.pipe p) := by
  unfold fetch pipewrite piperead pipeclose sleep at h
  repeat' split at h
  all_goals cases h
  all_goals first | trivial | grind [Pc.Knows, Instr.pipe]

theorem fetch_store {p : Pipe} {k : Bool} {b : UInt8} (h : fetch p k pc = some (.store b, pc')) :
    ¬ p.full := by
  unfold fetch pipewrite piperead pipeclose sleep at h
  repeat' split at h
  all_goals cases h
  assumption

theorem fetch_load {p : Pipe} {k : Bool} (h : fetch p k pc = some (.load, pc')) :
    ¬ p.empty := by
  unfold fetch pipewrite piperead pipeclose sleep at h
  repeat' split at h
  all_goals cases h
  exact And.right ‹_›

/-! ### The stream -/

/-- The invariant of a pipe: the lock, the two counters as lengths of the histories, the ring, and
what the processes inside `piperead` know. -/
structure Sys.Stream (s : Sys P) : Prop where
  locked : s.Locked
  nread : s.pipe.nread = UInt32.ofNat s.delivered.length
  nwrite : s.pipe.nwrite = UInt32.ofNat s.accepted.length
  holds : Ring.Holds PIPESIZE s.pipe.data s.accepted s.delivered
  knows : ∀ p, (s.proc p).pc.Knows s.pipe

namespace Sys.Stream

omit [DecidableEq P] in
theorem lengths (h : s.Stream) : s.delivered.length ≤ s.accepted.length ∧
    s.accepted.length ≤ s.delivered.length + PIPESIZE :=
  ⟨h.holds.got_prefix.length_le, h.holds.room⟩

omit [DecidableEq P] in
theorem empty_iff (h : s.Stream) : s.pipe.empty ↔ s.accepted.length = s.delivered.length := by
  have hl := h.lengths
  have hp : PIPESIZE < 2 ^ 32 := by decide
  rw [Pipe.empty, h.nread, h.nwrite, eq_comm, Ring.ofNat_eq_iff hl.1 (by omega)]

omit [DecidableEq P] in
theorem full_iff (h : s.Stream) :
    s.pipe.full ↔ s.accepted.length = s.delivered.length + PIPESIZE := by
  have hl := h.lengths
  have hp : PIPESIZE < 2 ^ 32 := by decide
  rw [Pipe.full, h.nread, h.nwrite, ← UInt32.ofNat_add, eq_comm,
    Ring.ofNat_eq_iff hl.2 (by omega), eq_comm]

omit [DecidableEq P] in
theorem front_eq (h : s.Stream) :
    s.pipe.front = s.pipe.data (s.delivered.length % PIPESIZE) := by
  rw [Pipe.front, h.nread, Ring.toNat_mod (by decide)]

omit [DecidableEq P] in
/-- A byte goes to the end of the stream. -/
theorem store (h : s.Stream) (hf : ¬ s.pipe.full) (b : UInt8) :
    Ring.Holds PIPESIZE (s.pipe.store b).data (s.accepted ++ [b]) s.delivered := by
  have hr : s.accepted.length < s.delivered.length + PIPESIZE := by
    rw [h.full_iff] at hf
    have := h.lengths
    omega
  have hi : s.pipe.nwrite.toNat % PIPESIZE = s.accepted.length % PIPESIZE := by
    rw [h.nwrite, Ring.toNat_mod (by decide)]
  rw [Pipe.store, hi]
  exact h.holds.push hr b

omit [DecidableEq P] in
/-- A byte comes from the front of the stream. -/
theorem load (h : s.Stream) (he : ¬ s.pipe.empty) :
    Ring.Holds PIPESIZE s.pipe.data s.accepted (s.delivered ++ [s.pipe.front]) := by
  have hl : s.delivered.length < s.accepted.length := by
    rw [h.empty_iff] at he
    have := h.lengths
    omega
  rw [h.front_eq]
  exact h.holds.pop hl

/-- What an instruction does to the counters, the ring and the histories. -/
theorem exec (h : s.Stream) {k : Bool} (hf : fetch s.pipe k (s.proc p).pc = some (ins, pc)) :
    (ins.pipe s.pipe).nread = UInt32.ofNat (s.exec p ins).delivered.length ∧
    (ins.pipe s.pipe).nwrite = UInt32.ofNat (s.exec p ins).accepted.length ∧
    Ring.Holds PIPESIZE (ins.pipe s.pipe).data (s.exec p ins).accepted
      (s.exec p ins).delivered := by
  cases ins with
  | store b =>
      refine ⟨h.nread, ?_, h.store (fetch_store hf) b⟩
      simp [Instr.pipe, Pipe.store, Sys.exec, h.nwrite, UInt32.ofNat_add]
  | load =>
      refine ⟨?_, h.nwrite, h.load (fetch_load hf)⟩
      simp [Instr.pipe, Pipe.load, Sys.exec, h.nread, UInt32.ofNat_add]
  | close w => cases w <;> exact ⟨h.nread, h.nwrite, h.holds⟩
  | _ => exact ⟨h.nread, h.nwrite, h.holds⟩

/-- Nobody but the holder of the lock changes the pipe, so what others know stays true. -/
theorem knows_exec (h : s.Stream) {k : Bool}
    (hf : fetch s.pipe k (s.proc p).pc = some (ins, pc)) (q : P) :
    (((s.exec p ins).setPc p pc).proc q).pc.Knows (ins.pipe s.pipe) := by
  rw [Sys.setPc_pc, Sys.exec_pc]
  split
  · rename_i hq
    exact fetch_knows hf (h.knows p)
  · rename_i hq
    cases hn : ins.needsLock with
    | false => rw [Instr.pipe_of_not_needsLock hn]; exact h.knows q
    | true =>
        apply Pc.Knows.of_not_locked
        have hp := (h.locked p).mpr ((fetch_locked hf).2 hn)
        have hlq := h.locked q
        rw [hp] at hlq
        exact Bool.eq_false_iff.mpr fun hc => hq (Option.some.inj (hlq.mpr hc)).symm

/-- Every step keeps the stream: what was read, and what is in the ring, is what was written. -/
theorem step (h : s.Stream) (hs : s.step a = some t) : t.Stream := by
  have hl := h.locked.step hs
  obtain ⟨p, c, eax, -, hpc, rfl⟩ | ⟨p, ins, pc, -, hf, hr, rfl⟩ | ⟨p, -, -, rfl⟩ :=
    Sys.step_cases hs
  · refine ⟨hl, h.nread, h.nwrite, h.holds, fun q => ?_⟩
    rw [Sys.setPc_pc, Sys.setPc_pipe]
    split
    · exact Pc.Knows.of_not_locked (Call.entry_locked c)
    · exact h.knows q
  · obtain ⟨hnr, hnw, hh⟩ := h.exec hf
    have hpipe : ((s.exec p ins).setPc p pc).pipe = ins.pipe s.pipe := by simp
    refine ⟨hl, ?_, ?_, ?_, ?_⟩
    · rw [hpipe]; exact hnr
    · rw [hpipe]; exact hnw
    · rw [hpipe]; exact hh
    · rw [hpipe]; exact h.knows_exec hf
  · refine ⟨hl, h.nread, h.nwrite, h.holds, fun q => ?_⟩
    rw [Sys.kill_pc]
    exact h.knows q

omit [DecidableEq P] in
/-- At the start nothing was written. -/
theorem init (h : s.Init) : s.Stream where
  locked := by
    intro p
    obtain ⟨eax, hp⟩ := h.user p
    simp [h.lock, hp]
  nread := by rw [h.nread, h.delivered]; rfl
  nwrite := by rw [h.nwrite, h.accepted]; rfl
  holds := by rw [h.accepted, h.delivered]; exact .nil _ _
  knows := by
    intro p
    obtain ⟨eax, hp⟩ := h.user p
    rw [hp]
    trivial

end Sys.Stream

/-- Two processes on a fresh pipe. -/
def fresh : Sys Bool where
  pipe := ⟨fun _ => 0, 0, 0, true, true⟩
  lock := none
  ptable := none
  freed := false
  proc := fun _ => ⟨.user 0, false, none, false⟩
  accepted := []
  delivered := []

theorem fresh_init : fresh.Init :=
  ⟨rfl, rfl, rfl, rfl, rfl, rfl, rfl, fun _ => ⟨0, rfl⟩, fun _ => rfl, rfl, rfl⟩

/-- A write of two bytes and its close, a read of both, and a second read, which is about to
return `0`. -/
def twoBytes : List (Act Bool) :=
  [.call false (.pipewrite (fun i => if i = 0 then 7 else 8) 2)] ++ List.replicate 8 (.run false) ++
  [.call false (.pipeclose true)] ++ List.replicate 4 (.run false) ++
  [.call true (.piperead 5)] ++ List.replicate 7 (.run true) ++
  [.call true (.piperead 5)] ++ List.replicate 4 (.run true)

/-- The last return value of a process outside `pipe.c`. -/
def Pc.eax : Pc → Option ℤ
  | .user eax => some eax
  | _ => none

/-- Whether the process is in a `piperead` of at least one byte. -/
def Pc.reads : Pc → Bool
  | .piperead _ n _ _ => 0 < n
  | _ => false

end Xv6.Pipe
