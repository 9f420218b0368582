import Xv6.Ide.Driver
import Xv6.Lib.Partial
import Xv6.Lib.Runs

/-!
# The disk driver — schedules

Calls of `iderw` on distinct buffers of disk 1, in any interleaving with each other and with the
interrupts of a disk that makes no errors and raises one interrupt for each command it is given.
The buffers are recorded as their requests are inserted, served and returned from, and the
commands as the disk is given them.

* `driver_refines_memide` — the requests are started one at a time, in the order of their
  insertion, and have the effect of the calls of `memide.c` in that order.
-/

namespace Xv6.Ide

open Lib (Run guard_eq_some toOption_eq_some)

/-- The driver, with the buffers that were queued, started, served and handed back. -/
structure Calls where
  driver : Driver
  inserted : List (Fin NBUF)
  started : List Command
  served : List (Fin NBUF)
  returned : List (Fin NBUF)

namespace Calls

/-- No call has been made. -/
def init (d : Driver) : Calls := ⟨d, [], [], [], []⟩

/-- The command the driver has given a disk that was at work on `command`. -/
def issued (command : Option Command) (d : Driver) : List Command :=
  if d.controller.command = command then [] else d.controller.command.toList

/-- A block of disk 1, which has `size` blocks. -/
def InRange (size : ℕ) (b : Buf) : Prop := b.dev = 1 ∧ b.blockno < size ∧ b.blockno < FSSIZE

instance (size : ℕ) (b : Buf) : Decidable (InRange size b) := by unfold InRange; infer_instance

/-- Process `p` calls `iderw` on a buffer that has not been in a call. -/
def call (size : ℕ) (s : Calls) (p : Pid) (i : Fin NBUF) (polls : List (BitVec 8)) :
    Option Calls := do
  guard (i ∉ s.inserted ∧ InRange size (s.driver.buf i))
  let d ← (s.driver.iderw p i polls).toOption
  return { s with
    driver := d
    inserted := s.inserted ++ [i]
    started := s.started ++ issued s.driver.controller.command d }

/-- The interrupt of the command the disk works on; there has been no error. -/
def interrupt (s : Calls) (polls polls' : List (BitVec 8)) (junk : Block) : Option Calls := do
  guard (s.driver.controller.command.isSome ∧ (polls.find? ready).all fun r => !failed r)
  let d ← (s.driver.interrupt polls polls' junk).toOption
  return { s with
    driver := d
    started := s.started ++ issued none d
    served := s.served ++ s.driver.idequeue.head.toList }

/-- The call on buffer `i` returns. -/
def ret (s : Calls) (i : Fin NBUF) : Option Calls := do
  guard (i ∈ s.inserted ∧ i ∉ s.returned ∧ waits (s.driver.buf i) = false)
  return { s with returned := s.returned ++ [i] }

/-- A process asks for a buffer, the disk interrupts, or a call returns. -/
inductive Act where
  | call (p : Pid) (i : Fin NBUF) (polls : List (BitVec 8))
  | interrupt (polls polls' : List (BitVec 8)) (junk : Block)
  | ret (i : Fin NBUF)

/-- The steps that can be taken. -/
def step (size : ℕ) (s : Calls) : Act → Option Calls
  | .call p i polls => s.call size p i polls
  | .interrupt polls polls' junk => s.interrupt polls polls' junk
  | .ret i => s.ret i

/-- The buffers and disk 1 of the memory disk. -/
abbrev Memory := (Fin NBUF → Buf) × Disk

/-- `iderw` of `memide.c` on buffer `i`, called by the process that holds it. -/
def memide (m : Memory) (i : Fin NBUF) : Except Panic Memory :=
  match (m.1 i).lock with
  | none => .error .iderwNotLocked
  | some p => do
      let (b, d) ← Xv6.iderw p (m.1 i) m.2
      return (Function.update m.1 i b, d)

/-- What the memory disk would have. -/
def memory (size : ℕ) (d : Driver) : Memory := (d.buf, ⟨size, d.controller.sector true⟩)

/-! ### The invariant -/

variable {size : ℕ} {d₀ : Driver} {s t : Calls} {i : Fin NBUF} {p : Pid}
  {xs : List (Fin NBUF)} {polls polls' : List (BitVec 8)}

/-- What a call leaves in the buffer and in its block. -/
def exchange (b : Buf) (d : Disk) : Block := if b.dirty then b.data else d.block b.blockno

/-- The driver in memory copies the block at once. -/
theorem memide_eq {m : Memory} (hl : (m.1 i).lock = some p) (hw : waits (m.1 i) = true)
    (h1 : (m.1 i).dev = 1) (hn : (m.1 i).blockno < m.2.size) :
    memide m i = .ok
      (Function.update m.1 i
        { m.1 i with data := exchange (m.1 i) m.2, valid := true, dirty := false },
      { m.2 with
        block := Function.update m.2.block (m.1 i).blockno (exchange (m.1 i) m.2) }) := by
  have hw : ¬ ((m.1 i).valid = true ∧ ¬ (m.1 i).dirty = true) := by
    simpa only [waits, decide_eq_true_eq, not_not] using hw
  have hn : ¬ (m.1 i).blockno ≥ m.2.size := Nat.not_le.mpr hn
  simp only [memide, hl, Xv6.iderw, ne_eq, not_true_eq_false, if_false, hw, h1, hn]
  cases hd : (m.1 i).dirty with
  | true => simp only [exchange, hd, if_true]; rfl
  | false =>
      simp only [exchange, hd, Bool.false_eq_true, if_false, Function.update_eq_self]
      rw [← hd]
      rfl

theorem issued_working (d : Driver) (command : Option Command) :
    issued command (d.working command) = [] := if_pos rfl

theorem issued_some {d : Driver} {k : Command} (h : d.controller.command = some k) :
    issued none d = [k] := by
  rw [issued, h, if_neg nofun]
  rfl

/-- The calls so far: the requests that wait are queued in the order of their insertion, the
first of them started; the others have been served as the memory disk serves them. -/
structure Inv (size : ℕ) (d₀ : Driver) (s : Calls) : Prop where
  queue : ∃ xs, s.driver.idequeue.Queues xs ∧ s.inserted = s.served ++ xs ∧
    Driver.Active s.driver.buf s.driver.controller.command xs ∧
    List.Forall₂ (fun (k : Command) i => k.Asks (d₀.buf i)) s.started (s.served ++ xs.take 1)
  nodup : s.inserted.Nodup
  waiting : ∀ i, i ∉ s.served → s.driver.buf i = d₀.buf i
  called : ∀ i ∈ s.inserted, InRange size (d₀.buf i) ∧ waits (d₀.buf i) = true ∧
    (d₀.buf i).lock.isSome
  memory : s.served.foldlM memide (memory size d₀) = .ok (memory size s.driver)
  returned : ∀ i ∈ s.returned, i ∈ s.served

/-- The invariant holds with an idle disk and an empty queue. -/
theorem init_inv (hq : d₀.idequeue.head = none) (hc : d₀.controller.command = none) :
    Inv size d₀ (init d₀) where
  queue := ⟨[], hq, rfl, hc, .nil⟩
  nodup := List.nodup_nil
  waiting := fun _ _ => rfl
  called := nofun
  memory := rfl
  returned := nofun

/-- A call of `iderw` keeps the invariant. -/
theorem call_inv (hi : Inv size d₀ s) (h : s.call size p i polls = some t) : Inv size d₀ t := by
  simp only [call, Option.bind_eq_bind, Option.bind_eq_some_iff, guard_eq_some, toOption_eq_some,
    Option.pure_def, Option.some.injEq] at h
  obtain ⟨-, ⟨hn, hr⟩, d, hd, rfl⟩ := h
  obtain ⟨xs, hq, hins, hact, hst⟩ := hi.queue
  have hns : i ∉ s.served := fun hm => hn (by rw [hins]; exact List.mem_append_left _ hm)
  have hnx : i ∉ xs := fun hm => hn (by rw [hins]; exact List.mem_append_right _ hm)
  have hbi := hi.waiting i hns
  obtain ⟨hl, hw, q, command, hq', hact', hsame, rfl⟩ := Driver.iderw_cases hd hq hact hnx
  rw [hbi] at hl hw hr
  refine ⟨⟨xs ++ [i], hq', ?_, hact', ?_⟩, ?_, hi.waiting, fun j hj => ?_, hi.memory, hi.returned⟩
  · rw [hins, List.append_assoc]
  · cases xs with
    | nil =>
        obtain ⟨k, rfl, hk⟩ := hact'
        simp only [show s.driver.controller.command = none from hact]
        rw [List.take_nil, List.append_nil] at hst
        exact List.rel_append hst (.cons (hbi ▸ hk) .nil)
    | cons j xs =>
        obtain rfl := hsame (List.cons_ne_nil _ _)
        simp only [issued_working, List.append_nil]
        exact hst
  · exact List.nodup_append.mpr ⟨hi.nodup, List.nodup_singleton i, fun a ha b hb e => hn (by
      rw [List.mem_singleton.mp hb] at e; exact e ▸ ha)⟩
  · rcases List.mem_append.mp hj with hj | hj
    · exact hi.called j hj
    · rw [List.mem_singleton.mp hj]
      exact ⟨hr, hw, by rw [hl]; rfl⟩

/-- **An interrupt serves the request inserted first**, as the memory disk does. -/
theorem interrupt_inv {junk : Block} (hi : Inv size d₀ s)
    (h : s.interrupt polls polls' junk = some t) : Inv size d₀ t := by
  simp only [interrupt, Option.bind_eq_bind, Option.bind_eq_some_iff, guard_eq_some,
    toOption_eq_some, Option.pure_def, Option.some.injEq] at h
  obtain ⟨-, ⟨hsome, hok⟩, d, hd, rfl⟩ := h
  obtain ⟨xs, hq, hins, hact, hst⟩ := hi.queue
  have hok : ∀ r, polls.find? ready = some r → failed r = false := by
    intro r hr
    rw [hr] at hok
    simpa using hok
  -- The buffer of the command is served, and the next one is started.
  rcases Driver.interrupt_cases hd hq hact fun _ => hok with
    ⟨rfl, -⟩ | ⟨i, ys, port, command, rfl, rfl, hact'⟩
  · rw [show s.driver.controller.command = none from hact] at hsome
    cases hsome
  have hnd := hi.nodup
  rw [hins] at hnd
  have hns : i ∉ s.served := fun hm =>
    (List.nodup_append.mp hnd).2.2 i hm i List.mem_cons_self rfl
  have hbi := hi.waiting i hns
  obtain ⟨⟨h1, hsz, -⟩, hw, hl⟩ := hi.called i (by rw [hins]; simp)
  obtain ⟨p, hl⟩ := Option.isSome_iff_exists.mp hl
  have hhead : s.driver.idequeue.head.toList = [i] := by rw [hq.1]; rfl
  have hother : ∀ j, j ∉ s.served ++ [i] →
      (s.driver.serve i port command).buf j = d₀.buf j := by
    intro j hj
    rw [List.mem_append, List.mem_singleton, not_or] at hj
    exact (Function.update_of_ne hj.2 ..).trans (hi.waiting j hj.1)
  refine ⟨⟨ys, hq.remove, ?_, hact', ?_⟩, hi.nodup, ?_, hi.called, ?_, fun j hj => ?_⟩
  · rw [hins, hhead, List.append_assoc]
    rfl
  · rw [hhead]
    cases ys with
    | nil =>
        obtain rfl : command = none := hact'
        rw [show issued none (s.driver.serve i port none) = [] from if_pos rfl, List.append_nil,
          List.take_nil, List.append_nil]
        exact hst
    | cons j ys =>
        obtain ⟨k, rfl, hk⟩ := hact'
        rw [issued_some rfl]
        refine List.rel_append hst (.cons ?_ .nil)
        rwa [hother j] at hk
        have hd := (List.nodup_append.mp hnd)
        have hiys := (List.nodup_cons.mp hd.2.1).1
        rw [List.mem_append, List.mem_singleton, not_or]
        exact ⟨fun hm => hd.2.2 j hm j (List.mem_cons_of_mem _ List.mem_cons_self) rfl,
          fun e => hiys (e ▸ List.mem_cons_self)⟩
  · rw [hhead]
    exact hother
  · have hm : memide (memory size s.driver) i =
        .ok (memory size (s.driver.serve i port command)) := by
      rw [← hbi] at hl hw h1 hsz
      rw [memide_eq hl hw h1 hsz]
      have hdrive : decide ((s.driver.buf i).dev % 2 = 1) = true := by rw [h1]; rfl
      simp only [memory, Driver.serve, Driver.transfer, exchange, hdrive, store,
        Function.update_self]
      rfl
    rw [hhead, List.foldlM_append, hi.memory]
    show List.foldlM memide (memory size s.driver) [i] = _
    rw [List.foldlM_cons, hm]
    rfl
  · exact List.mem_append_left _ (hi.returned j hj)

/-- So does its return. -/
theorem ret_inv (hi : Inv size d₀ s) (h : s.ret i = some t) : Inv size d₀ t := by
  simp only [ret, Option.bind_eq_bind, Option.bind_eq_some_iff, guard_eq_some, Option.pure_def,
    Option.some.injEq] at h
  obtain ⟨-, ⟨hm, -, hw⟩, rfl⟩ := h
  refine { hi with returned := fun j hj => ?_ }
  rcases List.mem_append.mp hj with hj | hj
  · exact hi.returned j hj
  · rw [List.mem_singleton.mp hj]
    -- a request that waits has the flags it was made with
    by_contra hns
    rw [hi.waiting i hns, (hi.called i hm).2.1] at hw
    cases hw

theorem step_inv {a : Act} (h : s.step size a = some t) (hi : Inv size d₀ s) : Inv size d₀ t := by
  cases a with
  | call p i polls => exact call_inv hi h
  | interrupt polls polls' junk => exact interrupt_inv hi h
  | ret i => exact ret_inv hi h

/-- The disk is never at work in vain: when its command ends, the handler returns. -/
theorem interrupt_returns {r r' : BitVec 8} (hi : Inv size d₀ s)
    (hc : s.driver.controller.command.isSome = true) (hr : polls.find? ready = some r)
    (hf : failed r = false) (hr' : polls'.find? ready = some r') (junk : Block) :
    ∃ t, s.interrupt polls polls' junk = some t := by
  obtain ⟨xs, hq, hins, hact, -⟩ := hi.queue
  cases xs with
  | nil =>
      rw [show s.driver.controller.command = none from hact] at hc
      cases hc
  | cons i ys =>
      have hnd := hi.nodup
      rw [hins] at hnd
      have hnd := List.nodup_append.mp hnd
      have hrange : ∀ j ∈ ys.head?, (s.driver.buf j).blockno < FSSIZE ∧ j ≠ i := by
        intro j hj
        have hj : j ∈ ys := List.mem_of_mem_head? hj
        have hjs : j ∉ s.served := fun hm => hnd.2.2 j hm j (List.mem_cons_of_mem _ hj) rfl
        rw [hi.waiting j hjs]
        refine ⟨(hi.called j (by rw [hins]; simp [hj])).1.2.2, fun e => ?_⟩
        exact (List.nodup_cons.mp hnd.2.1).1 (e ▸ hj)
      obtain ⟨d, hd⟩ := Driver.interrupt_ok hq hr hr' hrange junk
      simp only [interrupt, Option.bind_eq_bind, Option.bind_eq_some_iff, guard_eq_some,
        toOption_eq_some, Option.pure_def, Option.some.injEq]
      exact ⟨_, (), ⟨hc, by simp [hr, hf]⟩, d, hd, rfl⟩

/-- **The interrupt-driven driver does what the synchronous one does.**  At any point of a
schedule of calls and interrupts: (a) the requests that are queued are those inserted last, in
order, and the disk has been given the commands of the others and of the first of them, in order;
(b) no request is inserted, or served, twice; (c) a call has returned only if its request was
served; (d) the buffers and disk 1 are those the memory disk has after the calls served; (e) the
handler returns as long as the disk is at work, and when it no longer is every request has been
served. -/
theorem driver_refines_memide (size : ℕ) (d₀ : Driver) (hq : d₀.idequeue.head = none)
    (hc : d₀.controller.command = none) {as : List Act}
    (h : Run (fun s a t => s.step size a = some t) (init d₀) as s) :
    (∃ xs, s.driver.idequeue.Queues xs ∧ s.inserted = s.served ++ xs ∧
      List.Forall₂ (fun (k : Command) i => k.Asks (d₀.buf i)) s.started
        (s.served ++ xs.take 1)) ∧
    s.inserted.Nodup ∧ s.served.Nodup ∧
    (∀ i ∈ s.returned, i ∈ s.served) ∧
    s.served.foldlM memide (memory size d₀) = .ok (memory size s.driver) ∧
    (∀ polls polls' r r' junk, s.driver.controller.command.isSome = true →
      polls.find? ready = some r → failed r = false → polls'.find? ready = some r' →
        ∃ t, s.step size (.interrupt polls polls' junk) = some t) ∧
    (s.driver.controller.command = none → s.served = s.inserted) := by
  have hi : Inv size d₀ s := h.inv (fun _ _ _ hst hs => step_inv hst hs) (init_inv hq hc)
  obtain ⟨xs, hq, hins, hact, hst⟩ := hi.queue
  refine ⟨⟨xs, hq, hins, hst⟩, hi.nodup, ?_, hi.returned, hi.memory,
    fun polls polls' r r' junk hc hr hf hr' => interrupt_returns hi hc hr hf hr' junk,
    fun hnone => ?_⟩
  · have := hi.nodup
    rw [hins] at this
    exact (List.nodup_append.mp this).1
  · cases xs with
    | nil => rw [hins, List.append_nil]
    | cons i xs =>
        obtain ⟨k, hk, -⟩ := hact
        rw [hnone] at hk
        cases hk

/-- Process 7 reads block 3, and process 8 writes block 4 behind it. -/
theorem driver_refines_memide_two : ∃ s : Calls, ∃ d₀ : Driver,
    s.served.foldlM memide (memory FSSIZE d₀) = .ok (memory FSSIZE s.driver) ∧
      s.served = [0, 1] := by
  let d₀ : Driver := ⟨fun i => ⟨i = 1, i = 1, 1, 3 + i, some (7 + i), 1, fun _ => 5⟩, .empty, true,
    ⟨fun _ _ _ => 9, none, fun _ => 0⟩⟩
  have hend : (([.call 7 0 [IDE_DRDY], .call 8 1 [], .interrupt [IDE_DRDY] [IDE_DRDY] fun _ => 0,
      .ret 0, .interrupt [IDE_DRDY] [] fun _ => 0, .ret 1].foldlM (step FSSIZE)
      (init d₀)).map fun s => s.served) = some [0, 1] := by
    decide +kernel
  obtain ⟨s, hs, hserved⟩ := Option.map_eq_some_iff.mp hend
  exact ⟨s, d₀, (driver_refines_memide FSSIZE d₀ rfl rfl (Run.of_foldlM hs)).2.2.2.2.1, hserved⟩

end Calls

end Xv6.Ide
