import Xv6.Proc.Machine
import Xv6.Proc.Wait

/-!
# Processes — one CPU per process

`ptable.lock` in the middle of a context switch: `Inv` says which CPU holds it by where the CPU
is, whichever thread took it, and that only the CPU that holds it can be current on a process that
is not `RUNNING`.  So a process is current on one CPU at most, the scheduler chooses only
processes whose context is saved and whose stack no CPU is on, and `wait` frees only processes
that no CPU is current on (`one_cpu`).
-/

namespace Xv6.Process

/-- From `x` to `y` at most a sleeper is woken. -/
structure Nudged (x y : Proc) : Prop where
  pc : y.pc = x.pc
  chan : y.chan = x.chan
  state : y.state = x.state ∨ (x.state = .sleeping ∧ y.state = .runnable)

/-- The state of a process that goes on at `k` when it is next chosen. -/
def Parked (x : Proc) : After → Prop
  | .unlock => x.state = .runnable
  | .woken ch _ => x.state = .runnable ∨ (x.state = .sleeping ∧ x.chan = some ch)
  | .dead => x.state = .zombie

/-- The state of a process that no CPU is current on. -/
def Off (x : Proc) (s : Section) : Prop :=
  ((x.state = .unused ∨ x.state = .embryo) ∧ (s = .out ∨ ∃ k, s = .suspended k)) ∨
    ∃ k, s = .suspended k ∧ Parked x k

/-- The state of a process on whose stack a CPU is. -/
def On (x : Proc) : Section → Prop
  | .sched k | .suspended k => Parked x k
  | .body .exit | .body .allocproc => x.state = .running ∧ x.pc = .user
  | .body .setRunnable => x.state = .running ∧ x.pc.last = true
  | _ => x.state = .running

namespace Nudged

variable {x y z : Proc}

theorem refl (x : Proc) : Nudged x x := ⟨rfl, rfl, .inl rfl⟩

theorem trans (h : Nudged x y) (h' : Nudged y z) : Nudged x z :=
  ⟨h'.pc.trans h.pc, h'.chan.trans h.chan, by grind [h.state, h'.state]⟩

theorem parked (h : Nudged x y) {k : After} (hx : Parked x k) : Parked y k := by
  have := h.state
  have := h.chan
  cases k <;> simp only [Parked] at hx ⊢ <;> grind

theorem off (h : Nudged x y) {s : Section} (hx : Off x s) : Off y s := by
  rcases hx with ⟨hx, hs⟩ | ⟨k, hs, hx⟩
  · exact .inl ⟨by grind [h.state], hs⟩
  · exact .inr ⟨k, hs, h.parked hx⟩

theorem running (h : Nudged x y) (hx : x.state = .running) : y.state = .running := by
  grind [h.state]

/-- Who was on a CPU, or on its way, still is. -/
theorem on (h : Nudged x y) {s : Section} (hx : On x s) : On y s := by
  unfold On at hx ⊢
  split at hx
  · exact h.parked hx
  · exact h.parked hx
  · exact ⟨h.running hx.1, h.pc.trans hx.2⟩
  · exact ⟨h.running hx.1, h.pc.trans hx.2⟩
  · exact ⟨h.running hx.1, by rw [h.pc]; exact hx.2⟩
  · exact h.running hx

end Nudged

theorem Off.sec {x : Proc} {s : Section} (h : Off x s) : s = .out ∨ ∃ k, s = .suspended k := by
  rcases h with ⟨-, hs⟩ | ⟨k, hs, -⟩
  · exact hs
  · exact .inr ⟨k, hs⟩

theorem Parked.state {x : Proc} {k : After} (h : Parked x k) :
    x.state ≠ .unused ∧ x.state ≠ .embryo ∧ x.state ≠ .running := by
  cases k <;> simp only [Parked] at h <;> grind

/-- A process on a CPU is `RUNNING`, or about to leave it. -/
theorem On.state {x : Proc} {s : Section} (h : On x s) :
    x.state = .running ∨ (s.holds = true ∧ ∃ k, Parked x k) := by
  unfold On at h
  split at h
  · exact .inr ⟨rfl, _, h⟩
  · exact .inr ⟨rfl, _, h⟩
  · exact .inl h.1
  · exact .inl h.1
  · exact .inl h.1
  · exact .inl h

/-! ### What the functions do to the table -/

section

variable (s : Ptable) {p np : Fin NPROC} (i : Fin NPROC)

theorem goto_spec (pc : Pc) : ((s.goto p pc).proc i).state = (s.proc i).state ∧
    ((s.goto p pc).proc i).pc = (if i = p then pc else (s.proc i).pc) ∧
    ((s.goto p pc).proc i).chan = (s.proc i).chan := by
  by_cases hi : i = p <;> simp [Ptable.goto, hi]

theorem setParent_spec (hne : np ≠ p) :
    ((s.setParent p np).proc i).state = (s.proc i).state ∧
    ((s.setParent p np).proc i).pc = (if i = p then .runnable np else (s.proc i).pc) ∧
    ((s.setParent p np).proc i).chan = (s.proc i).chan := by
  by_cases hi : i = p
  · simp [Ptable.setParent, hi, hne.symm]
  · by_cases hi' : i = np <;> simp [Ptable.setParent, hi, hi', hne]

theorem forkFails_spec (hne : np ≠ p) :
    ((s.forkFails p np).proc i).state = (if i = np then .unused else (s.proc i).state) ∧
    ((s.forkFails p np).proc i).pc = (if i = p then .user else (s.proc i).pc) ∧
    ((s.forkFails p np).proc i).chan = (s.proc i).chan := by
  by_cases hi : i = p
  · simp [Ptable.forkFails, hi, hne.symm]
  · by_cases hi' : i = np <;> simp [Ptable.forkFails, hi, hi', hne]

end

theorem wake_nudged (c : Option Chan) (x : Proc) : Nudged x (Ptable.wake c x) := by
  unfold Ptable.wake
  split
  · rename_i hx
    exact ⟨rfl, rfl, .inr ⟨hx.1, rfl⟩⟩
  · exact .refl x

/-- `kill` wakes at most, and marks. -/
theorem kill_nudged (s : Ptable) (pid : Int32) (i : Fin NPROC) :
    Nudged (s.proc i) ((s.kill pid).1.proc i) := by
  unfold Ptable.kill
  split
  · rename_i j _
    by_cases hi : i = j
    · subst hi
      rw [Ptable.set_proc, if_pos rfl]
      refine ⟨rfl, rfl, ?_⟩
      by_cases hs : (s.proc i).state = .sleeping
      · exact .inr ⟨hs, by simp [Ptable.kill1, hs]⟩
      · exact .inl (by simp [Ptable.kill1, hs])
    · simpa [hi] using Nudged.refl _
  · exact .refl _

/-- `exit` passes a child on, and changes nothing else of it. -/
theorem abandon_nudged (p : Fin NPROC) (s : Ptable) (q i : Fin NPROC) :
    Nudged (s.proc i) ((s.abandon p q).proc i) := by
  have hq : Nudged (s.proc i) ((s.set q { s.proc q with parent := some s.initproc }).proc i) := by
    by_cases hi : i = q
    · subst hi
      rw [Ptable.set_proc, if_pos rfl]
      exact ⟨rfl, rfl, .inl rfl⟩
    · simpa [hi] using Nudged.refl _
  simp only [Ptable.abandon]
  split
  · split
    · exact hq.trans (wake_nudged _ _)
    · exact hq
  · exact .refl _

theorem foldl_abandon_nudged (p : Fin NPROC) (l : List (Fin NPROC)) (s : Ptable) (i : Fin NPROC) :
    Nudged (s.proc i) ((l.foldl (Ptable.abandon p) s).proc i) := by
  induction l generalizing s with
  | nil => exact .refl _
  | cons q l ih => exact (abandon_nudged p s q i).trans (ih _)

/-- `exit` makes `p` a zombie, and wakes others at most. -/
theorem exit_nudged (s : Ptable) (p : Fin NPROC) :
    (∀ i, i ≠ p → Nudged (s.proc i) ((s.exit p).proc i)) ∧
      ((s.exit p).proc p).state = .zombie ∧ ((s.exit p).proc p).pc = (s.proc p).pc := by
  have h : ∀ i, Nudged (s.proc i) _ := fun i =>
    (wake_nudged ((s.proc p).parent.map .proc) (s.proc i)).trans
      (foldl_abandon_nudged p (List.finRange NPROC) (s.wakeup1 ((s.proc p).parent.map .proc)) i)
  unfold Ptable.exit
  dsimp only
  generalize (List.finRange NPROC).foldl (Ptable.abandon p) _ = u at h ⊢
  have hset : ∀ i, (({ u.set p { u.proc p with state := .zombie } with
      history := .exited (s.proc p).uid :: s.history } : Ptable).proc i) =
      if i = p then { u.proc p with state := .zombie } else u.proc i := Ptable.set_proc u p _
  refine ⟨fun i hi => ?_, ?_, ?_⟩
  · rw [hset, if_neg hi]
    exact h i
  · rw [hset, if_pos rfl]
  · rw [hset, if_pos rfl]
    exact (h p).pc

namespace Machine

variable {κ : Type} [DecidableEq κ] {m m' : Machine κ} {c d : κ} {p q i np : Fin NPROC}
  {l : List (Fin NPROC)}

/-- By where CPU `c` is, it holds `ptable.lock`. -/
def holds (m : Machine κ) (c : κ) : Prop :=
  match (m.cpu c).phase with
  | .idle => (m.sec (.sched c)).holds = true
  | .runs p _ => (m.sec (.proc p)).holds = true
  | .scan _ | .chosen .. | .back .. => True

/-- What CPU `c` is current on. -/
def Placed (m : Machine κ) (c : κ) : Prop :=
  match (m.cpu c).phase with
  | .idle | .scan _ => (m.cpu c).proc = none
  | .chosen p _ => (m.cpu c).proc = some p ∧ (m.table.proc p).state = .running ∧
      ∃ k, m.sec (.proc p) = .suspended k
  | .runs p _ => (m.cpu c).proc = some p ∧ On (m.table.proc p) (m.sec (.proc p))
  | .back p _ => (m.cpu c).proc = some p ∧
      ∃ k, m.sec (.proc p) = .suspended k ∧ Parked (m.table.proc p) k

/-- An interrupt of the idle scheduler is in `wakeup`, if it is in the table's code. -/
def Interrupted (m : Machine κ) (c : κ) : Prop :=
  m.sec (.sched c) = .out ∨ (m.cpu c).phase = .idle ∧
    (m.sec (.sched c) = .unlock ∨ ∃ ch, m.sec (.sched c) = .body (.wakeup ch))

/-- The entries reserved by `fork`. -/
structure Reserves (m : Machine κ) : Prop where
  embryo : ∀ p np, (m.table.proc p).pc.reserves = some np →
    (m.table.proc np).state = .embryo ∧ (m.table.proc np).pc = .user
  stack : ∀ p np, (m.table.proc p).pc.reserves = some np → (m.table.proc p).pc ≠ .kalloc np →
    m.sec (.proc np) = .suspended .unlock
  inj : ∀ p q np, (m.table.proc p).pc.reserves = some np →
    (m.table.proc q).pc.reserves = some np → p = q
  user : ∀ p, (m.table.proc p).state.live = false → (m.table.proc p).pc = .user

/-- The invariant. -/
structure Inv (m : Machine κ) : Prop where
  lock : ∀ c, m.locked .ptable = some c ↔ m.holds c
  placed : ∀ c, m.Placed c
  interrupted : ∀ c, m.Interrupted c
  current : ∀ c d p, (m.cpu c).proc = some p → (m.cpu d).proc = some p → c = d
  off : ∀ p, (∀ c, (m.cpu c).proc ≠ some p) → Off (m.table.proc p) (m.sec (.proc p))
  reserves : m.Reserves

/-- The invariant holds at boot. -/
theorem boot_inv : (boot : Machine κ).Inv := by
  have hpc : ∀ i, ((boot : Machine κ).table.proc i).pc = .user := by
    intro i
    by_cases hi : i = 0 <;> simp [boot, Ptable.boot, hi]
  refine ⟨fun c => ?_, fun c => rfl, fun c => .inl ?_, fun c d p hc => ?_, fun p _ => ?_, ?_⟩
  · simp [boot, holds, Section.holds]
  · simp [boot]
  · simp [boot] at hc
  · by_cases hp : p = 0
    · exact .inr ⟨.unlock, by simp [boot, hp], by simp [boot, Ptable.boot, Parked, hp]⟩
    · exact .inl ⟨by simp [boot, Ptable.boot, hp], by simp [boot, hp]⟩
  · constructor <;> simp [hpc, Pc.reserves]

/-! ### Who is current -/

omit [DecidableEq κ] in
/-- A CPU that is current on a process that is not running holds `ptable.lock`. -/
theorem Inv.current_state (h : m.Inv) (hc : (m.cpu c).proc = some p) :
    (m.table.proc p).state = .running ∨
      (m.locked .ptable = some c ∧ ∃ k, Parked (m.table.proc p) k) := by
  have hp := h.placed c
  have hl := h.lock c
  unfold Placed at hp
  unfold holds at hl
  split at hp
  · simp [hc] at hp
  · simp [hc] at hp
  · rename_i q l hph
    obtain rfl : p = q := by simpa [hc] using hp.1
    exact .inl hp.2.1
  · rename_i q l hph
    obtain rfl : p = q := by simpa [hc] using hp.1
    rw [hph] at hl
    exact hp.2.state.imp_right fun ⟨h1, h2⟩ => ⟨hl.mpr h1, h2⟩
  · rename_i q l hph
    obtain rfl : p = q := by simpa [hc] using hp.1
    obtain ⟨k, -, hk⟩ := hp.2
    rw [hph] at hl
    exact .inr ⟨hl.mpr trivial, k, hk⟩

omit [DecidableEq κ] in
/-- No CPU is current on an entry that is free or being set up. -/
theorem Inv.not_current (h : m.Inv)
    (hp : (m.table.proc p).state = .unused ∨ (m.table.proc p).state = .embryo) (d : κ) :
    (m.cpu d).proc ≠ some p := by
  intro hd
  rcases h.current_state hd with e | ⟨-, k, hk⟩
  · simp [e] at hp
  · obtain ⟨h1, h2, -⟩ := hk.state
    exact hp.elim h1 h2

omit [DecidableEq κ] in
/-- While `c` holds the lock, only `c` can be current on a process that is not running. -/
theorem Inv.not_current_of_lock (h : m.Inv) (hc : m.locked .ptable = some c)
    (hp : (m.table.proc p).state ≠ .running) (hne : (m.cpu c).proc ≠ some p) (d : κ) :
    (m.cpu d).proc ≠ some p := by
  intro hd
  rcases h.current_state hd with e | ⟨hl, -⟩
  · exact hp e
  · obtain rfl : c = d := Option.some.inj (hc.symm.trans hl)
    exact hne hd

/-! ### What a step of one CPU leaves alone -/

/-- Process `i` is as it was, but that it may have been woken. -/
def Framed (m m' : Machine κ) (i : Fin NPROC) : Prop :=
  m'.sec (.proc i) = m.sec (.proc i) ∧ Nudged (m.table.proc i) (m'.table.proc i)

/-- **The step of a CPU.**  Where CPU `c` makes a step, what it becomes current on is current on
no other CPU, and every other process is left alone or not current anywhere, the invariant is
left to be shown for `c`. -/
theorem Inv.step_of (h : m.Inv) (hcpu : ∀ d, d ≠ c → m'.cpu d = m.cpu d)
    (hsched : ∀ d, d ≠ c → m'.sec (.sched d) = m.sec (.sched d))
    (hproc : ∀ i, (m'.cpu c).proc ≠ some i →
      ((m.cpu c).proc ≠ some i ∧ Framed m m' i) ∨
      ((∀ d, d ≠ c → (m.cpu d).proc ≠ some i) ∧ Off (m'.table.proc i) (m'.sec (.proc i))))
    (hcur : ∀ i, (m'.cpu c).proc = some i → ∀ d, d ≠ c → (m.cpu d).proc ≠ some i)
    (hpl : m'.Placed c) (hint : m'.Interrupted c)
    (hlock : ∀ d, m'.locked .ptable = some d ↔
      if d = c then m'.holds c else m.locked .ptable = some d)
    (hres : m'.Reserves) : m'.Inv := by
  -- what another CPU is current on is left alone
  have hframe : ∀ d, d ≠ c → ∀ i, (m.cpu d).proc = some i → Framed m m' i := by
    intro d hd i hi
    have hne : (m'.cpu c).proc ≠ some i := fun hc => hcur i hc d hd hi
    rcases hproc i hne with ⟨-, hf⟩ | ⟨hf, -⟩
    · exact hf
    · exact absurd hi (hf d hd)
  -- Where the other CPUs are in their loops is as before.
  have hplaced : ∀ d, d ≠ c → m'.Placed d := by
    intro d hd
    have hp := h.placed d
    unfold Placed at hp ⊢
    rw [hcpu d hd]
    split at hp
    · exact hp
    · exact hp
    · obtain ⟨h1, h2, h3⟩ := hp
      obtain ⟨e1, e2⟩ := hframe d hd _ h1
      rw [e1]
      exact ⟨h1, by grind [e2.state], h3⟩
    · obtain ⟨h1, h2⟩ := hp
      obtain ⟨e1, e2⟩ := hframe d hd _ h1
      rw [e1]
      exact ⟨h1, e2.on h2⟩
    · obtain ⟨h1, k, h2, h3⟩ := hp
      obtain ⟨e1, e2⟩ := hframe d hd _ h1
      rw [e1]
      exact ⟨h1, k, h2, e2.parked h3⟩
  -- So is whether they hold the lock of the table.
  have hholds : ∀ d, d ≠ c → (m'.holds d ↔ m.holds d) := by
    intro d hd
    have hp := h.placed d
    unfold Placed at hp
    unfold holds
    rw [hcpu d hd]
    split at hp
    · rename_i hph; rw [hph, hsched d hd]
    · rename_i hph; rw [hph]
    · rename_i hph; rw [hph]
    · rename_i hph
      rw [hph]
      simp only [(hframe d hd _ hp.1).1]
    · rename_i hph; rw [hph]
  refine ⟨fun d => ?_, fun d => ?_, fun d => ?_, fun d e p hd he => ?_, fun p hp => ?_, hres⟩
  · rw [hlock d]
    split
    · rename_i hd; rw [hd]
    · rename_i hd; rw [h.lock d, hholds d hd]
  · by_cases hd : d = c
    · rw [hd]; exact hpl
    · exact hplaced d hd
  · by_cases hd : d = c
    · rw [hd]; exact hint
    · have hi := h.interrupted d
      unfold Interrupted at hi ⊢
      rwa [hcpu d hd, hsched d hd]
  · by_cases hdc : d = c
    · subst hdc
      by_cases hec : e = d
      · exact hec.symm
      · exact absurd (by rwa [hcpu e hec] at he) (hcur p hd e hec)
    · by_cases hec : e = c
      · subst hec
        exact absurd (by rwa [hcpu d hdc] at hd) (hcur p he d hdc)
      · rw [hcpu d hdc] at hd
        rw [hcpu e hec] at he
        exact h.current d e p hd he
  · rcases hproc p (hp c) with ⟨hc, hf1, hf2⟩ | ⟨-, hoff⟩
    · rw [hf1]
      refine hf2.off (h.off p fun d => ?_)
      by_cases hd : d = c
      · rw [hd]; exact hc
      · rw [← hcpu d hd]; exact hp d
    · exact hoff

omit [DecidableEq κ] in
/-- `fork` is left alone by a step that keeps the place of every process and the entries being set
up. -/
theorem Reserves.frame (h : m.Reserves)
    (hpc : ∀ i, (m'.table.proc i).pc = (m.table.proc i).pc)
    (hem : ∀ i, (m.table.proc i).state = .embryo →
      (m'.table.proc i).state = .embryo ∧ m'.sec (.proc i) = m.sec (.proc i))
    (hlive : ∀ i, (m'.table.proc i).state.live = false →
      (m.table.proc i).state.live = false ∨ (m.table.proc i).pc = .user) : m'.Reserves where
  embryo p np := by
    simp only [hpc]
    exact fun hr => ⟨(hem np (h.embryo p np hr).1).1, (h.embryo p np hr).2⟩
  stack p np := by
    simp only [hpc]
    intro hr hk
    rw [(hem np (h.embryo p np hr).1).2]
    exact h.stack p np hr hk
  inj p q np := by
    simp only [hpc]
    exact h.inj p q np
  user p := by
    rw [hpc]
    exact fun hp => (hlive p hp).elim (h.user p) id

omit [DecidableEq κ] in
/-- `fork` at a step of `p` that sets the entry `np`, which no other process has reserved. -/
theorem Reserves.entry (h : m.Reserves) {new : Pc} {st : State} (hne : np ≠ p)
    (hp : (m.table.proc p).state.live = true)
    (hpc : ∀ i, (m'.table.proc i).pc =
      if i = p then new else if i = np then .user else (m.table.proc i).pc)
    (hst : ∀ i, (m'.table.proc i).state = if i = np then st else (m.table.proc i).state)
    (hsec : ∀ i, i ≠ p → i ≠ np → m'.sec (.proc i) = m.sec (.proc i))
    (hfree : ∀ q, q ≠ p → (m.table.proc q).pc.reserves ≠ some np)
    (hnew : ∀ x, new.reserves = some x → x = np ∧ st = .embryo ∧
      (new ≠ .kalloc np → m'.sec (.proc np) = .suspended .unlock)) : m'.Reserves := by
  have hu : Pc.user.reserves = none := rfl
  -- an entry that another process has reserved is neither `p` nor `np`
  have hother : ∀ q x, q ≠ p → (m.table.proc q).pc.reserves = some x → x ≠ p ∧ x ≠ np := by
    intro q x hq hx
    refine ⟨?_, ?_⟩
    · rintro rfl
      rw [(h.embryo q x hx).1] at hp
      cases hp
    · rintro rfl
      exact hfree q hq hx
  constructor
  · intro q x
    have := h.embryo q x
    have := hother q x
    have := hnew x
    rw [hpc, hst, hpc]
    grind
  · intro q x
    have := h.stack q x
    have := hother q x
    have := hnew x
    have := hsec x
    rw [hpc]
    grind
  · intro q q' x
    have := h.inj q q' x
    have := hother q x
    have := hother q' x
    have := hnew x
    rw [hpc, hpc]
    grind
  · intro q
    have := h.user q
    rw [hpc, hst]
    grind

/-! ### Steps in the thread of a process -/

/-- From `m` to `m'` the CPUs stay where they are, and only thread `p` moves. -/
structure Stays (m m' : Machine κ) (c : κ) (p : Fin NPROC) : Prop where
  cpu : ∀ d, d ≠ c → m'.cpu d = m.cpu d
  phase : (m'.cpu c).phase = (m.cpu c).phase
  proc : (m'.cpu c).proc = (m.cpu c).proc
  sched : ∀ d, m'.sec (.sched d) = m.sec (.sched d)

/-- From `m` to `m'` CPU `c` keeps, takes or gives back `ptable.lock`, and then holds it or not. -/
def Locks (m m' : Machine κ) (c : κ) (b : Bool) : Prop :=
  ∀ d, m'.locked .ptable = some d ↔ if d = c then b = true else m.locked .ptable = some d

theorem locks_acquire (hl : m.locked .ptable = none) (hl' : m'.locked .ptable = some c) :
    Locks m m' c true := by
  intro d
  rw [hl', hl]
  by_cases hd : d = c
  · simp [hd]
  · simp [hd, Ne.symm hd]

theorem locks_release (hl : m.locked .ptable = some c) (hl' : m'.locked .ptable = none) :
    Locks m m' c false := by
  intro d
  rw [hl', hl]
  by_cases hd : d = c
  · simp [hd]
  · simp [hd, Ne.symm hd]

omit [DecidableEq κ] in
theorem exit_fields (m : Machine κ) (p : Fin NPROC) : (m.exit p).cpu = m.cpu ∧
    (m.exit p).sec = m.sec ∧ (m.exit p).locked = m.locked ∧
    (m.exit p).table = m.table.exit p := by
  unfold Machine.exit
  dsimp only
  split <;> split <;> exact ⟨rfl, rfl, rfl, rfl⟩

section

variable (h : m.Inv) (hph : (m.cpu c).phase = .runs p l)
include h hph

omit [DecidableEq κ] in
theorem Inv.proc_eq : (m.cpu c).proc = some p := by
  have := h.placed c
  rw [Placed, hph] at this
  exact this.1

omit [DecidableEq κ] in
theorem Inv.on : On (m.table.proc p) (m.sec (.proc p)) := by
  have := h.placed c
  rw [Placed, hph] at this
  exact this.2

omit [DecidableEq κ] in
theorem Inv.lock_iff : m.locked .ptable = some c ↔ (m.sec (.proc p)).holds = true := by
  rw [h.lock c, holds, hph]

/-- A step of a process that leaves the lock of the table. -/
theorem Inv.locks_same {t : Machine κ} (hl : t.locked .ptable = m.locked .ptable) :
    Locks m t c (m.sec (.proc p)).holds := by
  intro d
  rw [hl]
  split
  · rename_i hd
    rw [hd, h.lock_iff hph]
  · rfl

omit [DecidableEq κ] in
/-- No process that is not running is current, but for `p`, if `c` holds the lock. -/
theorem Inv.others (hs : (m.sec (.proc p)).holds = true) (hi : i ≠ p)
    (hr : (m.table.proc i).state ≠ .running) (d : κ) : (m.cpu d).proc ≠ some i := by
  refine h.not_current_of_lock ((h.lock_iff hph).mpr hs) hr ?_ d
  rw [h.proc_eq hph]
  exact fun e => hi (Option.some.inj e).symm

/-- CPU `c` stays on the stack of `p`. -/
theorem Inv.on_stack (hst : Stays m m' c p)
    (hproc : ∀ i, i ≠ p → Framed m m' i ∨
      ((∀ d, (m.cpu d).proc ≠ some i) ∧ Off (m'.table.proc i) (m'.sec (.proc i))))
    (hon : On (m'.table.proc p) (m'.sec (.proc p)))
    (hlock : Locks m m' c (m'.sec (.proc p)).holds) (hres : m'.Reserves) : m'.Inv := by
  have hp := h.proc_eq hph
  have hph' : (m'.cpu c).phase = .runs p l := hst.phase.trans hph
  refine h.step_of hst.cpu (fun d _ => hst.sched d) (fun i hi => ?_) (fun i hi d hd => ?_) ?_ ?_
    (fun d => ?_) hres
  · rw [hst.proc] at hi
    rcases hproc i (by rintro rfl; exact hi hp) with hf | ⟨h1, h2⟩
    · exact .inl ⟨hi, hf⟩
    · exact .inr ⟨fun d _ => h1 d, h2⟩
  · rw [hst.proc] at hi
    exact fun hd' => hd (h.current d c i hd' hi)
  · rw [Placed, hph']
    exact ⟨hst.proc.trans hp, hon⟩
  · have hi := h.interrupted c
    unfold Interrupted at hi ⊢
    rw [hst.sched, hph']
    simpa [hph] using hi
  · rw [hlock d, holds, hph']

/-- The thread of `p` moves to `s`, and the processes may be woken. -/
theorem Inv.move (hst : Stays m m' c p) {s : Section}
    (hsec : ∀ i, m'.sec (.proc i) = if i = p then s else m.sec (.proc i))
    (htab : ∀ i, i ≠ p → Nudged (m.table.proc i) (m'.table.proc i))
    (hpc : (m'.table.proc p).pc = (m.table.proc p).pc) (hon : On (m'.table.proc p) s)
    (hlock : Locks m m' c s.holds)
    (hlive : (m'.table.proc p).state.live = true ∨ (m.table.proc p).pc = .user) : m'.Inv := by
  have hsp : m'.sec (.proc p) = s := by rw [hsec, if_pos rfl]
  have hne : (m.table.proc p).state ≠ .embryo := fun he =>
    h.not_current (.inr he) c (h.proc_eq hph)
  refine h.on_stack hph hst (fun i hi => .inl ⟨by rw [hsec, if_neg hi], htab i hi⟩)
    (by rwa [hsp]) (by rwa [hsp]) (h.reserves.frame (fun i => ?_) (fun i hi => ?_) fun i hi => ?_)
  · by_cases hip : i = p
    · rw [hip]; exact hpc
    · exact (htab i hip).pc
  · have hip : i ≠ p := by rintro rfl; exact hne hi
    refine ⟨?_, by rw [hsec, if_neg hip]⟩
    have := (htab i hip).state
    grind
  · by_cases hip : i = p
    · subst hip
      rcases hlive with e | e
      · simp [e] at hi
      · exact .inr e
    · have := (htab i hip).state
      left
      rcases this with e | ⟨-, e⟩
      · rwa [e] at hi
      · simp [e, State.live] at hi

/-- `p` stores into its own entry and moves on, with the lock as it was. -/
theorem Inv.store {x : Proc} {s : Section} (hs : s.holds = (m.sec (.proc p)).holds)
    (hpc : x.pc = (m.table.proc p).pc) (hon : On x s) (hlive : x.state.live = true) :
    ((m.setProc p x).setSec (.proc p) s).Inv := by
  refine h.move hph (s := s) ⟨by simp, by simp, by simp, by simp⟩
    (by simp [Function.update_apply]) (fun i hi => ?_) (by simpa using hpc) (by simpa using hon) ?_
    (.inl (by simpa using hlive))
  · simpa [hi] using Nudged.refl _
  · rw [hs]
    exact h.locks_same hph rfl

/-- Processes are woken, and `p` moves on to the end of its function. -/
theorem Inv.nudge (hst : Stays m m' c p)
    (hsec : ∀ i, m'.sec (.proc i) = if i = p then .unlock else m.sec (.proc i))
    (htab : ∀ i, Nudged (m.table.proc i) (m'.table.proc i))
    (hl : m'.locked .ptable = m.locked .ptable) (hs : (m.sec (.proc p)).holds = true)
    (hr : (m.table.proc p).state = .running) : m'.Inv := by
  have hr' := (htab p).running hr
  refine h.move hph hst hsec (fun i _ => htab i) (htab p).pc hr' ?_ (.inl (by rw [hr']; rfl))
  have := h.locks_same hph hl
  rwa [hs] at this

/-- `exit` keeps it. -/
theorem Inv.exit (hs : m.sec (.proc p) = .body .exit) :
    ((m.exit p).setSec (.proc p) (.sched .dead)).Inv := by
  obtain ⟨h1, h2, h3⟩ := exit_nudged m.table p
  have hon : (m.table.proc p).state = .running ∧ (m.table.proc p).pc = .user := by
    have := h.on hph
    rwa [hs] at this
  obtain ⟨e1, e2, e3, e4⟩ := exit_fields m p
  refine h.move hph (s := .sched .dead) ⟨by simp [e1], by simp [e1], by simp [e1], by simp [e2]⟩
    (by simp [Function.update_apply, e2]) ?_ ?_ ?_ ?_ (.inr hon.2)
  · simpa [e4] using h1
  · simpa [e4] using h3
  · simpa [e4, On, Parked] using h2
  · have := h.locks_same hph (t := (m.exit p).setSec (.proc p) (.sched .dead)) (by simp [e3])
    rwa [hs] at this

/-- `p` sets the entry `np`, on which no CPU is current, and moves on in `fork` or `wait`. -/
theorem Inv.entry (np : Fin NPROC) (new : Pc) (st : State) (hst : Stays m m' c p)
    (hr : (m.table.proc p).state = .running) (hcur : ∀ d, (m.cpu d).proc ≠ some np)
    (hsec : ∀ i, i ≠ p → i ≠ np → m'.sec (.proc i) = m.sec (.proc i))
    (hpc : ∀ i, (m'.table.proc i).pc =
      if i = p then new else if i = np then .user else (m.table.proc i).pc)
    (hstate : ∀ i, (m'.table.proc i).state = if i = np then st else (m.table.proc i).state)
    (hchan : ∀ i, (m'.table.proc i).chan = (m.table.proc i).chan)
    (hoff : Off (m'.table.proc np) (m'.sec (.proc np)))
    (hon : On (m'.table.proc p) (m'.sec (.proc p)))
    (hlock : Locks m m' c (m'.sec (.proc p)).holds)
    (hfree : ∀ q, q ≠ p → (m.table.proc q).pc.reserves ≠ some np)
    (hnew : ∀ x, new.reserves = some x → x = np ∧ st = .embryo ∧
      (new ≠ .kalloc np → m'.sec (.proc np) = .suspended .unlock)) : m'.Inv := by
  have hne : np ≠ p := by rintro rfl; exact hcur c (h.proc_eq hph)
  refine h.on_stack hph hst (fun i hi => ?_) hon hlock
    (h.reserves.entry hne (by rw [hr]; rfl) hpc hstate hsec hfree hnew)
  by_cases hin : i = np
  · subst hin
    exact .inr ⟨hcur, hoff⟩
  · exact .inl ⟨hsec i hi hin, by rw [hpc, if_neg hi, if_neg hin], hchan i,
      .inl (by rw [hstate, if_neg hin])⟩

/-- `allocproc` keeps it: the new process is nobody's yet. -/
theorem Inv.allocproc (hs : m.sec (.proc p) = .body .allocproc) :
    ((m.setTable (m.table.allocproc p)).setSec (.proc p) .unlock).Inv := by
  have hon : m.table.runs p .user := by
    have := h.on hph
    rwa [hs] at this
  have hlock := h.locks_same hph
    (t := (m.setTable (m.table.allocproc p)).setSec (.proc p) .unlock) rfl
  rw [hs] at hlock
  rcases Ptable.allocproc_spec hon with e | ⟨np, hne, hun, h1, -, -, h4, h5, -⟩
  · rw [e]
    refine h.nudge hph ⟨by simp, by simp, by simp, by simp⟩ (by simp [Function.update_apply])
      (fun i => .refl _) rfl (by simp [hs, Section.holds]) hon.1
  · have hcur := h.not_current (.inl hun)
    have hu := h.reserves.user np (by rw [hun]; rfl)
    refine h.entry hph np (.kalloc np) .embryo
      ⟨by simp, by simp, by simp, by simp⟩ hon.1 hcur (fun i hi _ => by simp [hi]) (fun i => ?_) h1
      h5 (.inl ⟨.inr (by simp [h1]), ?_⟩) ?_ (by simpa [Section.holds] using hlock) ?_ ?_
    · show ((m.table.allocproc p).proc i).pc = _
      rw [h4]
      grind
    · simpa [hne.symm] using (h.off np hcur).sec
    · simp [On, h1, hne, hon.1]
    · intro q _ hq
      have := (h.reserves.embryo q np hq).1
      rw [hun] at this
      cases this
    · rintro x ⟨⟩
      simp

/-- The end of `fork` keeps it. -/
theorem Inv.setRunnable (hs : m.sec (.proc p) = .body .setRunnable)
    (hnp : (m.table.proc p).pc.reserves = some np) :
    ((m.setTable (m.table.setRunnable p np)).setSec (.proc p) .unlock).Inv := by
  have hon : (m.table.proc p).state = .running ∧ (m.table.proc p).pc.last = true := by
    have := h.on hph
    rwa [hs] at this
  have hlock := h.locks_same hph
    (t := (m.setTable (m.table.setRunnable p np)).setSec (.proc p) .unlock) rfl
  rw [hs] at hlock
  have hem := (h.reserves.embryo p np hnp).1
  have hcur := h.not_current (.inr hem)
  have hne : p ≠ np := by rintro rfl; exact hcur c (h.proc_eq hph)
  have hsec : m.sec (.proc np) = .suspended .unlock := by
    refine h.reserves.stack p np hnp fun e => ?_
    rw [e] at hon
    exact absurd hon.2 (by simp [Pc.last])
  obtain ⟨h1, -, -, h4, h5⟩ := Ptable.setRunnable_spec (s := m.table) hne
  refine h.entry hph np .user .runnable
    ⟨by simp, by simp, by simp, by simp⟩ hon.1 hcur (fun i hi _ => by simp [hi]) (fun i => ?_) h1
    h5 (.inr ⟨.unlock, by simp [hne.symm, hsec], by simp [Parked, h1]⟩) ?_
    (by simpa [Section.holds] using hlock) ?_ ?_
  · show ((m.table.setRunnable p np).proc i).pc = _
    rw [h4]
    grind
  · simp [On, h1, hne, hon.1]
  · exact fun q hq hq' => hq (h.reserves.inj q p np hq' hnp)
  · simp [Pc.reserves]

omit [DecidableEq κ] in
/-- No CPU is current on the zombie that `wait` finds. -/
theorem Inv.not_current_zombie (hs : m.sec (.proc p) = .body .wait)
    (hq : (m.table.proc q).state = .zombie) (d : κ) : (m.cpu d).proc ≠ some q := by
  have hr : (m.table.proc p).state = .running := by
    have := h.on hph
    rwa [hs] at this
  refine h.others hph (by rw [hs]; rfl) ?_ (by simp [hq]) d
  rintro rfl
  rw [hr] at hq
  cases hq

/-- `wait` keeps it. -/
theorem Inv.wait (hs : m.sec (.proc p) = .body .wait) : (m.wait p).Inv := by
  have hr : (m.table.proc p).state = .running := by
    have := h.on hph
    rwa [hs] at this
  have hsame : ∀ s : Section, s.holds = true → On (m.table.proc p) s →
      ∀ x, ({ m with seen := x }.setSec (.proc p) s).Inv := by
    intro s hs' hon x
    refine h.move hph (s := s) ⟨by simp, by simp, by simp, by simp⟩
      (by simp [Function.update_apply]) (fun i _ => .refl _) rfl hon ?_ (.inl (by simp [hr, State.live]))
    have := h.locks_same hph (t := { m with seen := x }.setSec (.proc p) s) rfl
    rwa [hs, ← show s.holds = (Section.body .wait).holds from hs'] at this
  unfold Machine.wait
  split
  · rename_i q k hq
    obtain ⟨-, hz⟩ := Ptable.scanFrom_some hq
    have hcur := h.not_current_zombie hph hs hz
    have hqp : q ≠ p := by rintro rfl; exact hcur c (h.proc_eq hph)
    refine h.on_stack hph ⟨by simp, by simp, by simp, by simp⟩ (fun i hi => ?_) ?_ ?_
      (h.reserves.frame (fun i => ?_) (fun i hi => ?_) fun i hi => .inl ?_)
    · by_cases hiq : i = q
      · subst hiq
        refine .inr ⟨hcur, .inl ⟨.inl (by simp [Ptable.freed]), ?_⟩⟩
        simpa [hqp] using (h.off i hcur).sec
      · exact .inl ⟨by simp [hi], by simpa [hiq] using Nudged.refl _⟩
    · simpa [On, Ne.symm hqp] using hr
    · have := h.locks_same hph (t := { m.setProc q (Ptable.freed (m.table.proc q)) with
          kstack := Function.update m.kstack q false
          pgdir := Function.update m.pgdir q false }.setSec (.proc p) .unlock) rfl
      rw [hs] at this
      simpa [Section.holds] using this
    · by_cases hiq : i = q <;> simp [hiq, Ptable.freed]
    · have hiq : i ≠ q := by rintro rfl; simp [hz] at hi
      have hip : i ≠ p := by rintro rfl; simp [hr] at hi
      exact ⟨by simpa [hiq] using hi, by simp [hip]⟩
    · by_cases hiq : i = q
      · rw [hiq, hz]; rfl
      · simpa [hiq] using hi
  · split
    · exact hsame .unlock rfl hr _
    · exact hsame (.sleep2 (.proc p) .ptable) rfl hr _

/-- What is done under the lock of the table keeps it. -/
theorem Inv.body {e : Entry} (hs : m.sec (.proc p) = .body e) (hb : m.body p e = some m') :
    m'.Inv := by
  have hon := h.on hph
  rw [hs] at hon
  have hholds : (m.sec (.proc p)).holds = true := by rw [hs]; rfl
  cases e with
  | yield =>
      obtain rfl := Option.some.inj hb
      exact h.store hph (by rw [hs]; rfl) rfl rfl rfl
  | wakeup ch =>
      obtain rfl := Option.some.inj hb
      exact h.nudge hph ⟨by simp, by simp, by simp, by simp⟩ (by simp [Function.update_apply])
        (fun i => wake_nudged _ _) rfl hholds hon
  | kill pid =>
      obtain rfl := Option.some.inj hb
      exact h.nudge hph ⟨by simp, by simp, by simp, by simp⟩ (by simp [Function.update_apply])
        (fun i => kill_nudged _ _ _) rfl hholds hon
  | exit =>
      obtain rfl := Option.some.inj hb
      exact h.exit hph hs
  | wait =>
      obtain rfl := Option.some.inj hb
      exact h.wait hph hs
  | allocproc =>
      obtain rfl := Option.some.inj hb
      exact h.allocproc hph hs
  | setRunnable =>
      obtain ⟨np, hnp, hb⟩ := Option.bind_eq_some_iff.mp hb
      obtain rfl := Option.some.inj hb
      exact h.setRunnable hph hs hnp

/-- With the lock as it was, or taken or given back, the thread of `p` moves to `s`. -/
theorem Inv.goto (hst : Stays m m' c p) {s : Section}
    (hsec : ∀ i, m'.sec (.proc i) = if i = p then s else m.sec (.proc i))
    (htab : m'.table = m.table) (hon : On (m.table.proc p) s) (hlock : Locks m m' c s.holds) :
    m'.Inv := by
  refine h.move hph hst hsec (fun i _ => by rw [htab]; exact .refl _) (by rw [htab])
    (by rwa [htab]) hlock ?_
  rw [htab]
  by_cases hl : (m.table.proc p).state.live = true
  · exact .inl hl
  · exact .inr (h.reserves.user p (by simpa using hl))

/-- Every step of a section keeps it. -/
theorem Inv.run (hr : m.run c p l = some m') : m'.Inv := by
  have hon := h.on hph
  have hsame := fun m' => h.locks_same (t := m') hph
  have hl := h.lock_iff hph
  -- One case for each place in the code of a section.
  unfold Machine.run at hr
  split at hr
  all_goals rename_i hs; rw [hs] at hon hsame hl
  · cases hr
  · exact h.body hph hs hr
  · rename_i ch n
    split at hr
    · rename_i hn
      obtain rfl := Option.some.inj hr
      exact h.goto hph (s := .sleep1 ch n) ⟨fun d hd => by simp [hd], by simp, by simp, by simp⟩
        (by simp [Function.update_apply]) rfl hon (locks_acquire hn (by simp))
    · cases hr
  · rename_i ch n
    obtain rfl := Option.some.inj hr
    exact h.goto hph (s := .sleep2 ch (.other n)) ⟨fun d hd => by simp [hd], by simp, by simp, by simp⟩
      (by simp [Function.update_apply]) rfl hon (hsame _ (by simp))
  · obtain rfl := Option.some.inj hr
    exact h.store hph (by rw [hs]; rfl) rfl (.inr ⟨rfl, rfl⟩) rfl
  · rename_i k
    split at hr
    · obtain rfl := Option.some.inj hr
      exact h.goto hph (s := .suspended k) ⟨by simp, by simp, by simp, by simp⟩
        (by simp [Function.update_apply]) rfl hon (hsame _ rfl)
    · cases hr
  · rename_i k
    obtain rfl := Option.some.inj hr
    have hp := h.proc_eq hph
    have hi : m.sec (.sched c) = .out := (h.interrupted c).resolve_right fun e => by simp [hph] at e
    refine h.step_of (c := c) (fun d hd => by simp [hd]) (by simp) (fun i hi => .inl ⟨?_, rfl, .refl _⟩)
      (fun i hi d hd hd' => ?_) ?_ (.inl (by simpa using hi)) (fun d => ?_) ?_
    · simpa using hi
    · exact hd (h.current d c i hd' (by simpa using hi))
    · simp only [Placed, setPhase, setCpu, Function.update_self]
      exact ⟨hp, k, hs, hon⟩
    · have := hsame m rfl d
      simpa [holds, Section.holds] using this
    · exact ⟨h.reserves.embryo, h.reserves.stack, h.reserves.inj, h.reserves.user⟩
  · rename_i ch lk
    cases lk with
    | ptable =>
        obtain rfl := Option.some.inj hr
        exact h.store hph (by rw [hs]; rfl) rfl hon (by rw [show _ = State.running from hon]; rfl)
    | other n =>
        obtain rfl := Option.some.inj hr
        exact h.store hph (by rw [hs]; rfl) rfl hon (by rw [show _ = State.running from hon]; rfl)
  · obtain rfl := Option.some.inj hr
    exact h.goto hph (s := .out) ⟨fun d hd => by simp [hd], by simp, by simp, by simp⟩
      (by simp [Function.update_apply]) rfl hon (locks_release (hl.mpr rfl) (by simp))
  · obtain rfl := Option.some.inj hr
    exact h.goto hph (s := .out) ⟨fun d hd => by simp [hd], by simp, by simp, by simp⟩
      (by simp [Function.update_apply]) rfl hon (locks_release (hl.mpr rfl) (by simp))

/-- An unlocked step of `fork`, which leaves the entry an embryo or gives it up. -/
theorem Inv.fork_step (hs : m.sec (.proc p) = .out) (hnp : (m.table.proc p).pc.reserves = some np)
    (hst : Stays m m' c p) {new : Pc} {st : State}
    (hsec : ∀ i, i ≠ np → m'.sec (.proc i) = m.sec (.proc i))
    (hpc : ∀ i, (m'.table.proc i).pc = if i = p then new else (m.table.proc i).pc)
    (hstate : ∀ i, (m'.table.proc i).state = if i = np then st else (m.table.proc i).state)
    (hchan : ∀ i, (m'.table.proc i).chan = (m.table.proc i).chan)
    (hl : m'.locked .ptable = m.locked .ptable) (hoff : st = .unused ∨ st = .embryo)
    (hsnp : m'.sec (.proc np) = m.sec (.proc np) ∨ m'.sec (.proc np) = .suspended .unlock)
    (hnew : ∀ x, new.reserves = some x → x = np ∧ st = .embryo ∧
      (new ≠ .kalloc np → m'.sec (.proc np) = .suspended .unlock)) : m'.Inv := by
  have hr : (m.table.proc p).state = .running := by
    have := h.on hph
    rwa [hs] at this
  obtain ⟨h1, h2⟩ := h.reserves.embryo p np hnp
  have hcur := h.not_current (.inr h1)
  have hne : np ≠ p := by rintro rfl; exact hcur c (h.proc_eq hph)
  have hsp : m'.sec (.proc p) = .out := (hsec p hne.symm).trans hs
  refine h.entry hph np _ _ hst hr hcur (fun i _ => hsec i) (fun i => ?_) hstate hchan (.inl ⟨?_, ?_⟩) ?_ ?_
    (fun q hq hq' => hq (h.reserves.inj q p np hq' hnp)) hnew
  · rw [hpc]
    grind
  · rw [hstate, if_pos rfl]
    exact hoff
  · rcases hsnp with e | e
    · rw [e]
      exact (h.off np hcur).sec
    · exact .inr ⟨_, e⟩
  · rw [hsp]
    show (m'.table.proc p).state = .running
    rw [hstate, if_neg hne.symm, hr]
  · rw [hsp, ← hs]
    exact h.locks_same hph hl

/-- Every step of `fork` outside of the lock keeps it. -/
theorem Inv.fork {o : Op} (hs : m.sec (.proc p) = .out)
    (hf : m.fork p o (m.table.proc p).pc = some m') : m'.Inv := by
  have hres : ∀ np, (m.table.proc p).pc.reserves = some np → np ≠ p ∧
      ∀ i, (m.table.proc i).state = if i = np then .embryo else (m.table.proc i).state := by
    intro np hnp
    have he := (h.reserves.embryo p np hnp).1
    refine ⟨?_, fun i => ?_⟩
    · rintro rfl
      exact h.not_current (.inr he) c (h.proc_eq hph)
    · split
      · rename_i hi
        rw [hi, he]
      · rfl
  -- One case for each step of `fork`, with the entry reserved throughout.
  unfold Machine.fork at hf
  split at hf
  · rename_i np hpc
    have hnp : (m.table.proc p).pc.reserves = some np := by rw [hpc]; rfl
    obtain ⟨-, hst⟩ := hres np hnp
    have hg := fun i => goto_spec m.table i (p := p) (.copyuvm np)
    obtain rfl := Option.some.inj hf
    exact h.fork_step hph hs hnp ⟨by simp, by simp, by simp, by simp⟩ (fun i hi => by simp [hi])
      (fun i => (hg i).2.1) (fun i => (hg i).1.trans (hst i)) (fun i => (hg i).2.2) rfl (.inr rfl)
      (.inr (by simp)) (by rintro x ⟨⟩; simp)
  · rename_i np hpc
    have hnp : (m.table.proc p).pc.reserves = some np := by rw [hpc]; rfl
    have hg := fun i => forkFails_spec m.table i (hres np hnp).1
    obtain rfl := Option.some.inj hf
    exact h.fork_step hph hs hnp ⟨by simp, by simp, by simp, by simp⟩ (fun _ _ => rfl)
      (fun i => (hg i).2.1) (fun i => (hg i).1) (fun i => (hg i).2.2) rfl (.inl rfl) (.inl rfl)
      (by rintro x ⟨⟩)
  · rename_i np hpc
    have hnp : (m.table.proc p).pc.reserves = some np := by rw [hpc]; rfl
    obtain ⟨-, hst⟩ := hres np hnp
    have hstack := h.reserves.stack p np hnp (by simp [hpc])
    have hg := fun i => goto_spec m.table i (p := p) (.parent np)
    obtain rfl := Option.some.inj hf
    exact h.fork_step hph hs hnp ⟨by simp, by simp, by simp, by simp⟩ (fun _ _ => rfl)
      (fun i => (hg i).2.1) (fun i => (hg i).1.trans (hst i)) (fun i => (hg i).2.2) rfl (.inr rfl)
      (.inl rfl) (by rintro x ⟨⟩; exact ⟨rfl, rfl, fun _ => hstack⟩)
  · rename_i np hpc
    have hnp : (m.table.proc p).pc.reserves = some np := by rw [hpc]; rfl
    have hg := fun i => forkFails_spec m.table i (hres np hnp).1
    obtain rfl := Option.some.inj hf
    exact h.fork_step hph hs hnp ⟨by simp, by simp, by simp, by simp⟩ (fun _ _ => rfl)
      (fun i => (hg i).2.1) (fun i => (hg i).1) (fun i => (hg i).2.2) rfl (.inl rfl) (.inl rfl)
      (by rintro x ⟨⟩)
  · rename_i np hpc
    have hnp : (m.table.proc p).pc.reserves = some np := by rw [hpc]; rfl
    obtain ⟨hne, hst⟩ := hres np hnp
    have hstack := h.reserves.stack p np hnp (by simp [hpc])
    have hg := fun i => setParent_spec m.table i hne
    obtain rfl := Option.some.inj hf
    exact h.fork_step hph hs hnp ⟨by simp, by simp, by simp, by simp⟩ (fun _ _ => rfl)
      (fun i => (hg i).2.1) (fun i => (hg i).1.trans (hst i)) (fun i => (hg i).2.2) rfl (.inr rfl)
      (.inl rfl) (by rintro x ⟨⟩; exact ⟨rfl, rfl, fun _ => hstack⟩)
  · cases hf

/-- A step outside the table's code that leaves the threads and `ptable.lock` alone. -/
theorem Inv.aside (hs : m.sec (.proc p) = .out) (hst : Stays m m' c p) (hsec : m'.sec = m.sec)
    (htab : m'.table = m.table) (hl : m'.locked .ptable = m.locked .ptable) : m'.Inv := by
  have hon := h.on hph
  have hsame := h.locks_same hph hl
  rw [hs] at hon hsame
  refine h.goto hph hst (s := .out) (fun i => ?_) htab hon hsame
  rw [hsec]
  split
  · rename_i hi
    rw [hi, hs]
  · rfl

/-- Every step of a process outside of its sections keeps it. -/
theorem Inv.process {o : Op} (hs : m.sec (.proc p) = .out) (hp : m.process c p o = some m') :
    m'.Inv := by
  have hr : (m.table.proc p).state = .running := by
    have := h.on hph
    rwa [hs] at this
  cases o with
  | scheduler => cases hp
  | run => cases hp
  | acquire n =>
      obtain ⟨-, rfl⟩ : _ ∧ m.acquire c (.other n) = m' := by simpa [Machine.process, outside] using hp
      exact h.aside hph hs ⟨fun d hd => by simp [hd], by simp, by simp, by simp⟩ rfl rfl (by simp)
  | release n =>
      obtain ⟨-, rfl⟩ : _ ∧ m.release c (.other n) = m' := by simpa [Machine.process, outside] using hp
      exact h.aside hph hs ⟨fun d hd => by simp [hd], by simp, by simp, by simp⟩ rfl rfl (by simp)
  | change ch n =>
      obtain ⟨-, rfl⟩ : _ ∧ m.change ch (.other n) = m' := by simpa [Machine.process, outside] using hp
      exact h.aside hph hs ⟨by simp, by simp, by simp, by simp⟩ rfl rfl rfl
  | call e =>
      obtain ⟨hm, hn, rfl⟩ : m.mayCall p e = true ∧ m.locked .ptable = none ∧
          (m.acquire c .ptable).setSec (.proc p) (.body e) = m' := by
        simpa only [Machine.process, outside, Option.ite_none_right_eq_some, Option.some.injEq] using hp
      refine h.goto hph (s := .body e) ⟨fun d hd => by simp [hd], by simp, by simp, by simp⟩
        (by simp [Function.update_apply]) rfl ?_ (locks_acquire hn (by simp))
      cases e <;> simp_all [On, mayCall]
  | sleep ch n =>
      obtain ⟨-, rfl⟩ : _ ∧ (m.test p ch (.other n)).setSec (.proc p) (.sleep ch n) = m' := by
        simpa only [Machine.process, Option.ite_none_right_eq_some, Option.some.injEq] using hp
      have hsame := h.locks_same hph
        (t := (m.test p ch (.other n)).setSec (.proc p) (.sleep ch n)) rfl
      rw [hs] at hsame
      exact h.goto hph (s := .sleep ch n) ⟨by simp, by simp, by simp, by simp⟩
        (by simp [Function.update_apply]) rfl hr hsame
  | relock =>
      simp only [Machine.process] at hp
      split at hp
      · obtain ⟨-, hp⟩ := Option.ite_none_right_eq_some.mp hp
        obtain rfl := Option.some.inj hp
        exact h.aside hph hs ⟨fun d hd => by simp [hd], by simp, by simp, by simp⟩ rfl rfl (by simp)
      · cases hp
  | kalloc ok => exact h.fork hph hs hp
  | copyuvm ok => exact h.fork hph hs hp
  | setParent => exact h.fork hph hs hp

end

/-! ### Interrupts of the idle scheduler -/

/-- The idle CPU `c` stays idle. -/
theorem Inv.idle (h : m.Inv) (hph : (m.cpu c).phase = .idle)
    (hcpu : ∀ d, d ≠ c → m'.cpu d = m.cpu d) (hphc : (m'.cpu c).phase = .idle)
    (hprc : (m'.cpu c).proc = (m.cpu c).proc) {s : Section}
    (hsec : m'.sec = Function.update m.sec (.sched c) s)
    (htab : ∀ i, Nudged (m.table.proc i) (m'.table.proc i))
    (hs : s = .out ∨ s = .unlock ∨ ∃ ch, s = .body (.wakeup ch)) (hlock : Locks m m' c s.holds) :
    m'.Inv := by
  have hp : (m.cpu c).proc = none := by
    have := h.placed c
    rwa [Placed, hph] at this
  have hnone : (m'.cpu c).proc = none := hprc.trans hp
  refine h.step_of hcpu (fun d hd => by simp [hsec, hd])
    (fun i _ => .inl ⟨by simp [hp], by simp [hsec], htab i⟩) (fun i hi => by simp [hnone] at hi)
    (by rwa [Placed, hphc]) ?_ (fun d => ?_) (h.reserves.frame (fun i => (htab i).pc) ?_ ?_)
  · rw [Interrupted, hsec, Function.update_self]
    exact hs.imp_right fun e => ⟨hphc, e⟩
  · rw [hlock d, holds, hphc, hsec]
    simp
  · intro i hi
    refine ⟨?_, by simp [hsec]⟩
    have := (htab i).state
    grind
  · intro i hi
    left
    rcases (htab i).state with e | ⟨-, e⟩
    · rwa [e] at hi
    · simp [e, State.live] at hi

/-- A step of an idle CPU that leaves the lock of the table. -/
theorem Inv.locks_idle {t : Machine κ} (h : m.Inv) (hph : (m.cpu c).phase = .idle)
    (hl : t.locked .ptable = m.locked .ptable) : Locks m t c (m.sec (.sched c)).holds := by
  intro d
  rw [hl]
  split
  · rename_i hd
    rw [hd, h.lock c, holds, hph]
  · rfl

/-- Every step of a CPU that runs no process keeps it. -/
theorem Inv.runIdle (h : m.Inv) (hph : (m.cpu c).phase = .idle) (hr : m.runIdle c = some m') :
    m'.Inv := by
  have hsame := fun m' => h.locks_idle (t := m') hph
  have hl := h.lock c
  rw [holds, hph] at hl
  unfold Machine.runIdle at hr
  split at hr
  · rename_i ch hs
    rw [hs] at hsame
    obtain rfl := Option.some.inj hr
    exact h.idle hph (by simp) (by simpa using hph) (by simp) rfl (fun i => wake_nudged _ _)
      (.inr (.inl rfl)) (hsame _ rfl)
  · rename_i hs
    simp only [hs] at hl
    obtain rfl := Option.some.inj hr
    exact h.idle hph (fun d hd => by simp [hd]) (by simpa using hph) (by simp) rfl
      (fun i => .refl _) (.inl rfl) (locks_release (hl.mpr rfl) (by simp))
  · cases hr

/-- An interrupt of an idle CPU keeps it. -/
theorem Inv.outside (h : m.Inv) (hph : (m.cpu c).phase = .idle) {o : Op}
    (hs : m.sec (.sched c) = .out) (ho : o.interrupt = true)
    (hr : m.outside c (.sched c) o = some m') : m'.Inv := by
  have hsame := fun m' => h.locks_idle (t := m') hph
  rw [hs] at hsame
  have hup : m.sec = Function.update m.sec (.sched c) .out := by rw [← hs, Function.update_eq_self]
  cases o with
  | acquire n =>
      obtain ⟨-, rfl⟩ : _ ∧ m.acquire c (.other n) = m' := by simpa [Machine.outside] using hr
      exact h.idle hph (fun d hd => by simp [hd]) (by simpa using hph) (by simp) hup
        (fun i => .refl _) (.inl rfl) (hsame _ (by simp))
  | release n =>
      obtain ⟨-, rfl⟩ : _ ∧ m.release c (.other n) = m' := by simpa [Machine.outside] using hr
      exact h.idle hph (fun d hd => by simp [hd]) (by simpa using hph) (by simp) hup
        (fun i => .refl _) (.inl rfl) (hsame _ (by simp))
  | change ch n =>
      obtain ⟨-, rfl⟩ : _ ∧ m.change ch (.other n) = m' := by simpa [Machine.outside] using hr
      exact h.idle hph (by simp) hph rfl hup (fun i => .refl _) (.inl rfl) (hsame _ rfl)
  | call e =>
      obtain ⟨hn, rfl⟩ : m.locked .ptable = none ∧
          (m.acquire c .ptable).setSec (.sched c) (.body e) = m' := by
        simpa only [Machine.outside, Option.ite_none_right_eq_some, Option.some.injEq] using hr
      obtain ⟨ch, rfl⟩ : ∃ ch, e = .wakeup ch := by
        cases e <;> first | exact ⟨_, rfl⟩ | cases ho
      exact h.idle hph (fun d hd => by simp [hd]) (by simpa using hph) (by simp) rfl
        (fun i => .refl _) (.inr (.inr ⟨ch, rfl⟩)) (locks_acquire hn (by simp))
  | _ => cases ho

/-! ### `scheduler` -/

/-- A step of the scheduler that only concerns `c`. -/
theorem Inv.phase (h : m.Inv) (hcpu : ∀ d, d ≠ c → m'.cpu d = m.cpu d) (hsec : m'.sec = m.sec)
    (htab : m'.table = m.table) (hprc : (m'.cpu c).proc = (m.cpu c).proc) (hpl : m'.Placed c)
    (hint : m.sec (.sched c) = .out)
    (hlock : ∀ d, m'.locked .ptable = some d ↔
      if d = c then m'.holds c else m.locked .ptable = some d) : m'.Inv := by
  refine h.step_of hcpu (fun d _ => by rw [hsec]) (fun i hi => .inl ⟨?_, by rw [hsec], ?_⟩)
    (fun i hi d hd hd' => ?_) hpl (.inl (by rw [hsec, hint])) hlock
    (h.reserves.frame (by simp [htab]) (fun i hi => ⟨by rw [htab, hi], by rw [hsec]⟩)
      fun i hi => .inl (by rwa [htab] at hi))
  · rwa [hprc] at hi
  · rw [htab]
    exact .refl _
  · rw [hprc] at hi
    exact hd (h.current d c i hd' hi)

omit [DecidableEq κ] in
/-- A process that the scheduler finds `RUNNABLE` is suspended, and no CPU is current on it. -/
theorem Inv.chosen (h : m.Inv) (hph : (m.cpu c).phase = .scan l)
    (hp : (m.table.proc p).state = .runnable) :
    (∀ d, (m.cpu d).proc ≠ some p) ∧ ∃ k, m.sec (.proc p) = .suspended k ∧ k ≠ .dead := by
  have hl : m.locked .ptable = some c := by rw [h.lock c, holds, hph]; trivial
  have hnone : (m.cpu c).proc = none := by
    have := h.placed c
    rwa [Placed, hph] at this
  have hcur := h.not_current_of_lock hl (p := p) (by simp [hp]) (by simp [hnone])
  refine ⟨hcur, ?_⟩
  rcases h.off p hcur with ⟨e, -⟩ | ⟨k, hk, hpk⟩
  · simp [hp] at e
  · refine ⟨k, hk, ?_⟩
    rintro rfl
    simp [Parked, hp] at hpk

/-- The switch to a process keeps it: the lock of the table is handed over. -/
theorem Inv.choose (h : m.Inv) (hph : (m.cpu c).phase = .scan (p :: l))
    (hp : (m.table.proc p).state = .runnable) :
    (((m.setProc p { m.table.proc p with state := .running }).setCurrent c (some p)).setPhase
      c (.chosen p l)).Inv := by
  obtain ⟨hcur, k, hk, -⟩ := h.chosen hph hp
  have hl : m.locked .ptable = some c := by rw [h.lock c, holds, hph]; trivial
  have hint : m.sec (.sched c) = .out := (h.interrupted c).resolve_right fun e => by simp [hph] at e
  refine h.step_of (c := c) (fun d hd => by simp [hd]) (by simp)
    (fun i hi => .inl ⟨?_, by simp, ?_⟩) (fun i hi d _ => ?_) ?_ (.inl (by simpa using hint))
    (fun d => ?_) (h.reserves.frame (fun i => ?_) (fun i hi => ?_) fun i hi => .inl ?_)
  · have := h.placed c
    rw [Placed, hph] at this
    simp [this]
  · have hip : i ≠ p := by rintro rfl; simp at hi
    simpa [hip] using Nudged.refl _
  · obtain rfl : p = i := by simpa using hi
    exact hcur d
  · simp [Placed, hk]
  · by_cases hd : d = c
    · simp [hd, holds, hl]
    · simp [hd]
  · by_cases hip : i = p <;> simp [hip]
  · have hip : i ≠ p := by rintro rfl; simp [hp] at hi
    exact ⟨by simpa [hip] using hi, by simp⟩
  · by_cases hip : i = p
    · simp [hip, State.live] at hi
    · simpa [hip] using hi

/-- Every step of the scheduler keeps it. -/
theorem Inv.scheduler (h : m.Inv) (hr : m.scheduler c = some m') : m'.Inv := by
  have hpl := h.placed c
  have hl := h.lock c
  have hint : (m.cpu c).phase ≠ .idle → m.sec (.sched c) = .out := fun hne =>
    (h.interrupted c).resolve_right fun e => hne e.1
  -- One case for each place in the loop.
  cases hph : (m.cpu c).phase with
  | idle =>
      rw [Placed, hph] at hpl
      simp only [Machine.scheduler, hph, Option.ite_none_right_eq_some, Option.some.injEq] at hr
      obtain ⟨⟨hs, hn⟩, rfl⟩ := hr
      refine h.phase (fun d hd => by simp [hd]) rfl rfl (by simp) (by simp [Placed, hpl]) hs
        fun d => ?_
      by_cases hd : d = c
      · simp [hd, holds]
      · simp [hd, hn, Ne.symm hd]
  | scan l =>
      rw [Placed, hph] at hpl
      rw [holds, hph] at hl
      have hs := hint (by simp [hph])
      cases l with
      | nil =>
          simp only [Machine.scheduler, hph, Option.some.injEq] at hr
          obtain rfl := hr
          refine h.phase (fun d hd => by simp [hd]) rfl rfl (by simp) (by simp [Placed, hpl]) hs
            fun d => ?_
          by_cases hd : d = c
          · simp [hd, holds, hs, Section.holds]
          · simp [hd, hl.mpr trivial, Ne.symm hd]
      | cons p l =>
          simp only [Machine.scheduler, hph] at hr
          split at hr
          · obtain rfl := Option.some.inj hr
            exact h.choose hph ‹_›
          · obtain rfl := Option.some.inj hr
            refine h.phase (fun d hd => by simp [hd]) rfl rfl (by simp) (by simp [Placed, hpl]) hs
              fun d => ?_
            by_cases hd : d = c
            · simp [hd, holds, hl.mpr trivial]
            · simp [hd]
  | chosen p l =>
      rw [Placed, hph] at hpl
      rw [holds, hph] at hl
      have hs := hint (by simp [hph])
      obtain ⟨hp, hrun, k, hk⟩ := hpl
      simp only [Machine.scheduler, hph, hk] at hr
      obtain ⟨s, hres, rfl⟩ := Option.map_eq_some_iff.mp hr
      have hs' : s.holds = true ∧ On (m.table.proc p) s := by
        cases k <;> simp only [After.resume, Option.some.injEq, reduceCtorEq] at hres <;> subst hres <;>
          exact ⟨rfl, hrun⟩
      refine h.step_of (c := c) (fun d hd => by simp [hd]) (by simp)
        (fun i hi => ?_) (fun i hi d hd hd' => ?_) ?_ (.inl (by simpa using hs)) (fun d => ?_)
        (h.reserves.frame (fun _ => rfl) (fun i hi => ⟨hi, ?_⟩) fun _ => .inl)
      · have hip : i ≠ p := by rintro rfl; simp [hp] at hi
        exact .inl ⟨by simp [hp, Ne.symm hip], by simp [hip], .refl _⟩
      · exact hd (h.current d c i hd' (by simpa using hi))
      · simpa [Placed, hp] using hs'.2
      · by_cases hd : d = c
        · simp [hd, holds, hs'.1, hl.mpr trivial]
        · simp [hd]
      · have hip : i ≠ p := by rintro rfl; simp [hrun] at hi
        simp [hip]
  | runs p l => simp [Machine.scheduler, hph] at hr
  | back p l =>
      rw [Placed, hph] at hpl
      rw [holds, hph] at hl
      have hs := hint (by simp [hph])
      obtain ⟨hp, k, hk, hpk⟩ := hpl
      simp only [Machine.scheduler, hph, Option.some.injEq] at hr
      obtain rfl := hr
      refine h.step_of (c := c) (fun d hd => by simp [hd]) (by simp) (fun i _ => ?_) (by simp) ?_
        (.inl (by simpa using hs)) (fun d => ?_) ⟨h.reserves.embryo, h.reserves.stack, h.reserves.inj, h.reserves.user⟩
      · by_cases hip : i = p
        · subst hip
          exact .inr ⟨fun d hd hd' => hd (h.current d c i hd' hp), .inr ⟨k, hk, hpk⟩⟩
        · exact .inl ⟨by simp [hp, Ne.symm hip], rfl, .refl _⟩
      · simp [Placed]
      · by_cases hd : d = c
        · simp [hd, holds, hl.mpr trivial]
        · simp [hd]

/-- **Every step keeps the invariant.** -/
theorem Inv.step (h : m.Inv) {o : Op} (hs : m.step c o = some m') : m'.Inv := by
  unfold Machine.step at hs
  split at hs
  · rename_i p l hph
    split at hs
    · exact h.run hph hs
    · obtain ⟨hout, hs⟩ := Option.ite_none_right_eq_some.mp hs
      exact h.process hph hout hs
  · rename_i hph
    split at hs
    · exact h.scheduler hs
    · exact h.runIdle hph hs
    · obtain ⟨⟨hout, ho⟩, hs⟩ := Option.ite_none_right_eq_some.mp hs
      exact h.outside hph hout ho hs
  · split at hs
    · exact h.scheduler hs
    · cases hs

/-- **One CPU per process.**  In every reachable state: a process is current on one CPU at most,
and a CPU on its stack is current on it; a process that a scheduler is about to choose has its
context saved, and no CPU is current on it; and no CPU is current on the process whose stack and
page directory a `wait` is about to free. -/
theorem one_cpu {as : List (κ × Op)} (hrun : Lib.Run Step boot as m) :
    (∀ c d p, (m.cpu c).proc = some p → (m.cpu d).proc = some p → c = d) ∧
    (∀ c p l, (m.cpu c).phase = .runs p l → (m.cpu c).proc = some p) ∧
    (∀ c p l, (m.cpu c).phase = .scan (p :: l) → (m.table.proc p).state = .runnable →
      (∀ d, (m.cpu d).proc ≠ some p) ∧ ∃ k, m.sec (.proc p) = .suspended k ∧ k ≠ .dead) ∧
    (∀ c p l, (m.cpu c).phase = .runs p l → m.sec (.proc p) = .body .wait →
      ∀ q k, m.table.scanFrom p (List.finRange NPROC) false = (some q, k) →
        ∀ d, (m.cpu d).proc ≠ some q) := by
  have h : m.Inv := hrun.inv (fun _ _ _ hs h => h.step hs) boot_inv
  refine ⟨h.current, fun c p l hph => h.proc_eq hph, fun c p l hph hp => h.chosen hph hp, ?_⟩
  intro c p l hph hs q k hq
  exact h.not_current_zombie hph hs (Ptable.scanFrom_some hq).2

instance neZeroCpus : NeZero 2 := ⟨by decide⟩

/-- CPU `0` starts `initproc`, which gives up the CPU; CPU `1` is to run it next. -/
def handOver : List (Fin 2 × Op) :=
  List.replicate 3 (0, .scheduler) ++ [(0, .run), (0, .call .yield)] ++ List.replicate 3 (0, .run) ++
    List.replicate 65 (0, .scheduler) ++ [(1, .scheduler)]

/-- On two CPUs, one runs a process while the other scans the table. -/
theorem one_cpu_handOver : ∃ m : Machine (Fin 2), Lib.Run Step boot handOver m ∧
    (m.cpu 1).phase = .scan (List.finRange NPROC) ∧ (m.table.proc 0).state = .runnable ∧
    (m.cpu 0).proc ≠ some 0 ∧ m.sec (.proc 0) = .suspended .unlock := by
  have hend : ((handOver.foldlM (fun (m : Machine (Fin 2)) a => m.step a.1 a.2) boot).any fun m =>
      (m.cpu 1).phase = .scan (List.finRange NPROC) ∧ (m.table.proc 0).state = .runnable ∧
      m.sec (.proc 0) = .suspended .unlock) = true := by decide +kernel
  obtain ⟨m, hm, hd⟩ := (Option.any_eq_true _ _).mp hend
  obtain ⟨h1, h2, h3⟩ := of_decide_eq_true hd
  have hrun : Lib.Run Step boot handOver m := Lib.Run.of_foldlM hm
  have hscan : (m.cpu 1).phase = .scan (0 :: (List.finRange NPROC).tail) := by
    rw [h1]; decide +kernel
  exact ⟨m, hrun, h1, h2, ((one_cpu hrun).2.2.1 1 0 _ hscan h2).1 0, h3⟩

end Machine

end Xv6.Process
