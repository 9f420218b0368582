import Xv6.Proc.Cpus

/-!
# Processes — `sleep` and `wakeup`

A process tests a condition with `lk` held and calls `sleep(chan, lk)`; another changes the
condition with `lk` held and calls `wakeup(chan)`.  Until the sleeper is `SLEEPING` it holds one
of the two locks: `lk`, which keeps the condition as it tested it, or `ptable.lock`, which keeps
every `wakeup` out.  So whenever a `wakeup` has passed over the table, the changes before it
precede the tests of all who sleep, or are about to, on its channel (`no_lost_wakeup`).
-/

namespace Xv6.Process

/-- What a thread in `sleep` is about to sleep on, and with which lock. -/
def Section.entering : Section → Option (Chan × Lk)
  | .sleep ch n | .sleep1 ch n => some (ch, .other n)
  | .sleep2 ch lk => some (ch, lk)
  | _ => none

/-- What a thread that has called `sched` in `sleep` sleeps on, and with which lock. -/
def Section.asleep : Section → Option (Chan × Lk)
  | .sched (.woken ch lk) | .suspended (.woken ch lk) => some (ch, lk)
  | _ => none

/-- The condition and the lock of a thread that holds both since its test. -/
def Section.testing : Section → Option (Chan × ℕ)
  | .sleep ch n | .sleep1 ch n => some (ch, n)
  | _ => none

/-- Neither asleep nor about to be. -/
def Section.Quiet (s : Section) : Prop := s.entering = none ∧ s.asleep = none

/-! ### Who is woken -/

theorem wake_not_sleeping {x : Proc} {ch : Chan} (hx : x.chan = some ch) :
    (Ptable.wake (some ch) x).state ≠ .sleeping := by
  unfold Ptable.wake
  split
  · simp
  · rename_i h
    exact fun hs => h ⟨hs, hx⟩

theorem Nudged.sleeping {x y : Proc} (h : Nudged x y) (hy : y.state = .sleeping) :
    x.state = .sleeping := by
  grind [h.state]

section

variable {s : Ptable} {p q np i : Fin NPROC}

theorem allocproc_sleeping (h : ((s.allocproc p).proc i).state = .sleeping) :
    (s.proc i).state = .sleeping := by
  unfold Ptable.allocproc at h
  split at h
  · exact h
  · simp only [Ptable.set_proc] at h
    grind

theorem setRunnable_sleeping (h : ((s.setRunnable p np).proc i).state = .sleeping) :
    (s.proc i).state = .sleeping := by
  simp only [Ptable.setRunnable, Ptable.set_proc] at h
  grind

theorem forkFails_sleeping (h : ((s.forkFails p np).proc i).state = .sleeping) :
    (s.proc i).state = .sleeping := by
  simp only [Ptable.forkFails, Ptable.set_proc] at h
  grind

theorem setParent_sleeping (h : ((s.setParent p np).proc i).state = .sleeping) :
    (s.proc i).state = .sleeping := by
  simp only [Ptable.setParent, Ptable.set_proc] at h
  grind

/-- The states after `exit`, before the process itself is a zombie. -/
theorem exit_state (s : Ptable) (p i : Fin NPROC) : ((s.exit p).proc i).state =
    if i = p then .zombie
    else (((List.finRange NPROC).foldl (Ptable.abandon p)
      (s.wakeup1 ((s.proc p).parent.map .proc))).proc i).state := by
  unfold Ptable.exit
  dsimp only
  generalize (List.finRange NPROC).foldl (Ptable.abandon p) _ = u
  have hset : ∀ i, (({ u.set p { u.proc p with state := .zombie } with
      history := .exited (s.proc p).uid :: s.history } : Ptable).proc i) =
      if i = p then { u.proc p with state := .zombie } else u.proc i := Ptable.set_proc u p _
  rw [hset]
  split <;> rfl

/-- `exit` wakes whoever sleeps on the parent's entry. -/
theorem exit_wakes_parent (hq : (s.proc p).parent = some q)
    (hi : (s.proc i).chan = some (.proc q)) : ((s.exit p).proc i).state ≠ .sleeping := by
  rw [exit_state, hq]
  split
  · simp
  · intro hs
    exact wake_not_sleeping hi ((foldl_abandon_nudged p _ _ i).sleeping hs)

/-- Who waits for the new parent of a zombie is woken. -/
theorem abandon_wakes (hq : (s.proc q).parent = some p) (hz : (s.proc q).state = .zombie)
    (hi : (s.proc i).chan = some (.proc s.initproc)) :
    ((s.abandon p q).proc i).state ≠ .sleeping := by
  unfold Ptable.abandon
  rw [if_pos hq]
  dsimp only
  rw [if_pos (by simpa using hz)]
  refine wake_not_sleeping ?_
  rw [Ptable.set_proc]
  split
  · rename_i hiq
    rw [← hiq]
    exact hi
  · exact hi

/-- Passing on one child leaves the parent of another. -/
theorem abandon_parent {r : Fin NPROC} (hr : q ≠ r) :
    ((s.abandon p r).proc q).parent = (s.proc q).parent := by
  unfold Ptable.abandon
  split
  · dsimp only
    split
    · rw [Ptable.wakeup1_proc, Ptable.wake]
      split <;> simp [hr]
    · simp [hr]
  · rfl

theorem abandon_initproc (s : Ptable) (p r : Fin NPROC) : (s.abandon p r).initproc = s.initproc := by
  unfold Ptable.abandon
  split
  · dsimp only
    split <;> rfl
  · rfl

/-- Who waits for the new parent is woken, if one of the children is a zombie. -/
theorem foldl_abandon_wakes {l : List (Fin NPROC)} (hl : q ∈ l) (hq : (s.proc q).parent = some p)
    (hz : (s.proc q).state = .zombie) (hi : (s.proc i).chan = some (.proc s.initproc)) :
    ((l.foldl (Ptable.abandon p) s).proc i).state ≠ .sleeping := by
  induction l generalizing s with
  | nil => cases hl
  | cons r l ih =>
      rw [List.foldl_cons]
      by_cases hqr : q = r
      · subst hqr
        exact fun hs => abandon_wakes hq hz hi ((foldl_abandon_nudged p l _ i).sleeping hs)
      · have hz' := (abandon_nudged p s r q).state
        refine ih (List.mem_of_ne_of_mem hqr hl) (by rw [abandon_parent hqr, hq]) (by grind) ?_
        rw [(abandon_nudged p s r i).chan, abandon_initproc, hi]

/-- `exit` wakes whoever sleeps on `initproc`'s entry, if it abandons a zombie. -/
theorem exit_wakes_init (hq : (s.proc q).parent = some p) (hz : (s.proc q).state = .zombie)
    (hi : (s.proc i).chan = some (.proc s.initproc)) : ((s.exit p).proc i).state ≠ .sleeping := by
  have hw := fun j => wake_nudged ((s.proc p).parent.map .proc) (s.proc j)
  rw [exit_state]
  split
  · simp
  · refine foldl_abandon_wakes (List.mem_finRange q) ?_ ?_ ?_
    · rw [Ptable.wakeup1_proc, Ptable.wake]
      split <;> exact hq
    · have := (hw q).state
      rw [Ptable.wakeup1_proc]
      grind
    · rw [Ptable.wakeup1_proc, (hw i).chan]
      exact hi

end

namespace Machine

variable {κ : Type} [DecidableEq κ] {m m' : Machine κ} {c d : κ} {p q i np : Fin NPROC}
  {l : List (Fin NPROC)}

/-- What holds of process `p`. -/
structure Awake (m : Machine κ) (p : Fin NPROC) : Prop where
  testing : ∀ ch n, (m.sec (.proc p)).testing = some (ch, n) →
    m.seen p = m.changes ch (.other n) ∧
    ∀ c l, (m.cpu c).phase = .runs p l → m.locked (.other n) = some c
  entering : ∀ ch lk, (m.sec (.proc p)).entering = some (ch, lk) → m.covered ch lk ≤ m.seen p
  asleep : ∀ ch lk, (m.sec (.proc p)).asleep = some (ch, lk) →
    (m.table.proc p).state = .sleeping → m.covered ch lk ≤ m.seen p

/-- The invariant. -/
structure Sound (m : Machine κ) : Prop where
  inv : m.Inv
  le : ∀ ch lk, m.covered ch lk ≤ m.changes ch lk
  awake : ∀ p, m.Awake p

theorem testing_entering {s : Section} {ch : Chan} {n : ℕ} (h : s.testing = some (ch, n)) :
    s.entering = some (ch, .other n) := by
  cases s <;> simp_all [Section.testing, Section.entering]

omit [DecidableEq κ] in
/-- A process that is in the table's code and not suspended is on a CPU. -/
theorem Inv.located (h : m.Inv) (h1 : m.sec (.proc p) ≠ .out)
    (h2 : ∀ k, m.sec (.proc p) ≠ .suspended k) : ∃ c l, (m.cpu c).phase = .runs p l := by
  by_contra hno
  push Not at hno
  have hoff : ∀ c, (m.cpu c).proc ≠ some p := by
    intro c hc
    have hp := h.placed c
    unfold Placed at hp
    split at hp
    · simp [hc] at hp
    · simp [hc] at hp
    · obtain ⟨e, -, k, hk⟩ := hp
      obtain rfl : p = _ := Option.some.inj (hc.symm.trans e)
      exact h2 k hk
    · obtain ⟨e, -⟩ := hp
      obtain rfl : p = _ := Option.some.inj (hc.symm.trans e)
      exact hno c _ ‹_›
    · obtain ⟨e, k, hk, -⟩ := hp
      obtain rfl : p = _ := Option.some.inj (hc.symm.trans e)
      exact h2 k hk
  rcases (h.off p hoff).sec with e | ⟨k, e⟩
  · exact h1 e
  · exact h2 k e

omit [DecidableEq κ] in
/-- While `c` holds `ptable.lock`, no other thread is about to store `SLEEPING`. -/
theorem Inv.not_sleep2 (h : m.Inv) (hc : m.locked .ptable = some c)
    (hp : ∀ l, (m.cpu c).phase ≠ .runs p l) {ch : Chan} {lk : Lk} :
    m.sec (.proc p) ≠ .sleep2 ch lk := by
  intro hs
  obtain ⟨d, l, hd⟩ := h.located (p := p) (by simp [hs]) (by simp [hs])
  have hl := (h.lock_iff hd).mpr (by rw [hs]; rfl)
  obtain rfl : c = d := Option.some.inj (hc.symm.trans hl)
  exact hp l hd

omit [DecidableEq κ] in
/-- A sleeper has called `sched` in `sleep`, with its channel stored. -/
theorem Inv.sleeper (h : m.Inv) (hp : (m.table.proc p).state = .sleeping) :
    ∃ ch lk, (m.sec (.proc p)).asleep = some (ch, lk) ∧ (m.table.proc p).chan = some ch := by
  have hk : ∀ k, Parked (m.table.proc p) k →
      ∃ ch lk, k = .woken ch lk ∧ (m.table.proc p).chan = some ch := by
    intro k hk
    cases k <;> simp_all [Parked]
  by_cases hcur : ∃ c, (m.cpu c).proc = some p
  · obtain ⟨c, hc⟩ := hcur
    have hpl := h.placed c
    unfold Placed at hpl
    split at hpl
    · simp [hc] at hpl
    · simp [hc] at hpl
    · obtain ⟨e, hr, -⟩ := hpl
      obtain rfl : p = _ := Option.some.inj (hc.symm.trans e)
      simp [hp] at hr
    · obtain ⟨e, hon⟩ := hpl
      obtain rfl : p = _ := Option.some.inj (hc.symm.trans e)
      unfold On at hon
      split at hon
      · rename_i k hs
        obtain ⟨ch, lk, rfl, hch⟩ := hk k hon
        exact ⟨ch, lk, by rw [hs]; rfl, hch⟩
      · rename_i k hs
        obtain ⟨ch, lk, rfl, hch⟩ := hk k hon
        exact ⟨ch, lk, by rw [hs]; rfl, hch⟩
      · simp [hp] at hon
      · simp [hp] at hon
      · simp [hp] at hon
      · simp [hp] at hon
    · obtain ⟨e, k, hs, hpk⟩ := hpl
      obtain rfl : p = _ := Option.some.inj (hc.symm.trans e)
      obtain ⟨ch, lk, rfl, hch⟩ := hk k hpk
      exact ⟨ch, lk, by rw [hs]; rfl, hch⟩
  · rcases h.off p (not_exists.mp hcur) with ⟨e, -⟩ | ⟨k, hs, hpk⟩
    · simp [hp] at e
    · obtain ⟨ch, lk, rfl, hch⟩ := hk k hpk
      exact ⟨ch, lk, by rw [hs]; rfl, hch⟩

/-! ### Steps that wake nobody and change nothing -/

omit [DecidableEq κ] in
/-- A process that is awake stays awake while its section, and what it tests, are as before. -/
theorem Awake.frame (w : m.Awake p) (hsec : m'.sec (.proc p) = m.sec (.proc p))
    (hseen : m'.seen p = m.seen p)
    (htest : ∀ ch n, (m.sec (.proc p)).testing = some (ch, n) →
      m'.changes ch (.other n) = m.changes ch (.other n) ∧
      ∀ c l, (m'.cpu c).phase = .runs p l → (m.cpu c).phase = .runs p l ∧
        (m.locked (.other n) = some c → m'.locked (.other n) = some c))
    (henter : ∀ ch lk, (m.sec (.proc p)).entering = some (ch, lk) → m'.covered ch lk ≤ m.seen p)
    (hasleep : ∀ ch lk, (m.sec (.proc p)).asleep = some (ch, lk) →
      (m'.table.proc p).state = .sleeping → m'.covered ch lk ≤ m.seen p) : m'.Awake p where
  testing ch n := by
    rw [hsec, hseen]
    intro ht
    obtain ⟨h1, h2⟩ := w.testing ch n ht
    obtain ⟨h3, h4⟩ := htest ch n ht
    refine ⟨h1.trans h3.symm, fun c l hc => ?_⟩
    obtain ⟨h5, h6⟩ := h4 c l hc
    exact h6 (h2 c l h5)
  entering ch lk := by
    rw [hsec, hseen]
    exact henter ch lk
  asleep ch lk := by
    rw [hsec, hseen]
    exact hasleep ch lk

omit [DecidableEq κ] in
theorem Awake.of_quiet (h : (m.sec (.proc p)).Quiet) : m.Awake p where
  testing ch n ht := by
    have := testing_entering ht
    simp [Section.Quiet, this] at h
  entering ch lk he := by simp [Section.Quiet, he] at h
  asleep ch lk ha := by simp [Section.Quiet, ha] at h

omit [DecidableEq κ] in
/-- A step of CPU `c` that wakes nobody and changes nothing leaves every other process alone. -/
theorem Sound.plain (w : m.Sound) (hi : m'.Inv)
    (hcpu : ∀ d, d ≠ c → (m'.cpu d).phase = (m.cpu d).phase)
    (hlk : ∀ d, d ≠ c → ∀ n, m.locked (.other n) = some d → m'.locked (.other n) = some d)
    (hch : m'.changes = m.changes) (hcov : m'.covered = m.covered)
    (hproc : ∀ i, m'.Awake i ∨ (m'.sec (.proc i) = m.sec (.proc i) ∧ m'.seen i = m.seen i ∧
      ((m'.table.proc i).state = .sleeping → (m.table.proc i).state = .sleeping) ∧
      ∀ l, (m'.cpu c).phase ≠ .runs i l)) : m'.Sound where
  inv := hi
  le := by rw [hch, hcov]; exact w.le
  awake i := by
    rcases hproc i with hp | ⟨hs, hseen, hst, hph⟩
    · exact hp
    · have wp := w.awake i
      refine wp.frame hs hseen (fun ch n _ => ⟨by rw [hch], fun d l hd => ?_⟩)
        (by rw [hcov]; exact wp.entering)
        (fun ch lk ha hsl => by rw [hcov]; exact wp.asleep ch lk ha (hst hsl))
      have hdc : d ≠ c := by rintro rfl; exact hph l hd
      exact ⟨(hcpu d hdc).symm.trans hd, hlk d hdc n⟩

/-- The scheduler loses no wakeup. -/
theorem Sound.scheduler (w : m.Sound) (hr : m.scheduler c = some m') : m'.Sound := by
  have hi := w.inv.scheduler hr
  cases hph : (m.cpu c).phase with
  | idle =>
      simp only [Machine.scheduler, hph, Option.ite_none_right_eq_some, Option.some.injEq] at hr
      obtain ⟨-, rfl⟩ := hr
      exact w.plain hi (c := c) (fun d hd => by simp [hd]) (by simp) rfl rfl
        fun i => .inr ⟨rfl, rfl, id, by simp⟩
  | scan l =>
      cases l with
      | nil =>
          simp only [Machine.scheduler, hph, Option.some.injEq] at hr
          obtain rfl := hr
          exact w.plain hi (c := c) (fun d hd => by simp [hd]) (by simp) rfl rfl
            fun i => .inr ⟨rfl, rfl, id, by simp⟩
      | cons p l =>
          simp only [Machine.scheduler, hph] at hr
          split at hr
          · obtain rfl := Option.some.inj hr
            refine w.plain hi (c := c) (fun d hd => by simp [hd]) (by simp) rfl rfl
              fun i => .inr ⟨rfl, rfl, ?_, by simp⟩
            by_cases hip : i = p <;> simp [hip]
          · obtain rfl := Option.some.inj hr
            exact w.plain hi (c := c) (fun d hd => by simp [hd]) (by simp) rfl rfl
              fun i => .inr ⟨rfl, rfl, id, by simp⟩
  | chosen p l =>
      simp only [Machine.scheduler, hph] at hr
      split at hr
      · rename_i k hk
        obtain ⟨s, hres, rfl⟩ := Option.map_eq_some_iff.mp hr
        have hq : s.Quiet := by
          cases k <;> simp only [After.resume, Option.some.injEq, reduceCtorEq] at hres <;>
            subst hres <;> exact ⟨rfl, rfl⟩
        refine w.plain hi (c := c) (fun d hd => by simp [hd]) (by simp) rfl rfl fun i => ?_
        by_cases hip : i = p
        · exact .inl (.of_quiet (by simpa [hip] using hq))
        · exact .inr ⟨by simp [hip], rfl, id, by simp [Ne.symm hip]⟩
      · cases hr
  | runs p l => simp [Machine.scheduler, hph] at hr
  | back p l =>
      simp only [Machine.scheduler, hph, Option.some.injEq] at hr
      obtain rfl := hr
      exact w.plain hi (c := c) (fun d hd => by simp [hd]) (by simp) rfl rfl
        fun i => .inr ⟨rfl, rfl, id, by simp⟩

/-! ### `wakeup` -/

omit [DecidableEq κ] in
theorem le_cover (h : ∀ ch lk, m.covered ch lk ≤ m.changes ch lk) {ch : Chan} (ch' : Chan)
    (lk : Lk) : (m.cover ch).covered ch' lk ≤ (m.cover ch).changes ch' lk := by
  by_cases hc : ch' = ch
  · simp [hc]
  · simpa [hc] using h ch' lk

omit [DecidableEq κ] in
/-- A change is counted before a wakeup can cover it. -/
theorem le_change (h : ∀ ch lk, m.covered ch lk ≤ m.changes ch lk) {ch : Chan} {lk : Lk}
    (ch' : Chan) (lk' : Lk) :
    (m.change ch lk).covered ch' lk' ≤ (m.change ch lk).changes ch' lk' := by
  refine (h ch' lk').trans ?_
  by_cases hc : ch' = ch
  · subst hc
    by_cases hl : lk' = lk
    · simp [hl]
    · simp [hl]
  · simp [hc]

omit [DecidableEq κ] in
/-- CPU `c`, with `ptable.lock`, wakes all who sleep on the channels `C`. -/
theorem Sound.cover (w : m.Sound) (hi : m'.Inv) (hl : m.locked .ptable = some c)
    (hcpu : m'.cpu = m.cpu) (hlk : m'.locked = m.locked) (hseen : m'.seen = m.seen)
    (hch : ∀ ch n, m'.changes ch (.other n) = m.changes ch (.other n))
    (hle : ∀ ch lk, m'.covered ch lk ≤ m'.changes ch lk) {C : Chan → Prop}
    (hcov : ∀ ch lk, ¬ C ch → m'.covered ch lk = m.covered ch lk)
    (hC : ∀ i ch, C ch → (m.table.proc i).chan = some ch → (m'.table.proc i).state ≠ .sleeping)
    (hproc : ∀ i, (m'.sec (.proc i)).Quiet ∨ (m'.sec (.proc i) = m.sec (.proc i) ∧
      ((m'.table.proc i).state = .sleeping → (m.table.proc i).state = .sleeping) ∧
      ∀ l, (m.cpu c).phase ≠ .runs i l)) : m'.Sound where
  inv := hi
  le := hle
  awake i := by
    rcases hproc i with hq | ⟨hs, hst, hne⟩
    · exact .of_quiet hq
    have wi := w.awake i
    refine wi.frame hs (by rw [hseen]) (fun ch n _ => ⟨hch ch n, fun d l hd => ?_⟩)
      (fun ch lk he => ?_) fun ch lk ha hsl => ?_
    · rw [hcpu] at hd
      rw [hlk]
      exact ⟨hd, id⟩
    · -- before it sleeps, `i` holds `lk`, or it would hold `ptable.lock`
      cases hsi : m.sec (.proc i) with
      | sleep ch' n =>
          obtain ⟨rfl, rfl⟩ : ch' = ch ∧ .other n = lk := by simpa [hsi, Section.entering] using he
          rw [(wi.testing ch' n (by rw [hsi]; rfl)).1, ← hch]
          exact hle _ _
      | sleep1 ch' n =>
          obtain ⟨rfl, rfl⟩ : ch' = ch ∧ .other n = lk := by simpa [hsi, Section.entering] using he
          rw [(wi.testing ch' n (by rw [hsi]; rfl)).1, ← hch]
          exact hle _ _
      | sleep2 ch' lk' => exact absurd hsi (w.inv.not_sleep2 hl hne)
      | _ => simp [hsi, Section.entering] at he
    · obtain ⟨ch', lk', ha', hchan⟩ := w.inv.sleeper (hst hsl)
      obtain ⟨rfl, rfl⟩ : ch = ch' ∧ lk = lk' := by simpa [ha] using ha'
      have hnC : ¬ C ch := fun hc => hC i ch hc hchan hsl
      rw [hcov ch lk hnC]
      exact wi.asleep ch lk ha (hst hsl)

/-- The channels on which `exit` wakes the sleepers. -/
def Exits (m : Machine κ) (p : Fin NPROC) (ch : Chan) : Prop :=
  (∃ q, (m.table.proc p).parent = some q ∧ .proc q = ch) ∨
    ∃ q, (m.table.proc q).parent = some p ∧ (m.table.proc q).state = .zombie ∧
      .proc m.table.initproc = ch

/-- What `exit` does to the ghosts. -/
structure ExitGhosts (m m' : Machine κ) (C : Chan → Prop) : Prop where
  seen : m'.seen = m.seen
  changes : ∀ ch n, m'.changes ch (.other n) = m.changes ch (.other n)
  le : ∀ ch lk, m'.covered ch lk ≤ m'.changes ch lk
  covered : ∀ ch lk, ¬ C ch → m'.covered ch lk = m.covered ch lk

omit [DecidableEq κ] in
theorem ExitGhosts.of_cover (h : ∀ ch lk, m.covered ch lk ≤ m.changes ch lk) (ch : Chan) :
    ExitGhosts m ((m.change ch .ptable).cover ch) (· = ch) := by
  refine ⟨rfl, fun ch' n => ?_, le_cover (le_change h), fun ch' lk hne => ?_⟩
  · by_cases hc : ch' = ch
    · subst hc; simp
    · simp [hc]
  · simp [Function.update_of_ne hne]

omit [DecidableEq κ] in
theorem ExitGhosts.trans {m'' : Machine κ} {C D E : Chan → Prop} (h : ExitGhosts m m' C)
    (h' : ExitGhosts m' m'' D) (hE : ∀ ch, C ch ∨ D ch → E ch) : ExitGhosts m m'' E where
  seen := h'.seen.trans h.seen
  changes ch n := (h'.changes ch n).trans (h.changes ch n)
  le := h'.le
  covered ch lk hne := (h'.covered ch lk fun hd => hne (hE ch (.inr hd))).trans
    (h.covered ch lk fun hc => hne (hE ch (.inl hc)))

omit [DecidableEq κ] in
/-- What `exit` changes is what it wakes for. -/
theorem exit_ghosts (p : Fin NPROC) (h : ∀ ch lk, m.covered ch lk ≤ m.changes ch lk) :
    ExitGhosts m (m.exit p) (m.Exits p) := by
  have hrefl : ∀ m : Machine κ, (∀ ch lk, m.covered ch lk ≤ m.changes ch lk) →
      ExitGhosts m m fun _ => False := fun m h => ⟨rfl, fun _ _ => rfl, h, fun _ _ _ => rfl⟩
  -- first the parent, then `initproc`
  have hboth : ∀ m₁, ExitGhosts m m₁ (fun ch => ∃ q, (m.table.proc p).parent = some q ∧ .proc q = ch) →
      ExitGhosts m (if ∃ q, (m.table.proc q).parent = some p ∧ (m.table.proc q).state = .zombie then
        (m₁.change (.proc m.table.initproc) .ptable).cover (.proc m.table.initproc) else m₁)
        (m.Exits p) := by
    intro m₁ h₁
    split
    · rename_i hz
      obtain ⟨q, hq, hz⟩ := hz
      refine h₁.trans (.of_cover h₁.le _) ?_
      rintro ch (hc | rfl)
      · exact .inl hc
      · exact .inr ⟨q, hq, hz, rfl⟩
    · exact h₁.trans (hrefl m₁ h₁.le) fun ch hc => .inl (hc.resolve_right id)
  cases hq : (m.table.proc p).parent with
  | none =>
      have := hboth m ⟨rfl, fun _ _ => rfl, h, fun _ _ _ => rfl⟩
      simp only [Machine.exit, hq]
      exact ⟨this.seen, this.changes, this.le, this.covered⟩
  | some q =>
      have h₁ := (hrefl m h).trans (.of_cover h (.proc q))
        (E := fun ch => ∃ q, (m.table.proc p).parent = some q ∧ .proc q = ch) (by
          rintro ch (hc | rfl)
          · exact hc.elim
          · exact ⟨q, hq, rfl⟩)
      have := hboth _ h₁
      simp only [Machine.exit, hq]
      exact ⟨this.seen, this.changes, this.le, this.covered⟩

/-! ### `sleep` -/

section

variable (w : m.Sound) (hph : (m.cpu c).phase = .runs p l)
include w hph

omit [DecidableEq κ] in
/-- A step in the thread of `p` that wakes nobody and changes nothing. -/
theorem Sound.thread (hi : m'.Inv) (hcpu : ∀ d, (m'.cpu d).phase = (m.cpu d).phase)
    (hlk : ∀ d, d ≠ c → ∀ n, m.locked (.other n) = some d → m'.locked (.other n) = some d)
    (hch : m'.changes = m.changes) (hcov : m'.covered = m.covered)
    (hproc : ∀ i, i ≠ p → (m'.sec (.proc i)).Quiet ∨
      (m'.sec (.proc i) = m.sec (.proc i) ∧ m'.seen i = m.seen i ∧
        ((m'.table.proc i).state = .sleeping → (m.table.proc i).state = .sleeping)))
    (hp : m'.Awake p) : m'.Sound := by
  refine w.plain hi (fun d _ => hcpu d) hlk hch hcov fun i => ?_
  by_cases hip : i = p
  · rw [hip]; exact .inl hp
  · rcases hproc i hip with hq | ⟨h1, h2, h3⟩
    · exact .inl (.of_quiet hq)
    · refine .inr ⟨h1, h2, h3, fun l' => ?_⟩
      rw [hcpu, hph]
      simp [Ne.symm hip]

/-- `exit` loses no wakeup. -/
theorem Sound.exit (hs : m.sec (.proc p) = .body .exit) :
    ((m.exit p).setSec (.proc p) (.sched .dead)).Sound := by
  have hi := w.inv.exit hph hs
  have hl := (w.inv.lock_iff hph).mpr (by rw [hs]; rfl)
  have hn := exit_nudged m.table p
  have hg := exit_ghosts p w.le
  obtain ⟨e1, e2, e3, e4⟩ := exit_fields m p
  refine w.cover hi hl e1 e3 hg.seen hg.changes hg.le (C := m.Exits p) hg.covered ?_ fun i => ?_
  · rintro i ch (hc | ⟨q, hq, hz, rfl⟩) hch
    · obtain ⟨q, hq, rfl⟩ := hc
      simpa [e4] using exit_wakes_parent hq hch
    · simpa [e4] using exit_wakes_init hq hz hch
  · by_cases hip : i = p
    · exact .inl (by simp [hip, Section.Quiet, Section.entering, Section.asleep])
    · exact .inr ⟨by simp [hip, e2], by simpa [e4] using (hn.1 i hip).sleeping,
        by simp [hph, Ne.symm hip]⟩

/-- `wait` loses no wakeup: it looks at the table and sleeps under one lock. -/
theorem Sound.wait (hs : m.sec (.proc p) = .body .wait) : (m.wait p).Sound := by
  have hi := w.inv.wait hph hs
  revert hi
  unfold Machine.wait
  split
  · rename_i q k hq
    intro hi
    refine w.thread hph hi (by simp) (fun _ _ _ => id) rfl rfl (fun i hip => .inr ⟨by simp [hip], rfl, ?_⟩)
      (.of_quiet ⟨by simp [Section.entering], by simp [Section.asleep]⟩)
    by_cases hiq : i = q <;> simp [hiq, Ptable.freed]
  · split
    · intro hi
      exact w.thread hph hi (by simp) (fun _ _ _ => id) rfl rfl
        (fun i hip => .inr ⟨by simp [hip], rfl, id⟩)
        (.of_quiet ⟨by simp [Section.entering], by simp [Section.asleep]⟩)
    · intro hi
      refine w.thread hph hi (by simp) (fun _ _ _ => id) rfl rfl
        (fun i hip => .inr ⟨by simp [hip], by simp [hip], id⟩) ⟨?_, ?_, ?_⟩
      · simp [Section.testing]
      · intro ch lk he
        obtain ⟨rfl, rfl⟩ : Chan.proc p = ch ∧ Lk.ptable = lk := by
          simpa [Section.entering] using he
        simpa using w.le _ _
      · simp [Section.asleep]

/-- What is done under the lock of the table loses no wakeup. -/
theorem Sound.body {e : Entry} (hs : m.sec (.proc p) = .body e) (hb : m.body p e = some m') :
    m'.Sound := by
  have hi := w.inv.body hph hs hb
  cases e with
  | yield =>
      obtain rfl := Option.some.inj hb
      refine w.thread hph hi (by simp) (fun _ _ _ => id) rfl rfl
        (fun i hip => .inr ⟨by simp [hip], rfl, by simp [hip]⟩)
        (.of_quiet ⟨by simp [Section.entering], by simp [Section.asleep]⟩)
  | wakeup ch =>
      obtain rfl := Option.some.inj hb
      refine w.cover hi ((w.inv.lock_iff hph).mpr (by rw [hs]; rfl)) rfl rfl rfl (fun _ _ => rfl)
        (le_cover w.le) (C := (· = ch)) (fun ch' lk hne => by simp [Function.update_of_ne hne]) ?_
        fun i => ?_
      · rintro i _ rfl hi
        exact wake_not_sleeping hi
      · by_cases hip : i = p
        · exact .inl (by simp [hip, Section.Quiet, Section.entering, Section.asleep])
        · exact .inr ⟨by simp [hip], (wake_nudged _ _).sleeping, by simp [hph, Ne.symm hip]⟩
  | kill pid =>
      obtain rfl := Option.some.inj hb
      exact w.thread hph hi (by simp) (fun _ _ _ => id) rfl rfl
        (fun i hip => .inr ⟨by simp [hip], rfl, (kill_nudged m.table pid i).sleeping⟩)
        (.of_quiet ⟨by simp [Section.entering], by simp [Section.asleep]⟩)
  | exit =>
      obtain rfl := Option.some.inj hb
      exact w.exit hph hs
  | wait =>
      obtain rfl := Option.some.inj hb
      exact w.wait hph hs
  | allocproc =>
      obtain rfl := Option.some.inj hb
      refine w.thread hph hi (by simp) (fun _ _ _ => id) rfl rfl
        (fun i hip => .inr ⟨by simp [hip], rfl, ?_⟩)
        (.of_quiet ⟨by simp [Section.entering], by simp [Section.asleep]⟩)
      exact allocproc_sleeping
  | setRunnable =>
      obtain ⟨np, hnp, hb⟩ := Option.bind_eq_some_iff.mp hb
      obtain rfl := Option.some.inj hb
      refine w.thread hph hi (by simp) (fun _ _ _ => id) rfl rfl
        (fun i hip => .inr ⟨by simp [hip], rfl, ?_⟩)
        (.of_quiet ⟨by simp [Section.entering], by simp [Section.asleep]⟩)
      exact setRunnable_sleeping

/-- No step of a section loses a wakeup. -/
theorem Sound.run (hr : m.run c p l = some m') : m'.Sound := by
  have hi := w.inv.run hph hr
  have wp := w.awake p
  -- One case for each place in the code of a section.
  unfold Machine.run at hr
  split at hr
  all_goals rename_i hs
  · cases hr
  · exact w.body hph hs hr
  · rename_i ch n
    split at hr
    · obtain rfl := Option.some.inj hr
      obtain ⟨h1, h2⟩ := wp.testing ch n (by rw [hs]; rfl)
      refine w.thread hph hi (fun d => ?_) (by simp) rfl rfl
        (fun i hip => .inr ⟨by simp [hip], rfl, id⟩) ⟨fun ch' n' ht => ?_, fun ch' lk he => ?_, ?_⟩
      · by_cases hd : d = c <;> simp [hd]
      · obtain ⟨rfl, rfl⟩ : ch = ch' ∧ n = n' := by simpa [Section.testing] using ht
        refine ⟨h1, fun d l' hd => ?_⟩
        simpa using h2 d l' (by by_cases hdc : d = c <;> simp_all)
      · obtain ⟨rfl, rfl⟩ : ch = ch' ∧ Lk.other n = lk := by simpa [Section.entering] using he
        exact wp.entering ch _ (by rw [hs]; rfl)
      · simp [Section.asleep]
    · cases hr
  · rename_i ch n
    obtain rfl := Option.some.inj hr
    have h2 := (wp.testing ch n (by rw [hs]; rfl)).2 c l hph
    refine w.thread hph hi (fun d => ?_) (fun d hd n' hn => ?_) rfl rfl
      (fun i hip => .inr ⟨by simp [hip], rfl, id⟩) ⟨by simp [Section.testing], fun ch' lk he => ?_, ?_⟩
    · by_cases hd : d = c <;> simp [hd]
    · have hnn : n' ≠ n := by
        rintro rfl
        exact hd (Option.some.inj (hn.symm.trans h2))
      simpa [hnn] using hn
    · obtain ⟨rfl, rfl⟩ : ch = ch' ∧ Lk.other n = lk := by simpa [Section.entering] using he
      exact wp.entering ch _ (by rw [hs]; rfl)
    · simp [Section.asleep]
  · rename_i ch lk
    obtain rfl := Option.some.inj hr
    refine w.thread hph hi (by simp) (fun _ _ _ => id) rfl rfl
      (fun i hip => .inr ⟨by simp [hip], rfl, by simp [hip]⟩)
      ⟨by simp [Section.testing], by simp [Section.entering], fun ch' lk' ha _ => ?_⟩
    obtain ⟨rfl, rfl⟩ : ch = ch' ∧ lk = lk' := by simpa [Section.asleep] using ha
    exact wp.entering ch _ (by rw [hs]; rfl)
  · rename_i k
    split at hr
    · obtain rfl := Option.some.inj hr
      refine w.thread hph hi (by simp) (fun _ _ _ => id) rfl rfl
        (fun i hip => .inr ⟨by simp [hip], rfl, id⟩)
        ⟨by simp [Section.testing], by simp [Section.entering], fun ch lk ha hsl => ?_⟩
      refine wp.asleep ch lk ?_ hsl
      rw [hs]
      cases k with
      | woken => simpa [Section.asleep] using ha
      | _ => simp [Section.asleep] at ha
    · cases hr
  · obtain rfl := Option.some.inj hr
    exact w.plain hi (c := c) (fun d hd => by simp [hd]) (fun _ _ _ => id) rfl rfl
      fun i => .inr ⟨rfl, rfl, id, by simp⟩
  · rename_i ch lk
    have hq : ∀ s : Section, s.Quiet →
        ((m.setProc p { m.table.proc p with chan := none }).setSec (.proc p) s).Inv →
        ((m.setProc p { m.table.proc p with chan := none }).setSec (.proc p) s).Sound :=
      fun s hq hi => w.thread hph hi (by simp) (fun _ _ _ => id) rfl rfl
        (fun i hip => .inr ⟨by simp [hip], rfl, by simp [hip]⟩) (.of_quiet (by simpa using hq))
    cases lk with
    | ptable =>
        obtain rfl := Option.some.inj hr
        exact hq _ ⟨rfl, rfl⟩ hi
    | other n =>
        obtain rfl := Option.some.inj hr
        exact hq _ ⟨rfl, rfl⟩ hi
  · obtain rfl := Option.some.inj hr
    refine w.thread hph hi (fun d => ?_) (by simp) rfl rfl
      (fun i hip => .inr ⟨by simp [hip], rfl, id⟩)
      (.of_quiet ⟨by simp [Section.entering], by simp [Section.asleep]⟩)
    by_cases hd : d = c <;> simp [hd]
  · obtain rfl := Option.some.inj hr
    refine w.thread hph hi (fun d => ?_) (by simp) rfl rfl
      (fun i hip => .inr ⟨by simp [hip], rfl, id⟩)
      (.of_quiet ⟨by simp [Section.entering], by simp [Section.asleep]⟩)
    by_cases hd : d = c <;> simp [hd]

/-- The unlocked steps of `fork` do not concern sleepers. -/
theorem Sound.fork {o : Op} (hs : m.sec (.proc p) = .out)
    (hf : m.fork p o (m.table.proc p).pc = some m') : m'.Sound := by
  have hi := w.inv.fork hph hs hf
  have hq : m'.sec (.proc p) = .out → m'.Awake p := fun e =>
    .of_quiet ⟨by rw [e]; rfl, by rw [e]; rfl⟩
  have hne : ∀ np, (m.table.proc p).pc.reserves = some np → p ≠ np := by
    rintro np hnp rfl
    exact w.inv.not_current (.inr (w.inv.reserves.embryo p p hnp).1) c (w.inv.proc_eq hph)
  unfold Machine.fork at hf
  split at hf
  · rename_i np hpc
    have hpn := hne np (by rw [hpc]; rfl)
    obtain rfl := Option.some.inj hf
    refine w.thread hph hi (by simp) (fun _ _ _ => id) rfl rfl (fun i hip => ?_)
      (hq (by simpa [hpn] using hs))
    by_cases hin : i = np
    · exact .inl (by simp [hin, Section.Quiet, Section.entering, Section.asleep])
    · exact .inr ⟨by simp [hin], rfl, by simp [Ptable.goto, hip]⟩
  · obtain rfl := Option.some.inj hf
    exact w.thread hph hi (by simp) (fun _ _ _ => id) rfl rfl
      (fun i _ => .inr ⟨rfl, rfl, forkFails_sleeping⟩) (hq hs)
  · obtain rfl := Option.some.inj hf
    exact w.thread hph hi (by simp) (fun _ _ _ => id) rfl rfl
      (fun i hip => .inr ⟨rfl, rfl, by simp [Ptable.goto, hip]⟩) (hq hs)
  · obtain rfl := Option.some.inj hf
    exact w.thread hph hi (by simp) (fun _ _ _ => id) rfl rfl
      (fun i _ => .inr ⟨rfl, rfl, forkFails_sleeping⟩) (hq hs)
  · obtain rfl := Option.some.inj hf
    exact w.thread hph hi (by simp) (fun _ _ _ => id) rfl rfl
      (fun i _ => .inr ⟨rfl, rfl, setParent_sleeping⟩) (hq hs)
  · cases hf

end

/-! ### Outside the table's code -/

omit [DecidableEq κ] in
/-- A change of what is waited for under lock `n`, by CPU `c`, which holds it. -/
theorem Sound.change (w : m.Sound) {ch : Chan} {n : ℕ} (hi : (m.change ch (.other n)).Inv)
    (hl : m.locked (.other n) = some c)
    (hq : ∀ i l, (m.cpu c).phase = .runs i l → m.sec (.proc i) = .out) :
    (m.change ch (.other n)).Sound where
  inv := hi
  le := le_change w.le
  awake i := by
    have wi := w.awake i
    refine wi.frame rfl rfl (fun ch' n' ht => ⟨?_, fun d l hd => ⟨hd, id⟩⟩) wi.entering wi.asleep
    -- whoever has tested under the lock holds it
    have hne : n' ≠ n := by
      rintro rfl
      obtain ⟨d, l, hd⟩ := w.inv.located (p := i) (by rintro e; simp [e, Section.testing] at ht)
        (by rintro k e; simp [e, Section.testing] at ht)
      have hd' := (wi.testing ch' n' ht).2 d l hd
      obtain rfl : d = c := Option.some.inj (hd'.symm.trans hl)
      simp [hq i l hd, Section.testing] at ht
    by_cases hc : ch' = ch
    · subst hc
      simp [hne]
    · simp [hc]

omit [DecidableEq κ] in
/-- An operation of CPU `c` on a lock. -/
theorem Sound.aside (w : m.Sound) (hi : m'.Inv)
    (hq : ∀ i l, (m.cpu c).phase = .runs i l → m.sec (.proc i) = .out)
    (hcpu : ∀ d, (m'.cpu d).phase = (m.cpu d).phase)
    (hlk : ∀ d, d ≠ c → ∀ n, m.locked (.other n) = some d → m'.locked (.other n) = some d)
    (hch : m'.changes = m.changes) (hcov : m'.covered = m.covered) (hseen : m'.seen = m.seen)
    (hsec : ∀ i, m'.sec (.proc i) = m.sec (.proc i)) (htab : m'.table = m.table) : m'.Sound := by
  refine w.plain hi (fun d _ => hcpu d) hlk hch hcov fun i => ?_
  by_cases hon : ∃ l, (m.cpu c).phase = .runs i l
  · obtain ⟨l, hl⟩ := hon
    exact .inl (.of_quiet (by rw [hsec, hq i l hl]; exact ⟨rfl, rfl⟩))
  · refine .inr ⟨hsec i, by rw [hseen], by rw [htab]; exact id, fun l hl => hon ⟨l, ?_⟩⟩
    rw [← hcpu, hl]

/-- No step outside of the sections loses a wakeup. -/
theorem Sound.outside (w : m.Sound) {t : Thread κ} {o : Op} (hi : m'.Inv)
    (hq : ∀ i l, (m.cpu c).phase = .runs i l → m.sec (.proc i) = .out)
    (ho : m.outside c t o = some m') : m'.Sound := by
  cases o with
  | acquire n =>
      obtain ⟨hn, rfl⟩ : _ ∧ m.acquire c (.other n) = m' := by simpa [Machine.outside] using ho
      refine w.aside hi hq (fun d => ?_) (fun d hd n' hn' => ?_) rfl rfl rfl (fun _ => rfl) rfl
      · by_cases hd : d = c <;> simp [hd]
      · have hne : n' ≠ n := by rintro rfl; simp [hn] at hn'
        simpa [hne] using hn'
  | release n =>
      obtain ⟨hn, rfl⟩ : _ ∧ m.release c (.other n) = m' := by simpa [Machine.outside] using ho
      refine w.aside hi hq (fun d => ?_) (fun d hd n' hn' => ?_) rfl rfl rfl (fun _ => rfl) rfl
      · by_cases hd : d = c <;> simp [hd]
      · have hne : n' ≠ n := by rintro rfl; exact hd (Option.some.inj (hn'.symm.trans hn))
        simpa [hne] using hn'
  | change ch n =>
      obtain ⟨hn, rfl⟩ : _ ∧ m.change ch (.other n) = m' := by simpa [Machine.outside] using ho
      exact w.change hi hn hq
  | call e =>
      obtain ⟨-, rfl⟩ : _ ∧ (m.acquire c .ptable).setSec t (.body e) = m' := by
        simpa only [Machine.outside, Option.ite_none_right_eq_some, Option.some.injEq] using ho
      refine w.plain hi (c := c) (fun d hd => by simp [hd]) (by simp) rfl rfl fun i => ?_
      by_cases hti : t = .proc i
      · exact .inl (.of_quiet (by simp [hti, Section.Quiet, Section.entering, Section.asleep]))
      · by_cases hon : ∃ l, (m.cpu c).phase = .runs i l
        · obtain ⟨l, hl⟩ := hon
          refine .inl (.of_quiet ?_)
          simp [Function.update_of_ne (Ne.symm hti), hq i l hl, Section.Quiet, Section.entering,
            Section.asleep]
        · exact .inr ⟨by simp [Function.update_of_ne (Ne.symm hti)], rfl, id,
            by simpa using hon⟩
  | _ => cases ho

/-- No step of a process outside of its sections loses a wakeup. -/
theorem Sound.process (w : m.Sound) (hph : (m.cpu c).phase = .runs p l) {o : Op}
    (hs : m.sec (.proc p) = .out) (hp : m.process c p o = some m') : m'.Sound := by
  have hi := w.inv.process hph hs hp
  have hq : ∀ i l, (m.cpu c).phase = .runs i l → m.sec (.proc i) = .out := by
    intro i l' hl
    obtain ⟨rfl, -⟩ : p = i ∧ _ := by simpa [hph] using hl
    exact hs
  cases o with
  | sleep ch n =>
      obtain ⟨⟨-, hl⟩, rfl⟩ : (_ ∧ m.locked (.other n) = some c) ∧
          (m.test p ch (.other n)).setSec (.proc p) (.sleep ch n) = m' := by
        simpa only [Machine.process, Option.ite_none_right_eq_some, Option.some.injEq] using hp
      refine w.thread hph hi (by simp) (fun _ _ _ => id) rfl rfl
        (fun i hip => .inr ⟨by simp [hip], by simp [hip], id⟩)
        ⟨fun ch' n' ht => ?_, fun ch' lk he => ?_, by simp [Section.asleep]⟩
      · obtain ⟨rfl, rfl⟩ : ch = ch' ∧ n = n' := by simpa [Section.testing] using ht
        refine ⟨by simp, fun d l' hd => ?_⟩
        obtain rfl := w.inv.current d c p (w.inv.proc_eq hd) (w.inv.proc_eq hph)
        exact hl
      · obtain ⟨rfl, rfl⟩ : ch = ch' ∧ Lk.other n = lk := by simpa [Section.entering] using he
        simpa using w.le ch (.other n)
  | relock =>
      simp only [Machine.process] at hp
      split at hp
      · rename_i n _
        obtain ⟨hn, hp⟩ := Option.ite_none_right_eq_some.mp hp
        obtain rfl := Option.some.inj hp
        refine w.aside hi hq (fun d => ?_) (fun d hd n' hn' => ?_) rfl rfl rfl (fun _ => rfl) rfl
        · by_cases hd : d = c <;> simp [hd]
        · have hne : n' ≠ n := by rintro rfl; simp [hn] at hn'
          simpa [hne] using hn'
      · cases hp
  | call e =>
      obtain ⟨-, hp⟩ := Option.ite_none_right_eq_some.mp hp
      exact w.outside hi hq hp
  | kalloc ok => exact w.fork hph hs hp
  | copyuvm ok => exact w.fork hph hs hp
  | setParent => exact w.fork hph hs hp
  | acquire n => exact w.outside (t := .proc p) (o := .acquire n) hi hq hp
  | release n => exact w.outside (t := .proc p) (o := .release n) hi hq hp
  | change ch n => exact w.outside (t := .proc p) (o := .change ch n) hi hq hp
  | scheduler => cases hp
  | run => cases hp

/-- No step of a CPU that runs no process loses a wakeup. -/
theorem Sound.runIdle (w : m.Sound) (hph : (m.cpu c).phase = .idle)
    (hr : m.runIdle c = some m') : m'.Sound := by
  have hi := w.inv.runIdle hph hr
  have hl := w.inv.lock c
  rw [holds, hph] at hl
  unfold Machine.runIdle at hr
  split at hr
  · rename_i ch hs
    simp only [hs] at hl
    obtain rfl := Option.some.inj hr
    refine w.cover hi (hl.mpr rfl) rfl rfl rfl (fun _ _ => rfl) (le_cover w.le) (C := (· = ch))
      (fun ch' lk hne => by simp [Function.update_of_ne hne]) ?_
      fun i => .inr ⟨by simp, (wake_nudged _ _).sleeping, by simp [hph]⟩
    rintro i _ rfl hi
    exact wake_not_sleeping hi
  · obtain rfl := Option.some.inj hr
    exact w.plain hi (c := c) (fun d hd => by simp [hd]) (by simp) rfl rfl
      fun i => .inr ⟨by simp, rfl, id, by simp [hph]⟩
  · cases hr

/-- **No step loses a wakeup.** -/
theorem Sound.step (w : m.Sound) {o : Op} (hs : m.step c o = some m') : m'.Sound := by
  have hi := w.inv.step hs
  unfold Machine.step at hs
  split at hs
  · rename_i p l hph
    split at hs
    · exact w.run hph hs
    · obtain ⟨hout, hs⟩ := Option.ite_none_right_eq_some.mp hs
      exact w.process hph hout hs
  · rename_i hph
    split at hs
    · exact w.scheduler hs
    · exact w.runIdle hph hs
    · obtain ⟨-, hs⟩ := Option.ite_none_right_eq_some.mp hs
      exact w.outside hi (by simp [hph]) hs
  · split at hs
    · exact w.scheduler hs
    · cases hs

theorem boot_sound : (boot : Machine κ).Sound where
  inv := boot_inv
  le _ _ := le_rfl
  awake p := by
    refine .of_quiet ?_
    by_cases hp : p = 0 <;> simp [boot, hp, Section.Quiet, Section.entering, Section.asleep]

/-- **No lost wakeup.**  In every reachable state the changes covered by a `wakeup` that has
passed over the table precede the test of everyone between its test and `SLEEPING`, and of
everyone who is `SLEEPING` on the channel.  `sleep` returns with `lk`, and without `ptable.lock`
unless that is `lk`. -/
theorem no_lost_wakeup {as : List (κ × Op)} (hrun : Lib.Run Step boot as m) :
    (∀ p ch lk, (m.sec (.proc p)).entering = some (ch, lk) → m.covered ch lk ≤ m.seen p) ∧
    (∀ p, (m.table.proc p).state = .sleeping → ∃ ch lk, (m.table.proc p).chan = some ch ∧
      (m.sec (.proc p)).asleep = some (ch, lk) ∧ m.covered ch lk ≤ m.seen p) ∧
    (∀ c p l n m', (m.cpu c).phase = .runs p l → m.relock p = some n →
      m.step c .relock = some m' → m'.relock p = none ∧ m'.locked (.other n) = some c ∧
        m'.locked .ptable ≠ some c) ∧
    (∀ c p l ch m', (m.cpu c).phase = .runs p l → m.sec (.proc p) = .woken ch .ptable →
      m.step c .run = some m' → m'.sec (.proc p) = .body .wait ∧ m'.locked .ptable = some c) := by
  have w : m.Sound := hrun.inv (fun _ _ _ hs h => h.step hs) boot_sound
  refine ⟨fun p => (w.awake p).entering, fun p hp => ?_, ?_, ?_⟩
  · obtain ⟨ch, lk, ha, hc⟩ := w.inv.sleeper hp
    exact ⟨ch, lk, hc, ha, (w.awake p).asleep ch lk ha hp⟩
  · intro c p l n m' hph hn hs
    unfold Machine.step at hs
    simp only [hph, Option.ite_none_right_eq_some] at hs
    obtain ⟨hout, hs⟩ := hs
    simp only [Machine.process, hn, Option.ite_none_right_eq_some, Option.some.injEq] at hs
    obtain ⟨-, rfl⟩ := hs
    refine ⟨by simp, by simp, ?_⟩
    have := w.inv.lock_iff hph
    simpa [hout, Section.holds] using this
  · intro c p l ch m' hph hw hs
    unfold Machine.step at hs
    simp only [hph, Machine.run, hw, Option.some.injEq] at hs
    obtain rfl := hs
    refine ⟨by simp, ?_⟩
    have := w.inv.lock_iff hph
    simpa [hw, Section.holds] using this

/-- `initproc`, on CPU `0`, tests under lock `7` and goes to sleep on channel `9`, while an interrupt of
CPU `1` takes the lock and makes the change. -/
def sleepAndWake : List (Fin 2 × Op) :=
  List.replicate 3 (0, .scheduler) ++
    [(0, .run), (0, .acquire 7), (0, .sleep (.other 9) 7), (0, .run), (0, .run),
      (1, .acquire 7), (1, .change (.other 9) 7), (0, .run)]

/-- A process sleeps after the change that it waits for, and is woken. -/
theorem no_lost_wakeup_sleepAndWake : ∃ m : Machine (Fin 2), Lib.Run Step boot sleepAndWake m ∧
    m.changes (.other 9) (.other 7) = 1 ∧ m.seen 0 = 0 ∧ ∃ ch lk,
      (m.table.proc 0).chan = some ch ∧ (m.sec (.proc 0)).asleep = some (ch, lk) ∧
      m.covered ch lk ≤ m.seen 0 := by
  have hend : ((sleepAndWake.foldlM (fun (m : Machine (Fin 2)) a => m.step a.1 a.2) boot).any
      fun m => (m.table.proc 0).state = .sleeping ∧ m.changes (.other 9) (.other 7) = 1 ∧
        m.seen 0 = 0) = true := by decide +kernel
  obtain ⟨m, hm, hd⟩ := (Option.any_eq_true _ _).mp hend
  obtain ⟨h1, h2, h3⟩ := of_decide_eq_true hd
  have hrun : Lib.Run Step boot sleepAndWake m := Lib.Run.of_foldlM hm
  exact ⟨m, hrun, h2, h3, (no_lost_wakeup hrun).2.1 0 h1⟩

end Machine

end Xv6.Process
