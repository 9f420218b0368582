import Xv6.Spinlock.Rules
import Mathlib.Data.Fintype.Card

/-!
# Spin locks — all CPUs

Any number of CPUs with any code that keeps to a discipline, in any order of turns, interrupted at
any time by any such code.

* `locks_exclude` — a lock has one CPU at a time, which alone touches what the lock guards and has its
  interrupts off; what a free lock guards satisfies its invariant; and no call panics.
* `locks_never_deadlock` — where locks are acquired in an order, all code can at any time come to its
  end.
-/

namespace Xv6.Spinlock

open Lib

variable {C L D : Type}

/-- What a CPU whose code has returned knows. -/
def Ended (b : C → Bool) (c : C) (_ : Unit) (v : View C L D) : Prop := Holds c (b c) (fun _ => none) [] v

/-- What holds at any time. -/
structure Machine.Excludes (R : Discipline L D) (b : C → Bool) (P : Machine C L D) : Prop where
  alone : ∀ c c' lk, P.state.inside c lk = true → P.state.inside c' lk = true → c = c'
  held : ∀ c lk, P.state.inside c lk = true →
    P.state.ifl c = false ∧ P.state.locked lk = true ∧ P.state.owner lk = some c
  kept : ∀ lk, (∀ c, P.state.inside c lk = false) → R.inv lk (P.state.data lk)
  get : ∀ c c' lk k, P.prog c = .op (.get c' lk) k → P.state.inside c lk = true
  put : ∀ c c' lk d k, P.prog c = .op (.put c' lk d) k → P.state.inside c lk = true
  waits : ∀ c c' lk k, P.prog c = .op (.xchg c' lk) k → P.state.owner lk ≠ some c
  ended : ∀ c, P.prog c = .ret () → P.state.ifl c = b c ∧ P.state.ncli c = 0

variable [DecidableEq C] [DecidableEq L] {R : Discipline L D} {b : C → Bool} {P : Machine C L D}
  {vs : C → View C L D}

/-- Code that keeps to the discipline on every CPU, and views that fit. -/
abbrev Machine.Fits (R : Discipline L D) (b : C → Bool) (P : Machine C L D) (vs : C → View C L D) :
    Prop :=
  Pool.Fits (spec R) (Sat R) (Ended b) P vs

omit [DecidableEq C] in
/-- Where every CPU keeps to the discipline, the locks exclude. -/
theorem Machine.Fits.excludes (h : P.Fits R b vs) : P.Excludes R b := by
  have hop : ∀ {c o k}, P.prog c = .op o k → (spec R).pre o (vs c) := by
    intro c o k hp
    have := h.correct c
    rw [hp] at this
    exact this.1
  have hin : ∀ c lk, (∃ d, (vs c).stage lk = .inside d) → P.state.inside c lk = true := fun c lk =>
    (h.sat.inside c lk).mpr
  refine ⟨fun c c' lk hc hc' => ?_, fun c lk hc => ?_, fun lk hlk => ?_, fun c c' lk k hp => ?_,
    fun c c' lk d k hp => ?_, fun c c' lk k hp => ?_, fun c hp => ?_⟩
  · obtain ⟨d, hd⟩ := (h.sat.inside c lk).mp hc
    obtain ⟨d', hd'⟩ := (h.sat.inside c' lk).mp hc'
    exact h.sat.alone c c' lk (by simp [hd]) (by simp [hd'])
  · obtain ⟨d, hd⟩ := (h.sat.inside c lk).mp hc
    refine ⟨?_, (h.sat.locked lk).mpr ⟨c, by simp [hd]⟩, (h.sat.owner c lk).mpr (.inr ⟨d, hd⟩)⟩
    rw [h.sat.ifl, ← Bool.not_eq_true]
    intro hi
    rw [h.sat.calm c hi] at hd
    cases hd
  · refine h.sat.kept lk fun c d hd => ?_
    have := (h.sat.inside c lk).mpr ⟨d, hd⟩
    rw [hlk c] at this
    cases this
  · exact hin c lk (hop hp).2.2
  · exact hin c lk (hop hp).2.2
  · obtain ⟨-, -, hbefore⟩ := hop hp
    intro ho
    refine R.irrefl lk (hbefore lk fun hf => ?_)
    have := (h.sat.owner c lk).mp ho
    rw [hf] at this
    simp [Stage.Owned] at this
  · have hc := h.correct c
    rw [hp] at hc
    have hc : Holds c (b c) (fun _ => none) [] (vs c) := hc
    refine ⟨?_, (h.sat.ncli c).trans hc.ncli⟩
    rw [h.sat.ifl, hc.ifl]
    simp

/-- What may happen next. -/
def Event.Disciplined (R : Discipline L D) : Event C L D → Prop
  | .turn _ => True
  | .interrupt _ p => Spinlock.Disciplined R p

/-- Every event keeps the fit. -/
theorem Machine.Fits.step (h : P.Fits R b vs) {e : Event C L D} (he : e.Disciplined R) :
    ∃ P', P.step e = .ok P' ∧ ∃ ws, P'.Fits R b ws := by
  cases e with
  | turn c =>
      obtain ⟨hok, herr⟩ := Pool.turn_local (spec_sound R) h c
      cases ht : P.turn ops Stop.waits c with
      | ok P' => exact ⟨P', ht, hok P' ht⟩
      | error e => exact (herr e ht).elim
  | interrupt c p =>
      by_cases hi : P.state.ifl c = true
      · obtain ⟨w, rfl, hw⟩ := (spec_sound R).ok (o := Op.cli c) h.sat (h.sat.me c).symm rfl
        refine ⟨_, if_pos hi, _, hw, fun c' => ?_⟩
        by_cases hc : c' = c
        · subst hc
          simp only [Function.update_self]
          have hidle := h.sat.calm c' ((h.sat.ifl c').symm.trans hi)
          have hc := h.correct c'
          rw [hidle] at hc ⊢
          refine Prog.lwp_seq (lwp_handler he) ?_
          rintro _ w rfl
          exact hc
        · simp only [Function.update_of_ne hc]
          exact h.correct c'
      · exact ⟨P, if_neg hi, vs, h⟩

/-- Every run of disciplined events keeps the fit. -/
theorem Machine.Fits.run {es : List (Event C L D)} (h : P.Fits R b vs)
    (hes : ∀ e ∈ es, e.Disciplined R) : ∃ P', P.run es = .ok P' ∧ ∃ ws, P'.Fits R b ws := by
  induction es generalizing P vs with
  | nil => exact ⟨P, rfl, vs, h⟩
  | cons e es ih =>
      obtain ⟨P', hP', ws, h'⟩ := h.step (hes e List.mem_cons_self)
      obtain ⟨P'', hr, hP''⟩ := ih h' fun e he => hes e (List.mem_cons_of_mem _ he)
      exact ⟨P'', by rw [Machine.run, hP']; exact hr, hP''⟩

/-- At boot every CPU has its code before it, and no lock. -/
theorem Machine.boot_fits {code : C → Kernel L D Unit} {data : L → D}
    (hcode : ∀ c, Disciplined R (code c)) (hdata : ∀ lk, R.inv lk (data lk)) :
    (Machine.boot code data b).Fits R b fun c => ⟨c, b c, 0, none, fun _ => .free⟩ := by
  have hcalm : ∀ c, b c = true → (⟨c, b c, 0, none, fun _ => .free⟩ : View C L D) = .idle c := by
    intro c hb
    rw [hb]
    rfl
  refine ⟨⟨fun _ => rfl, fun _ => rfl, fun _ => rfl, fun _ _ hb => (by cases hb), fun lk => ?_,
    fun _ _ _ h => absurd rfl h, fun c lk => ?_, fun c lk => ?_, fun _ _ _ h => (by cases h),
    fun lk _ => hdata lk, hcalm⟩, fun c => ?_⟩
  · simp [boot]
  · simp [boot, Stage.Owned]
  · simp [boot]
  · refine lwp_expand_call (hcode c) ⟨rfl, List.nodup_nil, fun lk => by simp, fun _ => rfl, rfl, ?_,
      fun hne => absurd rfl hne, hcalm c⟩
    simp

/-! ### Progress -/

/-- A CPU that cannot go on spins. -/
theorem Machine.Fits.spins (h : P.Fits R b vs) {c : C} {o : Op C L D} {k : o.Res → Code C L D Unit}
    {e : Stop} (hp : P.prog c = .op o k) (ho : ops o P.state = .error e) :
    ∃ lk, o = .xchg c lk ∧ P.state.locked lk = true ∧ ∀ l, (vs c).stage l ≠ .free → R.before l lk := by
  have hpre := h.correct c
  rw [hp] at hpre
  have hpre := hpre.1
  cases o with
  | xchg c' lk =>
      have ho : (if P.state.locked lk then _ else _) = _ := ho
      split at ho
      · rename_i hl
        obtain rfl : c' = c := hpre.1.trans (h.sat.me c)
        exact ⟨lk, rfl, hl, hpre.2.2⟩
      · cases ho
  | panic p => exact hpre.elim
  | _ => cases ho

/-- Where locks have an order, one CPU can go on. -/
theorem Machine.Fits.progress [Finite C] (hR : ∀ {l m n}, R.before l m → R.before m n → R.before l n)
    (h : P.Fits R b vs) (hend : ∃ c, (P.prog c).value = none) :
    ∃ c o k r, P.prog c = .op o k ∧ ops o P.state = .ok r := by
  by_contra hno
  have spins : ∀ c, (P.prog c).value = none → ∃ lk k, P.prog c = .op (.xchg c lk) k ∧
      P.state.locked lk = true ∧ ∀ l, (vs c).stage l ≠ .free → R.before l lk := by
    intro c hc
    cases hp : P.prog c with
    | ret a =>
        rw [hp] at hc
        cases hc
    | op o k =>
        cases ho : ops o P.state with
        | ok r => exact absurd ⟨c, o, k, r, hp, ho⟩ hno
        | error e =>
            obtain ⟨lk, rfl, hl⟩ := h.spins hp ho
            exact ⟨lk, k, rfl, hl⟩
  -- one CPU waits after another if it waits for a later lock
  let later (c c' : C) : Prop := ∃ lk lk' k k', P.prog c = .op (.xchg c lk) k ∧
    P.prog c' = .op (.xchg c' lk') k' ∧ R.before lk' lk
  have htrans : IsTrans C later := by
    refine ⟨?_⟩
    rintro c₁ c₂ c₃ ⟨l₁, l₂, k₁, k₂, h₁, h₂, h₁₂⟩ ⟨l₂', l₃, k₂', k₃, h₂', h₃, h₂₃⟩
    rw [h₂] at h₂'
    cases h₂'
    exact ⟨l₁, l₃, k₁, k₃, h₁, h₃, hR h₂₃ h₁₂⟩
  have hirrefl : Std.Irrefl later := by
    refine ⟨?_⟩
    rintro c ⟨l, l', k, k', h₁, h₂, hl⟩
    rw [h₁] at h₂
    cases h₂
    exact R.irrefl l hl
  obtain ⟨c, hc, hmin⟩ := (Finite.wellFounded_of_trans_of_irrefl later).has_min
    {c | (P.prog c).value = none} hend
  obtain ⟨lk, k, hp, hl, -⟩ := spins c hc
  obtain ⟨c', hst⟩ := (h.sat.locked lk).mp hl
  have hc' : (P.prog c').value = none := by
    cases hp' : P.prog c' with
    | ret a =>
        have := h.correct c'
        rw [hp'] at this
        have : Holds c' (b c') (fun _ => none) [] (vs c') := this
        exact absurd (this.free_iff.mpr rfl) hst
    | op o k => rfl
  obtain ⟨lk', k', hp', -, hbefore⟩ := spins c' hc'
  exact hmin c' hc' ⟨lk', lk, k', k, hp', hp, hbefore lk hst⟩

/-- Without interrupts, the machine is a pool of programs. -/
theorem Machine.run_turns (sched : List C) :
    P.run (sched.map .turn) = Pool.run ops Stop.waits sched P := by
  induction sched generalizing P with
  | nil => rfl
  | cons c sched ih =>
      simp only [List.map_cons, Machine.run, Machine.step, Pool.run]
      cases P.turn ops Stop.waits c with
      | ok P' => exact ih
      | error e => rfl

section

variable {code : C → Kernel L D Unit} {data : L → D} {es : List (Event C L D)}

/-- **Locks exclude.**  Any code that keeps to a discipline, on any number of CPUs, in any order and
with any interrupts: no call panics, a lock is held by one CPU at a time, and what it guards satisfies
its invariant when it is free. -/
theorem locks_exclude (hcode : ∀ c, Disciplined R (code c)) (hdata : ∀ lk, R.inv lk (data lk))
    (hes : ∀ e ∈ es, e.Disciplined R) :
    ∃ P', (Machine.boot code data b).run es = .ok P' ∧ P'.Excludes R b := by
  obtain ⟨P', hP', ws, h⟩ := (Machine.boot_fits hcode hdata).run hes
  exact ⟨P', hP', h.excludes⟩

/-- The timer interrupt of `trap.c`: `ticks++` with `tickslock`, here `false`, and inside it `wakeup`
with `ptable.lock`. -/
def timer : Kernel Bool ℕ Unit := do
  Prog.perform (Call.acquire false)
  let ticks ← Prog.perform (Call.get false)
  Prog.perform (Call.put false (ticks + 1))
  Prog.perform (Call.acquire true)
  Prog.perform (Call.release true)
  Prog.perform (Call.release false)

/-- `ptable.lock` inside `tickslock`. -/
def timerOrder : Discipline Bool ℕ where
  before := fun l lk => l = false ∧ lk = true
  inv := fun lk d => lk = true → d = 0
  irrefl := by
    rintro lk ⟨h, h'⟩
    rw [h] at h'
    cases h'

/-- The handler of the timer keeps to the order. -/
theorem timer_disciplined : Disciplined timerOrder timer := by
  refine Prog.lwp_op (fun l hl => absurd rfl hl) ?_
  rintro _ h ⟨d, -, rfl⟩
  refine Prog.lwp_op (by simp [callSpec, Call.asks]) ?_
  rintro ticks h ⟨-, rfl⟩
  refine Prog.lwp_op (by simp [callSpec, Call.asks]) ?_
  rintro _ h rfl
  refine Prog.lwp_op (fun l hl => ?_) ?_
  · cases l with
    | false => exact ⟨rfl, rfl⟩
    | true => simp at hl
  rintro _ h ⟨d, hd, rfl⟩
  refine Prog.lwp_op ⟨d, by simp, hd⟩ ?_
  rintro _ h rfl
  refine Prog.lwp_perform ⟨ticks + 1, by simp, fun h => (by cases h)⟩ ?_
  rintro _ h rfl
  funext lk
  cases lk <;> simp

theorem locks_exclude_timer :
    ∃ P', (Machine.boot (fun _ : Bool => timer) (fun _ => 0) fun _ => true).run
        [.turn false, .interrupt true timer, .turn true, .turn false] = .ok P' ∧
      P'.Excludes timerOrder fun _ => true :=
  locks_exclude (fun _ => timer_disciplined) (fun _ _ => rfl) (by
    simp [Event.Disciplined, timer_disciplined])

/-- **No deadlock.**  Where locks are acquired in an order, the CPUs can at any time still all come to
the end of their code, with all locks free and their interrupts as they were. -/
theorem locks_never_deadlock [Finite C] (hR : ∀ l m n, R.before l m → R.before m n → R.before l n)
    (hcode : ∀ c, Disciplined R (code c)) (hdata : ∀ lk, R.inv lk (data lk))
    (hes : ∀ e ∈ es, e.Disciplined R) :
    ∃ P', (Machine.boot code data b).run es = .ok P' ∧
      ∃ (sched : List C) (P'' : Machine C L D), P'.run (sched.map .turn) = .ok P'' ∧
        (∀ c, P''.prog c = .ret () ∧ P''.state.ifl c = b c) ∧
        ∀ lk, P''.state.locked lk = false ∧ R.inv lk (P''.state.data lk) := by
  obtain ⟨P', hP', ws, h⟩ := (Machine.boot_fits hcode hdata).run hes
  have hturn : ∀ {P P' : Machine C L D} (c : C), (∃ vs, P.Fits R b vs) →
      P.turn ops Stop.waits c = .ok P' → ∃ vs, P'.Fits R b vs := by
    rintro P P' c ⟨vs, h⟩ ht
    exact (Pool.turn_local (spec_sound R) h c).1 P' ht
  have hgo : ∀ {P : Machine C L D}, (∃ vs, P.Fits R b vs) → (∃ c, (P.prog c).value = none) →
      ∃ c o k r, P.prog c = .op o k ∧ ops o P.state = .ok r := by
    rintro P ⟨vs, h⟩ hend
    exact h.progress (hR _ _ _) hend
  obtain ⟨sched, P'', hr, ⟨us, h'⟩, hend⟩ := Pool.exists_run_ended hturn hgo ⟨ws, h⟩
  have ended : ∀ c, P''.prog c = .ret () ∧ Holds c (b c) (fun _ => none) [] (us c) := by
    intro c
    obtain ⟨⟨⟩, ha⟩ := Option.ne_none_iff_exists'.mp (hend c)
    have hp := Prog.value_eq_some.mp ha
    have hc := h'.correct c
    rw [hp] at hc
    exact ⟨hp, hc⟩
  have hfree : ∀ c lk, (us c).stage lk = .free := fun c lk => (ended c).2.free_iff.mpr rfl
  refine ⟨P', hP', sched, P'', (Machine.run_turns sched).trans hr, fun c => ⟨(ended c).1, ?_⟩,
    fun lk => ⟨?_, h'.sat.kept lk fun c d hd => ?_⟩⟩
  · rw [h'.sat.ifl, (ended c).2.ifl]
    simp
  · rw [← Bool.not_eq_true]
    intro hl
    obtain ⟨c, hc⟩ := (h'.sat.locked lk).mp hl
    exact hc (hfree c lk)
  · rw [hfree] at hd
    cases hd

/-- Two CPUs in the handler of the timer, one of them interrupted. -/
theorem locks_never_deadlock_timer :
    ∃ P', (Machine.boot (fun _ : Bool => timer) (fun _ => 0) fun _ => true).run
        [.turn false, .interrupt true timer, .turn true, .turn false] = .ok P' ∧
      ∃ (sched : List Bool) (P'' : Machine Bool Bool ℕ), P'.run (sched.map .turn) = .ok P'' ∧
        (∀ c, P''.prog c = .ret () ∧ P''.state.ifl c = true) ∧
        ∀ lk, P''.state.locked lk = false ∧ timerOrder.inv lk (P''.state.data lk) :=
  locks_never_deadlock (by simp [timerOrder]) (fun _ => timer_disciplined) (fun _ _ => rfl) (by
    simp [Event.Disciplined, timer_disciplined])

end

end Xv6.Spinlock
