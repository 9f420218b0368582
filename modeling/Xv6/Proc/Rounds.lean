import Xv6.Proc.Cpus
import Mathlib.Data.Fintype.Card
import Mathlib.Data.List.TakeWhile

/-!
# Processes — the rounds of the schedulers

Every CPU goes through the table from its first entry to its last, over and over, and a process that
is `RUNNABLE` stays so until some CPU chooses it.  So no process waits for long: before it is chosen,
a CPU chooses any other entry once at most (`scheduler_waits_bounded`).

* `ahead` — the entries that a CPU still comes to before it comes to `p`.
* `switches_ahead` — the switches of a CPU use them up in this order.
-/

namespace Xv6.Process

/-- The entries the loop has to go. -/
def Phase.left : Phase → List (Fin NPROC)
  | .idle => []
  | .scan l | .chosen _ l | .runs _ l | .back _ l => l

/-- The entries before `p`. -/
def before (p : Fin NPROC) : List (Fin NPROC) := (List.finRange NPROC).takeWhile (· ≠ p)

/-- The entries before `p`, with the rest `l` of a round to go. -/
def roundTo (p : Fin NPROC) (l : List (Fin NPROC)) : List (Fin NPROC) :=
  if p ∈ l then l.takeWhile (· ≠ p) else l ++ before p

section

variable {p q : Fin NPROC} {l : List (Fin NPROC)}

theorem roundTo_nil : roundTo p [] = before p := by simp [roundTo]

theorem roundTo_finRange : roundTo p (List.finRange NPROC) = before p := by
  rw [roundTo, if_pos (List.mem_finRange p), before]

theorem roundTo_cons (hq : q ≠ p) : roundTo p (q :: l) = q :: roundTo p l := by
  unfold roundTo
  by_cases hp : p ∈ l
  · simp [hp, hq]
  · simp [hp, hq.symm]

theorem not_mem_takeWhile : p ∉ l.takeWhile (· ≠ p) := fun hp => by
  simpa using List.mem_takeWhile_imp hp

theorem not_mem_roundTo : p ∉ roundTo p l := by
  unfold roundTo
  split
  · exact not_mem_takeWhile
  · rename_i hp
    rw [List.mem_append, not_or]
    exact ⟨hp, not_mem_takeWhile⟩

/-- No process comes twice before `p`. -/
theorem roundTo_nodup (hl : l <:+ List.finRange NPROC) : (roundTo p l).Nodup := by
  have hnd := List.nodup_finRange NPROC
  unfold roundTo
  split
  · exact (hnd.sublist hl.sublist).sublist (List.takeWhile_sublist _)
  · rename_i hp
    obtain ⟨done, hdone⟩ := hl
    have hmem : p ∈ done := by
      have : p ∈ done ++ l := by
        rw [hdone]
        exact List.mem_finRange p
      exact (List.mem_append.mp this).resolve_right hp
    have hbefore : (before p).Sublist done := by
      rw [before, ← hdone, List.takeWhile_append]
      split
      · rename_i hlen
        have heq := (List.takeWhile_prefix (· ≠ p)).eq_of_length hlen
        exact absurd (heq ▸ hmem) not_mem_takeWhile
      · exact List.takeWhile_sublist _
    refine List.nodup_append_comm.mp ?_
    refine List.Nodup.sublist (hbefore.append (List.Sublist.refl l)) ?_
    rwa [hdone]

theorem length_roundTo (hl : l <:+ List.finRange NPROC) : (roundTo p l).length < NPROC := by
  have hnd : (p :: roundTo p l).Nodup := List.nodup_cons.mpr ⟨not_mem_roundTo, roundTo_nodup hl⟩
  have := hnd.length_le_card
  simp only [List.length_cons, Fintype.card_fin] at this
  omega

end

theorem Nudged.runnable {x y : Proc} (h : Nudged x y) (hx : x.state = .runnable) : y.state = .runnable := by
  rcases h.state with e | ⟨e, -⟩
  · rw [e, hx]
  · rw [hx] at e
    cases e

namespace Machine

variable {κ : Type} [DecidableEq κ] {m m' : Machine κ} {c d : κ} {p q i : Fin NPROC}
  {l : List (Fin NPROC)} {o : Op}

/-- The entries that CPU `c` comes to before `p`. -/
def ahead (m : Machine κ) (c : κ) (p : Fin NPROC) : List (Fin NPROC) := roundTo p (m.cpu c).phase.left

/-- The process that a step switches to. -/
def switchTo (m : Machine κ) (a : κ × Op) : Option (Fin NPROC) :=
  match a.2, (m.cpu a.1).phase with
  | .scheduler, .scan (p :: _) => if (m.table.proc p).state = .runnable then some p else none
  | _, _ => none

/-- The switches along a run, each with its CPU. -/
def switches (m : Machine κ) : List (κ × Op) → List (κ × Fin NPROC)
  | [] => []
  | a :: as =>
      ((m.switchTo a).map fun p => (a.1, p)).toList ++
        ((m.step a.1 a.2).map fun m' => switches m' as).getD []

/-- The loop of every CPU goes on to the end of the table. -/
def InRound (m : Machine κ) : Prop := ∀ c, (m.cpu c).phase.left <:+ List.finRange NPROC

/-! ### Who is `RUNNABLE` -/

section

variable (h : m.Inv) (hph : (m.cpu c).phase = .runs q l) (hp : (m.table.proc p).state = .runnable)
include h hph hp

/-- What others do under the lock leaves a process that can run as it is. -/
theorem Inv.body_runnable {e : Entry} (hs : m.sec (.proc q) = .body e) (hb : m.body q e = some m') :
    (m'.table.proc p).state = .runnable := by
  have hon := h.on hph
  rw [hs] at hon
  -- One case for each thing that is done under the lock.
  cases e with
  | yield =>
      obtain rfl := Option.some.inj hb
      by_cases hpq : p = q
      · simp [hpq]
      · simpa [hpq] using hp
  | wakeup ch =>
      obtain rfl := Option.some.inj hb
      exact (wake_nudged _ _).runnable hp
  | kill pid =>
      obtain rfl := Option.some.inj hb
      exact (kill_nudged _ _ _).runnable hp
  | exit =>
      obtain rfl := Option.some.inj hb
      have hpq : p ≠ q := by
        rintro rfl
        rw [hon.1] at hp
        cases hp
      rw [setSec, (exit_fields m q).2.2.2]
      exact ((exit_nudged m.table q).1 p hpq).runnable hp
  | wait =>
      obtain rfl := Option.some.inj hb
      unfold Machine.wait
      split
      · rename_i i k hi
        have hpi : p ≠ i := by
          rintro rfl
          rw [(Ptable.scanFrom_some hi).2] at hp
          cases hp
        simpa [hpi] using hp
      · split <;> exact hp
  | allocproc =>
      obtain rfl := Option.some.inj hb
      rcases Ptable.allocproc_spec (show m.table.runs q .user from hon) with e | ⟨np, -, hun, h1, -⟩
      · simpa [e] using hp
      · have hpn : p ≠ np := by
          rintro rfl
          rw [hun] at hp
          cases hp
        simp [h1, hpn, hp]
  | setRunnable =>
      obtain ⟨np, hnp, hb⟩ := Option.bind_eq_some_iff.mp hb
      obtain rfl := Option.some.inj hb
      have hne : q ≠ np := by
        rintro rfl
        exact h.not_current (.inr (h.reserves.embryo q q hnp).1) c (h.proc_eq hph)
      have h1 := (Ptable.setRunnable_spec (s := m.table) hne).1 p
      show ((m.table.setRunnable q np).proc p).state = _
      rw [h1]
      split
      · rfl
      · exact hp

/-- No step of another's section changes it. -/
theorem Inv.run_runnable (hr : m.run c q l = some m') : (m'.table.proc p).state = .runnable := by
  have hon := h.on hph
  unfold Machine.run at hr
  split at hr
  all_goals rename_i hs; rw [hs] at hon
  · cases hr
  · exact h.body_runnable hph hp hs hr
  · obtain ⟨-, hr⟩ := Option.ite_none_right_eq_some.mp hr
    obtain rfl := Option.some.inj hr
    exact hp
  · obtain rfl := Option.some.inj hr
    exact hp
  · obtain rfl := Option.some.inj hr
    have hpq : p ≠ q := by
      rintro rfl
      rw [show (m.table.proc p).state = .running from hon] at hp
      cases hp
    simpa [hpq] using hp
  · obtain ⟨-, hr⟩ := Option.ite_none_right_eq_some.mp hr
    obtain rfl := Option.some.inj hr
    exact hp
  · obtain rfl := Option.some.inj hr
    exact hp
  · rename_i ch lk
    have hset : (((m.setProc q { m.table.proc q with chan := none }).table.proc p).state) = .runnable := by
      by_cases hpq : p = q
      · subst hpq
        simpa using hp
      · simpa [hpq] using hp
    cases lk with
    | ptable =>
        obtain rfl := Option.some.inj hr
        exact hset
    | other n =>
        obtain rfl := Option.some.inj hr
        exact hset
  · obtain rfl := Option.some.inj hr
    exact hp
  · obtain rfl := Option.some.inj hr
    exact hp

/-- No `fork` of another changes it. -/
theorem Inv.fork_runnable {o : Op} (hf : m.fork q o (m.table.proc q).pc = some m') :
    (m'.table.proc p).state = .runnable := by
  have hgoto : ∀ pc, ((m.table.goto q pc).proc p).state = .runnable := fun pc =>
    (goto_spec m.table p pc).1.trans hp
  have hres : ∀ {np}, (m.table.proc q).pc.reserves = some np → np ≠ q ∧ p ≠ np := by
    intro np hnp
    have he := (h.reserves.embryo q np hnp).1
    refine ⟨?_, ?_⟩
    · rintro rfl
      exact h.not_current (.inr he) c (h.proc_eq hph)
    · rintro rfl
      rw [he] at hp
      cases hp
  have hfails : ∀ {np}, (m.table.proc q).pc.reserves = some np →
      ((m.table.forkFails q np).proc p).state = .runnable := by
    intro np hnp
    obtain ⟨hne, hpn⟩ := hres hnp
    rw [(forkFails_spec m.table p hne).1, if_neg hpn, hp]
  unfold Machine.fork at hf
  split at hf
  · obtain rfl := Option.some.inj hf
    exact hgoto _
  · rename_i np hpc
    obtain rfl := Option.some.inj hf
    exact hfails (by rw [hpc]; rfl)
  · obtain rfl := Option.some.inj hf
    exact hgoto _
  · rename_i np hpc
    obtain rfl := Option.some.inj hf
    exact hfails (by rw [hpc]; rfl)
  · rename_i np hpc
    obtain rfl := Option.some.inj hf
    have hpar : (m.table.proc q).pc.reserves = some np := by rw [hpc]; rfl
    have hne := (hres hpar).1
    exact (setParent_spec m.table p hne).1.trans hp
  · cases hf

end

theorem acquire_phase (m : Machine κ) (c d : κ) (lk : Lk) :
    ((m.acquire c lk).cpu d).phase = (m.cpu d).phase := by
  by_cases hd : d = c <;> simp [hd]

theorem release_phase (m : Machine κ) (c d : κ) (lk : Lk) :
    ((m.release c lk).cpu d).phase = (m.cpu d).phase := by
  by_cases hd : d = c <;> simp [hd]

/-- Outside the table's code nothing happens to the table, and a CPU's round stands still. -/
theorem outside_fields {t : Thread κ} (ho : m.outside c t o = some m') :
    m'.table = m.table ∧ ∀ d, (m'.cpu d).phase = (m.cpu d).phase := by
  cases o with
  | acquire n =>
      obtain ⟨-, ho⟩ := Option.ite_none_right_eq_some.mp ho
      obtain rfl := Option.some.inj ho
      exact ⟨rfl, fun d => acquire_phase m c d (.other n)⟩
  | release n =>
      obtain ⟨-, ho⟩ := Option.ite_none_right_eq_some.mp ho
      obtain rfl := Option.some.inj ho
      exact ⟨rfl, fun d => release_phase m c d (.other n)⟩
  | change ch n =>
      obtain ⟨-, ho⟩ := Option.ite_none_right_eq_some.mp ho
      obtain rfl := Option.some.inj ho
      exact ⟨rfl, fun d => rfl⟩
  | call e =>
      obtain ⟨-, ho⟩ := Option.ite_none_right_eq_some.mp ho
      obtain rfl := Option.some.inj ho
      exact ⟨rfl, fun d => acquire_phase m c d .ptable⟩
  | _ => cases ho

/-- A process outside of its sections moves no scheduler. -/
theorem process_phase (hs : m.process c q o = some m') (d : κ) :
    (m'.cpu d).phase = (m.cpu d).phase := by
  have hfork : ∀ {o}, m.fork q o (m.table.proc q).pc = some m' → m'.cpu = m.cpu := by
    intro o hf
    unfold fork at hf
    split at hf
    · obtain rfl := Option.some.inj hf
      rfl
    · obtain rfl := Option.some.inj hf
      rfl
    · obtain rfl := Option.some.inj hf
      rfl
    · obtain rfl := Option.some.inj hf
      rfl
    · obtain rfl := Option.some.inj hf
      rfl
    · cases hf
  cases o with
  | sleep ch n =>
      obtain ⟨-, hs⟩ := Option.ite_none_right_eq_some.mp hs
      obtain rfl := Option.some.inj hs
      rfl
  | relock =>
      simp only [process] at hs
      split at hs
      · rename_i n _
        obtain ⟨-, hs⟩ := Option.ite_none_right_eq_some.mp hs
        obtain rfl := Option.some.inj hs
        exact acquire_phase m c d (.other n)
      · cases hs
  | call e => exact (outside_fields (Option.ite_none_right_eq_some.mp hs).2).2 d
  | kalloc ok => rw [hfork hs]
  | copyuvm ok => rw [hfork hs]
  | setParent => rw [hfork hs]
  | acquire n => exact (outside_fields (t := .proc q) (o := .acquire n) hs).2 d
  | release n => exact (outside_fields (t := .proc q) (o := .release n) hs).2 d
  | change ch n => exact (outside_fields (t := .proc q) (o := .change ch n) hs).2 d
  | scheduler => cases hs
  | run => cases hs

/-- No step of another process changes it. -/
theorem Inv.process_runnable (h : m.Inv) (hph : (m.cpu c).phase = .runs q l)
    (hp : (m.table.proc p).state = .runnable) (hs : m.process c q o = some m') :
    (m'.table.proc p).state = .runnable := by
  have same : m'.table = m.table → (m'.table.proc p).state = .runnable := fun ht => by rw [ht, hp]
  cases o with
  | sleep ch n =>
      obtain ⟨-, hs⟩ := Option.ite_none_right_eq_some.mp hs
      obtain rfl := Option.some.inj hs
      exact hp
  | relock =>
      simp only [Machine.process] at hs
      split at hs
      · obtain ⟨-, hs⟩ := Option.ite_none_right_eq_some.mp hs
        obtain rfl := Option.some.inj hs
        exact hp
      · cases hs
  | call e => exact same (outside_fields (Option.ite_none_right_eq_some.mp hs).2).1
  | kalloc ok => exact h.fork_runnable hph hp hs
  | copyuvm ok => exact h.fork_runnable hph hp hs
  | setParent => exact h.fork_runnable hph hp hs
  | acquire n => exact same (outside_fields (t := .proc q) (o := .acquire n) hs).1
  | release n => exact same (outside_fields (t := .proc q) (o := .release n) hs).1
  | change ch n => exact same (outside_fields (t := .proc q) (o := .change ch n) hs).1
  | scheduler => cases hs
  | run => cases hs

/-- A scheduler that switches to another changes it neither. -/
theorem scheduler_runnable (hs : m.scheduler c = some m') (hp : (m.table.proc p).state = .runnable)
    (hno : m.switchTo (c, .scheduler) ≠ some p) : (m'.table.proc p).state = .runnable := by
  unfold scheduler at hs
  split at hs
  · obtain ⟨-, hs⟩ := Option.ite_none_right_eq_some.mp hs
    obtain rfl := Option.some.inj hs
    exact hp
  · obtain rfl := Option.some.inj hs
    exact hp
  · rename_i q l hph
    split at hs
    · rename_i hq
      obtain rfl := Option.some.inj hs
      have hpq : p ≠ q := by
        rintro rfl
        simp [switchTo, hph, hq] at hno
      simpa [hpq] using hp
    · obtain rfl := Option.some.inj hs
      exact hp
  · split at hs
    · obtain ⟨-, -, rfl⟩ := Option.map_eq_some_iff.mp hs
      exact hp
    · cases hs
  · obtain rfl := Option.some.inj hs
    exact hp
  · cases hs

/-- **Who is `RUNNABLE` stays so** until it is chosen. -/
theorem Inv.runnable (h : m.Inv) (hs : m.step c o = some m') (hp : (m.table.proc p).state = .runnable)
    (hno : m.switchTo (c, o) ≠ some p) : (m'.table.proc p).state = .runnable := by
  unfold Machine.step at hs
  split at hs
  · rename_i q l hph
    split at hs
    · exact h.run_runnable hph hp hs
    · obtain ⟨-, hs⟩ := Option.ite_none_right_eq_some.mp hs
      exact h.process_runnable hph hp hs
  · split at hs
    · exact scheduler_runnable hs hp hno
    · unfold Machine.runIdle at hs
      split at hs
      · obtain rfl := Option.some.inj hs
        exact (wake_nudged _ _).runnable hp
      · obtain rfl := Option.some.inj hs
        exact hp
      · cases hs
    · obtain ⟨-, hs⟩ := Option.ite_none_right_eq_some.mp hs
      rw [(outside_fields hs).1]
      exact hp
  · split at hs
    · exact scheduler_runnable hs hp hno
    · cases hs

/-! ### The rounds -/

/-- What is done under the lock changes no CPU. -/
theorem body_cpu {e : Entry} (hb : m.body q e = some m') : m'.cpu = m.cpu := by
  cases e with
  | exit =>
      obtain rfl := Option.some.inj hb
      exact (exit_fields m q).1
  | wait =>
      obtain rfl := Option.some.inj hb
      unfold wait
      split
      · rfl
      · split <;> rfl
  | setRunnable =>
      obtain ⟨np, -, hb⟩ := Option.bind_eq_some_iff.mp hb
      obtain rfl := Option.some.inj hb
      rfl
  | yield =>
      obtain rfl := Option.some.inj hb
      rfl
  | wakeup ch =>
      obtain rfl := Option.some.inj hb
      rfl
  | kill pid =>
      obtain rfl := Option.some.inj hb
      rfl
  | allocproc =>
      obtain rfl := Option.some.inj hb
      rfl

/-- A section does not change what is left of a scan. -/
theorem run_left (hph : (m.cpu c).phase = .runs q l) (hs : m.run c q l = some m') (d : κ) :
    (m'.cpu d).phase.left = (m.cpu d).phase.left := by
  unfold run at hs
  split at hs
  · cases hs
  · rw [body_cpu hs]
  · obtain ⟨-, hs⟩ := Option.ite_none_right_eq_some.mp hs
    obtain rfl := Option.some.inj hs
    exact congrArg Phase.left (acquire_phase m c d .ptable)
  · rename_i n _
    obtain rfl := Option.some.inj hs
    exact congrArg Phase.left (release_phase m c d (.other n))
  · obtain rfl := Option.some.inj hs
    rfl
  · obtain ⟨-, hs⟩ := Option.ite_none_right_eq_some.mp hs
    obtain rfl := Option.some.inj hs
    rfl
  · obtain rfl := Option.some.inj hs
    by_cases hd : d = c
    · simp [hd, hph, Phase.left]
    · simp [hd]
  · rename_i ch lk hsec
    cases lk with
    | ptable =>
        obtain rfl := Option.some.inj hs
        rfl
    | other n =>
        obtain rfl := Option.some.inj hs
        rfl
  · obtain rfl := Option.some.inj hs
    exact congrArg Phase.left (release_phase m c d .ptable)
  · obtain rfl := Option.some.inj hs
    exact congrArg Phase.left (release_phase m c d .ptable)

/-- Without a process, a CPU stays in its place of the scan. -/
theorem runIdle_left (hs : m.runIdle c = some m') (d : κ) :
    (m'.cpu d).phase.left = (m.cpu d).phase.left := by
  unfold runIdle at hs
  split at hs
  · obtain rfl := Option.some.inj hs
    rfl
  · obtain rfl := Option.some.inj hs
    exact congrArg Phase.left (release_phase m c d .ptable)
  · cases hs

/-- What a step leaves of the round of its CPU, when it switches to `x`: all of it, a new one after
its end, or all but its first entry. -/
def Advances (m m' : Machine κ) (c : κ) (x : Option (Fin NPROC)) : Prop :=
  (x = none ∧ (m'.cpu c).phase.left = (m.cpu c).phase.left) ∨
    (x = none ∧ (m.cpu c).phase.left = [] ∧ (m'.cpu c).phase.left = List.finRange NPROC) ∨
    ∃ q, (m.cpu c).phase.left = q :: (m'.cpu c).phase.left ∧
      (x = none ∧ (m.table.proc q).state ≠ .runnable ∨ x = some q)

/-- A step of the scheduler goes one entry on, and at the end of the table begins anew. -/
theorem scheduler_advances (hs : m.scheduler c = some m') :
    (∀ d, d ≠ c → m'.cpu d = m.cpu d) ∧ Advances m m' c (m.switchTo (c, .scheduler)) := by
  unfold scheduler at hs
  split at hs
  · rename_i hph
    obtain ⟨-, hs⟩ := Option.ite_none_right_eq_some.mp hs
    obtain rfl := Option.some.inj hs
    refine ⟨fun d hd => by simp [hd], .inr (.inl ⟨by simp [switchTo, hph], by rw [hph]; rfl, ?_⟩)⟩
    simp [Phase.left]
  · rename_i hph
    obtain rfl := Option.some.inj hs
    refine ⟨fun d hd => by simp [hd], .inl ⟨by simp [switchTo, hph], ?_⟩⟩
    simp [hph, Phase.left]
  · rename_i q l hph
    have hsw : m.switchTo (c, .scheduler) =
        if (m.table.proc q).state = .runnable then some q else none := by
      simp only [switchTo, hph]
    rw [hsw]
    split at hs
    · rename_i hq
      rw [if_pos hq]
      obtain rfl := Option.some.inj hs
      refine ⟨fun d hd => by simp [hd], .inr (.inr ⟨q, ?_, .inr rfl⟩)⟩
      simp [hph, Phase.left]
    · rename_i hq
      rw [if_neg hq]
      obtain rfl := Option.some.inj hs
      refine ⟨fun d hd => by simp [hd], .inr (.inr ⟨q, ?_, .inl ⟨rfl, hq⟩⟩)⟩
      simp [hph, Phase.left]
  · rename_i q l hph
    split at hs
    · obtain ⟨s, -, rfl⟩ := Option.map_eq_some_iff.mp hs
      refine ⟨fun d hd => by simp [hd], .inl ⟨by simp [switchTo, hph], ?_⟩⟩
      simp [hph, Phase.left]
    · cases hs
  · rename_i q l hph
    obtain rfl := Option.some.inj hs
    refine ⟨fun d hd => by simp [hd], .inl ⟨by simp [switchTo, hph], ?_⟩⟩
    simp [hph, Phase.left]
  · cases hs

/-- Only its own scheduler moves a CPU in its scan. -/
theorem step_advances (hs : m.step c o = some m') :
    (∀ d, d ≠ c → (m'.cpu d).phase.left = (m.cpu d).phase.left) ∧
      Advances m m' c (m.switchTo (c, o)) := by
  have still : o ≠ .scheduler → (∀ d, (m'.cpu d).phase.left = (m.cpu d).phase.left) →
      (∀ d, d ≠ c → (m'.cpu d).phase.left = (m.cpu d).phase.left) ∧
        Advances m m' c (m.switchTo (c, o)) := by
    intro ho hleft
    refine ⟨fun d _ => hleft d, .inl ⟨?_, hleft c⟩⟩
    cases o <;> first | rfl | exact absurd rfl ho
  have scheduler : o = .scheduler → m.scheduler c = some m' →
      (∀ d, d ≠ c → (m'.cpu d).phase.left = (m.cpu d).phase.left) ∧
        Advances m m' c (m.switchTo (c, o)) := by
    rintro rfl hs
    obtain ⟨hcpu, hadv⟩ := scheduler_advances hs
    exact ⟨fun d hd => by rw [hcpu d hd], hadv⟩
  unfold step at hs
  split at hs
  · rename_i q l hph
    split at hs
    · exact still (by simp) (run_left hph hs)
    · obtain ⟨-, hs⟩ := Option.ite_none_right_eq_some.mp hs
      refine still ?_ fun d => by rw [process_phase hs d]
      rintro rfl
      cases hs
  · split at hs
    · exact scheduler rfl hs
    · exact still (by simp) (runIdle_left hs)
    · rename_i ho _
      obtain ⟨-, hs⟩ := Option.ite_none_right_eq_some.mp hs
      exact still ho fun d => by rw [(outside_fields hs).2 d]
  · split at hs
    · exact scheduler rfl hs
    · cases hs

/-- The position of every scheduler stays in the table. -/
theorem InRound.step (h : m.InRound) (hs : m.step c o = some m') : m'.InRound := by
  obtain ⟨hothers, hadv⟩ := step_advances hs
  intro d
  by_cases hd : d = c
  · subst hd
    rcases hadv with ⟨-, hl⟩ | ⟨-, -, hl⟩ | ⟨q, hl, -⟩
    · rw [hl]
      exact h d
    · exact hl ▸ List.suffix_refl _
    · have := h d
      rw [hl] at this
      exact (List.suffix_cons ..).trans this
  · rw [hothers d hd]
    exact h d

omit [DecidableEq κ] in
/-- A switch is to the next of the entries ahead of `p`. -/
theorem Advances.ahead {x : Option (Fin NPROC)} (h : Advances m m' c x)
    (hp : (m.table.proc p).state = .runnable) (hno : x ≠ some p) :
    (x.toList ++ m'.ahead c p).Sublist (m.ahead c p) := by
  unfold Machine.ahead
  rcases h with ⟨rfl, hl⟩ | ⟨rfl, hl, hl'⟩ | ⟨q, hl, hx⟩
  · rw [hl]
    exact .refl _
  · rw [hl, hl', roundTo_nil, roundTo_finRange]
    exact .refl _
  · have hq : q ≠ p := by
      rintro rfl
      rcases hx with ⟨-, hq⟩ | hx
      · exact hq hp
      · exact hno hx
    rw [hl, roundTo_cons hq]
    rcases hx with ⟨rfl, -⟩ | rfl
    · exact List.sublist_cons_self ..
    · exact .refl _

/-- While a process waits, a CPU switches only to processes that are ahead of it. -/
theorem switches_ahead {as : List (κ × Op)} (h : m.Inv) (hrun : Lib.Run Step m as m')
    (hp : (m.table.proc p).state = .runnable) (hno : ∀ d, (d, p) ∉ m.switches as) (c : κ) :
    (m'.table.proc p).state = .runnable ∧
      (((m.switches as).filter (·.1 = c)).map Prod.snd).Sublist (m.ahead c p) := by
  induction hrun with
  | nil m => exact ⟨hp, List.nil_sublist _⟩
  | @cons m t u a as hs _ ih =>
      have hs : m.step a.1 a.2 = some t := hs
      have hsw : m.switches (a :: as) =
          ((m.switchTo a).map fun p => (a.1, p)).toList ++ t.switches as := by
        rw [switches, hs]
        rfl
      rw [hsw] at hno ⊢
      have hno' : m.switchTo a ≠ some p := by
        intro hx
        refine hno a.1 ?_
        simp [hx]
      obtain ⟨hothers, hadv⟩ := step_advances hs
      obtain ⟨hend, hih⟩ := ih (h.step hs) (h.runnable hs hp hno')
        fun d hd => hno d (List.mem_append_right _ hd)
      refine ⟨hend, ?_⟩
      rw [List.filter_append, List.map_append]
      by_cases hc : c = a.1
      · subst hc
        refine List.Sublist.trans ?_ (hadv.ahead hp hno')
        have hfst : (((m.switchTo a).map fun p => (a.1, p)).toList.filter (·.1 = a.1)).map Prod.snd =
            (m.switchTo a).toList := by
          cases m.switchTo a <;> simp
        rw [hfst]
        exact (List.Sublist.refl _).append hih
      · have hnone : ((m.switchTo a).map fun p => (a.1, p)).toList.filter (·.1 = c) = [] := by
          cases m.switchTo a <;> simp [Ne.symm hc]
        have hsame : t.ahead c p = m.ahead c p := by
          rw [ahead, ahead, hothers c hc]
        rw [hnone, ← hsame]
        exact hih

/-- **No process waits for long.**  From any reachable state in which `p` is `RUNNABLE`, as long as no
CPU switches to `p`, it stays `RUNNABLE`, and no CPU switches to any other process twice. -/
theorem scheduler_waits_bounded {as bs : List (κ × Op)} (hrun : Lib.Run Step boot as m)
    (hrun' : Lib.Run Step m bs m') (hp : (m.table.proc p).state = .runnable)
    (hno : ∀ d, (d, p) ∉ m.switches bs) (c : κ) :
    (m'.table.proc p).state = .runnable ∧
      (((m.switches bs).filter (·.1 = c)).map Prod.snd).Nodup ∧
      ((m.switches bs).filter (·.1 = c)).length < NPROC := by
  have h : m.Inv := hrun.inv (fun _ _ _ hs h => h.step hs) boot_inv
  have hround : m.InRound := hrun.inv (fun _ _ _ hs h => h.step hs) fun _ => List.nil_suffix
  obtain ⟨hend, hsub⟩ := switches_ahead h hrun' hp hno c
  refine ⟨hend, (roundTo_nodup (hround c)).sublist hsub, ?_⟩
  have := hsub.length_le
  rw [List.length_map] at this
  exact this.trans_lt (length_roundTo (hround c))

/-- A `fork`, on CPU `0`. -/
def forks : List (Fin 2 × Op) :=
  [(0, .call .allocproc), (0, .run), (0, .run), (0, .kalloc true), (0, .copyuvm true),
    (0, .setParent), (0, .call .setRunnable), (0, .run), (0, .run)]

/-- CPU `0` starts `initproc`, which forks two processes. -/
def twoForks : List (Fin 2 × Op) :=
  List.replicate 3 (0, .scheduler) ++ [(0, .run)] ++ forks ++ forks

/-- `initproc` gives up CPU `0`, which switches to the first of them; CPU `1` switches to `initproc`,
which gives it up, too. -/
def twoSwitches : List (Fin 2 × Op) :=
  [(0, .call .yield), (0, .run), (0, .run), (0, .run)] ++ List.replicate 3 (0, .scheduler) ++
    [(0, .run)] ++ List.replicate 3 (1, .scheduler) ++
    [(1, .run), (1, .call .yield), (1, .run), (1, .run), (1, .run)]

/-- The second process waits, while both CPUs switch to others. -/
theorem scheduler_waits_bounded_twoSwitches : ∃ m m' : Machine (Fin 2),
    Lib.Run Step boot twoForks m ∧ Lib.Run Step m twoSwitches m' ∧
      (m.table.proc 2).state = .runnable ∧ m.switches twoSwitches = [(0, 1), (1, 0)] ∧
      (m'.table.proc 2).state = .runnable ∧
      ∀ c, ((m.switches twoSwitches).filter (·.1 = c)).length < NPROC := by
  have hend : ((twoForks.foldlM (fun (m : Machine (Fin 2)) a => m.step a.1 a.2) boot).any fun m =>
      (m.table.proc 2).state = .runnable ∧ m.switches twoSwitches = [(0, 1), (1, 0)] ∧
      (twoSwitches.foldlM (fun (m : Machine (Fin 2)) a => m.step a.1 a.2) m).isSome) = true := by
    decide +kernel
  obtain ⟨m, hm, hd⟩ := (Option.any_eq_true _ _).mp hend
  obtain ⟨hp, hswitches, hsome⟩ := of_decide_eq_true hd
  obtain ⟨m', hm'⟩ := Option.isSome_iff_exists.mp hsome
  have hrun : Lib.Run Step boot twoForks m := Lib.Run.of_foldlM hm
  have hrun' : Lib.Run Step m twoSwitches m' := Lib.Run.of_foldlM hm'
  have hbound := scheduler_waits_bounded hrun hrun' hp fun d => by simp [hswitches]
  exact ⟨m, m', hrun, hrun', hp, hswitches, (hbound 0).1, fun c => (hbound c).2.2⟩

end Machine

end Xv6.Process
