import Xv6.Spinlock.Basic

/-!
# Spin locks — what a CPU knows

A CPU knows its own flags, its part in every lock, and what the locks guard that it is inside of
(`View`); of the other CPUs it knows nothing.  While its interrupts are on it has part in no lock and
counts nothing (`View.idle`), so that an interrupt leaves what it knows as it was.

* `Discipline` — the order in which locks may be acquired, and what holds of the data of a free lock.
* `spec_sound` — what a CPU knows is kept by every operation of every other.
-/

namespace Xv6.Spinlock

open Lib

variable {C L D : Type}

/-- How far a CPU is with a lock. -/
inductive Stage (D : Type) where
  | free
  | taken
  | recorded
  /-- In its section, with what the lock guards. -/
  | inside (d : D)

/-- The lock names the CPU. -/
def Stage.Owned (x : Stage D) : Prop := x = .recorded ∨ ∃ d, x = .inside d

/-- What a CPU knows; `none` where what `intena` holds does not matter. -/
structure View (C L D : Type) where
  me : C
  ifl : Bool
  ncli : ℤ
  intena : Option Bool
  stage : L → Stage D

namespace View

/-- The view of a CPU whose interrupts are on. -/
def idle (me : C) : View C L D := ⟨me, true, 0, none, fun _ => .free⟩

variable [DecidableEq L] (v : View C L D) (lk : L)

/-- How far the CPU is with one lock changes. -/
def setStage (x : Stage D) : View C L D := { v with stage := Function.update v.stage lk x }

variable {v lk} {x y : Stage D} {l : L}

theorem setStage_self : (v.setStage lk x).stage lk = x := Function.update_self ..

theorem setStage_of_ne (hl : l ≠ lk) : (v.setStage lk x).stage l = v.stage l :=
  Function.update_of_ne hl ..

theorem setStage_setStage : (v.setStage lk x).setStage lk y = v.setStage lk y := by
  unfold setStage
  rw [Function.update_idem]

end View

/-- How locks are used: `before l lk` where `lk` may be acquired by one that holds `l`, and `inv`, which
holds of what a free lock guards. -/
structure Discipline (L D : Type) where
  before : L → L → Prop
  inv : L → D → Prop
  irrefl : ∀ lk, ¬before lk lk

section

variable [DecidableEq L] (R : Discipline L D)

/-- What an operation asks of the CPU that performs it. -/
def Op.asks (v : View C L D) : Op C L D → Prop
  | .readeflags c | .cli c => c = v.me
  | .sti c | .iret c => c = v.me ∧ v.ncli = 0 ∧ ∀ lk, v.stage lk = .free
  | .ncli c | .setNcli c _ | .intena c | .setIntena c _ => c = v.me ∧ v.ifl = false
  | .xchg c lk => c = v.me ∧ v.ifl = false ∧ ∀ l, v.stage l ≠ .free → R.before l lk
  | .locked c _ | .owner c _ => c = v.me
  | .setOwner c lk o => c = v.me ∧ v.ifl = false ∧
      ((o = some c ∧ v.stage lk = .taken) ∨ (o = none ∧ v.stage lk = .recorded))
  | .unlock c lk => c = v.me ∧ v.ifl = false ∧ v.stage lk = .taken
  | .get c lk | .put c lk _ => c = v.me ∧ v.ifl = false ∧ ∃ d, v.stage lk = .inside d
  | .enter c lk => c = v.me ∧ v.ifl = false ∧ v.stage lk = .recorded
  | .leave c lk => c = v.me ∧ v.ifl = false ∧ ∃ d, v.stage lk = .inside d ∧ R.inv lk d
  | .panic _ => False

/-- What the CPU knows after it. -/
def Op.does (v : View C L D) : (o : Op C L D) → o.Res → View C L D → Prop
  | .readeflags _, r, w => r = v.ifl ∧ w = v
  | .cli _, _, w => w = { v with ifl := false }
  | .sti c, _, w | .iret c, _, w => w = .idle c
  | .ncli _, r, w => r = v.ncli ∧ w = v
  | .setNcli _ n, _, w => w = { v with ncli := n }
  | .intena _, r, w => (∀ b, v.intena = some b → r = b) ∧ w = v
  | .setIntena _ b, _, w => w = { v with intena := some b }
  | .xchg _ lk, _, w => w = v.setStage lk .taken
  | .locked _ lk, r, w => (v.stage lk ≠ .free → r = true) ∧ w = v
  | .owner c lk, r, w => (r = some c ↔ (v.stage lk).Owned) ∧ w = v
  | .setOwner _ lk o, _, w => w = v.setStage lk (if o.isSome then .recorded else .taken)
  | .unlock _ lk, _, w => w = v.setStage lk .free
  | .get _ lk, r, w => v.stage lk = .inside r ∧ w = v
  | .put _ lk d, _, w => w = v.setStage lk (.inside d)
  | .enter _ lk, _, w => ∃ d, R.inv lk d ∧ w = v.setStage lk (.inside d)
  | .leave _ lk, _, w => w = v.setStage lk .recorded
  | .panic _, _, _ => False

/-- What the operations ask, and what they do. -/
def spec : Spec (Op C L D) Op.Res (View C L D) where
  pre := fun o v => o.asks R v
  post := fun o v => o.does R v

end

/-- The views of the CPUs fit the memory. -/
structure Sat (R : Discipline L D) (vs : C → View C L D) (s : Mem C L D) : Prop where
  me : ∀ c, (vs c).me = c
  ifl : ∀ c, s.ifl c = (vs c).ifl
  ncli : ∀ c, s.ncli c = (vs c).ncli
  intena : ∀ c b, (vs c).intena = some b → s.intena c = b
  locked : ∀ lk, s.locked lk = true ↔ ∃ c, (vs c).stage lk ≠ .free
  alone : ∀ c c' lk, (vs c).stage lk ≠ .free → (vs c').stage lk ≠ .free → c = c'
  owner : ∀ c lk, s.owner lk = some c ↔ ((vs c).stage lk).Owned
  inside : ∀ c lk, s.inside c lk = true ↔ ∃ d, (vs c).stage lk = .inside d
  data : ∀ c lk d, (vs c).stage lk = .inside d → s.data lk = d
  kept : ∀ lk, (∀ c d, (vs c).stage lk ≠ .inside d) → R.inv lk (s.data lk)
  calm : ∀ c, (vs c).ifl = true → vs c = .idle c

namespace Sat

variable {R : Discipline L D} {vs : C → View C L D} {s t : Mem C L D} {c : C} {w : View C L D} {lk : L}

/-- A lock that a CPU has part in, or that nobody has taken, is no other's. -/
theorem others_free (h : Sat R vs s) (ha : (vs c).stage lk ≠ .free ∨ s.locked lk = false) {c' : C}
    (hc : c' ≠ c) : (vs c').stage lk = .free := by
  by_contra hst
  rcases ha with ha | ha
  · exact hc (h.alone c' c lk hst ha)
  · rw [(h.locked lk).mpr ⟨c', hst⟩] at ha
    cases ha

/-- What only a CPU with part in the lock has, no other has. -/
theorem only (h : Sat R vs s) (ha : (vs c).stage lk ≠ .free ∨ s.locked lk = false) {c' : C}
    {P : Stage D → Prop} (hP : ¬P .free) (hc' : P ((vs c').stage lk)) : c' = c ∧ P ((vs c).stage lk) := by
  have hc : c' = c := by
    by_contra hc
    rw [h.others_free ha hc] at hc'
    exact hP hc'
  exact ⟨hc, hc ▸ hc'⟩

theorem owner_of (h : Sat R vs s) (ha : (vs c).stage lk ≠ .free ∨ s.locked lk = false) {c' : C}
    (ho : s.owner lk = some c') : c' = c ∧ ((vs c).stage lk).Owned :=
  h.only ha (by simp [Stage.Owned]) ((h.owner c' lk).mp ho)

theorem inside_of (h : Sat R vs s) (ha : (vs c).stage lk ≠ .free ∨ s.locked lk = false) {c' : C}
    (hi : s.inside c' lk = true) : c' = c ∧ ∃ d, (vs c).stage lk = .inside d :=
  h.only ha (P := fun x => ∃ d, x = .inside d) (by simp) ((h.inside c' lk).mp hi)

theorem kept_of (h : Sat R vs s) (ha : (vs c).stage lk ≠ .free ∨ s.locked lk = false)
    (hx : ∀ d, (vs c).stage lk ≠ .inside d) : R.inv lk (s.data lk) := by
  refine h.kept lk fun c' d hc' => ?_
  obtain ⟨-, d, hd⟩ := h.inside_of ha ((h.inside c' lk).mpr ⟨d, hc'⟩)
  exact hx d hd

variable [DecidableEq C]

theorem same (h : Sat R vs s) : Sat R (Function.update vs c (vs c)) s := by
  rwa [Function.update_eq_self]

/-- A CPU changes its own flags, and no lock. -/
theorem flags (h : Sat R vs s) (hme : w.me = c) (hstage : w.stage = (vs c).stage)
    (hcalm : w.ifl = true → w = .idle c) (hlocked : t.locked = s.locked) (howner : t.owner = s.owner)
    (hdata : t.data = s.data) (hinside : t.inside = s.inside)
    (hifl : t.ifl = Function.update s.ifl c w.ifl) (hncli : t.ncli = Function.update s.ncli c w.ncli)
    (hintena : ∀ b, w.intena = some b → t.intena c = b)
    (hother : ∀ c', c' ≠ c → t.intena c' = s.intena c') : Sat R (Function.update vs c w) t := by
  have hst : ∀ c', (Function.update vs c w c').stage = (vs c').stage := by
    intro c'
    by_cases hc : c' = c
    · rw [hc, Function.update_self, hstage]
    · rw [Function.update_of_ne hc]
  refine ⟨fun c' => ?_, fun c' => ?_, fun c' => ?_, fun c' b hb => ?_, fun lk => ?_,
    fun c₁ c₂ lk h₁ h₂ => ?_, fun c' lk => ?_, fun c' lk => ?_, fun c' lk d hd => ?_, fun lk hlk => ?_,
    fun c' hc' => ?_⟩
  · by_cases hc : c' = c
    · rw [hc, Function.update_self, hme]
    · rw [Function.update_of_ne hc, h.me]
  · by_cases hc : c' = c
    · rw [hc, hifl, Function.update_self, Function.update_self]
    · rw [hifl, Function.update_of_ne hc, Function.update_of_ne hc, h.ifl]
  · by_cases hc : c' = c
    · rw [hc, hncli, Function.update_self, Function.update_self]
    · rw [hncli, Function.update_of_ne hc, Function.update_of_ne hc, h.ncli]
  · by_cases hc : c' = c
    · subst hc
      rw [Function.update_self] at hb
      exact hintena b hb
    · rw [Function.update_of_ne hc] at hb
      rw [hother c' hc]
      exact h.intena c' b hb
  · rw [hlocked, h.locked]
    simp only [hst]
  · rw [hst] at h₁ h₂
    exact h.alone c₁ c₂ lk h₁ h₂
  · rw [howner, hst]
    exact h.owner c' lk
  · rw [hinside, hst]
    exact h.inside c' lk
  · rw [hst] at hd
    rw [hdata]
    exact h.data c' lk d hd
  · simp only [hst] at hlk
    rw [hdata]
    exact h.kept lk hlk
  · by_cases hc : c' = c
    · subst hc
      rw [Function.update_self] at hc' ⊢
      exact hcalm hc'
    · rw [Function.update_of_ne hc] at hc' ⊢
      exact h.calm c' hc'

theorem cli (h : Sat R vs s) : Sat R (Function.update vs c { vs c with ifl := false })
    { s with ifl := Function.update s.ifl c false } := by
  refine h.flags (h.me c) rfl (fun hi => by cases hi) rfl rfl rfl rfl rfl ?_
    (fun b hb => h.intena c b hb) fun _ _ => rfl
  rw [← h.ncli, Function.update_eq_self]

theorem sti (h : Sat R vs s) (hn : (vs c).ncli = 0) (hfree : ∀ lk, (vs c).stage lk = .free) :
    Sat R (Function.update vs c (.idle c)) { s with ifl := Function.update s.ifl c true } := by
  refine h.flags rfl (funext fun lk => (hfree lk).symm) (fun _ => rfl) rfl rfl rfl rfl rfl ?_
    (fun b hb => by cases hb) fun _ _ => rfl
  rw [show (View.idle c : View C L D).ncli = (vs c).ncli from hn.symm, ← h.ncli,
    Function.update_eq_self]

/-- The depth of the `pushcli`s is the CPU's own. -/
theorem setNcli (h : Sat R vs s) (hoff : (vs c).ifl = false) (n : ℤ) :
    Sat R (Function.update vs c { vs c with ncli := n })
      { s with ncli := Function.update s.ncli c n } := by
  refine h.flags (h.me c) rfl (fun hi => ?_) rfl rfl rfl rfl ?_ rfl (fun b hb => h.intena c b hb)
    fun _ _ => rfl
  · rw [hoff] at hi
    cases hi
  · exact (by rw [← h.ifl, Function.update_eq_self])

/-- What is noted of the interrupts is the CPU's own. -/
theorem setIntena (h : Sat R vs s) (hoff : (vs c).ifl = false) (b : Bool) :
    Sat R (Function.update vs c { vs c with intena := some b })
      { s with intena := Function.update s.intena c b } := by
  refine h.flags (h.me c) rfl (fun hi => ?_) rfl rfl rfl rfl ?_ ?_ (fun b' hb => ?_)
    fun c' hc => Function.update_of_ne hc ..
  · rw [hoff] at hi
    cases hi
  · exact (by rw [← h.ifl, Function.update_eq_self])
  · exact (by rw [← h.ncli, Function.update_eq_self])
  · obtain rfl := Option.some.inj hb
    exact Function.update_self ..

variable [DecidableEq L]

/-- A CPU whose interrupts are off goes on with one lock, which no other has part in. -/
theorem lock {x : Stage D} (h : Sat R vs s) (hoff : (vs c).ifl = false)
    (ha : (vs c).stage lk ≠ .free ∨ s.locked lk = false)
    (hifl : t.ifl = s.ifl) (hncli : t.ncli = s.ncli) (hintena : t.intena = s.intena)
    (hlocked : t.locked lk = true ↔ x ≠ .free) (hlocked' : ∀ l, l ≠ lk → t.locked l = s.locked l)
    (howner : ∀ c', t.owner lk = some c' ↔ c' = c ∧ x.Owned)
    (howner' : ∀ l, l ≠ lk → t.owner l = s.owner l)
    (hinside : ∀ c', t.inside c' lk = true ↔ c' = c ∧ ∃ d, x = .inside d)
    (hinside' : ∀ c' l, l ≠ lk → t.inside c' l = s.inside c' l)
    (hdata : ∀ d, x = .inside d → t.data lk = d) (hkept : (∀ d, x ≠ .inside d) → R.inv lk (t.data lk))
    (hdata' : ∀ l, l ≠ lk → t.data l = s.data l) :
    Sat R (Function.update vs c ((vs c).setStage lk x)) t := by
  -- One stage changes, that of `c` at `lk`; no other CPU was at `lk`.
  have hst : ∀ c' l, (Function.update vs c ((vs c).setStage lk x) c').stage l =
      if l = lk then (if c' = c then x else .free) else (vs c').stage l := by
    intro c' l
    by_cases hc : c' = c
    · subst hc
      rw [Function.update_self, if_pos rfl]
      exact Function.update_apply ..
    · rw [Function.update_of_ne hc, if_neg hc]
      split
      · rename_i hl
        rw [hl, h.others_free ha hc]
      · rfl
  have hflags : ∀ c', (Function.update vs c ((vs c).setStage lk x) c').me = (vs c').me ∧
      (Function.update vs c ((vs c).setStage lk x) c').ifl = (vs c').ifl ∧
      (Function.update vs c ((vs c).setStage lk x) c').ncli = (vs c').ncli ∧
      (Function.update vs c ((vs c).setStage lk x) c').intena = (vs c').intena := by
    intro c'
    by_cases hc : c' = c
    · subst hc
      rw [Function.update_self]
      exact ⟨rfl, rfl, rfl, rfl⟩
    · rw [Function.update_of_ne hc]
      exact ⟨rfl, rfl, rfl, rfl⟩
  -- Each part of `Sat`, at `lk` and at the other locks.
  refine ⟨fun c' => (hflags c').1.trans (h.me c'), fun c' => ?_, fun c' => ?_, fun c' b hb => ?_,
    fun l => ?_, fun c₁ c₂ l h₁ h₂ => ?_, fun c' l => ?_, fun c' l => ?_, fun c' l d hd => ?_,
    fun l hl => ?_, fun c' hc' => ?_⟩
  · rw [hifl, h.ifl, (hflags c').2.1]
  · rw [hncli, h.ncli, (hflags c').2.2.1]
  · rw [hintena]
    exact h.intena c' b ((hflags c').2.2.2 ▸ hb)
  · simp only [hst]
    by_cases hl : l = lk
    · subst hl
      simp only [if_true, hlocked]
      refine ⟨fun hx => ⟨c, by rwa [if_pos rfl]⟩, ?_⟩
      rintro ⟨c', hc'⟩
      split at hc'
      · exact hc'
      · exact absurd rfl hc'
    · simp only [if_neg hl, hlocked' l hl]
      exact h.locked l
  · rw [hst] at h₁ h₂
    by_cases hl : l = lk
    · rw [if_pos hl] at h₁ h₂
      by_contra hne
      by_cases hc : c₁ = c
      · rw [if_neg fun hc₂ => hne (hc.trans hc₂.symm)] at h₂
        exact h₂ rfl
      · rw [if_neg hc] at h₁
        exact h₁ rfl
    · rw [if_neg hl] at h₁ h₂
      exact h.alone c₁ c₂ l h₁ h₂
  · rw [hst]
    by_cases hl : l = lk
    · rw [if_pos hl, hl, howner]
      by_cases hc : c' = c
      · simp [hc]
      · simp [hc, Stage.Owned]
    · rw [if_neg hl, howner' l hl]
      exact h.owner c' l
  · rw [hst]
    by_cases hl : l = lk
    · rw [if_pos hl, hl, hinside]
      by_cases hc : c' = c
      · simp [hc]
      · simp [hc]
    · rw [if_neg hl, hinside' c' l hl]
      exact h.inside c' l
  · rw [hst] at hd
    by_cases hl : l = lk
    · rw [if_pos hl] at hd
      subst hl
      split at hd
      · exact hdata d hd
      · cases hd
    · rw [if_neg hl] at hd
      rw [hdata' l hl]
      exact h.data c' l d hd
  · simp only [hst] at hl
    by_cases hlk : l = lk
    · subst hlk
      refine hkept fun d => ?_
      have := hl c d
      rwa [if_pos rfl, if_pos rfl] at this
    · simp only [if_neg hlk] at hl
      rw [hdata' l hlk]
      exact h.kept l hl
  · by_cases hc : c' = c
    · subst hc
      rw [(hflags c').2.1, hoff] at hc'
      cases hc'
    · rw [Function.update_of_ne hc] at hc' ⊢
      exact h.calm c' hc'

/-- A CPU that has a lock enters or leaves its section. -/
theorem mark {x : Stage D} {b : Bool} (h : Sat R vs s) (hoff : (vs c).ifl = false)
    (hst : ((vs c).stage lk).Owned) (hx : x.Owned) (hb : b = true ↔ ∃ d, x = .inside d)
    (hdata : ∀ d, x = .inside d → s.data lk = d)
    (hkept : (∀ d, x ≠ .inside d) → R.inv lk (s.data lk)) :
    Sat R (Function.update vs c ((vs c).setStage lk x))
      { s with inside := Function.update s.inside c (Function.update (s.inside c) lk b) } := by
  have hne : (vs c).stage lk ≠ .free := by
    intro hf
    rw [hf] at hst
    simp [Stage.Owned] at hst
  have hin : ∀ c' l, Function.update s.inside c (Function.update (s.inside c) lk b) c' l =
      if c' = c ∧ l = lk then b else s.inside c' l := by
    intro c' l
    by_cases hc : c' = c
    · subst hc
      rw [Function.update_self, Function.update_apply]
      simp
    · rw [Function.update_of_ne hc, if_neg fun hcl => hc hcl.1]
  refine h.lock hoff (.inl hne) rfl rfl rfl ?_ (fun _ _ => rfl) (fun c' => ?_) (fun _ _ => rfl)
    (fun c' => ?_) (fun c' l hl => ?_) hdata hkept fun _ _ => rfl
  · refine iff_of_true ((h.locked lk).mpr ⟨c, hne⟩) ?_
    rcases hx with rfl | ⟨d, rfl⟩ <;> simp
  · refine ⟨fun ho => ⟨(h.owner_of (.inl hne) ho).1, hx⟩, ?_⟩
    rintro ⟨rfl, -⟩
    exact (h.owner c' lk).mpr hst
  · show Function.update s.inside c _ c' lk = true ↔ _
    rw [hin]
    split
    · rename_i hc
      simp [hb, hc.1]
    · rename_i hc
      have hc : c' ≠ c := fun h => hc ⟨h, rfl⟩
      refine iff_of_false (fun hi => ?_) fun h => hc h.1
      exact hc (h.inside_of (.inl hne) hi).1
  · show Function.update s.inside c _ c' l = _
    rw [hin, if_neg fun h => hl h.2]

/-- `xchg` on a lock that nobody has taken. -/
theorem xchg (h : Sat R vs s) (hoff : (vs c).ifl = false) (hfree : (vs c).stage lk = .free)
    (hl : s.locked lk = false) : Sat R (Function.update vs c ((vs c).setStage lk .taken))
      { s with locked := Function.update s.locked lk true } := by
  have ha : (vs c).stage lk ≠ .free ∨ s.locked lk = false := .inr hl
  refine h.lock hoff ha rfl rfl rfl ?_ (fun l hl => Function.update_of_ne hl ..)
    (fun c' => ?_) (fun _ _ => rfl) (fun c' => ?_) (fun _ _ _ => rfl) (fun d hd => ?_)
    (fun _ => h.kept_of ha ?_) fun _ _ => rfl
  · simp
  · refine iff_of_false (fun ho => ?_) (by simp [Stage.Owned])
    have := (h.owner_of ha ho).2
    rw [hfree] at this
    simp [Stage.Owned] at this
  · refine iff_of_false (fun hi => ?_) (by simp)
    obtain ⟨-, d, hd⟩ := h.inside_of ha hi
    rw [hfree] at hd
    cases hd
  · cases hd
  · rw [hfree]
    simp

/-- A lock that is taken is recorded, or no more. -/
theorem setOwner {o : Option C} (h : Sat R vs s) (hoff : (vs c).ifl = false)
    (hst : (o = some c ∧ (vs c).stage lk = .taken) ∨ (o = none ∧ (vs c).stage lk = .recorded)) :
    Sat R (Function.update vs c ((vs c).setStage lk (if o.isSome then .recorded else .taken)))
      { s with owner := Function.update s.owner lk o } := by
  have hst' : (vs c).stage lk = .taken ∨ (vs c).stage lk = .recorded := hst.imp And.right And.right
  have hne : (vs c).stage lk ≠ .free := by
    rcases hst' with hst | hst <;> rw [hst] <;> simp
  have hin : ∀ d, (vs c).stage lk ≠ .inside d := by
    rcases hst' with hst | hst <;> rw [hst] <;> simp
  refine h.lock hoff (.inl hne) rfl rfl rfl ?_ (fun _ _ => rfl) (fun c' => ?_)
    (fun l hl => Function.update_of_ne hl ..) (fun c' => ?_) (fun _ _ _ => rfl) (fun d hd => ?_)
    (fun _ => h.kept_of (.inl hne) hin) fun _ _ => rfl
  · refine iff_of_true ((h.locked lk).mpr ⟨c, hne⟩) ?_
    split <;> simp
  · show Function.update s.owner lk o lk = some c' ↔ _
    rw [Function.update_self]
    rcases hst with ⟨rfl, -⟩ | ⟨rfl, -⟩
    · simp [Stage.Owned, eq_comm]
    · simp [Stage.Owned]
  · refine iff_of_false (fun hi => ?_) fun hx => ?_
    · obtain ⟨-, d, hd⟩ := h.inside_of (.inl hne) hi
      exact hin d hd
    · obtain ⟨-, d, hd⟩ := hx
      split at hd <;> cases hd
  · split at hd <;> cases hd

/-- A lock that is not recorded is opened. -/
theorem unlock (h : Sat R vs s) (hoff : (vs c).ifl = false) (hst : (vs c).stage lk = .taken) :
    Sat R (Function.update vs c ((vs c).setStage lk .free))
      { s with locked := Function.update s.locked lk false } := by
  have ha : (vs c).stage lk ≠ .free ∨ s.locked lk = false := .inl (by rw [hst]; simp)
  refine h.lock hoff ha rfl rfl rfl ?_ (fun l hl => Function.update_of_ne hl ..) (fun c' => ?_)
    (fun _ _ => rfl) (fun c' => ?_) (fun _ _ _ => rfl) (fun d hd => ?_) (fun _ => h.kept_of ha ?_)
    fun _ _ => rfl
  · simp
  · refine iff_of_false (fun ho => ?_) (by simp [Stage.Owned])
    have := (h.owner_of ha ho).2
    rw [hst] at this
    simp [Stage.Owned] at this
  · refine iff_of_false (fun hi => ?_) (by simp)
    obtain ⟨-, d, hd⟩ := h.inside_of ha hi
    rw [hst] at hd
    cases hd
  · cases hd
  · rw [hst]
    simp

/-- What the lock guards is written, inside its section. -/
theorem put {d' : D} (h : Sat R vs s) (hoff : (vs c).ifl = false)
    (hd' : (vs c).stage lk = .inside d') (d : D) :
    Sat R (Function.update vs c ((vs c).setStage lk (.inside d)))
      { s with data := Function.update s.data lk d } := by
  have hne : (vs c).stage lk ≠ .free := by
    rw [hd']
    simp
  refine h.lock hoff (.inl hne) rfl rfl rfl ?_ (fun _ _ => rfl) (fun c' => ?_) (fun _ _ => rfl)
    (fun c' => ?_) (fun _ _ _ => rfl) (fun x hx => ?_) (fun hx => ?_)
    fun l hl => Function.update_of_ne hl ..
  · exact iff_of_true ((h.locked lk).mpr ⟨c, hne⟩) (by simp)
  · refine ⟨fun ho => ⟨(h.owner_of (.inl hne) ho).1, .inr ⟨d, rfl⟩⟩, ?_⟩
    rintro ⟨rfl, -⟩
    exact (h.owner c' lk).mpr (.inr ⟨d', hd'⟩)
  · refine ⟨fun hi => ⟨(h.inside_of (.inl hne) hi).1, d, rfl⟩, ?_⟩
    rintro ⟨rfl, -⟩
    exact (h.inside c' lk).mpr ⟨d', hd'⟩
  · cases hx
    exact Function.update_self ..
  · exact absurd rfl (hx d)

/-- The section is entered with what the lock guards. -/
theorem enter (h : Sat R vs s) (hoff : (vs c).ifl = false) (hst : (vs c).stage lk = .recorded) :
    R.inv lk (s.data lk) ∧ Sat R (Function.update vs c ((vs c).setStage lk (.inside (s.data lk))))
      { s with inside := Function.update s.inside c (Function.update (s.inside c) lk true) } := by
  refine ⟨h.kept_of (.inl (by rw [hst]; simp)) (by rw [hst]; simp),
    h.mark hoff (.inl hst) (.inr ⟨_, rfl⟩) (by simp) ?_ ?_⟩
  · exact fun d hd => (by cases hd; rfl)
  · exact fun hx => absurd rfl (hx _)

theorem leave {d : D} (h : Sat R vs s) (hoff : (vs c).ifl = false)
    (hd : (vs c).stage lk = .inside d) (hinv : R.inv lk d) :
    Sat R (Function.update vs c ((vs c).setStage lk .recorded))
      { s with inside := Function.update s.inside c (Function.update (s.inside c) lk false) } := by
  refine h.mark hoff (.inr ⟨d, hd⟩) (.inl rfl) (by simp) ?_ fun _ => ?_
  · exact fun d hd => (by cases hd)
  · rwa [h.data c lk d hd]

end Sat

/-- **What a CPU knows stays**, whatever the others do. -/
theorem spec_sound [DecidableEq C] [DecidableEq L] (R : Discipline L D) :
    (spec R : Spec (Op C L D) Op.Res (View C L D)).Sound ops Stop.waits (Sat R) (fun _ => False) where
  ok := by
    intro vs s t c o r h ho hr
    cases o with
    | readeflags c' =>
        cases hr
        obtain rfl : c' = c := ho.trans (h.me c)
        exact ⟨vs c', ⟨h.ifl c', rfl⟩, h.same⟩
    | cli c' =>
        cases hr
        obtain rfl : c' = c := ho.trans (h.me c)
        exact ⟨_, rfl, h.cli⟩
    | sti c' | iret c' =>
        cases hr
        obtain ⟨hc, hn, hfree⟩ := ho
        obtain rfl : c' = c := hc.trans (h.me c)
        exact ⟨_, rfl, h.sti hn hfree⟩
    | ncli c' =>
        cases hr
        obtain rfl : c' = c := ho.1.trans (h.me c)
        exact ⟨vs c', ⟨h.ncli c', rfl⟩, h.same⟩
    | setNcli c' n =>
        cases hr
        obtain rfl : c' = c := ho.1.trans (h.me c)
        exact ⟨_, rfl, h.setNcli ho.2 n⟩
    | intena c' =>
        cases hr
        obtain rfl : c' = c := ho.1.trans (h.me c)
        exact ⟨vs c', ⟨fun b hb => h.intena c' b hb, rfl⟩, h.same⟩
    | setIntena c' b =>
        cases hr
        obtain rfl : c' = c := ho.1.trans (h.me c)
        exact ⟨_, rfl, h.setIntena ho.2 b⟩
    | xchg c' lk =>
        obtain ⟨hc, hoff, hbefore⟩ := ho
        obtain rfl : c' = c := hc.trans (h.me c)
        have hfree : (vs c').stage lk = .free := by
          by_contra hst
          exact R.irrefl lk (hbefore lk hst)
        have hr : (if s.locked lk then _ else _) = _ := hr
        split at hr
        · cases hr
        · rename_i hl
          cases hr
          exact ⟨_, rfl, h.xchg hoff hfree (by simpa using hl)⟩
    | locked c' lk =>
        cases hr
        obtain rfl : c' = c := ho.trans (h.me c)
        exact ⟨vs c', ⟨fun hst => (h.locked lk).mpr ⟨c', hst⟩, rfl⟩, h.same⟩
    | owner c' lk =>
        cases hr
        obtain rfl : c' = c := ho.trans (h.me c)
        exact ⟨vs c', ⟨h.owner c' lk, rfl⟩, h.same⟩
    | setOwner c' lk o =>
        cases hr
        obtain ⟨hc, hoff, hst⟩ := ho
        obtain rfl : c' = c := hc.trans (h.me c)
        exact ⟨_, rfl, h.setOwner hoff hst⟩
    | unlock c' lk =>
        cases hr
        obtain ⟨hc, hoff, hst⟩ := ho
        obtain rfl : c' = c := hc.trans (h.me c)
        exact ⟨_, rfl, h.unlock hoff hst⟩
    | get c' lk =>
        cases hr
        obtain ⟨hc, hoff, d, hd⟩ := ho
        obtain rfl : c' = c := hc.trans (h.me c)
        exact ⟨vs c', ⟨by rw [hd, h.data c' lk d hd], rfl⟩, h.same⟩
    | put c' lk d =>
        cases hr
        obtain ⟨hc, hoff, d', hd'⟩ := ho
        obtain rfl : c' = c := hc.trans (h.me c)
        exact ⟨_, rfl, h.put hoff hd' d⟩
    | enter c' lk =>
        cases hr
        obtain ⟨hc, hoff, hst⟩ := ho
        obtain rfl : c' = c := hc.trans (h.me c)
        obtain ⟨hinv, hs⟩ := h.enter hoff hst
        exact ⟨_, ⟨s.data lk, hinv, rfl⟩, hs⟩
    | leave c' lk =>
        cases hr
        obtain ⟨hc, hoff, d, hd, hinv⟩ := ho
        obtain rfl : c' = c := hc.trans (h.me c)
        exact ⟨_, rfl, h.leave hoff hd hinv⟩
    | panic p => exact ho.elim
  error := by
    intro vs s c o e h ho he hw
    cases o with
    | xchg c' lk =>
        have he : (if s.locked lk then _ else _) = _ := he
        split at he
        · cases he
          cases hw
        · cases he
    | panic p => exact ho
    | _ => cases he

end Xv6.Spinlock
