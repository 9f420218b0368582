import Xv6.Spinlock.Local
/-!
# Spin locks — one CPU at a time

The code, against what its CPU knows.

* `lwp_acquire`, `lwp_release`, `lwp_holding` — the functions, with interrupts off or on before.
* `callSpec` — locks as kernel code sees them: what a lock guards is its own from `acquire`, when it
  satisfies `inv`, to `release`, when it has to.
* `lwp_expand_call` — kernel code that keeps to that, on its CPU.
-/

namespace Xv6.Spinlock

open Lib Prog

variable {C L D : Type} [DecidableEq L] {R : Discipline L D} {v : View C L D} {c : C} {lk : L}

/-- What `pushcli` leaves. -/
def View.pushed (v : View C L D) : View C L D :=
  ⟨v.me, false, v.ncli + 1, if v.ncli = 0 then some v.ifl else v.intena, v.stage⟩

/-- The rule of `mycpu`: interrupts are off. -/
theorem lwp_mycpu (hme : c = v.me) (hoff : v.ifl = false) :
    (mycpu c).lwp (spec R) (fun r w => r = c ∧ w = v) v := by
  refine lwp_op hme ?_
  rintro r v ⟨rfl, rfl⟩
  rw [if_neg (by simp [hoff])]
  exact ⟨rfl, rfl⟩

/-- `pushcli`, on what its CPU knows. -/
theorem lwp_pushcli (hme : c = v.me) : (pushcli c).lwp (spec R) (fun _ w => w = v.pushed) v := by
  have count : ∀ {u : View C L D}, c = u.me → u.ifl = false → { u with ncli := u.ncli + 1 } = v.pushed →
      (do let c ← mycpu c; let n ← ncli c; setNcli c (n + 1)).lwp (spec R)
        (fun _ w => w = v.pushed) u := by
    intro u hme hoff hu
    refine lwp_seq (lwp_mycpu hme hoff) ?_
    rintro c u ⟨rfl, rfl⟩
    refine lwp_op ⟨hme, hoff⟩ ?_
    rintro n u ⟨rfl, rfl⟩
    exact ⟨⟨hme, hoff⟩, fun _ w hw => hw.trans hu⟩
  refine lwp_op hme ?_
  rintro eflags v ⟨rfl, rfl⟩
  refine lwp_op hme ?_
  rintro - w rfl
  refine lwp_seq (lwp_mycpu hme rfl) ?_
  rintro c w ⟨rfl, rfl⟩
  refine lwp_op ⟨hme, rfl⟩ ?_
  rintro n w ⟨rfl, hw⟩
  obtain rfl := hw.symm
  dsimp only
  split
  · rename_i hn
    refine lwp_seq (lwp_mycpu hme rfl) ?_
    rintro c w ⟨rfl, rfl⟩
    refine lwp_op ⟨hme, rfl⟩ ?_
    rintro - w rfl
    refine count hme rfl ?_
    simp only [View.pushed]
    rw [if_pos hn]
  · rename_i hn
    refine count hme rfl ?_
    simp only [View.pushed]
    rw [if_neg hn]

/-- What `popcli` leaves: the outermost one, interrupts as the outermost `pushcli` found them. -/
def View.popped (v : View C L D) : View C L D :=
  if v.ncli = 1 ∧ v.intena = some true then .idle v.me else { v with ncli := v.ncli - 1 }

/-- `popcli`, which turns the interrupts on only if no lock is held. -/
theorem lwp_popcli (hme : c = v.me) (hoff : v.ifl = false) (hn : 1 ≤ v.ncli)
    (hlast : v.ncli = 1 → ∃ b, v.intena = some b ∧ (b = true → ∀ lk, v.stage lk = .free)) :
    (popcli c).lwp (spec R) (fun _ w => w = v.popped) v := by
  refine lwp_op hme ?_
  rintro r v ⟨rfl, rfl⟩
  rw [if_neg (by simp [hoff])]
  refine lwp_seq (lwp_mycpu hme hoff) ?_
  rintro c v ⟨rfl, rfl⟩
  refine lwp_op ⟨hme, hoff⟩ ?_
  rintro n v ⟨rfl, rfl⟩
  refine lwp_op ⟨hme, hoff⟩ ?_
  rintro _ w hw
  have hw : w = { v with ncli := v.ncli - 1 } := hw
  rw [if_neg (by omega)]
  refine lwp_seq (lwp_mycpu (by rw [hw, hme]) (by rw [hw, hoff])) ?_
  rintro c w ⟨rfl, rfl⟩
  refine lwp_op ⟨by rw [hw, hme], by rw [hw, hoff]⟩ ?_
  rintro n w ⟨rfl, rfl⟩
  have hcount : w.ncli = v.ncli - 1 := by rw [hw]
  by_cases h1 : v.ncli = 1
  · obtain ⟨b, hb, hfree⟩ := hlast h1
    rw [if_pos (by omega)]
    refine lwp_seq (lwp_mycpu (by rw [hw, hme]) (by rw [hw, hoff])) ?_
    rintro c w ⟨rfl, rfl⟩
    refine lwp_op ⟨by rw [hw, hme], by rw [hw, hoff]⟩ ?_
    rintro r w ⟨hr, rfl⟩
    obtain rfl := hr b (by rw [hw, hb])
    cases r with
    | false =>
        show w = v.popped
        rw [View.popped, if_neg (by simp [hb]), hw]
    | true =>
        refine ⟨⟨by rw [hw, hme], by omega, fun lk => by rw [hw]; exact hfree rfl lk⟩, ?_⟩
        rintro _ w rfl
        show View.idle c = v.popped
        rw [View.popped, if_pos ⟨h1, hb⟩, hme]
  · rw [if_neg (by omega)]
    show w = v.popped
    rw [View.popped, if_neg fun h => h1 h.1, hw]

omit [DecidableEq L] in
/-- Inside `pushcli`, another `pushcli` and its `popcli` change nothing. -/
theorem View.popped_pushed (hoff : v.ifl = false) (hn : 1 ≤ v.ncli) : v.pushed.popped = v := by
  have hn0 : ¬v.ncli = 0 := by omega
  rw [View.popped, if_neg fun h => hn0 (by have : v.ncli + 1 = 1 := h.1; omega)]
  simp only [View.pushed, if_neg hn0, Int.add_sub_cancel, ← hoff]

/-- `holding` tells what the CPU knows. -/
theorem lwp_holding [DecidableEq C] (hme : c = v.me) (hoff : v.ifl = false) (hn : 1 ≤ v.ncli) :
    (holding c lk).lwp (spec R) (fun r w => (r = true ↔ (v.stage lk).Owned) ∧ w = v) v := by
  have pop : ∀ {r : Bool}, (r = true ↔ (v.stage lk).Owned) →
      (do popcli c; pure r).lwp (spec R) (fun r w => (r = true ↔ (v.stage lk).Owned) ∧ w = v)
        v.pushed := by
    intro r hr
    have hpushed : v.pushed.ncli = v.ncli + 1 := rfl
    refine lwp_seq (lwp_popcli hme rfl (by omega) fun h => by omega) ?_
    rintro _ w rfl
    exact ⟨hr, View.popped_pushed hoff hn⟩
  refine lwp_seq (lwp_pushcli hme) ?_
  rintro _ w rfl
  refine lwp_op hme ?_
  rintro r w ⟨hr, rfl⟩
  cases r with
  | false =>
      refine pop (iff_of_false (by simp) fun ho => ?_)
      have hne : v.pushed.stage lk ≠ .free := fun hf => by
        have hf : v.stage lk = .free := hf
        rw [hf] at ho
        simp [Stage.Owned] at ho
      cases hr hne
  | true =>
      refine lwp_op hme ?_
      rintro o w ⟨ho, rfl⟩
      refine lwp_seq (lwp_mycpu hme rfl) ?_
      rintro c w ⟨rfl, rfl⟩
      exact pop (decide_eq_true_iff.trans ho)

section

variable [DecidableEq C]

/-- `acquire`, in the order of the locks. -/
theorem lwp_acquire (hme : c = v.me) (hn : 0 ≤ v.ncli)
    (hbefore : ∀ l, v.stage l ≠ .free → R.before l lk) :
    (acquire c lk).lwp (spec R) (fun _ w => w = v.pushed.setStage lk .recorded) v := by
  have hfree : v.stage lk = .free := by
    by_contra hst
    exact R.irrefl lk (hbefore lk hst)
  refine lwp_seq (lwp_pushcli hme) ?_
  rintro _ w rfl
  have hcount : v.pushed.ncli = v.ncli + 1 := rfl
  refine lwp_seq (lwp_holding hme rfl (by omega)) ?_
  rintro r w ⟨hr, rfl⟩
  have hr : ¬r = true := fun h => by
    have := hr.mp h
    rw [show v.pushed.stage lk = .free from hfree] at this
    simp [Stage.Owned] at this
  rw [if_neg hr]
  refine lwp_op ⟨hme, rfl, hbefore⟩ ?_
  rintro _ w rfl
  refine lwp_seq (lwp_mycpu hme rfl) ?_
  rintro c w ⟨rfl, rfl⟩
  refine ⟨⟨hme, rfl, .inl ⟨rfl, View.setStage_self⟩⟩, ?_⟩
  rintro _ w rfl
  exact View.setStage_setStage

/-- `release`; with the last lock the interrupts may come back. -/
theorem lwp_release (hme : c = v.me) (hoff : v.ifl = false) (hn : 1 ≤ v.ncli)
    (hst : v.stage lk = .recorded)
    (hlast : v.ncli = 1 → ∃ b, v.intena = some b ∧ ∀ l, l ≠ lk → v.stage l = .free) :
    (release c lk).lwp (spec R) (fun _ w => w = (v.setStage lk .free).popped) v := by
  refine lwp_seq (lwp_holding hme hoff hn) ?_
  rintro r v ⟨hr, rfl⟩
  rw [if_pos (hr.mpr (.inl hst))]
  refine lwp_op ⟨hme, hoff, .inr ⟨rfl, hst⟩⟩ ?_
  rintro _ w rfl
  refine lwp_op ⟨hme, hoff, View.setStage_self⟩ ?_
  rintro _ w rfl
  have hfree : (v.setStage lk .taken).setStage lk .free = v.setStage lk .free :=
    View.setStage_setStage
  show (popcli c).lwp (spec R) _ ((v.setStage lk .taken).setStage lk .free)
  rw [hfree]
  refine lwp_popcli hme hoff hn fun h1 => ?_
  obtain ⟨b, hb, hothers⟩ := hlast h1
  refine ⟨b, hb, fun _ l => ?_⟩
  by_cases hl : l = lk
  · rw [hl]
    exact View.setStage_self
  · exact (View.setStage_of_ne hl).trans (hothers l hl)

end

/-! ### Kernel code -/

/-- What a call asks of code that holds `h`, with what it knows of the data. -/
def Call.asks (R : Discipline L D) (h : L → Option D) : Call L D → Prop
  | .acquire lk => ∀ l, h l ≠ none → R.before l lk
  | .release lk => ∃ d, h lk = some d ∧ R.inv lk d
  | .myproc => True
  | .get lk | .put lk _ => h lk ≠ none

/-- What is guarded by the locks that are held, after a call. -/
def Call.does (R : Discipline L D) (h : L → Option D) : (q : Call L D) → q.Res → (L → Option D) → Prop
  | .acquire lk, _, k => ∃ d, R.inv lk d ∧ k = Function.update h lk (some d)
  | .release lk, _, k => k = Function.update h lk none
  | .myproc, _, k => k = h
  | .get lk, r, k => h lk = some r ∧ k = h
  | .put lk d, _, k => k = Function.update h lk (some d)

/-- What the calls of the kernel ask, and what they do. -/
def callSpec (R : Discipline L D) : Spec (Call L D) Call.Res (L → Option D) where
  pre := fun q h => q.asks R h
  post := fun q h => q.does R h

/-- Code that keeps to the discipline, and in the end holds nothing. -/
def Disciplined (R : Discipline L D) (p : Kernel L D Unit) : Prop :=
  p.lwp (callSpec R) (fun _ h => h = fun _ => none) fun _ => none

/-- The CPU `c`, which began with the flag `b`, holds `locks`, with the data `h`. -/
structure Holds (c : C) (b : Bool) (h : L → Option D) (locks : List L) (v : View C L D) : Prop where
  me : v.me = c
  nodup : locks.Nodup
  mem : ∀ lk, lk ∈ locks ↔ h lk ≠ none
  stage : ∀ lk, v.stage lk = (h lk).elim .free .inside
  ncli : v.ncli = locks.length
  ifl : v.ifl = (b && locks.isEmpty)
  intena : locks ≠ [] → v.intena = some b
  calm : v.ifl = true → v = .idle c

namespace Holds

variable {b : Bool} {h : L → Option D} {locks : List L}

omit [DecidableEq L] in
theorem free_iff (hv : Holds c b h locks v) : v.stage lk = .free ↔ h lk = none := by
  rw [hv.stage]
  cases h lk <;> simp

omit [DecidableEq L] in
theorem off (hv : Holds c b h locks v) (hlk : h lk ≠ none) : v.ifl = false ∧ 1 ≤ v.ncli := by
  have hm := (hv.mem lk).mpr hlk
  have hpos := List.length_pos_of_mem hm
  refine ⟨?_, by have := hv.ncli; omega⟩
  rw [hv.ifl, List.isEmpty_eq_false_iff.mpr (List.ne_nil_of_mem hm), Bool.and_false]

omit [DecidableEq L] in
theorem eq_nil (hv : Holds c b (fun _ => none) locks v) : locks = [] :=
  List.eq_nil_iff_forall_not_mem.mpr fun lk hlk => (hv.mem lk).mp hlk rfl

/-- A lock more is held. -/
theorem acquire {d : D} (hv : Holds c b h locks v) (hlk : h lk = none) :
    Holds c b (Function.update h lk (some d)) (lk :: locks) (v.pushed.setStage lk (.inside d)) := by
  have hnot : lk ∉ locks := fun hm => (hv.mem lk).mp hm hlk
  refine ⟨hv.me, List.nodup_cons.mpr ⟨hnot, hv.nodup⟩, fun l => ?_, fun l => ?_, ?_, ?_, fun _ => ?_,
    fun hi => (by cases hi)⟩
  · by_cases hl : l = lk
    · simp [hl]
    · simp [hl, hv.mem l]
  · by_cases hl : l = lk
    · rw [hl, View.setStage_self, Function.update_self]
      rfl
    · rw [View.setStage_of_ne hl, Function.update_of_ne hl]
      exact hv.stage l
  · show v.ncli + 1 = _
    rw [hv.ncli]
    simp
  · simp [View.setStage, View.pushed]
  · show (if v.ncli = 0 then some v.ifl else v.intena) = some b
    split
    · rename_i h0
      have : locks = [] := List.length_eq_zero_iff.mp (by have := hv.ncli; omega)
      rw [hv.ifl, this]
      simp
    · rename_i h0
      exact hv.intena fun hnil => h0 (by rw [hv.ncli, hnil]; rfl)

/-- What a lock guards is written. -/
theorem put {d : D} (hv : Holds c b h locks v) (hlk : h lk ≠ none) :
    Holds c b (Function.update h lk (some d)) locks (v.setStage lk (.inside d)) := by
  refine ⟨hv.me, hv.nodup, fun l => ?_, fun l => ?_, hv.ncli, hv.ifl, hv.intena, fun hi => ?_⟩
  · by_cases hl : l = lk
    · simp [hl, hv.mem lk, hlk]
    · simp [hl, hv.mem l]
  · by_cases hl : l = lk
    · rw [hl, View.setStage_self, Function.update_self]
      rfl
    · rw [View.setStage_of_ne hl, Function.update_of_ne hl]
      exact hv.stage l
  · have hi : v.ifl = true := hi
    rw [(hv.off hlk).1] at hi
    cases hi

/-- A lock less is held. -/
theorem release (hv : Holds c b h locks v) (hlk : h lk ≠ none) :
    Holds c b (Function.update h lk none) (locks.erase lk) (v.setStage lk .free).popped := by
  have hm := (hv.mem lk).mpr hlk
  have hlen := List.length_erase_of_mem hm
  have hstage : ∀ l, (v.setStage lk .free).stage l =
      (Function.update h lk none l).elim .free .inside := by
    intro l
    by_cases hl : l = lk
    · rw [hl, View.setStage_self, Function.update_self]
      rfl
    · rw [View.setStage_of_ne hl, Function.update_of_ne hl]
      exact hv.stage l
  have hmem : ∀ l, l ∈ locks.erase lk ↔ Function.update h lk none l ≠ none := by
    intro l
    rw [hv.nodup.mem_erase_iff]
    by_cases hl : l = lk
    · simp [hl]
    · simp [hl, hv.mem l]
  have hcount : (v.setStage lk .free).ncli = locks.length := hv.ncli
  have hpos := List.length_pos_of_mem hm
  have hintena : (v.setStage lk .free).intena = some b := hv.intena (List.ne_nil_of_mem hm)
  -- With the last lock the interrupts are what they were.
  by_cases hlast : (v.setStage lk .free).ncli = 1 ∧ (v.setStage lk .free).intena = some true
  · have hb : b = true := by simpa [hintena] using hlast.2
    have hnil : locks.erase lk = [] := List.length_eq_zero_iff.mp (by omega)
    have hnone : ∀ l, Function.update h lk none l = none := fun l => by
      have := (hmem l).not.mp (by simp [hnil])
      simpa using this
    rw [View.popped, if_pos hlast, show (v.setStage lk .free).me = c from hv.me]
    refine ⟨rfl, hv.nodup.erase lk, hmem, fun l => by rw [hnone l]; rfl, by rw [hnil]; rfl, ?_,
      fun hne => absurd hnil hne, fun _ => rfl⟩
    rw [hnil, hb]
    rfl
  · have hoff : (v.setStage lk .free).ifl = false := (hv.off hlk).1
    rw [View.popped, if_neg hlast]
    refine ⟨hv.me, hv.nodup.erase lk, hmem, hstage, ?_, ?_, fun _ => hintena, fun hi => ?_⟩
    · show (v.setStage lk .free).ncli - 1 = _
      omega
    · show (v.setStage lk .free).ifl = _
      rw [hoff]
      cases b with
      | false => rfl
      | true =>
        have : locks.length ≠ 1 := fun h1 => hlast ⟨by omega, hintena⟩
        have : locks.erase lk ≠ [] := fun hnil => by
          rw [hnil] at hlen
          simp at hlen
          omega
        simp [this]
    · have hi : (v.setStage lk .free).ifl = true := hi
      rw [hoff] at hi
      cases hi

omit [DecidableEq L] in
/-- A `pushcli` with its `popcli`. -/
theorem popped_pushed (hv : Holds c b h locks v) : Holds c b h locks v.pushed.popped := by
  by_cases hnil : locks = []
  · have h0 : v.ncli = 0 := by rw [hv.ncli, hnil]; rfl
    have hb : v.ifl = b := by rw [hv.ifl, hnil]; simp
    cases b with
    | true =>
      have hp : v.pushed.popped = v := by
        rw [hv.calm hb]
        simp [View.popped, View.pushed, View.idle]
      rwa [hp]
    | false =>
      have hp : v.pushed.popped = { v with intena := some false } := by
        simp [View.popped, View.pushed, h0, hb]
      rw [hp]
      exact ⟨hv.me, hv.nodup, hv.mem, hv.stage, hv.ncli, hv.ifl, fun hne => absurd hnil hne,
        fun hi => by rw [show v.ifl = true from hi] at hb; cases hb⟩
  · obtain ⟨lk, hlk⟩ := List.exists_mem_of_ne_nil locks hnil
    obtain ⟨hoff, hn⟩ := hv.off ((hv.mem lk).mp hlk)
    rwa [View.popped_pushed hoff hn]

end Holds

variable [DecidableEq C] {b : Bool}

/-- Every call of the kernel keeps to its specification. -/
theorem lwp_call (q : Call L D) (h : L → Option D) (v : View C L D)
    (hv : ∃ locks, Holds c b h locks v) (hq : (callSpec R).pre q h) :
    (call c q).lwp (spec R)
      (fun r w => ∃ k, (callSpec R).post q h r k ∧ ∃ locks, Holds c b k locks w) v := by
  obtain ⟨locks, hv⟩ := hv
  have hme : c = v.me := hv.me.symm
  cases q with
  | acquire lk =>
      have hbefore : ∀ l, v.stage l ≠ .free → R.before l lk := fun l hl =>
        hq l fun hn => hl (hv.free_iff.mpr hn)
      have hlk : h lk = none := by
        by_contra hn
        exact R.irrefl lk (hq lk hn)
      refine lwp_seq (lwp_acquire hme (by have := hv.ncli; omega) hbefore) ?_
      rintro _ w rfl
      refine ⟨⟨hme, rfl, View.setStage_self⟩, ?_⟩
      rintro _ w ⟨d, hd, rfl⟩
      rw [View.setStage_setStage]
      exact ⟨_, ⟨d, hd, rfl⟩, _, hv.acquire hlk⟩
  | release lk =>
      obtain ⟨d, hd, hinv⟩ := hq
      have hlk : h lk ≠ none := by simp [hd]
      obtain ⟨hoff, hn⟩ := hv.off hlk
      have hst : v.stage lk = .inside d := by
        rw [hv.stage, hd]
        rfl
      have hm := (hv.mem lk).mpr hlk
      refine lwp_op ⟨hme, hoff, d, hst, hinv⟩ ?_
      rintro _ w rfl
      refine lwp_mono (lwp_release hme hoff hn View.setStage_self fun h1 => ?_) ?_
      · refine ⟨b, hv.intena (List.ne_nil_of_mem hm), fun l hl => ?_⟩
        refine (View.setStage_of_ne hl).trans (hv.free_iff.mpr ?_)
        by_contra hn
        have h1 : locks.length = 1 := by
          have h1 : v.ncli = 1 := h1
          have := hv.ncli
          omega
        -- It is the last lock: none is held when the interrupts come on.
        obtain ⟨a, rfl⟩ := List.length_eq_one_iff.mp h1
        have hl' := (hv.mem l).mpr hn
        rw [List.mem_singleton] at hl' hm
        exact hl (hl'.trans hm.symm)
      · rintro _ w rfl
        rw [View.setStage_setStage]
        exact ⟨_, rfl, _, hv.release hlk⟩
  | myproc =>
      refine lwp_seq (lwp_pushcli hme) ?_
      rintro _ w rfl
      refine lwp_seq (lwp_mycpu hme rfl) ?_
      rintro c' w ⟨rfl, rfl⟩
      have hcount : v.pushed.ncli = v.ncli + 1 := rfl
      refine lwp_mono (lwp_popcli hme rfl (by have := hv.ncli; omega) fun h1 => ?_) ?_
      · have hnil : locks = [] := List.length_eq_zero_iff.mp (by have := hv.ncli; omega)
        refine ⟨v.ifl, if_pos (by omega), fun _ l => hv.free_iff.mpr ?_⟩
        by_contra hn
        have := (hv.mem l).mpr hn
        simp [hnil] at this
      · rintro _ w rfl
        exact ⟨h, rfl, locks, hv.popped_pushed⟩
  | get lk =>
      obtain ⟨d, hd⟩ := Option.ne_none_iff_exists'.mp hq
      have hst : v.stage lk = .inside d := by
        rw [hv.stage, hd]
        rfl
      refine lwp_perform ⟨hme, (hv.off hq).1, d, hst⟩ ?_
      rintro r w ⟨hr, rfl⟩
      rw [hst] at hr
      obtain rfl := Stage.inside.inj hr
      exact ⟨h, ⟨hd, rfl⟩, locks, hv⟩
  | put lk d =>
      obtain ⟨d', hd'⟩ := Option.ne_none_iff_exists'.mp hq
      refine lwp_perform ⟨hme, (hv.off hq).1, d', by rw [hv.stage, hd']; rfl⟩ ?_
      rintro _ w rfl
      exact ⟨_, rfl, locks, hv.put hq⟩

/-- Kernel code that keeps to the discipline does so on its CPU. -/
theorem lwp_expand_call {p : Kernel L D Unit} (hp : Disciplined R p)
    (hv : Holds c b (fun _ => none) [] v) :
    (p.expand (call c)).lwp (spec R) (fun _ w => Holds c b (fun _ => none) [] w) v := by
  refine lwp_mono (lwp_expand lwp_call p hp ⟨[], hv⟩) ?_
  rintro _ w ⟨_, rfl, locks, hw⟩
  obtain rfl := hw.eq_nil
  exact hw

/-- The code of an interrupt leaves what the CPU knew before it. -/
theorem lwp_handler {p : Kernel L D Unit} (hp : Disciplined R p) :
    (handler c p).lwp (spec R) (fun _ w => w = .idle c) { View.idle c with ifl := false } := by
  have hv : Holds c false (fun _ => none) [] ({ View.idle c with ifl := false } : View C L D) :=
    ⟨rfl, List.nodup_nil, fun lk => by simp, fun _ => rfl, rfl, rfl, fun hne => absurd rfl hne,
      fun hi => by cases hi⟩
  refine lwp_seq (lwp_expand_call hp hv) ?_
  rintro _ w hw
  exact ⟨⟨hw.me.symm, hw.ncli, fun lk => hw.free_iff.mpr rfl⟩, fun _ w hw => hw⟩

end Xv6.Spinlock
