import Xv6.Lib.Partial
import Xv6.Lib.Runs
import Xv6.Log.Basic
import Mathlib.Algebra.BigOperators.Group.List.Basic
import Mathlib.Algebra.Order.BigOperators.Group.List
import Mathlib.Algebra.Order.Ring.Nat
import Mathlib.Data.List.Nodup
import Mathlib.Data.List.Perm.Basic

/-!
# The log — admission against acceptance

`begin_op` admits an operation when `lh.n + (outstanding + 1) * MAXOPBLOCKS ≤ LOGSIZE`;
`log_write` accepts a block when `lh.n < LOGSIZE` and `lh.n < log.size - 1`.  With the geometry
`mkfs` writes, `log.size = LOGSIZE`, one of whose blocks is the header, so the log holds
`LOGSIZE - 1` blocks and admission promises one more than acceptance keeps.

The state is the log record with the operations in progress, each with the distinct block
numbers it has logged; an operation logs at most `MAXOPBLOCKS` of them.  `claimed` is what the
group may still come to: the blocks in it plus what every operation in progress may add.

* `three_full_operations_panic`: three operations of `MAXOPBLOCKS` blocks each are admitted
  together and the thirtieth block panics.
* `log_write_fits_iff_claimed`: as long as every `begin_op` leaves `claimed` below
  `LOGSIZE - 1` no `log_write` panics; and from any reachable state with an operation in
  progress and `claimed` at `LOGSIZE - 1` or above, operations within their limit reach the
  panic.
-/

namespace Xv6.Admission

open Lib

/-- An operation between its `begin_op` and its `end_op`. -/
structure Op where
  pid : Pid
  /-- the distinct block numbers it has logged -/
  blocks : List ℕ
  deriving DecidableEq, Repr

/-- The operation has logged the block. -/
def Op.add (o : Op) (b : ℕ) : Op := if b ∈ o.blocks then o else { o with blocks := b :: o.blocks }

/-- What the operation may still add within its limit. -/
def Op.left (o : Op) : ℕ := MAXOPBLOCKS - o.blocks.length

/-- The log in memory, and the operations that are in progress. -/
structure State where
  log : Log
  ops : List Op
  deriving DecidableEq, Repr

/-- The calls of `log.c`. -/
inductive Act where
  | begin_op (p : Pid)
  | log_write (p : Pid) (b : ℕ)
  | end_op (p : Pid)
  /-- the process that found `do_commit` finishes `commit` and `end_op` -/
  | commit
  deriving DecidableEq, Repr

/-- The operation of a process. -/
def State.op? (s : State) (p : Pid) : Option Op := s.ops.find? (·.pid = p)

/-- The operations of the others. -/
def State.others (s : State) (p : Pid) : List Op := s.ops.eraseP (·.pid = p)

/-- `p` is in an operation that stays within its limit when it logs `b`. -/
def State.mayLog (s : State) (p : Pid) (b : ℕ) : Bool :=
  match s.op? p with
  | some o => (o.add b).blocks.length ≤ MAXOPBLOCKS
  | none => false

/-- One call; `none` when the caller sleeps, has no business making it, or panics. -/
def step (s : State) : Act → Option State
  | .begin_op p =>
      if s.op? p = none then s.log.begin_op.map fun l => ⟨l, ⟨p, []⟩ :: s.ops⟩ else none
  | .log_write p b =>
      match s.op? p with
      | some o =>
          if s.mayLog p b then
            (s.log.log_write b).toOption.map fun l => ⟨l, o.add b :: s.others p⟩
          else none
      | none => none
  | .end_op p =>
      if (s.op? p).isSome then s.log.end_op.toOption.map fun r => ⟨r.2, s.others p⟩ else none
  | .commit => if s.log.committing then some ⟨s.log.clear.end_commit, s.ops⟩ else none

/-- The transition relation of `step`. -/
def Steps (s : State) (a : Act) (t : State) : Prop := step s a = some t

/-- The log `mkfs` lays out, as `initlog` finds it after recovery. -/
def init (start : ℕ) : State := ⟨⟨start, LOGSIZE, 0, false, ⟨[]⟩⟩, []⟩

/-- The blocks of the current group, and those its operations may still add. -/
def State.claimed (s : State) : ℕ := s.log.lh.n + (s.ops.map Op.left).sum

/-- `begin_op` is called only where the group with one more full operation fits the log. -/
def Roomy (s : State) : Act → Prop
  | .begin_op _ => s.claimed + MAXOPBLOCKS < LOGSIZE - 1
  | _ => True

instance (s : State) (a : Act) : Decidable (Roomy s a) := by
  cases a <;> unfold Roomy <;> infer_instance

/-! ### The defect -/

/-- Three `begin_op`s, then ten distinct blocks from each of the three operations in turn, less
the very last. -/
def threeFull : List Act :=
  [.begin_op 0, .begin_op 1, .begin_op 2] ++
    (List.range 29).map fun i => .log_write (i / 10) (100 + i)

/-- **The boundary is off by one.**  Not every run within the limits is free of the panic. -/
theorem three_full_operations_panic :
    ¬ ∀ (start : ℕ) (as : List Act) (s : State), Run Steps (init start) as s →
      ∀ p b, s.mayLog p b → s.log.log_write b ≠ .error .tooBigTransaction := by
  intro h
  obtain ⟨s, hs⟩ : ∃ s, threeFull.foldlM step (init 2) = some s :=
    Option.isSome_iff_exists.mp (by decide +kernel)
  have hlog : (threeFull.foldlM step (init 2)).map (fun s => (s.mayLog 2 129, s.log.log_write 129)) =
      some (true, .error .tooBigTransaction) := by decide +kernel
  rw [hs, Option.map_some, Option.some.injEq, Prod.mk.injEq] at hlog
  exact h 2 threeFull s (Run.of_foldlM hs) 2 129 hlog.1 hlog.2

/-! ### What a step does -/

variable {s t : State} {p : Pid} {b : ℕ} {o : Op}

/-- Taking one operation out of the list. -/
theorem ops_perm (h : s.op? p = some o) : s.ops.Perm (o :: s.others p) := perm_of_find? h

theorem sum_left_perm (h : s.op? p = some o) :
    (s.ops.map Op.left).sum = o.left + ((s.others p).map Op.left).sum := by
  rw [((ops_perm h).map Op.left).sum_eq, List.map_cons, List.sum_cons]

/-- What a `begin_op` changes. -/
theorem step_begin_op (h : step s (.begin_op p) = some t) :
    ∃ l, s.op? p = none ∧ s.log.begin_op = some l ∧ t = ⟨l, ⟨p, []⟩ :: s.ops⟩ := by
  simp only [step] at h
  split at h
  · rename_i ho
    obtain ⟨l, hl, rfl⟩ := Option.map_eq_some_iff.mp h
    exact ⟨l, ho, hl, rfl⟩
  · cases h

/-- What a `log_write` changes. -/
theorem step_log_write (h : step s (.log_write p b) = some t) :
    ∃ o l, s.op? p = some o ∧ (o.add b).blocks.length ≤ MAXOPBLOCKS ∧
      s.log.log_write b = .ok l ∧ t = ⟨l, o.add b :: s.others p⟩ := by
  simp only [step] at h
  split at h
  · rename_i o ho
    split at h
    · rename_i hm
      obtain ⟨l, hl, rfl⟩ := Option.map_eq_some_iff.mp h
      refine ⟨o, l, ho, by simpa [State.mayLog, ho] using hm, ?_, rfl⟩
      cases hw : s.log.log_write b with
      | error => rw [hw] at hl; cases hl
      | ok => rw [hw] at hl; cases hl; rfl
    · cases h
  · cases h

/-- What an `end_op` changes. -/
theorem step_end_op (h : step s (.end_op p) = some t) :
    ∃ o c l, s.op? p = some o ∧ s.log.end_op = .ok (c, l) ∧ t = ⟨l, s.others p⟩ := by
  simp only [step] at h
  split at h
  · rename_i ho
    obtain ⟨o, ho⟩ := Option.isSome_iff_exists.mp ho
    obtain ⟨⟨c, l⟩, hl, rfl⟩ := Option.map_eq_some_iff.mp h
    refine ⟨o, c, l, ho, ?_, rfl⟩
    cases hw : s.log.end_op with
    | error => rw [hw] at hl; cases hl
    | ok => rw [hw] at hl; cases hl; rfl
  · cases h

theorem step_commit (h : step s .commit = some t) :
    s.log.committing = true ∧ t = ⟨s.log.clear.end_commit, s.ops⟩ := by
  simp only [step] at h
  split at h
  · rename_i hc
    exact ⟨hc, (Option.some.inj h).symm⟩
  · cases h

/-! ### The reservation -/

/-- What every run keeps. -/
structure Inv (s : State) : Prop where
  size : s.log.size = LOGSIZE
  count : s.log.outstanding = s.ops.length
  idle : s.log.committing = true → s.ops = []
  logged : ∀ o ∈ s.ops, ∀ b ∈ o.blocks, b ∈ s.log.lh.block
  limit : ∀ o ∈ s.ops, o.blocks.length ≤ MAXOPBLOCKS
  pids : (s.ops.map Op.pid).Nodup

theorem init_inv (start : ℕ) : Inv (init start) where
  size := rfl
  count := rfl
  idle := by intro h; cases h
  logged := by intro o ho; cases ho
  limit := by intro o ho; cases ho
  pids := List.nodup_nil

theorem add_pid : (o.add b).pid = o.pid := by
  unfold Op.add; split <;> rfl

theorem mem_add {x : ℕ} : x ∈ (o.add b).blocks ↔ x = b ∨ x ∈ o.blocks := by
  unfold Op.add
  split
  · constructor
    · exact Or.inr
    · rintro (rfl | h) <;> assumption
  · simp

/-- Every step keeps the invariant. -/
theorem step_inv {a : Act} (h : Steps s a t) (hi : Inv s) : Inv t := by
  cases a with
  | begin_op p =>
      obtain ⟨l, hno, hl, rfl⟩ := step_begin_op h
      obtain ⟨hc, -, rfl⟩ := Log.begin_op_spec hl
      refine ⟨hi.size, by simp [hi.count], fun h => ?_, fun o ho => ?_, fun o ho => ?_, ?_⟩
      · rw [hc] at h; cases h
      · rcases List.mem_cons.mp ho with rfl | ho
        · intro b hb; cases hb
        · exact hi.logged o ho
      · rcases List.mem_cons.mp ho with rfl | ho
        · simp
        · exact hi.limit o ho
      · refine List.nodup_cons.mpr ⟨fun hp => ?_, hi.pids⟩
        obtain ⟨o, ho, hpid⟩ := List.mem_map.mp hp
        exact absurd hpid (by simpa using List.find?_eq_none.mp hno o ho)
  | log_write p b =>
      obtain ⟨o, l, ho, hle, hl, rfl⟩ := step_log_write h
      obtain ⟨-, -, -, rfl⟩ := Log.log_write_spec hl
      have hperm := ops_perm ho
      have hmem : b ∈ (if b ∈ s.log.lh.block then s.log.lh.block else s.log.lh.block ++ [b]) := by
        split <;> simp_all
      have hsub : ∀ x ∈ s.log.lh.block,
          x ∈ (if b ∈ s.log.lh.block then s.log.lh.block else s.log.lh.block ++ [b]) := by
        intro x hx; split <;> simp_all
      refine ⟨hi.size, by simp [hi.count, hperm.length_eq], fun h => ?_, fun o' ho' => ?_,
        fun o' ho' => ?_, ?_⟩
      · have := hi.idle h
        rw [this] at hperm
        exact absurd hperm.symm (by simp)
      · rcases List.mem_cons.mp ho' with rfl | ho'
        · intro x hx
          rcases mem_add.mp hx with rfl | hx
          · exact hmem
          · exact hsub x (hi.logged o (hperm.mem_iff.mpr (by simp)) x hx)
        · intro x hx
          exact hsub x (hi.logged o' (hperm.mem_iff.mpr (by simp [ho'])) x hx)
      · rcases List.mem_cons.mp ho' with rfl | ho'
        · exact hle
        · exact hi.limit o' (hperm.mem_iff.mpr (by simp [ho']))
      · rw [List.map_cons, add_pid, ← List.map_cons, ← (hperm.map Op.pid).nodup_iff]
        exact hi.pids
  | end_op p =>
      obtain ⟨o, c, l, ho, hl, rfl⟩ := step_end_op h
      obtain ⟨hc, hdo, rfl⟩ := Log.end_op_spec hl
      have hperm := ops_perm ho
      have hlen := hperm.length_eq
      rw [List.length_cons] at hlen
      refine ⟨hi.size, ?_, fun h => ?_, fun o' ho' => ?_, fun o' ho' => ?_, ?_⟩
      · show s.log.outstanding - 1 = (s.others p).length
        rw [hi.count]; omega
      · have := hdo.mp h
        rw [hi.count] at this
        exact List.length_eq_zero_iff.mp (show (s.others p).length = 0 by omega)
      · exact hi.logged o' (hperm.mem_iff.mpr (by simp [ho']))
      · exact hi.limit o' (hperm.mem_iff.mpr (by simp [ho']))
      · have := (hperm.map Op.pid).nodup_iff.mp hi.pids
        exact (List.nodup_cons.mp this).2
  -- While the log commits there is no operation.
  | commit =>
      obtain ⟨hc, rfl⟩ := step_commit h
      have hops := hi.idle hc
      exact ⟨hi.size, hi.count, fun h => hops, by simp [hops], by simp [hops], hi.pids⟩

/-- A step that is not a `begin_op` claims nothing more. -/
theorem step_claimed {a : Act} (h : Steps s a t) (hi : Inv s) (ha : ∀ p, a ≠ .begin_op p) :
    t.claimed ≤ s.claimed := by
  cases a with
  | begin_op p => exact absurd rfl (ha p)
  | log_write p b =>
      obtain ⟨o, l, ho, hle, hl, rfl⟩ := step_log_write h
      obtain ⟨-, -, -, rfl⟩ := Log.log_write_spec hl
      have hsum := sum_left_perm ho
      simp only [State.claimed, LogHeader.n, List.map_cons, List.sum_cons, hsum]
      by_cases hb : b ∈ o.blocks
      · have : b ∈ s.log.lh.block := hi.logged o ((ops_perm ho).mem_iff.mpr (by simp)) b hb
        simp [this, Op.add, hb]
      · have hadd : (o.add b).left + 1 = o.left := by
          simp only [Op.add, if_neg hb, List.length_cons, Op.left] at hle ⊢; omega
        split
        · omega
        · simp only [List.length_append, List.length_singleton]; omega
  | end_op p =>
      obtain ⟨o, c, l, ho, hl, rfl⟩ := step_end_op h
      obtain ⟨-, -, rfl⟩ := Log.end_op_spec hl
      have hsum := sum_left_perm ho
      simp only [State.claimed, hsum]
      omega
  | commit =>
      obtain ⟨-, rfl⟩ := step_commit h
      simp [State.claimed, Log.clear, Log.end_commit, LogHeader.n]

/-- One more operation claims its whole limit. -/
theorem step_claimed_begin_op (h : Steps s (.begin_op p) t) :
    t.claimed = s.claimed + MAXOPBLOCKS := by
  obtain ⟨l, -, hl, rfl⟩ := step_begin_op h
  obtain ⟨-, -, rfl⟩ := Log.begin_op_spec hl
  simp only [State.claimed, Op.left, List.map_cons, List.sum_cons, List.length_nil]
  omega

/-- While the operations leave room, no more blocks are claimed than the log has. -/
theorem roomy_run_claimed {start : ℕ} {as : List Act}
    (h : Run (fun s a t => Roomy s a ∧ Steps s a t) (init start) as s) :
    Inv s ∧ s.claimed < LOGSIZE - 1 := by
  have h0 : (init start).claimed < LOGSIZE - 1 := by
    simp [State.claimed, init, LogHeader.n, LOGSIZE, MAXOPBLOCKS]
  refine h.inv (I := fun s => Inv s ∧ s.claimed < LOGSIZE - 1) ?_ ⟨init_inv start, h0⟩
  rintro s a t ⟨hr, hst⟩ ⟨hi, hc⟩
  refine ⟨step_inv hst hi, ?_⟩
  by_cases ha : ∃ p, a = .begin_op p
  · obtain ⟨p, rfl⟩ := ha
    rw [step_claimed_begin_op hst]
    exact hr
  · push Not at ha
    exact (step_claimed hst hi ha).trans_lt hc

/-! ### Past the boundary -/

theorem reachable_inv {start : ℕ} {as : List Act} (h : Run Steps (init start) as s) : Inv s :=
  h.inv (fun _ _ _ hst => step_inv hst) (init_inv start)

/-- A block number above all of the group's. -/
def State.fresh (s : State) : ℕ := s.log.lh.block.foldr max 0 + 1

/-- The fresh block is not in the log. -/
theorem fresh_not_mem : s.fresh ∉ s.log.lh.block := by
  have hle : ∀ (l : List ℕ), ∀ x ∈ l, x ≤ l.foldr max 0 := by
    intro l
    induction l with
    | nil => simp
    | cons y l ih =>
        intro x hx
        rcases List.mem_cons.mp hx with rfl | hx
        · exact le_max_left _ _
        · exact (ih x hx).trans (le_max_right _ _)
  intro h
  have := hle _ _ h
  simp only [State.fresh] at this
  omega

theorem op?_of_mem (hi : Inv s) (ho : o ∈ s.ops) : s.op? o.pid = some o := by
  cases h : s.op? o.pid with
  | none => exact absurd (by simp) (List.find?_eq_none.mp h o ho)
  | some o' =>
      have hpid : o'.pid = o.pid := by simpa using List.find?_some h
      have hmem : o' ∈ s.ops := List.mem_of_find?_eq_some h
      rw [List.inj_on_of_nodup_map hi.pids hmem ho hpid]

/-- The state after an operation logs a block new to the group. -/
def State.grown (s : State) (o : Op) : State :=
  ⟨{ s.log with lh := ⟨s.log.lh.block ++ [s.fresh]⟩ }, o.add s.fresh :: s.others o.pid⟩

/-- An operation with room logs a block new to the group: the group grows, `claimed` stays. -/
theorem step_grown (hi : Inv s) (ho : o ∈ s.ops) (hleft : 0 < o.left)
    (hn : s.log.lh.n < LOGSIZE - 1) :
    Steps s (.log_write o.pid s.fresh) (s.grown o) ∧ (s.grown o).claimed = s.claimed := by
  have hop := op?_of_mem hi ho
  have hnew : s.fresh ∉ o.blocks := fun h => fresh_not_mem (hi.logged o ho _ h)
  have hadd : (o.add s.fresh).blocks.length = o.blocks.length + 1 := by simp [Op.add, hnew]
  simp only [Op.left] at hleft
  have hle : (o.add s.fresh).blocks.length ≤ MAXOPBLOCKS := by omega
  have hout : 1 ≤ s.log.outstanding := by
    rw [hi.count]; exact List.length_pos_of_mem ho
  have hw : s.log.log_write s.fresh =
      .ok { s.log with lh := ⟨s.log.lh.block ++ [s.fresh]⟩ } := by
    have h₁ : ¬ (s.log.lh.n ≥ LOGSIZE ∨ s.log.lh.n ≥ s.log.size - 1) := by
      rw [hi.size]; omega
    rw [Log.log_write, if_neg h₁, if_neg (by omega), if_neg fresh_not_mem]
  constructor
  · simp [Steps, step, hop, State.mayLog, hle, hw, Except.toOption, State.grown]
  · have hsum := sum_left_perm hop
    simp only [State.claimed, State.grown, LogHeader.n, List.map_cons, List.sum_cons, hsum,
      List.length_append, List.length_singleton, Op.left, hadd]
    omega

/-- With `claimed` at the log's capacity the operations in progress can fill the group. -/
theorem run_fill (k : ℕ) : ∀ {s : State}, Inv s → s.ops ≠ [] → LOGSIZE - 1 ≤ s.claimed →
    LOGSIZE - 1 ≤ s.log.lh.n + k →
    ∃ as t, Run Steps s as t ∧ Inv t ∧ t.ops ≠ [] ∧ LOGSIZE - 1 ≤ t.log.lh.n := by
  induction k with
  | zero => intro s hi ho _ hk; exact ⟨[], s, .nil s, hi, ho, hk⟩
  | succ k ih =>
      intro s hi ho hc hk
      by_cases hn : LOGSIZE - 1 ≤ s.log.lh.n
      · exact ⟨[], s, .nil s, hi, ho, hn⟩
      · -- the group is short of the capacity, so some operation has room left
        obtain ⟨o, hmem, hleft⟩ : ∃ o ∈ s.ops, 0 < o.left := by
          by_contra hno
          push Not at hno
          have hz : (s.ops.map Op.left).sum = 0 := by
            rw [List.sum_eq_zero_iff]
            intro x hx
            obtain ⟨o, ho, rfl⟩ := List.mem_map.mp hx
            exact Nat.le_zero.mp (hno o ho)
          simp only [State.claimed, hz] at hc
          omega
        obtain ⟨hst, hcl⟩ := step_grown hi hmem hleft (by omega)
        have hlen : (s.grown o).log.lh.n = s.log.lh.n + 1 := by simp [State.grown, LogHeader.n]
        obtain ⟨as, t, hr, h⟩ := ih (step_inv hst hi) (List.cons_ne_nil _ _)
          (by rw [hcl]; exact hc) (by omega)
        exact ⟨_, t, .cons hst hr, h⟩

/-- In a full group every operation may still call `log_write`: at least one block is within
every limit. -/
theorem exists_mayLog (hi : Inv s) (ho : s.ops ≠ []) : ∃ p b, s.mayLog p b = true := by
  obtain ⟨o, hmem⟩ := List.exists_mem_of_ne_nil _ ho
  have hop := op?_of_mem hi hmem
  have hlim := hi.limit o hmem
  cases hb : o.blocks with
  | nil => exact ⟨o.pid, 0, by simp [State.mayLog, hop, Op.add, hb, MAXOPBLOCKS]⟩
  | cons b bs =>
      rw [hb] at hlim
      exact ⟨o.pid, b, by simpa [State.mayLog, hop, Op.add, hb] using hlim⟩

/-- **When admission is enough.**  In a run whose every `begin_op` leaves `claimed` below the
`LOGSIZE - 1` blocks the log holds, no operation within its limit makes `log_write` panic with
"too big a transaction"; and from a reachable state with an operation in progress whose
`claimed` is `LOGSIZE - 1` or more, some run of operations within their limits does. -/
theorem log_write_fits_iff_claimed (start : ℕ) (as : List Act) (s : State) :
    (Run (fun s a t => Roomy s a ∧ Steps s a t) (init start) as s →
      ∀ p b, s.mayLog p b → s.log.log_write b ≠ .error .tooBigTransaction) ∧
    (Run Steps (init start) as s → s.ops ≠ [] → LOGSIZE - 1 ≤ s.claimed →
      ∃ as' t p b, Run Steps s as' t ∧ t.mayLog p b ∧
        t.log.log_write b = .error .tooBigTransaction) := by
  constructor
  · intro h p b _ hbig
    obtain ⟨hi, hc⟩ := roomy_run_claimed h
    rw [Log.log_write_tooBig_iff, hi.size] at hbig
    simp only [State.claimed] at hc
    omega
  · intro h ho hc
    obtain ⟨as', t, hr, hi, ht, hn⟩ := run_fill (LOGSIZE - 1) (reachable_inv h) ho hc (by omega)
    obtain ⟨p, b, hpb⟩ := exists_mayLog hi ht
    refine ⟨as', t, p, b, hr, hpb, Log.log_write_tooBig_iff.mpr (.inr ?_)⟩
    rw [hi.size]
    exact hn

/-- One operation admitted, and three. -/
theorem log_write_fits_one_not_three :
    (⟨2, LOGSIZE, 1, false, ⟨[]⟩⟩ : Log).log_write 45 ≠ .error .tooBigTransaction ∧
    ∃ as t p b,
      Run Steps ⟨⟨2, LOGSIZE, 3, false, ⟨[]⟩⟩, [⟨2, []⟩, ⟨1, []⟩, ⟨0, []⟩]⟩ as t ∧
        t.mayLog p b ∧ t.log.log_write b = .error .tooBigTransaction :=
  ⟨(log_write_fits_iff_claimed 2 [.begin_op 0] ⟨⟨2, LOGSIZE, 1, false, ⟨[]⟩⟩, [⟨0, []⟩]⟩).1
      (.cons ⟨by decide, by unfold Steps; decide⟩ (.nil _)) 0 45 (by decide),
    (log_write_fits_iff_claimed 2 [.begin_op 0, .begin_op 1, .begin_op 2] _).2
      (Run.of_foldlM (by decide)) (by decide) (by decide)⟩

end Xv6.Admission
