import Xv6.Lib.Redo
import Xv6.Bio.Coherence
import Xv6.Log.System

/-!
# The log — crash atomicity

The home blocks of a disk are what they are once its log is installed (`Recovers`).  Every disk
write of `commit` and of `recover_from_log` moves the disk between two such readings only at the
header write; every other write leaves the reading as it is.  The invariant `MInv` says this at
each point of the code (`At`), relative to the groups that earlier crashes have left.

* `Sys.write_log_put`, `Sys.install_trans_put`, `Sys.write_head_put` — what each pass and each
  header write does to the disk and to the cache.
* `At.off` — wherever the power is lost, the disk stands for a prefix of the groups that has
  every group whose `commit` returned.
* `step_minv`, `run_minv` — the invariant along every run, crashes included.
* `crash_atomic` — what a completed recovery leaves, and what a home block can ever hold.
-/

namespace Xv6.Sys

open Lib

variable {s t u : Sys} {i j : Fin NBUF} {p : Pid} {b dev : ℕ}

/-! ### The calls into the cache -/

/-- `bread` hands out the buffer with what was last stored into the block. -/
theorem bread_spec (h : s.bread p dev b = some (i, t)) (hi : Inv s) :
    Inv t ∧ Frame s t ∧ Keeps s t ∧ (t.ctl i).held = some ⟨⟨p, dev, b⟩, true, false⟩ ∧
      (t.buf i).carries dev b ∧ (t.buf i).data = t.flat dev b := by
  simp only [bread, Option.bind_eq_bind, Option.bind_eq_some_iff, Option.pure_def,
    Option.some.injEq, Prod.mk.injEq] at h
  obtain ⟨⟨i', s₁⟩, h₁, s₂, h₂, s₃, h₃, rfl, rfl⟩ := h
  obtain ⟨hi₁, hf₁, hk₁⟩ := bget_spec h₁ hi
  obtain ⟨hi₂, hf₂, hk₂, hh₂⟩ := acquiresleep_spec h₂ hi₁
  obtain ⟨hi₃, hf₃, hk₃, x, hx, hh₃, hcar, hdata⟩ := ready_spec h₃ hi₂
  rw [hh₂] at hx
  cases hx
  exact ⟨hi₃, (hf₁.trans hf₂).trans hf₃, (hk₁.trans_same hk₂).trans_same hk₃, hh₃, hcar, hdata⟩

theorem release_spec (h : s.release p i = some t) (hi : Inv s) : Inv t ∧ Frame s t := by
  simp only [release, Option.bind_eq_bind, Option.bind_eq_some_iff] at h
  obtain ⟨s₁, h₁, h₂⟩ := h
  obtain ⟨hi₁, hf₁, -⟩ := releasesleep_spec h₁ hi
  obtain ⟨hi₂, hf₂, -⟩ := brelse_spec h₂ hi₁
  exact ⟨hi₂, hf₁.trans hf₂⟩

/-- Block `n` now holds `d`, on the disk as in the cache, and nothing else has changed. -/
structure Put (s t : Sys) (n : ℕ) (d : Block) : Prop where
  inv : Inv t
  flat : t.flat = Function.update s.flat 1 (Function.update (s.flat 1) n d)
  disk : t.disk = { s.disk with block := Function.update s.disk.block n d }
  log : t.log = s.log
  unsaved : t.unsaved = s.unsaved

theorem Put.of_frame {n : ℕ} {d : Block} (hf : Frame s t) (h : Put t u n d) : Put s u n d where
  inv := h.inv
  flat := by rw [h.flat, hf.flat]
  disk := by rw [h.disk, hf.disk]
  log := h.log.trans hf.log
  unsaved := h.unsaved.trans hf.unsaved

theorem Put.frame {n : ℕ} {d : Block} (h : Put s t n d) (hi : Inv u) (hf : Frame t u) :
    Put s u n d where
  inv := hi
  flat := hf.flat.trans h.flat
  disk := hf.disk.trans h.disk
  log := hf.log.trans h.log
  unsaved := hf.unsaved.trans h.unsaved

/-- Storing into a buffer and writing it through. -/
theorem store_bwrite_put {d : Block} (h₁ : s.store p i d = some t) (h₂ : t.bwrite p i = some u)
    (hi : Inv s) (hs : s.unsaved i = none) : Put s u (s.buf i).blockno d := by
  obtain ⟨hi₁, hd₁, hl₁, -, hf₁, hu₁, -, hk₁⟩ := store_spec h₁ hi
  obtain ⟨hi₂, hf₂, hl₂, hd₂, hu₂, -, -, -⟩ := bwrite_spec h₂ hi₁
  refine ⟨hi₂, hf₂.trans hf₁, ?_, hl₂.trans hl₁, ?_⟩
  · rw [hd₂, hd₁, hf₁, (hk₁ i).2.1, Function.update_self, Function.update_self]
  · rw [hu₂, hu₁, Function.update_idem, ← hs, Function.update_eq_self]

theorem unsaved_of_held {r : Req} (h : (s.ctl i).held = some ⟨r, true, false⟩) :
    s.unsaved i = none := by
  simp [Sys.unsaved, h]

/-- A buffer a call holds keeps its block. -/
theorem Keeps.of_held (hk : Keeps s t) (hi : Inv s) {x : Held} (h : (s.ctl i).held = some x) :
    Buf.Same (s.buf i) (t.buf i) := by
  refine hk i (.inr ?_)
  rw [(hi.cell i).refcnt, h]
  simp

/-- `write_log` puts a block that is logged into the log on the disk. -/
theorem write_log_put {tail : ℕ} (h : s.write_log p tail = some t) (hi : Inv s) :
    ∃ b, s.log.lh.block[tail]? = some b ∧ Put s t (s.log.start + tail + 1) (s.flat 1 b) := by
  simp only [write_log, Option.bind_eq_bind, Option.bind_eq_some_iff] at h
  obtain ⟨b, hb, ⟨dst, s₁⟩, h₁, ⟨src, s₂⟩, h₂, s₃, h₃, s₄, h₄, s₅, h₅, h₆⟩ := h
  obtain ⟨hi₁, hf₁, -, hh₁, hc₁, -⟩ := bread_spec h₁ hi
  obtain ⟨hi₂, hf₂, hk₂, -, -, hd₂⟩ := bread_spec h₂ hi₁
  have hu : s₂.unsaved dst = none := by rw [hf₂.unsaved]; exact unsaved_of_held hh₁
  have hput := store_bwrite_put h₃ h₄ hi₂ hu
  rw [(hk₂.of_held hi₁ hh₁).2.1, hc₁.2, hd₂, hf₂.flat, hf₁.flat] at hput
  obtain ⟨hi₅, hf₅⟩ := release_spec h₅ hput.inv
  obtain ⟨hi₆, hf₆⟩ := release_spec h₆ hi₅
  exact ⟨b, hb, (hput.of_frame (hf₁.trans hf₂)).frame hi₆ (hf₅.trans hf₆)⟩

/-- `install_trans` puts a block of the log in its place. -/
theorem install_trans_put {tail : ℕ} (h : s.install_trans p tail = some t) (hi : Inv s) :
    ∃ b, s.log.lh.block[tail]? = some b ∧ Put s t b (s.flat 1 (s.log.start + tail + 1)) := by
  simp only [install_trans, Option.bind_eq_bind, Option.bind_eq_some_iff] at h
  obtain ⟨b, hb, ⟨lbuf, s₁⟩, h₁, ⟨dbuf, s₂⟩, h₂, s₃, h₃, s₄, h₄, s₅, h₅, h₆⟩ := h
  obtain ⟨hi₁, hf₁, -, hh₁, hc₁, -⟩ := bread_spec h₁ hi
  obtain ⟨hi₂, hf₂, hk₂, hh₂, hc₂, -⟩ := bread_spec h₂ hi₁
  have hput := store_bwrite_put h₃ h₄ hi₂ (unsaved_of_held hh₂)
  -- the log buffer is still held, so it still carries the log block
  have hdat : (s₂.buf lbuf).data = s.flat 1 (s.log.start + tail + 1) := by
    obtain ⟨hdev, hno, hval⟩ := hk₂.of_held hi₁ hh₁
    have hv := hval ((hi₁.cell lbuf).ready _ hh₁ rfl)
    rw [(hi₂.cell lbuf).flat hv, hdev, hno, hc₁.1, hc₁.2, hf₂.flat, hf₁.flat]
  rw [hc₂.2, hdat] at hput
  obtain ⟨hi₅, hf₅⟩ := release_spec h₅ hput.inv
  obtain ⟨hi₆, hf₆⟩ := release_spec h₆ hi₅
  exact ⟨b, hb, (hput.of_frame (hf₁.trans hf₂)).frame hi₆ (hf₅.trans hf₆)⟩

/-- `write_head` puts the header on the disk. -/
theorem write_head_put (h : s.write_head p = some t) (hi : Inv s) :
    Put s t s.log.start (writeHead (s.flat 1 s.log.start) s.log.lh) := by
  simp only [write_head, Option.bind_eq_bind, Option.bind_eq_some_iff] at h
  obtain ⟨⟨i, s₁⟩, h₁, s₂, h₂, s₃, h₃, h₄⟩ := h
  obtain ⟨hi₁, hf₁, -, hh₁, hc₁, hd₁⟩ := bread_spec h₁ hi
  have hput := store_bwrite_put h₂ h₃ hi₁ (unsaved_of_held hh₁)
  rw [hc₁.2, hd₁, hf₁.flat, hf₁.log] at hput
  obtain ⟨hi₄, hf₄⟩ := release_spec h₄ hput.inv
  exact (hput.of_frame hf₁).frame hi₄ hf₄

/-- `read_head` changes nothing on the disk. -/
theorem read_head_spec (h : s.read_head p = some t) (hi : Inv s) :
    Inv t ∧ t.flat = s.flat ∧ t.disk = s.disk ∧ t.unsaved = s.unsaved ∧
      t.log = { s.log with lh := readHead (s.flat 1 s.log.start) } := by
  simp only [read_head, Option.bind_eq_bind, Option.bind_eq_some_iff, Option.pure_def,
    Option.some.injEq] at h
  obtain ⟨⟨i, s₁⟩, h₁, s₂, h₂, rfl⟩ := h
  obtain ⟨hi₁, hf₁, -, hh₁, hc₁, hd₁⟩ := bread_spec h₁ hi
  obtain ⟨hi₂, hf₂⟩ := release_spec h₂ hi₁
  refine ⟨hi₂.set_log _, hf₂.flat.trans hf₁.flat, hf₂.disk.trans hf₁.disk,
    hf₂.unsaved.trans hf₁.unsaved, ?_⟩
  show ({ s₂.log with lh := readHead (s₁.buf i).data } : Log) = _
  rw [hd₁, hf₂.log, hf₁.log, hf₁.flat]

end Xv6.Sys

namespace Xv6

open Lib

/-! ### Groups -/

/-- The home blocks after the writes of a group. -/
def Group.apply (g : Group) (H : ℕ → Block) : ℕ → Block :=
  applyWrites (g.map fun w => (w.block, w.data)) H

/-- The home blocks after a list of groups. -/
def applyGroups (gs : List Group) (H : ℕ → Block) : ℕ → Block :=
  gs.foldl (fun H g => g.apply H) H

theorem applyGroups_snoc (gs : List Group) (g : Group) (H : ℕ → Block) :
    applyGroups (gs ++ [g]) H = g.apply (applyGroups gs H) := by
  simp [applyGroups, List.foldl_append]

theorem Group.apply_snoc (g : Group) (w : Write) (H : ℕ → Block) :
    Group.apply (g ++ [w]) H = Function.update (Group.apply g H) w.block w.data := by
  simp only [Group.apply, List.map_append, List.map_cons, List.map_nil]
  exact applyWrites_snoc _ _ _ _

theorem Group.apply_of_not_mem {g : Group} {b : ℕ} (h : ∀ w ∈ g, w.block ≠ b) (H : ℕ → Block) :
    g.apply H b = H b :=
  applyWrites_of_not_mem (by simpa using h) H

/-- A value after some groups is an initial value or one of their writes. -/
theorem applyGroups_cases (gs : List Group) (H : ℕ → Block) (b : ℕ) :
    applyGroups gs H b = H b ∨
      ∃ g ∈ gs, ∃ w ∈ g, w.block = b ∧ w.data = applyGroups gs H b := by
  induction gs using List.reverseRecOn with
  | nil => exact Or.inl rfl
  | append_singleton gs g ih =>
      rw [applyGroups_snoc]
      rcases applyWrites_cases (g.map fun w => (w.block, w.data)) (applyGroups gs H) b with h | h
      · rw [show g.apply (applyGroups gs H) b = applyGroups gs H b from h]
        rcases ih with ih | ⟨g', hg', w, hw, hb, hd⟩
        · exact Or.inl ih
        · exact Or.inr ⟨g', List.mem_append_left _ hg', w, hw, hb, hd⟩
      · obtain ⟨w, hw, he⟩ := List.mem_map.mp h
        obtain ⟨hb, hd⟩ := Prod.mk.inj he
        exact Or.inr ⟨g, by simp, w, hw, hb, hd⟩

/-- Of each epoch a prefix of its groups survives, with at least the groups whose `commit`
returned. -/
inductive Survives : List Epoch → List Group → Prop where
  | nil : Survives [] []
  | snoc {es : List Epoch} {gs : List Group} {e : Epoch} {k : ℕ} (h : Survives es gs)
      (hr : e.returned ≤ k) (hk : k ≤ e.groups.length) :
      Survives (es ++ [e]) (gs ++ e.groups.take k)

theorem Survives.mem {es : List Epoch} {gs : List Group} (h : Survives es gs) :
    ∀ g ∈ gs, ∃ e ∈ es, g ∈ e.groups := by
  induction h with
  | nil => simp
  | snoc _ _ _ ih =>
      intro g hg
      rcases List.mem_append.mp hg with hg | hg
      · obtain ⟨e, he, hge⟩ := ih g hg
        exact ⟨e, List.mem_append_left _ he, hge⟩
      · exact ⟨_, by simp, List.mem_of_mem_take hg⟩

/-! ### Headers -/

/-- A header the log can have: it fits, and names home blocks. -/
structure LhOk (start size : ℕ) (lh : LogHeader) : Prop where
  fits : lh.n ≤ LOGSIZE
  room : lh.n ≤ size - 1
  home : ∀ b ∈ lh.block, ¬ Machine.inLog start size b ∧ b < 2 ^ 32

theorem LhOk.nil (start size : ℕ) : LhOk start size ⟨[]⟩ :=
  ⟨Nat.zero_le _, Nat.zero_le _, by simp⟩

theorem LhOk.read {start size : ℕ} {lh : LogHeader} (h : LhOk start size lh) (d : Block) :
    readHead (writeHead d lh) = lh :=
  readHead_writeHead d lh h.fits fun b hb => (h.home b hb).2

/-- The log blocks of a header that fits lie in the log. -/
theorem LhOk.slot_inLog {start size j : ℕ} {lh : LogHeader} (h : LhOk start size lh)
    (hj : j < lh.n) : Machine.inLog start size (start + j + 1) := by
  have := h.room
  constructor <;> omega

theorem start_inLog (start size : ℕ) : Machine.inLog start size start :=
  ⟨le_refl _, Nat.le_add_right _ _⟩

/-- The disk `d`, once its log is installed, has the home blocks `H`. -/
structure Recovers (start size : ℕ) (d H : ℕ → Block) : Prop where
  ok : LhOk start size (readHead (d start))
  redo : Redo (fun b => ¬ Machine.inLog start size b) (readHead (d start)).block
    (fun j => d (start + j + 1)) d H

theorem Recovers.of_empty {start size : ℕ} {d H : ℕ → Block} (h : readHead (d start) = ⟨[]⟩)
    (hd : ∀ b, ¬ Machine.inLog start size b → d b = H b) : Recovers start size d H where
  ok := by rw [h]; exact LhOk.nil _ _
  redo := by rw [h]; exact .nil hd

/-- A home block is none of the log's. -/
theorem ne_of_home {start size b c : ℕ} (hb : ¬ Machine.inLog start size b)
    (hc : Machine.inLog start size c) : b ≠ c := fun e => hb (e ▸ hc)

/-- **One pass of `install_trans`** leaves what the disk stands for. -/
theorem Recovers.install {start size j b : ℕ} {d H : ℕ → Block} (h : Recovers start size d H)
    (hb : (readHead (d start)).block[j]? = some b) :
    Recovers start size (Function.update d b (d (start + j + 1))) H ∧
      Function.update d b (d (start + j + 1)) start = d start := by
  have hhome := (h.ok.home b (List.mem_of_getElem? hb)).1
  have hstart : Function.update d b (d (start + j + 1)) start = d start :=
    Function.update_of_ne (ne_of_home hhome (start_inLog _ _)).symm _ _
  refine ⟨⟨by rw [hstart]; exact h.ok, ?_⟩, hstart⟩
  rw [hstart]
  have hr := h.redo.install hb
  refine ⟨fun k c hc => ?_, hr.rest⟩
  have hk : k < (readHead (d start)).n := (List.getElem?_eq_some_iff.mp hc).1
  rw [Function.update_of_ne (ne_of_home hhome (h.ok.slot_inLog hk)).symm]
  exact hr.logged k c hc

end Xv6

namespace Xv6.Machine

open Lib

section

variable (start size : ℕ) (d₀ H₀ : ℕ → Block)

/-- `v` was at block `b` at the first boot, or is what the log of that boot installs there, or
was logged for it by an operation that has reached `end_op`. -/
def Origin (m : Machine) (b : ℕ) (v : Block) : Prop :=
  v = d₀ b ∨ v = H₀ b ∨
    ∃ e ∈ m.epoch :: m.past, ∃ g ∈ e.groups, ∃ w ∈ g, w.op ∈ m.ended ∧ w.block = b ∧ w.data = v

/-- What holds wherever the machine stands. -/
structure Ghost (m : Machine) : Prop where
  hstart : m.sys.log.start = start
  hsize : m.sys.log.size = size
  ended : ∀ e ∈ m.epoch :: m.past, ∀ g ∈ e.groups, ∀ w ∈ g, w.op ∈ m.ended
  origin : ∀ b, ¬ inLog start size b → Origin d₀ H₀ m b (m.sys.disk.block b)

/-- No process is in the middle of modifying block `b`. -/
def Quiet (s : Sys) (b : ℕ) : Prop := ∀ i, (s.buf i).carries 1 b → s.unsaved i = none

/-- What holds while processes run. -/
structure Live (m : Machine) : Prop where
  inv : m.sys.Inv
  logflat : ∀ b, inLog start size b → m.sys.flat 1 b = m.sys.disk.block b
  unsaved : ∀ i p, m.sys.unsaved i = some p → ∃ o, (p, o) ∈ m.ops
  count : m.sys.log.outstanding = m.ops.length
  cur : ∀ w ∈ m.cur, w.op ∈ m.ended ∨ ∃ p, (p, w.op) ∈ m.ops
  lh : LhOk start size m.sys.log.lh

/-- `recover_from_log` has installed the first `tail` blocks. -/
structure Recovering (m : Machine) (tail : ℕ) (H : ℕ → Block) : Prop where
  inv : m.sys.Inv
  flat : ∀ b, m.sys.flat 1 b = m.sys.disk.block b
  unsaved : ∀ i, m.sys.unsaved i = none
  lh : m.sys.log.lh = readHead (m.sys.disk.block start)
  idle : m.sys.log.outstanding = 0 ∧ m.sys.log.committing = false ∧ m.ops = [] ∧ m.cur = []
  recovers : Recovers start size m.sys.disk.block H
  done : ∀ j b, j < tail → m.sys.log.lh.block[j]? = some b → m.sys.disk.block b = H b

/-- No commit is running; `H` is what the committed groups left. -/
structure Running (m : Machine) (H : ℕ → Block) : Prop where
  live : Live start size m
  idle : m.sys.log.committing = false
  head : readHead (m.sys.disk.block start) = ⟨[]⟩
  disk : ∀ b, ¬ inLog start size b → m.sys.disk.block b = H b
  blocks : ∀ b, b ∈ m.sys.log.lh.block ↔ ∃ w ∈ m.cur, w.block = b
  flat : ∀ b, ¬ inLog start size b → Quiet m.sys b → m.sys.flat 1 b = Group.apply m.cur H b

/-- A commit is running; `H` is what its group leaves. -/
structure Committing (m : Machine) (H : ℕ → Block) : Prop where
  live : Live start size m
  busy : m.sys.log.committing = true
  ops : m.ops = []
  cur : m.cur = []
  flat : ∀ b, ¬ inLog start size b → m.sys.flat 1 b = H b

/-- `write_log` has copied the first `tail` blocks; the disk still has `H`. -/
structure Writing (m : Machine) (tail : ℕ) (H H' : ℕ → Block) : Prop
    extends Committing start size m H' where
  head : readHead (m.sys.disk.block start) = ⟨[]⟩
  disk : ∀ b, ¬ inLog start size b → m.sys.disk.block b = H b
  slots : ∀ j b, j < tail → m.sys.log.lh.block[j]? = some b →
    m.sys.disk.block (start + j + 1) = H' b
  rest : ∀ b, b ∉ m.sys.log.lh.block → H' b = H b

/-- The header is on disk; `install_trans` has copied the first `tail` blocks home. -/
structure Installing (m : Machine) (tail : ℕ) (H : ℕ → Block) : Prop
    extends Committing start size m H where
  lh : m.sys.log.lh = readHead (m.sys.disk.block start)
  recovers : Recovers start size m.sys.disk.block H
  done : ∀ j b, j < tail → m.sys.log.lh.block[j]? = some b → m.sys.disk.block b = H b

/-- `commit` is over. -/
structure Returning (m : Machine) (H : ℕ → Block) : Prop extends Committing start size m H where
  head : readHead (m.sys.disk.block start) = ⟨[]⟩
  disk : ∀ b, ¬ inLog start size b → m.sys.disk.block b = H b
  lh : m.sys.log.lh = ⟨[]⟩

/-- What holds at each point of the code, when the past epochs have left the groups `gs`. -/
def At (m : Machine) (gs : List Group) : Pc → Prop
  | .off => ∃ k, m.epoch.returned ≤ k ∧ k ≤ m.epoch.groups.length ∧
      Recovers start size m.sys.disk.block (applyGroups (gs ++ m.epoch.groups.take k) H₀)
  | .recovering tail => ∃ k, m.epoch.returned ≤ k ∧ k ≤ m.epoch.groups.length ∧
      Recovering start size m tail (applyGroups (gs ++ m.epoch.groups.take k) H₀)
  | .running => m.epoch.returned = m.epoch.groups.length ∧
      Running start size m (applyGroups (gs ++ m.epoch.groups) H₀)
  | .writing _ tail => ∃ prev g, m.epoch.groups = prev ++ [g] ∧ m.epoch.returned = prev.length ∧
      Writing start size m tail (applyGroups (gs ++ prev) H₀)
        (applyGroups (gs ++ m.epoch.groups) H₀)
  | .installing _ tail => m.epoch.returned ≤ m.epoch.groups.length ∧
      Installing start size m tail (applyGroups (gs ++ m.epoch.groups) H₀)
  | .returning => m.epoch.returned ≤ m.epoch.groups.length ∧
      Returning start size m (applyGroups (gs ++ m.epoch.groups) H₀)

/-- The invariant. -/
def MInv (m : Machine) : Prop :=
  Ghost start size d₀ H₀ m ∧ ∃ gs, Survives m.past gs ∧ At start size H₀ m gs m.pc

end

variable {start size : ℕ} {d₀ H₀ : ℕ → Block} {m m' : Machine} {s t : Sys}

theorem MInv.intro {gs : List Group} {pc : Pc} (hg : Ghost start size d₀ H₀ m)
    (hs : Survives m.past gs) (hpc : m.pc = pc) (h : At start size H₀ m gs pc) :
    MInv start size d₀ H₀ m :=
  ⟨hg, gs, hs, hpc ▸ h⟩

/-! ### Origins -/

/-- The value a block has after a surviving prefix has a proper origin. -/
theorem origin_apply {gs : List Group} {k : ℕ} (hg : Ghost start size d₀ H₀ m)
    (hs : Survives m.past gs) (b : ℕ) :
    Origin d₀ H₀ m b (applyGroups (gs ++ m.epoch.groups.take k) H₀ b) := by
  rcases applyGroups_cases (gs ++ m.epoch.groups.take k) H₀ b with h | ⟨g, hgm, w, hw, hb, hd⟩
  · exact Or.inr (Or.inl h)
  · have : ∃ e ∈ m.epoch :: m.past, g ∈ e.groups := by
      rcases List.mem_append.mp hgm with hgm | hgm
      · obtain ⟨e, he, hge⟩ := hs.mem g hgm
        exact ⟨e, List.mem_cons_of_mem _ he, hge⟩
      · exact ⟨m.epoch, by simp, List.mem_of_mem_take hgm⟩
    obtain ⟨e, he, hge⟩ := this
    exact Or.inr (Or.inr ⟨e, he, g, hge, w, hw, hg.ended e he g hge w hw, hb, hd⟩)

theorem origin_apply_all {gs : List Group} (hg : Ghost start size d₀ H₀ m)
    (hs : Survives m.past gs) (b : ℕ) :
    Origin d₀ H₀ m b (applyGroups (gs ++ m.epoch.groups) H₀ b) := by
  have := origin_apply (k := m.epoch.groups.length) hg hs b
  rwa [List.take_length] at this

/-- A machine with the same ghosts, after a disk write. -/
theorem Ghost.put {n : ℕ} {v : Block} (hg : Ghost start size d₀ H₀ m)
    (hput : Sys.Put m.sys s n v) (hv : ¬ inLog start size n → Origin d₀ H₀ m n v)
    (pc : Pc) : Ghost start size d₀ H₀ { m with sys := s, pc := pc } where
  hstart := by rw [← hg.hstart, ← hput.log]
  hsize := by rw [← hg.hsize, ← hput.log]
  ended := hg.ended
  origin := fun b hb => by
    show Origin d₀ H₀ m b (s.disk.block b)
    rw [hput.disk]
    show Origin d₀ H₀ m b (Function.update m.sys.disk.block n v b)
    by_cases hbn : b = n
    · subst hbn; rw [Function.update_self]; exact hv hb
    · rw [Function.update_of_ne hbn]; exact hg.origin b hb

/-! ### Steps in the cache -/

/-- A block that is quiet was quiet. -/
theorem quiet_of_frame (hf : Sys.Frame s t) (hk : Sys.Keeps s t) (hi : s.Inv) {b : ℕ}
    (hq : Quiet t b) : Quiet s b := by
  intro i hc
  cases hu : s.unsaved i with
  | none => rfl
  | some p =>
      obtain ⟨x, hx, -⟩ := Option.bind_eq_some_iff.mp hu
      obtain ⟨hd, hn, -⟩ := hk.of_held hi hx
      have := hq i ⟨hd.trans hc.1, hn.trans hc.2⟩
      rw [hf.unsaved, hu] at this
      cases this

/-- What leaves the disk leaves the log alive. -/
theorem Live.frame (h : Live start size m) (hi : t.Inv) (hf : Sys.Frame m.sys t) :
    Live start size { m with sys := t } where
  inv := hi
  logflat := fun b hb => by
    show t.flat 1 b = t.disk.block b
    rw [hf.flat, hf.disk]; exact h.logflat b hb
  unsaved := fun i p hu => h.unsaved i p (by rw [← hf.unsaved]; exact hu)
  count := by show t.log.outstanding = _; rw [hf.log]; exact h.count
  cur := h.cur
  lh := by show LhOk _ _ t.log.lh; rw [hf.log]; exact h.lh

theorem Committing.frame {H : ℕ → Block} (h : Committing start size m H) (hi : t.Inv)
    (hf : Sys.Frame m.sys t) : Committing start size { m with sys := t } H where
  live := h.live.frame hi hf
  busy := by show t.log.committing = _; rw [hf.log]; exact h.busy
  ops := h.ops
  cur := h.cur
  flat := fun b hb => by show t.flat 1 b = _; rw [hf.flat]; exact h.flat b hb

/-- A step that moves no contents keeps what holds at each point where processes run. -/
theorem At.frame {gs : List Group} {pc : Pc} (h : At start size H₀ m gs pc) (hup : pc.up = true)
    (hstep : m.sys.Inv → t.Inv ∧ Sys.Frame m.sys t ∧ Sys.Keeps m.sys t) :
    Sys.Frame m.sys t ∧ At start size H₀ { m with sys := t } gs pc := by
  cases pc with
  | off | recovering _ => cases hup
  | running =>
      obtain ⟨hret, h⟩ := h
      obtain ⟨hi, hf, hk⟩ := hstep h.live.inv
      refine ⟨hf, hret, h.live.frame hi hf, ?_, ?_, ?_, ?_, fun b hb hq => ?_⟩
      · show t.log.committing = _; rw [hf.log]; exact h.idle
      · show readHead (t.disk.block start) = _; rw [hf.disk]; exact h.head
      · show ∀ b, _ → t.disk.block b = _; rw [hf.disk]; exact h.disk
      · show ∀ b, b ∈ t.log.lh.block ↔ _; rw [hf.log]; exact h.blocks
      · show t.flat 1 b = _
        rw [hf.flat]
        exact h.flat b hb (quiet_of_frame hf hk h.live.inv hq)
  | writing p tail =>
      obtain ⟨prev, g, hgr, hret, h⟩ := h
      obtain ⟨hi, hf, hk⟩ := hstep h.live.inv
      refine ⟨hf, prev, g, hgr, hret, h.toCommitting.frame hi hf, ?_, ?_, ?_, ?_⟩
      · show readHead (t.disk.block start) = _; rw [hf.disk]; exact h.head
      · show ∀ b, _ → t.disk.block b = _; rw [hf.disk]; exact h.disk
      · show ∀ j b, _ → t.log.lh.block[j]? = _ → t.disk.block _ = _
        rw [hf.disk, hf.log]; exact h.slots
      · show ∀ b, b ∉ t.log.lh.block → _; rw [hf.log]; exact h.rest
  | installing p tail =>
      obtain ⟨hret, h⟩ := h
      obtain ⟨hi, hf, hk⟩ := hstep h.live.inv
      refine ⟨hf, hret, h.toCommitting.frame hi hf, ?_, ?_, ?_⟩
      · show t.log.lh = readHead (t.disk.block start); rw [hf.disk, hf.log]; exact h.lh
      · show Recovers _ _ t.disk.block _; rw [hf.disk]; exact h.recovers
      · show ∀ j b, _ → t.log.lh.block[j]? = _ → t.disk.block _ = _
        rw [hf.disk, hf.log]; exact h.done
  | returning =>
      obtain ⟨hret, h⟩ := h
      obtain ⟨hi, hf, hk⟩ := hstep h.live.inv
      refine ⟨hf, hret, h.toCommitting.frame hi hf, ?_, ?_, ?_⟩
      · show readHead (t.disk.block start) = _; rw [hf.disk]; exact h.head
      · show ∀ b, _ → t.disk.block b = _; rw [hf.disk]; exact h.disk
      · show t.log.lh = _; rw [hf.log]; exact h.lh

/-- The cache steps of the machine move no contents. -/
theorem cacheAct_spec {a : CacheAct} (h : s.step a.act = some t) (hi : s.Inv) :
    t.Inv ∧ Sys.Frame s t ∧ Sys.Keeps s t := by
  cases a with
  | bget r =>
      obtain ⟨⟨i, u⟩, hu, rfl⟩ := Option.map_eq_some_iff.mp h
      exact Sys.bget_spec hu hi
  | acquiresleep r i =>
      obtain ⟨hinv, hf, hk, -⟩ := Sys.acquiresleep_spec h hi
      exact ⟨hinv, hf, hk.keeps⟩
  | ready i =>
      obtain ⟨hinv, hf, hk, -⟩ := Sys.ready_spec h hi
      exact ⟨hinv, hf, hk.keeps⟩
  | releasesleep p i =>
      obtain ⟨hinv, hf, hk⟩ := Sys.releasesleep_spec h hi
      exact ⟨hinv, hf, hk.keeps⟩
  | brelse p i =>
      obtain ⟨hinv, hf, hk⟩ := Sys.brelse_spec h hi
      exact ⟨hinv, hf, hk.keeps⟩

/-- The buffer cache by itself keeps the invariant. -/
theorem step_cache {a : CacheAct} (h : m.step (.cache a) = some m')
    (hm : MInv start size d₀ H₀ m) : MInv start size d₀ H₀ m' := by
  simp only [step, Option.bind_eq_bind, Option.bind_eq_some_iff, guard_eq_some, Option.pure_def,
    Option.some.injEq] at h
  obtain ⟨-, hup, t, ht, rfl⟩ := h
  obtain ⟨hg, gs, hs, hat⟩ := hm
  obtain ⟨hf, hat'⟩ := hat.frame hup fun hi => cacheAct_spec ht hi
  refine ⟨⟨by rw [← hg.hstart, ← hf.log], by rw [← hg.hsize, ← hf.log], hg.ended, fun b hb => ?_⟩,
    gs, hs, hat'⟩
  show Origin d₀ H₀ m b (t.disk.block b)
  rw [hf.disk]
  exact hg.origin b hb

/-! ### Losing power -/

/-- Wherever the machine stands, recovery finds a prefix of the groups that has every group
whose `commit` returned. -/
theorem At.off {gs : List Group} {pc : Pc} (h : At start size H₀ m gs pc) :
    At start size H₀ m gs .off := by
  cases pc with
  | off => exact h
  | recovering tail =>
      obtain ⟨k, hk, hk', h⟩ := h
      exact ⟨k, hk, hk', h.recovers⟩
  | running =>
      obtain ⟨hret, h⟩ := h
      refine ⟨_, hret.le, le_refl _, ?_⟩
      rw [List.take_length]
      exact .of_empty h.head h.disk
  | writing p tail =>
      obtain ⟨prev, g, hgr, hret, h⟩ := h
      refine ⟨prev.length, hret.le, by rw [hgr]; simp, ?_⟩
      rw [hgr, List.take_left]
      exact .of_empty h.head h.disk
  | installing p tail =>
      obtain ⟨hret, h⟩ := h
      refine ⟨_, hret, le_refl _, ?_⟩
      rw [List.take_length]
      exact h.recovers
  | returning =>
      obtain ⟨hret, h⟩ := h
      refine ⟨_, hret, le_refl _, ?_⟩
      rw [List.take_length]
      exact .of_empty h.head h.disk

theorem step_crash (hm : MInv start size d₀ H₀ m) :
    MInv start size d₀ H₀ { m with pc := .off } := by
  obtain ⟨hg, gs, hs, hat⟩ := hm
  exact ⟨⟨hg.hstart, hg.hsize, hg.ended, hg.origin⟩, gs, hs, hat.off⟩

/-! ### Operations -/

variable {p : Pid} {i : Fin NBUF} {o : ℕ} {gs : List Group}

theorem opOf_mem (h : m.opOf p = some o) : (p, o) ∈ m.ops := by
  obtain ⟨⟨q, o'⟩, hf, rfl⟩ := Option.map_eq_some_iff.mp h
  have hq : q = p := by simpa using List.find?_some hf
  rw [← hq]
  exact List.mem_of_find?_eq_some hf

/-- Ending an operation takes its entry out of the list. -/
theorem ops_perm (h : m.opOf p = some o) : m.ops.Perm ((p, o) :: m.ops.eraseP (·.1 = p)) := by
  obtain ⟨⟨q, o'⟩, hf, rfl⟩ := Option.map_eq_some_iff.mp h
  have hq : q = p := by simpa using List.find?_some hf
  rw [← hq]
  exact perm_of_find? (hq ▸ hf)

/-- An operation is in progress only between commits. -/
theorem At.running_of_op {pc : Pc} (h : At start size H₀ m gs pc) (hup : pc.up = true)
    (ho : m.opOf p = some o) : pc = .running := by
  have hmem := opOf_mem ho
  cases pc with
  | off | recovering _ => cases hup
  | running => rfl
  | writing _ _ =>
      obtain ⟨_, _, -, -, h⟩ := h
      rw [h.ops] at hmem; cases hmem
  | installing _ _ =>
      obtain ⟨-, h⟩ := h
      rw [h.ops] at hmem; cases hmem
  | returning =>
      obtain ⟨-, h⟩ := h
      rw [h.ops] at hmem; cases hmem

/-- A store of an operation changes no block on the disk. -/
theorem Running.store {H : ℕ → Block} {d : Block} (h : Running start size m H)
    (ho : m.opOf p = some o) (hlog : ¬ inLog start size (m.sys.buf i).blockno)
    (ht : m.sys.store p i d = some t) : Running start size { m with sys := t } H := by
  have hh : m.sys.holds p i = true := by
    simp only [Sys.store, Option.bind_eq_bind, Option.bind_eq_some_iff, guard_eq_some] at ht
    exact ht.choose_spec.1
  obtain ⟨x, -, -, -, hd1, -⟩ := Sys.holds_cell h.live.inv hh
  obtain ⟨hi, hdisk, hl, -, hf, hu, -, hk⟩ := Sys.store_spec ht h.live.inv
  have hflat : ∀ b, b ≠ (m.sys.buf i).blockno → t.flat 1 b = m.sys.flat 1 b := fun b hb => by
    rw [hf, Function.update_self, Function.update_of_ne hb]
  have hui : t.unsaved i = some p := by rw [hu, Function.update_self]
  have hlive : Live start size { m with sys := t } := by
    refine ⟨hi, fun b hb => ?_, fun j q hj => ?_, ?_, h.live.cur, ?_⟩
    · show t.flat 1 b = t.disk.block b
      rw [hflat b (ne_of_home hlog hb).symm, hdisk]
      exact h.live.logflat b hb
    · show ∃ o, (q, o) ∈ m.ops
      change t.unsaved j = some q at hj
      by_cases hji : j = i
      · rw [hji, hui] at hj
        obtain rfl := Option.some.inj hj
        exact ⟨o, opOf_mem ho⟩
      · rw [hu, Function.update_of_ne hji] at hj
        exact h.live.unsaved j q hj
    · show t.log.outstanding = _; rw [hl]; exact h.live.count
    · show LhOk _ _ t.log.lh; rw [hl]; exact h.live.lh
  refine ⟨hlive, ?_, ?_, ?_, ?_, fun b hb hq => ?_⟩
  · show t.log.committing = _; rw [hl]; exact h.idle
  · show readHead (t.disk.block start) = _; rw [hdisk]; exact h.head
  · show ∀ b, _ → t.disk.block b = _; rw [hdisk]; exact h.disk
  · show ∀ b, b ∈ t.log.lh.block ↔ _; rw [hl]; exact h.blocks
  · have hne : b ≠ (m.sys.buf i).blockno := by
      rintro rfl
      have := hq i ⟨(hk i).1.trans hd1, (hk i).2.1⟩
      rw [hui] at this
      cases this
    show t.flat 1 b = _
    rw [hflat b hne]
    refine h.flat b hb fun j hc => ?_
    have hji : j ≠ i := by rintro rfl; exact hne hc.2.symm
    have := hq j ⟨(hk j).1.trans hc.1, (hk j).2.1.trans hc.2⟩
    rwa [hu, Function.update_of_ne hji] at this

/-- With `log_write` the block is in the log of the operation. -/
theorem Running.log_write {H : ℕ → Block} (h : Running start size m H)
    (hs : m.sys.log.size = size) (ho : m.opOf p = some o)
    (hlog : ¬ inLog start size (m.sys.buf i).blockno) (hlt : (m.sys.buf i).blockno < 2 ^ 32)
    (ht : m.sys.log_write p i = some t) :
    Running start size { m with
      sys := t, cur := m.cur ++ [⟨o, (m.sys.buf i).blockno, (m.sys.buf i).data⟩] } H := by
  obtain ⟨hi, hdisk, hf, hl, hu, hh, -, hk⟩ := Sys.log_write_spec ht h.live.inv
  obtain ⟨x, -, -, hv, hd1, -⟩ := Sys.holds_cell h.live.inv hh
  obtain ⟨hn, hroom, -, hlw⟩ := Log.log_write_spec hl
  have hdata : (m.sys.buf i).data = m.sys.flat 1 (m.sys.buf i).blockno := by
    rw [(h.live.inv.cell i).flat hv, hd1]
  have hmem : ∀ b, b ∈ t.log.lh.block ↔ b ∈ m.sys.log.lh.block ∨ b = (m.sys.buf i).blockno := by
    intro b
    rw [hlw]
    by_cases hb : (m.sys.buf i).blockno ∈ m.sys.log.lh.block
    · rw [if_pos hb]
      exact ⟨Or.inl, fun h => h.elim id (fun e => e ▸ hb)⟩
    · rw [if_neg hb]; simp
  have hlen : t.log.lh.n ≤ m.sys.log.lh.n + 1 := by
    rw [hlw]
    simp only [LogHeader.n]
    split <;> simp
  have hlive : Live start size { m with
      sys := t, cur := m.cur ++ [⟨o, (m.sys.buf i).blockno, (m.sys.buf i).data⟩] } := by
    refine ⟨hi, fun b hb => ?_, fun j q hj => ?_, ?_, fun w hw => ?_, ?_, ?_, fun b hb => ?_⟩
    · show t.flat 1 b = t.disk.block b
      rw [hf, hdisk]; exact h.live.logflat b hb
    · change t.unsaved j = some q at hj
      by_cases hji : j = i
      · rw [hji, hu, Function.update_self] at hj; cases hj
      · rw [hu, Function.update_of_ne hji] at hj
        exact h.live.unsaved j q hj
    · show t.log.outstanding = _; rw [hlw]; exact h.live.count
    · rcases List.mem_append.mp hw with hw | hw
      · exact h.live.cur w hw
      · rw [List.mem_singleton.mp hw]
        exact Or.inr ⟨p, opOf_mem ho⟩
    · show t.log.lh.n ≤ LOGSIZE; omega
    · show t.log.lh.n ≤ size - 1; rw [hs] at hroom; omega
    · rcases (hmem b).mp hb with hb | rfl
      · exact h.live.lh.home b hb
      · exact ⟨hlog, hlt⟩
  refine ⟨hlive, ?_, ?_, ?_, fun b => ?_, fun b hb hq => ?_⟩
  · show t.log.committing = _; rw [hlw]; exact h.idle
  · show readHead (t.disk.block start) = _; rw [hdisk]; exact h.head
  · show ∀ b, _ → t.disk.block b = _; rw [hdisk]; exact h.disk
  -- The header names exactly the blocks of the current group.
  · show b ∈ t.log.lh.block ↔ ∃ w ∈ m.cur ++ _, w.block = b
    rw [hmem, h.blocks]
    constructor
    · rintro (⟨w, hw, hb⟩ | rfl)
      · exact ⟨w, List.mem_append_left _ hw, hb⟩
      · exact ⟨⟨o, _, (m.sys.buf i).data⟩, List.mem_append_right _ (List.mem_singleton.mpr rfl), rfl⟩
    · rintro ⟨w, hw, rfl⟩
      rcases List.mem_append.mp hw with hw | hw
      · exact Or.inl ⟨w, hw, rfl⟩
      · rw [List.mem_singleton.mp hw]; exact Or.inr rfl
  · show t.flat 1 b = Group.apply (m.cur ++ [_]) H b
    rw [hf, Group.apply_snoc]
    by_cases hbi : b = (m.sys.buf i).blockno
    · rw [hbi, Function.update_self]; exact hdata.symm
    · rw [Function.update_of_ne hbi]
      refine h.flat b hb fun j hc => ?_
      have hji : j ≠ i := by rintro rfl; exact hbi hc.2.symm
      have := hq j ⟨(hk j).1.trans hc.1, (hk j).2.1.trans hc.2⟩
      rwa [hu, Function.update_of_ne hji] at this

theorem loggable_iff (hg : Ghost start size d₀ H₀ m) {b : ℕ} :
    loggable m.sys.log b = true ↔ ¬ inLog start size b ∧ b < 2 ^ 32 := by
  simp only [loggable, hg.hstart, hg.hsize, decide_eq_true_eq]

/-- A store keeps the invariant. -/
theorem step_store {d : Block} (h : m.step (.store p i d) = some m')
    (hm : MInv start size d₀ H₀ m) : MInv start size d₀ H₀ m' := by
  simp only [step, Option.bind_eq_bind, Option.bind_eq_some_iff, guard_eq_some, Option.pure_def,
    Option.some.injEq] at h
  obtain ⟨-, hup, o, ho, -, hlog, t, ht, rfl⟩ := h
  obtain ⟨hg, gs, hs, hat⟩ := hm
  have hpc := hat.running_of_op hup ho
  rw [hpc] at hat
  obtain ⟨hret, hat⟩ := hat
  obtain ⟨-, hdisk, hl, -⟩ := Sys.store_spec ht hat.live.inv
  refine .intro ⟨by rw [← hg.hstart, ← hl], by rw [← hg.hsize, ← hl], hg.ended, fun b hb => ?_⟩ hs
    hpc ⟨hret, hat.store ho ((loggable_iff hg).mp hlog).1 ht⟩
  show Origin d₀ H₀ m b (t.disk.block b)
  rw [hdisk]; exact hg.origin b hb

/-- `log_write` keeps the invariant. -/
theorem step_log_write (h : m.step (.log_write p i) = some m')
    (hm : MInv start size d₀ H₀ m) : MInv start size d₀ H₀ m' := by
  simp only [step, Option.bind_eq_bind, Option.bind_eq_some_iff, guard_eq_some, Option.pure_def,
    Option.some.injEq] at h
  obtain ⟨-, hup, o, ho, -, hlog, t, ht, rfl⟩ := h
  obtain ⟨hg, gs, hs, hat⟩ := hm
  have hpc := hat.running_of_op hup ho
  rw [hpc] at hat
  obtain ⟨hret, hat⟩ := hat
  obtain ⟨-, hdisk, -, hl, -⟩ := Sys.log_write_spec ht hat.live.inv
  obtain ⟨-, -, -, hlw⟩ := Log.log_write_spec hl
  obtain ⟨h₁, h₂⟩ := (loggable_iff hg).mp hlog
  refine .intro ⟨by rw [← hg.hstart, hlw], by rw [← hg.hsize, hlw], hg.ended, fun b hb => ?_⟩ hs
    hpc ⟨hret, hat.log_write hg.hsize ho h₁ h₂ ht⟩
  show Origin d₀ H₀ m b (t.disk.block b)
  rw [hdisk]; exact hg.origin b hb

/-- `begin_op` keeps the invariant. -/
theorem step_begin_op (h : m.step (.begin_op p) = some m')
    (hm : MInv start size d₀ H₀ m) : MInv start size d₀ H₀ m' := by
  simp only [step, Option.bind_eq_bind, Option.bind_eq_some_iff, guard_eq_some, Option.pure_def,
    Option.some.injEq] at h
  obtain ⟨-, ⟨hup, -⟩, l, hl, rfl⟩ := h
  obtain ⟨hc, -, rfl⟩ := Log.begin_op_spec hl
  obtain ⟨hg, gs, hs, hat⟩ := hm
  have hpc : m.pc = .running := by
    cases hpc : m.pc with
    | off | recovering _ => rw [hpc] at hup; cases hup
    | running => rfl
    | writing _ _ =>
        rw [hpc] at hat
        obtain ⟨_, _, -, -, h⟩ := hat
        rw [h.busy] at hc; cases hc
    | installing _ _ | returning =>
        rw [hpc] at hat
        obtain ⟨-, h⟩ := hat
        rw [h.busy] at hc; cases hc
  rw [hpc] at hat
  obtain ⟨hret, h⟩ := hat
  refine .intro ⟨hg.hstart, hg.hsize, hg.ended, hg.origin⟩ hs hpc ⟨hret, ⟨?_, h.idle, h.head, h.disk,
    h.blocks, h.flat⟩⟩
  refine ⟨h.live.inv.set_log _, h.live.logflat, fun i q hq => ?_, ?_, fun w hw => ?_, h.live.lh⟩
  · obtain ⟨o, ho⟩ := h.live.unsaved i q hq
    exact ⟨o, List.mem_cons_of_mem _ ho⟩
  · show m.sys.log.outstanding + 1 = m.ops.length + 1
    rw [h.live.count]
  · rcases h.live.cur w hw with hw | ⟨q, hq⟩
    · exact Or.inl hw
    · exact Or.inr ⟨q, List.mem_cons_of_mem _ hq⟩

/-- More groups and more ended operations leave origins in place. -/
theorem Origin.mono {b : ℕ} {v : Block} (h : Origin d₀ H₀ m b v)
    (he : ∀ e ∈ m.epoch :: m.past, ∀ g ∈ e.groups, ∃ e' ∈ m'.epoch :: m'.past, g ∈ e'.groups)
    (hend : ∀ o ∈ m.ended, o ∈ m'.ended) : Origin d₀ H₀ m' b v := by
  rcases h with h | h | ⟨e, hm, g, hg, w, hw, ho, hb, hv⟩
  · exact Or.inl h
  · exact Or.inr (Or.inl h)
  · obtain ⟨e', hm', hg'⟩ := he e hm g hg
    exact Or.inr (Or.inr ⟨e', hm', g, hg', w, hw, hend _ ho, hb, hv⟩)

/-- The state of the operations after one has ended. -/
theorem Live.end_op (h : Live start size m) (ho : m.opOf p = some o)
    (hns : ∀ i, m.sys.unsaved i ≠ some p) (c : Bool) :
    Live start size { m with
      sys := { m.sys with log := { m.sys.log with
        outstanding := m.sys.log.outstanding - 1, committing := c } }
      ops := m.ops.eraseP (·.1 = p)
      ended := o :: m.ended } := by
  have hperm := ops_perm ho
  refine ⟨h.inv.set_log _, h.logflat, fun i q hq => ?_, ?_, fun w hw => ?_, h.lh⟩
  · obtain ⟨o', ho'⟩ := h.unsaved i q hq
    rcases List.mem_cons.mp (hperm.mem_iff.mp ho') with he | he
    · obtain ⟨rfl, -⟩ := Prod.mk.inj he
      exact absurd hq (hns i)
    · exact ⟨o', he⟩
  · have := hperm.length_eq
    rw [List.length_cons] at this
    show m.sys.log.outstanding - 1 = (m.ops.eraseP _).length
    rw [h.count]; omega
  · rcases h.cur w hw with hw | ⟨q, hq⟩
    · exact Or.inl (List.mem_cons_of_mem _ hw)
    · rcases List.mem_cons.mp (hperm.mem_iff.mp hq) with he | he
      · obtain ⟨-, rfl⟩ := Prod.mk.inj he
        exact Or.inl (List.mem_cons_self)
      · exact Or.inr ⟨q, he⟩

/-- `end_op` keeps the invariant; with the last operation the commit begins. -/
theorem step_end_op (h : m.step (.end_op p) = some m')
    (hm : MInv start size d₀ H₀ m) : MInv start size d₀ H₀ m' := by
  simp only [step, Option.bind_eq_bind, Option.bind_eq_some_iff, guard_eq_some,
    toOption_eq_some] at h
  obtain ⟨-, hup, o, ho, -, hns, ⟨c, l⟩, hl, h⟩ := h
  obtain ⟨hc, hdo, rfl⟩ := Log.end_op_spec hl
  obtain ⟨hg, gs, hs, hat⟩ := hm
  have hpc := hat.running_of_op hup ho
  rw [hpc] at hat
  obtain ⟨hret, hat⟩ := hat
  have hlive := hat.live.end_op ho hns c
  cases c with
  | false =>
      rw [if_neg (by simp)] at h
      obtain rfl := Option.some.inj h
      refine .intro ⟨hg.hstart, hg.hsize, fun e he g hge w hw => List.mem_cons_of_mem _
        (hg.ended e he g hge w hw), fun b hb => (hg.origin b hb).mono (fun e he g hge => ⟨e, he, hge⟩)
        (fun _ => List.mem_cons_of_mem _)⟩ hs hpc ⟨hret, hlive, rfl, hat.head, hat.disk, hat.blocks,
        hat.flat⟩
  | true =>
      rw [if_pos rfl] at h
      obtain rfl := Option.some.inj h
      have hlen := (ops_perm ho).length_eq
      rw [List.length_cons] at hlen
      have hz := hdo.mp rfl
      rw [hat.live.count] at hz
      have hops : m.ops.eraseP (·.1 = p) = [] := List.length_eq_zero_iff.mp (by omega)
      -- the last operation has ended, so no buffer is being modified and every write has ended
      have hquiet : ∀ b, Quiet m.sys b := fun b i _ => by
        cases hu : m.sys.unsaved i with
        | none => rfl
        | some q =>
            obtain ⟨o', ho'⟩ := hlive.unsaved i q hu
            rw [show (m.ops.eraseP (·.1 = p)) = [] from hops] at ho'
            cases ho'
      have hcur : ∀ w ∈ m.cur, w.op ∈ o :: m.ended := fun w hw => by
        rcases hlive.cur w hw with hw | ⟨q, hq⟩
        · exact hw
        · rw [show (m.ops.eraseP (·.1 = p)) = [] from hops] at hq
          cases hq
      -- What the disk is to hold once the group is committed.
      have happ : applyGroups (gs ++ (m.epoch.groups ++ [m.cur])) H₀ =
          Group.apply m.cur (applyGroups (gs ++ m.epoch.groups) H₀) := by
        rw [← List.append_assoc, applyGroups_snoc]
      have hrest : ∀ b, b ∉ m.sys.log.lh.block →
          Group.apply m.cur (applyGroups (gs ++ m.epoch.groups) H₀) b =
            applyGroups (gs ++ m.epoch.groups) H₀ b := fun b hb =>
        Group.apply_of_not_mem (fun w hw e => hb ((hat.blocks b).mpr ⟨w, hw, e⟩)) _
      refine ⟨⟨hg.hstart, hg.hsize, fun e he g hge w hw => ?_, fun b hb => ?_⟩, gs, hs, ?_⟩
      · rcases List.mem_cons.mp he with rfl | he
        · rcases List.mem_append.mp hge with hge | hge
          · exact List.mem_cons_of_mem _ (hg.ended m.epoch (by simp) g hge w hw)
          · rw [List.mem_singleton.mp hge] at hw
            exact hcur w hw
        · exact List.mem_cons_of_mem _ (hg.ended e (List.mem_cons_of_mem _ he) g hge w hw)
      · refine (hg.origin b hb).mono (fun e he g hge => ?_) (fun _ => List.mem_cons_of_mem _)
        rcases List.mem_cons.mp he with rfl | he
        · exact ⟨_, List.mem_cons_self, List.mem_append_left _ hge⟩
        · exact ⟨e, List.mem_cons_of_mem _ he, hge⟩
      · have hcom : ∀ pc : Pc, Committing start size { m with
            sys := { m.sys with log := { m.sys.log with
              outstanding := m.sys.log.outstanding - 1, committing := true } }
            ops := m.ops.eraseP (·.1 = p)
            ended := o :: m.ended
            pc := pc
            cur := []
            epoch := { m.epoch with groups := m.epoch.groups ++ [m.cur] } }
            (applyGroups (gs ++ (m.epoch.groups ++ [m.cur])) H₀) := fun pc =>
          ⟨⟨hlive.inv, hlive.logflat, hlive.unsaved, hlive.count, by simp, hlive.lh⟩, rfl, hops,
            rfl, fun b hb => by rw [happ]; exact hat.flat b hb (hquiet b)⟩
        -- With an empty log there is nothing to write.
        by_cases hn : m.sys.log.lh.n > 0
        · simp only [if_pos hn]
          refine ⟨m.epoch.groups, m.cur, rfl, hret, hcom _, hat.head, hat.disk, ?_, ?_⟩
          · intro j b hj; omega
          · intro b hb
            rw [happ]; exact hrest b hb
        · simp only [if_neg hn]
          have hnil : m.sys.log.lh.block = [] := List.length_eq_zero_iff.mp (by
            simp only [LogHeader.n] at hn; omega)
          refine ⟨?_, hcom _, hat.head, fun b hb => ?_, ?_⟩
          · show m.epoch.returned ≤ (m.epoch.groups ++ [m.cur]).length
            rw [hret]; simp
          · rw [happ, hrest b (by rw [hnil]; simp)]
            exact hat.disk b hb
          · exact congrArg LogHeader.mk hnil

/-- The end of a commit keeps the invariant. -/
theorem step_end_commit (h : m.step .end_commit = some m')
    (hm : MInv start size d₀ H₀ m) : MInv start size d₀ H₀ m' := by
  simp only [step, Option.bind_eq_bind, Option.bind_eq_some_iff, guard_eq_some, Option.pure_def,
    Option.some.injEq] at h
  obtain ⟨-, hpc, rfl⟩ := h
  obtain ⟨hg, gs, hs, hat⟩ := hm
  rw [hpc] at hat
  obtain ⟨-, h⟩ := hat
  refine ⟨⟨hg.hstart, hg.hsize, fun e he => ?_, fun b hb => (hg.origin b hb).mono
    (fun e he g hge => ?_) (fun _ => id)⟩, gs, hs, rfl, ?_⟩
  · rcases List.mem_cons.mp he with rfl | he
    · exact hg.ended m.epoch (by simp)
    · exact hg.ended e (List.mem_cons_of_mem _ he)
  · rcases List.mem_cons.mp he with rfl | he
    · exact ⟨_, List.mem_cons_self, hge⟩
    · exact ⟨e, List.mem_cons_of_mem _ he, hge⟩
  · have hcur := h.cur
    refine ⟨⟨h.live.inv.set_log _, h.live.logflat, h.live.unsaved, h.live.count, h.live.cur,
      h.live.lh⟩, rfl, h.head, h.disk, fun b => ?_, fun b hb _ => ?_⟩
    · show b ∈ m.sys.log.lh.block ↔ ∃ w ∈ m.cur, w.block = b
      rw [h.lh, hcur]; simp
    · show m.sys.flat 1 b = Group.apply m.cur _ b
      rw [hcur]
      exact h.flat b hb

/-! ### The disk writes of `commit` and `recover_from_log` -/

variable {n tail : ℕ} {v : Block} {H H' : ℕ → Block}

/-- One block on the disk changes while the log is alive. -/
theorem Live.put (h : Live start size m) (hput : Sys.Put m.sys s n v) (pc : Pc) :
    Live start size { m with sys := s, pc := pc } where
  inv := hput.inv
  logflat := fun b hb => by
    show s.flat 1 b = s.disk.block b
    rw [hput.flat, hput.disk, Function.update_self]
    show _ = Function.update m.sys.disk.block n v b
    by_cases hbn : b = n
    · rw [hbn, Function.update_self, Function.update_self]
    · rw [Function.update_of_ne hbn, Function.update_of_ne hbn]
      exact h.logflat b hb
  unsaved := fun i p hu => h.unsaved i p (by rw [← hput.unsaved]; exact hu)
  count := by show s.log.outstanding = _; rw [hput.log]; exact h.count
  cur := h.cur
  lh := by show LhOk _ _ s.log.lh; rw [hput.log]; exact h.lh

/-- A write to the log, or of the committed value, during a commit. -/
theorem Committing.put (h : Committing start size m H) (hput : Sys.Put m.sys s n v)
    (hv : ¬ inLog start size n → v = H n) (pc : Pc) :
    Committing start size { m with sys := s, pc := pc } H where
  live := h.live.put hput pc
  busy := by show s.log.committing = _; rw [hput.log]; exact h.busy
  ops := h.ops
  cur := h.cur
  flat := fun b hb => by
    show s.flat 1 b = _
    rw [hput.flat, Function.update_self]
    by_cases hbn : b = n
    · subst hbn; rw [Function.update_self]; exact hv hb
    · rw [Function.update_of_ne hbn]; exact h.flat b hb

theorem Put.block (h : Sys.Put s t n v) : t.disk.block = Function.update s.disk.block n v := by
  rw [h.disk]

/-- One pass of `write_log`. -/
theorem Writing.write_log (h : Writing start size m tail H H') (hst : m.sys.log.start = start)
    (htail : tail < m.sys.log.lh.n) (hw : m.sys.write_log p tail = some s) (pc : Pc) :
    ∃ n v, Sys.Put m.sys s n v ∧ inLog start size n ∧
      Writing start size { m with sys := s, pc := pc } (tail + 1) H H' := by
  obtain ⟨b, hb, hput⟩ := Sys.write_log_put hw h.live.inv
  rw [hst] at hput
  have hslot := h.live.lh.slot_inLog htail
  have hhome := (h.live.lh.home b (List.mem_of_getElem? hb)).1
  have hblk := Put.block hput
  refine ⟨_, _, hput, hslot, h.toCommitting.put hput (fun hn => absurd hslot hn) pc, ?_,
    fun c hc => ?_, fun j c hj hc => ?_, ?_⟩
  · show readHead (s.disk.block start) = _
    rw [hblk, Function.update_of_ne (by omega)]
    exact h.head
  · show s.disk.block c = _
    rw [hblk, Function.update_of_ne (ne_of_home hc hslot)]
    exact h.disk c hc
  · change s.log.lh.block[j]? = some c at hc
    show s.disk.block (start + j + 1) = _
    rw [hput.log] at hc
    rw [hblk]
    by_cases hjt : j = tail
    · subst hjt
      rw [hb] at hc
      obtain rfl := Option.some.inj hc
      rw [Function.update_self]
      exact h.flat b hhome
    · rw [Function.update_of_ne (by omega)]
      exact h.slots j c (by omega) hc
  · show ∀ c, c ∉ s.log.lh.block → _
    rw [hput.log]; exact h.rest

/-- The write that commits: the header goes to disk. -/
theorem Writing.write_head (h : Writing start size m tail H H') (hst : m.sys.log.start = start)
    (htail : ¬ tail < m.sys.log.lh.n) (hw : m.sys.write_head p = some s) (pc : Pc) :
    ∃ n v, Sys.Put m.sys s n v ∧ inLog start size n ∧
      Installing start size { m with sys := s, pc := pc } 0 H' := by
  have hput := Sys.write_head_put hw h.live.inv
  rw [hst] at hput
  have hblk := Put.block hput
  have hhead : readHead (s.disk.block start) = m.sys.log.lh := by
    rw [hblk, Function.update_self]; exact h.live.lh.read _
  refine ⟨_, _, hput, start_inLog _ _, h.toCommitting.put hput
    (fun hn => absurd (start_inLog _ _) hn) pc, ?_, ⟨?_, ?_⟩, fun j _ hj => absurd hj (by omega)⟩
  · show s.log.lh = readHead (s.disk.block start)
    rw [hhead, hput.log]
  · show LhOk _ _ (readHead (s.disk.block start))
    rw [hhead]; exact h.live.lh
  · show Redo _ (readHead (s.disk.block start)).block (fun j => s.disk.block (start + j + 1))
      s.disk.block _
    rw [hhead]
    refine ⟨fun j c hc => ?_, fun c hc hn => ?_⟩
    · have hj : j < m.sys.log.lh.n := (List.getElem?_eq_some_iff.mp hc).1
      rw [hblk, Function.update_of_ne (by omega)]
      exact h.slots j c (by omega) hc
    · rw [hblk, Function.update_of_ne (ne_of_home hc (start_inLog _ _)), h.disk c hc, h.rest c hn]

/-- One pass of `install_trans`, in `commit`. -/
theorem Installing.install (h : Installing start size m tail H) (hst : m.sys.log.start = start)
    (hw : m.sys.install_trans p tail = some s) (pc : Pc) :
    ∃ n v, Sys.Put m.sys s n v ∧ v = H n ∧
      Installing start size { m with sys := s, pc := pc } (tail + 1) H := by
  obtain ⟨b, hb, hput⟩ := Sys.install_trans_put hw h.live.inv
  have hlt : tail < m.sys.log.lh.n := (List.getElem?_eq_some_iff.mp hb).1
  rw [hst, h.live.logflat _ (h.live.lh.slot_inLog hlt)] at hput
  have hblk := Put.block hput
  have hb' : (readHead (m.sys.disk.block start)).block[tail]? = some b := by rw [← h.lh]; exact hb
  have hval : m.sys.disk.block (start + tail + 1) = H b := h.recovers.redo.logged tail b hb'
  obtain ⟨hrec, hstart⟩ := h.recovers.install hb'
  rw [← hblk] at hrec hstart
  refine ⟨_, _, hput, hval, h.toCommitting.put hput (fun _ => hval) pc, ?_, hrec,
    fun j c hj hc => ?_⟩
  · show s.log.lh = readHead (s.disk.block start)
    rw [hstart, hput.log]; exact h.lh
  · change s.log.lh.block[j]? = some c at hc
    show s.disk.block c = _
    rw [hput.log] at hc
    rw [hblk]
    by_cases hcb : c = b
    · rw [hcb, Function.update_self]; exact hval
    · have hjt : j ≠ tail := by
        rintro rfl
        rw [hb] at hc
        exact hcb (Option.some.inj hc).symm
      rw [Function.update_of_ne hcb]
      exact h.done j c (by omega) hc

/-- The write that erases the transaction. -/
theorem Installing.erase (h : Installing start size m tail H) (hst : m.sys.log.start = start)
    (htail : ¬ tail < m.sys.log.lh.n) (hw : eraseHead m.sys p = some s) (pc : Pc) :
    ∃ n v, Sys.Put { m.sys with log := m.sys.log.clear } s n v ∧ inLog start size n ∧
      Returning start size { m with sys := s, pc := pc } H := by
  have hput := Sys.write_head_put hw (h.live.inv.set_log _)
  rw [show ({ m.sys with log := m.sys.log.clear } : Sys).log.start = start from hst] at hput
  have hblk : s.disk.block = Function.update m.sys.disk.block start
      (writeHead (m.sys.flat 1 start) ⟨[]⟩) := by
    rw [hput.disk]; rfl
  have hcom : Committing start size { m with sys := { m.sys with log := m.sys.log.clear } } H :=
    ⟨⟨h.live.inv.set_log _, h.live.logflat, h.live.unsaved, h.live.count, h.live.cur, LhOk.nil _ _⟩,
      h.busy, h.ops, h.cur, h.flat⟩
  refine ⟨_, _, hput, start_inLog _ _, hcom.put hput (fun hn => absurd (start_inLog _ _) hn) pc, ?_,
    fun b hb => ?_, ?_⟩
  · show readHead (s.disk.block start) = _
    rw [hblk, Function.update_self]
    exact (LhOk.nil start size).read _
  · show s.disk.block b = _
    rw [hblk, Function.update_of_ne (ne_of_home hb (start_inLog _ _))]
    refine h.recovers.redo.done (fun j c hc => ?_) hb
    rw [← h.lh] at hc
    have hj : j < m.sys.log.lh.n := (List.getElem?_eq_some_iff.mp hc).1
    exact h.done j c (by omega) hc
  · show s.log.lh = _
    rw [hput.log]; rfl

/-- Every disk write of a commit keeps the invariant. -/
theorem step_commit (h : m.step .commit = some m') (hm : MInv start size d₀ H₀ m) :
    MInv start size d₀ H₀ m' := by
  obtain ⟨hg, gs, hs, hat⟩ := hm
  simp only [step] at h
  split at h
  · rename_i p tail hpc
    rw [hpc] at hat
    obtain ⟨prev, g, hgr, hret, hat⟩ := hat
    split at h
    · rename_i htail
      obtain ⟨s, hw, h⟩ := Option.bind_eq_some_iff.mp h
      obtain rfl := Option.some.inj h
      obtain ⟨n, v, hput, hn, hat'⟩ := hat.write_log hg.hstart htail hw (.writing p (tail + 1))
      exact ⟨hg.put hput (fun h => absurd hn h) _, gs, hs, prev, g, hgr, hret, hat'⟩
    · rename_i htail
      obtain ⟨s, hw, h⟩ := Option.bind_eq_some_iff.mp h
      obtain rfl := Option.some.inj h
      obtain ⟨n, v, hput, hn, hat'⟩ := hat.write_head hg.hstart htail hw (.installing p 0)
      refine ⟨hg.put hput (fun h => absurd hn h) _, gs, hs, ?_, hat'⟩
      show m.epoch.returned ≤ m.epoch.groups.length
      rw [hret, hgr]; simp
  · rename_i p tail hpc
    rw [hpc] at hat
    obtain ⟨hret, hat⟩ := hat
    split at h
    · obtain ⟨s, hw, h⟩ := Option.bind_eq_some_iff.mp h
      obtain rfl := Option.some.inj h
      obtain ⟨n, v, hput, hv, hat'⟩ := hat.install hg.hstart hw (.installing p (tail + 1))
      exact ⟨hg.put hput (fun _ => hv ▸ origin_apply_all hg hs n) _, gs, hs, hret, hat'⟩
    · rename_i htail
      obtain ⟨s, hw, h⟩ := Option.bind_eq_some_iff.mp h
      obtain rfl := Option.some.inj h
      obtain ⟨n, v, hput, hn, hat'⟩ := hat.erase hg.hstart htail hw .returning
      have hg' : Ghost start size d₀ H₀ { m with sys := { m.sys with log := m.sys.log.clear } } :=
        ⟨hg.hstart, hg.hsize, hg.ended, hg.origin⟩
      exact ⟨hg'.put hput (fun h => absurd hn h) _, gs, hs, hret, hat'⟩
  · cases h

/-- One pass of `install_trans`, in `recover_from_log`. -/
theorem Recovering.install (h : Recovering start size m tail H) (hst : m.sys.log.start = start)
    (hw : m.sys.install_trans p tail = some s) (pc : Pc) :
    ∃ n v, Sys.Put m.sys s n v ∧ v = H n ∧
      Recovering start size { m with sys := s, pc := pc } (tail + 1) H := by
  obtain ⟨b, hb, hput⟩ := Sys.install_trans_put hw h.inv
  rw [hst, h.flat] at hput
  have hblk := Put.block hput
  have hb' : (readHead (m.sys.disk.block start)).block[tail]? = some b := by rw [← h.lh]; exact hb
  have hval : m.sys.disk.block (start + tail + 1) = H b := h.recovers.redo.logged tail b hb'
  obtain ⟨hrec, hstart⟩ := h.recovers.install hb'
  rw [← hblk] at hrec hstart
  refine ⟨_, _, hput, hval, hput.inv, fun c => ?_, ?_, ?_, ?_, hrec, fun j c hj hc => ?_⟩
  · show s.flat 1 c = s.disk.block c
    rw [hput.flat, hblk, Function.update_self]
    by_cases hcb : c = b
    · rw [hcb, Function.update_self, Function.update_self]
    · rw [Function.update_of_ne hcb, Function.update_of_ne hcb, h.flat]
  · show ∀ i, s.unsaved i = none
    rw [hput.unsaved]; exact h.unsaved
  · show s.log.lh = readHead (s.disk.block start)
    rw [hstart, hput.log]; exact h.lh
  · show s.log.outstanding = 0 ∧ s.log.committing = false ∧ _
    rw [hput.log]; exact h.idle
  · change s.log.lh.block[j]? = some c at hc
    show s.disk.block c = _
    rw [hput.log] at hc
    rw [hblk]
    by_cases hcb : c = b
    · rw [hcb, Function.update_self]; exact hval
    · have hjt : j ≠ tail := by
        rintro rfl
        rw [hb] at hc
        exact hcb (Option.some.inj hc).symm
      rw [Function.update_of_ne hcb]
      exact h.done j c (by omega) hc

/-- Recovery ends: the header is erased, and the home blocks are those it stood for. -/
theorem Recovering.erase (h : Recovering start size m tail H) (hst : m.sys.log.start = start)
    (htail : ¬ tail < m.sys.log.lh.n) (hw : eraseHead m.sys p = some s) (pc : Pc)
    (e : Epoch) (es : List Epoch) :
    ∃ n v, Sys.Put { m.sys with log := m.sys.log.clear } s n v ∧ inLog start size n ∧
      Running start size { m with sys := s, pc := pc, past := es, epoch := e } H := by
  have hput := Sys.write_head_put hw (h.inv.set_log _)
  rw [show ({ m.sys with log := m.sys.log.clear } : Sys).log.start = start from hst] at hput
  have hblk : s.disk.block = Function.update m.sys.disk.block start
      (writeHead (m.sys.flat 1 start) ⟨[]⟩) := by
    rw [hput.disk]; rfl
  have hdisk : ∀ b, ¬ inLog start size b → s.disk.block b = H b := by
    intro b hb
    rw [hblk, Function.update_of_ne (ne_of_home hb (start_inLog _ _))]
    refine h.recovers.redo.done (fun j c hc => ?_) hb
    rw [← h.lh] at hc
    have hj : j < m.sys.log.lh.n := (List.getElem?_eq_some_iff.mp hc).1
    exact h.done j c (by omega) hc
  have hflat : ∀ b, s.flat 1 b = s.disk.block b := by
    intro b
    rw [hput.flat, hblk, Function.update_self]
    by_cases hb : b = start
    · rw [hb, Function.update_self, Function.update_self]; rfl
    · rw [Function.update_of_ne hb, Function.update_of_ne hb]
      exact h.flat b
  have hlog : s.log = m.sys.log.clear := hput.log
  obtain ⟨hout, hcom, hops, hcur⟩ := h.idle
  -- Each part of `Running`, with an empty log and no operations.
  refine ⟨_, _, hput, start_inLog _ _, ⟨hput.inv, fun b _ => hflat b, fun i p hu => ?_, ?_, ?_, ?_⟩,
    ?_, ?_, hdisk, fun b => ?_, fun b hb _ => ?_⟩
  · have : s.unsaved i = none := by rw [hput.unsaved]; exact h.unsaved i
    rw [show s.unsaved i = some p from hu] at this
    cases this
  · show s.log.outstanding = m.ops.length
    rw [hlog, hops]; exact hout
  · show ∀ w ∈ m.cur, _
    rw [hcur]; simp
  · show LhOk _ _ s.log.lh
    rw [hlog]; exact LhOk.nil _ _
  · show s.log.committing = false
    rw [hlog]; exact hcom
  · show readHead (s.disk.block start) = _
    rw [hblk, Function.update_self]
    exact (LhOk.nil start size).read _
  · show b ∈ s.log.lh.block ↔ ∃ w ∈ m.cur, w.block = b
    rw [hlog, hcur]; simp [Log.clear]
  · show s.flat 1 b = Group.apply m.cur H b
    rw [hflat, hcur]; exact hdisk b hb

/-- Every disk write of the recovery keeps the invariant. -/
theorem step_recover (h : m.step .recover = some m') (hm : MInv start size d₀ H₀ m) :
    MInv start size d₀ H₀ m' := by
  obtain ⟨hg, gs, hs, hat⟩ := hm
  simp only [step] at h
  split at h
  · rename_i tail hpc
    rw [hpc] at hat
    obtain ⟨k, hk, hk', hat⟩ := hat
    split at h
    · obtain ⟨s, hw, h⟩ := Option.bind_eq_some_iff.mp h
      obtain rfl := Option.some.inj h
      obtain ⟨n, v, hput, hv, hat'⟩ := hat.install hg.hstart hw (.recovering (tail + 1))
      exact ⟨hg.put hput (fun _ => hv ▸ origin_apply hg hs n) _, gs, hs, k, hk, hk', hat'⟩
    · rename_i htail
      obtain ⟨s, hw, h⟩ := Option.bind_eq_some_iff.mp h
      obtain rfl := Option.some.inj h
      obtain ⟨n, v, hput, hn, hat'⟩ :=
        hat.erase hg.hstart htail hw .running ⟨[], 0⟩ (m.past ++ [m.epoch])
      have hg' : Ghost start size d₀ H₀ { m with sys := { m.sys with log := m.sys.log.clear } } :=
        ⟨hg.hstart, hg.hsize, hg.ended, hg.origin⟩
      have hg' := hg'.put hput (fun h => absurd hn h) .running
      -- the epoch moves to the past, and an empty one starts
      have hmem : ∀ e ∈ (⟨[], 0⟩ : Epoch) :: (m.past ++ [m.epoch]), ∀ g ∈ e.groups,
          e ∈ m.epoch :: m.past := by
        intro e he g hge
        rcases List.mem_cons.mp he with rfl | he
        · cases hge
        · rcases List.mem_append.mp he with he | he
          · exact List.mem_cons_of_mem _ he
          · exact List.mem_cons.mpr (Or.inl (List.mem_singleton.mp he))
      refine ⟨⟨hg'.hstart, hg'.hsize, fun e he g hge => ?_, fun b hb => ?_⟩,
        _, hs.snoc hk hk', rfl, ?_⟩
      · exact hg.ended e (hmem e he g hge) g hge
      · refine (hg'.origin b hb).mono (fun e he g hge => ⟨e, ?_, hge⟩) (fun _ => id)
        refine List.mem_cons_of_mem _ (List.mem_append.mpr ?_)
        rcases List.mem_cons.mp he with rfl | he
        · exact Or.inr (by simp)
        · exact Or.inl he
      · simpa using hat'
  · cases h

/-- Power on keeps the invariant. -/
theorem step_boot (h : m.step .boot = some m') (hm : MInv start size d₀ H₀ m) :
    MInv start size d₀ H₀ m' := by
  simp only [step, Option.bind_eq_bind, Option.bind_eq_some_iff, guard_eq_some, Option.pure_def,
    Option.some.injEq] at h
  obtain ⟨-, hpc, s, hs, rfl⟩ := h
  obtain ⟨hg, gs, hsurv, hat⟩ := hm
  rw [hpc] at hat
  obtain ⟨k, hk, hk', hrec⟩ := hat
  obtain ⟨hinv, hflat, hdisk, huns, hlog⟩ := Sys.read_head_spec hs (Sys.init_inv _ _)
  have hd : s.disk.block = m.sys.disk.block := by rw [hdisk]; rfl
  have hlh : s.log.lh = readHead (m.sys.disk.block start) := by rw [hlog, ← hg.hstart]; rfl
  refine ⟨⟨?_, ?_, hg.ended, ?_⟩, gs, hsurv, k, hk, hk', hinv, fun b => ?_, ?_, ?_, ?_, ?_,
    fun j _ hj => absurd hj (Nat.not_lt_zero j)⟩
  · show s.log.start = start
    rw [hlog]; exact hg.hstart
  · show s.log.size = size
    rw [hlog]; exact hg.hsize
  · show ∀ b, _ → Origin d₀ H₀ m b (s.disk.block b)
    rw [hd]; exact hg.origin
  · show s.flat 1 b = s.disk.block b
    rw [hflat, hdisk]; rfl
  · show ∀ i, s.unsaved i = none
    rw [huns]; intro i; rfl
  · show s.log.lh = readHead (s.disk.block start)
    rw [hd]; exact hlh
  · show s.log.outstanding = 0 ∧ s.log.committing = false ∧ _
    rw [hlog]; exact ⟨rfl, rfl, rfl, rfl⟩
  · show Recovers start size s.disk.block _
    rw [hd]; exact hrec

/-! ### Whole runs -/

/-- **Every step keeps the invariant.** -/
theorem step_minv {a : Act} (h : m.step a = some m') (hm : MInv start size d₀ H₀ m) :
    MInv start size d₀ H₀ m' := by
  cases a with
  | boot => exact step_boot h hm
  | recover => exact step_recover h hm
  | cache a => exact step_cache h hm
  | store p i d => exact step_store h hm
  | log_write p i => exact step_log_write h hm
  | begin_op p => exact step_begin_op h hm
  | end_op p => exact step_end_op h hm
  | commit => exact step_commit h hm
  | end_commit => exact step_end_commit h hm
  | crash =>
      obtain rfl := Option.some.inj h
      exact step_crash hm

/-- The machine before its first boot. -/
def init (disk : Disk) (log : Log) : Machine where
  sys := Sys.init disk log
  pc := .off
  ops := []
  nextOp := 0
  ended := []
  cur := []
  epoch := ⟨[], 0⟩
  past := []

/-- A step that can be taken. -/
def Steps (m : Machine) (a : Act) (m' : Machine) : Prop := m.step a = some m'

/-- The header block of `d` is mkfs's zero block, or was written by `write_head`. -/
def BootHead (start size : ℕ) (d : ℕ → Block) : Prop :=
  d start = (fun _ => 0) ∨
    ∃ lh old, LhOk start size lh ∧ lh.block.Nodup ∧ d start = writeHead old lh

/-- The home blocks a disk stands for: those its header names are in the log. -/
def home (start : ℕ) (d : ℕ → Block) (b : ℕ) : Block :=
  match (readHead (d start)).block.idxOf? b with
  | some j => d (start + j + 1)
  | none => d b

/-- The zero block is the empty header. -/
theorem readHead_zero : readHead (fun _ => 0) = ⟨[]⟩ := by decide

/-- With an empty log, recovery leaves the blocks as they are. -/
theorem BootHead.recovers {d : ℕ → Block} (h : BootHead start size d) :
    Recovers start size d (home start d) := by
  have hok : LhOk start size (readHead (d start)) ∧ (readHead (d start)).block.Nodup := by
    rcases h with h | ⟨lh, old, hok, hnd, h⟩
    · rw [h, readHead_zero]; exact ⟨LhOk.nil _ _, List.nodup_nil⟩
    · rw [h, hok.read]; exact ⟨hok, hnd⟩
  obtain ⟨hok, hnd⟩ := hok
  refine ⟨hok, fun j b hb => ?_, fun b _ hb => ?_⟩
  · have hj : (readHead (d start)).block.idxOf? b = some j := by
      obtain ⟨hlt, rfl⟩ := List.getElem?_eq_some_iff.mp hb
      rw [List.idxOf?_eq_some_iff]
      exact ⟨hlt, rfl, fun k hk he => absurd ((hnd.getElem_inj_iff).mp he) (by omega)⟩
    simp only [home, hj]
  · have hn : (readHead (d start)).block.idxOf? b = none := List.idxOf?_eq_none_iff.mpr hb
    simp only [home, hn]

theorem init_minv (disk : Disk) (log : Log) (h : BootHead log.start log.size disk.block) :
    MInv log.start log.size disk.block (home log.start disk.block) (init disk log) := by
  refine ⟨⟨rfl, rfl, fun e he g hge => ?_, fun b _ => Or.inl rfl⟩, [], .nil, 0, le_refl _,
    Nat.zero_le _, h.recovers⟩
  obtain rfl : e = ⟨[], 0⟩ := by simpa [init] using he
  cases hge

theorem run_minv {disk : Disk} {log : Log} {as : List Act}
    (hb : BootHead log.start log.size disk.block) (h : Run Steps (init disk log) as m) :
    MInv log.start log.size disk.block (home log.start disk.block) m :=
  h.inv (fun _ _ _ hst hm => step_minv hst hm) (init_minv disk log hb)

/-- **Crash atomicity.**  Whatever the processes do, and wherever the machine loses power in
`commit` and in `recover_from_log`, when a recovery completes the home blocks are those the
first boot stood for after the groups that survive: of each epoch a prefix, with every group
whose `commit` had returned.  At every moment each home block holds what it held at the first
boot, what the log of that boot installs there, or what an operation that has reached `end_op`
logged for it. -/
theorem crash_atomic {disk : Disk} {log : Log} {as : List Act}
    (hb : BootHead log.start log.size disk.block) (h : Run Steps (init disk log) as m) :
    (∀ m', m.step .recover = some m' → m'.pc = .running →
      ∃ gs, Survives m'.past gs ∧ ∀ b, ¬ inLog log.start log.size b →
        m'.sys.disk.block b = applyGroups gs (home log.start disk.block) b) ∧
    ∀ b, ¬ inLog log.start log.size b →
      Origin disk.block (home log.start disk.block) m b (m.sys.disk.block b) := by
  have hm := run_minv hb h
  refine ⟨fun m' hst hpc => ?_, hm.1.origin⟩
  have hep : m'.epoch.groups = [] := by
    simp only [step] at hst
    split at hst
    · split at hst
      · obtain ⟨s, -, hst⟩ := Option.bind_eq_some_iff.mp hst
        obtain rfl := Option.some.inj hst
        cases hpc
      · obtain ⟨s, -, hst⟩ := Option.bind_eq_some_iff.mp hst
        obtain rfl := Option.some.inj hst
        rfl
    · cases hst
  obtain ⟨-, gs, hs, hat⟩ := step_minv hst hm
  rw [hpc] at hat
  obtain ⟨-, hrun⟩ := hat
  refine ⟨gs, hs, fun b hb => ?_⟩
  have := hrun.disk b hb
  rwa [hep, List.append_nil] at this

/-- One operation logs block 40, its commit gets as far as the header write, and the power is
lost; the next boot installs the block. -/
def crashedCommit : List Act :=
  [.boot, .recover, .begin_op 7, .cache (.bget ⟨7, 1, 40⟩), .cache (.acquiresleep ⟨7, 1, 40⟩ 1),
    .cache (.ready 1), .store 7 1 (fun _ => 5), .log_write 7 1, .cache (.releasesleep 7 1),
    .cache (.brelse 7 1), .end_op 7, .commit, .commit, .crash, .boot, .recover]

/-- The run ends with the completion of that recovery. -/
theorem crash_atomic_crashedCommit :
    ∃ m m', Run Steps (init ⟨64, fun _ _ => 0⟩ ⟨2, 30, 0, false, ⟨[]⟩⟩) crashedCommit m ∧
      m.step .recover = some m' ∧ m'.pc = .running ∧
      ∃ gs, Survives m'.past gs ∧ ∀ b, ¬ inLog 2 30 b →
        m'.sys.disk.block b = applyGroups gs (home 2 fun _ _ => 0) b := by
  have hend : ((crashedCommit.foldlM step (init ⟨64, fun _ _ => 0⟩ ⟨2, 30, 0, false, ⟨[]⟩⟩)).bind
      (·.step .recover)).any (·.pc = .running) = true := by decide +kernel
  obtain ⟨m', hm', hpc⟩ := (Option.any_eq_true _ _).mp hend
  obtain ⟨m, hm, hstep⟩ := Option.bind_eq_some_iff.mp hm'
  have hrun : Run Steps _ crashedCommit m := Run.of_foldlM hm
  have hpc : m'.pc = .running := by simpa using hpc
  exact ⟨m, m', hrun, hstep, hpc, (crash_atomic (Or.inl rfl) hrun).1 m' hstep hpc⟩

end Xv6.Machine
