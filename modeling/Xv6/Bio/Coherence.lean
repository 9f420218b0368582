import Xv6.Lib.Runs
import Xv6.Lib.Partial
import Xv6.Bio.Cache

/-!
# The buffer cache — coherence

`Inv` ties the buffers to the disk and to the flat map of stored contents.  Of one buffer
(`CellOk`): its reference count is the number of calls that are using it; its sleep-lock is
held by the call in `held`; the calls waiting for it and the call holding it asked for the block
it carries; if it is valid its data is the flat map's; and if moreover it is neither dirty nor
freshly stored into, the disk agrees.  Of the whole: no two buffers carry the same block, and
the disk agrees with the flat map at every block no valid buffer carries.

Every step touches one buffer, and at most the disk and the flat map at the block it carries
(`Inv.set`), so each step lemma is about one buffer.

* `cache_coherent`: a block has at most one buffer, a `bread` returns what was last stored, and
  a dirty or referenced buffer keeps its block.
-/

namespace Xv6.Sys

open Lib

/-- What holds of one buffer. -/
structure CellOk (flat : ℕ → ℕ → Block) (disk : ℕ → Block) (b : Buf) (k : Ctl) : Prop where
  refcnt : b.refcnt = k.waiting.length + k.releasing.length + (if k.held.isSome then 1 else 0)
  lock : b.lock = k.held.map (·.req.pid)
  waiting : ∀ r ∈ k.waiting, b.carries r.dev r.blockno
  held : ∀ h ∈ k.held, b.carries h.req.dev h.req.blockno
  ready : ∀ h ∈ k.held, h.ready → b.valid
  stored : ∀ h ∈ k.held, h.stored → h.ready
  dirty : b.dirty → b.valid
  disk1 : b.valid → b.dev = 1
  flat : b.valid → b.data = flat b.dev b.blockno
  clean : b.valid → ¬ b.dirty → (∀ h ∈ k.held, ¬ h.stored) → b.data = disk b.blockno

/-- Every block has one buffer at most, which holds what was last stored into it. -/
structure Inv (s : Sys) : Prop where
  lru : ∀ i, i ∈ s.cache.lru
  cell : ∀ i, CellOk s.flat s.disk.block (s.buf i) (s.ctl i)
  uniq : ∀ i j, (s.buf i).dev ≠ 0 → (s.buf j).carries (s.buf i).dev (s.buf i).blockno → i = j
  absent : ∀ b, (∀ i, (s.buf i).valid → ¬ (s.buf i).carries 1 b) → s.disk.block b = s.flat 1 b

variable {s t : Sys} {i j : Fin NBUF} {p : Pid} {r : Req}

theorem init_inv (disk : Disk) (log : Log) : Inv (init disk log) where
  lru := fun i => by simp [init, Bcache.binit]
  cell := fun i => by
    constructor <;> simp [init, buf, Bcache.binit]
  uniq := fun i j h => absurd rfl h
  absent := fun b _ => rfl

/-- **One buffer changes.**  If `t` differs from `s` in buffer `i`, and in the disk and the flat
map only where no other valid buffer looks, the invariant needs checking at `i` alone. -/
theorem Inv.set (hi : Inv s) (i : Fin NBUF) (hlru : ∀ j, j ∈ t.cache.lru)
    (hbuf : ∀ j, j ≠ i → t.buf j = s.buf j) (hctl : ∀ j, j ≠ i → t.ctl j = s.ctl j)
    (hok : CellOk t.flat t.disk.block (t.buf i) (t.ctl i))
    (huniq : ∀ j, j ≠ i → (t.buf i).dev ≠ 0 →
      ¬ (s.buf j).carries (t.buf i).dev (t.buf i).blockno)
    (hother : ∀ j, j ≠ i → (s.buf j).valid → (s.buf j).dev = 1 →
      t.flat 1 (s.buf j).blockno = s.flat 1 (s.buf j).blockno ∧
      t.disk.block (s.buf j).blockno = s.disk.block (s.buf j).blockno)
    (habs : ∀ b, (∀ j, j ≠ i → (s.buf j).valid → ¬ (s.buf j).carries 1 b) →
      ((t.buf i).valid → ¬ (t.buf i).carries 1 b) → t.disk.block b = t.flat 1 b) : Inv t where
  lru := hlru
  cell := fun j => by
    by_cases hj : j = i
    · subst hj; exact hok
    · have hc := hi.cell j
      rw [hbuf j hj, hctl j hj]
      refine ⟨hc.refcnt, hc.lock, hc.waiting, hc.held, hc.ready, hc.stored, hc.dirty, hc.disk1,
        fun hv => ?_, fun hv hd hh => ?_⟩
      · rw [hc.flat hv, hc.disk1 hv, (hother j hj hv (hc.disk1 hv)).1]
      · rw [hc.clean hv hd hh, (hother j hj hv (hc.disk1 hv)).2]
  uniq := fun j k hd hk => by
    by_cases hj : j = i
    · by_contra hne
      have hki : k ≠ i := fun e => hne (hj.trans e.symm)
      subst hj
      rw [hbuf k hki] at hk
      exact huniq k hki hd hk
    · by_cases hki : k = i
      · subst hki
        rw [hbuf j hj] at hd hk
        exact absurd ⟨hk.1.symm, hk.2.symm⟩ (huniq j hj (by rw [hk.1]; exact hd))
      · rw [hbuf j hj] at hd hk
        rw [hbuf k hki] at hk
        exact hi.uniq j k hd hk
  absent := fun b hb => habs b (fun j hj hv => by
      have := hb j
      rw [hbuf j hj] at this
      exact this hv) (hb i)

/-- As `Inv.set`, when the disk, the flat map and the block the buffer carries stay. -/
theorem Inv.set_local (hi : Inv s) (i : Fin NBUF) (hlru : ∀ j, j ∈ t.cache.lru)
    (hbuf : ∀ j, j ≠ i → t.buf j = s.buf j) (hctl : ∀ j, j ≠ i → t.ctl j = s.ctl j)
    (hflat : t.flat = s.flat) (hdisk : t.disk = s.disk)
    (hok : CellOk s.flat s.disk.block (t.buf i) (t.ctl i))
    (hdev : (t.buf i).dev = (s.buf i).dev) (hno : (t.buf i).blockno = (s.buf i).blockno)
    (hvalid : (t.buf i).valid = (s.buf i).valid) : Inv t := by
  refine hi.set i hlru hbuf hctl (by rw [hflat, hdisk]; exact hok) (fun j hj hd hc => ?_)
    (fun j _ _ _ => by rw [hflat, hdisk]; exact ⟨rfl, rfl⟩) (fun b hb hbi => ?_)
  · rw [hdev] at hd
    rw [hdev, hno] at hc
    exact hj (hi.uniq i j hd hc).symm
  · rw [hflat, hdisk]
    refine hi.absent b fun j hv => ?_
    by_cases hj : j = i
    · subst hj
      rw [hvalid] at hbi
      intro hc
      exact hbi hv ⟨hdev.trans hc.1, hno.trans hc.2⟩
    · exact hb j hj hv

/-- The log record is no part of the invariant. -/
theorem Inv.set_log (hi : Inv s) (l : Log) : Inv { s with log := l } :=
  ⟨hi.lru, hi.cell, hi.uniq, hi.absent⟩

/-! ### What the cache's functions do -/

@[simp] theorem buf_setBuf (b : Buf) : (s.setBuf i b).buf i = b := by
  simp [setBuf, buf, Bcache.set]

theorem buf_setBuf_of_ne (b : Buf) (h : j ≠ i) : (s.setBuf i b).buf j = s.buf j := by
  simp [setBuf, buf, Bcache.set, h]

@[simp] theorem buf_setCtl (k : Ctl) : (s.setCtl i k).buf j = s.buf j := rfl

@[simp] theorem buf_mark (x y : Bool) : (s.mark i x y).buf j = s.buf j := rfl

@[simp] theorem ctl_setBuf (b : Buf) : (s.setBuf i b).ctl j = s.ctl j := rfl

@[simp] theorem ctl_setCtl (k : Ctl) : (s.setCtl i k).ctl i = k := by simp [setCtl]

theorem ctl_setCtl_of_ne (k : Ctl) (h : j ≠ i) : (s.setCtl i k).ctl j = s.ctl j := by
  simp [setCtl, h]

/-- The three outcomes of `bget`'s critical section. -/
theorem bget_cases {c c' : Bcache} {dev b : ℕ} (hlru : ∀ i, i ∈ c.lru)
    (h : c.bget dev b = .ok (i, c')) :
    ((c.buf i).carries dev b ∧ c' = c.set i { c.buf i with refcnt := (c.buf i).refcnt + 1 }) ∨
    ((∀ j, ¬ (c.buf j).carries dev b) ∧ (c.buf i).refcnt = 0 ∧ (c.buf i).dirty = false ∧
      c' = c.set i { c.buf i with
        dev := dev, blockno := b, valid := false, dirty := false, refcnt := 1 }) := by
  unfold Bcache.bget at h
  split at h
  · rename_i k hk
    cases h
    exact .inl ⟨by simpa using List.find?_some hk, rfl⟩
  · rename_i hnone
    split at h
    · rename_i k hk
      cases h
      have := List.find?_some hk
      simp only [decide_eq_true_eq, Bool.not_eq_true] at this
      refine .inr ⟨fun j hj => ?_, this.1, this.2, rfl⟩
      exact absurd (by simpa using hj) (List.find?_eq_none.mp hnone j (hlru j))
    · cases h

/-- What `iderw` does when it does not panic. -/
theorem iderw_cases {b b' : Buf} {d d' : Disk} (h : iderw p b d = .ok (b', d')) :
    b.lock = some p ∧ b.dev = 1 ∧
    ((b.dirty = true ∧ b' = { b with dirty := false, valid := true } ∧
        d' = { d with block := Function.update d.block b.blockno b.data }) ∨
      (b.dirty = false ∧ b.valid = false ∧ d' = d ∧
        b' = { b with data := d.block b.blockno, valid := true })) := by
  unfold iderw at h
  split at h
  · cases h
  · rename_i hl
    split at h
    · cases h
    · rename_i hn
      split at h
      · cases h
      · rename_i hd
        split at h
        · cases h
        · refine ⟨by simpa using hl, by simpa using hd, ?_⟩
          split at h
          · rename_i hdirty
            cases h
            exact .inl ⟨hdirty, rfl, rfl⟩
          · rename_i hdirty
            cases h
            have hdirty : b.dirty = false := by simpa using hdirty
            exact .inr ⟨hdirty, by simpa [hdirty] using hn, rfl, rfl⟩

theorem holds_iff : s.holds p i = true ↔
    ∃ h, (s.ctl i).held = some h ∧ h.req.pid = p ∧ h.ready = true := by
  unfold holds
  cases (s.ctl i).held <;> simp

/-- The buffer keeps its block, and stays valid if it is. -/
def Buf.Same (b b' : Buf) : Prop :=
  b'.dev = b.dev ∧ b'.blockno = b.blockno ∧ (b.valid = true → b'.valid = true)

theorem Buf.Same.trans {b b' b'' : Buf} (h₁ : Same b b') (h₂ : Same b' b'') : Same b b'' :=
  ⟨h₂.1.trans h₁.1, h₂.2.1.trans h₁.2.1, fun h => h₂.2.2 (h₁.2.2 h)⟩

/-- No buffer changes its block. -/
def SameKeys (s t : Sys) : Prop := ∀ j, Buf.Same (s.buf j) (t.buf j)

/-- No dirty or referenced buffer changes its block. -/
def Keeps (s t : Sys) : Prop :=
  ∀ j, (s.buf j).dirty = true ∨ 0 < (s.buf j).refcnt → Buf.Same (s.buf j) (t.buf j)

theorem SameKeys.keeps (h : SameKeys s t) : Keeps s t := fun j _ => h j

theorem Keeps.trans_same {u : Sys} (h₁ : Keeps s t) (h₂ : SameKeys t u) : Keeps s u :=
  fun j hj => (h₁ j hj).trans (h₂ j)

theorem SameKeys.of_one (hbuf : ∀ j, j ≠ i → t.buf j = s.buf j)
    (h : Buf.Same (s.buf i) (t.buf i)) : SameKeys s t := fun j => by
  by_cases hj : j = i
  · subst hj; exact h
  · rw [hbuf j hj]; exact ⟨rfl, rfl, id⟩

/-- A step that moves no contents. -/
structure Frame (s t : Sys) : Prop where
  flat : t.flat = s.flat
  disk : t.disk = s.disk
  log : t.log = s.log
  unsaved : t.unsaved = s.unsaved

theorem Frame.refl (s : Sys) : Frame s s := ⟨rfl, rfl, rfl, rfl⟩

theorem Frame.trans {u : Sys} (h₁ : Frame s t) (h₂ : Frame t u) : Frame s u :=
  ⟨h₂.flat.trans h₁.flat, h₂.disk.trans h₁.disk, h₂.log.trans h₁.log,
    h₂.unsaved.trans h₁.unsaved⟩

theorem unsaved_of_ctl (hctl : ∀ j, j ≠ i → t.ctl j = s.ctl j)
    (h : t.unsaved i = s.unsaved i) : t.unsaved = s.unsaved := by
  funext j
  by_cases hj : j = i
  · rw [hj, h]
  · simp only [unsaved, hctl j hj]

/-! ### The steps -/

/-- `bget` finds the buffer of the block, or makes an idle one its buffer. -/
theorem bget_spec (h : s.bget r = some (i, t)) (hi : Inv s) : Inv t ∧ Frame s t ∧ Keeps s t := by
  simp only [bget, Option.bind_eq_bind, Option.bind_eq_some_iff, guard_eq_some,
    toOption_eq_some, Option.pure_def, Option.some.injEq, Prod.mk.injEq] at h
  obtain ⟨-, hdev, ⟨k, c⟩, hb, rfl, ht⟩ := h
  have hc := hi.cell k
  have hctl : t.ctl k = { s.ctl k with waiting := r :: (s.ctl k).waiting } := by
    rw [← ht, ctl_setCtl]
  have hctl' : ∀ j, j ≠ k → t.ctl j = s.ctl j := by
    rw [← ht]; exact fun j hj => ctl_setCtl_of_ne _ hj
  have hflat : t.flat = s.flat := by rw [← ht]; rfl
  have hdisk : t.disk = s.disk := by rw [← ht]; rfl
  have hframe : Frame s t :=
    ⟨hflat, hdisk, by rw [← ht]; rfl, unsaved_of_ctl hctl' (by simp [unsaved, hctl])⟩
  -- The block has a buffer, or an idle buffer is made its own.
  rcases bget_cases hi.lru hb with ⟨hcar, rfl⟩ | ⟨hno, h0, hd, rfl⟩
  · have hbuf : t.buf k = { s.buf k with refcnt := (s.buf k).refcnt + 1 } := by
      rw [← ht]; exact buf_setBuf _
    have hbuf' : ∀ j, j ≠ k → t.buf j = s.buf j := by
      rw [← ht]; exact fun j hj => buf_setBuf_of_ne _ hj
    have hlru : t.cache.lru = s.cache.lru := by rw [← ht]; rfl
    refine ⟨?_, hframe, (SameKeys.of_one hbuf' (by rw [hbuf]; exact ⟨rfl, rfl, id⟩)).keeps⟩
    refine hi.set_local k (hlru ▸ hi.lru) hbuf' hctl' hflat hdisk ?_ (by rw [hbuf]) (by rw [hbuf])
      (by rw [hbuf])
    rw [hbuf, hctl]
    refine { hc with refcnt := ?_, waiting := fun r' hr' => ?_ }
    · simp only [hc.refcnt, List.length_cons]; omega
    · rcases List.mem_cons.mp hr' with rfl | hr'
      · exact hcar
      · exact hc.waiting r' hr'
  · have hbuf : t.buf k = { s.buf k with
        dev := r.dev, blockno := r.blockno, valid := false, dirty := false, refcnt := 1 } := by
      rw [← ht]; exact buf_setBuf _
    have hbuf' : ∀ j, j ≠ k → t.buf j = s.buf j := by
      rw [← ht]; exact fun j hj => buf_setBuf_of_ne _ hj
    have hlru : t.cache.lru = s.cache.lru := by rw [← ht]; rfl
    -- nobody uses a buffer whose count is zero
    have hz := hc.refcnt
    rw [show (s.buf k).refcnt = 0 from h0] at hz
    have hw : (s.ctl k).waiting = [] := List.length_eq_zero_iff.mp (by omega)
    have hr : (s.ctl k).releasing = [] := List.length_eq_zero_iff.mp (by omega)
    have hh : (s.ctl k).held = none := by
      cases hk : (s.ctl k).held with
      | none => rfl
      | some x => simp [hk] at hz
    refine ⟨?_, hframe, fun j hj => ?_⟩
    · refine hi.set k (hlru ▸ hi.lru) hbuf' hctl' ?_ ?_
        (fun _ _ _ _ => by rw [hflat, hdisk]; exact ⟨rfl, rfl⟩) (fun b hb _ => ?_)
      · rw [hbuf, hctl]
        have hl := hc.lock
        rw [hh] at hl
        constructor <;> simp [hw, hr, hh, hl, Buf.carries]
      · rw [hbuf]
        exact fun j _ _ => hno j
      · -- the block that is evicted was clean, so the disk has it
        rw [hflat, hdisk]
        by_cases hk : (s.buf k).valid = true ∧ (s.buf k).carries 1 b
        · have h₁ := hc.flat hk.1
          have h₂ := hc.clean hk.1 (by rw [show (s.buf k).dirty = false from hd]; simp)
            (by rw [hh]; rintro _ ⟨⟩)
          obtain ⟨hv, hcd, hcb⟩ := hk
          rw [hcd, hcb] at h₁
          rw [hcb] at h₂
          exact h₂.symm.trans h₁
        · refine hi.absent b fun j hv => ?_
          by_cases hj : j = k
          · subst hj; exact fun hcar => hk ⟨hv, hcar⟩
          · exact hb j hj hv
    · have hne : j ≠ k := by
        rintro rfl
        rw [show (s.buf j).refcnt = 0 from h0, show (s.buf j).dirty = false from hd] at hj
        simp at hj
      rw [hbuf' j hne]
      exact ⟨rfl, rfl, id⟩

/-- The process has the buffer for itself. -/
theorem acquiresleep_spec (h : s.acquiresleep r i = some t) (hi : Inv s) :
    Inv t ∧ Frame s t ∧ SameKeys s t ∧ (t.ctl i).held = some ⟨r, false, false⟩ := by
  simp only [acquiresleep, Option.bind_eq_bind, Option.bind_eq_some_iff, guard_eq_some,
    Option.pure_def, Option.some.injEq] at h
  obtain ⟨-, ⟨hr, hl⟩, rfl⟩ := h
  have hc := hi.cell i
  have hh : (s.ctl i).held = none := by
    have := hc.lock
    rw [hl] at this
    cases hk : (s.ctl i).held with
    | none => rfl
    | some x => rw [hk] at this; cases this
  have hctl := fun j hj => ctl_setCtl_of_ne (s := s.setBuf i { s.buf i with lock := some r.pid })
    (i := i) (j := j) { s.ctl i with
      waiting := (s.ctl i).waiting.erase r, held := some ⟨r, false, false⟩ } hj
  refine ⟨?_, ⟨rfl, rfl, rfl, unsaved_of_ctl hctl (by simp [unsaved, hh])⟩,
    .of_one (fun j hj => buf_setBuf_of_ne _ hj) (by simp [Buf.Same]), by simp⟩
  refine hi.set_local i hi.lru (fun j hj => buf_setBuf_of_ne _ hj) hctl rfl rfl ?_ ?_ ?_ ?_
  · rw [buf_setCtl, buf_setBuf, ctl_setCtl]
    have hlen := List.length_erase_of_mem hr
    have hpos := List.length_pos_of_mem hr
    have hcnt := hc.refcnt
    rw [hh] at hcnt
    refine { hc with refcnt := ?_, lock := rfl, waiting := fun r' hr' => ?_, held := ?_,
                     ready := ?_, stored := ?_, clean := fun hv hd _ => ?_ }
    · simp only [Option.isSome_none, Option.isSome_some, Bool.false_eq_true, if_false,
        if_true] at hcnt ⊢
      omega
    · exact hc.waiting r' (List.mem_of_mem_erase hr')
    · rintro x hx; cases hx; exact hc.waiting r hr
    · rintro x hx h; cases hx; cases h
    · rintro x hx h; cases hx; cases h
    · exact hc.clean hv hd (by rw [hh]; rintro _ ⟨⟩)
  all_goals simp

/-- **The holder works on its buffer.**  The buffer keeps its block, its lock and its count; what
has to be checked is its data against the flat map and, if it is clean, the disk. -/
theorem CellOk.work {flat flat' : ℕ → ℕ → Block} {disk disk' : ℕ → Block} {b b' : Buf} {k : Ctl}
    {x : Held} (hc : CellOk flat disk b k) (hx : k.held = some x) (a : Bool)
    (hcnt : b'.refcnt = b.refcnt) (hlock : b'.lock = b.lock) (hdev : b'.dev = b.dev)
    (hno : b'.blockno = b.blockno) (hv : b'.valid = true) (h1 : b.dev = 1)
    (hflat : b'.data = flat' 1 b.blockno)
    (hclean : b'.dirty = false → a = false → b'.data = disk' b.blockno) :
    CellOk flat' disk' b' { k with held := some ⟨x.req, true, a⟩ } where
  refcnt := by rw [hcnt, hc.refcnt, hx]; rfl
  lock := by rw [hlock, hc.lock, hx]; rfl
  waiting := fun r hr => by
    have := hc.waiting r hr
    exact ⟨hdev.trans this.1, hno.trans this.2⟩
  held := by
    rintro y hy; cases hy
    have := hc.held x hx
    exact ⟨hdev.trans this.1, hno.trans this.2⟩
  ready := fun _ _ _ => hv
  stored := by rintro y hy -; cases hy; rfl
  dirty := fun _ => hv
  disk1 := fun _ => hdev.trans h1
  flat := fun _ => by rw [hflat, hdev, h1, hno]
  clean := fun _ hd hh => by
    rw [hno]
    exact hclean (by simpa using hd) (by simpa using hh ⟨x.req, true, a⟩ rfl)

theorem ctl_mark {x : Held} (hx : (s.ctl i).held = some x) (a b : Bool) :
    (s.mark i a b).ctl i = { s.ctl i with held := some ⟨x.req, a, b⟩ } := by
  simp [mark, hx]

theorem ctl_mark_of_ne (a b : Bool) (h : j ≠ i) : (s.mark i a b).ctl j = s.ctl j :=
  ctl_setCtl_of_ne _ h

/-- The buffer holds what the block held when it was last stored. -/
theorem ready_spec (h : s.ready i = some t) (hi : Inv s) :
    Inv t ∧ Frame s t ∧ SameKeys s t ∧ ∃ x, (s.ctl i).held = some x ∧
      (t.ctl i).held = some { x with ready := true } ∧
      (t.buf i).carries x.req.dev x.req.blockno ∧
      (t.buf i).data = t.flat x.req.dev x.req.blockno := by
  simp only [ready, Option.bind_eq_bind, Option.bind_eq_some_iff, guard_eq_some] at h
  obtain ⟨x, hx, -, hr, h⟩ := h
  have hc := hi.cell i
  have hcar := hc.held x hx
  split at h
  · rename_i hv
    cases h
    have hctl : ∀ j, j ≠ i → (s.mark i true x.stored).ctl j = s.ctl j :=
      fun j hj => ctl_mark_of_ne _ _ hj
    have hk := ctl_mark hx true x.stored
    have hflat : (s.buf i).data = s.flat 1 (s.buf i).blockno := by rw [hc.flat hv, hc.disk1 hv]
    refine ⟨?_, ⟨rfl, rfl, rfl, unsaved_of_ctl hctl (by simp [unsaved, hk, hx])⟩,
      fun j => ⟨rfl, rfl, id⟩, x, hx, by rw [hk], hcar, by rw [buf_mark, hc.flat hv, hcar.1, hcar.2]; rfl⟩
    refine hi.set_local i hi.lru (fun _ _ => rfl) hctl rfl rfl ?_ rfl rfl rfl
    rw [hk, buf_mark]
    refine hc.work hx x.stored rfl rfl rfl rfl hv (hc.disk1 hv) hflat fun hd hs => ?_
    refine hc.clean hv (by simp [hd]) fun y hy => ?_
    rw [hx] at hy; cases hy; simp [hs]
  · rename_i hv
    have hv : (s.buf i).valid = false := by simpa using hv
    have hnd : (s.buf i).dirty = false := by
      cases hd : (s.buf i).dirty with
      | false => rfl
      | true => exact absurd (hc.dirty hd) (by simp [hv])
    simp only [Option.bind_eq_some_iff, toOption_eq_some, Option.pure_def,
      Option.some.injEq] at h
    obtain ⟨⟨b, d⟩, hio, rfl⟩ := h
    obtain ⟨-, hdev, ⟨hd, -⟩ | ⟨-, -, rfl, hb⟩⟩ := iderw_cases hio
    · rw [hnd] at hd; cases hd
    -- no other buffer has the block, so what is read from the disk is what was last stored
    have hkey : s.disk.block (s.buf i).blockno = s.flat 1 (s.buf i).blockno := by
      refine hi.absent _ fun j hvj hcj => ?_
      have : i = j := hi.uniq i j (by rw [hdev]; decide) (by rw [hdev]; exact hcj)
      rw [← this, hv] at hvj
      cases hvj
    have hbuf : ((s.setBuf i b).mark i true x.stored).buf i = b := by simp
    have hk := ctl_mark (s := s.setBuf i b) hx true x.stored
    have hctl : ∀ j, j ≠ i → ((s.setBuf i b).mark i true x.stored).ctl j = s.ctl j :=
      fun j hj => ctl_mark_of_ne _ _ hj
    have hdata : b.data = s.flat 1 (s.buf i).blockno := by rw [hb]; exact hkey
    have hcar' : b.carries x.req.dev x.req.blockno := by rw [hb]; exact hcar
    refine ⟨?_, ⟨rfl, rfl, rfl, unsaved_of_ctl hctl (by simp [unsaved, hk, hx])⟩,
      .of_one (fun j hj => buf_setBuf_of_ne _ hj) (by rw [hbuf, hb]; exact ⟨rfl, rfl, fun _ => rfl⟩),
      x, hx,
      by rw [hk], by rw [hbuf]; exact hcar', ?_⟩
    · refine hi.set i hi.lru (fun j hj => buf_setBuf_of_ne _ hj) hctl ?_ (fun j hj hd hcj => ?_)
        (fun _ _ _ _ => ⟨rfl, rfl⟩) (fun b' hb' _ => hi.absent b' fun j hvj => ?_)
      · rw [hbuf, hk]
        refine hc.work hx x.stored (by rw [hb]) (by rw [hb]) (by rw [hb]) (by rw [hb]) (by rw [hb])
          hdev hdata fun _ _ => by rw [hb]; rfl
      · rw [hbuf, hb] at hd hcj
        exact hj (hi.uniq i j hd hcj).symm
      · by_cases hj : j = i
        · subst hj; rw [hv] at hvj; cases hvj
        · exact hb' j hj hvj
    · rw [hbuf, hdata, ← hcar.1, hdev, ← hcar.2]; rfl

/-- What `holds` gives of the buffer. -/
theorem holds_cell (hi : Inv s) (h : s.holds p i = true) :
    ∃ x, (s.ctl i).held = some x ∧ x.req.pid = p ∧ (s.buf i).valid = true ∧
      (s.buf i).dev = 1 ∧ (s.buf i).lock = some p := by
  obtain ⟨x, hx, hp, hr⟩ := holds_iff.mp h
  have hc := hi.cell i
  have hv := hc.ready x hx hr
  refine ⟨x, hx, hp, hv, hc.disk1 hv, ?_⟩
  rw [hc.lock, hx, ← hp]; rfl

/-- No other valid buffer looks at the block a valid buffer carries. -/
theorem Inv.blockno_ne (hi : Inv s) (h1 : (s.buf i).dev = 1) (hj : j ≠ i)
    (hd : (s.buf j).dev = 1) : (s.buf j).blockno ≠ (s.buf i).blockno := fun e =>
  hj (hi.uniq i j (by rw [h1]; decide) ⟨hd.trans h1.symm, e⟩).symm

/-- A store into the buffer is one into the block, unsaved so far. -/
theorem store_spec {d : Block} (h : s.store p i d = some t) (hi : Inv s) :
    Inv t ∧ t.disk = s.disk ∧ t.log = s.log ∧ t.cache.lru = s.cache.lru ∧
      t.flat = Function.update s.flat 1 (Function.update (s.flat 1) (s.buf i).blockno d) ∧
      t.unsaved = Function.update s.unsaved i (some p) ∧ t.holds p i = true ∧
      SameKeys s t := by
  simp only [store, Option.bind_eq_bind, Option.bind_eq_some_iff, guard_eq_some, Option.pure_def,
    Option.some.injEq] at h
  obtain ⟨-, hh, ht⟩ := h
  obtain ⟨x, hx, hp, hv, hd1, hl⟩ := holds_cell hi hh
  have hc := hi.cell i
  have hbuf : t.buf i = { s.buf i with data := d } := by
    rw [← ht]; exact buf_setBuf _
  have hbuf' : ∀ j, j ≠ i → t.buf j = s.buf j := by
    rw [← ht]; exact fun j hj => buf_setBuf_of_ne _ hj
  have hctl : t.ctl i = { s.ctl i with held := some ⟨x.req, true, true⟩ } := by
    rw [← ht]; exact ctl_mark (s := s.setBuf i _) hx true true
  have hctl' : ∀ j, j ≠ i → t.ctl j = s.ctl j := by
    rw [← ht]; exact fun j hj => ctl_mark_of_ne (s := s.setBuf i _) true true hj
  have hflat : t.flat =
      Function.update s.flat 1 (Function.update (s.flat 1) (s.buf i).blockno d) := by
    rw [← ht, hd1]
  have hoth : ∀ b, b ≠ (s.buf i).blockno → t.flat 1 b = s.flat 1 b := by
    intro b hb
    rw [hflat, Function.update_self, Function.update_of_ne hb]
  have hdisk : t.disk = s.disk := by rw [← ht]; rfl
  have hlru : t.cache.lru = s.cache.lru := by rw [← ht]; rfl
  refine ⟨?_, hdisk, by rw [← ht]; rfl, hlru, hflat, ?_, ?_,
    .of_one hbuf' (by rw [hbuf]; exact ⟨rfl, rfl, id⟩)⟩
  · refine hi.set i (hlru ▸ hi.lru) hbuf' hctl' ?_ (fun j hj hd hcj => ?_)
      (fun j hj _ hdj => ⟨hoth _ (hi.blockno_ne hd1 hj hdj), by rw [hdisk]⟩) (fun b hb hbi => ?_)
    · rw [hbuf, hctl]
      refine hc.work hx true rfl rfl rfl rfl hv hd1 ?_ (fun _ h => by cases h)
      rw [hflat, Function.update_self, Function.update_self]
    · rw [hbuf] at hd hcj
      exact hj (hi.uniq i j hd hcj).symm
    · rw [hbuf] at hbi
      have hne : b ≠ (s.buf i).blockno := fun e => hbi hv ⟨hd1, e.symm⟩
      rw [hoth b hne, hdisk]
      refine hi.absent b fun j hvj => ?_
      by_cases hj : j = i
      · subst hj; exact fun hcj => hne hcj.2.symm
      · exact hb j hj hvj
  · funext j
    by_cases hj : j = i
    · subst hj; simp [unsaved, hctl, hp]
    · rw [Function.update_of_ne hj]; simp only [unsaved, hctl' j hj]
  · exact holds_iff.mpr ⟨⟨x.req, true, true⟩, by rw [hctl], hp, rfl⟩

/-- With `log_write` the buffer stays in the cache. -/
theorem log_write_spec (h : s.log_write p i = some t) (hi : Inv s) :
    Inv t ∧ t.disk = s.disk ∧ t.flat = s.flat ∧
      s.log.log_write (s.buf i).blockno = .ok t.log ∧
      t.unsaved = Function.update s.unsaved i none ∧ s.holds p i = true ∧ t.holds p i = true ∧
      SameKeys s t := by
  simp only [log_write, Option.bind_eq_bind, Option.bind_eq_some_iff, guard_eq_some,
    toOption_eq_some, Option.pure_def, Option.some.injEq] at h
  obtain ⟨-, hh, l, hl, ht⟩ := h
  obtain ⟨x, hx, hp, hv, hd1, -⟩ := holds_cell hi hh
  have hc := hi.cell i
  have hbuf : t.buf i = { s.buf i with dirty := true } := by
    rw [← ht]; exact buf_setBuf _
  have hbuf' : ∀ j, j ≠ i → t.buf j = s.buf j := by
    rw [← ht]; exact fun j hj => buf_setBuf_of_ne _ hj
  have hctl : t.ctl i = { s.ctl i with held := some ⟨x.req, true, false⟩ } := by
    rw [← ht]; exact ctl_mark (s := ({ s with log := l } : Sys).setBuf i _) hx true false
  have hctl' : ∀ j, j ≠ i → t.ctl j = s.ctl j := by
    rw [← ht]
    exact fun j hj => ctl_mark_of_ne (s := ({ s with log := l } : Sys).setBuf i _) true false hj
  have hflat : t.flat = s.flat := by rw [← ht]; rfl
  have hdisk : t.disk = s.disk := by rw [← ht]; rfl
  have hlru : t.cache.lru = s.cache.lru := by rw [← ht]; rfl
  refine ⟨?_, hdisk, hflat, by rw [hl, ← ht]; rfl, ?_, hh, ?_,
    .of_one hbuf' (by rw [hbuf]; exact ⟨rfl, rfl, id⟩)⟩
  · refine hi.set_local i (hlru ▸ hi.lru) hbuf' hctl' hflat hdisk ?_ (by rw [hbuf]) (by rw [hbuf])
      (by rw [hbuf])
    rw [hbuf, hctl]
    refine hc.work hx false rfl rfl rfl rfl hv hd1 ?_ (fun h => by cases h)
    rw [hc.flat hv, hd1]
  · funext j
    by_cases hj : j = i
    · subst hj; simp [unsaved, hctl]
    · rw [Function.update_of_ne hj]; simp only [unsaved, hctl' j hj]
  · exact holds_iff.mpr ⟨⟨x.req, true, false⟩, by rw [hctl], hp, rfl⟩

/-- With `bwrite` the disk has what the buffer has. -/
theorem bwrite_spec (h : s.bwrite p i = some t) (hi : Inv s) :
    Inv t ∧ t.flat = s.flat ∧ t.log = s.log ∧
      t.disk = { s.disk with
        block := Function.update s.disk.block (s.buf i).blockno (s.flat 1 (s.buf i).blockno) } ∧
      t.unsaved = Function.update s.unsaved i none ∧ s.holds p i = true ∧ t.holds p i = true ∧
      SameKeys s t := by
  simp only [bwrite, Option.bind_eq_bind, Option.bind_eq_some_iff, guard_eq_some,
    toOption_eq_some, Option.pure_def, Option.some.injEq] at h
  obtain ⟨-, hh, ⟨c, d⟩, hw, ht⟩ := h
  obtain ⟨x, hx, hp, hv, hd1, hl⟩ := holds_cell hi hh
  have hc := hi.cell i
  rw [Bcache.bwrite, if_neg (not_not.mpr (show (s.cache.buf i).lock = some p from hl))] at hw
  cases hio : iderw p { s.cache.buf i with dirty := true } s.disk with
  | error e => rw [hio] at hw; cases hw
  | ok r =>
  obtain ⟨b, d'⟩ := r
  rw [hio] at hw
  obtain ⟨rfl, rfl⟩ : s.cache.set i b = c ∧ d' = d := by cases hw; exact ⟨rfl, rfl⟩
  obtain ⟨-, -, ⟨-, hb, hd⟩ | ⟨hd, -⟩⟩ := iderw_cases hio
  swap
  · cases hd
  have hdat : (s.buf i).data = s.flat 1 (s.buf i).blockno := by rw [hc.flat hv, hd1]
  have hbuf : t.buf i = b := by rw [← ht]; exact buf_setBuf _
  have hbuf' : ∀ j, j ≠ i → t.buf j = s.buf j := by
    rw [← ht]; exact fun j hj => buf_setBuf_of_ne _ hj
  have hctl : t.ctl i = { s.ctl i with held := some ⟨x.req, true, false⟩ } := by
    rw [← ht]; exact ctl_mark (s := ({ s with disk := d' } : Sys).setBuf i b) hx true false
  have hctl' : ∀ j, j ≠ i → t.ctl j = s.ctl j := by
    rw [← ht]
    exact fun j hj => ctl_mark_of_ne (s := ({ s with disk := d' } : Sys).setBuf i b) true false hj
  have hflat : t.flat = s.flat := by rw [← ht]; rfl
  have hdisk : t.disk = { s.disk with
      block := Function.update s.disk.block (s.buf i).blockno (s.flat 1 (s.buf i).blockno) } := by
    rw [← ht, ← hdat]; exact hd
  have hlru : t.cache.lru = s.cache.lru := by rw [← ht]; rfl
  have hoth : ∀ n, n ≠ (s.buf i).blockno → t.disk.block n = s.disk.block n := by
    intro n hn; rw [hdisk]; exact Function.update_of_ne hn _ _
  -- Only the block of the buffer has changed on the disk.
  refine ⟨?_, hflat, by rw [← ht]; rfl, hdisk, ?_, hh, ?_,
    .of_one hbuf' (by rw [hbuf, hb]; exact ⟨rfl, rfl, fun _ => rfl⟩)⟩
  · refine hi.set i (hlru ▸ hi.lru) hbuf' hctl' ?_ (fun j hj hd hcj => ?_)
      (fun j hj _ hdj => ⟨by rw [hflat], hoth _ (hi.blockno_ne hd1 hj hdj)⟩) (fun n hn hni => ?_)
    · rw [hbuf, hctl, hflat, hb]
      refine hc.work hx false rfl rfl rfl rfl rfl hd1 hdat (fun _ _ => ?_)
      rw [hdisk]
      show (s.buf i).data = Function.update s.disk.block (s.buf i).blockno _ (s.buf i).blockno
      rw [Function.update_self, hdat]
    · rw [hbuf, hb] at hd hcj
      exact hj (hi.uniq i j hd hcj).symm
    · rw [hbuf, hb] at hni
      have hne : n ≠ (s.buf i).blockno := fun e => hni rfl ⟨hd1, e.symm⟩
      rw [hoth n hne, hflat]
      refine hi.absent n fun j hvj => ?_
      by_cases hj : j = i
      · subst hj; exact fun hcj => hne hcj.2.symm
      · exact hn j hj hvj
  · funext j
    by_cases hj : j = i
    · subst hj; simp [unsaved, hctl]
    · rw [Function.update_of_ne hj]; simp only [unsaved, hctl' j hj]
  · exact holds_iff.mpr ⟨⟨x.req, true, false⟩, by rw [hctl], hp, rfl⟩

/-- The next process may have the buffer. -/
theorem releasesleep_spec (h : s.releasesleep p i = some t) (hi : Inv s) :
    Inv t ∧ Frame s t ∧ SameKeys s t := by
  simp only [releasesleep, Option.bind_eq_bind, Option.bind_eq_some_iff, guard_eq_some,
    Option.pure_def, Option.some.injEq] at h
  obtain ⟨-, ⟨hh, hns⟩, rfl⟩ := h
  obtain ⟨x, hx, hp, hv, hd1, hl⟩ := holds_cell hi hh
  have hc := hi.cell i
  have hs : x.stored = false := by simpa [hx] using hns
  have hctl := fun j hj => ctl_setCtl_of_ne (s := s.setBuf i { s.buf i with lock := none })
    (i := i) (j := j) { s.ctl i with held := none, releasing := p :: (s.ctl i).releasing } hj
  refine ⟨?_, ⟨rfl, rfl, rfl, unsaved_of_ctl hctl (by simp [unsaved, hx, hs])⟩,
    .of_one (fun j hj => buf_setBuf_of_ne _ hj) (by simp [Buf.Same])⟩
  refine hi.set_local i hi.lru (fun j hj => buf_setBuf_of_ne _ hj) hctl rfl rfl ?_ (by simp)
    (by simp) (by simp)
  rw [buf_setCtl, buf_setBuf, ctl_setCtl]
  refine { hc with refcnt := ?_, lock := rfl, held := by rintro _ ⟨⟩, ready := by rintro _ ⟨⟩,
                   stored := by rintro _ ⟨⟩, clean := fun hv hd _ => ?_ }
  · have := hc.refcnt
    simp only [hx, Option.isSome_some, if_true] at this
    simp only [List.length_cons, Option.isSome_none, Bool.false_eq_true, if_false]
    omega
  · refine hc.clean hv hd fun y hy => ?_
    rw [hx] at hy; cases hy; simp [hs]

theorem brelse_buf (c : Bcache) : (c.brelse i).buf =
    Function.update c.buf i { c.buf i with refcnt := (c.buf i).refcnt - 1 } := by
  simp only [Bcache.brelse, Bcache.set]; split <;> rfl

theorem brelse_lru {c : Bcache} (h : ∀ j, j ∈ c.lru) : ∀ j, j ∈ (c.brelse i).lru := fun j => by
  simp only [Bcache.brelse, Bcache.set]
  split
  · by_cases hj : j = i
    · simp [hj]
    · exact List.mem_cons_of_mem _ ((List.mem_erase_of_ne hj).mpr (h j))
  · exact h j

/-- The buffer may serve another block. -/
theorem brelse_spec (h : s.brelse p i = some t) (hi : Inv s) :
    Inv t ∧ Frame s t ∧ SameKeys s t := by
  simp only [brelse, Option.bind_eq_bind, Option.bind_eq_some_iff, guard_eq_some,
    Option.pure_def, Option.some.injEq] at h
  obtain ⟨-, hr, ht⟩ := h
  have hc := hi.cell i
  have hctl : t.ctl i = { s.ctl i with releasing := (s.ctl i).releasing.erase p } := by
    rw [← ht, ctl_setCtl]
  have hctl' : ∀ j, j ≠ i → t.ctl j = s.ctl j := by
    rw [← ht]; exact fun j hj => ctl_setCtl_of_ne _ hj
  have hbuf : t.buf i = { s.buf i with refcnt := (s.buf i).refcnt - 1 } := by
    rw [← ht]
    show (s.cache.brelse i).buf i = _
    rw [brelse_buf, Function.update_self]; rfl
  have hbuf' : ∀ j, j ≠ i → t.buf j = s.buf j := fun j hj => by
    rw [← ht]
    show (s.cache.brelse i).buf j = _
    rw [brelse_buf, Function.update_of_ne hj]; rfl
  have hflat : t.flat = s.flat := by rw [← ht]; rfl
  have hdisk : t.disk = s.disk := by rw [← ht]; rfl
  refine ⟨?_, ⟨hflat, hdisk, by rw [← ht]; rfl, unsaved_of_ctl hctl' (by simp [unsaved, hctl])⟩,
    .of_one hbuf' (by rw [hbuf]; exact ⟨rfl, rfl, id⟩)⟩
  refine hi.set_local i (by rw [← ht]; exact brelse_lru hi.lru) hbuf' hctl' hflat hdisk ?_
    (by rw [hbuf]) (by rw [hbuf]) (by rw [hbuf])
  rw [hbuf, hctl]
  refine { hc with refcnt := ?_ }
  have hcnt := hc.refcnt
  have hlen := List.length_erase_of_mem hr
  have hpos := List.length_pos_of_mem hr
  show (s.buf i).refcnt - 1 = (s.ctl i).waiting.length + ((s.ctl i).releasing.erase p).length +
    (if (s.ctl i).held.isSome then 1 else 0)
  rw [hcnt, hlen]
  omega

/-! ### Runs -/

/-- The transition relation of `step`. -/
def Steps (s : Sys) (a : Act) (t : Sys) : Prop := s.step a = some t

/-- Every step keeps the invariant, and the block of every dirty or referenced buffer. -/
theorem step_inv {a : Act} (h : Steps s a t) (hi : Inv s) : Inv t ∧ Keeps s t := by
  cases a with
  | bget r =>
      obtain ⟨⟨i, u⟩, hu, rfl⟩ := Option.map_eq_some_iff.mp h
      obtain ⟨hinv, -, hk⟩ := bget_spec hu hi
      exact ⟨hinv, hk⟩
  | acquiresleep r i =>
      obtain ⟨hinv, -, hk, -⟩ := acquiresleep_spec h hi
      exact ⟨hinv, hk.keeps⟩
  | ready i =>
      obtain ⟨hinv, -, hk, -⟩ := ready_spec h hi
      exact ⟨hinv, hk.keeps⟩
  | store p i d =>
      obtain ⟨hinv, -, -, -, -, -, -, hk⟩ := store_spec h hi
      exact ⟨hinv, hk.keeps⟩
  | log_write p i =>
      obtain ⟨hinv, -, -, -, -, -, -, hk⟩ := log_write_spec h hi
      exact ⟨hinv, hk.keeps⟩
  | bwrite p i =>
      obtain ⟨hinv, -, -, -, -, -, -, hk⟩ := bwrite_spec h hi
      exact ⟨hinv, hk.keeps⟩
  | releasesleep p i =>
      obtain ⟨hinv, -, hk⟩ := releasesleep_spec h hi
      exact ⟨hinv, hk.keeps⟩
  | brelse p i =>
      obtain ⟨hinv, -, hk⟩ := brelse_spec h hi
      exact ⟨hinv, hk.keeps⟩
  | begin_op | end_op =>
      obtain ⟨l, -, rfl⟩ := Option.map_eq_some_iff.mp h
      exact ⟨hi.set_log _, fun _ _ => ⟨rfl, rfl, id⟩⟩
  | clear | end_commit =>
      simp only [Steps, step] at h
      split at h
      · cases h
        exact ⟨hi.set_log _, fun _ _ => ⟨rfl, rfl, id⟩⟩
      · cases h

theorem run_inv {disk : Disk} {log : Log} {as : List Act} (h : Run Steps (init disk log) as s) :
    Inv s :=
  h.inv (fun _ _ _ hst hs => (step_inv hst hs).1) (init_inv disk log)

/-- **Coherence of the cache.**  In every state any interleaving of the processes reaches:
(a) at most one buffer carries a block of a device other than `0`; (b) a `bread` that returns
gives a buffer of the block asked for, holding what was last stored into that block; (c) no step
recycles a buffer that is dirty or referenced. -/
theorem cache_coherent (disk : Disk) (log : Log) (as : List Act) (s : Sys)
    (h : Run Steps (init disk log) as s) :
    (∀ i j dev b, dev ≠ 0 → (s.buf i).carries dev b → (s.buf j).carries dev b → i = j) ∧
    (∀ i t, s.ready i = some t → ∃ x, (s.ctl i).held = some x ∧
      (t.buf i).carries x.req.dev x.req.blockno ∧
      (t.buf i).data = s.flat x.req.dev x.req.blockno) ∧
    (∀ a t i, s.step a = some t → (s.buf i).dirty = true ∨ 0 < (s.buf i).refcnt →
      (t.buf i).dev = (s.buf i).dev ∧ (t.buf i).blockno = (s.buf i).blockno) := by
  have hi := run_inv h
  refine ⟨fun i j dev b hd hci hcj => ?_, fun i t ht => ?_, fun a t i ht => ?_⟩
  · obtain ⟨rfl, rfl⟩ := hci
    exact hi.uniq i j hd hcj
  · obtain ⟨-, hf, -, x, hx, -, hcar, hdata⟩ := ready_spec ht hi
    exact ⟨x, hx, hcar, by rw [hdata, hf.flat]⟩
  · exact fun hu => ⟨((step_inv ht hi).2 i hu).1, ((step_inv ht hi).2 i hu).2.1⟩

/-- A first read of a block: `bget` takes buffer `0`, and the read returns the block. -/
theorem cache_coherent_first_read : ∃ s t : Sys,
    Run Steps (init ⟨64, fun _ _ => 0⟩ ⟨2, 30, 0, false, ⟨[]⟩⟩)
      [.bget ⟨7, 1, 45⟩, .acquiresleep ⟨7, 1, 45⟩ 0] s ∧ s.ready 0 = some t ∧
    ∃ x, (s.ctl 0).held = some x ∧ (t.buf 0).carries x.req.dev x.req.blockno ∧
      (t.buf 0).data = s.flat x.req.dev x.req.blockno := by
  have hend : (([.bget ⟨7, 1, 45⟩, .acquiresleep ⟨7, 1, 45⟩ 0].foldlM step
      (init ⟨64, fun _ _ => 0⟩ ⟨2, 30, 0, false, ⟨[]⟩⟩)).bind (·.ready 0)).isSome = true := by
    decide +kernel
  obtain ⟨t, ht⟩ := Option.isSome_iff_exists.mp hend
  obtain ⟨s, hs, ht⟩ := Option.bind_eq_some_iff.mp ht
  have hrun : Run Steps _ _ s := Run.of_foldlM hs
  exact ⟨s, t, hrun, ht, (cache_coherent _ _ _ s hrun).2.1 0 t ht⟩

end Xv6.Sys
