import Mathlib.Algebra.Order.Ring.Int
import Mathlib.Algebra.BigOperators.Group.List.Basic
import Mathlib.Data.List.Basic
import Mathlib.Data.List.Pairwise
import Mathlib.Data.Nat.Basic
import Mathlib.Tactic.Common

/-!
# Library — sorted lists of blocks

A block is `size` units of `w` places, from `addr` on.  A list of blocks is apart when it is sorted
and each block ends before the next begins.  `place` inserts a block by its address and joins it
with the neighbours that it touches:

* `apart_place` — the list stays apart.
* `units_place` — no unit is lost.
* `forall_place` — what holds of all blocks, and of two that touch joined into one, holds after it.
-/

namespace Lib

/-- A range of units, from an address. -/
@[ext]
structure Extent (w : ℕ) where
  addr : ℕ
  size : ℕ
  deriving DecidableEq, Repr

namespace Extent

variable {w : ℕ} {a b c x : Extent w} {l : List (Extent w)}

/-- The address behind it. -/
def stop (b : Extent w) : ℕ := b.addr + w * b.size

/-- No place is in both. -/
def Disjoint (a b : Extent w) : Prop := a.stop ≤ b.addr ∨ b.stop ≤ a.addr

theorem Disjoint.symm (h : a.Disjoint b) : b.Disjoint a := Or.symm h

instance : Std.Symm (Disjoint (w := w)) := ⟨fun _ _ h => h.symm⟩

/-- Sorted, and no block touches the next. -/
def Apart (l : List (Extent w)) : Prop := l.Pairwise fun a b => a.stop < b.addr

/-- `b`, which begins where `a` ends, added to `a`. -/
def join (a b : Extent w) : Extent w := ⟨a.addr, a.size + b.size⟩

theorem addr_le_stop (b : Extent w) : b.addr ≤ b.stop := Nat.le_add_right ..

theorem stop_join (h : a.stop = b.addr) : (a.join b).stop = b.stop := by
  rw [stop, join, Nat.mul_add, ← Nat.add_assoc, stop, ← h, stop]

/-! ### Inserting -/

/-- `a` in front of a list, joined with the first block if they touch. -/
def glue (a : Extent w) : List (Extent w) → List (Extent w)
  | [] => [a]
  | b :: l => if a.stop = b.addr then a.join b :: l else a :: b :: l

/-- An extent goes to its place, and grows together with its neighbours. -/
def place (x : Extent w) : List (Extent w) → List (Extent w)
  | [] => [x]
  | b :: l => if x.addr < b.addr then x.glue (b :: l) else b.glue (x.place l)

theorem glue_of_ne (h : ∀ b ∈ l, a.stop ≠ b.addr) : a.glue l = a :: l := by
  cases l with
  | nil => rfl
  | cons b l => exact if_neg (h b (List.mem_cons_self ..))

/-- What holds of the extents, and of two that are joined, holds after gluing. -/
theorem forall_glue {Q : Extent w → Prop} (hjoin : ∀ a b, Q a → Q b → a.stop = b.addr → Q (a.join b))
    (ha : Q a) (hl : ∀ b ∈ l, Q b) : ∀ b ∈ a.glue l, Q b := by
  cases l with
  | nil => simpa [glue] using ha
  | cons b l =>
      rw [List.forall_mem_cons] at hl
      rw [glue]
      split
      · next h => exact List.forall_mem_cons.mpr ⟨hjoin a b ha hl.1 h, hl.2⟩
      · exact List.forall_mem_cons.mpr ⟨ha, List.forall_mem_cons.mpr hl⟩

/-- What holds of the extents, and of two that are joined, holds after placing. -/
theorem forall_place {Q : Extent w → Prop} (hjoin : ∀ a b, Q a → Q b → a.stop = b.addr → Q (a.join b))
    (hx : Q x) (hl : ∀ b ∈ l, Q b) : ∀ b ∈ x.place l, Q b := by
  induction l with
  | nil => simpa [place] using hx
  | cons b l ih =>
      rw [place]
      split
      · exact forall_glue hjoin hx hl
      · rw [List.forall_mem_cons] at hl
        exact forall_glue hjoin hl.1 (ih hl.2)

/-- Extents that are apart stay so when the first of them is glued. -/
theorem apart_glue (hle : ∀ b ∈ l, a.stop ≤ b.addr) (hl : Apart l) : Apart (a.glue l) := by
  cases l with
  | nil => exact List.pairwise_singleton ..
  | cons b l =>
      have hb := List.pairwise_cons.mp hl
      rw [glue]
      split
      · next h =>
          refine List.pairwise_cons.mpr ⟨fun c hc => ?_, hb.2⟩
          rw [stop_join h]
          exact hb.1 c hc
      · next h =>
          have hlt : a.stop < b.addr := lt_of_le_of_ne (hle b (List.mem_cons_self ..)) h
          refine List.pairwise_cons.mpr ⟨fun c hc => ?_, hl⟩
          rcases List.mem_cons.mp hc with rfl | hc
          · exact hlt
          · exact hlt.trans (b.addr_le_stop.trans_lt (hb.1 c hc))

/-- A block that begins in front of another, and shares no place with it. -/
theorem Disjoint.stop_le (h : a.Disjoint b) (hlt : a.addr < b.addr) : a.stop ≤ b.addr :=
  h.resolve_right fun h => absurd (b.addr_le_stop.trans h) (not_le.mpr hlt)

/-- Extents that are apart stay so with one more that meets none of them. -/
theorem apart_place (hl : Apart l) (hdisj : ∀ b ∈ l, x.Disjoint b) (hne : ∀ b ∈ l, x.addr ≠ b.addr) :
    Apart (x.place l) := by
  induction l with
  | nil => exact List.pairwise_singleton ..
  | cons b l ih =>
      have hb := List.pairwise_cons.mp hl
      rw [List.forall_mem_cons] at hne
      rw [place]
      split
      · next hlt =>
          refine apart_glue (fun c hc => (hdisj c hc).stop_le ?_) hl
          rcases List.mem_cons.mp hc with rfl | hc
          · exact hlt
          · exact hlt.trans (b.addr_le_stop.trans_lt (hb.1 c hc))
      · next hnlt =>
          rw [List.forall_mem_cons] at hdisj
          have hle : b.stop ≤ x.addr :=
            hdisj.1.symm.stop_le (lt_of_le_of_ne (not_lt.mp hnlt) (Ne.symm hne.1))
          exact apart_glue (forall_place (fun _ _ h _ _ => h) hle fun c hc => (hb.1 c hc).le)
            (ih hb.2 hdisj.2 hne.2)

/-- The units of all of them. -/
def units (l : List (Extent w)) : ℕ := (l.map size).sum

@[simp]
theorem units_nil : units ([] : List (Extent w)) = 0 := rfl

@[simp]
theorem units_cons (b : Extent w) (l : List (Extent w)) : units (b :: l) = b.size + units l := by
  simp [units]

@[simp]
theorem units_append (l l' : List (Extent w)) : units (l ++ l') = units l + units l' := by
  simp [units]

/-- Gluing loses no units. -/
theorem units_glue (a : Extent w) (l : List (Extent w)) : units (a.glue l) = a.size + units l := by
  cases l with
  | nil => simp [glue]
  | cons b l =>
      rw [glue]
      split
      · simp [join, Nat.add_assoc]
      · simp

/-- Placing loses no units. -/
theorem units_place (x : Extent w) (l : List (Extent w)) : units (x.place l) = x.size + units l := by
  induction l with
  | nil => simp [place]
  | cons b l ih =>
      rw [place]
      split
      · exact units_glue ..
      · rw [units_glue, ih, units_cons]
        omega

/-- The extent in front is there, perhaps larger. -/
theorem exists_mem_glue (a : Extent w) (l : List (Extent w)) :
    ∃ b ∈ a.glue l, b.addr = a.addr ∧ a.size ≤ b.size := by
  cases l with
  | nil => exact ⟨a, List.mem_singleton_self a, rfl, le_rfl⟩
  | cons b l =>
      rw [glue]
      split
      · exact ⟨_, List.mem_cons_self .., rfl, Nat.le_add_right ..⟩
      · exact ⟨a, List.mem_cons_self .., rfl, le_rfl⟩

/-- Gluing makes no extent smaller. -/
theorem exists_size_le_glue (a : Extent w) (hb : b ∈ l) : ∃ c ∈ a.glue l, b.size ≤ c.size := by
  cases l with
  | nil => cases hb
  | cons d l =>
      rw [glue]
      split
      · rcases List.mem_cons.mp hb with rfl | hb
        · exact ⟨_, List.mem_cons_self .., Nat.le_add_left ..⟩
        · exact ⟨b, List.mem_cons_of_mem _ hb, le_rfl⟩
      · exact ⟨b, List.mem_cons_of_mem _ hb, le_rfl⟩

/-- The inserted block is in one as large. -/
theorem exists_size_le_place (x : Extent w) (l : List (Extent w)) :
    ∃ c ∈ x.place l, x.size ≤ c.size := by
  induction l with
  | nil => exact ⟨x, List.mem_singleton_self x, le_rfl⟩
  | cons b l ih =>
      rw [place]
      split
      · obtain ⟨c, hc, -, hle⟩ := exists_mem_glue x (b :: l)
        exact ⟨c, hc, hle⟩
      · obtain ⟨c, hc, hle⟩ := ih
        obtain ⟨d, hd, hle'⟩ := exists_size_le_glue b hc
        exact ⟨d, hd, hle.trans hle'⟩

/-- The place of a block is behind `b`, the last that begins in front of it. -/
theorem place_split {l' : List (Extent w)} (hl : Apart (l ++ b :: l')) (hb : b.addr < x.addr)
    (hl' : ∀ c ∈ l', x.addr < c.addr) : x.place (l ++ b :: l') = l ++ b.glue (x.glue l') := by
  induction l with
  | nil =>
      have hplace : x.place l' = x.glue l' := by
        cases l' with
        | nil => rfl
        | cons c l' => exact if_pos (hl' c (List.mem_cons_self ..))
      rw [List.nil_append, place, if_neg hb.not_gt, hplace, List.nil_append]
  | cons c l ih =>
      rw [List.cons_append, Apart, List.pairwise_cons] at hl
      have hcx : c.stop < x.addr :=
        (hl.1 b (List.mem_append_right _ (List.mem_cons_self ..))).trans hb
      have hne : ∀ e ∈ x.place (l ++ b :: l'), c.stop ≠ e.addr := fun e he =>
        (forall_place (fun _ _ h _ _ => h) hcx hl.1 e he).ne
      rw [List.cons_append, place, if_neg (c.addr_le_stop.trans_lt hcx).not_gt, glue_of_ne hne,
        ih hl.2, List.cons_append]

/-- A part of a block shares no place with what the block shares none with. -/
theorem Disjoint.mono {y : Extent w} (h : b.Disjoint x) (hlo : b.addr ≤ y.addr) (hhi : y.stop ≤ b.stop) :
    y.Disjoint x :=
  h.imp hhi.trans fun h => h.trans hlo

theorem Apart.disjoint (h : Apart l) : l.Pairwise Disjoint := h.imp fun h => .inl h.le

/-- Joining two blocks that touch takes no place that neither had. -/
theorem Disjoint.join (ha : x.Disjoint a) (hb : x.Disjoint b) (h : a.stop = b.addr)
    (hx : x.addr < x.stop) : x.Disjoint (a.join b) := by
  have hj := stop_join h
  rcases ha with ha | ha
  · exact .inl ha
  · rcases hb with hb | hb
    · exact absurd (hx.trans_le (hb.trans (h ▸ ha))) (lt_irrefl _)
    · exact .inr (hj ▸ hb)

end Extent

end Lib
