import Mathlib.Data.List.Basic
import Mathlib.Data.List.Nodup
import Mathlib.Data.List.Range
import Mathlib.Logic.Function.Iterate

/-!
# Library — circular doubly linked lists with a sentinel

The nodes of a list have two pointers each, and one node, the sentinel, stands for its ends.

* `Seg l a xs c` — from `a` the nodes `xs` lead to `c`, linked both ways.
* `Ring l h xs` — the nodes `xs` lead from the sentinel `h` back to it, each once.
* `Ring.insert`, `Ring.unlink` — the two edits, as the assignments that make them.
* `Ring.visits`, `Ring.reverse` — following the pointers visits the nodes in order and ends at the
  sentinel; backwards, in the reverse order.
* `Ring.search` — a search along the pointers finds what a search of the list finds.
-/

namespace Lib

variable {α : Type*}

/-- The pointers of the nodes. -/
@[ext]
structure Links (α : Type*) where
  next : α → α
  prev : α → α

namespace Links

section

variable [DecidableEq α]

/-- `a->next = b`. -/
def setNext (l : Links α) (a b : α) : Links α := { l with next := Function.update l.next a b }

/-- `a->prev = b`. -/
def setPrev (l : Links α) (a b : α) : Links α := { l with prev := Function.update l.prev a b }

/-- `b` is taken out: its neighbours point past it. -/
def unlink (l : Links α) (b : α) : Links α :=
  let l := l.setPrev (l.next b) (l.prev b)
  l.setNext (l.prev b) (l.next b)

/-- `b` is put behind `h`. -/
def insert (l : Links α) (h b : α) : Links α :=
  let l := l.setNext b (l.next h)
  let l := l.setPrev b h
  let l := l.setPrev (l.next h) b
  l.setNext h b

end

/-- The pointers the other way round. -/
def flip (l : Links α) : Links α := ⟨l.prev, l.next⟩

/-- From `a` the nodes `xs` lead to `c`. -/
def Seg (l : Links α) : α → List α → α → Prop
  | a, [], c => l.next a = c ∧ l.prev c = a
  | a, x :: xs, c => (l.next a = x ∧ l.prev x = a) ∧ l.Seg x xs c

variable {l l' : Links α} {a b c h x : α} {xs us vs : List α}

theorem seg_append :
    l.Seg a (us ++ b :: vs) c ↔ l.Seg a us b ∧ l.Seg b vs c := by
  induction us generalizing a with
  | nil => exact Iff.rfl
  | cons u us ih =>
      rw [List.cons_append, Seg, Seg, ih, and_assoc, and_assoc, and_assoc]

/-- A segment reads `next` of its nodes but the last and `prev` of its nodes but the first. -/
theorem Seg.congr (hs : l.Seg a xs c) (hnext : ∀ x ∈ a :: xs, l'.next x = l.next x)
    (hprev : ∀ x ∈ xs ++ [c], l'.prev x = l.prev x) : l'.Seg a xs c := by
  induction xs generalizing a with
  | nil =>
      rw [Seg, hnext a (List.mem_cons_self ..), hprev c (List.mem_cons_self ..)]
      exact hs
  | cons x xs ih =>
      obtain ⟨hax, hs⟩ := hs
      refine ⟨?_, ih hs (fun y hy => hnext y (List.mem_cons_of_mem _ hy))
        fun y hy => hprev y (List.mem_cons_of_mem _ hy)⟩
      rw [hnext a (List.mem_cons_self ..), hprev x (List.mem_cons_self ..)]
      exact hax

theorem Seg.next_mem (hs : l.Seg a xs c) : l.next a ∈ xs ++ [c] := by
  cases xs with
  | nil => exact List.mem_singleton.mpr hs.1
  | cons x xs => exact hs.1.1 ▸ List.mem_cons_self ..

theorem Seg.prev_mem (hs : l.Seg a xs c) : l.prev c ∈ a :: xs := by
  induction xs generalizing a with
  | nil => exact hs.2 ▸ List.mem_cons_self ..
  | cons x xs ih => exact List.mem_cons_of_mem _ (ih hs.2)

theorem Seg.flip (hs : l.Seg a xs c) : l.flip.Seg c xs.reverse a := by
  induction xs generalizing a with
  | nil => exact hs.symm
  | cons x xs ih =>
      rw [List.reverse_cons]
      exact seg_append.mpr ⟨ih hs.2, hs.1.symm⟩

section

variable [DecidableEq α]

theorem unlink_next (l : Links α) (b : α) :
    (l.unlink b).next = Function.update l.next (l.prev b) (l.next b) := by
  have hprev : Function.update l.prev (l.next b) (l.prev b) b = l.prev b := by
    rw [Function.update_apply]
    split <;> rfl
  rw [unlink, setNext, setPrev]
  dsimp only
  rw [hprev]

theorem unlink_prev (l : Links α) (b : α) :
    (l.unlink b).prev = Function.update l.prev (l.next b) (l.prev b) := rfl

theorem insert_next (l : Links α) (h b : α) :
    (l.insert h b).next = Function.update (Function.update l.next b (l.next h)) h b := rfl

theorem insert_prev (l : Links α) (hne : h ≠ b) :
    (l.insert h b).prev = Function.update (Function.update l.prev b h) (l.next h) b := by
  rw [insert, setNext, setPrev, setPrev, setNext]
  dsimp only
  rw [Function.update_of_ne hne]

/-- What follows the node taken out is linked to what is before it. -/
theorem Seg.unlink (hn : (a :: us ++ b :: vs).Nodup) (hc : c ∉ us ++ b :: vs) (hus : l.Seg a us b)
    (hvs : l.Seg b vs c) : (l.unlink b).Seg a (us ++ vs) c := by
  have hnext := hvs.next_mem
  induction us generalizing a with
  | nil =>
      obtain ⟨hab, hba⟩ := hus
      rw [List.nil_append] at hc
      cases vs with
      | nil =>
          refine ⟨?_, ?_⟩
          · rw [unlink_next, hba, Function.update_self]
            exact hvs.1
          · rw [unlink_prev, hvs.1, Function.update_self, hba]
      | cons v vs =>
          obtain ⟨⟨hbv, -⟩, hvs⟩ := hvs
          simp only [List.cons_append, List.nil_append, List.nodup_cons, List.mem_cons, not_or] at hn hc
          refine ⟨⟨?_, ?_⟩, hvs.congr (fun x hx => ?_) fun x hx => ?_⟩
          · rw [unlink_next, hba, Function.update_self, hbv]
          · rw [unlink_prev, hbv, Function.update_self, hba]
          · rw [unlink_next, hba, Function.update_of_ne]
            rintro rfl
            rcases List.mem_cons.mp hx with hx | hx
            · exact hn.1.2.1 hx
            · exact hn.1.2.2 hx
          · rw [unlink_prev, hbv, Function.update_of_ne]
            rintro rfl
            rcases List.mem_append.mp hx with hx | hx
            · exact hn.2.2.1 hx
            · exact hc.2.1 (List.mem_singleton.mp hx).symm
  | cons u us ih =>
      obtain ⟨⟨hau, hua⟩, hus⟩ := hus
      have hprev := hus.prev_mem
      rw [List.cons_append, List.cons_append, List.nodup_cons] at hn
      rw [List.cons_append, List.mem_cons, not_or] at hc
      refine ⟨⟨?_, ?_⟩, ih hn.2 hc.2 hus⟩
      · rw [unlink_next, Function.update_of_ne, hau]
        intro he
        exact hn.1 (List.mem_append_left (b :: vs) (he ▸ hprev))
      · rw [unlink_prev, Function.update_of_ne, hua]
        intro he
        rcases List.mem_append.mp (he ▸ hnext) with hm | hm
        · exact (List.nodup_cons.mp hn.2).1 (List.mem_append_right us (List.mem_cons_of_mem b hm))
        · exact hc.1 (List.mem_singleton.mp hm).symm

end

/-! ### Rings -/

/-- The nodes `xs` lead from the sentinel back to it, each once. -/
structure Ring (l : Links α) (h : α) (xs : List α) : Prop where
  nodup : (h :: xs).Nodup
  seg : l.Seg h xs h

theorem Ring.reverse (hr : l.Ring h xs) : l.flip.Ring h xs.reverse where
  nodup := List.nodup_cons.mpr ⟨fun hm => (List.nodup_cons.mp hr.nodup).1 (List.mem_reverse.mp hm),
    List.nodup_reverse.mpr (List.nodup_cons.mp hr.nodup).2⟩
  seg := hr.seg.flip

section

variable [DecidableEq α]

theorem Ring.nil (l : Links α) (h : α) : ((l.setPrev h h).setNext h h).Ring h [] where
  nodup := List.nodup_singleton h
  seg := ⟨Function.update_self .., Function.update_self ..⟩

/-- A node put behind the sentinel is first. -/
theorem Ring.insert (hr : l.Ring h xs) (hb : b ∉ h :: xs) : (l.insert h b).Ring h (b :: xs) := by
  have hne : h ≠ b := fun he => hb (he ▸ List.mem_cons_self ..)
  have hbxs : b ∉ xs := fun hm => hb (List.mem_cons_of_mem h hm)
  obtain ⟨hh, hxs⟩ := List.nodup_cons.mp hr.nodup
  refine ⟨List.nodup_cons.mpr ⟨List.not_mem_cons_of_ne_of_not_mem hne hh,
    List.nodup_cons.mpr ⟨hbxs, hxs⟩⟩, ⟨?_, ?_⟩, ?_⟩
  · rw [insert_next, Function.update_self]
  · have hnext := hr.seg.next_mem
    rw [insert_prev l hne, Function.update_of_ne, Function.update_self]
    rintro rfl
    rcases List.mem_append.mp hnext with hm | hm
    · exact hbxs hm
    · exact hne (List.mem_singleton.mp hm).symm
  · have hs := hr.seg
    cases xs with
    | nil =>
        refine ⟨?_, ?_⟩
        · rw [insert_next, Function.update_of_ne hne.symm, Function.update_self]
          exact hs.1
        · rw [insert_prev l hne, hs.1, Function.update_self]
    | cons x xs =>
        obtain ⟨⟨hhx, -⟩, hs⟩ := hs
        have hhne : ∀ y ∈ x :: xs, y ≠ h := fun y hy he => hh (he ▸ hy)
        have hbne : ∀ y ∈ x :: xs, y ≠ b := fun y hy he => hbxs (he ▸ hy)
        refine ⟨⟨?_, ?_⟩, hs.congr (fun y hy => ?_) fun y hy => ?_⟩
        · rw [insert_next, Function.update_of_ne hne.symm, Function.update_self, hhx]
        · rw [insert_prev l hne, hhx, Function.update_self]
        · rw [insert_next, Function.update_of_ne (hhne y hy), Function.update_of_ne (hbne y hy)]
        · have hyb : y ≠ b ∧ y ≠ x := by
            rcases List.mem_append.mp hy with hm | hm
            · refine ⟨hbne y (List.mem_cons_of_mem x hm), ?_⟩
              rintro rfl
              exact (List.nodup_cons.mp hxs).1 hm
            · rw [List.mem_singleton.mp hm]
              exact ⟨hne, (hhne x (List.mem_cons_self ..)).symm⟩
          rw [insert_prev l hne, hhx, Function.update_of_ne hyb.2, Function.update_of_ne hyb.1]

/-- A node taken out is left out, and the others keep their order. -/
theorem Ring.unlink (hr : l.Ring h xs) (hb : b ∈ xs) : (l.unlink b).Ring h (xs.erase b) := by
  obtain ⟨us, vs, rfl⟩ := List.append_of_mem hb
  obtain ⟨hh, hxs⟩ := List.nodup_cons.mp hr.nodup
  have hbus : b ∉ us := fun hm => (List.nodup_append.mp hxs).2.2 b hm b (List.mem_cons_self ..) rfl
  obtain ⟨hus, hvs⟩ := seg_append.mp hr.seg
  rw [List.erase_append_right _ hbus, List.erase_cons_head]
  refine ⟨hr.nodup.sublist ?_, hus.unlink hr.nodup hh hvs⟩
  exact ((List.sublist_cons_self b vs).append_left us).cons_cons h

end

/-! ### Following the pointers -/

/-- The first `n` nodes met by following the pointers `f` from `h`. -/
def visits (f : α → α) (h : α) (n : ℕ) : List α := (List.range n).map fun k => f^[k + 1] h

theorem visits_succ (f : α → α) (h : α) (n : ℕ) : visits f h (n + 1) = f h :: visits f (f h) n := by
  rw [visits, List.range_succ_eq_map, List.map_cons, List.map_map]
  rfl

/-- A walk over a segment visits its elements. -/
theorem Seg.visits (hs : l.Seg a xs c) :
    Links.visits l.next a xs.length = xs ∧ l.next^[xs.length + 1] a = c := by
  induction xs generalizing a with
  | nil => exact ⟨rfl, hs.1⟩
  | cons x xs ih =>
      obtain ⟨hv, hc⟩ := ih hs.2
      rw [List.length_cons, visits_succ, Function.iterate_succ_apply, hs.1.1]
      exact ⟨by rw [hv], hc⟩

/-- **Following `next` from the sentinel visits the nodes in order and returns**; following `prev`
visits them in the reverse order. -/
theorem Ring.visits (hr : l.Ring h xs) :
    (Links.visits l.next h xs.length = xs ∧ l.next^[xs.length + 1] h = h) ∧
      Links.visits l.prev h xs.length = xs.reverse ∧ l.prev^[xs.length + 1] h = h := by
  have hrev := hr.reverse.seg.visits
  rw [List.length_reverse] at hrev
  exact ⟨hr.seg.visits, hrev⟩

section

variable [DecidableEq α]

/-- `for (b = b₀; b != h; b = f b) if (p(b)) return b;`, in `n` passes at most.  The inner `none` is
a search in vain. -/
def search (f : α → α) (h : α) (p : α → Bool) : ℕ → α → Option (Option α)
  | 0, _ => none
  | n + 1, b => if b = h then some none else if p b then some (some b) else search f h p n (f b)

/-- The search along the links finds the first that has the property. -/
theorem Seg.search (hs : l.Seg a xs c) (hc : c ∉ xs) (p : α → Bool) {n : ℕ} (hn : xs.length < n) :
    Links.search l.next c p n (l.next a) = some (xs.find? p) := by
  induction xs generalizing a n with
  | nil =>
      cases n with
      | zero => cases hn
      | succ n => rw [Links.search, if_pos hs.1, List.find?_nil]
  | cons x xs ih =>
      cases n with
      | zero => cases hn
      | succ n =>
          obtain ⟨hcx, hc⟩ := List.ne_and_not_mem_of_not_mem_cons hc
          rw [Links.search, hs.1.1, if_neg hcx.symm, List.find?_cons]
          cases hp : p x with
          | true => exact if_pos rfl
          | false => exact (if_neg Bool.false_ne_true).trans (ih hs.2 hc (Nat.lt_of_succ_lt_succ hn))

/-- A search along `next` searches the nodes in order, one along `prev` in the reverse order. -/
theorem Ring.search (hr : l.Ring h xs) (p : α → Bool) {n : ℕ} (hn : xs.length < n) :
    Links.search l.next h p n (l.next h) = some (xs.find? p) ∧
      Links.search l.prev h p n (l.prev h) = some (xs.reverse.find? p) := by
  have hh := (List.nodup_cons.mp hr.nodup).1
  exact ⟨hr.seg.search hh p hn, hr.reverse.seg.search (fun hm => hh (List.mem_reverse.mp hm)) p
    (by rwa [List.length_reverse])⟩

end

end Links

end Lib
