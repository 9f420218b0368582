import Mathlib.Algebra.Order.Ring.Int
import Mathlib.Data.List.Basic
import Mathlib.Data.List.Flatten

/-!
# Library — the lines of a stream

A stream is cut at a separator: `split sep s` is the lines that end in `s`, without their
separators, and the rest behind the last one; `join sep ls` puts lines together again.

* `split_join`, `join_split` — the two are inverse to each other.
* `split_append` — a stream may be split piece by piece, if the rest of a piece is put before the
  next one.
-/

namespace Lib.Lines

variable {α : Type*} [DecidableEq α] {sep : α} {s t l : List α} {ls : List (List α)}

/-- The lines that end with `sep`, and what is left. -/
def split (sep : α) : List α → List (List α) × List α
  | [] => ([], [])
  | b :: s =>
      if b = sep then ([] :: (split sep s).1, (split sep s).2)
      else
        match (split sep s).1 with
        | [] => ([], b :: (split sep s).2)
        | l :: ls => ((b :: l) :: ls, (split sep s).2)

/-- The lines, each with its `sep`. -/
def join (sep : α) (ls : List (List α)) : List α := (ls.map (· ++ [sep])).flatten

omit [DecidableEq α] in
@[simp]
theorem join_nil (sep : α) : join sep [] = [] := rfl

omit [DecidableEq α] in
theorem join_cons (sep : α) (l : List α) (ls : List (List α)) :
    join sep (l :: ls) = l ++ sep :: join sep ls := by
  rw [join, List.map_cons, List.flatten_cons, List.append_assoc]
  rfl

theorem split_of_not_mem (h : sep ∉ s) : split sep s = ([], s) := by
  induction s with
  | nil => rfl
  | cons b s ih =>
      obtain ⟨hb, hs⟩ := List.ne_and_not_mem_of_not_mem_cons h
      rw [split, if_neg hb.symm, ih hs]

theorem split_line (h : sep ∉ l) (s : List α) :
    split sep (l ++ sep :: s) = (l :: (split sep s).1, (split sep s).2) := by
  induction l with
  | nil => exact if_pos rfl
  | cons b l ih =>
      obtain ⟨hb, hl⟩ := List.ne_and_not_mem_of_not_mem_cons h
      rw [List.cons_append, split, if_neg hb.symm, ih hl]

theorem split_join (h : ∀ l ∈ ls, sep ∉ l) (ht : sep ∉ t) :
    split sep (join sep ls ++ t) = (ls, t) := by
  induction ls with
  | nil => exact split_of_not_mem ht
  | cons l ls ih =>
      rw [List.forall_mem_cons] at h
      rw [join_cons, List.append_assoc, List.cons_append, split_line h.1, ih h.2]

/-- No line has a separator, nor has the rest, and together they are the stream. -/
theorem join_split (sep : α) (s : List α) : join sep (split sep s).1 ++ (split sep s).2 = s ∧
    (∀ l ∈ (split sep s).1, sep ∉ l) ∧ sep ∉ (split sep s).2 := by
  induction s with
  | nil => exact ⟨rfl, fun l hl => absurd hl List.not_mem_nil, List.not_mem_nil⟩
  | cons b s ih =>
      obtain ⟨hs, hls, ht⟩ := ih
      rw [split]
      split
      · rename_i hb
        refine ⟨?_, List.forall_mem_cons.mpr ⟨List.not_mem_nil, hls⟩, ht⟩
        rw [join_cons, List.nil_append, List.cons_append, hs, hb]
      · rename_i hb
        cases hspl : (split sep s).1 with
        | nil =>
            rw [hspl] at hs
            refine ⟨congrArg (b :: ·) hs, fun l hl => absurd hl List.not_mem_nil, ?_⟩
            exact List.not_mem_cons_of_ne_of_not_mem (Ne.symm hb) ht
        | cons l ls =>
            rw [hspl, join_cons] at hs
            rw [hspl, List.forall_mem_cons] at hls
            refine ⟨?_, List.forall_mem_cons.mpr ⟨?_, hls.2⟩, ht⟩
            · rw [join_cons, List.cons_append, List.cons_append, hs]
            · exact List.not_mem_cons_of_ne_of_not_mem (Ne.symm hb) hls.1

/-- **Piece by piece**: the rest of a piece belongs before the next one. -/
theorem split_append (sep : α) (s t : List α) : split sep (s ++ t) =
    ((split sep s).1 ++ (split sep ((split sep s).2 ++ t)).1,
      (split sep ((split sep s).2 ++ t)).2) := by
  obtain ⟨hs, hls, -⟩ := join_split sep s
  obtain ⟨ht, hls', hr⟩ := join_split sep ((split sep s).2 ++ t)
  have happ : s ++ t = join sep ((split sep s).1 ++ (split sep ((split sep s).2 ++ t)).1) ++
      (split sep ((split sep s).2 ++ t)).2 := by
    rw [join, List.map_append, List.flatten_append, ← join, ← join, List.append_assoc, ht,
      ← List.append_assoc, hs]
  have hall := List.forall_mem_append.mpr ⟨hls, hls'⟩
  calc split sep (s ++ t) = split sep (join sep ((split sep s).1 ++ _) ++ _) := congrArg _ happ
    _ = _ := split_join hall hr

/-- How many elements the lines and the rest have, with the separators. -/
theorem length_split (sep : α) (s : List α) :
    ((split sep s).1.map fun l => l.length + 1).sum + (split sep s).2.length = s.length := by
  have h := congrArg List.length (join_split sep s).1
  rw [List.length_append, join, List.length_flatten, List.map_map] at h
  rw [← h]
  congr 3
  funext l
  rw [Function.comp_apply, List.length_append, List.length_singleton]

end Lib.Lines
