import Mathlib.Data.Fintype.Card
import Mathlib.Logic.Function.Basic

/-!
# Library — a queue threaded through its elements

A `Fifo` is a pointer to the first element and, in every element, a pointer to the next; the last
element's pointer is null.  `Queues q xs`: the pointers run through `xs`.

* `insert` — the insertion at the end, by a walk over the addresses of the pointers (`Slot`).
* `Queues.insert` — it appends a new element; the walk ends within as many steps as there are
  elements.
* `Queues.remove` — the step of the first pointer to the second element removes the first.
-/

namespace Lib

/-- The pointers: the first, and one in every element. -/
structure Fifo (α : Type*) where
  head : Option α
  next : α → Option α

/-- The address of a pointer. -/
inductive Slot (α : Type*) where
  | head
  | next (x : α)

namespace Fifo

variable {α : Type*} {q q' : Fifo α} {x : α} {xs ys : List α}

/-- A queue with nothing in it. -/
def empty : Fifo α := ⟨none, fun _ => none⟩

/-- `*pp` -/
def get (q : Fifo α) : Slot α → Option α
  | .head => q.head
  | .next x => q.next x

/-- `for (; *pp; pp = &(*pp)->next) ;`, with the address it stops at. -/
def last (q : Fifo α) : ℕ → Slot α → Option (Slot α)
  | 0, _ => none
  | fuel + 1, pp =>
      match q.get pp with
      | none => some pp
      | some x => q.last fuel (.next x)

/-- `head = x->next` -/
def remove (q : Fifo α) (x : α) : Fifo α := { q with head := q.next x }

/-! ### The elements of a queue -/

/-- From `p` on the pointers run through `xs` and end. -/
def Chain (next : α → Option α) : Option α → List α → Prop
  | p, [] => p = none
  | p, x :: xs => p = some x ∧ Chain next (next x) xs

/-- The queue holds these, in order. -/
def Queues (q : Fifo α) (xs : List α) : Prop := Chain q.next q.head xs

/-- A chain is determined by its beginning. -/
theorem Chain.unique {next : α → Option α} {p : Option α} (h : Chain next p xs) :
    ∀ {ys}, Chain next p ys → xs = ys := by
  induction xs generalizing p with
  | nil =>
      intro ys hy
      cases ys with
      | nil => rfl
      | cons y ys => exact absurd (h.symm.trans hy.1) (by simp)
  | cons x xs ih =>
      intro ys hy
      cases ys with
      | nil => exact absurd (hy.symm.trans h.1) (by simp)
      | cons y ys =>
          obtain rfl : x = y := Option.some.inj (h.1.symm.trans hy.1)
          rw [ih h.2 hy.2]

/-- The rest of a chain, from any of its elements on. -/
theorem Chain.drop {next : α → Option α} {p : Option α} {zs : List α}
    (h : Chain next p (xs ++ x :: zs)) : Chain next (next x) zs := by
  induction xs generalizing p with
  | nil => exact h.2
  | cons y ys ih => exact ih h.2

/-- **No element occurs twice**: what follows an element is determined by it. -/
theorem Chain.nodup {next : α → Option α} {p : Option α} (h : Chain next p xs) : xs.Nodup := by
  induction xs generalizing p with
  | nil => exact List.nodup_nil
  | cons x xs ih =>
      refine List.nodup_cons.mpr ⟨fun hx => ?_, ih h.2⟩
      obtain ⟨ys, zs, rfl⟩ := List.append_of_mem hx
      have : ys ++ x :: zs = zs := h.2.unique h.2.drop
      have := congrArg List.length this
      simp only [List.length_append, List.length_cons] at this
      omega

theorem Queues.nodup (h : q.Queues xs) : xs.Nodup := Chain.nodup h

theorem Queues.length_le [Fintype α] (h : q.Queues xs) : xs.length ≤ Fintype.card α :=
  h.nodup.length_le_card

/-! ### The operations -/

/-- The address of the pointer that ends a chain whose first pointer is at `pp`. -/
def slot (pp : Slot α) : List α → Slot α
  | [] => pp
  | x :: xs => slot (.next x) xs

theorem slot_next (y : α) : ∃ w, slot (.next y) xs = .next w ∧ w ∈ y :: xs := by
  induction xs generalizing y with
  | nil => exact ⟨y, rfl, List.mem_cons_self⟩
  | cons x xs ih =>
      obtain ⟨w, hw, hm⟩ := ih x
      exact ⟨w, hw, List.mem_cons_of_mem _ hm⟩

/-- The walk stops at the last pointer. -/
theorem last_eq {fuel : ℕ} {pp : Slot α} (h : Chain q.next (q.get pp) xs)
    (hf : xs.length < fuel) : q.last fuel pp = some (slot pp xs) := by
  induction xs generalizing fuel pp with
  | nil =>
      obtain ⟨n, rfl⟩ := Nat.exists_eq_add_of_lt hf
      have h : q.get pp = none := h
      simp [last, h, slot]
  | cons x xs ih =>
      obtain ⟨n, rfl⟩ : ∃ n, fuel = n + 1 := ⟨fuel - 1, by omega⟩
      simp only [last, h.1, slot]
      exact ih h.2 (by simpa using hf)

/-- **Removal of the first element.** -/
theorem Queues.remove (h : q.Queues (x :: xs)) : (q.remove x).Queues xs := h.2

variable [DecidableEq α]

/-- `*pp = p` -/
def set (q : Fifo α) (pp : Slot α) (p : Option α) : Fifo α :=
  match pp with
  | .head => { q with head := p }
  | .next x => { q with next := Function.update q.next x p }

/-- `x->next = 0`, the walk from `&head`, and `*pp = x`. -/
def insert (q : Fifo α) (fuel : ℕ) (x : α) : Option (Fifo α) :=
  let q := q.set (.next x) none
  (q.last fuel .head).map fun pp => q.set pp (some x)

/-- The pointer of an element outside a chain is no part of it. -/
theorem Chain.update {next : α → Option α} {p v : Option α} (hx : x ∉ xs) :
    Chain (Function.update next x v) p xs ↔ Chain next p xs := by
  induction xs generalizing p with
  | nil => rfl
  | cons y ys ih =>
      have hy : y ≠ x := fun e => hx (e ▸ List.mem_cons_self)
      simp only [Chain, Function.update_of_ne hy, ih fun h => hx (List.mem_cons_of_mem _ h)]

theorem get_set_self (pp : Slot α) (p : Option α) : (q.set pp p).get pp = p := by
  cases pp with
  | head => rfl
  | next y => exact Function.update_self ..

theorem get_set_of_ne {pp pp' : Slot α} (h : pp' ≠ pp) (p : Option α) :
    (q.set pp p).get pp' = q.get pp' := by
  cases pp with
  | head =>
      cases pp' with
      | head => exact absurd rfl h
      | next y => rfl
  | next z =>
      cases pp' with
      | head => rfl
      | next y => exact Function.update_of_ne (fun e => h (by rw [e])) _ _

/-- A chain grows by what its last pointer is set to.  The induction goes from pointer to
pointer; each lies before the one that is set. -/
theorem Chain.extend {pp : Slot α} (h : Chain q.next (q.get pp) xs) (hpp : ∀ y ∈ xs, pp ≠ .next y)
    (hx : x ∉ xs) (hxp : pp ≠ .next x) (hnx : q.next x = none) :
    Chain (q.set (slot pp xs) (some x)).next ((q.set (slot pp xs) (some x)).get pp)
      (xs ++ [x]) := by
  induction xs generalizing pp with
  | nil =>
      refine ⟨get_set_self .., ?_⟩
      exact (get_set_of_ne (q := q) (Ne.symm hxp) (some x)).trans hnx
  | cons y ys ih =>
      have hnd := List.nodup_cons.mp h.nodup
      obtain ⟨w, hw, hm⟩ := @slot_next _ ys y
      refine ⟨?_, ih h.2 (fun z hz e => hnd.1 ?_) (fun hm => hx (List.mem_cons_of_mem _ hm))
        (fun e => hx ?_)⟩
      · rw [slot, hw, get_set_of_ne (hpp w hm)]
        exact h.1
      · cases e; exact hz
      · cases e; exact List.mem_cons_self

/-- **Insertion**, with fuel for every element. -/
theorem Queues.insert [Fintype α] (h : q.Queues xs) (hx : x ∉ xs) :
    ∃ q', q.insert (Fintype.card α + 1) x = some q' ∧ q'.Queues (xs ++ [x]) := by
  have h' : Chain (q.set (.next x) none).next ((q.set (.next x) none).get .head) xs :=
    (Chain.update hx).mpr h
  refine ⟨_, ?_, Chain.extend h' nofun hx nofun (Function.update_self ..)⟩
  rw [Fifo.insert, last_eq h' (Nat.lt_succ_of_le h.length_le)]
  rfl

end Fifo

end Lib
