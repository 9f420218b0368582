import Xv6.Uvm.Pages
import Mathlib.Data.Nat.Find

/-!
# Address spaces — `copyout`

`copyout` copies a page at a time, and asks `uva2ka` where each page is.  `uva2ka` follows the
entry that `walkpgdir` returns without a look whether there is one: what `copyout` does depends on
the first page of the range that is not the user's.

* `stored` — the memory with the bytes of the range written, one after another.
* `copyout_all` — every page is the user's: the bytes are written, and nothing else.
* `copyout_stops` — the first page that is not has a table: `-1`.
* `copyout_fault` — it has none: a null pointer is followed.
* `copyout_exact_iff`.
-/

namespace Xv6.Uvm

open Vm (Page Kmem Panic PGSIZE KERNBASE PDX PGROUNDDOWN)

variable {s : Machine} {d : Pgdir} {va len n : ℕ} {p : ℕ → UInt8} {ram : ℕ → UInt8}

/-- The page of `va` has a table, is present, and is the user's. -/
def UserPage (d : Pgdir) (va : ℕ) : Prop :=
  ∃ e, d.lookup va = some e ∧ e.has PTE_P = true ∧ e.has PTE_U = true

/-- Byte `i` of the range at `va`. -/
def nth (va i : ℕ) : ℕ := (va + i) % 2 ^ 32

/-- The bytes of `p` in the range at `va`, written one after another. -/
def stored (d : Pgdir) (va : ℕ) (p : ℕ → UInt8) (len : ℕ) (ram : ℕ → UInt8) : ℕ → UInt8 :=
  (List.range len).foldl (fun ram i => Function.update ram (d.phys (nth va i)) (p i)) ram

theorem userPage_congr {va vb : ℕ} (h : va / PGSIZE = vb / PGSIZE) :
    UserPage d va ↔ UserPage d vb := by
  rw [UserPage, UserPage, ← lookup_page d va, h, lookup_page]

/-! ### The bytes of one page -/

/-- Byte `i` is in the page of the first. -/
theorem nth_page (hva : va < 2 ^ 32) {i : ℕ} (hi : i < PGSIZE - va % PGSIZE) :
    nth va i = va + i ∧ nth va i / PGSIZE = va / PGSIZE := by
  simp only [nth, PGSIZE] at *
  omega

/-- The bytes that are left when the page of `va` is done. -/
theorem nth_next (va i : ℕ) :
    nth ((PGROUNDDOWN va + PGSIZE) % 2 ^ 32) i = nth va (PGSIZE - va % PGSIZE + i) := by
  simp only [nth, PGROUNDDOWN, PGSIZE]
  omega

theorem phys_nth (hva : va < 2 ^ 32) {i : ℕ} (hi : i < PGSIZE - va % PGSIZE) :
    d.phys (nth va i) = d.phys va + i := by
  obtain ⟨h₁, h₂⟩ := nth_page hva hi
  rw [Pgdir.phys, Pgdir.phys, entry_eq, h₂, ← entry_eq, h₁, Nat.add_assoc]
  congr 1
  have hpos : 0 < PGSIZE := by decide
  rw [Nat.add_mod, Nat.mod_eq_of_lt (show i < PGSIZE by omega), Nat.mod_eq_of_lt (by omega)]

/-- What is stored within one page. -/
theorem stored_page (hva : va < 2 ^ 32) (hn : n ≤ PGSIZE - va % PGSIZE) :
    stored d va p n ram = fun a =>
      if d.phys va ≤ a ∧ a < d.phys va + n then p (a - d.phys va) else ram a := by
  induction n with
  | zero =>
      funext a
      rw [if_neg (by omega)]
      rfl
  | succ n ih =>
      have hlast : stored d va p (n + 1) ram =
          Function.update (stored d va p n ram) (d.phys va + n) (p n) := by
        rw [stored, List.range_succ, List.foldl_append, List.foldl_cons, List.foldl_nil,
          phys_nth hva (by omega)]
        rfl
      rw [hlast, ih (by omega)]
      funext a
      by_cases ha : a = d.phys va + n
      · subst ha
        rw [Function.update_self, if_pos (by omega), Nat.add_sub_cancel_left]
      · rw [Function.update_of_ne ha]
        by_cases hin : d.phys va ≤ a ∧ a < d.phys va + n
        · rw [if_pos hin, if_pos (by omega)]
        · rw [if_neg hin, if_neg (by omega)]

/-- The range, the page of `va` first. -/
theorem stored_next (h : PGSIZE - va % PGSIZE ≤ len) :
    stored d va p len ram = stored d ((PGROUNDDOWN va + PGSIZE) % 2 ^ 32)
      (fun i => p (PGSIZE - va % PGSIZE + i)) (len - (PGSIZE - va % PGSIZE))
      (stored d va p (PGSIZE - va % PGSIZE) ram) := by
  conv_lhs => rw [← Nat.add_sub_of_le h]
  simp only [stored, List.range_add, List.foldl_append, List.foldl_map, nth_next]

/-! ### The loop -/

theorem uva2ka_user (h : UserPage d va) (s : Machine) :
    uva2ka d (PGROUNDDOWN va) s = .ok (some (d.entry va).addr, s) := by
  obtain ⟨e, hl, hP, hU⟩ := h
  rw [uva2ka, show PGROUNDDOWN va = va / PGSIZE * PGSIZE from rfl, lookup_page, hl]
  simp only [hP, hU, Bool.true_eq_false, if_false]
  rw [Pgdir.entry, hl]
  rfl

/-- A page that is not the user's, where there is a table. -/
theorem uva2ka_stops (h : ¬ UserPage d va) {e : Pte} (hl : d.lookup va = some e) (s : Machine) :
    uva2ka d (PGROUNDDOWN va) s = .ok (none, s) := by
  rw [uva2ka, show PGROUNDDOWN va = va / PGSIZE * PGSIZE from rfl, lookup_page, hl]
  cases hP : e.has PTE_P with
  | false => simp [hP]; rfl
  | true =>
      cases hU : e.has PTE_U with
      | false => simp [hP, hU]; rfl
      | true => exact absurd ⟨e, hl, hP, hU⟩ h

theorem uva2ka_fault (hl : d.lookup va = none) (s : Machine) :
    uva2ka d (PGROUNDDOWN va) s = .error .fault := by
  rw [uva2ka, show PGROUNDDOWN va = va / PGSIZE * PGSIZE from rfl, lookup_page, hl]
  rfl

theorem offset_eq (va : ℕ) : va - PGROUNDDOWN va = va % PGSIZE := by
  simp only [PGROUNDDOWN, PGSIZE]
  omega

/-- A pass over a page of the user. -/
theorem copyoutFrom_page (hva : va < 2 ^ 32) (hlen : 0 < len) (h : UserPage d va) (fuel : ℕ)
    (s : Machine) : copyoutFrom d (fuel + 1) va p len s =
      copyoutFrom d fuel ((PGROUNDDOWN va + PGSIZE) % 2 ^ 32)
        (fun i => p (min (PGSIZE - va % PGSIZE) len + i)) (len - min (PGSIZE - va % PGSIZE) len)
        { s with ram := stored d va p (min (PGSIZE - va % PGSIZE) len) s.ram } := by
  rw [copyoutFrom, if_pos hlen, stored_page hva (Nat.min_le_left _ _)]
  simp only [Bind.bind, StateT.bind, Except.bind, uva2ka_user h, memmove, offset_eq]
  rfl

/-- Where all bytes are the user's, all are stored. -/
theorem copyoutFrom_all (fuel : ℕ) : ∀ (va : ℕ) (p : ℕ → UInt8) (len : ℕ) (s : Machine),
    va < 2 ^ 32 → len ≤ fuel → (∀ i < len, UserPage d (nth va i)) →
      copyoutFrom d fuel va p len s = .ok (true, { s with ram := stored d va p len s.ram }) := by
  induction fuel with
  | zero =>
      intro va p len s _ hlen _
      obtain rfl : len = 0 := by omega
      rfl
  | succ fuel ih =>
      intro va p len s hva hlen hall
      by_cases hpos : 0 < len
      · have hoff : va % PGSIZE < PGSIZE := Nat.mod_lt _ (by decide)
        have h₀ : UserPage d va := by
          have := hall 0 hpos
          rwa [nth, Nat.add_zero, Nat.mod_eq_of_lt hva] at this
        rw [copyoutFrom_page hva hpos h₀]
        by_cases hle : PGSIZE - va % PGSIZE ≤ len
        · rw [min_eq_left hle, ih _ _ _ _ (Nat.mod_lt _ (by decide)) (by omega) fun i hi => ?_,
            stored_next hle]
          rw [nth_next]
          exact hall _ (by omega)
        · rw [min_eq_right (by omega), Nat.sub_self]
          cases fuel <;> rfl
      · obtain rfl : len = 0 := by omega
        rw [copyoutFrom, if_neg hpos]
        rfl

/-- What a copy comes to whose first `i` bytes only are in pages of the user. -/
def Ending (d : Pgdir) (va : ℕ) (r : Except Panic (Bool × Machine)) : Prop :=
  match d.lookup va with
  | some _ => ∃ t, r = .ok (false, t)
  | none => r = .error .fault

/-- At the first byte that is not the user's it ends. -/
theorem copyoutFrom_ending (fuel : ℕ) :
    ∀ (va : ℕ) (p : ℕ → UInt8) (len i : ℕ) (s : Machine), va < 2 ^ 32 → len ≤ fuel → i < len →
      (∀ j < i, UserPage d (nth va j)) → ¬ UserPage d (nth va i) →
        Ending d (nth va i) (copyoutFrom d fuel va p len s) := by
  induction fuel with
  | zero =>
      intro va p len i s _ hlen hi
      omega
  | succ fuel ih =>
      intro va p len i s hva hlen hi hall hno
      have hoff : va % PGSIZE < PGSIZE := Nat.mod_lt _ (by decide)
      have hzero : nth va 0 = va := by rw [nth, Nat.add_zero, Nat.mod_eq_of_lt hva]
      by_cases h₀ : UserPage d va
      · -- The page of `va` is the user's: the byte `i` is beyond it.
        have hle : PGSIZE - va % PGSIZE ≤ i := by
          by_contra hlt
          exact hno ((userPage_congr (nth_page hva (by omega)).2).mpr h₀)
        have hi' : PGSIZE - va % PGSIZE + (i - (PGSIZE - va % PGSIZE)) = i := by omega
        rw [copyoutFrom_page hva (by omega) h₀, min_eq_left (by omega)]
        have := ih ((PGROUNDDOWN va + PGSIZE) % 2 ^ 32) (fun j => p (PGSIZE - va % PGSIZE + j))
          (len - (PGSIZE - va % PGSIZE)) (i - (PGSIZE - va % PGSIZE))
          { s with ram := stored d va p (PGSIZE - va % PGSIZE) s.ram } (Nat.mod_lt _ (by decide))
          (by omega) (by omega) (fun j hj => by rw [nth_next]; exact hall _ (by omega))
          (by rwa [nth_next, hi'])
        rwa [nth_next, hi'] at this
      · obtain rfl : i = 0 := by
          by_contra hne
          exact h₀ (hzero ▸ hall 0 (by omega))
        rw [hzero, copyoutFrom, if_pos (by omega), Ending]
        cases hl : d.lookup va with
        | none =>
            simp only [Bind.bind, StateT.bind, Except.bind, uva2ka_fault hl]
        | some e =>
            refine ⟨s, ?_⟩
            simp only [Bind.bind, StateT.bind, Except.bind, uva2ka_stops h₀ hl]
            rfl

/-! ### `copyout` -/

/-- A byte that no address of the range leads to stays. -/
theorem stored_of_ne {a : ℕ} (h : ∀ i < len, d.phys (nth va i) ≠ a) : stored d va p len ram a = ram a := by
  induction len with
  | zero => rfl
  | succ len ih =>
      rw [stored, List.range_succ, List.foldl_append, List.foldl_cons, List.foldl_nil,
        Function.update_of_ne (h len (by omega)).symm]
      exact ih fun i hi => h i (by omega)

/-- A byte of the range is there, if no later address leads to the same place. -/
theorem stored_nth {i : ℕ} (hi : i < len)
    (h : ∀ j < len, i < j → d.phys (nth va j) ≠ d.phys (nth va i)) :
    stored d va p len ram (d.phys (nth va i)) = p i := by
  induction len with
  | zero => omega
  | succ len ih =>
      rw [stored, List.range_succ, List.foldl_append, List.foldl_cons, List.foldl_nil]
      by_cases hlast : i = len
      · subst hlast
        exact Function.update_self ..
      · rw [Function.update_of_ne (h len (by omega) (by omega)).symm]
        exact ih (by omega) fun j hj => h j (by omega)

theorem copyout_all (hva : va < 2 ^ 32) (h : ∀ i < len, UserPage d (nth va i)) (s : Machine) :
    copyout d va p len s = .ok (true, { s with ram := stored d va p len s.ram }) :=
  copyoutFrom_all len va p len s hva le_rfl h

/-- The first address of the range whose page is not the user's decides. -/
theorem copyout_ending {i : ℕ} (hva : va < 2 ^ 32) (hi : i < len)
    (h : ∀ j < i, UserPage d (nth va j)) (hno : ¬ UserPage d (nth va i)) (s : Machine) :
    Ending d (nth va i) (copyout d va p len s) :=
  copyoutFrom_ending len va p len i s hva le_rfl hi h hno

/-- `copyout` fails at the first page that is not the user's, where there is a table. -/
theorem copyout_stops {i : ℕ} (hva : va < 2 ^ 32) (hi : i < len)
    (h : ∀ j < i, UserPage d (nth va j)) (hno : ¬ UserPage d (nth va i))
    (hl : d.lookup (nth va i) ≠ none) (s : Machine) :
    ∃ t, copyout d va p len s = .ok (false, t) := by
  have hend := copyout_ending (p := p) hva hi h hno s
  unfold Ending at hend
  cases he : d.lookup (nth va i) with
  | none => exact absurd he hl
  | some e => rwa [he] at hend

/-- Where there is none, it faults. -/
theorem copyout_fault {i : ℕ} (hva : va < 2 ^ 32) (hi : i < len)
    (h : ∀ j < i, UserPage d (nth va j)) (hl : d.lookup (nth va i) = none) (s : Machine) :
    copyout d va p len s = .error .fault := by
  have hno : ¬ UserPage d (nth va i) := fun ⟨e, he, _⟩ => by
    rw [hl] at he
    cases he
  have hend := copyout_ending (p := p) hva hi h hno s
  rwa [Ending, hl] at hend

/-- What a copy is to do: it returns `0` if and only if every page of the range is the user's, with
the bytes of the range written and nothing else, and otherwise `-1`; no null pointer is followed. -/
def Exact (d : Pgdir) (va : ℕ) (p : ℕ → UInt8) (len : ℕ) (s : Machine) : Prop :=
  ∃ r t, copyout d va p len s = .ok (r, t) ∧ (r = true ↔ ∀ i < len, UserPage d (nth va i)) ∧
    (r = true → t = { s with ram := stored d va p len s.ram })

/-- The first page of the range that is not the user's, if there is one, has a table. -/
def Tabled (d : Pgdir) (va len : ℕ) : Prop :=
  ∀ i < len, (∀ j < i, UserPage d (nth va j)) → d.lookup (nth va i) ≠ none

/-- Where a table is there for every address of the range, `copyout` is exact. -/
theorem copyout_exact (hva : va < 2 ^ 32) (s : Machine) (ht : Tabled d va len) :
    Exact d va p len s := by
  by_cases hall : ∀ i < len, UserPage d (nth va i)
  · exact ⟨true, _, copyout_all hva hall s, iff_of_true rfl hall, fun _ => rfl⟩
  · obtain ⟨i, ⟨hi, hno⟩, hmin⟩ : ∃ i, (i < len ∧ ¬ UserPage d (nth va i)) ∧
        ∀ j < i, ¬ (j < len ∧ ¬ UserPage d (nth va j)) := by
      classical
      push Not at hall
      exact ⟨Nat.find hall, Nat.find_spec hall, fun j hj => Nat.find_min hall hj⟩
    have h : ∀ j < i, UserPage d (nth va j) := fun j hj => by
      by_contra hj'
      exact hmin j hj ⟨hj.trans hi, hj'⟩
    obtain ⟨t, hr⟩ := copyout_stops (p := p) hva hi h hno (ht i hi h) s
    exact ⟨false, t, hr, iff_of_false Bool.false_ne_true hall, fun hf => by cases hf⟩

/-- **`copyout` is exact as long as it meets no page without a table.** -/
theorem copyout_exact_iff (hva : va < 2 ^ 32) (s : Machine) :
    Exact d va p len s ↔ Tabled d va len := by
  refine ⟨?_, copyout_exact hva s⟩
  rintro ⟨r, t, hr, -, -⟩ i hi h hl
  rw [copyout_fault hva hi h hl] at hr
  cases hr

theorem copyout_exact_iff_small :
    Exact smallSpace 0 (fun _ => 1) 4097 smallMachine ↔ Tabled smallSpace 0 4097 :=
  copyout_exact_iff (by decide) smallMachine

/-- An argument of 40 MB does not fit below 8192: the stack pointer wraps. -/
theorem copyout_wrapped :
    ¬ Exact smallSpace ((8192 + 2 ^ 32 - 0x2802000) % 2 ^ 32) (fun _ => 1) 0x2802000 smallMachine := by
  rintro ⟨r, t, hr, -, -⟩
  have hl : smallSpace.lookup (nth ((8192 + 2 ^ 32 - 0x2802000) % 2 ^ 32) 0) = none := by decide
  rw [copyout_fault (by decide) (by decide) (fun j hj => absurd hj (Nat.not_lt_zero j)) hl] at hr
  cases hr

end Xv6.Uvm
