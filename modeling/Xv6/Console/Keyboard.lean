import Mathlib.Algebra.Group.Nat.Even
import Mathlib.Data.Int.Notation
import Mathlib.Data.List.TakeWhile
import Mathlib.Data.Nat.Notation
import Mathlib.Tactic.Common

/-!
# Console — the keyboard and `getch`

`kbdgetc` of `kbd.c`, with the tables of `kbd.h`: what it makes of a look at the two ports of the
keyboard, where `none` is a status register without data.  `consoleget` of `console.c` calls it
until it has a character; here it is given the values that the calls return, one after another, and
returns those it has left.

After a `0` `consoleget` calls `kbdgetc` a second time, and goes around the loop without a look at
what this call has returned.

* `consoleget_iff` — the first character is returned exactly if the run of `0`s before it is even.
* `getch_loses_no_key_iff` — no key is lost exactly if this holds of every character.
-/

namespace Xv6.Console

/-! ### `kbd.h` -/

/-- The bits of `shift` in `kbdgetc`. -/
def SHIFT : UInt8 := 0x01
def CTL : UInt8 := 0x02
def ALT : UInt8 := 0x04
def CAPSLOCK : UInt8 := 0x08
def NUMLOCK : UInt8 := 0x10
def SCROLLLOCK : UInt8 := 0x20
def E0ESC : UInt8 := 0x40

/-- A `uchar [256]` by its initializer: the entries from `0` on, and the designated ones. -/
def table (entries : List UInt8) (designated : List (UInt8 × UInt8)) (data : UInt8) : UInt8 :=
  (designated.lookup data).getD (entries.getD data.toNat 0)

/-- Characters as the keyboard tables hold them. -/
def codes (cs : List Char) : List UInt8 := cs.map fun c => UInt8.ofNat c.toNat

/-- `C(x)` for each of them. -/
def ctlCodes (cs : List Char) : List UInt8 := (codes cs).map (· - 64)

/-- The keys that are held. -/
def shiftcode : UInt8 → UInt8 :=
  table [] [(0x1D, CTL), (0x2A, SHIFT), (0x36, SHIFT), (0x38, ALT), (0x9D, CTL), (0xB8, ALT)]

/-- The keys that lock. -/
def togglecode : UInt8 → UInt8 :=
  table [] [(0x3A, CAPSLOCK), (0x45, NUMLOCK), (0x46, SCROLLLOCK)]

/-- The entries `KEY_UP` to `KEY_DEL`, the same in every map. -/
def specialKeys : List (UInt8 × UInt8) :=
  [(0xC8, 0xE2), (0xD0, 0xE3), (0xC9, 0xE6), (0xD1, 0xE7), (0xCB, 0xE4), (0xCD, 0xE5),
    (0x97, 0xE0), (0xCF, 0xE1), (0xD2, 0xE8), (0xD3, 0xE9)]

/-- The entries of the keypad, the same with and without shift. -/
def keypad : List UInt8 :=
  codes ['7', '8', '9', '-', '4', '5', '6', '+', '1', '2', '3', '0', '.']

/-- A key by itself. -/
def normalmap : UInt8 → UInt8 :=
  table
    ([0, 0x1B] ++ codes ['1', '2', '3', '4', '5', '6', '7', '8', '9', '0', '-', '='] ++ [8, 9] ++
      codes ['q', 'w', 'e', 'r', 't', 'y', 'u', 'i', 'o', 'p', '[', ']'] ++ [10, 0] ++
      codes ['a', 's', 'd', 'f', 'g', 'h', 'j', 'k', 'l', ';'] ++ [39, 96, 0, 92] ++
      codes ['z', 'x', 'c', 'v', 'b', 'n', 'm', ',', '.', '/'] ++ [0] ++ codes ['*'] ++
      [0, 32] ++ List.replicate 13 0 ++ keypad)
    ([(0x9C, 10), (0xB5, 47)] ++ specialKeys)

/-- A key with shift. -/
def shiftmap : UInt8 → UInt8 :=
  table
    ([0, 0x1B] ++ codes ['!', '@', '#', '$', '%', '^', '&', '*', '(', ')', '_', '+'] ++ [8, 9] ++
      codes ['Q', 'W', 'E', 'R', 'T', 'Y', 'U', 'I', 'O', 'P'] ++ [123, 125, 10, 0] ++
      codes ['A', 'S', 'D', 'F', 'G', 'H', 'J', 'K', 'L', ':'] ++ [34] ++ codes ['~'] ++ [0] ++
      codes ['|', 'Z', 'X', 'C', 'V', 'B', 'N', 'M', '<', '>', '?'] ++ [0] ++ codes ['*'] ++
      [0, 32] ++ List.replicate 13 0 ++ keypad)
    ([(0x9C, 10), (0xB5, 47)] ++ specialKeys)

/-- A key with control. -/
def ctlmap : UInt8 → UInt8 :=
  table
    (List.replicate 16 0 ++ ctlCodes ['Q', 'W', 'E', 'R', 'T', 'Y', 'U', 'I', 'O', 'P'] ++
      [0, 0, 13, 0] ++ ctlCodes ['A', 'S', 'D', 'F', 'G', 'H', 'J', 'K', 'L'] ++ [0, 0, 0, 0, 28] ++
      ctlCodes ['Z', 'X', 'C', 'V', 'B', 'N', 'M'] ++ [0, 0] ++ ctlCodes ['/'] ++ [0, 0])
    ([(0x9C, 13), (0xB5, 47 - 64)] ++ specialKeys)

/-! ### `kbd.c` -/

/-- `charcode[shift & (CTL | SHIFT)]`. -/
def charcode (shift : UInt8) : UInt8 → UInt8 :=
  if shift &&& CTL ≠ 0 then ctlmap else if shift &&& SHIFT ≠ 0 then shiftmap else normalmap

/-- The other case of a letter. -/
def swapCase (c : UInt8) : UInt8 :=
  if 97 ≤ c ∧ c ≤ 122 then c - 32 else if 65 ≤ c ∧ c ≤ 90 then c + 32 else c

/-- `kbdgetc`: what it returns, and what becomes of `shift`. -/
def kbdgetc (shift : UInt8) : Option UInt8 → ℤ × UInt8
  | none => (-1, shift)
  | some data =>
      if data = 0xE0 then (0, shift ||| E0ESC)
      else if data &&& 0x80 ≠ 0 then
        -- Key released
        let data := if shift &&& E0ESC ≠ 0 then data else data &&& 0x7F
        (0, shift &&& ~~~(shiftcode data ||| E0ESC))
      else
        -- Last character was an E0 escape; or with 0x80
        let data := if shift &&& E0ESC ≠ 0 then data ||| 0x80 else data
        let shift := shift &&& ~~~E0ESC
        let shift := shift ||| shiftcode data
        let shift := shift ^^^ togglecode data
        let c := charcode shift data
        let c := if shift &&& CAPSLOCK ≠ 0 then swapCase c else c
        (c.toNat, shift)

/-- The values of the calls of `kbdgetc`, by what each of them finds at the ports. -/
def kbdvalues (shift : UInt8) : List (Option UInt8) → List ℤ
  | [] => []
  | port :: ports => (kbdgetc shift port).1 :: kbdvalues (kbdgetc shift port).2 ports

/-! ### `console.c` -/

/-- `consoleget`, by the values that `kbdgetc` returns: the character, and the values left.  `none`
is a call that is still waiting. -/
def consoleget : List ℤ → Option (ℤ × List ℤ)
  | [] => none
  | [c] => if c ≤ 0 then none else some (c, [])
  | c :: c' :: cs =>
      if c ≤ 0 then
        if c = 0 then
          -- `c = kbdgetc();`, and the loop calls it again.
          consoleget cs
        else consoleget (c' :: cs)
      else some (c, c' :: cs)

/-- `n` calls of `getch`, one after another. -/
def getchs : ℕ → List ℤ → Option (List ℤ × List ℤ)
  | 0, cs => some ([], cs)
  | n + 1, cs => do
      let (c, cs) ← consoleget cs
      let (typed, cs) ← getchs n cs
      pure (c :: typed, cs)

/-! ### The first character -/

/-- The first character of the sequence, and what comes after it. -/
def firstKey (cs : List ℤ) : Option (ℤ × List ℤ) :=
  match cs.dropWhile (· ≤ 0) with
  | [] => none
  | c :: cs => some (c, cs)

/-- The number of `0`s at the end. -/
def zeros (cs : List ℤ) : ℕ := (cs.reverse.takeWhile (· = 0)).length

/-- The first of the values that is a character is `c`, after `pre`. -/
structure First (cs pre : List ℤ) (c : ℤ) (post : List ℤ) : Prop where
  eq : cs = pre ++ c :: post
  before : ∀ x ∈ pre, x ≤ 0
  key : 0 < c

variable {c : ℤ} {pre post cs : List ℤ} {n : ℕ}

theorem First.firstKey (h : First cs pre c post) : firstKey cs = some (c, post) := by
  rw [Console.firstKey, h.eq, List.dropWhile_append_of_pos (by simpa using h.before),
    List.dropWhile_cons_of_neg (by simpa using h.key)]

/-- There is a first key. -/
theorem exists_first (h : ∃ x ∈ cs, 0 < x) : ∃ pre c post, First cs pre c post := by
  induction cs with
  | nil => obtain ⟨x, hx, -⟩ := h; cases hx
  | cons a cs ih =>
      by_cases ha : 0 < a
      · exact ⟨[], a, cs, rfl, by simp, ha⟩
      · obtain ⟨x, hx, h0⟩ := h
        have hx : x ∈ cs := (List.mem_cons.mp hx).resolve_left fun he => ha (he ▸ h0)
        obtain ⟨pre, c, post, hf⟩ := ih ⟨x, hx, h0⟩
        refine ⟨a :: pre, c, post, by rw [hf.eq]; rfl, fun y hy => ?_, hf.key⟩
        rcases List.mem_cons.mp hy with rfl | hy
        · exact Int.not_lt.mp ha
        · exact hf.before y hy

/-- Without a character the call waits. -/
theorem consoleget_none (h : ∀ x ∈ cs, x ≤ 0) : consoleget cs = none := by
  induction cs using consoleget.induct with
  | case1 => rfl
  | case2 c hc => rw [consoleget, if_pos hc]
  | case3 c hc => exact absurd (h c (List.mem_singleton_self c)) hc
  | case4 c' cs _ ih =>
      rw [consoleget, if_pos (Int.le_refl _), if_pos rfl]
      exact ih fun x hx => h x (by simp [hx])
  | case5 c c' cs hc h0 ih =>
      rw [consoleget, if_pos hc, if_neg h0]
      exact ih fun x hx => h x (List.mem_cons_of_mem _ hx)
  | case6 c c' cs hc => exact absurd (h c (List.mem_cons_self ..)) hc

theorem consoleget_key (hc : 0 < c) : consoleget (c :: post) = some (c, post) := by
  cases post <;> simp [consoleget, Int.not_le.mpr hc]

theorem zeros_le_length (cs : List ℤ) : zeros cs ≤ cs.length := by
  have := (List.takeWhile_prefix (· = 0) (l := cs.reverse)).length_le
  rwa [List.length_reverse] at this

theorem zeros_cons_of_ne (hc : c ≠ 0) (cs : List ℤ) : zeros (c :: cs) = zeros cs := by
  have hlast : [c].takeWhile (· = 0) = [] := by simp [hc]
  rw [zeros, zeros, List.reverse_cons, List.takeWhile_append, hlast, List.append_nil]
  split
  · rename_i h
    rw [(List.takeWhile_prefix _).eq_of_length h]
  · rfl

/-- A zero in front counts only if nothing but zeros follows. -/
theorem zeros_zero_cons (cs : List ℤ) :
    zeros (0 :: cs) = if zeros cs = cs.length then cs.length + 1 else zeros cs := by
  have hlast : [(0 : ℤ)].takeWhile (· = 0) = [0] := rfl
  by_cases h : zeros cs = cs.length
  · rw [if_pos h, zeros, List.reverse_cons, List.takeWhile_append, if_pos (by simpa [zeros] using h),
      hlast, List.length_append, List.length_reverse]
    rfl
  · rw [if_neg h, zeros, List.reverse_cons, List.takeWhile_append,
      if_neg (by simpa [zeros] using h), zeros]

/-- A `0` and the value after it leave the number even or odd, whatever that value is. -/
theorem even_zeros_skip (y : ℤ) (cs : List ℤ) : Even (zeros (0 :: y :: cs)) ↔ Even (zeros cs) := by
  have hle := zeros_le_length cs
  rw [zeros_zero_cons, List.length_cons]
  by_cases hy : y = 0
  · subst hy
    rw [zeros_zero_cons]
    by_cases hall : zeros cs = cs.length
    · rw [if_pos hall, if_pos rfl, hall, Nat.even_add_one, Nat.even_add_one, not_not]
    · rw [if_neg hall, if_neg (by omega)]
  · rw [zeros_cons_of_ne hy, if_neg (by omega)]

/-- **The first character** is returned after an even number of `0`s; after an odd number it is
passed over, as if nothing had been typed so far. -/
theorem First.consoleget (h : First cs pre c post) :
    consoleget cs = if Even (zeros pre) then some (c, post) else consoleget post := by
  obtain ⟨rfl, hpre, hc⟩ := h
  induction pre using consoleget.induct with
  | case1 => exact consoleget_key hc
  | case2 x hx =>
      by_cases h0 : x = 0
      · subst h0
        rw [if_neg (by decide), List.singleton_append, Console.consoleget, if_pos hx, if_pos rfl]
      · rw [zeros_cons_of_ne h0, if_pos (by decide), List.singleton_append, Console.consoleget,
          if_pos hx, if_neg h0, consoleget_key hc]
  | case3 x hx => exact absurd (hpre x (List.mem_singleton_self x)) hx
  | case4 y pre _ ih =>
      simp only [even_zeros_skip]
      rw [← ih fun x hx => hpre x (by simp [hx]), List.cons_append, List.cons_append,
        Console.consoleget, if_pos (Int.le_refl _), if_pos rfl]
  | case5 x y pre hx h0 ih =>
      rw [zeros_cons_of_ne h0, ← ih fun z hz => hpre z (List.mem_cons_of_mem _ hz), List.cons_append,
        List.cons_append, Console.consoleget, if_pos hx, if_neg h0]
  | case6 x y pre hx => exact absurd (hpre x (List.mem_cons_self ..)) hx

/-- A call that returns has consumed a character at least. -/
theorem consoleget_countP {rest : List ℤ} (h : consoleget cs = some (c, rest)) :
    rest.countP (0 < ·) + 1 ≤ cs.countP (0 < ·) ∧ rest.length < cs.length := by
  induction cs using consoleget.induct with
  | case1 => cases h
  | case2 x hx =>
      rw [consoleget, if_pos hx] at h
      cases h
  | case3 x hx =>
      rw [consoleget, if_neg hx] at h
      cases h
      simp [Int.not_le.mp hx]
  | case4 y cs _ ih =>
      rw [consoleget, if_pos (Int.le_refl _), if_pos rfl] at h
      have := ih h
      simp only [List.countP_cons, List.length_cons]
      omega
  | case5 x y cs hx h0 ih =>
      rw [consoleget, if_pos hx, if_neg h0] at h
      have := ih h
      rw [List.countP_cons, List.length_cons]
      omega
  | case6 x y cs hx =>
      rw [consoleget, if_neg hx] at h
      cases h
      simp [Int.not_le.mp hx]

/-! ### No key is lost -/

/-- The first character comes after an even number of `0`s. -/
def FirstHeard (cs : List ℤ) : Prop := ∀ pre c post, First cs pre c post → Even (zeros pre)

/-- Every character comes after an even number of `0`s, as counted from the last other value. -/
def Heard (cs : List ℤ) : Prop :=
  ∀ pre c post, cs = pre ++ c :: post → 0 < c → Even (zeros pre)

/-- One call. -/
theorem consoleget_iff (cs : List ℤ) : consoleget cs = firstKey cs ↔ FirstHeard cs := by
  constructor
  · intro h pre c post hf
    by_contra hodd
    rw [hf.consoleget, if_neg hodd, hf.firstKey] at h
    exact absurd (consoleget_countP h).2 (lt_irrefl _)
  · intro h
    by_cases hkey : ∃ x ∈ cs, 0 < x
    · obtain ⟨pre, c, post, hf⟩ := exists_first hkey
      rw [hf.consoleget, if_pos (h pre c post hf), hf.firstKey]
    · have hle : ∀ x ∈ cs, x ≤ 0 := fun x hx => Int.not_lt.mp fun h0 => hkey ⟨x, hx, h0⟩
      have hdrop : cs.dropWhile (· ≤ 0) = [] :=
        List.dropWhile_eq_nil_iff.mpr fun x hx => decide_eq_true (hle x hx)
      rw [consoleget_none hle, firstKey, hdrop]

/-- Only what comes after the last key counts. -/
theorem zeros_append_key (hc : c ≠ 0) (pre cs : List ℤ) : zeros (pre ++ c :: cs) = zeros cs := by
  have hlast : zeros (c :: cs) = zeros cs := zeros_cons_of_ne hc cs
  induction pre with
  | nil => exact hlast
  | cons x pre ih =>
      by_cases hx : x = 0
      · subst hx
        have := zeros_le_length cs
        rw [List.cons_append, zeros_zero_cons, ih, if_neg]
        simp only [List.length_append, List.length_cons]
        omega
      · rw [List.cons_append, zeros_cons_of_ne hx, ih]

/-- The characters after the first one. -/
theorem First.heard_iff (h : First cs pre c post) :
    Heard cs ↔ Even (zeros pre) ∧ Heard post := by
  have hc : c ≠ 0 := by
    rintro rfl
    exact absurd h.key (Int.lt_irrefl 0)
  constructor
  · refine fun hh => ⟨hh pre c post h.eq h.key, fun pre' c' post' he hk => ?_⟩
    have := hh (pre ++ c :: pre') c' post' (by rw [h.eq, he]; simp) hk
    rwa [zeros_append_key hc] at this
  · rintro ⟨heven, hpost⟩ pre' c' post' he hk
    rcases List.append_eq_append_iff.mp (h.eq.symm.trans he) with ⟨l, rfl, hl⟩ | ⟨l, rfl, hl⟩
    · cases l with
      | nil => rwa [List.append_nil]
      | cons x l =>
          obtain ⟨rfl, -⟩ := List.cons.inj hl
          rw [zeros_append_key hc]
          exact hpost l c' post' (List.cons.inj hl).2 hk
    · cases l with
      | nil => rwa [List.append_nil] at heven
      | cons x l =>
          obtain ⟨rfl, -⟩ := List.cons.inj hl
          exact absurd (h.before c' (by simp)) (Int.not_le.mpr hk)

/-- The first key, and the others. -/
theorem getchs_succ {typed rest : List ℤ} : getchs (n + 1) cs = some (typed, rest) ↔
    ∃ c cs' typed', consoleget cs = some (c, cs') ∧ getchs n cs' = some (typed', rest) ∧
      c :: typed' = typed := by
  simp only [getchs, bind, Option.bind_eq_some_iff, pure, Option.some.injEq, Prod.exists,
    Prod.mk.injEq]
  constructor
  · rintro ⟨c, cs', hc, typed', rest', hr, ht, rfl⟩
    exact ⟨c, cs', typed', hc, hr, ht⟩
  · rintro ⟨c, cs', typed', hc, hr, ht⟩
    exact ⟨c, cs', hc, typed', rest, hr, ht, rfl⟩

/-- As many characters as calls that return, at least. -/
theorem getchs_countP {typed rest : List ℤ} (h : getchs n cs = some (typed, rest)) :
    n ≤ cs.countP (0 < ·) := by
  induction n generalizing cs typed with
  | zero => exact Nat.zero_le _
  | succ n ih =>
      obtain ⟨c, cs', typed', hc, hr, -⟩ := getchs_succ.mp h
      have := (consoleget_countP hc).1
      have := ih hr
      omega

/-- **No key is lost** exactly where every character comes after an even number of `0`s: one call
returns the first character, having consumed the values up to it, exactly if that holds of this
character; and as many calls as there are characters return all of them, in order, exactly if it
holds of each. -/
theorem getch_loses_no_key_iff (cs : List ℤ) :
    (consoleget cs = firstKey cs ↔ FirstHeard cs) ∧
      ((∃ rest, getchs (cs.countP (0 < ·)) cs = some (cs.filter (0 < ·), rest)) ↔ Heard cs) := by
  refine ⟨consoleget_iff cs, ?_⟩
  generalize hn : cs.countP (0 < ·) = n
  induction n generalizing cs with
  | zero =>
      have hnone := List.countP_eq_zero.mp hn
      refine iff_of_true ⟨cs, ?_⟩ fun pre c post he hc => ?_
      · rw [getchs, List.filter_eq_nil_iff.mpr hnone]
      · exact absurd (decide_eq_true hc) (hnone c (by simp [he]))
  | succ n ih =>
      have hpos : 0 < cs.countP (0 < ·) := by omega
      obtain ⟨x, hx, h0⟩ := List.countP_pos_iff.mp hpos
      obtain ⟨pre, c, post, hf⟩ := exists_first ⟨x, hx, of_decide_eq_true h0⟩
      have hpre : pre.filter (0 < ·) = [] := List.filter_eq_nil_iff.mpr fun x hx => by
        simpa using hf.before x hx
      have hfilter : cs.filter (0 < ·) = c :: post.filter (0 < ·) := by
        rw [hf.eq, List.filter_append, hpre, List.nil_append,
          List.filter_cons_of_pos (by simpa using hf.key)]
      have hpost : post.countP (0 < ·) = n := by
        rw [List.countP_eq_length_filter, hfilter] at hn
        rw [List.countP_eq_length_filter]
        exact Nat.succ.inj hn
      have hcall := hf.consoleget
      rw [hf.heard_iff, hfilter, ← ih post hpost]
      by_cases heven : Even (zeros pre)
      · rw [if_pos heven] at hcall
        constructor
        · rintro ⟨rest, h⟩
          obtain ⟨c', cs', typed', hc, hr, ht⟩ := getchs_succ.mp h
          obtain ⟨rfl, rfl⟩ := Prod.mk.inj (Option.some.inj (hcall.symm.trans hc))
          obtain ⟨-, rfl⟩ := List.cons.inj ht
          exact ⟨heven, rest, hr⟩
        · rintro ⟨-, rest, hr⟩
          exact ⟨rest, getchs_succ.mpr ⟨c, post, _, hcall, hr, rfl⟩⟩
      · rw [if_neg heven] at hcall
        refine iff_of_false ?_ fun h => heven h.1
        -- That is a call more than there are characters left.
        rintro ⟨rest, h⟩
        obtain ⟨c', cs', typed', hc, hr, ht⟩ := getchs_succ.mp h
        have := (consoleget_countP (hcall.symm.trans hc)).1
        have := getchs_countP hr
        omega

/-- The arrow key `KEY_UP` has a code of two bytes; the first one is a `0` for `getch`, and the
second one, with the key, is not looked at. -/
theorem getch_loses_arrow : kbdvalues 0 [some 0xE0, some 0x48] = [0, 0xE2] ∧
    firstKey [0, 0xE2] = some (0xE2, []) ∧ consoleget [0, 0xE2] = none := by
  decide

end Xv6.Console
