import Xv6.Console.Display
import Mathlib.Data.List.Induction

/-!
# Console — the cursor stays on the screen

`cgaputc` with its positions as the C `int`s they are, and with every store checked: a cell
written outside of the `80 * 25`, a `memmove` or `memset` of a negative length or over the end of
the text, and `panic("pos under/overflow")` stop it.

* `checked_eq` — from a cursor on the screen nothing stops, and the outcome is `putc`.
* `output_stays_on_screen` — no sequence of characters stops.
-/

namespace Xv6.Console

open Lib

/-! ### The checked stores -/

/-- Why a store is not made. -/
inductive Stop where
  /-- `panic("pos under/overflow")` -/
  | posOverflow
  | outOfBounds (i : ℤ)
  | negativeLength (n : ℤ)
deriving DecidableEq

/-- `mem[i] = x`. -/
def store (mem : Text) (i : ℤ) (x : UInt16) : Except Stop Text :=
  if 0 ≤ i ∧ i < cells then .ok (Function.update mem i.toNat x) else .error (.outOfBounds i)

/-- The `n` cells from `i` on are on the screen. -/
def within (i n : ℤ) : Except Stop Unit :=
  if n < 0 then .error (.negativeLength n)
  else if i < 0 then .error (.outOfBounds i)
  else if (cells : ℤ) < i + n then .error (.outOfBounds (i + n - 1))
  else .ok ()

/-- `memmove(mem + dst, mem + src, n cells)`. -/
def memmove (mem : Text) (dst src n : ℤ) : Except Stop Text := do
  within src n
  within dst n
  return fun k => if dst ≤ k ∧ k < dst + n then mem (k + src - dst).toNat else mem k

/-- `memset(mem + dst, 0, n cells)`. -/
def memset (mem : Text) (dst n : ℤ) : Except Stop Text := do
  within dst n
  return fun k => if dst ≤ k ∧ k < dst + n then 0 else mem k

/-! ### `cgaputc` -/

/-- The character, or the movement of the cursor. -/
def checkedEmit (mem : Text) (pos c : ℤ) : Except Stop (Text × ℤ) :=
  if c = 10 then .ok (mem, pos + (80 - pos.tmod 80))
  else if c = BACKSPACE then .ok (mem, if 0 < pos then pos - 1 else pos)
  else do
    let mem ← store mem pos (UInt16.ofNat (c % 256).toNat ||| 0x0700)
    return (mem, pos + 1)

/-- The scrolling. -/
def checkedScroll (mem : Text) (pos : ℤ) : Except Stop (Text × ℤ) :=
  if 24 ≤ pos.tdiv 80 then do
    let mem ← memmove mem 0 80 (23 * 80)
    let mem ← memset mem (pos - 80) (24 * 80 - (pos - 80))
    return (mem, pos - 80)
  else .ok (mem, pos)

/-- What `cgaputc` does to a text and its cursor. -/
def checkedPutc (mem : Text) (pos c : ℤ) : Except Stop (Text × ℤ) := do
  let (mem, pos) ← checkedEmit mem pos c
  if pos < 0 ∨ 25 * 80 < pos then throw .posOverflow
  let (mem, pos) ← checkedScroll mem pos
  let mem ← store mem pos 0x0720
  return (mem, pos)

namespace Display

variable {P : Type}

/-- The text that is written, the hardware's or the shadow of it. -/
def text (s : Display P) : Text := if s.textdisplayed then s.crt else s.videobuffer

/-- Where the next character goes. -/
def position (s : Display P) : ℕ :=
  if s.textdisplayed then s.cursor.toNat else s.cursorposition

/-- `cgaputc`, checked. -/
def output (s : Display P) (c : ℤ) : Except Stop (Display P) :=
  if s.textdisplayed then
    (checkedPutc s.crt s.cursor.toNat c).map fun x =>
      { s with crt := x.1, cursor := UInt16.ofNat (x.2 % 0x10000).toNat }
  else
    (checkedPutc s.videobuffer s.cursorposition c).map fun x =>
      { s with videobuffer := x.1, cursorposition := x.2.toNat }

end Display

/-! ### Nothing stops -/

section

variable {mem : Text} {pos : ℕ}

theorem store_ok (mem : Text) {i : ℕ} (h : i < cells) (x : UInt16) :
    store mem i x = .ok (Function.update mem i x) := by
  rw [store, if_pos ⟨Int.natCast_nonneg i, by exact_mod_cast h⟩, Int.toNat_natCast]

theorem within_ok {i n : ℤ} (hi : 0 ≤ i) (hn : 0 ≤ n) (h : i + n ≤ cells) :
    within i n = .ok () := by
  rw [within, if_neg (by omega), if_neg (by omega), if_neg (by omega)]

/-- On the screen, no store of `emit` leaves it. -/
theorem checkedEmit_eq (h : pos < cells) (c : ℤ) :
    checkedEmit mem pos c = .ok ((emit mem pos c).1, ((emit mem pos c).2 : ℤ)) := by
  unfold checkedEmit emit
  split
  · rw [Int.tmod_eq_emod_of_nonneg (Int.natCast_nonneg pos)]
    have : ((pos + (80 - pos % 80) : ℕ) : ℤ) = pos + (80 - (pos : ℤ) % 80) := by omega
    rw [this]
  · split
    · have : ((pos - 1 : ℕ) : ℤ) = if 0 < (pos : ℤ) then (pos : ℤ) - 1 else pos := by
        split <;> omega
      rw [this]
    · rw [store_ok mem h]
      rfl

/-- A character moves the cursor to the next row at most. -/
theorem emit_pos_le (h : pos < cells) (c : ℤ) : (emit mem pos c).2 ≤ cells := by
  unfold emit
  split
  · simp only [cells] at h ⊢
    omega
  · split
    · exact Nat.le_trans (Nat.sub_le pos 1) (Nat.le_of_lt h)
    · exact Nat.succ_le_of_lt h

/-- `memmove` moves the rows up. -/
theorem memmove_up (mem : Text) : memmove mem 0 80 (23 * 80) = .ok (scrollUp mem) := by
  rw [memmove, within_ok (by decide) (by decide) (by decide),
    within_ok (by decide) (by decide) (by decide)]
  refine congrArg Except.ok (funext fun k => ?_)
  rw [scrollUp]
  refine if_congr (by omega) ?_ rfl
  have hk : ((k : ℤ) + 80 - 0).toNat = k + 80 := by omega
  rw [hk]

/-- `memset` clears the screen from the cursor on. -/
theorem memset_ok (mem : Text) (h : pos ≤ 24 * 80) :
    memset mem pos (24 * 80 - pos) = .ok (clearFrom mem pos) := by
  have hin : within (pos : ℤ) (24 * 80 - pos) = .ok () :=
    within_ok (by omega) (by omega) (by simp only [cells]; omega)
  rw [memset, hin]
  refine congrArg Except.ok (funext fun k => ?_)
  rw [clearFrom]
  exact if_congr (by omega) rfl rfl

/-- No store of the scrolling leaves the screen. -/
theorem checkedScroll_eq (mem : Text) (h : pos ≤ cells) :
    checkedScroll mem pos = .ok ((scroll mem pos).1, ((scroll mem pos).2 : ℤ)) := by
  simp only [cells] at h
  have hdiv : (pos : ℤ).tdiv 80 = (pos / 80 : ℕ) := by
    rw [Int.tdiv_eq_ediv_of_nonneg (Int.natCast_nonneg pos)]
    rfl
  rw [checkedScroll, scroll, hdiv]
  split
  · have hcast : (pos : ℤ) - 80 = (pos - 80 : ℕ) := by omega
    have hset := memset_ok (scrollUp mem) (show pos - 80 ≤ 24 * 80 by omega)
    rw [if_pos (by omega), memmove_up, hcast]
    simp only [bind, Except.bind, pure, Except.pure]
    rw [hset]
  · rw [if_neg (by omega)]

/-- After it the cursor is at the start of the last row at most. -/
theorem scroll_pos_le (mem : Text) (h : pos ≤ cells) : (scroll mem pos).2 ≤ 1920 := by
  simp only [cells] at h
  unfold scroll
  split
  · dsimp only
    omega
  · dsimp only
    omega

/-- **From a cursor on the screen nothing stops.** -/
theorem checked_eq (mem : Text) (h : pos < cells) (c : ℤ) : ∃ y, putc mem pos c = some y ∧
    checkedPutc mem pos c = .ok (y.1, (y.2 : ℤ)) := by
  have hle : (emit mem pos c).2 ≤ 25 * 80 := emit_pos_le h c
  have hpos := scroll_pos_le (emit mem pos c).1 hle
  unfold putc
  dsimp only
  rw [if_neg (Nat.not_lt.mpr hle)]
  refine ⟨_, rfl, ?_⟩
  rw [checkedPutc, checkedEmit_eq h c]
  generalize emit mem pos c = x at hle hpos
  have hscroll := checkedScroll_eq x.1 hle
  generalize scroll x.1 x.2 = y at hpos hscroll
  have hstore := store_ok y.1 (Nat.lt_of_le_of_lt hpos (by decide)) 0x0720
  simp only [bind, Except.bind, pure, Except.pure]
  rw [if_neg (by omega), hscroll]
  dsimp only
  rw [hstore]

/-! ### The new cursor, and the new text -/

theorem putc_pos_le (h : pos < cells) {c : ℤ} {y : Text × ℕ} (hy : putc mem pos c = some y) :
    y.2 ≤ 1920 := by
  have hle : (emit mem pos c).2 ≤ 25 * 80 := emit_pos_le h c
  rw [putc, if_neg (Nat.not_lt.mpr hle)] at hy
  obtain rfl := Option.some.inj hy
  exact scroll_pos_le _ hle

/-- Above the last row the cursor does not reach it. -/
theorem putc_pos_lt (h : pos < 1920) {c : ℤ} {y : Text × ℕ} (hy : putc mem pos c = some y) :
    y.2 < 1920 := by
  have hlt : (emit mem pos c).2 < 2000 := by
    unfold emit
    split
    · dsimp only
      omega
    · split
      · dsimp only
        omega
      · dsimp only
        omega
  rw [putc, if_neg (by omega)] at hy
  obtain rfl := Option.some.inj hy
  dsimp only
  unfold scroll
  split
  · dsimp only
    omega
  · dsimp only
    omega

/-- The character takes the cursor into the last row or below it. -/
def Scrolls (mem : Text) (pos : ℕ) (c : ℤ) : Prop := 24 ≤ (emit mem pos c).2 / 80

/-- A scroll moves the rows `1` to `23` up, by one row. -/
theorem putc_scrolls {c : ℤ} {y : Text × ℕ} (hy : putc mem pos c = some y)
    (hs : Scrolls mem pos c) {row col : ℕ} (hr : row < 23) (hc : col < 80) :
    y.1 (80 * row + col) = (emit mem pos c).1 (80 * (row + 1) + col) := by
  unfold Scrolls at hs
  unfold putc at hy
  dsimp only at hy
  split at hy
  · cases hy
  · obtain rfl := Option.some.inj hy
    rw [scroll, if_pos hs]
    dsimp only
    have hne : 80 * row + col ≠ (emit mem pos c).2 - 80 := by omega
    have hclear : ¬ ((emit mem pos c).2 - 80 ≤ 80 * row + col ∧ 80 * row + col < 24 * 80) := by
      omega
    rw [Function.update_of_ne hne, clearFrom, if_neg hclear, scrollUp, if_pos (by omega),
      Nat.mul_succ, Nat.add_right_comm]

end

/-! ### A sequence of characters -/

namespace Display

variable {P : Type}

/-- One character, on the hardware or on its shadow. -/
theorem output_eq (s : Display P) (h : s.position < cells) (c : ℤ) :
    ∃ t, s.output c = .ok t ∧ s.cgaputc c = some t ∧
      putc s.text s.position c = some (t.text, t.position) := by
  obtain ⟨y, hy, hc⟩ := checked_eq s.text h c
  have hle := putc_pos_le h hy
  unfold position text at hy hc
  unfold output Display.cgaputc
  by_cases ht : s.textdisplayed = true
  · rw [if_pos ht, if_pos ht] at hy hc
    have hcur : ((y.2 : ℤ) % 0x10000).toNat = y.2 := by omega
    refine ⟨{ s with crt := y.1, cursor := UInt16.ofNat y.2 }, ?_, ?_, ?_⟩
    · rw [if_pos ht, hc, Except.map, hcur]
    · rw [if_pos ht, hy, Option.map_some]
    · unfold position text
      rw [if_pos ht, if_pos ht, hy, if_pos ht, if_pos ht, UInt16.toNat_ofNat',
        Nat.mod_eq_of_lt (by omega)]
  · rw [if_neg ht, if_neg ht] at hy hc
    refine ⟨{ s with videobuffer := y.1, cursorposition := y.2 }, ?_, ?_, ?_⟩
    · rw [if_neg ht, hc, Except.map, Int.toNat_natCast]
    · rw [if_neg ht, hy, Option.map_some]
    · unfold position text
      rw [if_neg ht, if_neg ht, hy, if_neg ht, if_neg ht]

/-- **Console output never leaves the screen.**  From any cursor on the screen, on the hardware or
on its shadow, no sequence of characters stops.  After each of them the cursor is at most at
`24 * 80`, and from a cursor above the last row it stays above; a scroll moves the rows `1` to `23`
up by one row. -/
theorem output_stays_on_screen (s : Display P) (h : s.position < cells) (cs : List ℤ) :
    ∃ t, cs.foldlM output s = .ok t ∧ ∀ as c bs, cs = as ++ c :: bs →
      ∃ u v, as.foldlM output s = .ok u ∧ u.output c = .ok v ∧ v.position ≤ 1920 ∧
        (u.position < 1920 → v.position < 1920) ∧
        (Scrolls u.text u.position c → ∀ row < 23, ∀ col < 80,
          v.text (80 * row + col) = (emit u.text u.position c).1 (80 * (row + 1) + col)) := by
  have hrun : ∀ as : List ℤ, ∃ u, as.foldlM output s = .ok u ∧ u.position < cells := by
    intro as
    induction as using List.reverseRecOn with
    | nil => exact ⟨s, rfl, h⟩
    | append_singleton as c ih =>
        obtain ⟨u, hu, hpos⟩ := ih
        obtain ⟨v, hv, -, hputc⟩ := u.output_eq hpos c
        refine ⟨v, ?_, putc_pos hputc⟩
        rw [List.foldlM_append, hu]
        show (u.output c >>= pure) = _
        rw [hv]
        rfl
  obtain ⟨t, ht, -⟩ := hrun cs
  refine ⟨t, ht, fun as c bs _ => ?_⟩
  obtain ⟨u, hu, hpos⟩ := hrun as
  obtain ⟨v, hv, -, hputc⟩ := u.output_eq hpos c
  exact ⟨u, v, hu, hv, putc_pos_le hpos hputc, fun hlt => putc_pos_lt hlt hputc,
    fun hs row hr col hc => putc_scrolls hputc hs hr hc⟩

/-- A letter, a new line and a backspace on a blank screen. -/
theorem output_stays_on_blank : (blank : Display Unit).position < cells ∧
    ∃ t, [97, 10, BACKSPACE].foldlM output (blank : Display Unit) = .ok t ∧
      ∀ as c bs, [97, 10, BACKSPACE] = as ++ c :: bs →
      ∃ u v, as.foldlM output (blank : Display Unit) = .ok u ∧ u.output c = .ok v ∧
        v.position ≤ 1920 ∧ (u.position < 1920 → v.position < 1920) ∧
        (Scrolls u.text u.position c → ∀ row < 23, ∀ col < 80,
          v.text (80 * row + col) = (emit u.text u.position c).1 (80 * (row + 1) + col)) :=
  ⟨by decide, output_stays_on_screen blank (by decide) [97, 10, BACKSPACE]⟩

end Display

end Xv6.Console
