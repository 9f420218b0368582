import Mathlib.Algebra.Order.Ring.Int
import Mathlib.Data.List.Induction
import Mathlib.Data.Nat.Notation
import Mathlib.Tactic.Common

/-!
# User library — formatted output

`printf` of the user library, a machine that reads the format character by character, and the
kernel's `cprintf`, which looks ahead.  A format is a sequence of plain characters and conversions.
Both print the same for it, except that `cprintf` writes its digits in lower case and does not know
`%c`.

* `printint_signed`, `printint_unsigned` — the numerals.
* `formats_print` — every format.
-/

namespace Xv6.Printf

/-- The characters of a string, up to its NUL. -/
abbrev Chars := List UInt8

/-- The characters of a format. -/
def chars (s : String) : Chars := s.toList.map Char.toUInt8

/-! ### `printint` -/

/-- The size of the buffer. -/
def sizeofBuf : ℕ := 16

/-- The `do` loop of `printint`: the digits of `x`, the lowest first.  It is `none` where they do
not fit in the `room` bytes that are left. -/
def digitLoop (digits : Chars) (base : ℕ) : ℕ → ℕ → Option Chars
  | 0, _ => none
  | room + 1, x => do
      let digit := digits.getD (x % base) 0
      if x / base ≠ 0 then
        let buf ← digitLoop digits base room (x / base)
        return digit :: buf
      else return [digit]

/-- Both functions `printint`, by their digits. -/
def printintWith (digits : Chars) (xx : Int32) (base : ℕ) (sgn : Bool) : Option Chars := do
  let neg := sgn && xx < 0
  -- the negative of the least number is itself, and is right as an unsigned number
  let x := (if neg then -xx else xx).toUInt32.toNat
  let buf ← digitLoop digits base sizeofBuf x
  if neg then
    if buf.length < sizeofBuf then return (buf ++ ['-'.toUInt8]).reverse else none
  else return buf.reverse

namespace User

/-- `printint` of `printf.c`. -/
def printint : Int32 → ℕ → Bool → Option Chars := printintWith (chars "0123456789ABCDEF")

end User

namespace Console

/-- `printint` of `console.c`. -/
def printint : Int32 → ℕ → Bool → Option Chars := printintWith (chars "0123456789abcdef")

end Console

/-! ### `printf` and `cprintf` -/

/-- The variable arguments, as words on the stack. -/
abbrev Args := ℕ → UInt32

/-- `ap++` -/
def Args.next (ap : Args) : Args := fun i => ap (i + 1)

variable (strs : UInt32 → Chars)

/-- The string of `%s`, where `strs` are the strings in memory. -/
def strArg (s : UInt32) : Chars := if s = 0 then chars "(null)" else strs s

/-- The loop of `printf`, in one of its two states: the bytes it prints. -/
def printfLoop : UInt8 → Args → Chars → Option Chars
  | _, _, [] => some []
  | state, ap, c :: fmt =>
      if state = 0 then
        if c = '%'.toUInt8 then printfLoop '%'.toUInt8 ap fmt
        else do
          let out ← printfLoop 0 ap fmt
          return c :: out
      else if c = 'd'.toUInt8 then do
        let num ← User.printint (ap 0).toInt32 10 true
        let out ← printfLoop 0 ap.next fmt
        return num ++ out
      else if c = 'x'.toUInt8 ∨ c = 'p'.toUInt8 then do
        let num ← User.printint (ap 0).toInt32 16 false
        let out ← printfLoop 0 ap.next fmt
        return num ++ out
      else if c = 's'.toUInt8 then do
        let out ← printfLoop 0 ap.next fmt
        return strArg strs (ap 0) ++ out
      else if c = 'c'.toUInt8 then do
        let out ← printfLoop 0 ap.next fmt
        return (ap 0).toUInt8 :: out
      else if c = '%'.toUInt8 then do
        let out ← printfLoop 0 ap fmt
        return c :: out
      else do
        let out ← printfLoop 0 ap fmt
        return '%'.toUInt8 :: c :: out

/-- `printf`: the bytes it prints. -/
def printf (fmt : Chars) (ap : Args) : Option Chars := printfLoop strs 0 ap fmt

/-- `cprintf`: the bytes it prints. -/
def cprintf : Chars → Args → Option Chars
  | [], _ => some []
  | [c], _ => if c ≠ '%'.toUInt8 then some [c] else some []
  | c :: c' :: fmt, ap =>
      if c ≠ '%'.toUInt8 then do
        let out ← cprintf (c' :: fmt) ap
        return c :: out
      else if c' = 'd'.toUInt8 then do
        let num ← Console.printint (ap 0).toInt32 10 true
        let out ← cprintf fmt ap.next
        return num ++ out
      else if c' = 'x'.toUInt8 ∨ c' = 'p'.toUInt8 then do
        let num ← Console.printint (ap 0).toInt32 16 false
        let out ← cprintf fmt ap.next
        return num ++ out
      else if c' = 's'.toUInt8 then do
        let out ← cprintf fmt ap.next
        return strArg strs (ap 0) ++ out
      else if c' = '%'.toUInt8 then do
        let out ← cprintf fmt ap
        return '%'.toUInt8 :: out
      else do
        let out ← cprintf fmt ap
        return '%'.toUInt8 :: c' :: out

/-! ### What a format says -/

/-- A character of a numeral. -/
def digit (upper : Bool) (c : Char) : UInt8 := (if upper then c.toUpper else c).toUInt8

/-- The numeral of a number. -/
def numeral (upper : Bool) (base n : ℕ) : Chars := (Nat.toDigits base n).map (digit upper)

/-- The numeral of a number with its sign. -/
def signed (upper : Bool) (n : ℤ) : Chars :=
  (if n < 0 then ['-'.toUInt8] else []) ++ numeral upper 10 n.natAbs

/-- What a format is made of. -/
inductive Item where
  | plain (c : UInt8)
  | conversion (c : UInt8)
  deriving DecidableEq

/-- The characters of the item in a format. -/
def Item.source : Item → Chars
  | plain c => [c]
  | conversion c => ['%'.toUInt8, c]

/-- A plain character is no `%`. -/
def Item.Valid : Item → Prop
  | plain c => c ≠ '%'.toUInt8
  | conversion _ => True

instance : DecidablePred Item.Valid
  | .plain c => inferInstanceAs (Decidable (c ≠ '%'.toUInt8))
  | .conversion _ => inferInstanceAs (Decidable True)

/-- What an item prints, and the arguments that are left.  `user` is for `printf`. -/
def Item.prints (user : Bool) (ap : Args) : Item → Chars × Args
  | plain c => ([c], ap)
  | conversion c =>
      if c = 'd'.toUInt8 then (signed user (ap 0).toInt32.toInt, ap.next)
      else if c = 'x'.toUInt8 ∨ c = 'p'.toUInt8 then (numeral user 16 (ap 0).toNat, ap.next)
      else if c = 's'.toUInt8 then (strArg strs (ap 0), ap.next)
      else if user ∧ c = 'c'.toUInt8 then ([(ap 0).toUInt8], ap.next)
      else if c = '%'.toUInt8 then (['%'.toUInt8], ap)
      else (['%'.toUInt8, c], ap)

/-- What the items print, each with the arguments that are left. -/
def render (user : Bool) : List Item → Args → Chars
  | [], _ => []
  | it :: its, ap => (it.prints strs user ap).1 ++ render user its (it.prints strs user ap).2

/-! ### Numerals -/

variable {b x room : ℕ} {upper : Bool}

/-- The digits of the two functions. -/
def table (upper : Bool) : Chars := chars (if upper then "0123456789ABCDEF" else "0123456789abcdef")

theorem table_getD (upper : Bool) {d : ℕ} (hd : d < 16) :
    (table upper).getD d 0 = digit upper (Nat.digitChar d) := by
  have h : ∀ upper, ∀ d < 16, (table upper).getD d 0 = digit upper (Nat.digitChar d) := by decide
  exact h upper d hd

/-- The loop leaves the digits of the number, last one first. -/
theorem digitLoop_eq (hb : 1 < b) (hb' : b ≤ 16) (hroom : 0 < room) (hx : x < b ^ room) :
    digitLoop (table upper) b room x = some (numeral upper b x).reverse := by
  induction room generalizing x with
  | zero => cases hroom
  | succ room ih =>
      have hdigit := table_getD upper ((Nat.mod_lt x (by omega)).trans_le hb')
      rw [digitLoop, hdigit, numeral, Nat.toDigits_eq_if hb]
      by_cases hlt : x < b
      · rw [if_neg (by rw [Nat.div_eq_of_lt hlt]; exact not_not.mpr rfl), if_pos hlt,
          Nat.mod_eq_of_lt hlt]
        rfl
      · have hdiv : x / b < b ^ room := by
          rw [Nat.div_lt_iff_lt_mul (by omega), ← Nat.pow_succ]
          exact hx
        have hpos : 0 < x / b := Nat.div_pos (not_lt.mp hlt) (by omega)
        have hroom' : 0 < room := by
          rcases Nat.eq_zero_or_pos room with rfl | h
          · rw [Nat.pow_zero] at hdiv
            omega
          · exact h
        rw [if_pos hpos.ne', ih hroom' hdiv, if_neg hlt, numeral]
        simp

/-- The decimal numerals leave room for a sign. -/
theorem length_numeral_lt (upper : Bool) (hx : x < 2 ^ 32) :
    (numeral upper 10 x).length < sizeofBuf := by
  have hlen : (Nat.toDigits 10 x).length ≤ 10 :=
    (Nat.length_toDigits_le_iff (by decide) (by decide)).mpr (hx.trans (by decide))
  rw [numeral, List.length_map]
  exact hlen.trans_lt (by decide)

/-- The absolute value, also of the smallest number. -/
theorem natAbs_toInt {xx : Int32} :
    (if xx < 0 then -xx else xx).toUInt32.toNat = xx.toInt.natAbs := by
  have hlt : xx < 0 ↔ xx.toInt < 0 := Int32.lt_iff_toInt_lt
  have htoInt : xx.toInt = if 2 * xx.toUInt32.toNat < 2 ^ 32 then (xx.toUInt32.toNat : ℤ)
      else xx.toUInt32.toNat - 2 ^ 32 := BitVec.toInt_eq_toNat_cond _
  have hneg : (-xx).toUInt32.toNat = (2 ^ 32 - xx.toUInt32.toNat) % 2 ^ 32 := BitVec.toNat_neg _
  have hmax := xx.toUInt32.toNat_lt
  by_cases h : xx < 0
  · rw [if_pos h, hneg]
    rw [hlt] at h
    split at htoInt <;> omega
  · rw [if_neg h]
    rw [hlt] at h
    split at htoInt <;> omega

/-- **The numerals.** -/
theorem printint_signed (upper : Bool) (xx : Int32) :
    printintWith (table upper) xx 10 true = some (signed upper xx.toInt) := by
  have hlt : xx < 0 ↔ xx.toInt < 0 := Int32.lt_iff_toInt_lt
  have hx := (if xx < 0 then -xx else xx).toUInt32.toNat_lt
  rw [natAbs_toInt] at hx
  have hloop : digitLoop (table upper) 10 sizeofBuf xx.toInt.natAbs = _ :=
    digitLoop_eq (by decide) (by decide) (by decide) (hx.trans (by decide))
  have hlen := length_numeral_lt upper hx
  unfold printintWith signed
  simp only [Bool.true_and, decide_eq_true_eq, natAbs_toInt, hloop, Option.bind_eq_bind,
    Option.bind_some, List.length_reverse, if_pos hlen, ← hlt]
  split <;> simp

theorem printint_unsigned (upper : Bool) (xx : Int32) :
    printintWith (table upper) xx 16 false = some (numeral upper 16 xx.toUInt32.toNat) := by
  have hloop : digitLoop (table upper) 16 sizeofBuf xx.toUInt32.toNat = _ :=
    digitLoop_eq (by decide) le_rfl (by decide) (xx.toUInt32.toNat_lt.trans (by decide))
  unfold printintWith
  simp [hloop]

/-! ### Formats -/

variable {strs} {ap : Args} {its : List Item} {last : Chars}

/-- `printf`, in its first state. -/
theorem printfLoop_items (hits : ∀ it ∈ its, it.Valid) (hlast : last = [] ∨ last = ['%'.toUInt8]) :
    printfLoop strs 0 ap (its.flatMap Item.source ++ last) = some (render strs true its ap) := by
  induction its generalizing ap with
  | nil => rcases hlast with rfl | rfl <;> rfl
  | cons it its ih =>
      have hrest : ∀ ap, printfLoop strs 0 ap (its.flatMap Item.source ++ last) =
          some (render strs true its ap) :=
        fun ap => ih fun it h => hits it (List.mem_cons_of_mem _ h)
      rw [List.flatMap_cons, List.append_assoc, render]
      cases it with
      | plain c =>
          have hc : c ≠ '%'.toUInt8 := hits _ List.mem_cons_self
          rw [Item.prints, Item.source, List.singleton_append, printfLoop, if_pos rfl, if_neg hc,
            hrest]
          rfl
      | conversion c =>
          rw [Item.prints, Item.source, List.cons_append, List.singleton_append, printfLoop,
            if_pos rfl, if_pos rfl, printfLoop, if_neg (by decide)]
          by_cases hd : c = 'd'.toUInt8
          · have hnum : User.printint (ap 0).toInt32 10 true = _ := printint_signed true _
            simp only [if_pos hd, hnum, hrest]
            rfl
          by_cases hx : c = 'x'.toUInt8 ∨ c = 'p'.toUInt8
          · have hnum : User.printint (ap 0).toInt32 16 false = _ := printint_unsigned true _
            simp only [if_neg hd, if_pos hx, hnum, hrest]
            rfl
          by_cases hs : c = 's'.toUInt8
          · simp only [if_neg hd, if_neg hx, if_pos hs, hrest]
            rfl
          by_cases hc : c = 'c'.toUInt8
          · simp only [if_neg hd, if_neg hx, if_neg hs, if_pos hc, hrest, true_and]
            rfl
          by_cases hp : c = '%'.toUInt8
          · simp only [if_neg hd, if_neg hx, if_neg hs, if_neg hc, if_pos hp, hrest, true_and]
            rw [hp]
            rfl
          · simp only [if_neg hd, if_neg hx, if_neg hs, if_neg hc, if_neg hp, hrest, true_and]
            rfl

theorem cprintf_plain {c : UInt8} (hc : c ≠ '%'.toUInt8) (fmt : Chars) :
    cprintf strs (c :: fmt) ap = (cprintf strs fmt ap).map (c :: ·) := by
  cases fmt with
  | nil => simp only [cprintf, if_pos hc, Option.map_some]
  | cons c' fmt =>
      rw [cprintf, if_pos hc]
      cases cprintf strs (c' :: fmt) ap <;> rfl

/-- What the format says is printed, item by item. -/
theorem cprintf_items (hits : ∀ it ∈ its, it.Valid) (hlast : last = [] ∨ last = ['%'.toUInt8]) :
    cprintf strs (its.flatMap Item.source ++ last) ap = some (render strs false its ap) := by
  induction its generalizing ap with
  | nil => rcases hlast with rfl | rfl <;> rfl
  | cons it its ih =>
      have hrest : ∀ ap, cprintf strs (its.flatMap Item.source ++ last) ap =
          some (render strs false its ap) :=
        fun ap => ih fun it h => hits it (List.mem_cons_of_mem _ h)
      rw [List.flatMap_cons, List.append_assoc, render]
      cases it with
      | plain c =>
          have hc : c ≠ '%'.toUInt8 := hits _ List.mem_cons_self
          rw [Item.prints, Item.source, List.singleton_append]
          rw [cprintf_plain hc, hrest]
          rfl
      | conversion c =>
          rw [Item.prints, Item.source, List.cons_append, List.singleton_append, cprintf,
            if_neg (not_not.mpr rfl)]
          by_cases hd : c = 'd'.toUInt8
          · have hnum : Console.printint (ap 0).toInt32 10 true = _ := printint_signed false _
            simp only [if_pos hd, hnum, hrest]
            rfl
          by_cases hx : c = 'x'.toUInt8 ∨ c = 'p'.toUInt8
          · have hnum : Console.printint (ap 0).toInt32 16 false = _ := printint_unsigned false _
            simp only [if_neg hd, if_pos hx, hnum, hrest]
            rfl
          by_cases hs : c = 's'.toUInt8
          · simp only [if_neg hd, if_neg hx, if_pos hs, hrest]
            rfl
          by_cases hp : c = '%'.toUInt8
          · simp only [if_neg hd, if_neg hx, if_neg hs, if_pos hp, hrest, Bool.false_eq_true,
              false_and, if_false]
            rfl
          · simp only [if_neg hd, if_neg hx, if_neg hs, if_neg hp, hrest, Bool.false_eq_true,
              false_and, if_false]
            rfl

/-- A format is a sequence of items, and perhaps a last `%`. -/
theorem exists_items (fmt : Chars) : ∃ its : List Item, (∀ it ∈ its, it.Valid) ∧
    ∃ last, (last = [] ∨ last = ['%'.toUInt8]) ∧ fmt = its.flatMap Item.source ++ last := by
  induction fmt using List.twoStepInduction with
  | nil => exact ⟨[], by simp, [], .inl rfl, rfl⟩
  | singleton c =>
      by_cases hc : c = '%'.toUInt8
      · exact ⟨[], by simp, [c], .inr (by rw [hc]), rfl⟩
      · exact ⟨[.plain c], by simpa [Item.Valid] using hc, [], .inl rfl, rfl⟩
  | cons_cons c c' fmt ih ih' =>
      by_cases hc : c = '%'.toUInt8
      · obtain ⟨its, hits, last, hlast, rfl⟩ := ih
        exact ⟨.conversion c' :: its, by simpa [Item.Valid] using hits, last, hlast, by
          rw [hc]; rfl⟩
      · obtain ⟨its, hits, last, hlast, h⟩ := ih' c'
        refine ⟨.plain c :: its, ?_, last, hlast, by rw [h]; rfl⟩
        rintro _ (_ | ⟨_, hit⟩)
        · exact hc
        · exact hits _ hit

/-- **Formatted output.**  Every format is a sequence of items, and `printf` and `cprintf` print
what the items say; a single `%` at the end is not printed.  The buffer of `printint` is never too
short. -/
theorem formats_print (strs : UInt32 → Chars) (fmt : Chars) :
    ∃ its : List Item, (∀ it ∈ its, it.Valid) ∧
      (∃ last, (last = [] ∨ last = ['%'.toUInt8]) ∧ fmt = its.flatMap Item.source ++ last) ∧
      ∀ ap, printf strs fmt ap = some (render strs true its ap) ∧
        cprintf strs fmt ap = some (render strs false its ap) := by
  obtain ⟨its, hits, last, hlast, rfl⟩ := exists_items fmt
  exact ⟨its, hits, ⟨last, hlast, rfl⟩, fun ap =>
    ⟨printfLoop_items hits hlast, cprintf_items hits hlast⟩⟩

example : printf (fun _ => []) (chars "%d%%") (fun _ => 0x80000000) =
    some (chars "-2147483648%") := by decide

end Xv6.Printf
