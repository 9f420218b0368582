import Mathlib.Data.Int.Notation
import Mathlib.Data.List.Induction
import Mathlib.Tactic.Common
import Xv6.Param

/-!
# Graphics — numbers as text

`SimpleAbs`, `GetIntLength`, `ParseInt`, `ParseChar`, `ValueCapper` and `ValueCapperChar` of
`graphicsQueueables.c`, the C library's `atoi` and `strncpy`, over 32-bit `int`s.  A C string is
the list of its bytes before the NUL.

* `ParseInt_eq_horner`, `atoi_eq_ParseInt` — the two parsers read digits to the same number.
* `ParseInt_ParseChar` — `ParseChar` of a non-negative number is read back by `ParseInt`.
* `ValueCapperChar_ParseChar` — of a negative one it is empty, which the cap reads alike.
-/

namespace Xv6

/-- A C string: its bytes before the NUL. -/
abbrev CStr := List UInt8

/-- `SimpleAbs`. -/
def SimpleAbs (a : Int32) : Int32 := if a < 0 then a * -1 else a

/-- The `while` loop of `GetIntLength`.  Ten divisions by 10 take every `int` to `0`. -/
def intLengthLoop : ℕ → Int32 → ℕ → ℕ
  | 0, _, iter => iter
  | fuel + 1, xCh, iter => if xCh > 0 then intLengthLoop fuel (xCh / 10) (iter + 1) else iter

/-- `GetIntLength`: the digits of a number, ten of them at most. -/
def GetIntLength (x : Int32) : ℕ := intLengthLoop 10 x (if x = 0 then 1 else 0)

/-- The value `ParseInt` and `atoi` give a character: `(int) c - 48`. -/
def digitVal (c : UInt8) : Int32 := c.toInt8.toInt32 - 48

/-- `ParseInt` from the last character to the first, with the power of ten. -/
def parseIntLoop : CStr → Int32 → Int32 → Int32
  | [], holder, _ => holder
  | c :: cs, holder, offsetMP => parseIntLoop cs (holder + digitVal c * offsetMP) (offsetMP * 10)

/-- `ParseInt`: the digits from the last to the first, whatever the characters are. -/
def ParseInt (s : CStr) : Int32 := parseIntLoop s.reverse 0 1

/-- `ParseChar`: the characters stored before the NUL. -/
def ParseChar (n : Int32) : CStr :=
  let len := GetIntLength n
  (List.range len).map fun x => (n / 10 ^ (len - x - 1) % 10 + 48).toInt8.toUInt8

/-- `ValueCapper`: above the capacity it is the capacity, below 0 it is 0. -/
def ValueCapper (a capacity : Int32) : Int32 :=
  let a := if a > capacity then capacity else a
  if a < 0 then 0 else a

/-- `ValueCapperChar`: the same, of a numeral. -/
def ValueCapperChar (a : CStr) (capacity : Int32) : Int32 :=
  let parsed := ParseInt a
  let parsed := if parsed > capacity then capacity else parsed
  if parsed < 0 then 0 else parsed

/-- A decimal digit, as `atoi` tests it. -/
def isDigit (c : UInt8) : Bool := 48 ≤ c ∧ c ≤ 57

/-- `atoi` of `ulib.c`: it stops at the first character that is no digit. -/
def atoiLoop : CStr → Int32 → Int32
  | [], n => n
  | c :: cs, n => if isDigit c then atoiLoop cs (n * 10 + c.toInt8.toInt32 - 48) else n

/-- `atoi`, which wraps. -/
def atoi (s : CStr) : Int32 := atoiLoop s 0

/-! ### Reading -/

/-- Digits read from the left. -/
def horner (s : CStr) : Int32 := s.foldl (fun v c => v * 10 + digitVal c) 0

theorem horner_snoc (s : CStr) (c : UInt8) : horner (s ++ [c]) = horner s * 10 + digitVal c := by
  simp [horner, List.foldl_append]

/-- The loop of `ParseInt` adds up the digits from the last. -/
theorem parseIntLoop_eq (s : CStr) :
    ∀ holder mp : Int32, parseIntLoop s holder mp = holder + horner s.reverse * mp := by
  induction s with
  | nil =>
      intro holder mp
      simp [parseIntLoop, horner]
  | cons c cs ih =>
      intro holder mp
      rw [parseIntLoop, ih, List.reverse_cons, horner_snoc]
      grind

/-- `ParseInt` reads from the right what `horner` reads from the left. -/
theorem ParseInt_eq_horner (s : CStr) : ParseInt s = horner s := by
  rw [ParseInt, parseIntLoop_eq, List.reverse_reverse]
  grind

/-- The loop of `atoi` adds up the digits from the first. -/
theorem atoiLoop_eq {s : CStr} (h : ∀ c ∈ s, isDigit c) :
    ∀ n : Int32, atoiLoop s n = s.foldl (fun v c => v * 10 + digitVal c) n := by
  induction s with
  | nil => intro n; rfl
  | cons c cs ih =>
      intro n
      rw [atoiLoop, if_pos (h c (by simp)), ih fun d hd => h d (by simp [hd]), List.foldl_cons,
        digitVal]
      congr 1
      grind

/-- On a string of digits `atoi` and `ParseInt` agree. -/
theorem atoi_eq_ParseInt {s : CStr} (h : ∀ c ∈ s, isDigit c) : atoi s = ParseInt s := by
  rw [ParseInt_eq_horner, atoi, atoiLoop_eq h, horner]

theorem ValueCapperChar_eq (s : CStr) (cap : Int32) :
    ValueCapperChar s cap = ValueCapper (ParseInt s) cap := rfl

/-- A number capped to `0..hi`. -/
def clamp (v hi : ℤ) : ℤ := max 0 (min v hi)

/-- `ValueCapper` clamps. -/
theorem toInt_ValueCapper {v cap : Int32} (hcap : 0 ≤ cap) :
    (ValueCapper v cap).toInt = clamp v.toInt cap.toInt := by
  have h0 := Int32.le_iff_toInt_le.mp hcap
  rw [show (0 : Int32).toInt = 0 from rfl] at h0
  simp only [ValueCapper, clamp, gt_iff_lt, Int32.lt_iff_toInt_lt, show (0 : Int32).toInt = 0 from rfl]
  split
  · rw [if_neg (by omega)]
    omega
  · split
    · rw [show (0 : Int32).toInt = 0 from rfl]
      omega
    · omega

/-! ### Printing -/

section

variable {N len fuel : ℕ}

theorem ofNat_pos (h : N < 2 ^ 31) : (Int32.ofNat N > 0) ↔ 0 < N :=
  Int32.ofNat_lt_iff_lt (a := 0) (by decide) h

theorem ofNat_div_ten (h : N < 2 ^ 31) : Int32.ofNat N / 10 = Int32.ofNat (N / 10) :=
  (Int32.ofNat_div h (by decide)).symm

theorem ofNat_pow_ten (k : ℕ) : (10 : Int32) ^ k = Int32.ofNat (10 ^ k) := by
  induction k with
  | zero => rfl
  | succ k ih => rw [Int32.pow_succ, ih, Nat.pow_succ, Int32.ofNat_mul]; rfl

theorem intLengthLoop_succ (x : Int32) (i : ℕ) :
    intLengthLoop fuel x (i + 1) = intLengthLoop fuel x i + 1 := by
  induction fuel generalizing x i with
  | zero => rfl
  | succ fuel ih =>
      simp only [intLengthLoop]
      split
      · exact ih _ _
      · rfl

/-- One pass of the loop. -/
theorem intLengthLoop_pos (h : N < 2 ^ 31) (hN : 0 < N) :
    intLengthLoop (fuel + 1) (Int32.ofNat N) 0 = intLengthLoop fuel (Int32.ofNat (N / 10)) 0 + 1 := by
  rw [intLengthLoop, if_pos ((ofNat_pos h).mpr hN), ofNat_div_ten h, intLengthLoop_succ]

theorem intLengthLoop_zero : intLengthLoop fuel (Int32.ofNat 0) 0 = 0 := by
  cases fuel with
  | zero => rfl
  | succ fuel => rw [intLengthLoop, if_neg (by decide)]

/-- The loop counts enough digits. -/
theorem lt_pow_intLengthLoop (h : N < 2 ^ 31) (hN : N < 10 ^ fuel) :
    N < 10 ^ intLengthLoop fuel (Int32.ofNat N) 0 := by
  induction fuel generalizing N with
  | zero => exact hN
  | succ fuel ih =>
      rcases Nat.eq_zero_or_pos N with rfl | hpos
      · rw [intLengthLoop_zero]; exact Nat.one_pos
      · rw [intLengthLoop_pos h hpos, Nat.pow_succ]
        have := ih (N := N / 10) (by omega) (by rw [Nat.pow_succ] at hN; omega)
        omega

/-- The loop counts no more digits than there are. -/
theorem intLengthLoop_le (h : N < 2 ^ 31) (hN : N < 10 ^ len) :
    intLengthLoop fuel (Int32.ofNat N) 0 ≤ len := by
  induction fuel generalizing N len with
  | zero => exact Nat.zero_le _
  | succ fuel ih =>
      rcases Nat.eq_zero_or_pos N with rfl | hpos
      · rw [intLengthLoop_zero]; exact Nat.zero_le _
      · cases len with
        | zero => rw [Nat.pow_zero] at hN; omega
        | succ len =>
            rw [intLengthLoop_pos h hpos]
            have := ih (show N / 10 < 2 ^ 31 by omega)
              (show N / 10 < 10 ^ len by rw [Nat.pow_succ] at hN; omega)
            omega

theorem lt_pow_GetIntLength (h : N < 2 ^ 31) : N < 10 ^ GetIntLength (Int32.ofNat N) := by
  rcases Nat.eq_zero_or_pos N with rfl | hpos
  · exact Nat.pow_pos (by decide)
  · have hne : Int32.ofNat N ≠ 0 := (Int32.ne_of_lt ((ofNat_pos h).mpr hpos)).symm
    rw [GetIntLength, if_neg hne]
    exact lt_pow_intLengthLoop h (Nat.lt_trans h (by decide))

theorem GetIntLength_le (h : N < 2 ^ 31) (hN : N < 10 ^ (len + 1)) :
    GetIntLength (Int32.ofNat N) ≤ len + 1 := by
  rcases Nat.eq_zero_or_pos N with rfl | hpos
  · exact (show GetIntLength (Int32.ofNat 0) = 1 by decide) ▸ Nat.le_add_left 1 len
  · have hne : Int32.ofNat N ≠ 0 := (Int32.ne_of_lt ((ofNat_pos h).mpr hpos)).symm
    rw [GetIntLength, if_neg hne]
    exact intLengthLoop_le h hN

/-- The digits of `N` as characters, the last `len` of them. -/
def digitChars (N len : ℕ) : CStr :=
  (List.range len).map fun x => (Int32.ofNat (N / 10 ^ (len - x - 1) % 10) + 48).toInt8.toUInt8

/-- The last digit comes last. -/
theorem digitChars_succ (N len : ℕ) :
    digitChars N (len + 1) =
      digitChars (N / 10) len ++ [(Int32.ofNat (N % 10) + 48).toInt8.toUInt8] := by
  rw [digitChars, List.range_succ, List.map_append, List.map_singleton]
  refine congrArg₂ (· ++ ·) ?_ ?_
  · refine List.map_congr_left fun x hx => ?_
    have hx := List.mem_range.mp hx
    rw [show len + 1 - x - 1 = (len - x - 1) + 1 by omega, Nat.pow_succ', Nat.div_div_eq_div_mul]
  · simp

theorem digitVal_digit {d : ℕ} (h : d < 10) :
    digitVal (Int32.ofNat d + 48).toInt8.toUInt8 = Int32.ofNat d :=
  (show ∀ d : Fin 10, digitVal (Int32.ofNat d + 48).toInt8.toUInt8 = Int32.ofNat d by decide) ⟨d, h⟩

theorem horner_digitChars (N len : ℕ) : horner (digitChars N len) = Int32.ofNat (N % 10 ^ len) := by
  induction len generalizing N with
  | zero => rw [Nat.pow_zero, Nat.mod_one]; rfl
  | succ len ih =>
      rw [digitChars_succ, horner_snoc, ih, digitVal_digit (Nat.mod_lt _ (by decide)),
        show (10 : Int32) = Int32.ofNat 10 from rfl, ← Int32.ofNat_mul, ← Int32.ofNat_add,
        Nat.pow_succ', Nat.mod_mul, Nat.mul_comm, Nat.add_comm]

/-- `ParseChar` writes the digits of a number that is not negative. -/
theorem ParseChar_ofNat (h : N < 2 ^ 31) :
    ParseChar (Int32.ofNat N) = digitChars N (GetIntLength (Int32.ofNat N)) := by
  have hlen : GetIntLength (Int32.ofNat N) ≤ 10 := GetIntLength_le h (Nat.lt_trans h (by decide))
  refine List.map_congr_left fun x hx => ?_
  have hx := List.mem_range.mp hx
  have hpow : 10 ^ (GetIntLength (Int32.ofNat N) - x - 1) < 2 ^ 31 :=
    Nat.lt_of_le_of_lt (Nat.pow_le_pow_right (by decide) (by omega : _ ≤ 9)) (by decide)
  have hdiv := Nat.div_le_self N (10 ^ (GetIntLength (Int32.ofNat N) - x - 1))
  rw [ofNat_pow_ten, ← Int32.ofNat_div h hpow, show (10 : Int32) = Int32.ofNat 10 from rfl,
    ← Int32.ofNat_mod (by omega) (by decide)]

end

theorem exists_ofNat {n : Int32} (h : 0 ≤ n) : ∃ N < 2 ^ 31, n = Int32.ofNat N :=
  ⟨n.toNatClampNeg, n.toNatClampNeg_lt, (Int32.ofNat_toNatClampNeg n h).symm⟩

/-- **What `ParseChar` prints, `ParseInt` reads.** -/
theorem ParseInt_ParseChar {n : Int32} (h : 0 ≤ n) : ParseInt (ParseChar n) = n := by
  obtain ⟨N, hN, rfl⟩ := exists_ofNat h
  rw [ParseInt_eq_horner, ParseChar_ofNat hN, horner_digitChars,
    Nat.mod_eq_of_lt (lt_pow_GetIntLength hN)]

theorem ParseChar_neg {n : Int32} (h : n < 0) : ParseChar n = [] := by
  have hlen : GetIntLength n = 0 := by
    rw [GetIntLength, if_neg (Int32.ne_of_lt h), intLengthLoop, if_neg]
    exact Int32.not_lt.mpr (Int32.le_of_lt h)
  rw [ParseChar, hlen]
  rfl

/-! ### Capping -/

theorem ValueCapper_nonneg (a cap : Int32) : 0 ≤ ValueCapper a cap := by
  grind [ValueCapper]

theorem ValueCapper_le {a cap : Int32} (h : 0 ≤ cap) : ValueCapper a cap ≤ cap := by
  grind [ValueCapper]

theorem ValueCapper_neg {a cap : Int32} (ha : a < 0) (h : 0 ≤ cap) : ValueCapper a cap = 0 := by
  have : ¬ a > cap := Int32.not_lt.mpr (Int32.le_trans (Int32.le_of_lt ha) h)
  simp only [ValueCapper, if_neg this, if_pos ha]

/-- **A number passed on as text is capped as the number is**, negative or not. -/
theorem ValueCapperChar_ParseChar (n : Int32) {cap : Int32} (h : 0 ≤ cap) :
    ValueCapperChar (ParseChar n) cap = ValueCapper n cap := by
  rw [ValueCapperChar_eq]
  rcases Int32.lt_or_le n 0 with hn | hn
  · have hz : ValueCapper 0 cap = 0 := by grind [ValueCapper]
    rw [ParseChar_neg hn, ValueCapper_neg hn h]
    exact hz
  · rw [ParseInt_ParseChar hn]

end Xv6
