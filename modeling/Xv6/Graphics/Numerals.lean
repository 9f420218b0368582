import Mathlib.Data.Int.Notation
import Mathlib.Data.List.GetD
import Mathlib.Data.List.TakeWhile
import Mathlib.Logic.Function.Basic
import Mathlib.Tactic.Ring
import Xv6.Graphics.Text

/-!
# Graphics — numerals

What `ParseChar` writes and what `ParseInt` and `atoi` read, against decimal numerals and the
numbers they stand for.

* `numeral`, `digitsValue` — the canonical numeral of a number, and the number of a string of digits.
* `decimal_round_trip` — `ParseChar` writes numerals, and the parsers read strings of digits.
* `reading` — what a string comes to if every character counts as a digit, as for `ParseInt`; `atoi`
  stops at the first character that is none.
* `modes_read_alike_iff` — when the two come to the same coordinate or colour.
-/

namespace Xv6

variable {N len : ℕ} {s : CStr}

/-! ### Writing -/

/-- The canonical decimal numeral. -/
def numeral (N : ℕ) : CStr := (Nat.toDigits 10 N).map fun c => UInt8.ofNat c.toNat

theorem digitChar_eq {d : ℕ} (h : d < 10) :
    UInt8.ofNat (Nat.digitChar d).toNat = (Int32.ofNat d + 48).toInt8.toUInt8 :=
  (show ∀ d : Fin 10, UInt8.ofNat (Nat.digitChar d).toNat = (Int32.ofNat d + 48).toInt8.toUInt8 by
    decide) ⟨d, h⟩

theorem numeral_eq (N : ℕ) : numeral N =
    (if N < 10 then [] else numeral (N / 10)) ++ [(Int32.ofNat (N % 10) + 48).toInt8.toUInt8] := by
  rw [numeral, Nat.toDigits_eq_if (by decide)]
  split
  · rename_i h
    rw [List.map_singleton, digitChar_eq h, Nat.mod_eq_of_lt h, List.nil_append]
  · rw [List.map_append, List.map_singleton, digitChar_eq (Nat.mod_lt N (by decide)), numeral]

/-- As many digits as the numeral has are the numeral. -/
theorem digitChars_eq_numeral (h : N < 10 ^ (len + 1)) (hlen : len = 0 ∨ 10 ^ len ≤ N) :
    digitChars N (len + 1) = numeral N := by
  induction len generalizing N with
  | zero =>
      rw [Nat.zero_add, Nat.pow_one] at h
      rw [digitChars_succ, numeral_eq, if_pos h]
      rfl
  | succ len ih =>
      have hle := hlen.resolve_left (Nat.succ_ne_zero len)
      have hten : 10 ≤ N := Nat.le_trans (Nat.le_self_pow (Nat.succ_ne_zero len) 10) hle
      rw [Nat.pow_succ] at h hle
      rw [digitChars_succ, numeral_eq, if_neg (by omega), ih (by omega)]
      rcases Nat.eq_zero_or_pos len with h0 | h0
      · exact .inl h0
      · exact .inr (by omega)

/-- **What `ParseChar` writes is the numeral.** -/
theorem ParseChar_eq_numeral (h : N < 2 ^ 31) : ParseChar (Int32.ofNat N) = numeral N := by
  have hlt := lt_pow_GetIntLength h
  rw [ParseChar_ofNat h]
  cases hlen : GetIntLength (Int32.ofNat N) with
  | zero =>
      -- Only `0` is below `10 ^ 0`, and it has one digit.
      rw [hlen, Nat.pow_zero, Nat.lt_one_iff] at hlt
      subst hlt
      exact absurd hlen (by decide)
  | succ len =>
      rw [hlen] at hlt
      refine digitChars_eq_numeral hlt ?_
      cases len with
      | zero => exact .inl rfl
      | succ len =>
          refine .inr (Nat.le_of_not_lt fun hsmall => ?_)
          have := GetIntLength_le h hsmall
          omega

theorem isDigit_last (N : ℕ) : isDigit (Int32.ofNat (N % 10) + 48).toInt8.toUInt8 = true :=
  (show ∀ d : Fin 10, isDigit (Int32.ofNat d + 48).toInt8.toUInt8 = true by decide)
    ⟨N % 10, Nat.mod_lt N (by decide)⟩

theorem numeral_ne_nil (N : ℕ) : numeral N ≠ [] := by
  rw [numeral_eq]
  exact List.append_ne_nil_of_right_ne_nil _ (List.cons_ne_nil _ _)

/-- A numeral is digits, the first of them `0` for `0` only. -/
theorem numeral_canonical (N : ℕ) :
    (∀ c ∈ numeral N, isDigit c = true) ∧ (N ≠ 0 → (numeral N).head? ≠ some 48) := by
  induction N using Nat.strongRecOn with
  | ind N ih =>
      rw [numeral_eq]
      split
      · rename_i hlt
        refine ⟨fun c hc => ?_, fun hne => ?_⟩
        · rw [List.nil_append, List.mem_singleton] at hc
          exact hc ▸ isDigit_last N
        · rw [Nat.mod_eq_of_lt hlt, List.nil_append, List.head?_cons]
          exact (show ∀ d : Fin 10, (d : ℕ) ≠ 0 →
            some (Int32.ofNat d + 48).toInt8.toUInt8 ≠ some 48 by decide) ⟨N, hlt⟩ hne
      · rename_i hge
        obtain ⟨hdigits, hhead⟩ := ih (N / 10) (by omega)
        refine ⟨fun c hc => ?_, fun _ => ?_⟩
        · rcases List.mem_append.mp hc with hc | hc
          · exact hdigits c hc
          · exact List.mem_singleton.mp hc ▸ isDigit_last N
        · obtain ⟨c, cs, hcs⟩ := List.exists_cons_of_ne_nil (numeral_ne_nil (N / 10))
          rw [hcs] at hhead ⊢
          exact hhead (by omega)

/-- The loop of `ParseChar` that computes `power`. -/
def powerLoop : ℕ → Int32 → Int32
  | 0, power => power
  | n + 1, power => powerLoop n (power * 10)

theorem powerLoop_eq (n : ℕ) : ∀ p : Int32, powerLoop n p = p * 10 ^ n := by
  induction n with
  | zero => exact fun p => (Int32.mul_one p).symm
  | succ n ih =>
      intro p
      rw [powerLoop, ih, Int32.pow_succ, Int32.mul_assoc, Int32.mul_comm 10]

/-- The buffer after `ParseChar`: `outChar[x]` for each place, then the NUL. -/
def ParseCharInto (n : Int32) (outChar : ℕ → UInt8) : ℕ → UInt8 :=
  let len := GetIntLength n
  let digits := (List.range len).foldl (fun out x =>
    Function.update out x (n / powerLoop (len - x - 1) 1 % 10 + 48).toInt8.toUInt8) outChar
  Function.update digits len 0

/-- A loop that stores one byte after the other. -/
theorem foldl_update (f : ℕ → UInt8) (out : ℕ → UInt8) (len i : ℕ) :
    (List.range len).foldl (fun out x => Function.update out x (f x)) out i =
      if i < len then f i else out i := by
  induction len with
  | zero => rfl
  | succ len ih =>
      rw [List.range_succ, List.foldl_append, List.foldl_cons, List.foldl_nil]
      rcases Nat.lt_trichotomy i len with h | rfl | h
      · rw [Function.update_of_ne (Nat.ne_of_lt h), ih, if_pos h, if_pos (Nat.lt_succ_of_lt h)]
      · rw [Function.update_self, if_pos (Nat.lt_succ_self i)]
      · rw [Function.update_of_ne (Nat.ne_of_gt h), ih, if_neg (Nat.not_lt.mpr (Nat.le_of_lt h)),
          if_neg (by omega)]

/-- The characters of the numeral, each by its place. -/
theorem getElem?_ParseChar (n : Int32) (i : ℕ) : (ParseChar n)[i]? =
    if i < GetIntLength n then
      some (n / powerLoop (GetIntLength n - i - 1) 1 % 10 + 48).toInt8.toUInt8
    else none := by
  rw [ParseChar, List.getElem?_map, powerLoop_eq, Int32.one_mul]
  split
  · rename_i h
    rw [List.getElem?_range h]
    rfl
  · rename_i h
    rw [List.getElem?_eq_none (by rw [List.length_range]; exact Nat.le_of_not_lt h)]
    rfl

theorem length_ParseChar (n : Int32) : (ParseChar n).length = GetIntLength n := by
  rw [ParseChar, List.length_map, List.length_range]

/-- What `ParseChar` stores is its string and the NUL, and nothing else. -/
theorem ParseCharInto_eq (n : Int32) (outChar : ℕ → UInt8) (i : ℕ) :
    ParseCharInto n outChar i = (ParseChar n ++ [0]).getD i (outChar i) := by
  rw [ParseCharInto, List.getD_eq_getElem?_getD]
  rcases Nat.lt_trichotomy i (GetIntLength n) with h | rfl | h
  · rw [Function.update_of_ne (Nat.ne_of_lt h), foldl_update, if_pos h,
      List.getElem?_append_left (by rwa [length_ParseChar]), getElem?_ParseChar, if_pos h]
    rfl
  · rw [Function.update_self, ← length_ParseChar, List.getElem?_concat_length]
    rfl
  · have hend : (ParseChar n ++ [0]).length ≤ i := by
      rw [List.length_append, length_ParseChar]
      exact h
    rw [Function.update_of_ne (Nat.ne_of_gt h), foldl_update, if_neg (Nat.lt_asymm h),
      List.getElem?_eq_none hend]
    rfl

/-- No power on the way overflows. -/
theorem powerLoop_exact (h : N < 2 ^ 31) {x y : ℕ} (hx : x < GetIntLength (Int32.ofNat N))
    (hy : y ≤ GetIntLength (Int32.ofNat N) - x - 1) : (powerLoop y 1).toInt = 10 ^ y := by
  have hlen : GetIntLength (Int32.ofNat N) ≤ 10 := GetIntLength_le h (Nat.lt_trans h (by decide))
  have hpow : 10 ^ y < 2 ^ 31 :=
    Nat.lt_of_le_of_lt (Nat.pow_le_pow_right (by decide) (by omega : _ ≤ 9)) (by decide)
  rw [powerLoop_eq, Int32.one_mul, ofNat_pow_ten, Int32.toInt_ofNat_of_lt hpow]
  exact Int.natCast_pow 10 y

/-! ### Reading -/

/-- The number that a string of digits stands for. -/
def digitsValue (s : CStr) : ℕ := s.foldl (fun v c => v * 10 + (c.toNat - 48)) 0

/-- What a string comes to if every character counts as a digit: `c - 48`, whatever `c` is. -/
def reading (s : CStr) : ℤ := s.foldl (fun v c => v * 10 + (c.toInt8.toInt - 48)) 0

/-- A parser works modulo `2 ^ 32`. -/
theorem horner_eq_reading (s : CStr) : horner s = Int32.ofInt (reading s) := by
  have hfold : ∀ v : ℤ, s.foldl (fun v c => v * 10 + digitVal c) (Int32.ofInt v) =
      Int32.ofInt (s.foldl (fun v c => v * 10 + (c.toInt8.toInt - 48)) v) := by
    induction s with
    | nil => exact fun v => rfl
    | cons c s ih =>
        intro v
        rw [List.foldl_cons, List.foldl_cons, ← ih, Int32.ofInt_add, Int32.ofInt_mul,
          Int32.ofInt_sub, Int32.ofInt_int8ToInt]
        rfl
  exact hfold 0

theorem digit_toInt {c : UInt8} (h : isDigit c = true) : c.toInt8.toInt - 48 = (c.toNat - 48 : ℕ) := by
  have hc : 48 ≤ c.toNat ∧ c.toNat ≤ 57 := by simpa [isDigit, UInt8.le_iff_toNat_le] using h
  have := (show ∀ d : Fin 10, (UInt8.ofNat (48 + d)).toInt8.toInt - 48 = (d : ℕ) by decide)
    ⟨c.toNat - 48, by omega⟩
  rwa [show 48 + (c.toNat - 48) = c.toNat by omega, UInt8.ofNat_toNat] at this

/-- Of digits alone, both readings agree. -/
theorem reading_digits {s : CStr} (h : ∀ c ∈ s, isDigit c = true) : reading s = digitsValue s := by
  have hfold : ∀ v : ℕ, s.foldl (fun v c => v * 10 + (c.toInt8.toInt - 48)) (v : ℤ) =
      (s.foldl (fun v c => v * 10 + (c.toNat - 48)) v : ℕ) := by
    induction s with
    | nil => exact fun v => rfl
    | cons c s ih =>
        intro v
        rw [List.foldl_cons, List.foldl_cons, digit_toInt (h c (List.mem_cons_self ..)),
          ← ih fun d hd => h d (List.mem_cons_of_mem c hd)]
        push_cast
        rfl
  exact hfold 0

/-- Of a string of digits both parsers read the number, modulo `2 ^ 32`. -/
theorem ParseInt_digits {s : CStr} (h : ∀ c ∈ s, isDigit c = true) :
    ParseInt s = Int32.ofNat (digitsValue s) := by
  rw [ParseInt_eq_horner, horner_eq_reading, reading_digits h, Int32.ofInt_eq_ofNat]

/-- Below `2 ^ 31` an `int` says which number it is, modulo `2 ^ 32`. -/
theorem mod_eq_of_ofNat {M : ℕ} (hM : M < 2 ^ 31) (h : Int32.ofNat N = Int32.ofNat M) :
    N % 2 ^ 32 = M := by
  have := congrArg (fun n : Int32 => n.toBitVec.toNat) h
  simpa [Nat.mod_eq_of_lt (Nat.lt_trans hM (by decide : 2 ^ 31 < 4294967296))] using this

/-- **Decimal numerals are written and read back.** -/
theorem decimal_round_trip :
    (∀ N < 2 ^ 31, ParseChar (Int32.ofNat N) = numeral N ∧
      (∀ (outChar : ℕ → UInt8) (i : ℕ), ParseCharInto (Int32.ofNat N) outChar i =
        (numeral N ++ [0]).getD i (outChar i)) ∧
      (∀ c ∈ numeral N, isDigit c = true) ∧ (N ≠ 0 → (numeral N).head? ≠ some 48) ∧
      (∀ x < GetIntLength (Int32.ofNat N), ∀ y ≤ GetIntLength (Int32.ofNat N) - x - 1,
        (powerLoop y 1).toInt = 10 ^ y) ∧
      ParseInt (ParseChar (Int32.ofNat N)) = Int32.ofNat N) ∧
    ∀ s : CStr, (∀ c ∈ s, isDigit c = true) → ParseInt s = atoi s ∧
      ParseInt s = Int32.ofNat (digitsValue s) ∧
      (0 ≤ ParseInt s → ParseChar (ParseInt s) = numeral (digitsValue s % 2 ^ 32)) := by
  refine ⟨fun N hN => ⟨ParseChar_eq_numeral hN,
    fun outChar i => ParseChar_eq_numeral hN ▸ ParseCharInto_eq _ outChar i,
    (numeral_canonical N).1, (numeral_canonical N).2, fun x hx y hy => powerLoop_exact hN hx hy,
    ParseInt_ParseChar ?_⟩,
    fun s hs => ⟨(atoi_eq_ParseInt hs).symm, ParseInt_digits hs, fun hpos => ?_⟩⟩
  · exact (Int32.ofNat_le_iff_le (a := 0) (by decide) hN).mpr (Nat.zero_le N)
  · obtain ⟨M, hM, he⟩ := exists_ofNat hpos
    have hval : digitsValue s % 2 ^ 32 = M :=
      mod_eq_of_ofNat hM ((ParseInt_digits hs).symm.trans he)
    rw [he, ParseChar_eq_numeral hM, hval]

theorem decimal_round_trip_hundred : ParseChar (Int32.ofNat 100) = numeral 100 ∧
    ParseInt (ParseChar (Int32.ofNat 100)) = Int32.ofNat 100 ∧
    ParseInt [49, 48, 48] = atoi [49, 48, 48] := by
  obtain ⟨hprint, -, -, -, -, hread⟩ := decimal_round_trip.1 100 (by decide)
  exact ⟨hprint, hread, (decimal_round_trip.2 [49, 48, 48] (by simp [isDigit])).1⟩

/-! ### The two modes -/

/-- The characters `atoi` reads. -/
def digitsOf (s : CStr) : CStr := s.takeWhile isDigit

/-- What follows them. -/
def junkOf (s : CStr) : CStr := s.dropWhile isDigit

/-- `atoi` reads the digits at the front, modulo 2^32. -/
theorem atoi_eq_reading (s : CStr) : atoi s = Int32.ofInt (reading (digitsOf s)) := by
  have hloop : ∀ n : Int32, atoiLoop s n = atoiLoop (digitsOf s) n := by
    induction s with
    | nil => exact fun n => rfl
    | cons c cs ih =>
        intro n
        rw [digitsOf, List.takeWhile_cons]
        cases hc : isDigit c with
        | true => rw [atoiLoop, if_pos hc, if_pos rfl, atoiLoop, if_pos hc, ih, digitsOf]
        | false => simp [atoiLoop, hc]
  have hdigits : ∀ c ∈ digitsOf s, isDigit c = true := fun c hc => List.mem_takeWhile_imp hc
  rw [atoi, hloop, ← atoi, atoi_eq_ParseInt hdigits, ParseInt_eq_horner, horner_eq_reading]

theorem reading_snoc (s : CStr) (c : UInt8) :
    reading (s ++ [c]) = reading s * 10 + (c.toInt8.toInt - 48) := by
  simp [reading, List.foldl_append]

/-- The characters that follow shift what came before them. -/
theorem reading_append (s t : CStr) : reading (s ++ t) = reading s * 10 ^ t.length + reading t := by
  induction t using List.reverseRecOn with
  | nil => simp [reading]
  | append_singleton t c ih =>
      rw [← List.append_assoc, reading_snoc, ih, reading_snoc, List.length_append,
        List.length_singleton, Int.pow_succ]
      ring

theorem ParseInt_eq_reading (s : CStr) : ParseInt s =
    Int32.ofInt (reading (digitsOf s) * 10 ^ (junkOf s).length + reading (junkOf s)) := by
  rw [ParseInt_eq_horner, horner_eq_reading, ← reading_append, digitsOf, junkOf,
    List.takeWhile_append_dropWhile]

/-- Two numbers that every capacity in use takes to the same coordinate or colour. -/
def Alike (a b : Int32) : Prop := (a ≤ 0 ∧ b ≤ 0) ∨ (319 ≤ a ∧ 319 ≤ b) ∨ a = b

/-- No cap tells the values apart exactly if they are alike. -/
theorem ValueCapper_alike_iff {a b : Int32} :
    (∀ cap ∈ [319, 199, 63], ValueCapper a cap = ValueCapper b cap) ↔ Alike a b := by
  have key : ∀ cap : Int32, 0 ≤ cap → (ValueCapper a cap = ValueCapper b cap ↔
      clamp a.toInt cap.toInt = clamp b.toInt cap.toInt) := fun cap h => by
    rw [← Int32.toInt_inj, toInt_ValueCapper h, toInt_ValueCapper h]
  simp only [List.mem_cons, List.not_mem_nil, or_false, forall_eq_or_imp, forall_eq]
  rw [key 319 (by decide), key 199 (by decide), key 63 (by decide), Alike]
  simp only [clamp, ← Int32.toInt_inj, Int32.le_iff_toInt_le, show Int32.toInt 319 = 319 by decide,
    show Int32.toInt 199 = 199 by decide, show Int32.toInt 63 = 63 by decide,
    show Int32.toInt 0 = 0 by decide]
  omega

/-- **When both painting modes read a number alike.**  The digits a string starts with are all that
`atoi` reads; the characters after them are digits too for `ParseInt`. -/
theorem modes_read_alike_iff (s : CStr) :
    (∀ cap ∈ [319, 199, 63], ValueCapperChar s cap = ValueCapper (atoi s) cap) ↔
      junkOf s = [] ∨
        Alike (Int32.ofInt (reading (digitsOf s) * 10 ^ (junkOf s).length + reading (junkOf s)))
          (Int32.ofInt (reading (digitsOf s))) := by
  simp only [ValueCapperChar_eq]
  rw [ValueCapper_alike_iff, atoi_eq_reading, ParseInt_eq_reading]
  refine ⟨Or.inr, fun h => h.elim (fun hnil => ?_) id⟩
  rw [hnil, List.length_nil, Int.pow_zero, Int.mul_one]
  exact .inr (.inr (congrArg _ (Int.add_zero _)))

/-- `1a` is `59` when queued and `1` as a system call. -/
theorem not_modes_read_alike : ¬ ∀ s : CStr, (∀ c ∈ s, c ≠ 0 ∧ c ≠ 32) →
    ∀ cap ∈ [319, 199, 63], ValueCapperChar s cap = ValueCapper (atoi s) cap := fun h =>
  absurd (h [49, 97] (by simp) 319 (by simp)) (by decide)

end Xv6
