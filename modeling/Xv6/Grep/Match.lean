import Xv6.Fs.Layout
import Xv6.Lib.Pattern

/-!
# Grep — the matcher of regular expressions

`match`, `matchhere` and `matchstar` of `grep.c`.  A pointer into a string is the part of the
string behind it; the NUL is the end of the list.  The two functions that call each other are given
a bound on the depth of their calls, and `none` is a run that does not end within it.

`Regex.ofString` reads a pattern the way its text is explained: an anchor at the front, an anchor
at the end, and in between the characters, some of them repeated.

* `matchhere_eq` — `matchhere` looks for a prefix, by induction along the pattern, and along the text
  where `matchstar` goes through it.
* `match_correct` — the matcher returns, and finds what the pattern means.
-/

namespace Xv6.Grep

open Xv6.Fs (Str)
open Lib.Pattern

/-- `'*'`, `'^'`, `'$'` and `'.'`. -/
def asterisk : UInt8 := 42

/-- The characters with a meaning: `^`, `$` and `.`. -/
def caret : UInt8 := 94
def dollar : UInt8 := 36
def period : UInt8 := 46

/-! ### `grep.c` -/

mutual

/-- Search for `re` at the beginning of `text`. -/
def matchhere : ℕ → Str → Str → Option Bool
  | 0, _, _ => none
  | _ + 1, [], _ => some true
  | fuel + 1, c :: re, text =>
      if re.head? = some asterisk then matchstar fuel c re.tail text
      else if c = dollar ∧ re = [] then some text.isEmpty
      else
        match text with
        | [] => some false
        | t :: text => if c = period ∨ c = t then matchhere fuel re text else some false

/-- Search for `c*re` at the beginning of `text`. -/
def matchstar : ℕ → UInt8 → Str → Str → Option Bool
  | 0, _, _, _ => none
  | fuel + 1, c, re, text =>
      match matchhere fuel re text with
      | none => none
      | some true => some true
      | some false =>
          match text with
          | [] => some false
          | t :: text => if t = c ∨ c = period then matchstar fuel c re text else some false

end

/-- The loop of `match`, over the text that is left: the empty string is looked at too. -/
def matchFrom (fuel : ℕ) (re : Str) : Str → Option Bool
  | [] => matchhere fuel re []
  | t :: text =>
      match matchhere fuel re (t :: text) with
      | none => none
      | some true => some true
      | some false => matchFrom fuel re text

/-- `match`, which is a keyword here. -/
def matchRe (fuel : ℕ) (re text : Str) : Option Bool :=
  if re.head? = some caret then matchhere fuel re.tail text else matchFrom fuel re text

/-! ### What a pattern means -/

/-- The characters that `x` stands for. -/
def accepts (x : UInt8) : UInt8 → Bool := fun t => x = period ∨ x = t

/-- The characters of a pattern, each with the `*` that may follow it. -/
def pieces : Str → List (Piece UInt8)
  | [] => []
  | [x] => [.one (accepts x)]
  | x :: y :: re =>
      if y = asterisk then .star (accepts x) :: pieces re else .one (accepts x) :: pieces (y :: re)

/-- The pattern ends in `$`. -/
def endsInDollar (re : Str) : Bool := re.getLast? = some dollar

/-- The pattern without the `$` at its end. -/
def body (re : Str) : Str := if endsInDollar re then re.dropLast else re

/-- A regular expression: whether it is anchored at the start and at the end of the text, and what
it says in between. -/
structure Regex where
  start : Bool
  stop : Bool
  pieces : List (Piece UInt8)

/-- What an expression means: whether it is anchored, and the pieces in between. -/
def Regex.ofString (re : Str) : Regex :=
  let start := re.head? = some caret
  let rest := if start then re.tail else re
  ⟨start, endsInDollar rest, Grep.pieces (body rest)⟩

theorem accepts_iff {x t : UInt8} : accepts x t = true ↔ x = period ∨ x = t := decide_eq_true_iff

/-- `r` matches some substring of the text. -/
def Regex.Matches (r : Regex) (text : Str) : Prop := Occurs r.start r.stop r.pieces text

/-! ### `matchhere` -/

variable {c x : UInt8} {re text : Str} {fuel : ℕ}

theorem endsInDollar_cons (h : re ≠ []) : endsInDollar (c :: re) = endsInDollar re := by
  rw [endsInDollar, endsInDollar, List.getLast?_cons, List.getLast?_eq_some_getLast h]
  rfl

theorem body_cons (h : re ≠ []) : body (c :: re) = c :: body re := by
  rw [body, body, endsInDollar_cons h]
  split
  · exact List.dropLast_cons_of_ne_nil h
  · rfl

/-- A character with a `*` behind it is neither the `$` at the end nor next to it. -/
theorem star_cases (h : re.head? = some asterisk) :
    endsInDollar (c :: re) = endsInDollar re.tail ∧
      pieces (body (c :: re)) = .star (accepts c) :: pieces (body re.tail) := by
  obtain ⟨re, rfl⟩ : ∃ re', re = asterisk :: re' := by
    cases re with
    | nil => cases h
    | cons y re => exact ⟨re, by rw [Option.some.inj h]⟩
  rw [endsInDollar_cons (List.cons_ne_nil _ _), body_cons (List.cons_ne_nil _ _), List.tail_cons]
  rcases eq_or_ne re [] with rfl | hne
  · refine ⟨by decide, ?_⟩
    rw [show body [asterisk] = [asterisk] by decide, show body [] = [] from rfl]
    rfl
  · rw [endsInDollar_cons hne, body_cons hne, pieces, if_pos rfl]
    exact ⟨rfl, rfl⟩

/-- Any other character stands for itself, but for the `$` at the end. -/
theorem one_cases (h : re.head? ≠ some asterisk) (hd : ¬ (c = dollar ∧ re = [])) :
    endsInDollar (c :: re) = endsInDollar re ∧
      pieces (body (c :: re)) = .one (accepts c) :: pieces (body re) := by
  rcases eq_or_ne re [] with rfl | hne
  · have hc : endsInDollar [c] = false := by simpa [endsInDollar] using hd
    exact ⟨hc, by rw [body, hc]; rfl⟩
  · refine ⟨endsInDollar_cons hne, ?_⟩
    rw [body_cons hne]
    cases hb : body re with
    | nil => rfl
    | cons y rest =>
        obtain ⟨z, re, rfl⟩ := List.exists_cons_of_ne_nil hne
        have hy : y = z := by
          rcases eq_or_ne re [] with rfl | hre
          · rw [body] at hb
            split at hb
            · cases hb
            · exact (List.cons.inj hb).1.symm
          · rw [body_cons hre] at hb
            exact (List.cons.inj hb).1.symm
        subst hy
        rw [pieces, if_neg fun he => h (by rw [he]; rfl)]

/-- A run of `matchhere` or `matchstar` that returns, with an answer to `P`. -/
def Answers (P : Prop) (r : Option Bool) : Prop := ∃ b, r = some b ∧ (b = true ↔ P)

theorem answers_some {P : Prop} {b : Bool} (h : b = true ↔ P) : Answers P (some b) := ⟨b, rfl, h⟩

/-- **`matchstar`**, where `matchhere` of the rest of the pattern answers: the shortest repetition
comes first, and no other is missed. -/
theorem matchstar_eq (hhere : ∀ (text : Str) (fuel : ℕ), re.length + text.length < fuel →
      Answers (Starts (pieces (body re)) (endsInDollar re) text) (matchhere fuel re text))
    (text : Str) : ∀ fuel, re.length + text.length + 1 < fuel →
      Answers (Starts (.star (accepts c) :: pieces (body re)) (endsInDollar re) text)
        (matchstar fuel c re text) := by
  induction text with
  | nil =>
      intro fuel hfuel
      obtain ⟨fuel, rfl⟩ := Nat.exists_eq_succ_of_ne_zero (Nat.ne_zero_of_lt hfuel)
      obtain ⟨b, hb, hiff⟩ := hhere [] fuel (by omega)
      rw [matchstar, hb]
      refine ⟨b, by cases b <;> rfl, hiff.trans ?_⟩
      rw [starts_star (p := accepts c)]
      exact ⟨Or.inl, fun h => h.resolve_right fun ⟨_, _, ht, _⟩ => by cases ht⟩
  | cons t text ih =>
      intro fuel hfuel
      rw [List.length_cons] at hfuel
      obtain ⟨fuel, rfl⟩ := Nat.exists_eq_succ_of_ne_zero (Nat.ne_zero_of_lt hfuel)
      obtain ⟨b, hb, hiff⟩ := hhere (t :: text) fuel (by rw [List.length_cons]; omega)
      rw [matchstar, hb, starts_star]
      cases b with
      | true => exact answers_some (iff_of_true rfl (Or.inl (hiff.mp rfl)))
      | false =>
          have hno : ¬ Starts (pieces (body re)) (endsInDollar re) (t :: text) := fun h => by
            cases hiff.mpr h
          dsimp only
          split
          · rename_i hc
            obtain ⟨b, hb, hiff⟩ := ih fuel (by omega)
            refine ⟨b, hb, hiff.trans ⟨fun h => Or.inr ⟨t, text, rfl, ?_, h⟩, fun h => ?_⟩⟩
            · exact accepts_iff.mpr (hc.symm.imp id Eq.symm)
            · obtain ⟨a, text', he, -, h⟩ := h.resolve_left hno
              obtain ⟨-, rfl⟩ := List.cons.inj he
              exact h
          · rename_i hc
            refine answers_some (iff_of_false Bool.false_ne_true fun h => ?_)
            obtain ⟨a, text', he, ha, -⟩ := h.resolve_left hno
            obtain ⟨rfl, -⟩ := List.cons.inj he
            exact hc ((accepts_iff.mp ha).symm.imp Eq.symm id)

/-- **`matchhere`** looks for a prefix of the text. -/
theorem matchhere_eq (n : ℕ) : ∀ (re text : Str) (fuel : ℕ), re.length ≤ n →
    re.length + text.length < fuel →
      Answers (Starts (pieces (body re)) (endsInDollar re) text) (matchhere fuel re text) := by
  -- The induction is on the length of the pattern, which each round shortens.
  induction n with
  | zero =>
      intro re text fuel hlen hfuel
      obtain rfl : re = [] := List.eq_nil_of_length_eq_zero (Nat.le_zero.mp hlen)
      obtain ⟨fuel, rfl⟩ := Nat.exists_eq_succ_of_ne_zero (Nat.ne_zero_of_lt hfuel)
      rw [matchhere]
      exact answers_some (iff_of_true rfl (starts_nil.mpr fun h => (by cases h)))
  | succ n ih =>
      intro re text fuel hlen hfuel
      obtain ⟨fuel, rfl⟩ := Nat.exists_eq_succ_of_ne_zero (Nat.ne_zero_of_lt hfuel)
      cases re with
      | nil =>
          rw [matchhere]
          exact answers_some (iff_of_true rfl (starts_nil.mpr fun h => (by cases h)))
      | cons c re =>
          rw [List.length_cons] at hlen hfuel
          simp only [matchhere]
          split
          · rename_i hstar
            obtain ⟨hstop, hpieces⟩ := star_cases (c := c) hstar
            have htail : re.tail.length + 1 = re.length := by
              cases re with
              | nil => cases hstar
              | cons y re => rfl
            rw [hstop, hpieces]
            exact matchstar_eq (fun text fuel h => ih _ text fuel (by omega) h) text fuel (by omega)
          · rename_i hstar
            split
            · rename_i hd
              obtain ⟨rfl, rfl⟩ := hd
              refine answers_some (List.isEmpty_iff.trans (Iff.symm ?_))
              exact starts_nil.trans ⟨fun h => h rfl, fun h _ => h⟩
            · rename_i hd
              obtain ⟨hstop, hpieces⟩ := one_cases hstar hd
              rw [hstop, hpieces, starts_one]
              cases text with
              | nil =>
                  refine answers_some (iff_of_false Bool.false_ne_true ?_)
                  rintro ⟨a, text', he, -⟩
                  cases he
              | cons t text =>
                  dsimp only
                  rw [List.length_cons] at hfuel
                  split
                  · rename_i hc
                    obtain ⟨b, hb, hiff⟩ := ih re text fuel (by omega) (by omega)
                    refine ⟨b, hb, hiff.trans ⟨fun h => ⟨t, text, rfl, accepts_iff.mpr hc, h⟩, ?_⟩⟩
                    rintro ⟨a, text', he, -, h⟩
                    obtain ⟨-, rfl⟩ := List.cons.inj he
                    exact h
                  · rename_i hc
                    refine answers_some (iff_of_false Bool.false_ne_true ?_)
                    rintro ⟨a, text', he, ha, -⟩
                    obtain ⟨rfl, -⟩ := List.cons.inj he
                    exact hc (accepts_iff.mp ha)

/-! ### `match` -/

/-- Fuel for the pattern and the text is enough, by induction on the fuel. -/
theorem matchFrom_eq (text : Str) : ∀ fuel, re.length + text.length < fuel →
    Answers (Occurs false (endsInDollar re) (pieces (body re)) text) (matchFrom fuel re text) := by
  induction text with
  | nil =>
      intro fuel hfuel
      obtain ⟨b, hb, hiff⟩ := matchhere_eq _ re [] fuel le_rfl hfuel
      refine ⟨b, hb, hiff.trans (Iff.trans ?_ occurs_iff.symm)⟩
      constructor
      · exact fun h => ⟨[], [], rfl, h⟩
      · rintro ⟨before, text', he, h⟩
        rwa [(List.append_eq_nil_iff.mp he.symm).2] at h
  | cons t text ih =>
      intro fuel hfuel
      obtain ⟨b, hb, hiff⟩ := matchhere_eq _ re (t :: text) fuel le_rfl hfuel
      rw [List.length_cons] at hfuel
      obtain ⟨b', hb', hiff'⟩ := ih fuel (by omega)
      rw [matchFrom, hb, occurs_iff, exists_suffix_cons, ← hiff, ← occurs_iff, ← hiff']
      cases b with
      | true => exact answers_some (by simp)
      | false => exact ⟨b', hb', by simp⟩

/-- With enough fuel, `match` says whether the pattern matches. -/
theorem matchRe_answers (re text : Str) (fuel : ℕ) (hfuel : re.length + text.length < fuel) :
    Answers ((Regex.ofString re).Matches text) (matchRe fuel re text) := by
  unfold matchRe Regex.Matches Regex.ofString
  by_cases hc : re.head? = some caret
  · have htail : re.tail.length ≤ re.length := by simp
    obtain ⟨b, hb, hiff⟩ := matchhere_eq _ re.tail text fuel le_rfl (by omega)
    simp only [hc, if_true, decide_true]
    exact ⟨b, hb, hiff.trans occurs_start.symm⟩
  · simp only [hc, if_false, decide_false]
    exact matchFrom_eq text _ (by omega)

/-- **The matcher is correct**: for every pattern and every text it returns, `1` if and only if
the pattern matches some substring of the text; and so do the two functions it is made of, for every
character, pattern and text. -/
theorem match_correct (re text : Str) (more : ℕ) :
    (∃ b, matchRe (re.length + text.length + 1 + more) re text = some b ∧
      (b = true ↔ (Regex.ofString re).Matches text)) ∧
    (∃ b, matchhere (re.length + text.length + 1 + more) re text = some b) ∧
    ∀ c, ∃ b, matchstar (re.length + text.length + 2 + more) c re text = some b := by
  refine ⟨matchRe_answers re text _ (by omega), ?_, fun c => ?_⟩
  · obtain ⟨b, hb, -⟩ := matchhere_eq _ re text (re.length + text.length + 1 + more) le_rfl (by omega)
    exact ⟨b, hb⟩
  · obtain ⟨b, hb, -⟩ := matchstar_eq (c := c) (fun text fuel h => matchhere_eq _ re text fuel le_rfl h)
      text (re.length + text.length + 2 + more) (by omega)
    exact ⟨b, hb⟩

end Xv6.Grep
