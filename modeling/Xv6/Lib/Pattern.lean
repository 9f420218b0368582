import Mathlib.Computability.Language

/-!
# Library — patterns: letters and repeated letters in a row

A pattern is a list of pieces, each one letter that a test accepts, or any number of them.  Its
language is the product of the languages of its pieces.  A matcher looks for a prefix of a text,
and reads the text from the front: `Starts` is what it looks for, and the rules say how a piece
at the head of the pattern takes letters off the text.

* `starts_nil`, `starts_one`, `starts_star` — the rules, one for each kind of piece.
* `occurs_iff` — a word of the language occurs in a text where one starts some suffix of it.
-/

namespace Lib.Pattern

variable {α : Type*}

/-- One letter, or any number of letters, that the test accepts. -/
inductive Piece (α : Type*) where
  | one (p : α → Bool)
  | star (p : α → Bool)

/-- The letters that `p` accepts, as words. -/
def letters (p : α → Bool) : Language α := {w | ∃ a, p a ∧ w = [a]}

/-- What a piece matches. -/
def Piece.language : Piece α → Language α
  | one p => letters p
  | star p => KStar.kstar (letters p)

/-- What the pieces match, one after the other. -/
def language (ps : List (Piece α)) : Language α := (ps.map Piece.language).prod

variable {p : α → Bool} {ps : List (Piece α)} {w : List α}

/-- A letter, and a word of the language after it. -/
theorem mem_letters_mul {l : Language α} :
    w ∈ letters p * l ↔ ∃ a v, w = a :: v ∧ p a ∧ v ∈ l := by
  rw [Language.mem_mul]
  constructor
  · rintro ⟨_, ⟨a, ha, rfl⟩, v, hv, rfl⟩
    exact ⟨a, v, rfl, ha, hv⟩
  · rintro ⟨a, v, rfl, ha, hv⟩
    exact ⟨[a], ⟨a, ha, rfl⟩, v, hv, rfl⟩

theorem mem_nil : w ∈ language ([] : List (Piece α)) ↔ w = [] := Iff.rfl

theorem mem_one : w ∈ language (.one p :: ps) ↔ ∃ a v, w = a :: v ∧ p a ∧ v ∈ language ps :=
  mem_letters_mul

/-- A repeated letter is there once more, or not any more. -/
theorem mem_star : w ∈ language (.star p :: ps) ↔
    w ∈ language ps ∨ ∃ a v, w = a :: v ∧ p a ∧ v ∈ language (.star p :: ps) := by
  have hunroll : language (.star p :: ps) =
      language ps + letters p * language (.star p :: ps) := by
    show KStar.kstar (letters p) * language ps =
      language ps + letters p * (KStar.kstar (letters p) * language ps)
    conv_lhs => rw [← Language.one_add_self_mul_kstar_eq_kstar]
    rw [add_mul, one_mul, mul_assoc]
  rw [hunroll, Language.mem_add, ← hunroll, mem_letters_mul]

/-! ### Prefixes -/

/-- A word of the pattern starts the text, and, if `stop`, is all of it. -/
def Starts (ps : List (Piece α)) (stop : Bool) (text : List α) : Prop :=
  ∃ w rest, text = w ++ rest ∧ w ∈ language ps ∧ (stop → rest = [])

variable {stop : Bool} {text : List α}

theorem starts_nil : Starts [] stop text ↔ (stop → text = []) := by
  constructor
  · rintro ⟨w, rest, rfl, hw, hstop⟩ hs
    rw [mem_nil.mp hw, hstop hs]
    rfl
  · exact fun h => ⟨[], text, rfl, mem_nil.mpr rfl, h⟩

/-- A word that begins with `a` takes it off the text. -/
theorem starts_cons (P : List α → Prop) :
    (∃ w rest, text = w ++ rest ∧ (∃ a v, w = a :: v ∧ p a ∧ P v) ∧ (stop → rest = [])) ↔
      ∃ a text', text = a :: text' ∧ p a ∧
        ∃ v rest, text' = v ++ rest ∧ P v ∧ (stop → rest = []) := by
  constructor
  · rintro ⟨_, rest, rfl, ⟨a, v, rfl, ha, hv⟩, hstop⟩
    exact ⟨a, v ++ rest, rfl, ha, v, rest, rfl, hv, hstop⟩
  · rintro ⟨a, _, rfl, ha, v, rest, rfl, hv, hstop⟩
    exact ⟨a :: v, rest, rfl, ⟨a, v, rfl, ha, hv⟩, hstop⟩

theorem starts_one : Starts (.one p :: ps) stop text ↔
    ∃ a text', text = a :: text' ∧ p a ∧ Starts ps stop text' := by
  simp only [Starts, mem_one]
  exact starts_cons fun v => v ∈ language ps

/-- A star stands for nothing, or for one more. -/
theorem starts_star : Starts (.star p :: ps) stop text ↔
    Starts ps stop text ∨
      ∃ a text', text = a :: text' ∧ p a ∧ Starts (.star p :: ps) stop text' := by
  simp only [Starts]
  rw [← starts_cons (p := p) fun v => v ∈ language (.star p :: ps)]
  constructor
  · rintro ⟨w, rest, htext, hw, hstop⟩
    rcases mem_star.mp hw with hw | hw
    · exact Or.inl ⟨w, rest, htext, hw, hstop⟩
    · exact Or.inr ⟨w, rest, htext, hw, hstop⟩
  · rintro (⟨w, rest, htext, hw, hstop⟩ | ⟨w, rest, htext, hw, hstop⟩)
    · exact ⟨w, rest, htext, mem_star.mpr (Or.inl hw), hstop⟩
    · exact ⟨w, rest, htext, mem_star.mpr (Or.inr hw), hstop⟩

/-! ### Occurrences -/

/-- A word of the pattern occurs in the text: at its start, if `start`, and at its end, if
`stop`. -/
def Occurs (start stop : Bool) (ps : List (Piece α)) (text : List α) : Prop :=
  ∃ before w after, text = before ++ w ++ after ∧ w ∈ language ps ∧
    (start → before = []) ∧ (stop → after = [])

theorem occurs_start : Occurs true stop ps text ↔ Starts ps stop text := by
  constructor
  · rintro ⟨before, w, after, rfl, hw, hstart, hstop⟩
    exact ⟨w, after, by rw [hstart rfl, List.nil_append], hw, hstop⟩
  · rintro ⟨w, after, rfl, hw, hstop⟩
    exact ⟨[], w, after, rfl, hw, fun _ => rfl, hstop⟩

theorem occurs_iff : Occurs false stop ps text ↔
    ∃ before text', text = before ++ text' ∧ Starts ps stop text' := by
  constructor
  · rintro ⟨before, w, after, rfl, hw, -, hstop⟩
    exact ⟨before, w ++ after, List.append_assoc .., w, after, rfl, hw, hstop⟩
  · rintro ⟨before, _, rfl, w, after, rfl, hw, hstop⟩
    exact ⟨before, w, after, (List.append_assoc ..).symm, hw, fun h => (by cases h), hstop⟩

/-- Suffixes, from the longest on. -/
theorem exists_suffix_cons {P : List α → Prop} {a : α} :
    (∃ before text', a :: text = before ++ text' ∧ P text') ↔
      P (a :: text) ∨ ∃ before text', text = before ++ text' ∧ P text' := by
  constructor
  · rintro ⟨before, text', he, h⟩
    cases before with
    | nil =>
        obtain rfl : a :: text = text' := he
        exact Or.inl h
    | cons b before => exact Or.inr ⟨before, text', (List.cons.inj he).2, h⟩
  · rintro (h | ⟨before, text', rfl, h⟩)
    · exact ⟨[], _, rfl, h⟩
    · exact ⟨a :: before, text', rfl, h⟩

end Lib.Pattern
