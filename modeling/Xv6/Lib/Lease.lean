import Mathlib.Logic.Function.Basic
import Mathlib.Tactic.Common

/-!
# Library — leases without an owner recorded

A pool of handles, each marked taken or free, and processes that remember the handle they hold.
The pool does not record the holder: that a handle has one holder, and a taken handle any, rests on
every process taking and giving back by the rules (`Step`).  A process may also forget
(`drop`): the mark then stays.

* `Step.exclusive`, `Exclusive.drop` — handles are held exclusively, whatever is forgotten.
* `Step.accounted_iff`, `drop_accounted_iff` — whether every taken handle has a holder changes only
  when one that is held is forgotten.
-/

namespace Lib

/-- Who holds which handle, and which handles are marked taken. -/
structure Lease (P H : Type*) where
  holder : P → Option H
  taken : H → Prop

namespace Lease

variable {P H : Type*}

/-- A held handle is marked taken, and has no other holder. -/
structure Exclusive (l : Lease P H) : Prop where
  taken : ∀ p h, l.holder p = some h → l.taken h
  unique : ∀ p q h, l.holder p = some h → l.holder q = some h → p = q

/-- A handle marked taken has a holder. -/
def Accounted (l : Lease P H) : Prop := ∀ h, l.taken h → ∃ p, l.holder p = some h

variable [DecidableEq P]

/-- The process forgets what it holds. -/
def drop (l : Lease P H) (p : P) : Lease P H := ⟨Function.update l.holder p none, l.taken⟩

/-- Taking a free handle, and giving back the one held. -/
inductive Step (l : Lease P H) : Lease P H → Prop where
  | keep : Step l l
  | take {p : P} {h : H} (idle : l.holder p = none) (free : ¬ l.taken h) :
      Step l ⟨Function.update l.holder p (some h), fun k => k = h ∨ l.taken k⟩
  | give {p : P} {h : H} (held : l.holder p = some h) :
      Step l ⟨Function.update l.holder p none, fun k => k ≠ h ∧ l.taken k⟩

variable {l l' : Lease P H}

/-- Who holds what after a change of one process. -/
theorem update_eq_some {p q : P} {o : Option H} {h : H}
    (hq : Function.update l.holder p o q = some h) :
    q = p ∧ o = some h ∨ q ≠ p ∧ l.holder q = some h := by
  by_cases hqp : q = p
  · subst hqp
    rw [Function.update_self] at hq
    exact Or.inl ⟨rfl, hq⟩
  · rw [Function.update_of_ne hqp] at hq
    exact Or.inr ⟨hqp, hq⟩

/-- **Forgetting** keeps handles exclusive. -/
theorem Exclusive.drop (hl : l.Exclusive) (p : P) : (l.drop p).Exclusive := by
  have hold : ∀ q h, (l.drop p).holder q = some h → l.holder q = some h := by
    intro q h hq
    rcases update_eq_some hq with ⟨-, ho⟩ | ⟨-, hq⟩
    · cases ho
    · exact hq
  exact ⟨fun q h hq => hl.taken q h (hold q h hq),
    fun q r h hq hr => hl.unique q r h (hold q h hq) (hold r h hr)⟩

/-- **Taking and giving back** keep handles exclusive. -/
theorem Step.exclusive (hs : l.Step l') (hl : l.Exclusive) : l'.Exclusive := by
  cases hs with
  | keep => exact hl
  | @take p h idle free =>
      constructor
      · intro q k hq
        rcases update_eq_some hq with ⟨-, ho⟩ | ⟨-, hq⟩
        · exact Or.inl (Option.some.inj ho).symm
        · exact Or.inr (hl.taken q k hq)
      · intro q r k hq hr
        -- the taken handle was free, so that nobody else holds it
        rcases update_eq_some hq with ⟨rfl, ho⟩ | ⟨-, hq'⟩
        · rcases update_eq_some hr with ⟨rfl, -⟩ | ⟨-, hr'⟩
          · rfl
          · cases ho
            exact absurd (hl.taken r h hr') free
        · rcases update_eq_some hr with ⟨rfl, ho⟩ | ⟨-, hr'⟩
          · cases ho
            exact absurd (hl.taken q h hq') free
          · exact hl.unique q r k hq' hr'
  | @give p h held =>
      constructor
      · intro q k hq
        rcases update_eq_some hq with ⟨-, ho⟩ | ⟨hqp, hq'⟩
        · cases ho
        · refine ⟨?_, hl.taken q k hq'⟩
          rintro rfl
          exact hqp (hl.unique q p k hq' held)
      · intro q r k hq hr
        rcases update_eq_some hq with ⟨-, ho⟩ | ⟨-, hq⟩
        · cases ho
        · rcases update_eq_some hr with ⟨-, ho⟩ | ⟨-, hr⟩
          · cases ho
          · exact hl.unique q r k hq hr

/-- **Taking and giving back** account for a handle, and leave a lost one lost. -/
theorem Step.accounted_iff (hs : l.Step l') : l'.Accounted ↔ l.Accounted := by
  cases hs with
  | keep => exact Iff.rfl
  | @take p h idle free =>
      constructor
      · intro hl k hk
        obtain ⟨q, hq⟩ := hl k (Or.inr hk)
        rcases update_eq_some hq with ⟨-, ho⟩ | ⟨-, hq⟩
        · cases ho
          exact absurd hk free
        · exact ⟨q, hq⟩
      · rintro hl k (rfl | hk)
        · exact ⟨p, Function.update_self ..⟩
        · obtain ⟨q, hq⟩ := hl k hk
          refine ⟨q, (Function.update_of_ne ?_ ..).trans hq⟩
          rintro rfl
          rw [idle] at hq
          cases hq
  | @give p h held =>
      constructor
      · intro hl k hk
        by_cases hkh : k = h
        · exact ⟨p, hkh ▸ held⟩
        · obtain ⟨q, hq⟩ := hl k ⟨hkh, hk⟩
          rcases update_eq_some hq with ⟨-, ho⟩ | ⟨-, hq⟩
          · cases ho
          · exact ⟨q, hq⟩
      · rintro hl k ⟨hkh, hk⟩
        obtain ⟨q, hq⟩ := hl k hk
        refine ⟨q, (Function.update_of_ne ?_ ..).trans hq⟩
        rintro rfl
        rw [held] at hq
        exact hkh (Option.some.inj hq).symm

/-- **Forgetting** loses exactly what is held. -/
theorem drop_accounted_iff (hl : l.Exclusive) (p : P) :
    (l.drop p).Accounted ↔ l.Accounted ∧ l.holder p = none := by
  constructor
  · intro hd
    have hp : l.holder p = none := by
      cases hp : l.holder p with
      | none => rfl
      | some h =>
          obtain ⟨q, hq⟩ := hd h (hl.taken p h hp)
          rcases update_eq_some hq with ⟨-, ho⟩ | ⟨hqp, hq⟩
          · cases ho
          · exact absurd (hl.unique q p h hq hp) hqp
    rw [Lease.drop, ← hp, Function.update_eq_self] at hd
    exact ⟨hd, hp⟩
  · rintro ⟨ha, hp⟩
    rw [Lease.drop, ← hp, Function.update_eq_self]
    exact ha

end Lease

end Lib
