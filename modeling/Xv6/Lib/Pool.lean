import Xv6.Lib.Prog
import Mathlib.Data.DFinsupp.WellFounded
import Mathlib.Data.Fintype.EquivFin

/-!
# Library — programs that take turns

Several programs over one interface, on one state.  In its turn a program performs its next
operation; where that is one it has to wait for (`waits`), the turn passes.  Any other failure ends
the run of all.

* `Pool.run`, `Pool.runBy` — the turns in some order; in the second, an operation is told who
  performs it.
* `Pool.follows_run` — a refinement of every operation is one of every interleaving of programs.
* `Pool.exists_run_ended` — finitely many programs of which one can always go on can all end.
-/

namespace Lib

variable {O : Type} {R : O → Type} {α ε ι σ τ : Type}

/-- What a program has returned. -/
def Prog.value : Prog O R α → Option α
  | ret a => some a
  | op _ _ => none

theorem Prog.value_eq_some {p : Prog O R α} {a : α} : p.value = some a ↔ p = ret a := by
  cases p with
  | ret b => simp [value]
  | op o k => simp [value]

/-- What is left of a program after its next operation. -/
def Prog.Rest (q p : Prog O R α) : Prop := ∃ o k r, p = op o k ∧ q = k r

/-- A program has finitely many steps left. -/
theorem Prog.rest_wf : WellFounded (Prog.Rest : Prog O R α → Prog O R α → Prop) := by
  refine ⟨fun p => ?_⟩
  induction p with
  | ret a => exact ⟨_, by rintro q ⟨o, k, r, hp, -⟩; cases hp⟩
  | op o k ih =>
      refine ⟨_, ?_⟩
      rintro q ⟨o', k', r, hp, rfl⟩
      cases hp
      exact ih r

/-- What each program has still to do, and the state they share. -/
structure Pool (O : Type) (R : O → Type) (ι α σ : Type) where
  prog : ι → Prog O R α
  state : σ

namespace Pool

/-- The same programs on another state. -/
def map (abs : σ → τ) (P : Pool O R ι α σ) : Pool O R ι α τ := ⟨P.prog, abs P.state⟩

variable [DecidableEq ι] (h : Handler O R ε σ) (waits : ε → Bool)

/-- The turn of the program `i`. -/
def turn (P : Pool O R ι α σ) (i : ι) : Except ε (Pool O R ι α σ) :=
  match P.prog i with
  | .ret _ => .ok P
  | .op o k =>
      match h o P.state with
      | .ok (r, t) => .ok ⟨Function.update P.prog i (k r), t⟩
      | .error e => if waits e then .ok P else .error e

/-- The turns `sched`, one after the other. -/
def run : List ι → Pool O R ι α σ → Except ε (Pool O R ι α σ)
  | [], P => .ok P
  | i :: sched, P => (P.turn h waits i).bind (run sched)

/-- The same, where what an operation does depends on the program that performs it. -/
def runBy (h : ι → Handler O R ε σ) : List ι → Pool O R ι α σ → Except ε (Pool O R ι α σ)
  | [], P => .ok P
  | i :: sched, P => (P.turn (h i) waits i).bind (runBy h sched)

variable {h waits} {h' : Handler O R ε τ} {I : σ → Prop} {E : ε → Prop} {abs : σ → τ}
  {P P' : Pool O R ι α σ}

/-- **A run that does not depend on who performs what**: where every turn, from a pool with `I`, is
one of the second handler, as `abs` sees it. -/
theorem map_runBy {h : ι → Handler O R ε σ} {I : Pool O R ι α σ → Prop}
    (hturn : ∀ P i, I P → (P.map abs).turn h' waits i = (P.turn (h i) waits i).map (map abs) ∧
      ∀ P', P.turn (h i) waits i = .ok P' → I P') (sched : List ι) (hP : I P) :
    (P.map abs).run h' waits sched = (P.runBy waits h sched).map (map abs) := by
  induction sched generalizing P with
  | nil => rfl
  | cons i sched ih =>
      obtain ⟨hmap, hI⟩ := hturn P i hP
      rw [run, runBy, hmap]
      cases hi : P.turn (h i) waits i with
      | error e => rfl
      | ok P' => exact ih (hI P' hi)

/-- One turn of the pool is one of the abstract pool. -/
theorem turn_follows (hE : ∀ e, E e → waits e = false)
    (hop : ∀ o s, I s → Prog.Follows I E abs (h o s) (h' o (abs s))) (i : ι) (hP : I P.state) :
    (∀ P', P.turn h waits i = .ok P' → I P'.state ∧ (P.map abs).turn h' waits i = .ok (P'.map abs)) ∧
      ∀ e, P.turn h waits i = .error e → E e ∨ (P.map abs).turn h' waits i = .error e := by
  have hprog : (P.map abs).prog i = P.prog i := rfl
  unfold turn
  rw [hprog]
  cases P.prog i with
  | ret a =>
      refine ⟨fun P' hr => ?_, fun e he => (by cases he)⟩
      cases hr
      exact ⟨hP, rfl⟩
  | op o k =>
      obtain ⟨hok, herr⟩ := hop o P.state hP
      dsimp only
      cases ho : h o P.state with
      | ok r =>
          obtain ⟨hI, hy⟩ := hok r.1 r.2 ho
          have hy : h' o (P.map abs).state = .ok (r.1, abs r.2) := hy
          rw [hy]
          refine ⟨fun P' hr => ?_, fun e he => (by cases he)⟩
          cases hr
          exact ⟨hI, rfl⟩
      | error e =>
          rcases herr e ho with he | hy
          · dsimp only
            rw [if_neg (by simp [hE e he])]
            refine ⟨fun P' hr => (by cases hr), fun e' he' => ?_⟩
            cases he'
            exact .inl he
          · have hy : h' o (P.map abs).state = .error e := hy
            rw [hy]
            dsimp only
            split
            · refine ⟨fun P' hr => ?_, fun e' he' => (by cases he')⟩
              cases hr
              exact ⟨hP, rfl⟩
            · refine ⟨fun P' hr => (by cases hr), fun e' he' => ?_⟩
              cases he'
              exact .inr rfl

/-- **Refinement of interleavings.**  If every operation of the first handler does what that of the
second does, as `abs` sees it, so do any programs in any order of turns. -/
theorem follows_run (hE : ∀ e, E e → waits e = false)
    (hop : ∀ o s, I s → Prog.Follows I E abs (h o s) (h' o (abs s))) (sched : List ι)
    (hP : I P.state) :
    (∀ P', P.run h waits sched = .ok P' → I P'.state ∧
        (P.map abs).run h' waits sched = .ok (P'.map abs)) ∧
      ∀ e, P.run h waits sched = .error e → E e ∨ (P.map abs).run h' waits sched = .error e := by
  induction sched generalizing P with
  | nil =>
      refine ⟨fun P' hr => ?_, fun e he => (by cases he)⟩
      cases hr
      exact ⟨hP, rfl⟩
  | cons i sched ih =>
      obtain ⟨hok, herr⟩ := turn_follows hE hop i hP
      unfold run
      cases hi : P.turn h waits i with
      | error e =>
          refine ⟨fun P' hr => (by cases hr), fun e' he' => ?_⟩
          cases he'
          refine (herr e hi).imp_right fun hy => ?_
          rw [hy]
          rfl
      | ok P' =>
          obtain ⟨hI, hy⟩ := hok P' hi
          rw [hy]
          exact ih hI

/-- **Programs of which one can always go on can all come to an end**, from wherever they are. -/
theorem exists_run_ended [Finite ι] {I : Pool O R ι α σ → Prop}
    (hI : ∀ {P P'} i, I P → P.turn h waits i = .ok P' → I P')
    (hgo : ∀ {P}, I P → (∃ i, (P.prog i).value = none) →
      ∃ i o k r, P.prog i = .op o k ∧ h o P.state = .ok r) (hP : I P) :
    ∃ sched P', P.run h waits sched = .ok P' ∧ I P' ∧ ∀ i, (P'.prog i).value ≠ none := by
  obtain ⟨n, ⟨e⟩⟩ := Finite.exists_equiv_fin ι
  have : IsStrictTotalOrder ι (Order.Preimage e (· < ·)) :=
    (RelIso.preimage e (· < ·)).toRelEmbedding.isStrictTotalOrder
  have wf := Pi.Lex.wellFounded (Order.Preimage e (· < ·)) fun _ : ι => @Prog.rest_wf O R α
  generalize hp : P.prog = p
  induction p using wf.induction generalizing P with
  | h p ih =>
      by_cases hend : ∃ i, (P.prog i).value = none
      · obtain ⟨i, o, k, r, hi, hr⟩ := hgo hP hend
        have ht : P.turn h waits i = .ok ⟨Function.update P.prog i (k r.1), r.2⟩ := by
          simp only [turn, hi, hr]
        have hlex : Pi.Lex (Order.Preimage e (· < ·)) (fun {_} => Prog.Rest)
            (Function.update P.prog i (k r.1)) p := by
          refine ⟨i, fun j hj => ?_, o, k, r.1, hp ▸ hi, Function.update_self ..⟩
          rw [← hp]
          exact Function.update_of_ne (fun hji => by subst hji; exact lt_irrefl _ hj) ..
        obtain ⟨sched, P', hrun, hI', hP'⟩ := ih _ hlex (hI i hP ht) rfl
        exact ⟨i :: sched, P', by rw [run, ht]; exact hrun, hI', hP'⟩
      · exact ⟨[], P, rfl, hP, fun i hi => hend ⟨i, hi⟩⟩

end Pool

end Lib
