import Mathlib.Tactic.Common

/-!
# Library — programs over an interface of operations

`Prog O R α`: a program that performs operations `o : O`, goes on with their results of type
`R o` and returns an `α`.  What the operations do is left to a *handler*, a partial function on a
state, so that one program can be run on several models of the state.

* `Prog.run_bind` — running a sequence is running its parts in order.
* `Prog.wp` — total correctness up to a set of admitted failures, with its rules: sequencing
  (`wp_bind`, `wp_seq`), consequence (`wp_mono`), and the invariant rule (`wp_inv`: what every operation
  keeps, every program keeps).
* `Prog.run_traced` — a run with the operations it performs.
* `Prog.follows_only` — a function from the states of one handler to those of another that every
  operation carries over, every program carries over, failures too; `Follows.wp` carries
  correctness back.
-/

namespace Lib

/-- Programs over the operations `O`, whose results have the types `R`. -/
inductive Prog (O : Type) (R : O → Type) (α : Type) : Type where
  | ret (a : α)
  | op (o : O) (k : R o → Prog O R α)

/-- The meaning of each operation on a state `σ`. -/
abbrev Handler (O : Type) (R : O → Type) (ε σ : Type) := (o : O) → σ → Except ε (R o × σ)

namespace Prog

variable {O : Type} {R : O → Type} {α β ε σ τ : Type}

/-- One program after the other. -/
def bind : Prog O R α → (α → Prog O R β) → Prog O R β
  | ret a, f => f a
  | op o k, f => op o fun r => (k r).bind f

instance : Monad (Prog O R) where
  pure := ret
  bind := bind

/-- The program of one operation. -/
def perform (o : O) : Prog O R (R o) := op o ret

/-- Run a program on a state; an operation that fails ends the run. -/
def run (h : Handler O R ε σ) : Prog O R α → σ → Except ε (α × σ)
  | ret a, s => .ok (a, s)
  | op o k, s =>
      match h o s with
      | .ok (r, t) => (k r).run h t
      | .error e => .error e

variable {h : Handler O R ε σ} {E : ε → Prop}

@[simp]
theorem run_pure (a : α) (s : σ) : (pure a : Prog O R α).run h s = .ok (a, s) := rfl

@[simp]
theorem run_perform (o : O) (s : σ) : (perform o : Prog O R (R o)).run h s = h o s := by
  simp only [perform, run]
  split <;> simp_all

/-- A program runs part by part. -/
theorem run_bind (p : Prog O R α) (f : α → Prog O R β) (s : σ) :
    (p >>= f).run h s = (p.run h s).bind fun r => (f r.1).run h r.2 := by
  show (p.bind f).run h s = _
  induction p generalizing s with
  | ret a => rfl
  | op o k ih =>
      simp only [bind, run]
      cases h o s with
      | error e => rfl
      | ok r => exact ih r.1 r.2

/-- A sequence whose first part returns. -/
theorem run_bind_of_ok {p : Prog O R α} {f : α → Prog O R β} {a : α} {s t : σ}
    (hp : p.run h s = .ok (a, t)) : (p >>= f).run h s = (f a).run h t := by
  rw [run_bind, hp]
  rfl

/-- Only what the first part does in the state matters. -/
theorem run_bind_congr {p q : Prog O R α} {f : α → Prog O R β} {s : σ} (hp : p.run h s = q.run h s) :
    (p >>= f).run h s = (q >>= f).run h s := by
  rw [run_bind, hp, ← run_bind]

theorem run_assoc {γ : Type} (p : Prog O R α) (f : α → Prog O R β) (g : β → Prog O R γ) (s : σ) :
    (p >>= fun a => f a >>= g).run h s = ((p >>= f) >>= g).run h s := by
  simp only [run_bind]
  cases p.run h s <;> rfl

/-! ### Correctness up to admitted failures -/

/-- `p`, run in `s`, returns with `Q`, or fails with a failure in `E`. -/
def wp (h : Handler O R ε σ) (E : ε → Prop) (p : Prog O R α) (Q : α → σ → Prop) (s : σ) : Prop :=
  match p.run h s with
  | .ok (a, t) => Q a t
  | .error e => E e

variable {p : Prog O R α} {f : α → Prog O R β} {Q Q' : α → σ → Prop} {s t : σ}

@[simp]
theorem wp_pure {a : α} : wp h E (pure a) Q s ↔ Q a s := Iff.rfl

/-- The rule of a single operation. -/
theorem wp_perform {o : O} {Q : R o → σ → Prop} :
    wp h E (perform o) Q s ↔
      (∀ r t, h o s = .ok (r, t) → Q r t) ∧ ∀ e, h o s = .error e → E e := by
  simp only [wp, run_perform]
  cases h o s with
  | error e => simp
  | ok r =>
      obtain ⟨r, t⟩ := r
      simp

theorem wp_bind {Q : β → σ → Prop} :
    wp h E (p >>= f) Q s ↔ wp h E p (fun a t => wp h E (f a) Q t) s := by
  simp only [wp, run_bind]
  cases p.run h s <;> rfl

@[simp]
theorem wp_map {g : α → β} {Q : β → σ → Prop} :
    wp h E (g <$> p) Q s ↔ wp h E p (fun a t => Q (g a) t) s :=
  wp_bind

theorem wp_mono (hp : wp h E p Q s) (hQ : ∀ a t, Q a t → Q' a t) : wp h E p Q' s := by
  unfold wp at *
  split at hp
  · exact hQ _ _ hp
  · exact hp

/-- The rule of consequence, for the failures too. -/
theorem wp_imp {E' : ε → Prop} (hp : wp h E p Q s) (hE : ∀ e, E e → E' e)
    (hQ : ∀ a t, Q a t → Q' a t) : wp h E' p Q' s := by
  unfold wp at *
  split at hp
  · exact hQ _ _ hp
  · exact hE _ hp

/-- The rule of sequencing. -/
theorem wp_seq {Q : β → σ → Prop} (hp : wp h E p Q' s) (hf : ∀ a t, Q' a t → wp h E (f a) Q t) :
    wp h E (p >>= f) Q s :=
  wp_bind.mpr (wp_mono hp hf)

theorem wp_of_ok {a : α} (hp : wp h E p Q s) (hr : p.run h s = .ok (a, t)) : Q a t := by
  simpa [wp, hr] using hp

theorem wp_of_error {e : ε} (hp : wp h E p Q s) (hr : p.run h s = .error e) : E e := by
  simpa [wp, hr] using hp

/-- **The invariant rule.** -/
theorem wp_inv {I : σ → Prop}
    (hop : ∀ o s, I s → (∀ r t, h o s = .ok (r, t) → I t) ∧ ∀ e, h o s = .error e → E e)
    (p : Prog O R α) (hs : I s) : wp h E p (fun _ t => I t) s := by
  induction p generalizing s with
  | ret a => exact hs
  | op o k ih =>
      obtain ⟨hok, herr⟩ := hop o s hs
      simp only [wp, run]
      cases hr : h o s with
      | error e => exact herr e hr
      | ok r => exact ih r.1 (hok r.1 r.2 hr)

/-- What `p` returns has `S`, whatever its operations do. -/
def All (S : α → Prop) : Prog O R α → Prop
  | ret a => S a
  | op _ k => ∀ r, (k r).All S

theorem All.bind {S : β → Prop} (p : Prog O R α) (hf : ∀ a, (f a).All S) : (p >>= f).All S := by
  show (p.bind f).All S
  induction p with
  | ret a => exact hf a
  | op o k ih => exact fun r => ih r

/-- What all ends of a program have, it has wherever it ends. -/
theorem All.wp {S : α → Prop} (hp : p.All S) : wp h (fun _ => True) p (fun a _ => S a) s := by
  induction p generalizing s with
  | ret a => exact hp
  | op o k ih =>
      simp only [Prog.wp, run]
      cases h o s with
      | error e => trivial
      | ok r => exact ih r.1 (hp r.1)

/-! ### The operations of a run -/

/-- One operation of a run: its result, and the states before and after. -/
structure Event (O : Type) (R : O → Type) (σ : Type) where
  pre : σ
  op : O
  res : R op
  post : σ

/-- The operations `p` completes when it is run in `s`. -/
def events (h : Handler O R ε σ) : Prog O R α → σ → List (Event O R σ)
  | ret _, _ => []
  | op o k, s =>
      match h o s with
      | .ok (r, t) => ⟨s, o, r, t⟩ :: (k r).events h t
      | .error _ => []

/-- The handler `h`, keeping the operations performed. -/
def traced (h : Handler O R ε σ) : Handler O R ε (σ × List (Event O R σ)) :=
  fun o u => (h o u.1).map fun r => (r.1, r.2, u.2 ++ [⟨u.1, o, r.1, r.2⟩])

theorem traced_eq_ok {o : O} {u v : σ × List (Event O R σ)} {r : R o} :
    traced h o u = .ok (r, v) ↔ ∃ t, h o u.1 = .ok (r, t) ∧ v = (t, u.2 ++ [⟨u.1, o, r, t⟩]) := by
  unfold traced
  cases h o u.1 with
  | error e => simp [Except.map]
  | ok x =>
      obtain ⟨r', t⟩ := x
      simp only [Except.map, Except.ok.injEq, Prod.mk.injEq]
      grind

/-- A traced run is a run, with its events. -/
theorem run_traced (p : Prog O R α) (s : σ) (l : List (Event O R σ)) :
    p.run (traced h) (s, l) = (p.run h s).map fun r => (r.1, r.2, l ++ p.events h s) := by
  induction p generalizing s l with
  | ret a => simp [run, events, Except.map]
  | op o k ih =>
      simp only [run, events, traced]
      cases h o s with
      | error e => rfl
      | ok r =>
          refine (ih r.1 r.2 _).trans ?_
          simp

/-- A returning run, and the same run with its operations. -/
theorem wp_traced {Q : α → σ × List (Event O R σ) → Prop} {a : α}
    (hp : wp (traced h) E p Q (s, [])) (hr : p.run h s = .ok (a, t)) : Q a (t, p.events h s) := by
  refine wp_of_ok hp ?_
  rw [run_traced, hr]
  rfl

/-! ### Refinement -/

/-- One outcome is another, seen through `abs`, and keeps the invariant `I`; or it is a failure in
`E`. -/
def Follows (I : σ → Prop) (E : ε → Prop) (abs : σ → τ) (x : Except ε (α × σ))
    (y : Except ε (α × τ)) : Prop :=
  (∀ a t, x = .ok (a, t) → I t ∧ y = .ok (a, abs t)) ∧ ∀ e, x = .error e → E e ∨ y = .error e

theorem Follows.mono {I : σ → Prop} {E' : ε → Prop} {abs : σ → τ} {x : Except ε (α × σ)}
    {y : Except ε (α × τ)} (h : Follows I E abs x y) (hE : ∀ e, E e → E' e) : Follows I E' abs x y :=
  ⟨h.1, fun e he => (h.2 e he).imp_left (hE e)⟩

/-- The operations of a program all have `P`, whatever they return. -/
def Only (P : O → Prop) : Prog O R α → Prop
  | ret _ => True
  | op o k => P o ∧ ∀ r, (k r).Only P

section

variable {P : O → Prop} {h' : Handler O R ε τ} {I : σ → Prop} {abs : σ → τ}

theorem only_true (p : Prog O R α) : p.Only fun _ => True := by
  induction p with
  | ret a => trivial
  | op o k ih => exact ⟨trivial, ih⟩

theorem Only.perform {o : O} (ho : P o) : (perform o : Prog O R (R o)).Only P :=
  ⟨ho, fun _ => trivial⟩

theorem Only.bind {p : Prog O R α} {f : α → Prog O R β} (hp : p.Only P) (hf : ∀ a, (f a).Only P) :
    (p >>= f).Only P := by
  show (p.bind f).Only P
  induction p with
  | ret a => exact hf a
  | op o k ih => exact ⟨hp.1, fun r => ih r (hp.2 r)⟩

/-- **Refinement.**  If every operation of a program, with the first handler, does what it does with
the second, as `abs` sees it, so does the program. -/
theorem follows_only (hop : ∀ o s, P o → I s → Follows I E abs (h o s) (h' o (abs s)))
    (p : Prog O R α) (hp : p.Only P) (hs : I s) :
    Follows I E abs (p.run h s) (p.run h' (abs s)) := by
  induction p generalizing s with
  | ret a =>
      refine ⟨fun b t hr => ?_, fun e he => (by cases he)⟩
      obtain ⟨rfl, rfl⟩ : a = b ∧ s = t := by simpa [run] using hr
      exact ⟨hs, rfl⟩
  | op o k ih =>
      obtain ⟨hok, herr⟩ := hop o s hp.1 hs
      simp only [run]
      cases ho : h o s with
      | error e =>
          refine ⟨fun a t hr => (by cases hr), fun e' he => ?_⟩
          cases he
          refine (herr e ho).imp_right fun hy => ?_
          rw [hy]
      | ok r =>
          obtain ⟨hI, hy⟩ := hok r.1 r.2 ho
          rw [hy]
          exact ih r.1 (hp.2 r.1) hI

theorem follows_run (hop : ∀ o s, I s → Follows I E abs (h o s) (h' o (abs s))) (p : Prog O R α)
    (hs : I s) : Follows I E abs (p.run h s) (p.run h' (abs s)) :=
  follows_only (fun o s _ => hop o s) p (only_true p) hs

/-- What is proved of a program with the second handler holds with the first. -/
theorem Follows.wp {E' : ε → Prop} {Q : α → τ → Prop} {p : Prog O R α}
    (hf : Follows I E abs (p.run h s) (p.run h' (abs s))) (hp : wp h' E' p Q (abs s)) :
    wp h (fun e => E e ∨ E' e) p (fun a t => I t ∧ Q a (abs t)) s := by
  obtain ⟨hok, herr⟩ := hf
  unfold Prog.wp
  cases hr : p.run h s with
  | error e => exact (herr e hr).imp_right fun hy => wp_of_error hp hy
  | ok r =>
      obtain ⟨hI, hy⟩ := hok r.1 r.2 hr
      exact ⟨hI, wp_of_ok hp hy⟩

end

end Prog

end Lib
