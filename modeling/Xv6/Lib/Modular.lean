import Xv6.Lib.Pool

/-!
# Library — reasoning about one program at a time

Programs that take turns on one state, verified one by one.  Each program has a *local view* `V` of
the state, of which it may assume only what no other program can change; a `Spec` says what an
operation asks of the view of the program that performs it, and what it may leave it with.

* `Prog.lwp` — correctness of one program, against its own view, with its rules.
* `Prog.serve`, `Prog.expand` — a program whose operations are programs themselves, with an invariant
  rule (`lwp_serve`) and a rule of refinement (`lwp_expand`).
* `Spec.Sound` — that the views fit the state (`Sat`) is kept by every operation that is asked for
  rightly.
* `Pool.run_local` — then it is kept by every interleaving of correct programs, and they stop only as
  `E` admits.
-/

namespace Lib

variable {O : Type} {R : O → Type} {α β ε ι σ V : Type}

/-- What an operation asks of a local view, and the views it may leave with a result. -/
structure Spec (O : Type) (R : O → Type) (V : Type) where
  pre : O → V → Prop
  post : (o : O) → V → R o → V → Prop

namespace Prog

/-- `p`, whatever its operations do within `S`, asks for them rightly and returns with `Q`. -/
def lwp (S : Spec O R V) : Prog O R α → (α → V → Prop) → V → Prop
  | ret a, Q, v => Q a v
  | op o k, Q, v => S.pre o v ∧ ∀ r w, S.post o v r w → (k r).lwp S Q w

variable {S : Spec O R V} {p : Prog O R α} {f : α → Prog O R β} {Q Q' : α → V → Prop} {v : V}

@[simp]
theorem lwp_pure {a : α} : (pure a : Prog O R α).lwp S Q v ↔ Q a v := Iff.rfl

theorem lwp_perform {o : O} {Q : R o → V → Prop} (ho : S.pre o v)
    (hQ : ∀ r w, S.post o v r w → Q r w) : (perform o : Prog O R (R o)).lwp S Q v :=
  ⟨ho, hQ⟩

theorem lwp_op {o : O} {f : R o → Prog O R α} (ho : S.pre o v)
    (hf : ∀ r w, S.post o v r w → (f r).lwp S Q w) : (perform o >>= f).lwp S Q v :=
  ⟨ho, hf⟩

theorem lwp_mono (hp : p.lwp S Q v) (hQ : ∀ a w, Q a w → Q' a w) : p.lwp S Q' v := by
  induction p generalizing v with
  | ret a => exact hQ a v hp
  | op o k ih => exact ⟨hp.1, fun r w hw => ih r (hp.2 r w hw)⟩

/-- The rule of sequencing. -/
theorem lwp_seq {Q : β → V → Prop} (hp : p.lwp S Q' v) (hf : ∀ a w, Q' a w → (f a).lwp S Q w) :
    (p >>= f).lwp S Q v := by
  show (p.bind f).lwp S Q v
  induction p generalizing v with
  | ret a => exact hf a v hp
  | op o k ih => exact ⟨hp.1, fun r w hw => ih r (hp.2 r w hw)⟩

/-- `p`, with every operation carried out by the program `h` for it, on a state of its own. -/
def serve {O' : Type} {R' : O' → Type} {τ : Type} (h : τ → (o : O') → Prog O R (R' o × τ)) :
    Prog O' R' α → τ → Prog O R (α × τ)
  | ret a, t => pure (a, t)
  | op o k, t => h t o >>= fun r => (k r.1).serve h r.2

/-- What carrying out one operation keeps, every program keeps. -/
theorem lwp_serve {O' : Type} {R' : O' → Type} {τ : Type} {I : τ → V → Prop}
    {h : τ → (o : O') → Prog O R (R' o × τ)}
    (hop : ∀ t o v, I t v → (h t o).lwp S (fun r w => I r.2 w) v) (p : Prog O' R' α) {t : τ} {v : V}
    (hv : I t v) : (p.serve h t).lwp S (fun r w => I r.2 w) v := by
  induction p generalizing t v with
  | ret a => exact hv
  | op o k ih => exact lwp_seq (hop t o v hv) fun r w hw => ih r.1 hw

/-- `p`, with every operation carried out by the program `h` for it. -/
def expand {O' : Type} {R' : O' → Type} (h : (o : O') → Prog O R (R' o)) : Prog O' R' α → Prog O R α
  | ret a => pure a
  | op o k => h o >>= fun r => (k r).expand h

/-- Programs that carry out each operation as it is specified carry out every correct program. -/
theorem lwp_expand {O' : Type} {R' : O' → Type} {V' : Type} {S' : Spec O' R' V'} {rel : V' → V → Prop}
    {h : (o : O') → Prog O R (R' o)} {Q : α → V' → Prop}
    (hop : ∀ o u v, rel u v → S'.pre o u →
      (h o).lwp S (fun r w => ∃ u', S'.post o u r u' ∧ rel u' w) v)
    (p : Prog O' R' α) {u : V'} {v : V} (hp : p.lwp S' Q u) (hv : rel u v) :
    (p.expand h).lwp S (fun a w => ∃ u', Q a u' ∧ rel u' w) v := by
  induction p generalizing u v with
  | ret a => exact ⟨u, hp, hv⟩
  | op o k ih =>
      refine lwp_seq (hop o u v hv hp.1) ?_
      rintro r w ⟨u', hu', hw⟩
      exact ih r (hp.2 r u' hu') hw

end Prog

/-- An operation, asked for rightly by the program `i`, changes the view of that program only, and as
the specification says; or the program has to wait, or it stops with a failure in `E`. -/
structure Spec.Sound [DecidableEq ι] (S : Spec O R V) (h : Handler O R ε σ) (waits : ε → Bool)
    (Sat : (ι → V) → σ → Prop) (E : ε → Prop) : Prop where
  ok : ∀ {vs : ι → V} {s t : σ} {i : ι} {o : O} {r : R o}, Sat vs s → S.pre o (vs i) →
    h o s = .ok (r, t) → ∃ w, S.post o (vs i) r w ∧ Sat (Function.update vs i w) t
  error : ∀ {vs : ι → V} {s : σ} {i : ι} {o : O} {e : ε}, Sat vs s → S.pre o (vs i) →
    h o s = .error e → waits e = false → E e

namespace Pool

variable [DecidableEq ι] {S : Spec O R V} {h : Handler O R ε σ} {waits : ε → Bool}
  {Sat : (ι → V) → σ → Prop} {E : ε → Prop} {P P' : Pool O R ι α σ} {vs : ι → V}
  {Q : ι → α → V → Prop}

/-- The programs are correct, each against its own view, and the views fit the state. -/
structure Fits (S : Spec O R V) (Sat : (ι → V) → σ → Prop) (Q : ι → α → V → Prop)
    (P : Pool O R ι α σ) (vs : ι → V) : Prop where
  sat : Sat vs P.state
  correct : ∀ i, (P.prog i).lwp S (Q i) (vs i)

/-- One turn of one program keeps to what all of them expect. -/
theorem turn_local (hS : S.Sound h waits Sat E) (hP : P.Fits S Sat Q vs) (i : ι) :
    (∀ P', P.turn h waits i = .ok P' → ∃ ws, P'.Fits S Sat Q ws) ∧
      ∀ e, P.turn h waits i = .error e → E e := by
  have hi := hP.correct i
  unfold turn
  cases hp : P.prog i with
  | ret a =>
      refine ⟨fun P' hr => ⟨vs, ?_⟩, fun e he => (by cases he)⟩
      cases hr
      exact hP
  | op o k =>
      rw [hp] at hi
      obtain ⟨hpre, hk⟩ := hi
      dsimp only
      cases ho : h o P.state with
      | ok r =>
          obtain ⟨w, hpost, hsat⟩ := hS.ok hP.sat hpre ho
          refine ⟨fun P' hr => ⟨Function.update vs i w, ?_⟩, fun e he => (by cases he)⟩
          cases hr
          refine ⟨hsat, fun j => ?_⟩
          by_cases hj : j = i
          · subst hj
            simpa only [Function.update_self] using hk _ w hpost
          · simpa only [Function.update_of_ne hj] using hP.correct j
      | error e =>
          dsimp only
          split
          · refine ⟨fun P' hr => ⟨vs, ?_⟩, fun e' he => (by cases he)⟩
            cases hr
            exact hP
          · rename_i hw
            refine ⟨fun P' hr => (by cases hr), fun e' he => ?_⟩
            cases he
            exact hS.error hP.sat hpre ho (by simpa using hw)

/-- **Programs that are correct one by one are correct together**, in any order of turns. -/
theorem run_local (hS : S.Sound h waits Sat E) (sched : List ι) (hP : P.Fits S Sat Q vs) :
    (∀ P', P.run h waits sched = .ok P' → ∃ ws, P'.Fits S Sat Q ws) ∧
      ∀ e, P.run h waits sched = .error e → E e := by
  induction sched generalizing P vs with
  | nil =>
      refine ⟨fun P' hr => ⟨vs, ?_⟩, fun e he => (by cases he)⟩
      cases hr
      exact hP
  | cons i sched ih =>
      obtain ⟨hok, herr⟩ := turn_local hS hP i
      unfold run
      cases hi : P.turn h waits i with
      | error e =>
          refine ⟨fun P' hr => (by cases hr), fun e' he => ?_⟩
          cases he
          exact herr e hi
      | ok P' =>
          obtain ⟨ws, hP'⟩ := hok P' hi
          exact ih hP'

end Pool

end Lib
