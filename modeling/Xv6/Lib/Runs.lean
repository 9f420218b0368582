import Mathlib.Logic.Relation

/-!
# Library — runs of a labelled transition relation

`Run R s as s'`: from `s` the labels `as`, taken in order, lead to `s'` along `R`.  The two
rules used of it are the invariant rule (`Run.inv`: what every step keeps, every run keeps; with
the labels taken so far, `Run.inv_labels`; with the exact condition on the steps,
`Run.inv_iff`) and its restriction (`Run.restrict`: the steps of a run may be asked to meet a
condition, or given what an invariant yields, `Run.mono_inv`), together with the composition of
runs, runs with other labels (`Run.map`) and the runs of a partial step function
(`Run.of_foldlM`).
-/

namespace Lib

variable {σ α : Type*}

/-- The finite runs of `R`, with the list of labels taken. -/
inductive Run (R : σ → α → σ → Prop) : σ → List α → σ → Prop where
  | nil (s : σ) : Run R s [] s
  | cons {s t u : σ} {a : α} {as : List α} (h : R s a t) (r : Run R t as u) : Run R s (a :: as) u

namespace Run

variable {R : σ → α → σ → Prop} {s t u : σ} {a : α} {as bs : List α}

theorem append (h₁ : Run R s as t) (h₂ : Run R t bs u) : Run R s (as ++ bs) u := by
  induction h₁ with
  | nil => exact h₂
  | cons h _ ih => exact .cons h (ih h₂)

theorem snoc (h₁ : Run R s as t) (h : R t a u) : Run R s (as ++ [a]) u :=
  h₁.append (.cons h (.nil u))

/-- **The invariant rule.** -/
theorem inv {I : σ → Prop} (hstep : ∀ s a t, R s a t → I s → I t)
    (h : Run R s as t) (hs : I s) : I t := by
  induction h with
  | nil => exact hs
  | cons h _ ih => exact ih (hstep _ _ _ h hs)

/-- The invariant rule for an invariant that speaks of the labels taken. -/
theorem inv_labels {I : List α → σ → Prop}
    (hstep : ∀ bs s a t, R s a t → I bs s → I (bs ++ [a]) t) (h : Run R s as t) :
    ∀ bs, I bs s → I (bs ++ as) t := by
  induction h with
  | nil => intro bs hs; rwa [List.append_nil]
  | cons h _ ih =>
      intro bs hs
      rw [List.append_cons]
      exact ih _ (hstep bs _ _ _ h hs)

/-- A run whose steps all meet `C` is a run of `R` cut down to `C`. -/
theorem restrict {C : σ → α → Prop}
    (h : Run (fun s a t => C s a ∧ R s a t) s as t) : Run R s as t := by
  induction h with
  | nil => exact .nil _
  | cons h _ ih => exact .cons h.2 ih

/-- **The exact rule.**  Where the steps are functional and `P` holds after a step exactly when it
holds before it and the step meets `C`, it holds at the end of a run exactly when it holds at its
start and all the steps meet `C`. -/
theorem inv_iff {I P : σ → Prop} {C : σ → α → Prop}
    (hdet : ∀ s a t t', R s a t → R s a t' → t = t') (hinv : ∀ s a t, R s a t → I s → I t)
    (hstep : ∀ s a t, R s a t → I s → (P t ↔ P s ∧ C s a)) (h : Run R s as t) (hs : I s) :
    P t ↔ P s ∧ Run (fun s a t => C s a ∧ R s a t) s as t := by
  induction h with
  | nil s => exact ⟨fun hP => ⟨hP, .nil s⟩, And.left⟩
  | @cons s t u a as h r ih =>
      rw [ih (hinv _ _ _ h hs), hstep _ _ _ h hs, and_assoc]
      refine and_congr_right fun _ => ⟨fun ⟨hC, r'⟩ => .cons ⟨hC, h⟩ r', fun r' => ?_⟩
      cases r' with
      | @cons _ t' _ _ _ h' r' =>
          obtain rfl := hdet _ _ _ _ h h'.2
          exact ⟨h'.1, r'⟩

theorem mono {R' : σ → α → σ → Prop} (hR : ∀ a ∈ as, ∀ s t, R s a t → R' s a t)
    (h : Run R s as t) : Run R' s as t := by
  induction h with
  | nil => exact .nil _
  | cons h _ ih =>
      exact .cons (hR _ (List.mem_cons_self ..) _ _ h)
        (ih fun a ha => hR a (List.mem_cons_of_mem _ ha))

/-- A run, with its labels read as others. -/
theorem map {β : Type*} {R' : σ → β → σ → Prop} (f : α → β)
    (hR : ∀ s a t, R s a t → R' s (f a) t) (h : Run R s as t) : Run R' s (as.map f) t := by
  induction h with
  | nil => exact .nil _
  | cons h _ ih => exact .cons (hR _ _ _ h) ih

/-- The steps of a run have whatever an invariant gives each of them. -/
theorem mono_inv {R' : σ → α → σ → Prop} {I : σ → Prop}
    (hstep : ∀ s a t, R s a t → I s → I t ∧ R' s a t) (h : Run R s as t) (hs : I s) :
    Run R' s as t := by
  induction h with
  | nil => exact .nil _
  | cons h _ ih =>
      obtain ⟨ht, h'⟩ := hstep _ _ _ h hs
      exact .cons h' (ih ht)

/-- A list of labels that a partial step function accepts is a run of it. -/
theorem of_foldlM {f : σ → α → Option σ} (h : as.foldlM f s = some t) :
    Run (fun s a t => f s a = some t) s as t := by
  induction as generalizing s with
  | nil =>
      obtain rfl : s = t := Option.some.inj h
      exact .nil s
  | cons a as ih =>
      rw [List.foldlM_cons] at h
      obtain ⟨u, hu, h⟩ := Option.bind_eq_some_iff.mp h
      exact .cons hu (ih h)

end Run

end Lib
