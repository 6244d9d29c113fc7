import Mathlib.Data.List.Induction

/-!
# Runs of a partial step function

A component that takes one input at a time, some of them not possible in some
states: `step : σ → ι → Option σ`. A run is a list of inputs, all possible in turn
(`run`), and `run_invariant` is induction along it, with the inputs so far at hand.

Runs are concatenated and cut (`run_append`, `run_snoc`), so that a statement about a
run can be proved from its end as well as from its start. An invariant may speak of
the inputs so far: it is given the list that has led to the state.
-/

namespace Steps

variable {σ ι : Type} (step : σ → ι → Option σ)

/-- Take the inputs one after the other. -/
def run (s : σ) : List ι → Option σ
  | [] => some s
  | x :: xs => (step s x).bind fun s => run s xs

variable {step} {s s' : σ} {x : ι} {xs ys : List ι}

/-- Events after others start from where these have led. -/
theorem run_append : run step s (xs ++ ys) = (run step s xs).bind fun s => run step s ys := by
  induction xs generalizing s with
  | nil => rfl
  | cons x xs ih =>
    show (step s x).bind _ = ((step s x).bind _).bind _
    cases step s x with
    | none => rfl
    | some s₁ => exact ih

/-- The last event of a run is a step from where the others have led. -/
theorem run_snoc : run step s (xs ++ [x]) = some s' ↔
    ∃ s₁, run step s xs = some s₁ ∧ step s₁ x = some s' := by
  rw [run_append, Option.bind_eq_some_iff]
  simp [run]

/-- What holds at first and survives every possible step holds along every run. -/
theorem run_invariant {I : List ι → σ → Prop} (h0 : I [] s)
    (hstep : ∀ xs s₁ x s₂, run step s xs = some s₁ → I xs s₁ →
      step s₁ x = some s₂ →
      I (xs ++ [x]) s₂) (hr : run step s xs = some s') : I xs s' := by
  induction xs using List.reverseRecOn generalizing s' with
  | nil =>
    cases hr
    exact h0
  | append_singleton xs x ih =>
    obtain ⟨s₁, hr₁, hs⟩ := run_snoc.mp hr
    exact hstep xs s₁ x s' hr₁ (ih hr₁) hs

/-- Two step functions that keep a relation keep it along every run: an input is possible in one
exactly when it is possible in the other. -/
theorem run_rel {τ : Type} {step' : τ → ι → Option τ} {R : σ → τ → Prop}
    (hstep : ∀ s t x, R s t → Option.Rel R (step s x) (step' t x)) (xs : List ι) {t : τ}
    (h : R s t) : Option.Rel R (run step s xs) (run step' t xs) := by
  induction xs generalizing s t with
  | nil => exact .some h
  | cons x xs ih =>
    have hx := hstep s t x h
    show Option.Rel R ((step s x).bind _) ((step' t x).bind _)
    generalize step s x = a, step' t x = b at hx
    cases hx with
    | none => exact .none
    | some h' => exact ih h'

/-! ## Steps that are always possible -/

/-- Where a step keeps `I` exactly for the inputs in `Good`, every state of a run has `I`
exactly when all its inputs are in `Good`. -/
theorem foldl_invariant_iff {step : σ → ι → σ} {I : σ → Prop} {Good : ι → Prop}
    (hstep : ∀ s x, I s → (I (step s x) ↔ Good x)) (h0 : I s) :
    (∀ pre post, xs = pre ++ post → I (pre.foldl step s)) ↔ ∀ x ∈ xs, Good x := by
  -- on the list: the prefix of one element says that the first one is good
  induction xs generalizing s with
  | nil =>
    constructor
    · intro _ x hx
      cases hx
    · intro _ pre post hsplit
      rw [(List.append_eq_nil_iff.mp hsplit.symm).1]
      exact h0
  | cons x xs ih =>
    constructor
    · intro h
      have hx : I (step s x) := h [x] xs rfl
      have hgood := (ih hx).mp fun pre post hsplit => h (x :: pre) post (by rw [hsplit]; rfl)
      exact List.forall_mem_cons.mpr ⟨(hstep s x h0).mp hx, hgood⟩
    · intro hgood pre post hsplit
      obtain ⟨hx, hxs⟩ := List.forall_mem_cons.mp hgood
      cases pre with
      | nil => exact h0
      | cons y pre =>
        cases hsplit
        exact (ih ((hstep s _ h0).mpr hx)).mpr hxs pre post rfl

end Steps
