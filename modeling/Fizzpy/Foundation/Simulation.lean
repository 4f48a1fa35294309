import Fizzpy.Foundation.Transition

/-!
# Simulations and measures of runs

Two rules for the runs of a labelled transition function. `run_simulated` matches each step by any number
of steps of another system, none at all where it is a stutter, and so each run by a run. `run_measured`
bounds the runs whose labels take from a measure.
-/

namespace Foundation

variable {σ τ ε δ : Type*} {step : σ → ε → Option σ} {step' : τ → δ → Option τ}

/-- What is related stays related along a run, to some run of the other system. -/
theorem run_simulated {R : τ → σ → Prop} {V : ε → Prop}
    (hstep : ∀ t s e s', R t s → V e → step s e = some s' →
      ∃ ds t', run step' t ds = some t' ∧ R t' s')
    {t : τ} {s s' : σ} {es : List ε} (hR : R t s) (hV : ∀ e ∈ es, V e) (hr : run step s es = some s') :
    ∃ ds t', run step' t ds = some t' ∧ R t' s' := by
  induction es generalizing t s with
  | nil =>
    rw [run_nil, Option.some.injEq] at hr
    subst hr
    exact ⟨[], t, rfl, hR⟩
  | cons e es ih =>
    rw [run_cons, Option.bind_eq_some_iff] at hr
    obtain ⟨s₁, h₁, hr⟩ := hr
    obtain ⟨he, hV⟩ := List.forall_mem_cons.mp hV
    obtain ⟨ds₁, t₁, hr₁, hR₁⟩ := hstep t s e s₁ hR he h₁
    obtain ⟨ds, t', hr', hR'⟩ := ih hR₁ hV hr
    refine ⟨ds₁ ++ ds, t', ?_, hR'⟩
    rw [run_append, hr₁]
    exact hr'

/-- A run of labels that take from the measure is no longer than that. -/
theorem run_measured {I : σ → Prop} {V : ε → Prop} {m : σ → ℕ}
    (hstep : ∀ s e s', I s → V e → step s e = some s' → I s' ∧ m s' < m s)
    {s s' : σ} {es : List ε} (hI : I s) (hV : ∀ e ∈ es, V e) (hr : run step s es = some s') :
    I s' ∧ es.length + m s' ≤ m s := by
  induction es generalizing s with
  | nil =>
    rw [run_nil, Option.some.injEq] at hr
    subst hr
    exact ⟨hI, (Nat.zero_add _).le⟩
  | cons e es ih =>
    rw [run_cons, Option.bind_eq_some_iff] at hr
    obtain ⟨s₁, h₁, hr⟩ := hr
    obtain ⟨he, hV⟩ := List.forall_mem_cons.mp hV
    obtain ⟨hI₁, hlt⟩ := hstep s e s₁ hI he h₁
    obtain ⟨hI', hle⟩ := ih hI₁ hV hr
    refine ⟨hI', ?_⟩
    rw [List.length_cons]
    omega

end Foundation
