import Mathlib.Tactic

/-!
# Runs of a labelled transition function

A system is a partial function `step` of a state and a label: `none` where the label is not
enabled. `run` takes the labels of a list one after the other. `run_invariant` carries an invariant
along a run; `throughout_iff_along` says that a property holds in every state of a run exactly when
every step of it meets a condition, for a condition that is what one step needs. `run_map` takes
the runs of one system to those of another. `recording` keeps notes of the labels beside the state,
so that both may speak of the past.
-/

namespace Foundation

variable {σ ε : Type*} (step : σ → ε → Option σ)

/-- The state after a list of labels, `none` when one of them is not enabled in its turn. -/
def run : σ → List ε → Option σ
  | s, [] => some s
  | s, e :: es => (step s e).bind fun s' => run s' es

@[simp] theorem run_nil (s : σ) : run step s [] = some s := rfl

theorem run_cons (s : σ) (e : ε) (es : List ε) :
    run step s (e :: es) = (step s e).bind fun s' => run step s' es := rfl

theorem run_append (s : σ) (as bs : List ε) :
    run step s (as ++ bs) = (run step s as).bind fun s' => run step s' bs := by
  induction as generalizing s with
  | nil => rfl
  | cons a as ih =>
    rw [List.cons_append, run_cons, run_cons]
    cases step s a with
    | none => rfl
    | some s' => exact ih s'

/-- `C` holds of every step taken along the labels. -/
def Along (C : σ → ε → Prop) : σ → List ε → Prop
  | _, [] => True
  | s, e :: es => ∀ s', step s e = some s' → C s e ∧ Along C s' es

/-- `P` holds in every state passed along the labels, the first one included. -/
def Throughout (P : σ → Prop) : σ → List ε → Prop
  | s, [] => P s
  | s, e :: es => P s ∧ ∀ s', step s e = some s' → Throughout P s' es

variable {step} {I P : σ → Prop} {C : σ → ε → Prop}

theorem Throughout.head {s : σ} {es : List ε} (h : Throughout step P s es) : P s := by
  cases es with
  | nil => exact h
  | cons e es => exact h.1

/-- The last state of a run is one of those passed. -/
theorem Throughout.last {s s' : σ} {es : List ε} (h : Throughout step P s es)
    (hr : run step s es = some s') : P s' := by
  induction es generalizing s with
  | nil => rw [run_nil, Option.some.injEq] at hr; subst hr; exact h
  | cons e es ih =>
    rw [run_cons, Option.bind_eq_some_iff] at hr
    obtain ⟨s₁, h₁, hr⟩ := hr
    exact ih (h.2 s₁ h₁) hr

/-- What every step meeting the condition keeps holds all along. -/
theorem throughout_of_along (hstep : ∀ s e s', P s → C s e → step s e = some s' → P s')
    {s : σ} {es : List ε} (h0 : P s) (hC : Along step C s es) : Throughout step P s es := by
  induction es generalizing s with
  | nil => exact h0
  | cons e es ih =>
    refine ⟨h0, fun s' hs' => ?_⟩
    obtain ⟨hc, hrest⟩ := hC s' hs'
    exact ih (hstep s e s' h0 hc hs') hrest

theorem along_congr {D : σ → ε → Prop} (h : ∀ s e, C s e ↔ D s e) (s : σ) (es : List ε) :
    Along step C s es ↔ Along step D s es := by
  induction es generalizing s with
  | nil => exact Iff.rfl
  | cons e es ih => exact forall₂_congr fun s' _ => and_congr (h s e) (ih s')

theorem along_true (s : σ) (es : List ε) : Along step (fun _ _ => True) s es := by
  induction es generalizing s with
  | nil => trivial
  | cons e es ih => exact fun s' _ => ⟨trivial, ih s'⟩

/-- An invariant holds after every run. -/
theorem run_invariant (hstep : ∀ s e s', I s → step s e = some s' → I s') {s s' : σ} {es : List ε}
    (h0 : I s) (hr : run step s es = some s') : I s' :=
  (throughout_of_along (C := fun _ _ => True) (fun s e s' hi _ hs => hstep s e s' hi hs) h0
    (along_true s es)).last hr

/-- An invariant that steps meeting a condition keep holds after every run of such steps. -/
theorem run_invariant_along (hstep : ∀ s e s', I s → C s e → step s e = some s' → I s') {s s' : σ}
    {es : List ε} (h0 : I s) (hC : Along step C s es) (hr : run step s es = some s') : I s' :=
  (throughout_of_along hstep h0 hC).last hr

/-- Where steps are taken in `P` only, a run that ends in `P` is one of another system, if each of
its steps into `P` is. -/
theorem run_map {σ' ε' : Type*} {step' : σ' → ε' → Option σ'} {f : σ → σ'} {g : ε → ε'}
    (hfrom : ∀ s e s', step s e = some s' → P s)
    (hstep : ∀ s e s', step s e = some s' → P s' → step' (f s) (g e) = some (f s')) {s s' : σ}
    {es : List ε} (hr : run step s es = some s') (hP : P s') :
    run step' (f s) (es.map g) = some (f s') := by
  induction es generalizing s with
  | nil =>
    rw [run_nil, Option.some.injEq] at hr
    subst hr
    rfl
  | cons e es ih =>
    rw [run_cons, Option.bind_eq_some_iff] at hr
    obtain ⟨s₁, h₁, hr⟩ := hr
    have hP₁ : P s₁ := by
      cases es with
      | nil =>
        rw [run_nil, Option.some.injEq] at hr
        subst hr
        exact hP
      | cons e' es =>
        rw [run_cons, Option.bind_eq_some_iff] at hr
        obtain ⟨s₂, h₂, -⟩ := hr
        exact hfrom s₁ e' s₂ h₂
    rw [List.map_cons, run_cons, hstep s e s₁ h₁ hP₁]
    exact ih hr

/-- A run is no longer than the measure that every step takes from. -/
theorem run_length_le {m : σ → ℕ} (hstep : ∀ s e s', step s e = some s' → m s' < m s) {s s' : σ}
    {es : List ε} (hr : run step s es = some s') : es.length + m s' ≤ m s := by
  induction es generalizing s with
  | nil =>
    rw [run_nil, Option.some.injEq] at hr
    subst hr
    exact (Nat.zero_add _).le
  | cons e es ih =>
    rw [run_cons, Option.bind_eq_some_iff] at hr
    obtain ⟨s₁, h₁, hr⟩ := hr
    have hlt := hstep s e s₁ h₁
    have hle := ih hr
    rw [List.length_cons]
    omega

/-- An invariant that speaks of the labels taken so far, which satisfy `V`. -/
theorem run_history {I : List ε → σ → Prop} {V : ε → Prop}
    (hstep : ∀ h s e s', I h s → V e → step s e = some s' → I (h ++ [e]) s') {s s' : σ} {es : List ε}
    (hV : ∀ e ∈ es, V e) (h : List ε) (h0 : I h s) (hr : run step s es = some s') :
    I (h ++ es) s' := by
  induction es generalizing h s with
  | nil =>
    rw [run_nil, Option.some.injEq] at hr
    subst hr
    rwa [List.append_nil]
  | cons e es ih =>
    rw [run_cons, Option.bind_eq_some_iff] at hr
    obtain ⟨s₁, h₁, hr⟩ := hr
    have := ih (fun e' he' => hV e' (List.mem_cons_of_mem e he')) (h ++ [e])
      (hstep h s e s₁ h0 (hV e List.mem_cons_self) h₁) hr
    rwa [List.append_assoc] at this

/-- **Exact guards.** When a step from a good state leads to a good state exactly if it meets `C`,
all states of a run are good exactly if all its steps meet `C`. -/
theorem throughout_iff_along (hstep : ∀ s e s', I s → step s e = some s' → I s')
    (hiff : ∀ s e s', I s → P s → step s e = some s' → (P s' ↔ C s e)) {s : σ} (hI : I s)
    (h0 : P s) (es : List ε) : Throughout step P s es ↔ Along step C s es := by
  induction es generalizing s with
  | nil => exact ⟨fun _ => trivial, fun _ => h0⟩
  | cons e es ih =>
    constructor
    · intro h s' hs'
      have hP' := (h.2 s' hs').head
      exact ⟨(hiff s e s' hI h0 hs').mp hP', (ih (hstep s e s' hI hs') hP').mp (h.2 s' hs')⟩
    · intro h
      refine ⟨h0, fun s' hs' => ?_⟩
      obtain ⟨hc, hrest⟩ := h s' hs'
      have hP' := (hiff s e s' hI h0 hs').mpr hc
      exact (ih (hstep s e s' hI hs') hP').mpr hrest

/-- Where a step leaves all agents but one as they should be, that one decides. -/
theorem forall_iff_at {ι : Type*} {Q : ι → Prop} {i : ι} (hothers : ∀ j, j ≠ i → Q j) :
    (∀ j, Q j) ↔ Q i := by
  refine ⟨fun h => h i, fun hi j => ?_⟩
  by_cases hj : j = i
  · subst hj
    exact hi
  · exact hothers j hj

/-! ## Records -/

section

variable {η : Type*} (step) (note : η → ε → η)

/-- The system, with notes of the labels taken. -/
def recording (s : σ × η) (e : ε) : Option (σ × η) := (step s.1 e).map fun s' => (s', note s.2 e)

/-- Keeping notes changes no run. -/
theorem run_recording (s : σ) (h : η) (es : List ε) : run (recording step note) (s, h) es =
    (run step s es).map fun s' => (s', es.foldl note h) := by
  induction es generalizing s h with
  | nil => rfl
  | cons e es ih =>
    rw [run_cons, run_cons, recording]
    cases step s e with
    | none => rfl
    | some s' => exact ih s' (note h e)

theorem recording_eq_some {s s' : σ × η} {e : ε} (h : recording step note s e = some s') :
    step s.1 e = some s'.1 ∧ s'.2 = note s.2 e := by
  obtain ⟨t, ht, rfl⟩ := Option.map_eq_some_iff.mp h
  exact ⟨ht, rfl⟩

end

end Foundation
