import Mathlib.Tactic

/-!
# Incremental readers

A reader keeps its unread input in its state: `extend` puts more input behind it and `run` works on
it as far as it goes. A run may raise; the state at that point is kept beside the error. When a run
on more input is the run on less, resumed after the rest has arrived (`resume`), the pieces in which
the input is fed do not matter (`feedAll_agree`).
-/

namespace Foundation

universe u

variable {ε σ β : Type*} {τ υ : Type u}

@[simp] theorem ok_bind (t : τ) (f : τ → Except ε υ) : (Except.ok t >>= f) = f t := rfl

theorem bind_eq_ok {x : Except ε τ} {f : τ → Except ε υ} {u : υ} :
    x >>= f = .ok u ↔ ∃ t, x = .ok t ∧ f t = .ok u := by
  cases x with
  | ok t =>
    rw [ok_bind]
    exact ⟨fun h => ⟨t, rfl, h⟩, fun ⟨_, heq, h⟩ => Except.ok.inj heq ▸ h⟩
  | error e => exact ⟨nofun, fun ⟨_, heq, _⟩ => nomatch heq⟩

/-- The outcome of a run, without the state in which an error was raised. -/
def outcome (x : Except (ε × σ) τ) : Except ε τ := x.mapError Prod.fst

@[simp] theorem outcome_ok (t : τ) : outcome (.ok t : Except (ε × σ) τ) = .ok t := rfl

@[simp] theorem outcome_error (e : ε) (s : σ) : outcome (.error (e, s) : Except (ε × σ) τ) = .error e :=
  rfl

theorem outcome_eq_ok_iff {x : Except (ε × σ) τ} {t : τ} : outcome x = .ok t ↔ x = .ok t := by
  cases x <;> simp [outcome, Except.mapError]

/-- Runs that agree still agree after the same continuation. -/
theorem outcome_bind_congr {x y : Except (ε × σ) τ} (h : outcome x = outcome y)
    {f g : τ → Except (ε × σ) υ} (hfg : ∀ t, y = .ok t → outcome (f t) = outcome (g t)) :
    outcome (x >>= f) = outcome (y >>= g) := by
  cases y with
  | ok t =>
    rw [outcome_ok, outcome_eq_ok_iff] at h
    subst h
    exact hfg t rfl
  | error p =>
    cases x with
    | ok t => simp [outcome, Except.mapError] at h
    | error q =>
      have hqp : q.1 = p.1 := by simpa [outcome, Except.mapError] using h
      show Except.error q.1 = Except.error p.1
      rw [hqp]

/-- A reader over the input alphabet `β`. `ready` holds while input may still come. -/
structure Reader (ε σ β : Type*) where
  extend : σ → List β → σ
  run : σ → Except (ε × σ) σ
  ready : σ → Prop
  extend_nil : ∀ s, extend s [] = s
  extend_append : ∀ s a b, extend (extend s a) b = extend s (a ++ b)
  ready_extend : ∀ s a, ready s → ready (extend s a)
  /-- Running on more input is running, and running again when the rest has arrived. -/
  resume : ∀ s b, ready s → outcome (run (extend s b)) = outcome (run s >>= fun s' => run (extend s' b))

namespace Reader

variable (m : Reader ε σ β)

/-- One piece of input arrives. -/
def feed (s : σ) (d : List β) : Except (ε × σ) σ := m.run (m.extend s d)

/-- Pieces of input arrive one by one, up to the first error. -/
def feedAll : σ → List (List β) → Except (ε × σ) σ
  | s, [] => .ok s
  | s, d :: ds => m.feed s d >>= fun s' => feedAll s' ds

theorem run_feedAll (ds : List (List β)) : ∀ {s : σ}, m.ready s →
    outcome (m.run s >>= fun s' => m.feedAll s' ds) = outcome (m.run (m.extend s ds.flatten)) := by
  induction ds with
  | nil =>
    intro s _
    rw [List.flatten_nil, m.extend_nil]
    show outcome (m.run s >>= pure) = _
    rw [bind_pure]
  | cons d ds ih =>
    intro s hs
    calc outcome (m.run s >>= fun s' => m.feedAll s' (d :: ds))
        = outcome ((m.run s >>= fun s' => m.run (m.extend s' d)) >>= fun s'' => m.feedAll s'' ds) := by
          rw [bind_assoc]; rfl
      _ = outcome (m.run (m.extend s d) >>= fun s'' => m.feedAll s'' ds) :=
          outcome_bind_congr (m.resume s d hs).symm fun _ _ => rfl
      _ = outcome (m.run (m.extend (m.extend s d) ds.flatten)) := ih (m.ready_extend s d hs)
      _ = outcome (m.run (m.extend s (d :: ds).flatten)) := by
          rw [m.extend_append, List.flatten_cons]

/-- **The cuts do not matter.** From a state that waits for input, feeding pieces one by one and
feeding their concatenation at once have the same outcome. -/
theorem feedAll_agree {s : σ} (hs : m.ready s) (hrest : m.run s = .ok s) (ds : List (List β)) :
    outcome (m.feedAll s ds) = outcome (m.feed s ds.flatten) := by
  have h := m.run_feedAll ds hs
  rw [hrest] at h
  exact h

end Reader

end Foundation
