import Mathlib.Tactic

/-!
# Loops that leave by their own decision

The body of a `while True` loop either goes round again with a new state or leaves with a result
(`Iter`). A body whose every new round lowers a measure has a total loop (`loop`), which computes,
unrolls one round at a time (`loop_eq`) and has its own induction (`loop_induction`).
-/

namespace Foundation

/-- What one round of a loop decides. -/
inductive Iter (α β : Type*)
  | again (a : α)
  | leave (b : β)

variable {α β : Type*}

/-- At most `n` rounds of the loop. -/
def rounds (body : α → Iter α β) : ℕ → α → Option β
  | 0, _ => none
  | n + 1, a =>
    match body a with
    | .again a' => rounds body n a'
    | .leave b => some b

variable {body : α → Iter α β} {μ : α → ℕ}

/-- A measure above which the loop needs no more rounds. -/
theorem rounds_isSome (hμ : ∀ a a', body a = .again a' → μ a' < μ a) :
    ∀ (n : ℕ) (a : α), μ a < n → (rounds body n a).isSome := by
  intro n
  induction n with
  | zero => intro a h; omega
  | succ n ih =>
    intro a h
    unfold rounds
    split
    · rename_i a' ha
      exact ih a' (by have := hμ a a' ha; omega)
    · rfl

theorem rounds_succ {n : ℕ} {a : α} {b : β} (h : rounds body n a = some b) :
    rounds body (n + 1) a = some b := by
  induction n generalizing a with
  | zero => cases h
  | succ n ih =>
    unfold rounds at h ⊢
    split at h
    · exact ih h
    · exact h

theorem rounds_le {m n : ℕ} (hmn : m ≤ n) {a : α} {b : β} (h : rounds body m a = some b) :
    rounds body n a = some b := by
  induction hmn with
  | refl => exact h
  | step _ ih => exact rounds_succ ih

/-- The loop, run to its end. -/
def loop (body : α → Iter α β) (μ : α → ℕ) (hμ : ∀ a a', body a = .again a' → μ a' < μ a) (a : α) :
    β :=
  (rounds body (μ a + 1) a).get (rounds_isSome hμ _ a (Nat.lt_succ_self _))

variable (hμ : ∀ a a', body a = .again a' → μ a' < μ a)

theorem loop_leave {a : α} {b : β} (h : body a = .leave b) : loop body μ hμ a = b := by
  have : rounds body (μ a + 1) a = some b := by unfold rounds; rw [h]
  simp only [loop, this, Option.get_some]

theorem loop_again {a a' : α} (h : body a = .again a') : loop body μ hμ a = loop body μ hμ a' := by
  have hlt := hμ a a' h
  obtain ⟨b, hb⟩ := Option.isSome_iff_exists.mp (rounds_isSome hμ (μ a' + 1) a' (by omega))
  have hstep : rounds body (μ a + 1) a = some b := by
    unfold rounds
    rw [h]
    exact rounds_le (by omega) hb
  simp only [loop, hb, hstep, Option.get_some]

/-- The loop is over after as many rounds as the measure allows. -/
theorem rounds_eq_loop (a : α) : rounds body (μ a + 1) a = some (loop body μ hμ a) := by
  simp only [loop, Option.some_get]

/-- One round unrolled. -/
theorem loop_eq (a : α) : loop body μ hμ a =
    match body a with
    | .again a' => loop body μ hμ a'
    | .leave b => b := by
  split
  · rename_i a' h; exact loop_again hμ h
  · rename_i b h; exact loop_leave hμ h

include hμ in
/-- Induction along the rounds of the loop. -/
theorem loop_induction {P : α → Prop} (h : ∀ a, (∀ a', body a = .again a' → P a') → P a) (a : α) :
    P a := by
  induction hn : μ a using Nat.strong_induction_on generalizing a with
  | _ n ih =>
    exact h a fun a' ha => ih (μ a') (by have := hμ a a' ha; omega) a' rfl

end Foundation
