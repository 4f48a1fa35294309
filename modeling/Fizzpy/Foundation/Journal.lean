import Mathlib.Tactic

/-!
# Programs that keep a journal

A program that may raise writes what it does into a journal, which it keeps when it raises. `Writes`
says that all its entries are of one kind; it is closed under what programs are put together with.
-/

namespace Foundation

universe u

variable {ε η : Type u} {α β : Type u}

/-- The journal in the end, whether the program returned or raised. -/
def journal {σ : Type u} : EStateM.Result ε σ α → σ
  | .ok _ s => s
  | .error _ s => s

/-- The program only adds entries of a kind. -/
def Writes (P : η → Prop) (m : EStateM ε (List η) α) : Prop :=
  ∀ before, ∃ added, journal (m before) = before ++ added ∧ ∀ e ∈ added, P e

variable {P : η → Prop}

/-- Nothing is added by a program that leaves the journal alone. -/
theorem writes_of_same {m : EStateM ε (List η) α} (h : ∀ before, journal (m before) = before) :
    Writes P m :=
  fun before => ⟨[], by rw [h before, List.append_nil], by simp⟩

theorem writes_pure (a : α) : Writes P (pure a : EStateM ε (List η) α) := writes_of_same fun _ => rfl

theorem writes_throw (e : ε) : Writes P (throw e : EStateM ε (List η) α) := writes_of_same fun _ => rfl

/-- One entry. -/
theorem writes_modify {e : η} (h : P e) :
    Writes P (modify (· ++ [e]) : EStateM ε (List η) PUnit) :=
  fun _ => ⟨[e], rfl, fun _ he => List.mem_singleton.mp he ▸ h⟩

/-- A program that goes on where another has come to. -/
theorem Writes.after {m : EStateM ε (List η) α} (hm : Writes P m) {before added : List η}
    (hadded : ∀ e ∈ added, P e) :
    ∃ added', journal (m (before ++ added)) = before ++ added' ∧ ∀ e ∈ added', P e := by
  obtain ⟨more, heq, hmore⟩ := hm (before ++ added)
  refine ⟨added ++ more, ?_, fun e he => (List.mem_append.mp he).elim (hadded e) (hmore e)⟩
  rw [heq, List.append_assoc]

theorem Writes.bind {m : EStateM ε (List η) α} {f : α → EStateM ε (List η) β} (hm : Writes P m)
    (hf : ∀ a, Writes P (f a)) : Writes P (m >>= f) := by
  intro before
  obtain ⟨added, heq, hadded⟩ := hm before
  show ∃ added, journal (EStateM.bind m f before) = _ ∧ _
  unfold EStateM.bind
  cases hr : m before with
  | error e s =>
    rw [hr] at heq
    exact ⟨added, heq, hadded⟩
  | ok a s =>
    rw [hr] at heq
    obtain rfl : s = before ++ added := heq
    exact (hf a).after hadded

/-- The handler goes on with the journal as it is. -/
theorem Writes.tryCatch {m : EStateM ε (List η) α} {f : ε → EStateM ε (List η) α} (hm : Writes P m)
    (hf : ∀ e, Writes P (f e)) : Writes P (tryCatch m f) := by
  intro before
  obtain ⟨added, heq, hadded⟩ := hm before
  show ∃ added, journal (EStateM.tryCatch m f before) = _ ∧ _
  unfold EStateM.tryCatch
  cases hr : m before with
  | ok a s =>
    rw [hr] at heq
    exact ⟨added, heq, hadded⟩
  | error e s =>
    rw [hr] at heq
    obtain rfl : s = before ++ added := heq
    exact (hf e).after hadded

end Foundation
