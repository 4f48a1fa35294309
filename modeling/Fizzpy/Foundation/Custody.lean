import Mathlib.Tactic
import Mathlib.Data.List.Basic

/-!
# Resources in custody

A ledger of resources that are opened and closed. `Covered held` says that whatever was opened has been
closed or is held by somebody; where nobody holds anything any more, all of it has been closed
(`Covered.all_closed`). `HeldBy` is what the members of a list hold, one resource each at most.
-/

namespace Foundation

/-- The resources that were opened, and those that were closed. -/
structure Ledger (α : Type*) where
  opened : List α := []
  closed : List α := []
  deriving DecidableEq

namespace Ledger

variable {α : Type*} {l : Ledger α} {held held' : α → Prop} {x : α}

def create (x : α) (l : Ledger α) : Ledger α := { l with opened := x :: l.opened }

def close (x : α) (l : Ledger α) : Ledger α := { l with closed := x :: l.closed }

/-- What was opened has been closed or is held. -/
def Covered (l : Ledger α) (held : α → Prop) : Prop := ∀ x ∈ l.opened, x ∈ l.closed ∨ held x

theorem covered_empty : ({} : Ledger α).Covered held := nofun

theorem Covered.mono (h : l.Covered held) (hm : ∀ x, held x → held' x) : l.Covered held' :=
  fun x hx => (h x hx).imp id (hm x)

theorem Covered.create (h : l.Covered held) : (l.create x).Covered fun y => x = y ∨ held y := by
  intro y hy
  obtain rfl | hy := List.mem_cons.mp hy
  · exact .inr (.inl rfl)
  · exact (h y hy).imp id .inr

theorem Covered.close (h : l.Covered fun y => x = y ∨ held y) : (l.close x).Covered held := by
  intro y hy
  obtain hclosed | rfl | hheld := h y hy
  · exact .inl (List.mem_cons_of_mem x hclosed)
  · exact .inl List.mem_cons_self
  · exact .inr hheld

theorem Covered.all_closed (h : l.Covered held) (hnone : ∀ x, ¬ held x) :
    ∀ x ∈ l.opened, x ∈ l.closed := fun x hx => (h x hx).resolve_right (hnone x)

end Ledger

/-! ## Holders -/

variable {α γ : Type*}

/-- One of the holders has it. -/
def HeldBy (holds : γ → Option α) (cs : List γ) (x : α) : Prop := ∃ c ∈ cs, holds c = some x

variable {holds : γ → Option α} {cs : List γ} {i : ℕ} {c c' : γ} {x : α}

/-- What is held is held by the holder in the `i`-th place, or still by another when that one is
replaced. -/
theorem heldBy_set (hi : cs[i]? = some c) (h : HeldBy holds cs x) :
    holds c = some x ∨ HeldBy holds (cs.set i c') x := by
  obtain ⟨d, hd, hx⟩ := h
  obtain ⟨j, hj⟩ := List.mem_iff_getElem?.mp hd
  by_cases hij : i = j
  · subst hij
    rw [hi, Option.some.injEq] at hj
    exact .inl (hj ▸ hx)
  · refine .inr ⟨d, List.mem_iff_getElem?.mpr ⟨j, ?_⟩, hx⟩
    rwa [List.getElem?_set_ne hij]

theorem heldBy_set_self (hi : cs[i]? = some c) (h : holds c' = some x) :
    HeldBy holds (cs.set i c') x := by
  obtain ⟨hlt, -⟩ := List.getElem?_eq_some_iff.mp hi
  exact ⟨c', List.mem_iff_getElem?.mpr ⟨i, List.getElem?_set_self hlt⟩, h⟩

theorem not_heldBy (h : ∀ c ∈ cs, holds c = none) (x : α) : ¬ HeldBy holds cs x := by
  rintro ⟨c, hc, hx⟩
  rw [h c hc] at hx
  cases hx

end Foundation
