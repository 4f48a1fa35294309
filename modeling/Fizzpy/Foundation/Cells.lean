import Mathlib.Data.List.Perm.Basic

/-!
# Tokens in cells

Lists of tokens, one for each cell. They are `Exclusive` when no token is in two places. A `Move`
is what a step may do to them: it drops tokens of a cell, carries tokens from a cell to another, or
brings in a fresh one.
-/

namespace Foundation

variable {τ κ : Type*}

/-- Each token is in one cell at most, and there once. -/
structure Exclusive (cell : κ → List τ) : Prop where
  nodup : ∀ k, (cell k).Nodup
  unique : ∀ {t k l}, t ∈ cell k → t ∈ cell l → k = l

inductive Move (fresh : τ → Prop) (cell cell' : κ → List τ) : Prop
  | drop (k : κ) (sub : (cell' k).Sublist (cell k)) (rest : ∀ j, j ≠ k → cell' j = cell j)
  | carry (k l : κ) (ts : List τ) (ne : k ≠ l) (source : (cell k).Perm (ts ++ cell' k))
      (target : (cell' l).Perm (ts ++ cell l)) (rest : ∀ j, j ≠ k → j ≠ l → cell' j = cell j)
  | bring (k : κ) (t : τ) (new : fresh t) (target : (cell' k).Perm (t :: cell k))
      (rest : ∀ j, j ≠ k → cell' j = cell j)

namespace Move

variable {fresh : τ → Prop} {cell cell' : κ → List τ}

/-- A token found after the move was there before, or it is a fresh one. -/
theorem mem (h : Move fresh cell cell') {t : τ} {j : κ} (ht : t ∈ cell' j) :
    (∃ k, t ∈ cell k) ∨ fresh t := by
  cases h with
  | drop k sub rest =>
    by_cases hj : j = k
    · subst hj; exact .inl ⟨j, sub.subset ht⟩
    · exact .inl ⟨j, rest j hj ▸ ht⟩
  | carry k l ts ne source target rest =>
    by_cases hk : j = k
    · subst hk; exact .inl ⟨j, source.mem_iff.mpr (List.mem_append_right _ ht)⟩
    by_cases hl : j = l
    · subst hl
      rcases List.mem_append.mp (target.mem_iff.mp ht) with ht | ht
      · exact .inl ⟨k, source.mem_iff.mpr (List.mem_append_left _ ht)⟩
      · exact .inl ⟨j, ht⟩
    · exact .inl ⟨j, rest j hk hl ▸ ht⟩
  | bring k new hnew target rest =>
    by_cases hj : j = k
    · subst hj
      rcases List.mem_cons.mp (target.mem_iff.mp ht) with rfl | ht
      · exact .inr hnew
      · exact .inl ⟨j, ht⟩
    · exact .inl ⟨j, rest j hj ▸ ht⟩

theorem exclusive_drop {k : κ} (hx : Exclusive cell) (sub : (cell' k).Sublist (cell k))
    (rest : ∀ j, j ≠ k → cell' j = cell j) : Exclusive cell' := by
  have hsub : ∀ j, (cell' j).Sublist (cell j) := by
    intro j
    by_cases hj : j = k
    · subst hj; exact sub
    · rw [rest j hj]
  exact ⟨fun j => (hx.nodup j).sublist (hsub j),
    fun ht ht' => hx.unique ((hsub _).subset ht) ((hsub _).subset ht')⟩

theorem exclusive_carry {k l : κ} {ts : List τ} (hx : Exclusive cell) (ne : k ≠ l)
    (source : (cell k).Perm (ts ++ cell' k)) (target : (cell' l).Perm (ts ++ cell l))
    (rest : ∀ j, j ≠ k → j ≠ l → cell' j = cell j) : Exclusive cell' := by
  have hts : ∀ {t}, t ∈ ts → t ∈ cell k := fun ht =>
    source.mem_iff.mpr (List.mem_append_left _ ht)
  obtain ⟨hnts, hnk, hdisj⟩ := List.nodup_append.mp (source.nodup_iff.mp (hx.nodup k))
  -- a token is in its old cell unless it was carried, and then it is in `l`
  have origin : ∀ {t j}, t ∈ cell' j → (j = l ∧ t ∈ ts) ∨ (t ∉ ts ∧ t ∈ cell j) := by
    intro t j ht
    by_cases hk : j = k
    · subst hk
      exact .inr ⟨fun hm => hdisj t hm t ht rfl,
        source.mem_iff.mpr (List.mem_append_right _ ht)⟩
    by_cases hl : j = l
    · subst hl
      rcases List.mem_append.mp (target.mem_iff.mp ht) with ht | ht
      · exact .inl ⟨rfl, ht⟩
      · exact .inr ⟨fun hm => hk (hx.unique ht (hts hm)), ht⟩
    · rw [rest j hk hl] at ht
      exact .inr ⟨fun hm => hk (hx.unique ht (hts hm)), ht⟩
  constructor
  · intro j
    by_cases hk : j = k
    · subst hk; exact hnk
    by_cases hl : j = l
    · subst hl
      refine target.nodup_iff.mpr (List.nodup_append.mpr
        ⟨hnts, hx.nodup j, ?_⟩)
      rintro t ht _ ht' rfl
      exact ne (hx.unique (hts ht) ht')
    · rw [rest j hk hl]; exact hx.nodup j
  · intro t j j' ht ht'
    obtain ⟨rfl, hm⟩ | ⟨hm, ht⟩ := origin ht <;> obtain ⟨rfl, hm'⟩ | ⟨hm', ht'⟩ := origin ht'
    · rfl
    · exact absurd hm hm'
    · exact absurd hm' hm
    · exact hx.unique ht ht'

theorem exclusive_bring {k : κ} {new : τ} (hx : Exclusive cell) (hnew : ∀ j, new ∉ cell j)
    (target : (cell' k).Perm (new :: cell k)) (rest : ∀ j, j ≠ k → cell' j = cell j) :
    Exclusive cell' := by
  have origin : ∀ {t j}, t ∈ cell' j → (t = new ∧ j = k) ∨ (t ≠ new ∧ t ∈ cell j) := by
    intro t j ht
    by_cases hj : j = k
    · subst hj
      rcases List.mem_cons.mp (target.mem_iff.mp ht) with rfl | ht
      · exact .inl ⟨rfl, rfl⟩
      · exact .inr ⟨fun h => hnew j (h ▸ ht), ht⟩
    · rw [rest j hj] at ht
      exact .inr ⟨fun h => hnew j (h ▸ ht), ht⟩
  constructor
  · intro j
    by_cases hj : j = k
    · subst hj; exact target.nodup_iff.mpr (List.nodup_cons.mpr ⟨hnew j, hx.nodup j⟩)
    · rw [rest j hj]; exact hx.nodup j
  · intro t j j' ht ht'
    obtain ⟨heq, hj⟩ | ⟨hne, ht⟩ := origin ht <;> obtain ⟨heq', hj'⟩ | ⟨hne', ht'⟩ := origin ht'
    · exact hj.trans hj'.symm
    · exact absurd heq hne'
    · exact absurd heq' hne
    · exact hx.unique ht ht'

/-- **Moves keep the cells exclusive.** -/
theorem exclusive (h : Move fresh cell cell') (hx : Exclusive cell)
    (hfresh : ∀ t, fresh t → ∀ j, t ∉ cell j) : Exclusive cell' := by
  cases h with
  | drop k sub rest => exact exclusive_drop hx sub rest
  | carry k l ts ne source target rest => exact exclusive_carry hx ne source target rest
  | bring k t new target rest => exact exclusive_bring hx (hfresh t new) target rest

end Move

end Foundation
