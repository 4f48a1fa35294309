import Mathlib.Tactic
import Mathlib.Data.List.Sort

/-!
# Order

`firsts` keeps the first occurrences of a list, as the keys of a dict are kept. Items that come in any
order, one for each key of a list without repetition, are put back in the order of that list by a
sort on the index of the key (`map_key_sortByIndex`). `split_getElem?` is for lists of which one item
is changed at a time.
-/

namespace Foundation

variable {α β : Type*}

/-- The item at an index, and what is on both sides of it. -/
theorem split_getElem? {l : List α} {i : ℕ} {a : α} (h : l[i]? = some a) :
    ∃ before behind, l = before ++ a :: behind ∧ ∀ b, l.set i b = before ++ b :: behind := by
  obtain ⟨hi, rfl⟩ := List.getElem?_eq_some_iff.mp h
  refine ⟨l.take i, l.drop (i + 1), ?_, fun b => ?_⟩
  · rw [List.getElem_cons_drop, List.take_append_drop]
  · rw [List.set_eq_take_append_cons_drop, if_pos hi]

/-! ## First occurrences -/

variable [BEq α] [LawfulBEq α]

/-- The list, each item only where it comes first. -/
def firsts (l : List α) : List α :=
  l.foldl (fun seen a => if a ∈ seen then seen else seen ++ [a]) []

theorem firsts_concat (l : List α) (a : α) :
    firsts (l ++ [a]) = if a ∈ firsts l then firsts l else firsts l ++ [a] :=
  List.foldl_append

theorem mem_firsts {l : List α} {a : α} : a ∈ firsts l ↔ a ∈ l := by
  induction l using List.reverseRecOn with
  | nil => rfl
  | append_singleton l b ih =>
    rw [firsts_concat, List.mem_append, List.mem_singleton, ← ih]
    split_ifs with hb
    · exact ⟨.inl, fun h => h.elim id fun heq => heq ▸ hb⟩
    · rw [List.mem_append, List.mem_singleton]

theorem nodup_firsts (l : List α) : (firsts l).Nodup := by
  induction l using List.reverseRecOn with
  | nil => exact List.nodup_nil
  | append_singleton l b ih =>
    rw [firsts_concat]
    split_ifs with hb
    · exact ih
    · exact ih.append (List.nodup_singleton b) (by simpa using hb)

/-- The items come in the order of their first occurrences. -/
theorem firsts_ordered (l : List α) :
    (firsts l).Pairwise fun a b => l.idxOf a < l.idxOf b := by
  induction l using List.reverseRecOn with
  | nil => exact .nil
  | append_singleton l b ih =>
    have hbefore : (firsts l).Pairwise fun a b' => (l ++ [b]).idxOf a < (l ++ [b]).idxOf b' := by
      refine ih.imp_of_mem fun {x y} hx hy hlt => ?_
      rwa [List.idxOf_append_of_mem (mem_firsts.mp hx), List.idxOf_append_of_mem (mem_firsts.mp hy)]
    rw [firsts_concat]
    split_ifs with hb
    · exact hbefore
    · refine List.pairwise_append.mpr ⟨hbefore, List.pairwise_singleton _ _, fun x hx y hy => ?_⟩
      have hxl := mem_firsts.mp hx
      rw [List.mem_singleton] at hy
      subst hy
      rw [List.idxOf_append_of_mem hxl, List.idxOf_append_of_notMem (mem_firsts.not.mp hb)]
      exact Nat.lt_add_right _ (List.idxOf_lt_length_iff.mpr hxl)

/-! ## Sorting by an index -/

/-- The stable sort by the index of the key; keys that are not in the list come last. -/
def sortByIndex (order : List α) (key : β → α) (l : List β) : List β :=
  l.mergeSort fun a b => order.idxOf (key a) ≤ order.idxOf (key b)

omit [LawfulBEq α] in
theorem sortByIndex_perm (order : List α) (key : β → α) (l : List β) :
    (sortByIndex order key l).Perm l :=
  List.mergeSort_perm l _

theorem sorted_idxOf {order : List α} (h : order.Nodup) :
    order.Pairwise fun a b => order.idxOf a ≤ order.idxOf b := by
  rw [List.pairwise_iff_getElem]
  intro i j hi hj hij
  rw [h.idxOf_getElem i hi, h.idxOf_getElem j hj]
  exact hij.le

theorem map_key_sortByIndex {order : List α} {key : β → α} {l : List β} (hn : order.Nodup)
    (hperm : (l.map key).Perm order) : (sortByIndex order key l).map key = order := by
  have hsorted : (sortByIndex order key l).Pairwise
      fun a b => decide (order.idxOf (key a) ≤ order.idxOf (key b)) = true := by
    refine List.pairwise_mergeSort (fun a b c hab hbc => ?_) (fun a b => ?_) l
    · rw [decide_eq_true_iff] at hab hbc ⊢
      exact hab.trans hbc
    · rw [Bool.or_eq_true, decide_eq_true_iff, decide_eq_true_iff]
      exact le_total _ _
  have hkeys : ((sortByIndex order key l).map key).Pairwise
      fun a b => order.idxOf a ≤ order.idxOf b :=
    List.pairwise_map.mpr (hsorted.imp fun h => of_decide_eq_true h)
  have hkeysPerm := ((sortByIndex_perm order key l).map key).trans hperm
  refine List.Perm.eq_of_pairwise (fun a b _ hb hab hba => ?_) hkeys (sorted_idxOf hn) hkeysPerm
  exact ((List.idxOf_inj hb).mp (le_antisymm hba hab)).symm

end Foundation
