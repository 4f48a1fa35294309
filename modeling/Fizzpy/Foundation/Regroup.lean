import Fizzpy.Foundation.Order

/-!
# Regrouping by a key

The items of a list brought together by their keys. The groups come in the order in which their keys
appear first, and within a group the items keep their order (`regroup`), so that the regrouping of a
longer list is a change of one group or one group more (`regroup_concat`). No item is lost and none
is repeated (`regroup_perm`).
-/

namespace Foundation

variable {κ α : Type*} [DecidableEq κ] (key : α → κ)

/-- The items of one key, in their order. -/
def group (l : List α) (k : κ) : List α := l.filter fun a => key a = k

variable {key}

theorem group_append (l l' : List α) (k : κ) : group key (l ++ l') k = group key l k ++ group key l' k :=
  List.filter_append l l'

theorem group_concat (l : List α) (a : α) (k : κ) :
    group key (l ++ [a]) k = group key l k ++ if key a = k then [a] else [] := by
  rw [group_append]
  congr 1
  unfold group
  rw [List.filter_singleton]
  by_cases h : key a = k <;> simp [h]

theorem group_eq_nil_iff {l : List α} {k : κ} : group key l k = [] ↔ k ∉ l.map key := by
  unfold group
  rw [List.filter_eq_nil_iff, List.mem_map]
  constructor
  · rintro h ⟨a, ha, hk⟩
    exact h a ha (decide_eq_true hk)
  · intro h a ha hk
    exact h ⟨a, ha, of_decide_eq_true hk⟩

theorem key_of_mem_group {l : List α} {k : κ} {a : α} (h : a ∈ group key l k) : key a = k :=
  of_decide_eq_true (List.mem_filter.mp h).2

/-- The first of a group is the first item of its key. -/
theorem head?_group (l : List α) (k : κ) :
    (group key l k).head? = l.find? fun a => key a = k :=
  List.head?_filter

variable (key) in
/-- Two items of different keys may come in either order. -/
theorem group_swap (before behind : List α) {a b : α} (h : key a ≠ key b) (k : κ) :
    group key (before ++ a :: b :: behind) k = group key (before ++ b :: a :: behind) k := by
  have hswap : group key [a, b] k = group key [b, a] k := by
    unfold group
    by_cases ha : key a = k
    · have hb : key b ≠ k := fun hb => h (ha.trans hb.symm)
      simp [ha, hb]
    · by_cases hb : key b = k <;> simp [ha, hb]
  have hsplit : ∀ x y, before ++ x :: y :: behind = before ++ ([x, y] ++ behind) := fun _ _ => rfl
  rw [hsplit, hsplit, group_append, group_append, hswap, ← group_append, ← group_append]

/-- Of distinct keys only one gives its items. -/
theorem flatMap_ite_eq {ks : List κ} (hn : ks.Nodup) {k : κ} (hk : k ∈ ks) (items : List α) :
    ks.flatMap (fun k' => if k = k' then items else []) = items := by
  obtain ⟨before, behind, rfl⟩ := List.append_of_mem hk
  rw [List.nodup_append, List.nodup_cons] at hn
  obtain ⟨-, ⟨hbehind, -⟩, hbefore⟩ := hn
  have hnone : ∀ ks : List κ, k ∉ ks → ks.flatMap (fun k' => if k = k' then items else []) = [] := by
    intro ks hks
    rw [List.flatMap_eq_nil_iff]
    intro k' hk'
    have hne : k ≠ k' := fun h => hks (h ▸ hk')
    exact if_neg hne
  rw [List.flatMap_append, List.flatMap_cons, if_pos rfl, hnone behind hbehind,
    hnone before fun h => hbefore k h k (List.mem_cons_self ..) rfl, List.nil_append, List.append_nil]

/-! ## The groups in order -/

variable [BEq κ] [LawfulBEq κ]

variable (key) in
/-- The groups of a list with their keys. -/
def regroup (l : List α) : List (κ × List α) :=
  (firsts (l.map key)).map fun k => (k, group key l k)

@[simp] theorem keys_regroup (l : List α) : (regroup key l).map Prod.fst = firsts (l.map key) := by
  unfold regroup
  rw [List.map_map]
  exact List.map_id _

/-- One item more goes behind its group, or makes a new group behind all others. -/
theorem regroup_concat (l : List α) (a : α) :
    regroup key (l ++ [a]) =
      if key a ∈ l.map key then
        (regroup key l).map fun g => if g.1 = key a then (g.1, g.2 ++ [a]) else g
      else regroup key l ++ [(key a, [a])] := by
  unfold regroup
  rw [List.map_append, List.map_singleton, firsts_concat]
  simp only [mem_firsts]
  split_ifs with h
  · rw [List.map_map]
    refine List.map_congr_left fun k _ => ?_
    show (k, group key (l ++ [a]) k) = if k = key a then (k, group key l k ++ [a]) else _
    rw [group_concat]
    by_cases hk : k = key a
    · rw [if_pos hk, if_pos hk.symm]
    · rw [if_neg hk, if_neg (Ne.symm hk), List.append_nil]
  · rw [List.map_append, List.map_singleton, group_concat, group_eq_nil_iff.mpr h, if_pos rfl,
      List.nil_append]
    congr 1
    refine List.map_congr_left fun k hk => ?_
    have hne : key a ≠ k := fun heq => h (heq ▸ mem_firsts.mp hk)
    rw [group_concat, if_neg hne, List.append_nil]

/-- A key is found with its group. -/
theorem find?_regroup (l : List α) (k : κ) :
    (regroup key l).find? (fun g => g.1 = k) =
      if group key l k = [] then none else some (k, group key l k) := by
  unfold regroup
  rw [List.find?_map]
  split_ifs with h
  · rw [Option.map_eq_none_iff, List.find?_eq_none]
    rintro k' hk' heq
    have hk : k' = k := of_decide_eq_true heq
    exact group_eq_nil_iff.mp h (hk ▸ mem_firsts.mp hk')
  · have hmem : k ∈ firsts (l.map key) :=
      mem_firsts.mpr (not_not.mp (mt group_eq_nil_iff.mpr h))
    rw [Option.map_eq_some_iff]
    refine ⟨k, ?_, rfl⟩
    show (firsts (l.map key)).find? (fun k' => decide (k' = k)) = some k
    cases hf : (firsts (l.map key)).find? fun k' => decide (k' = k) with
    | none => exact absurd (decide_eq_true rfl) (List.find?_eq_none.mp hf k hmem)
    | some k' =>
      have hk : k' = k := by simpa using List.find?_some hf
      rw [hk]

variable (key) in
/-- The groups hold exactly the items of the list. -/
theorem regroup_perm (l : List α) : ((regroup key l).flatMap Prod.snd).Perm l := by
  have hflat : ∀ l : List α,
      (regroup key l).flatMap Prod.snd = (firsts (l.map key)).flatMap (group key l) := by
    intro l
    unfold regroup
    rw [List.flatMap_map]
  induction l using List.reverseRecOn with
  | nil => exact .refl []
  | append_singleton l a ih =>
    rw [hflat] at ih ⊢
    have hkeys := nodup_firsts ((l ++ [a]).map key)
    have hmem : key a ∈ firsts ((l ++ [a]).map key) := mem_firsts.mpr (by simp)
    -- the keys of the longer list find the same items in the shorter one
    have hold : (firsts ((l ++ [a]).map key)).flatMap (group key l) =
        (firsts (l.map key)).flatMap (group key l) := by
      rw [List.map_append, List.map_singleton, firsts_concat]
      split_ifs with h
      · rfl
      · rw [List.flatMap_append, List.flatMap_singleton,
          group_eq_nil_iff.mpr (mt mem_firsts.mpr h), List.append_nil]
    have hsplit := List.flatMap_append_perm (firsts ((l ++ [a]).map key)) (group key l)
      (fun k => if key a = k then [a] else [])
    rw [hold, flatMap_ite_eq hkeys hmem] at hsplit
    have hgroup : group key (l ++ [a]) = fun k => group key l k ++ if key a = k then [a] else [] :=
      funext (group_concat l a)
    rw [hgroup]
    exact hsplit.symm.trans (ih.append_right [a])

end Foundation
