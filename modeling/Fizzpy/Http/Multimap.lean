import Fizzpy.Http.Headers
import Fizzpy.Foundation.Regroup

/-!
# Headers as a multimap

`Headers` for names of any characters: `str.lower` is a parameter here, of which nothing is assumed.
Whatever was added, the dictionary holds the regrouping of it by the lower-cased name
(`ofItems_eq`), and all that can be asked of the headers is read off it. For names of latin-1, the
only ones that come off the wire, it is the dictionary of `Headers` (`store_ofItems`).
-/

namespace Fizzpy

open Foundation

namespace Store

variable (lower : Str → Str)

/-- `Headers(items)`, and any run of `add` on empty headers. -/
def ofItems (items : List (Str × Str)) : Store :=
  items.foldl (fun store p => store.add lower p.1 p.2) []

/-! ## The regrouping -/

/-- What an addition is regrouped by. -/
def key (p : Str × Str) : Str := lower p.1

/-- The name a key was first added under. -/
def casing (adds : List (Str × Str)) (k : Str) : Str :=
  ((adds.find? fun p => key lower p = k).map Prod.fst).getD []

/-- The item of the dictionary for a group of additions. -/
def groupEntry (g : Str × List (Str × Str)) : Entry :=
  ⟨g.1, (g.2.head?.map Prod.fst).getD [], g.2.map Prod.snd⟩

variable {lower}

/-- The invariant: each key with the casing of its first addition and all its values. -/
theorem ofItems_eq (adds : List (Str × Str)) :
    ofItems lower adds = (regroup (key lower) adds).map groupEntry := by
  induction adds using List.reverseRecOn with
  | nil => rfl
  | append_singleton adds p ih =>
    have hstep : ofItems lower (adds ++ [p]) = (ofItems lower adds).add lower p.1 p.2 :=
      List.foldl_append
    have hkeys : (ofItems lower adds).map Entry.key = firsts (adds.map (key lower)) := by
      rw [ih, List.map_map, ← keys_regroup]
      rfl
    rw [hstep, regroup_concat]
    unfold add
    simp only [hkeys, mem_firsts]
    show (if key lower p ∈ adds.map (key lower) then _ else _) = _
    split_ifs with hk
    · rw [ih, List.map_map, List.map_map]
      refine List.map_congr_left fun g hg => ?_
      show (if g.1 = key lower p then _ else _ : Entry) = groupEntry (if g.1 = key lower p then _ else _)
      split_ifs with hgk
      · -- the group is not empty, its first addition stays the first
        obtain ⟨k, hkeys, rfl⟩ := List.mem_map.mp hg
        have hne : group (key lower) adds k ≠ [] :=
          fun h => group_eq_nil_iff.mp h (mem_firsts.mp hkeys)
        unfold groupEntry
        rw [List.map_append, List.head?_append_of_ne_nil _ hne]
        rfl
      · rfl
    · rw [List.map_append, ih]
      rfl

theorem entry_ofItems (adds : List (Str × Str)) (k : Str) :
    (ofItems lower adds).entry k =
      if group (key lower) adds k = [] then none
      else some (groupEntry (k, group (key lower) adds k)) := by
  unfold entry
  rw [ofItems_eq, List.find?_map]
  show Option.map groupEntry ((regroup (key lower) adds).find? fun g => g.1 = k) = _
  rw [find?_regroup]
  split_ifs <;> rfl

/-- The values under a name, in any casing, in the order they were added in. -/
theorem getList_ofItems (adds : List (Str × Str)) (k : Str) :
    (ofItems lower adds).getList lower k =
      (adds.filter fun p => lower p.1 = lower k).map Prod.snd := by
  show _ = (group (key lower) adds (lower k)).map Prod.snd
  unfold getList
  rw [entry_ofItems]
  split_ifs with h
  · rw [h]
    rfl
  · rfl

theorem getList_ofItems_eq_nil_iff {adds : List (Str × Str)} {k : Str} :
    (ofItems lower adds).getList lower k = [] ↔ group (key lower) adds (lower k) = [] := by
  rw [getList_ofItems, List.map_eq_nil_iff]
  rfl

/-- An entry is there exactly when there are values, and has them. -/
theorem entry_eq (adds : List (Str × Str)) (k : Str) :
    ((ofItems lower adds).entry (lower k)).map Entry.values =
      if (ofItems lower adds).getList lower k = [] then none
      else some ((ofItems lower adds).getList lower k) := by
  rw [if_congr getList_ofItems_eq_nil_iff rfl rfl, entry_ofItems]
  split_ifs with h
  · rfl
  · rw [getList_ofItems]
    rfl

theorem contains_iff (adds : List (Str × Str)) (k : Str) :
    (ofItems lower adds).contains lower (.str k) = true ↔ (ofItems lower adds).getList lower k ≠ [] := by
  show ((ofItems lower adds).entry (lower k)).isSome = true ↔ _
  rw [← Option.isSome_map, entry_eq]
  split_ifs with h <;> simp [h]

/-- What is made of the entry of a key is made of its values, where it has any. -/
theorem match_entry {β : Type*} (adds : List (Str × Str)) (k : Str) (f : List Str → β) (b : β) :
    (match (ofItems lower adds).entry (lower k) with
      | some e => f e.values
      | none => b) =
      if (ofItems lower adds).getList lower k = [] then b
      else f ((ofItems lower adds).getList lower k) := by
  have hentry := @entry_eq lower adds k
  split_ifs with h
  · rw [if_pos h, Option.map_eq_none_iff] at hentry
    rw [hentry]
  · rw [if_neg h, Option.map_eq_some_iff] at hentry
    obtain ⟨e, he, hvalues⟩ := hentry
    rw [he, ← hvalues]

theorem get_eq (adds : List (Str × Str)) (k : Str) (default : Option Str) :
    (ofItems lower adds).get lower k default =
      if (ofItems lower adds).getList lower k = [] then default
      else some (join (str ", ") ((ofItems lower adds).getList lower k)) :=
  match_entry adds k (fun values => some (join (str ", ") values)) default

theorem getitem_eq (adds : List (Str × Str)) (k : Str) :
    (ofItems lower adds).getitem lower k =
      if (ofItems lower adds).getList lower k = [] then .error ⟨k⟩
      else .ok (join (str ", ") ((ofItems lower adds).getList lower k)) :=
  match_entry adds k (fun values => (.ok (join (str ", ") values) : Except KeyError Str)) (.error ⟨k⟩)

theorem items_ofItems (adds : List (Str × Str)) :
    (ofItems lower adds).items = (firsts (adds.map (key lower))).flatMap fun k =>
      (adds.filter fun p => key lower p = k).map fun p => (casing lower adds k, p.2) := by
  unfold items
  rw [ofItems_eq, List.flatMap_map]
  unfold regroup
  rw [List.flatMap_map]
  congr 1
  funext k
  show ((group (key lower) adds k).map Prod.snd).map (fun value => (_, value)) = _
  rw [List.map_map]
  show (group (key lower) adds k).map (fun p => (((group (key lower) adds k).head?.map Prod.fst).getD [], p.2)) = _
  rw [head?_group]
  rfl

theorem iter_ofItems (adds : List (Str × Str)) :
    (ofItems lower adds).iter = (firsts (adds.map (key lower))).map (casing lower adds) := by
  unfold iter
  rw [ofItems_eq, List.map_map]
  unfold regroup
  rw [List.map_map]
  refine List.map_congr_left fun k _ => ?_
  show ((group (key lower) adds k).head?.map Prod.fst).getD [] = _
  rw [head?_group]
  rfl

/-- The casing that stands for a key is one of its own. -/
theorem lower_casing {adds : List (Str × Str)} {k : Str} (h : k ∈ adds.map (key lower)) :
    lower (casing lower adds k) = k := by
  obtain ⟨p, hp, hk⟩ := List.mem_map.mp h
  unfold casing
  cases hf : adds.find? fun p => key lower p = k with
  | none => exact absurd (decide_eq_true hk) (List.find?_eq_none.mp hf p hp)
  | some q =>
    have hq : key lower q = k := by simpa using List.find?_some hf
    exact hq

/-- Up to casing, the pairs that come out are those that went in. -/
theorem items_perm (adds : List (Str × Str)) :
    ((ofItems lower adds).items.map fun p => (lower p.1, p.2)).Perm
      (adds.map fun p => (lower p.1, p.2)) := by
  have hmap := (regroup_perm (key lower) adds).map fun p => (lower p.1, p.2)
  rw [items_ofItems, List.map_flatMap]
  refine List.Perm.trans (List.Perm.of_eq ?_) hmap
  unfold regroup
  rw [List.flatMap_map, List.map_flatMap]
  refine List.flatMap_congr fun k hk => ?_
  rw [List.map_map]
  refine List.map_congr_left fun p hp => ?_
  show (lower (casing lower adds k), p.2) = (lower p.1, p.2)
  rw [lower_casing (mem_firsts.mp hk)]
  exact congrArg (·, p.2) (key_of_mem_group hp).symm

/-- Additions under different names may come in either order. -/
theorem getList_swap (before behind : List (Str × Str)) {a b : Str × Str} (h : lower a.1 ≠ lower b.1)
    (k : Str) :
    (ofItems lower (before ++ a :: b :: behind)).getList lower k =
      (ofItems lower (before ++ b :: a :: behind)).getList lower k := by
  rw [getList_ofItems, getList_ofItems]
  exact congrArg (List.map Prod.snd) (group_swap (key lower) before behind h (lower k))

end Store

/-- The headers of latin-1 names are these. -/
theorem Headers.store_ofItems (adds : List (Str × Str)) :
    (Headers.ofItems adds).store = Store.ofItems lower adds := by
  induction adds using List.reverseRecOn with
  | nil => rfl
  | append_singleton adds p ih =>
    have hheaders : Headers.ofItems (adds ++ [p]) = (Headers.ofItems adds).add p.1 p.2 :=
      List.foldl_append
    have hstore : Store.ofItems lower (adds ++ [p]) = (Store.ofItems lower adds).add lower p.1 p.2 :=
      List.foldl_append
    rw [hheaders, hstore, ← ih]
    rfl

namespace Store

/-- `items` is the stable regrouping of what was added, each key under its first casing; the other
observers are read off `get_list`, which picks the values of a name out of it. -/
theorem multimap (lower : Str → Str) (adds : List (Str × Str)) :
    ((ofItems lower adds).items = (firsts (adds.map (key lower))).flatMap fun k =>
        (adds.filter fun p => key lower p = k).map fun p => (casing lower adds k, p.2)) ∧
      (firsts (adds.map (key lower))).Nodup ∧
      ((firsts (adds.map (key lower))).Pairwise fun k k' =>
        (adds.map (key lower)).idxOf k < (adds.map (key lower)).idxOf k') ∧
      ((ofItems lower adds).items.map fun p => (lower p.1, p.2)).Perm
        (adds.map fun p => (lower p.1, p.2)) ∧
      (ofItems lower adds).iter = (firsts (adds.map (key lower))).map (casing lower adds) ∧
      (∀ k, (ofItems lower adds).getList lower k =
        (adds.filter fun p => lower p.1 = lower k).map Prod.snd) ∧
      (∀ k, (ofItems lower adds).contains lower (.str k) = true ↔
        (ofItems lower adds).getList lower k ≠ []) ∧
      (∀ k default, (ofItems lower adds).get lower k default =
        if (ofItems lower adds).getList lower k = [] then default
        else some (join (str ", ") ((ofItems lower adds).getList lower k))) ∧
      (∀ k, (ofItems lower adds).getitem lower k =
        if (ofItems lower adds).getList lower k = [] then .error ⟨k⟩
        else .ok (join (str ", ") ((ofItems lower adds).getList lower k))) ∧
      ∀ before a b behind, adds = before ++ a :: b :: behind → lower a.1 ≠ lower b.1 → ∀ k,
        (ofItems lower adds).getList lower k =
          (ofItems lower (before ++ b :: a :: behind)).getList lower k := by
  refine ⟨items_ofItems adds, nodup_firsts _, firsts_ordered _, items_perm adds, iter_ofItems adds,
    getList_ofItems adds, contains_iff adds, get_eq adds, getitem_eq adds, ?_⟩
  rintro before a b behind rfl hab k
  exact getList_swap before behind hab k

end Store

end Fizzpy
