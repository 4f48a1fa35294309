import Mathlib.Tactic
import Mathlib.Data.List.Basic
import Mathlib.Data.List.Infix

/-!
# First occurrences of a pattern

`find pat l` is the index of the first occurrence of `pat` in `l`, and `split sep l` cuts `l` at
the leftmost non-overlapping occurrences of `sep`. An incremental reader relies on two facts: an
occurrence found in a prefix is still the first one when more elements arrive
(`find_append_of_some`), and a pattern written behind a text is found where it was written
(`find_append_self`).
-/

namespace Foundation

variable {α : Type*} [DecidableEq α]

/-- The index of the first occurrence of `pat`. -/
def find (pat : List α) : List α → Option ℕ
  | [] => if pat = [] then some 0 else none
  | x :: xs => if pat <+: x :: xs then some 0 else (find pat xs).map (· + 1)

theorem find_nil {pat : List α} (hp : pat ≠ []) : find pat [] = none := by
  unfold find; rw [if_neg hp]

theorem find_cons_hit {pat : List α} {x : α} {xs : List α} (h : pat <+: x :: xs) :
    find pat (x :: xs) = some 0 := by
  unfold find; rw [if_pos h]

theorem find_cons_miss {pat : List α} {x : α} {xs : List α} (h : ¬ pat <+: x :: xs) :
    find pat (x :: xs) = (find pat xs).map (· + 1) := by
  conv_lhs => unfold find
  rw [if_neg h]

/-- A found occurrence is a prefix of what lies behind its index. -/
theorem find_spec {pat : List α} :
    ∀ {l : List α} {i : ℕ}, find pat l = some i → pat <+: l.drop i := by
  intro l
  induction l with
  | nil =>
    intro i h
    unfold find at h
    split_ifs at h with hp
    subst hp
    exact List.nil_prefix
  | cons x xs ih =>
    intro i h
    by_cases hx : pat <+: x :: xs
    · rw [find_cons_hit hx, Option.some.injEq] at h
      subst h
      exact hx
    · rw [find_cons_miss hx, Option.map_eq_some_iff] at h
      obtain ⟨j, hj, rfl⟩ := h
      exact ih hj

/-- A found occurrence ends inside the list. -/
theorem find_add_length_le {pat l : List α} {i : ℕ} (hp : pat ≠ []) (h : find pat l = some i) :
    i + pat.length ≤ l.length := by
  have hlen := (find_spec h).length_le
  have hpos := List.length_pos_of_ne_nil hp
  rw [List.length_drop] at hlen
  omega

/-- More elements behind the list do not move its first occurrence. -/
theorem find_append_of_some {pat : List α} (hp : pat ≠ []) :
    ∀ {l : List α} {i : ℕ} (m : List α), find pat l = some i → find pat (l ++ m) = some i := by
  intro l
  induction l with
  | nil => intro i m h; rw [find_nil hp] at h; cases h
  | cons x xs ih =>
    intro i m h
    have hlen := find_add_length_le hp h
    by_cases hx : pat <+: x :: xs
    · rw [find_cons_hit hx] at h
      have hx' : pat <+: x :: (xs ++ m) := hx.trans (List.prefix_append (x :: xs) m)
      rw [List.cons_append, find_cons_hit hx', h]
    · rw [find_cons_miss hx, Option.map_eq_some_iff] at h
      obtain ⟨j, hj, rfl⟩ := h
      have hx' : ¬ pat <+: x :: (xs ++ m) := fun hpre =>
        hx (List.prefix_of_prefix_length_le hpre (List.prefix_append (x :: xs) m) (by omega))
      rw [List.cons_append, find_cons_miss hx', ih m hj]
      rfl

/-- A pattern written behind a text that does not already contain the start of one is found where
it was written. -/
theorem find_append_self {pat : List α} (hp : pat ≠ []) (rest : List α) :
    ∀ {t : List α}, find pat (t ++ pat.dropLast) = none → find pat (t ++ pat ++ rest) = some t.length := by
  intro t
  induction t with
  | nil =>
    intro _
    obtain ⟨p, ps, rfl⟩ := List.exists_cons_of_ne_nil hp
    exact find_cons_hit (List.prefix_append (p :: ps) rest)
  | cons x t ih =>
    intro h
    have hpos := List.length_pos_of_ne_nil hp
    by_cases hx : pat <+: x :: (t ++ pat.dropLast)
    · rw [List.cons_append, find_cons_hit hx] at h
      cases h
    · rw [List.cons_append, find_cons_miss hx, Option.map_eq_none_iff] at h
      have hshort : x :: (t ++ pat.dropLast) <+: x :: (t ++ pat ++ rest) := by
        refine (List.prefix_cons_inj x).mpr ?_
        rw [List.append_assoc]
        exact (List.prefix_append_right_inj t).mpr
          ((List.dropLast_prefix pat).trans (List.prefix_append pat rest))
      have hx' : ¬ pat <+: x :: (t ++ pat ++ rest) := fun hpre =>
        hx (List.prefix_of_prefix_length_le hpre hshort (by simp; omega))
      rw [List.cons_append, List.cons_append, find_cons_miss hx', ih h]
      rfl

/-- One element is found behind a text without it. -/
theorem find_singleton {x : α} {t : List α} (h : ∀ y ∈ t, y ≠ x) (rest : List α) :
    find [x] (t ++ x :: rest) = some t.length := by
  induction t with
  | nil => exact find_cons_hit (List.prefix_append [x] rest)
  | cons y t ih =>
    have hy : ¬ [x] <+: y :: (t ++ x :: rest) := fun hp =>
      h y List.mem_cons_self (List.cons_prefix_cons.mp hp).1.symm
    rw [List.cons_append, find_cons_miss hy, ih fun z hz => h z (List.mem_cons_of_mem y hz)]
    rfl

theorem find_eq_none_iff {pat l : List α} : find pat l = none ↔ ¬ pat <:+: l := by
  induction l with
  | nil =>
    unfold find
    rw [List.infix_nil]
    split_ifs with h <;> simp [h]
  | cons x xs ih =>
    rw [List.infix_cons_iff]
    by_cases hx : pat <+: x :: xs
    · rw [find_cons_hit hx]
      simp [hx]
    · rw [find_cons_miss hx, Option.map_eq_none_iff, ih, or_iff_right hx]

/-- Before its first occurrence there is none. -/
theorem find_take {pat l : List α} {i : ℕ} (hp : pat ≠ []) (h : find pat l = some i) :
    find pat (l.take i) = none := by
  cases hj : find pat (l.take i) with
  | none => rfl
  | some j =>
    have hl := find_append_of_some hp (l.drop i) hj
    rw [List.take_append_drop, h, Option.some.injEq] at hl
    have hle := find_add_length_le hp hj
    have hpos := List.length_pos_of_ne_nil hp
    rw [List.length_take] at hle
    omega

/-- What comes behind an occurrence is not needed to find it. -/
theorem find_take_through {pat l : List α} {i : ℕ} (hp : pat ≠ []) (h : find pat l = some i) :
    find pat (l.take (i + pat.length)) = some i := by
  obtain ⟨rest, hrest⟩ := find_spec h
  have hthere : pat <:+: l.take (i + pat.length) := by
    refine ⟨l.take i, [], ?_⟩
    rw [List.append_nil, List.take_add, ← hrest, List.take_left]
  cases hj : find pat (l.take (i + pat.length)) with
  | none => exact absurd hthere (find_eq_none_iff.mp hj)
  | some j =>
    have hsame := find_append_of_some hp (l.drop (i + pat.length)) hj
    rw [List.take_append_drop, h] at hsame
    exact hsame.symm

/-- The index of the last occurrence of `pat`. -/
def rfind (pat : List α) : List α → Option ℕ
  | [] => if pat = [] then some 0 else none
  | x :: xs =>
    match rfind pat xs with
    | some i => some (i + 1)
    | none => if pat <+: x :: xs then some 0 else none

/-- Elements in front of the list only shift its last occurrence. -/
theorem rfind_append_of_some {pat l : List α} {i : ℕ} (h : rfind pat l = some i) (a : List α) :
    rfind pat (a ++ l) = some (a.length + i) := by
  induction a with
  | nil => rw [List.nil_append, h, List.length_nil, Nat.zero_add]
  | cons x a ih =>
    rw [List.cons_append]
    unfold rfind
    rw [ih]
    show some (a.length + i + 1) = some ((x :: a).length + i)
    rw [List.length_cons]
    congr 1
    omega

theorem rfind_isSome {pat l : List α} (h : pat <+: l) : (rfind pat l).isSome := by
  cases l with
  | nil =>
    unfold rfind
    rw [if_pos (List.prefix_nil.mp h)]
    rfl
  | cons x xs =>
    unfold rfind
    cases rfind pat xs with
    | some i => rfl
    | none =>
      rw [if_pos h]
      rfl

/-- `split sep l` with `skip` elements of a matched separator still to be passed over. -/
def splitFrom (sep : List α) : ℕ → List α → List (List α)
  | _, [] => [[]]
  | skip + 1, _ :: xs => splitFrom sep skip xs
  | 0, x :: xs =>
    if sep <+: x :: xs then [] :: splitFrom sep (sep.length - 1) xs
    else (splitFrom sep 0 xs).modifyHead (x :: ·)

/-- The pieces of `l` between the leftmost non-overlapping occurrences of `sep`. -/
def split (sep l : List α) : List (List α) := splitFrom sep 0 l

theorem splitFrom_skip (sep : List α) : ∀ (p l : List α), splitFrom sep p.length (p ++ l) =
    splitFrom sep 0 l := by
  intro p l
  induction p with
  | nil => rfl
  | cons x p ih => exact ih

/-- A list without an occurrence of the separator is one piece. -/
theorem split_of_find_none {sep : List α} : ∀ {l : List α}, find sep l = none → split sep l = [l] := by
  intro l
  induction l with
  | nil => intro _; rfl
  | cons x xs ih =>
    intro h
    by_cases hx : sep <+: x :: xs
    · rw [find_cons_hit hx] at h; cases h
    · rw [find_cons_miss hx, Option.map_eq_none_iff] at h
      unfold split splitFrom
      rw [if_neg hx]
      show (split sep xs).modifyHead _ = _
      rw [ih h]
      rfl

/-- The first piece ends at the first occurrence of the separator. -/
theorem split_of_find_some {sep : List α} (hs : sep ≠ []) : ∀ {l : List α} {i : ℕ},
    find sep l = some i → split sep l = l.take i :: split sep (l.drop (i + sep.length)) := by
  intro l
  induction l with
  | nil => intro i h; rw [find_nil hs] at h; cases h
  | cons x xs ih =>
    intro i h
    by_cases hx : sep <+: x :: xs
    · rw [find_cons_hit hx, Option.some.injEq] at h
      subst h
      obtain ⟨rest, hr⟩ := hx
      obtain ⟨c, cs, rfl⟩ := List.exists_cons_of_ne_nil hs
      rw [List.cons_append, List.cons.injEq] at hr
      obtain ⟨rfl, rfl⟩ := hr
      unfold split
      conv_lhs => unfold splitFrom
      have hpre : c :: cs <+: c :: (cs ++ rest) := List.prefix_append (c :: cs) rest
      rw [if_pos hpre]
      simp only [List.length_cons, Nat.add_sub_cancel, List.take_zero, Nat.zero_add,
        List.drop_succ_cons, List.drop_left, splitFrom_skip]
    · rw [find_cons_miss hx, Option.map_eq_some_iff] at h
      obtain ⟨j, hj, rfl⟩ := h
      unfold split
      conv_lhs => unfold splitFrom
      rw [if_neg hx]
      show (split sep xs).modifyHead _ = _
      rw [ih hj, show j + 1 + sep.length = j + sep.length + 1 by omega]
      rfl

/-- A piece without the separating element comes off the front. -/
theorem split_singleton_cons {x : α} {t : List α} (h : ∀ y ∈ t, y ≠ x) (rest : List α) :
    split [x] (t ++ x :: rest) = t :: split [x] rest := by
  rw [split_of_find_some (by simp) (find_singleton h rest), List.take_left, ← List.drop_drop,
    List.drop_left]
  rfl

/-- What a list is split into, by its first occurrences of the separator. -/
theorem split_induction {sep : List α} (hs : sep ≠ []) {P : List α → List (List α) → Prop}
    (last : ∀ l, find sep l = none → P l [l])
    (piece : ∀ t rest pieces, find sep t = none → P rest pieces → P (t ++ sep ++ rest) (t :: pieces))
    (l : List α) : P l (split sep l) := by
  induction hn : l.length using Nat.strong_induction_on generalizing l with
  | h n ih =>
    subst hn
    cases hf : find sep l with
    | none =>
      rw [split_of_find_none hf]
      exact last l hf
    | some i =>
      have hlen := find_add_length_le hs hf
      have hpos := List.length_pos_of_ne_nil hs
      obtain ⟨rest, hrest⟩ := find_spec hf
      have hl : l = l.take i ++ sep ++ l.drop (i + sep.length) := by
        conv_lhs => rw [← List.take_append_drop i l, ← hrest]
        rw [← List.drop_drop, ← hrest, List.drop_left, List.append_assoc]
      have hrec := piece (l.take i) (l.drop (i + sep.length)) _ (find_take hs hf)
        (ih _ (by rw [List.length_drop]; omega) _ rfl)
      rw [split_of_find_some hs hf]
      rwa [← hl] at hrec

/-- No piece has the separator inside. -/
theorem find_of_mem_split {sep l t : List α} (hs : sep ≠ []) :
    t ∈ split sep l → find sep t = none := by
  refine split_induction hs (P := fun _ pieces => t ∈ pieces → find sep t = none)
    (fun l h ht => ?_) (fun t' rest pieces h ih ht => ?_) l
  · rw [List.mem_singleton] at ht
    rwa [ht]
  · obtain rfl | ht := List.mem_cons.mp ht
    · exact h
    · exact ih ht

theorem intercalate_split {sep : List α} (hs : sep ≠ []) (l : List α) :
    sep.intercalate (split sep l) = l := by
  have hjoin : split sep l ≠ [] ∧ sep.intercalate (split sep l) = l := by
    refine split_induction hs (P := fun l pieces => pieces ≠ [] ∧ sep.intercalate pieces = l)
      (fun l _ => ⟨by simp, List.intercalate_singleton⟩) (fun t rest pieces _ ih => ⟨by simp, ?_⟩) l
    obtain ⟨hne, rfl⟩ := ih
    obtain ⟨p, ps, rfl⟩ := List.exists_cons_of_ne_nil hne
    exact List.intercalate_cons_cons
  exact hjoin.2
end Foundation
