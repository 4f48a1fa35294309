import Fizzpy.Text
import Mathlib.Data.List.Perm.Basic

/-!
# The connection pool

`_pool` is a dictionary from `(host, port)` to a list of idle connections, here the list of its
items. A connection is taken off the end of its list and put back there.
-/

namespace Fizzpy

/-- `(host, port)`. -/
abbrev Key := Str × ℕ

/-- A `TlsConnection` object. -/
abbrev ConnId := ℕ

abbrev Pool := List (Key × List ConnId)

namespace Pool

/-- `_take`: `conns.pop()` if there is a list and it is not empty. -/
def take (key : Key) : Pool → Option (ConnId × Pool)
  | [] => none
  | (k, conns) :: rest =>
    if k = key then conns.getLast?.map fun c => (c, (k, conns.dropLast) :: rest)
    else (take key rest).map fun x => (x.1, (k, conns) :: x.2)

/-- `_give`: `setdefault(key, []).append(conn)`. -/
def give (key : Key) (c : ConnId) : Pool → Pool
  | [] => [(key, [c])]
  | (k, conns) :: rest =>
    if k = key then (k, conns ++ [c]) :: rest else (k, conns) :: give key c rest

/-- All pooled connections. -/
def conns (pool : Pool) : List ConnId := pool.flatMap Prod.snd

/-- The connection is pooled under the key. -/
def Has (pool : Pool) (k : Key) (c : ConnId) : Prop := ∃ cs, (k, cs) ∈ pool ∧ c ∈ cs

theorem mem_conns_iff {pool : Pool} {c : ConnId} : c ∈ pool.conns ↔ ∃ k, pool.Has k c := by
  unfold conns Has
  rw [List.mem_flatMap]
  constructor
  · rintro ⟨⟨k, cs⟩, hmem, hc⟩
    exact ⟨k, cs, hmem, hc⟩
  · rintro ⟨k, cs, hmem, hc⟩
    exact ⟨(k, cs), hmem, hc⟩

theorem has_cons {k' : Key} {cs : List ConnId} {pool : Pool} {k : Key} {c : ConnId} :
    Has ((k', cs) :: pool) k c ↔ (k' = k ∧ c ∈ cs) ∨ pool.Has k c := by
  unfold Has
  constructor
  · rintro ⟨ds, hmem, hc⟩
    rcases List.mem_cons.mp hmem with h | h
    · cases h; exact .inl ⟨rfl, hc⟩
    · exact .inr ⟨ds, h, hc⟩
  · rintro (⟨rfl, hc⟩ | ⟨ds, hmem, hc⟩)
    · exact ⟨cs, List.mem_cons_self, hc⟩
    · exact ⟨ds, List.mem_cons_of_mem _ hmem, hc⟩

theorem conns_cons (x : Key × List ConnId) (pool : Pool) :
    conns (x :: pool) = x.2 ++ conns pool := rfl

/-- A connection that is taken was pooled under the key and leaves everything else in place. -/
theorem take_spec {key : Key} {pool pool' : Pool} {c : ConnId} (h : take key pool = some (c, pool')) :
    pool.Has key c ∧ pool.conns.Perm (c :: pool'.conns) ∧ ∀ k c', pool'.Has k c' → pool.Has k c' := by
  induction pool generalizing pool' with
  | nil => cases h
  | cons x pool ih =>
    obtain ⟨k, cs⟩ := x
    unfold take at h
    by_cases hk : k = key
    · rw [if_pos hk, Option.map_eq_some_iff] at h
      obtain ⟨d, hd, heq⟩ := h
      cases heq
      obtain ⟨init, rfl⟩ : ∃ init, cs = init ++ [c] :=
        ⟨cs.dropLast, (List.dropLast_append_getLast? c hd).symm⟩
      rw [List.dropLast_concat]
      refine ⟨has_cons.mpr (.inl ⟨hk, by simp⟩), ?_, fun k' c' hc => ?_⟩
      · rw [conns_cons, conns_cons, List.append_assoc]
        exact List.perm_middle
      · rw [has_cons] at hc ⊢
        exact hc.imp (fun ⟨hk', hmem⟩ => ⟨hk', List.mem_append_left _ hmem⟩) id
    · rw [if_neg hk, Option.map_eq_some_iff] at h
      obtain ⟨⟨d, rest⟩, hd, heq⟩ := h
      cases heq
      obtain ⟨hhas, hperm, hsub⟩ := ih hd
      refine ⟨has_cons.mpr (.inr hhas), ?_, fun k' c' hc => ?_⟩
      · rw [conns_cons, conns_cons]
        exact (hperm.append_left cs).trans List.perm_middle
      · rw [has_cons] at hc ⊢
        exact hc.imp id (hsub k' c')

theorem conns_give (key : Key) (c : ConnId) (pool : Pool) :
    (give key c pool).conns.Perm (c :: pool.conns) := by
  induction pool with
  | nil => exact List.Perm.refl _
  | cons x pool ih =>
    obtain ⟨k, cs⟩ := x
    unfold give
    split_ifs
    · rw [conns_cons, conns_cons, List.append_assoc]
      exact List.perm_middle
    · rw [conns_cons, conns_cons]
      exact (ih.append_left cs).trans List.perm_middle

theorem has_give {key : Key} {c : ConnId} {pool : Pool} {k : Key} {c' : ConnId}
    (h : (give key c pool).Has k c') : pool.Has k c' ∨ (k = key ∧ c' = c) := by
  induction pool with
  | nil =>
    obtain ⟨hk, hc⟩ | ⟨ds, hmem, -⟩ := has_cons.mp h
    · exact .inr ⟨hk.symm, List.mem_singleton.mp hc⟩
    · cases hmem
  | cons x pool ih =>
    obtain ⟨k', cs⟩ := x
    unfold give at h
    split_ifs at h with hk
    · rw [has_cons] at h ⊢
      obtain ⟨hk', hc⟩ | h := h
      · rcases List.mem_append.mp hc with hc | hc
        · exact .inl (.inl ⟨hk', hc⟩)
        · exact .inr ⟨hk'.symm.trans hk, List.mem_singleton.mp hc⟩
      · exact .inl (.inr h)
    · rw [has_cons] at h ⊢
      obtain h | h := h
      · exact .inl (.inl h)
      · exact (ih h).imp .inr id

end Pool

end Fizzpy
