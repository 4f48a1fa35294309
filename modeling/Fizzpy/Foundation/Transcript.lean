import Fizzpy.Foundation.EventLoop

/-!
# Transcripts of an event loop

The operations of one kind, in the order in which they were submitted, each with what its task was told of
it. Going to the next await writes at the end (`transcript_suspend`); being told of the last one, where
all others are told, completes the last line (`transcript_tell`); all other steps write nothing.
-/

namespace Foundation

namespace EventLoop

variable {W ε ρ υ : Type*} {prog : Program W ε ρ υ} {s s' : EventLoop W ρ υ} {p : ρ → Prop}
  [DecidablePred p]

/-- The line of an operation, if it is of the kind. -/
def line (s : EventLoop W ρ υ) (p : ρ → Prop) [DecidablePred p] (f : ℕ) :
    Option (ρ × Option (Arrival υ)) :=
  (s.ops[f]?.map Op.request).bind fun r => if p r then some (r, (s.heard f).head?) else none

def transcript (s : EventLoop W ρ υ) (p : ρ → Prop) [DecidablePred p] :
    List (ρ × Option (Arrival υ)) :=
  (List.range s.ops.length).filterMap (s.line p)

theorem heard_congr (h : s'.log = s.log) (f : ℕ) : s'.heard f = s.heard f := by
  unfold heard
  rw [h]

theorem heard_concat {f : ℕ} {a : Arrival υ} (h : s'.log = s.log ++ [(f, a)]) (g : ℕ) :
    s'.heard g = s.heard g ++ if f = g then [a] else [] := by
  unfold heard
  rw [h, List.filterMap_append]
  by_cases hg : f = g
  · simp [hg]
  · simp [hg]

/-- The same lines, the same transcript. -/
theorem transcript_congr (hlen : s'.ops.length = s.ops.length)
    (hline : ∀ f, s'.line p f = s.line p f) : s'.transcript p = s.transcript p := by
  unfold transcript
  rw [hlen, funext hline]

/-- An operation that goes on keeps its request. -/
theorem transcript_set {f : ℕ} {op op' : Op ρ υ} (hf : s.ops[f]? = some op)
    (hops : s'.ops = s.ops.set f op') (hreq : op'.request = op.request) (hlog : s'.log = s.log) :
    s'.transcript p = s.transcript p := by
  have hlt : f < s.ops.length := (List.getElem?_eq_some_iff.mp hf).1
  refine transcript_congr (by rw [hops, List.length_set]) fun g => ?_
  unfold line
  rw [heard_congr hlog]
  congr 1
  rw [hops]
  by_cases hg : f = g
  · subst hg
    rw [List.getElem?_set_self hlt, hf, Option.map_some, Option.map_some, hreq]
  · rw [List.getElem?_set_ne hg]

/-- What the task asks for is a new line at the end. -/
theorem transcript_suspend (h : s.Tied) {t : ℕ} {world : W} (ha : (s.waiters t).awaits = none) :
    (s.suspend prog t world).transcript p =
      s.transcript p ++ ((prog.asks world t).filter p).toList.map (·, none) := by
  have hlog : (s.suspend prog t world).log = s.log := suspend_log t world
  obtain ⟨future, hops⟩ := suspend_ops prog h ha world
  have hold : ∀ f ∈ List.range s.ops.length, (s.suspend prog t world).line p f = s.line p f := by
    intro f hf
    unfold line
    rw [heard_congr hlog, hops, List.getElem?_append_left (List.mem_range.mp hf)]
  unfold transcript
  cases hr : prog.asks world t with
  | none =>
    rw [hr] at hops
    have hops : (s.suspend prog t world).ops = s.ops := hops.trans (List.append_nil _)
    rw [hops, List.filterMap_congr hold]
    exact (List.append_nil _).symm
  | some r =>
    rw [hr] at hops
    have hops : (s.suspend prog t world).ops = s.ops ++ [{ task := t, request := r, future }] := hops
    have hnew : (s.suspend prog t world).line p s.ops.length = if p r then some (r, none) else none := by
      unfold line
      rw [heard_congr hlog, hops, List.getElem?_concat_length, (h.unborn le_rfl).2.2]
      rfl
    rw [hops, List.length_append, List.length_singleton, List.range_succ, List.filterMap_append,
      List.filterMap_congr hold]
    congr 1
    by_cases hp : p r
    · simp [hnew, hp, Option.filter]
    · simp [hnew, hp, Option.filter]

/-- Two lists with one line untold, the last one in one of them. -/
theorem eq_of_append_untold {α β : Type*} {before behind told : List (α × Option β)} {x y : α}
    (htold : ∀ l ∈ told, l.2 ≠ none) (h : before ++ (x, none) :: behind = told ++ [(y, none)]) :
    before = told ∧ x = y ∧ behind = [] := by
  rcases List.append_eq_append_iff.mp h with ⟨rest, rfl, heq⟩ | ⟨rest, rfl, heq⟩
  · cases rest with
    | nil =>
      rw [List.nil_append, List.cons.injEq, Prod.mk.injEq] at heq
      exact ⟨(List.append_nil _).symm, heq.1.1, heq.2⟩
    | cons l rest =>
      rw [List.cons_append, List.cons.injEq] at heq
      exact absurd (congrArg Prod.snd heq.1).symm
        (htold l (List.mem_append_right _ List.mem_cons_self))
  · cases rest with
    | nil =>
      rw [List.nil_append, List.cons.injEq, Prod.mk.injEq] at heq
      exact ⟨List.append_nil _, heq.1.1.symm, heq.2.symm⟩
    | cons l rest =>
      have hlen := congrArg List.length heq
      simp only [List.length_append, List.length_cons, List.length_nil] at hlen
      omega

section

variable {f : ℕ} {a : Arrival υ} {op : Op ρ υ}

/-- To be told of another kind changes nothing. -/
theorem transcript_tell_ne (hf : s.ops[f]? = some op) (hops : s'.ops = s.ops)
    (hlog : s'.log = s.log ++ [(f, a)]) (hp : ¬ p op.request) : s'.transcript p = s.transcript p := by
  refine transcript_congr (by rw [hops]) fun g => ?_
  unfold line
  rw [hops, heard_concat hlog]
  by_cases hg : f = g
  · subst hg
    rw [hf, Option.map_some, Option.bind_some, Option.bind_some, if_neg hp, if_neg hp]
  · rw [if_neg hg, List.append_nil]

/-- The one line that was left open is completed. -/
theorem transcript_tell {told : List (ρ × Option (Arrival υ))} {r : ρ} (hf : s.ops[f]? = some op)
    (hops : s'.ops = s.ops) (hlog : s'.log = s.log ++ [(f, a)]) (hheard : s.heard f = [])
    (hp : p op.request) (htold : ∀ l ∈ told, l.2 ≠ none) (h : s.transcript p = told ++ [(r, none)]) :
    s'.transcript p = told ++ [(r, some a)] := by
  have hlt : f < s.ops.length := (List.getElem?_eq_some_iff.mp hf).1
  have hsplit : List.range s.ops.length =
      List.range f ++ f :: (List.range (s.ops.length - (f + 1))).map (f + 1 + ·) := by
    have heq : s.ops.length = f + 1 + (s.ops.length - (f + 1)) := by omega
    conv_lhs => rw [heq, List.range_add, List.range_succ]
    rw [List.append_assoc, List.singleton_append]
  have hline : s.line p f = some (op.request, none) := by
    unfold line
    rw [hf, Option.map_some, Option.bind_some, if_pos hp, hheard]
    rfl
  have hline' : s'.line p f = some (op.request, some a) := by
    unfold line
    rw [hops, hf, Option.map_some, Option.bind_some, if_pos hp, heard_concat hlog, hheard, if_pos rfl]
    rfl
  have hother : ∀ g, g ≠ f → s'.line p g = s.line p g := by
    intro g hg
    unfold line
    rw [hops, heard_concat hlog, if_neg (Ne.symm hg), List.append_nil]
  have hbefore : ∀ g ∈ List.range f, s'.line p g = s.line p g :=
    fun g hg => hother g (List.mem_range.mp hg).ne
  have hbehind : ∀ g ∈ (List.range (s.ops.length - (f + 1))).map (f + 1 + ·), s'.line p g = s.line p g := by
    intro g hg
    obtain ⟨k, -, rfl⟩ := List.mem_map.mp hg
    exact hother _ (by omega)
  unfold transcript at h ⊢
  rw [hsplit, List.filterMap_append, List.filterMap_cons_some hline] at h
  obtain ⟨hb, rfl, hnil⟩ := eq_of_append_untold htold h
  rw [hops, hsplit, List.filterMap_append, List.filterMap_cons_some hline', List.filterMap_congr hbefore,
    List.filterMap_congr hbehind, hb, hnil]

end

end EventLoop

end Foundation
