import Fizzpy.Core.ReadState

/-!
# Closing

`close` detaches the connection from the transport but answers no read. A read that is parked then,
or that runs afterwards without an answer waiting, stays parked for good; in all other runs no read
is parked once the connection is closed.
-/

namespace Fizzpy

open Foundation

namespace TlsConnection

/-- No read is parked on a closed connection. -/
def NoneStranded (c : TlsConnection) : Prop := c.closed → c.pendingRead = none

/-- The loop closes only while no read is parked, and then runs a read only if an answer waits. -/
def ClosesCleanly (c : TlsConnection) : Event → Prop
  | .runTask =>
    match c.tasks with
    | .close :: _ => c.pendingRead = none
    | .read _ _ :: _ => c.closed → ¬ c.Unanswered
    | _ => True
  | _ => True

theorem noneStranded_iff_of_read {c : TlsConnection} {p timeoutMs : ℕ} {ts : List Task}
    (h : ReadInv c) (ht : c.tasks = .read p timeoutMs :: ts) :
    NoneStranded (runRead p timeoutMs { c with tasks := ts }) ↔ (c.closed → ¬ c.Unanswered) := by
  by_cases hun : Unanswered { c with tasks := ts }
  · obtain ⟨t, heq, -⟩ := runRead_parked hun p timeoutMs
    rw [heq]
    exact ⟨fun hn hc => absurd (hn hc) (Option.some_ne_none p), fun hc hclosed => absurd hun (hc hclosed)⟩
  · rw [runRead_answered hun]
    exact ⟨fun _ _ => hun, fun _ _ => (h.queued ht).1⟩

theorem noneStranded_step {c c' : TlsConnection} {e : Event} (h : ReadInv c) (hn : NoneStranded c)
    (hs : step c e = some c') : NoneStranded c' ↔ ClosesCleanly c e := by
  cases ha : e.answer with
  | some a =>
    have hclean : ClosesCleanly c e := by cases e <;> trivial
    refine iff_of_true ?_ hclean
    cases hp : c.pendingRead with
    | some p =>
      rw [step_answer h hp ha hs]
      exact fun _ => rfl
    | none =>
      rw [step_keep h hp ha hs]
      exact fun _ => hp
  | none =>
    cases e with
    | readBufferAvailable | readEOF | readErr | readTimeout => cases ha
    | connect => cases hs; exact iff_of_true hn trivial
    | close => cases hs; exact iff_of_true hn trivial
    | read timeoutMs =>
      simp only [step, Option.ite_none_right_eq_some, Option.some.injEq] at hs
      obtain ⟨-, rfl⟩ := hs
      exact iff_of_true hn trivial
    | connectSuccess =>
      simp only [step, Option.ite_none_right_eq_some, Option.some.injEq] at hs
      obtain ⟨-, rfl⟩ := hs
      exact iff_of_true hn trivial
    | runTask =>
      simp only [step] at hs
      split at hs
      · rename_i t ts ht
        cases hs
        unfold ClosesCleanly
        rw [ht]
        cases t with
        | connect => exact iff_of_true hn trivial
        | close => exact ⟨fun hn' => hn' rfl, fun hp _ => hp⟩
        | read p timeoutMs => exact noneStranded_iff_of_read h ht
      · cases hs

/-- **When closing strands no reader.** In a run from the start no read is ever parked on a closed
connection exactly if every close runs while no read is parked, and every read that runs after a
close finds data, an error or the end of the stream. -/
theorem none_stranded_iff (es : List Event) :
    Throughout step NoneStranded init es ↔ Along step ClosesCleanly init es :=
  throughout_iff_along (fun _ _ _ h hs => readInv_step h hs)
    (fun _ _ _ h hn hs => noneStranded_step h hn hs) readInv_init (fun h => by cases h) es

/-! ## Stranded for good -/

/-- A parked read that nothing will answer any more. -/
structure Stranded (p : ℕ) (c : TlsConnection) : Prop where
  inv : ReadInv c
  parked : c.pendingRead = some p
  detached : c.client = some .closed
  undated : c.deadline = none
  lost : .connect ∉ c.tasks
  closed : c.closed = true

theorem stranded_step {p : ℕ} {c c' : TlsConnection} {e : Event} (h : Stranded p c)
    (he : e ≠ .connect) (hs : step c e = some c') : Stranded p c' := by
  have hdeaf : ¬ c.listening := by unfold listening; rw [h.detached]; simp
  cases ha : e.answer with
  | some a =>
    cases e with
    | connect | read | close | runTask | connectSuccess => cases ha
    | readBufferAvailable | readEOF | readErr => simp [step, hdeaf] at hs
    | readTimeout => simp [step, h.undated] at hs
  | none =>
    obtain ⟨-, hp, hd⟩ := step_quiet h.inv h.parked ha hs
    have hinv := readInv_step h.inv hs
    have hundated := hd.trans h.undated
    cases e with
    | readBufferAvailable | readEOF | readErr | readTimeout => cases ha
    | connect => exact absurd rfl he
    | close =>
      cases hs
      exact ⟨hinv, hp, h.detached, hundated, by simp [submit, h.lost], h.closed⟩
    | read timeoutMs => simp [step, outstanding, h.parked] at hs
    | connectSuccess => simp [step, h.detached] at hs
    | runTask =>
      simp only [step] at hs
      split at hs
      · rename_i t ts ht
        cases hs
        have hlost := h.lost
        rw [ht] at hlost
        have hts : .connect ∉ ts := fun hmem => hlost (List.mem_cons_of_mem t hmem)
        cases t with
        | connect => exact absurd (List.mem_cons_self) hlost
        | close => exact ⟨hinv, hp, by simp [runTask, runClose, h.detached], hundated, hts, rfl⟩
        | read q timeoutMs =>
          have := (h.inv.queued ht).1
          rw [h.parked] at this
          cases this
      · cases hs

/-- Whatever happens on the connection afterwards, the read is not settled. -/
theorem stranded_run {p : ℕ} {c c' : TlsConnection} {es : List Event} (h : Stranded p c)
    (hes : .connect ∉ es) (hr : run step c es = some c') :
    c'.pendingRead = some p ∧ p ∉ c'.settled.map Prod.fst := by
  have halong : Along step (fun _ e => e ≠ .connect) c es := by
    clear h hr
    induction es generalizing c with
    | nil => trivial
    | cons e es ih =>
      intro s' _
      exact ⟨fun he => hes (by rw [he]; exact List.mem_cons_self),
        ih fun hmem => hes (List.mem_cons_of_mem e hmem)⟩
  have h' := run_invariant_along (fun _ _ _ h he hs => stranded_step h he hs) h halong hr
  refine ⟨h'.parked, fun hmem => ?_⟩
  have hnodup := h'.inv.once.nodup_iff.mpr List.nodup_range
  exact List.disjoint_of_nodup_append hnodup hmem (by simp [outstanding, h'.parked])

/-- The steps end with a read on a closed connection that no further ones settle. -/
def StrandsReader (es : List Event) : Prop :=
  ∃ c, run step init es = some c ∧ ¬ NoneStranded c ∧
    ∀ es' c', .connect ∉ es' → run step c es' = some c' →
      c'.pendingRead = some 0 ∧ 0 ∉ c'.settled.map Prod.fst

theorem strandsReader_of_run {es : List Event} {c : TlsConnection} (hr : run step init es = some c)
    (hs : c.pendingRead = some 0 ∧ c.client = some .closed ∧ c.deadline = none ∧
      .connect ∉ c.tasks ∧ c.closed = true) : StrandsReader es := by
  obtain ⟨hp, hd, hu, hl, hc⟩ := hs
  refine ⟨c, hr, fun hn => ?_, fun es' c' hes' hr' => ?_⟩
  · rw [hn hc] at hp
    cases hp
  · exact stranded_run ⟨readInv_run hr, hp, hd, hu, hl, hc⟩ hes' hr'

/-- A read without a deadline that is parked when the connection is closed, and one that is submitted
after that, are never settled. -/
theorem close_strands_reader :
    StrandsReader [.connect, .runTask, .connectSuccess, .read 0, .runTask, .close, .runTask] ∧
      StrandsReader [.connect, .runTask, .connectSuccess, .close, .runTask, .read 0, .runTask] :=
  ⟨strandsReader_of_run rfl ⟨rfl, rfl, rfl, by decide, rfl⟩,
    strandsReader_of_run rfl ⟨rfl, rfl, rfl, by decide, rfl⟩⟩

end TlsConnection

end Fizzpy
