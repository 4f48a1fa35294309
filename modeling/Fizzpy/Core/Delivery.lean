import Fizzpy.Core.ReadState

/-!
# What an event settles

At most one read is settled by an event, and its answer takes up exactly the bytes that leave the
connection: no event loses, repeats or reorders what was received.
-/

namespace Fizzpy

open Foundation

/-- The bytes of an answer; a rejection has none. -/
def Answer.data : Answer → Bytes
  | resolve data => data
  | reject _ => []

namespace TlsConnection

instance (c : TlsConnection) : Decidable c.Unanswered := by
  unfold Unanswered; infer_instance

/-- The bytes an event brings. -/
def Event.received (e : Event) : Bytes := e.chunks.flatten

/-- The read an event settles, with its answer. -/
def settlement (c : TlsConnection) : Event → Option (ℕ × Answer)
  | .runTask =>
    match c.tasks with
    | .read p _ :: _ => if c.Unanswered then none else some (p, c.waitingAnswer)
    | _ => none
  | e => c.pendingRead.bind fun p => e.answer.map fun a => (p, a)

def settledData (x : Option (ℕ × Answer)) : Bytes := x.elim [] fun x => x.2.data

/-- What an event other than a submitted read does to the read side. -/
structure Handled (c : TlsConnection) (e : Event) (c' : TlsConnection) : Prop where
  settled : c'.settled = c.settled ++ (c.settlement e).toList
  outstanding : c'.outstanding = if (c.settlement e).isSome then [] else c.outstanding
  was : ∀ p a, c.settlement e = some (p, a) → c.outstanding = [p]
  bytes : settledData (c.settlement e) ++ c'.buffer.flatten = c.buffer.flatten ++ e.received
  buffer : ∀ b ∈ c'.buffer, b ∈ c.buffer ++ e.chunks
  eof : c'.eof = e.eofAfter c.eof
  readErr : c'.readErr = e.errAfter c.readErr

theorem handled_quiet {c c' : TlsConnection} {e : Event} (hset : c.settlement e = none)
    (hs : c'.settled = c.settled) (ho : c'.outstanding = c.outstanding)
    (hb : c'.buffer = c.buffer ++ e.chunks) (he : c'.eof = e.eofAfter c.eof)
    (hr : c'.readErr = e.errAfter c.readErr) : Handled c e c' where
  settled := by rw [hset, hs]; exact (List.append_nil _).symm
  outstanding := by rw [hset, ho]; rfl
  was p a h := by rw [hset] at h; cases h
  bytes := by rw [hset, hb, Event.received, List.flatten_append]; rfl
  buffer b h := hb ▸ h
  eof := he
  readErr := hr

theorem settlement_of_answer {c : TlsConnection} {e : Event} {a : Answer} (ha : e.answer = some a) :
    c.settlement e = c.pendingRead.map fun p => (p, a) := by
  have hrun : e ≠ .runTask := by rintro rfl; cases ha
  unfold settlement
  split
  · exact absurd rfl hrun
  · rw [ha]
    cases c.pendingRead <;> rfl

theorem settlement_of_quiet {c : TlsConnection} {e : Event} (ha : e.answer = none)
    (hrun : e ≠ .runTask) : c.settlement e = none := by
  unfold settlement
  split
  · exact absurd rfl hrun
  · rw [ha]
    cases c.pendingRead <;> rfl

/-- The bytes of the answer are those the event brings. -/
theorem answer_data {e : Event} {a : Answer} (ha : e.answer = some a) : a.data = e.received := by
  cases e with
  | connect | read | close | runTask | connectSuccess => cases ha
  | readBufferAvailable buf => cases ha; exact (flatten_toList buf).symm
  | readEOF | readErr | readTimeout => cases ha; rfl

theorem handled_answer {c c' : TlsConnection} {e : Event} {a : Answer} (h : ReadInv c)
    (ha : e.answer = some a) (hs : step c e = some c') : Handled c e c' := by
  have hset := settlement_of_answer (c := c) ha
  cases hp : c.pendingRead with
  | none =>
    rw [hp] at hset
    rw [step_keep h hp ha hs]
    exact handled_quiet hset rfl rfl rfl rfl rfl
  | some p =>
    rw [hp] at hset
    obtain ⟨hbuf, -, -⟩ := h.parked (by rw [hp]; exact Option.some_ne_none p)
    rw [step_answer h hp ha hs]
    refine ⟨?_, ?_, ?_, ?_, ?_, rfl, rfl⟩
    · rw [hset]; rfl
    · rw [hset]; exact h.alone hp
    · intro q b hq
      rw [hset] at hq
      cases hq
      simp [TlsConnection.outstanding, hp, h.alone hp]
    · rw [hset]
      show a.data ++ c.buffer.flatten = _
      rw [hbuf, answer_data ha, List.flatten_nil, List.append_nil, List.nil_append]
    · intro b hb
      exact List.mem_append_left _ hb

theorem waitingAnswer_data (c : TlsConnection) : c.waitingAnswer.data = c.buffer.flatten := by
  unfold waitingAnswer
  by_cases hb : c.buffer = []
  · rw [if_neg (not_not.mpr hb), hb]
    cases c.readErr <;> rfl
  · rw [if_pos hb]
    rfl

theorem handled_runRead {c : TlsConnection} {p timeoutMs : ℕ} {ts : List Task} (h : ReadInv c)
    (ht : c.tasks = .read p timeoutMs :: ts) :
    Handled c .runTask (runRead p timeoutMs { c with tasks := ts }) := by
  obtain ⟨hp, hts⟩ := h.queued ht
  by_cases hun : c.Unanswered
  · have hset : c.settlement .runTask = none := by simp [settlement, ht, hun]
    obtain ⟨t, heq, -⟩ := runRead_parked (c := { c with tasks := ts }) hun p timeoutMs
    rw [heq]
    refine handled_quiet hset rfl ?_ (List.append_nil _).symm rfl rfl
    rw [outstanding_of_read ht, hp]
    rfl
  · have hset : c.settlement .runTask = some (p, c.waitingAnswer) := by simp [settlement, ht, hun]
    rw [runRead_answered (c := { c with tasks := ts }) hun]
    refine ⟨?_, ?_, ?_, ?_, ?_, rfl, rfl⟩
    · rw [hset]; rfl
    · rw [hset]; simp [TlsConnection.outstanding, hp, hts]
    · intro q b hq
      rw [hset] at hq
      cases hq
      rw [outstanding_of_read ht, hp, hts]
      rfl
    · rw [hset]
      show c.waitingAnswer.data ++ [] = c.buffer.flatten ++ []
      rw [waitingAnswer_data]
    · intro b hb; cases hb

/-- Every event but a submitted read is handled so. -/
theorem handled_step {c c' : TlsConnection} {e : Event} (h : ReadInv c) (he : ∀ ms, e ≠ .read ms)
    (hs : step c e = some c') : Handled c e c' := by
  cases ha : e.answer with
  | some a => exact handled_answer h ha hs
  | none =>
    cases e with
    | readBufferAvailable | readEOF | readErr | readTimeout => cases ha
    | read ms => exact absurd rfl (he ms)
    | connect =>
      cases hs
      refine handled_quiet ?_ rfl ?_ (List.append_nil _).symm rfl rfl
      · exact settlement_of_quiet rfl (by simp)
      · simp [TlsConnection.outstanding, submit, Task.promise?]
    | close =>
      cases hs
      refine handled_quiet ?_ rfl ?_ (List.append_nil _).symm rfl rfl
      · exact settlement_of_quiet rfl (by simp)
      · simp [TlsConnection.outstanding, submit, Task.promise?]
    | connectSuccess =>
      simp only [step, Option.ite_none_right_eq_some, Option.some.injEq] at hs
      obtain ⟨-, rfl⟩ := hs
      exact handled_quiet (settlement_of_quiet rfl (by simp)) rfl rfl (List.append_nil _).symm rfl rfl
    | runTask =>
      simp only [step] at hs
      split at hs
      · rename_i t ts ht
        cases hs
        cases t with
        | read p timeoutMs => exact handled_runRead h ht
        | connect =>
          refine handled_quiet (by simp [settlement, ht]) rfl ?_ (List.append_nil _).symm rfl rfl
          unfold TlsConnection.outstanding
          rw [ht]
          rfl
        | close =>
          refine handled_quiet (by simp [settlement, ht]) rfl ?_ (List.append_nil _).symm rfl rfl
          unfold TlsConnection.outstanding
          rw [ht]
          rfl
      · cases hs

/-- A submitted read becomes the one outstanding. -/
theorem step_read {c c' : TlsConnection} {timeoutMs : ℕ} (hs : step c (.read timeoutMs) = some c') :
    c.outstanding = [] ∧ c' = submit (.read c.reads timeoutMs) { c with reads := c.reads + 1 } ∧
      c'.outstanding = [c.reads] := by
  simp only [step, Option.ite_none_right_eq_some, Option.some.injEq] at hs
  obtain ⟨ho, rfl⟩ := hs
  refine ⟨ho, rfl, ?_⟩
  unfold TlsConnection.outstanding at ho ⊢
  rw [submit, List.filterMap_append, ← List.append_assoc, ho]
  rfl

end TlsConnection

end Fizzpy
