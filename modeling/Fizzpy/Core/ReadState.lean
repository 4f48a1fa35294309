import Fizzpy.Core.TlsConnection

/-!
# The read state

What holds of the read side in every reachable state: a parked read has no answer waiting for it,
the deadline belongs to the parked read, and every read is either outstanding or settled, once.
-/

namespace Fizzpy

open Foundation

namespace TlsConnection

/-! ## The invariant -/

/-- No answer is waiting for a read. -/
def Unanswered (c : TlsConnection) : Prop := c.buffer = [] ∧ c.eof = false ∧ c.readErr = none

structure ReadInv (c : TlsConnection) : Prop where
  parked : c.pendingRead ≠ none → c.Unanswered
  owner : ∀ d, c.deadline = some d → c.pendingRead ≠ none ∧ d.owner = c.pendingRead
  /-- Every read is settled once or outstanding once. -/
  once : (c.settled.map Prod.fst ++ c.outstanding).Perm (List.range c.reads)
  single : c.outstanding.length ≤ 1

theorem readInv_init : ReadInv init where
  parked h := absurd rfl h
  owner d h := by cases h
  once := List.Perm.refl []
  single := by decide

theorem outstanding_of_read {c : TlsConnection} {p timeoutMs : ℕ} {ts : List Task}
    (ht : c.tasks = .read p timeoutMs :: ts) :
    c.outstanding = c.pendingRead.toList ++ p :: ts.filterMap Task.promise? := by
  unfold outstanding
  rw [ht]
  rfl

/-- With a read queued, no other is outstanding. -/
theorem ReadInv.queued {c : TlsConnection} (h : ReadInv c) {p timeoutMs : ℕ} {ts : List Task}
    (ht : c.tasks = .read p timeoutMs :: ts) :
    c.pendingRead = none ∧ ts.filterMap Task.promise? = [] := by
  have hs := h.single
  rw [outstanding_of_read ht, List.length_append, List.length_cons] at hs
  constructor
  · cases hp : c.pendingRead with
    | none => rfl
    | some q => rw [hp, Option.toList_some, List.length_singleton] at hs; omega
  · exact List.length_eq_zero_iff.mp (by omega)

/-- With a read parked, no other is outstanding. -/
theorem ReadInv.alone {c : TlsConnection} (h : ReadInv c) {p : ℕ} (hp : c.pendingRead = some p) :
    c.tasks.filterMap Task.promise? = [] := by
  have hs := h.single
  unfold outstanding at hs
  rw [hp, Option.toList_some, List.length_append, List.length_singleton] at hs
  exact List.length_eq_zero_iff.mp (by omega)

theorem ReadInv.no_deadline {c : TlsConnection} (h : ReadInv c) (hp : c.pendingRead = none) :
    c.deadline = none := by
  cases hd : c.deadline with
  | none => rfl
  | some d => exact absurd hp (h.owner d hd).1

theorem deadline_cancel (t : Option AsyncTimeout) :
    (t.map AsyncTimeout.cancelTimeout).bind AsyncTimeout.scheduled = none := by
  cases t <;> rfl

theorem deadline_takePendingRead (c : TlsConnection) : c.takePendingRead.deadline = none :=
  deadline_cancel c.readTimeout

/-! ## What a step can do -/

/-- How an event settles a parked read, if it does. -/
def Event.answer : Event → Option Answer
  | .readBufferAvailable buf => some (.resolve (buf.getD []))
  | .readEOF => some (.resolve [])
  | .readErr what => some (.reject (.connectionError (readErrMessage what)))
  | .readTimeout => some (.reject (.timeout (str "read timed out")))
  | _ => none

/-- The buffers an event brings. -/
def Event.chunks : Event → List Bytes
  | .readBufferAvailable buf => buf.toList
  | _ => []

/-- What an event makes of `eof_` and of `readErr_`. -/
def Event.eofAfter (e : Event) (eof : Bool) : Bool :=
  match e with
  | .readEOF => true
  | _ => eof

def Event.errAfter (e : Event) (err : Option Str) : Option Str :=
  match e with
  | .readErr what => some (readErrMessage what)
  | _ => err

theorem flatten_toList (buf : Option Bytes) : buf.toList.flatten = buf.getD [] := by
  cases buf <;> simp

/-- Data, the end of the stream, an error and the timer settle the read that is parked, and take its
deadline away. -/
theorem step_answer {c c' : TlsConnection} {e : Event} {a : Answer} {p : ℕ} (h : ReadInv c)
    (hp : c.pendingRead = some p) (ha : e.answer = some a) (hs : step c e = some c') :
    c' = { c.takePendingRead.settle p a with
      eof := e.eofAfter c.eof, readErr := e.errAfter c.readErr } := by
  obtain ⟨hbuf, -, -⟩ := h.parked (by rw [hp]; exact Option.some_ne_none p)
  cases e with
  | connect | read | close | runTask | connectSuccess => cases ha
  | readBufferAvailable buf =>
    simp only [step, Option.ite_none_right_eq_some, Option.some.injEq] at hs
    obtain ⟨-, rfl⟩ := hs
    cases ha
    simp [readBufferAvailable, hp, hbuf, flatten_toList, fulfillRead, resolveBytes, settle,
      takePendingRead, Event.eofAfter, Event.errAfter]
  | readEOF =>
    simp only [step, Option.ite_none_right_eq_some, Option.some.injEq] at hs
    obtain ⟨-, rfl⟩ := hs
    cases ha
    simp [readEOF, hp, resolveBytes, settle, takePendingRead, Event.eofAfter, Event.errAfter]
  | readErr what =>
    simp only [step, Option.ite_none_right_eq_some, Option.some.injEq] at hs
    obtain ⟨-, rfl⟩ := hs
    cases ha
    simp [onReadErr, hp, rejectOnLoop, settle, takePendingRead, Event.eofAfter, Event.errAfter]
  | readTimeout =>
    simp only [step, Option.ite_none_right_eq_some, Option.some.injEq] at hs
    obtain ⟨-, rfl⟩ := hs
    cases ha
    simp [onReadTimeout, hp, settle, takePendingRead, Event.eofAfter, Event.errAfter]

/-- Without a parked read they are kept for the next one. -/
theorem step_keep {c c' : TlsConnection} {e : Event} {a : Answer} (h : ReadInv c)
    (hp : c.pendingRead = none) (ha : e.answer = some a) (hs : step c e = some c') :
    c' = { c with
      buffer := c.buffer ++ e.chunks, eof := e.eofAfter c.eof, readErr := e.errAfter c.readErr } := by
  cases e with
  | connect | read | close | runTask | connectSuccess => cases ha
  | readBufferAvailable buf =>
    simp only [step, Option.ite_none_right_eq_some, Option.some.injEq] at hs
    obtain ⟨-, rfl⟩ := hs
    simp [readBufferAvailable, hp, Event.chunks, Event.eofAfter, Event.errAfter]
  | readEOF =>
    simp only [step, Option.ite_none_right_eq_some, Option.some.injEq] at hs
    obtain ⟨-, rfl⟩ := hs
    simp [readEOF, hp, Event.chunks, Event.eofAfter, Event.errAfter]
  | readErr what =>
    simp only [step, Option.ite_none_right_eq_some, Option.some.injEq] at hs
    obtain ⟨-, rfl⟩ := hs
    simp [onReadErr, hp, Event.chunks, Event.eofAfter, Event.errAfter]
  | readTimeout => simp [step, h.no_deadline hp] at hs

/-- The answer that waits for a read. -/
def waitingAnswer (c : TlsConnection) : Answer :=
  if c.buffer ≠ [] then .resolve c.buffer.flatten
  else
    match c.readErr with
    | some msg => .reject (.connectionError msg)
    | none => .resolve []

/-- A read that runs is settled when an answer is there. -/
theorem runRead_answered {c : TlsConnection} (h : ¬ c.Unanswered) (p timeoutMs : ℕ) :
    runRead p timeoutMs c =
      { c with buffer := [], settled := c.settled ++ [(p, c.waitingAnswer)] } := by
  unfold runRead waitingAnswer
  by_cases hb : c.buffer = []
  · rw [if_neg (not_not.mpr hb), if_neg (not_not.mpr hb)]
    cases hr : c.readErr with
    | some msg => simp [rejectOnLoop, settle, hb, hr]
    | none =>
      have he : c.eof = true := by
        by_contra he
        exact h ⟨hb, by simpa using he, hr⟩
      simp [resolveBytes, settle, hb, hr, he]
  · rw [if_pos hb, if_pos hb]
    rfl

/-- Otherwise it is parked, and a deadline, if there is a new one, is its own. -/
theorem runRead_parked {c : TlsConnection} (h : c.Unanswered) (p timeoutMs : ℕ) :
    ∃ t, runRead p timeoutMs c = { c with pendingRead := some p, readTimeout := t } ∧
      ∀ d, t.bind AsyncTimeout.scheduled = some d → d.owner = some p ∨ c.deadline = some d := by
  obtain ⟨hb, he, hr⟩ := h
  unfold runRead
  rw [if_neg (not_not.mpr hb), hr, he]
  by_cases ht : 0 < timeoutMs
  · exact ⟨_, by simp [ht, armReadTimeout]; rfl, fun d hd => .inl (by cases hd; rfl)⟩
  · exact ⟨c.readTimeout, by simp [ht], fun d hd => .inr hd⟩

/-! ## The invariant is kept -/

theorem readInv_answer {c : TlsConnection} {p : ℕ} {a : Answer} {eof : Bool} {err : Option Str}
    (h : ReadInv c) (hp : c.pendingRead = some p) :
    ReadInv { c.takePendingRead.settle p a with eof := eof, readErr := err } where
  parked hne := absurd rfl hne
  owner d hd := by
    have := deadline_takePendingRead c
    rw [show c.takePendingRead.deadline = some d from hd] at this
    cases this
  once := by
    have honce := h.once
    unfold outstanding at honce ⊢
    rw [hp, h.alone hp] at honce
    simpa [settle, takePendingRead, h.alone hp] using honce
  single := by
    show (c.tasks.filterMap Task.promise?).length ≤ 1
    rw [h.alone hp]
    exact Nat.zero_le 1

theorem readInv_runRead {c : TlsConnection} {p timeoutMs : ℕ} {ts : List Task} (h : ReadInv c)
    (ht : c.tasks = .read p timeoutMs :: ts) : ReadInv (runRead p timeoutMs { c with tasks := ts }) := by
  obtain ⟨hp, hts⟩ := h.queued ht
  have honce := h.once
  rw [outstanding_of_read ht, hp, hts] at honce
  by_cases hun : Unanswered { c with tasks := ts }
  · obtain ⟨t, heq, hown⟩ := runRead_parked hun p timeoutMs
    rw [heq]
    refine ⟨fun _ => hun, fun d hd => ⟨Option.some_ne_none p, ?_⟩, ?_, ?_⟩
    · obtain hd' | hd' := hown d hd
      · exact hd'
      · exact absurd hp (h.owner d hd').1
    · simpa [outstanding, hts] using honce
    · simp [outstanding, hts]
  · rw [runRead_answered hun]
    refine ⟨fun hne => absurd hp hne, h.owner, ?_, ?_⟩
    · simpa [outstanding, hp, hts] using honce
    · simp [outstanding, hp, hts]

/-- A state with the same read side, and the same reads queued. -/
theorem ReadInv.congr {c c' : TlsConnection} (h : ReadInv c) (hb : c'.buffer = c.buffer)
    (he : c'.eof = c.eof) (hr : c'.readErr = c.readErr) (hp : c'.pendingRead = c.pendingRead)
    (ht : c'.readTimeout = c.readTimeout) (hs : c'.settled = c.settled) (hn : c'.reads = c.reads)
    (hq : c'.tasks.filterMap Task.promise? = c.tasks.filterMap Task.promise?) : ReadInv c' := by
  have hd : c'.deadline = c.deadline := by unfold deadline; rw [ht]
  have ho : c'.outstanding = c.outstanding := by unfold outstanding; rw [hp, hq]
  refine ⟨?_, ?_, ?_, ?_⟩
  · unfold Unanswered
    rw [hp, hb, he, hr]
    exact h.parked
  · rw [hd, hp]
    exact h.owner
  · rw [hs, ho, hn]
    exact h.once
  · rw [ho]
    exact h.single

theorem readInv_submitRead {c : TlsConnection} (h : ReadInv c) (ho : c.outstanding = [])
    (timeoutMs : ℕ) :
    ReadInv (submit (.read c.reads timeoutMs) { c with reads := c.reads + 1 }) := by
  obtain ⟨hp, hq⟩ := List.append_eq_nil_iff.mp ho
  have hp : c.pendingRead = none := by simpa using hp
  have ho' : (submit (.read c.reads timeoutMs) { c with reads := c.reads + 1 }).outstanding =
      [c.reads] := by
    simp only [submit, outstanding, List.filterMap_append, hp, hq]
    rfl
  refine ⟨h.parked, h.owner, ?_, by rw [ho']; exact le_rfl⟩
  have honce := h.once
  rw [ho, List.append_nil] at honce
  rw [ho']
  show (c.settled.map Prod.fst ++ [c.reads]).Perm (List.range (c.reads + 1))
  rw [List.range_succ]
  exact honce.append_right [c.reads]

theorem readInv_step {c c' : TlsConnection} {e : Event} (h : ReadInv c) (hs : step c e = some c') :
    ReadInv c' := by
  cases ha : e.answer with
  | some a =>
    cases hp : c.pendingRead with
    | some p =>
      rw [step_answer h hp ha hs]
      exact readInv_answer h hp
    | none =>
      rw [step_keep h hp ha hs]
      exact ⟨fun hne => absurd hp hne, h.owner, h.once, h.single⟩
  | none =>
    cases e with
    | readBufferAvailable | readEOF | readErr | readTimeout => cases ha
    | connect =>
      cases hs
      exact h.congr rfl rfl rfl rfl rfl rfl rfl (by simp [submit, Task.promise?])
    | close =>
      cases hs
      exact h.congr rfl rfl rfl rfl rfl rfl rfl (by simp [submit, Task.promise?])
    | read timeoutMs =>
      simp only [step, Option.ite_none_right_eq_some, Option.some.injEq] at hs
      obtain ⟨ho, rfl⟩ := hs
      exact readInv_submitRead h ho timeoutMs
    | connectSuccess =>
      simp only [step, Option.ite_none_right_eq_some, Option.some.injEq] at hs
      obtain ⟨-, rfl⟩ := hs
      exact h.congr rfl rfl rfl rfl rfl rfl rfl rfl
    | runTask =>
      simp only [step] at hs
      split at hs
      · rename_i t ts ht
        cases hs
        cases t with
        | connect => exact h.congr rfl rfl rfl rfl rfl rfl rfl (by rw [ht]; rfl)
        | close => exact h.congr rfl rfl rfl rfl rfl rfl rfl (by rw [ht]; rfl)
        | read p timeoutMs => exact readInv_runRead h ht
      · cases hs

theorem readInv_run {c : TlsConnection} {es : List Event} (hr : run step init es = some c) :
    ReadInv c :=
  run_invariant (fun _ _ _ h hs => readInv_step h hs) readInv_init hr

/-! ## Parked reads -/

/-- Any other event leaves the parked read alone. -/
theorem step_quiet {c c' : TlsConnection} {e : Event} {p : ℕ} (h : ReadInv c)
    (hp : c.pendingRead = some p) (ha : e.answer = none) (hs : step c e = some c') :
    c'.settled = c.settled ∧ c'.pendingRead = some p ∧ c'.deadline = c.deadline := by
  cases e with
  | readBufferAvailable | readEOF | readErr | readTimeout => cases ha
  | connect => cases hs; exact ⟨rfl, hp, rfl⟩
  | close => cases hs; exact ⟨rfl, hp, rfl⟩
  | read timeoutMs =>
    have ho : c.outstanding ≠ [] := by simp [outstanding, hp]
    simp [step, ho] at hs
  | connectSuccess =>
    simp only [step, Option.ite_none_right_eq_some, Option.some.injEq] at hs
    obtain ⟨-, rfl⟩ := hs
    exact ⟨rfl, hp, rfl⟩
  | runTask =>
    simp only [step] at hs
    split at hs
    · rename_i t ts ht
      cases hs
      cases t with
      | connect => exact ⟨rfl, hp, rfl⟩
      | close => exact ⟨rfl, hp, rfl⟩
      | read q timeoutMs =>
        have := (h.queued ht).1
        rw [hp] at this
        cases this
    · cases hs

/-- **The read state.** A parked read has no answer waiting for it. A deadline is that of the parked
read, and rejects no other. No read is settled twice, and the next data, end of stream, error or
timeout settles the parked one, which until then stays parked. -/
theorem read_state {es : List Event} {c : TlsConnection} (hr : run step init es = some c) :
    (∀ p, c.pendingRead = some p → c.buffer = [] ∧ c.eof = false ∧ c.readErr = none) ∧
    (∀ d, c.deadline = some d → ∃ p, c.pendingRead = some p ∧ d.owner = some p ∧
      ∀ c', step c .readTimeout = some c' →
        c'.settled = c.settled ++ [(p, .reject (.timeout (str "read timed out")))]) ∧
    (c.settled.map Prod.fst).Nodup ∧
    ∀ p, c.pendingRead = some p → p ∉ c.settled.map Prod.fst ∧ ∀ e c', step c e = some c' →
      match e.answer with
      | some a => c'.settled = c.settled ++ [(p, a)] ∧ c'.pendingRead = none ∧ c'.deadline = none
      | none => c'.settled = c.settled ∧ c'.pendingRead = some p ∧ c'.deadline = c.deadline := by
  have h := readInv_run hr
  have hnodup : (c.settled.map Prod.fst ++ c.outstanding).Nodup :=
    h.once.nodup_iff.mpr List.nodup_range
  refine ⟨fun p hp => h.parked (by rw [hp]; exact Option.some_ne_none p), fun d hd => ?_,
    hnodup.of_append_left, fun p hp => ⟨fun hmem => ?_, fun e c' hs => ?_⟩⟩
  · obtain ⟨hne, hown⟩ := h.owner d hd
    obtain ⟨p, hp⟩ := Option.ne_none_iff_exists'.mp hne
    refine ⟨p, hp, hown.trans hp, fun c' hs => ?_⟩
    rw [step_answer h hp rfl hs]
    rfl
  · exact (List.disjoint_of_nodup_append hnodup) hmem (by simp [outstanding, hp])
  · split
    · rename_i a ha
      rw [step_answer h hp ha hs]
      exact ⟨rfl, rfl, deadline_takePendingRead c⟩
    · rename_i ha
      exact step_quiet h hp ha hs

/-- An open connection with a read parked under a deadline. -/
theorem read_state_parked : ∃ c, run step init
    [.connect, .runTask, .connectSuccess, .read 5, .runTask] = some c ∧
      c.pendingRead = some 0 ∧ (∀ c', step c .readTimeout = some c' →
        c'.settled = [(0, .reject (.timeout (str "read timed out")))]) :=
  ⟨_, rfl, rfl, fun c' hs =>
    ((read_state (rfl : run step init [.connect, .runTask, .connectSuccess, .read 5, .runTask] =
      some _)).2.2.2 0 rfl).2 .readTimeout c' hs |>.1⟩

end TlsConnection

end Fizzpy
