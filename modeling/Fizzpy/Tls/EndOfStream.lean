import Fizzpy.Tls.TlsSocket

/-!
# Empty bytes and the end of the stream

A read that resolves with no bytes is taken for the end of the stream. It is one exactly as long as
no read is answered from buffers that hold no bytes; an empty buffer that arrives while a read is
parked ends the stream for `recv`, although more may come.
-/

namespace Fizzpy

open Foundation

namespace TlsConnection

/-- A read resolved with empty bytes only after `readEOF`. -/
def EmptyMeansEof (c : TlsConnection) : Prop := ∀ p, (p, Answer.resolve []) ∈ c.settled → c.eof = true

/-- Before the end of the stream, a parked read is answered by a buffer that is not empty, and a read
that finds buffers finds bytes in them. -/
def AnswersWithBytes (c : TlsConnection) : Event → Prop
  | .readBufferAvailable buf => c.eof = false → c.pendingRead ≠ none → buf.getD [] ≠ []
  | .runTask =>
    match c.tasks with
    | .read _ _ :: _ => c.eof = false → c.buffer ≠ [] → c.buffer.flatten ≠ []
    | _ => True
  | _ => True

/-- Before the end of the stream only buffers without bytes make an empty answer. -/
theorem settlement_empty_iff {c : TlsConnection} {e : Event} (hr : e ≠ .readEOF) (he : c.eof = false) :
    (∃ p, c.settlement e = some (p, .resolve [])) ↔ ¬ AnswersWithBytes c e := by
  cases e with
  | readEOF => exact absurd rfl hr
  | connect | read | close | connectSuccess =>
    rw [settlement_of_quiet rfl (by simp)]
    simp [AnswersWithBytes]
  | readErr | readTimeout =>
    rw [settlement_of_answer rfl]
    simp [AnswersWithBytes]
  | readBufferAvailable buf =>
    rw [settlement_of_answer rfl]
    cases hp : c.pendingRead <;> simp [AnswersWithBytes, he, hp]
  | runTask =>
    unfold settlement AnswersWithBytes
    match c.tasks with
    | [] | .connect :: _ | .close :: _ => simp
    | .read p ms :: ts =>
      by_cases hb : c.buffer = []
      · -- without buffers the answer is the error, or there is none
        cases hr : c.readErr <;> simp [Unanswered, waitingAnswer, hb, he, hr]
      · simp [Unanswered, waitingAnswer, hb, he]

theorem eof_mono {c c' : TlsConnection} {e : Event} (hs : c.Handled e c') (h : c.eof = true) :
    c'.eof = true := by
  rw [hs.eof, h]
  cases e <;> rfl

theorem emptyMeansEof_step {c c' : TlsConnection} {e : Event} (h : ReadInv c) (hm : EmptyMeansEof c)
    (hs : step c e = some c') : EmptyMeansEof c' ↔ AnswersWithBytes c e := by
  by_cases hread : ∃ ms, e = .read ms
  · obtain ⟨ms, rfl⟩ := hread
    obtain ⟨-, rfl, -⟩ := step_read hs
    exact iff_of_true hm trivial
  have hh := handled_step h (fun ms he => hread ⟨ms, he⟩) hs
  by_cases heof : c.eof = true
  · refine iff_of_true (fun _ _ => eof_mono hh heof) ?_
    cases e <;> simp [AnswersWithBytes, heof]
    split <;> trivial
  have heof : c.eof = false := by simpa using heof
  by_cases hr : e = .readEOF
  · subst hr
    exact iff_of_true (fun _ _ => hh.eof) trivial
  have hstill : c'.eof = false := by
    rw [hh.eof, ← heof]
    cases e <;> first | rfl | exact absurd rfl hr
  have hiff := settlement_empty_iff hr heof
  constructor
  · intro hm'
    by_contra hno
    obtain ⟨p, hp⟩ := hiff.mpr hno
    have := hm' p (by rw [hh.settled, hp]; simp)
    rw [hstill] at this
    cases this
  · intro hans p hp
    rw [hh.settled, List.mem_append] at hp
    rcases hp with hp | hp
    · have := hm p hp
      rw [heof] at this
      cases this
    · exact absurd hans (hiff.mp ⟨p, Option.mem_toList.mp hp⟩)

/-- In every run of a connection, reads resolve with empty bytes only after `readEOF` exactly if
before it every read that is answered from buffers is answered with bytes. -/
theorem emptyMeansEof_iff (ls : List Event) :
    Throughout step EmptyMeansEof .init ls ↔ Along step AnswersWithBytes .init ls :=
  throughout_iff_along (fun _ _ _ h hs => readInv_step h hs)
    (fun _ _ _ h hm hs => emptyMeansEof_step h hm hs) readInv_init nofun ls

theorem mem_settled {c : TlsConnection} {p : ℕ} {a : Answer} (h : c.settled.lookup p = some a) :
    (p, a) ∈ c.settled := by
  obtain ⟨l, r, hl, -⟩ := List.lookup_eq_some_iff.mp h
  rw [hl]
  simp

end TlsConnection

namespace TlsSocket

/-- Empty bytes mean the end of the stream, for the reads and for the flag of the socket. -/
def EofIsEof (s : TlsSocket) : Prop := s.conn.EmptyMeansEof ∧ (s.eof = true → s.conn.eof = true)

def AnswersWithBytes (s : TlsSocket) : Event → Prop
  | .loop e => s.conn.AnswersWithBytes e
  | _ => True

theorem mem_of_answer {s : TlsSocket} {a : Answer} (h : s.answer? = some a) :
    ∃ p, (p, a) ∈ s.conn.settled := by
  unfold answer? at h
  split at h
  · exact ⟨_, TlsConnection.mem_settled h⟩
  · cases h

theorem eofIsEof_resume {s s' : TlsSocket} (h : Synced s) (hm : EofIsEof s)
    (hs : s.step .resume = some s') : EofIsEof s' := by
  obtain ⟨c, p, a, -, hans, rfl, -⟩ := resume_cases h hs
  obtain ⟨q, hq⟩ := mem_of_answer hans
  unfold resume
  cases a with
  | reject error => exact hm
  | resolve chunk =>
    dsimp only
    split_ifs with hc
    · subst hc
      exact ⟨hm.1, fun _ => hm.1 q hq⟩
    · exact hm

theorem eofIsEof_step {s s' : TlsSocket} {e : Event} (h : Synced s) (hm : EofIsEof s)
    (hs : s.step e = some s') : EofIsEof s' ↔ AnswersWithBytes s e := by
  cases e with
  | resume => exact iff_of_true (eofIsEof_resume h hm hs) trivial
  | close =>
    cases hs
    refine iff_of_true ?_ trivial
    unfold close
    split_ifs <;> exact hm
  | call c timeoutMs =>
    simp only [step] at hs
    split_ifs at hs
    refine iff_of_true ?_ trivial
    obtain ⟨-, rfl⟩ | ⟨-, -, rfl⟩ | ⟨-, -, p, conn, rfl, -, -, -, -, heof, -, hset⟩ := call_cases h hs
    · exact hm
    · exact hm
    · unfold EofIsEof TlsConnection.EmptyMeansEof
      dsimp only
      rw [hset, heof]
      exact hm
  | loop e =>
    obtain ⟨conn, rfl, hconn, hh⟩ := step_loop h hs
    have hiff := TlsConnection.emptyMeansEof_step h.inv hm.1 hconn
    exact ⟨fun hm' => hiff.mp hm'.1,
      fun hans => ⟨hiff.mpr hans, fun he => TlsConnection.eof_mono hh (hm.2 he)⟩⟩

/-- And the socket over it takes the stream for ended only then. -/
theorem eofIsEof_iff (es : List Event) :
    Throughout step EofIsEof wrapped es ↔ Along step AnswersWithBytes wrapped es :=
  throughout_iff_along (fun _ _ _ h hs => synced_step h hs)
    (fun _ _ _ h hm hs => eofIsEof_step h hm hs) synced_wrapped ⟨nofun, nofun⟩ es

end TlsSocket

end Fizzpy
