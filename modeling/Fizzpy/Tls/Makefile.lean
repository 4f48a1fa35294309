import Fizzpy.Tls.ByteStream
import Fizzpy.Tls.EndOfStream

/-!
# Files made from a socket

`makefile("rb")` reads the socket through `_TlsRawIO`; closing the socket does not wait for it. The
file still delivers the whole stream exactly if the stream had ended when the connection was closed.
-/

namespace Fizzpy

open Foundation

/-- A file over a socket: the buffers the peer has yet to deliver, and the bytes the file has handed
out. What its raw reads returned beyond that is in its buffer. -/
structure TlsFile where
  sock : TlsSocket
  unsent : List Bytes
  taken : Bytes := []

namespace TlsFile

/-- The file is made before anything of the stream has arrived. -/
def makefile (chunks : List Bytes) : TlsFile := { sock := .wrapped, unsent := chunks }

inductive Event
  /-- The file's buffer is filled by a raw read of this size. -/
  | fill (size timeoutMs : ℕ)
  | resume
  /-- The file hands out buffered bytes. -/
  | take (n : ℕ)
  /-- The socket is closed. -/
  | close
  | runTask
  | readTimeout
  /-- The peer's next buffer arrives, or the stream ends. -/
  | deliver
  | readEOF
  deriving DecidableEq

def onSocket (f : TlsFile) (e : TlsSocket.Event) : Option TlsFile :=
  (f.sock.step e).map fun sock => { f with sock }

def step (f : TlsFile) : Event → Option TlsFile
  | .fill size timeoutMs =>
    if 0 < size then f.onSocket (.call (.readinto (List.replicate size 0)) timeoutMs) else none
  | .resume => f.onSocket .resume
  | .take n => some { f with taken := f.sock.returned.take (f.taken.length + n) }
  | .close => f.onSocket .close
  | .runTask => f.onSocket (.loop .runTask)
  | .readTimeout => f.onSocket (.loop .readTimeout)
  | .deliver =>
    match f.unsent with
    | b :: rest => { f with unsent := rest }.onSocket (.loop (.readBufferAvailable (some b)))
    | [] => none
  | .readEOF => if f.unsent = [] then f.onSocket (.loop .readEOF) else none

/-- A raw read has returned nothing, so there is no more to come. -/
def RawEnded (f : TlsFile) : Prop := ∃ r ∈ f.sock.results, ∃ ret, r.outcome = .ok ret ∧ ret.data = []

/-- The file is read to its end. -/
def Finished (f : TlsFile) : Prop := f.RawEnded ∧ f.taken = f.sock.returned

/-- Whatever happens, the file can still be read to its end, and that gives the whole stream. -/
def Delivers (chunks : List Bytes) (f : TlsFile) : Prop :=
  ∀ es f', run step f es = some f' →
    (∃ es' f'', run step f' es' = some f'' ∧ f''.Finished) ∧
    (f'.Finished → f'.taken = chunks.flatten)

/-! ## The invariant -/

structure FileInv (chunks : List Bytes) (f : TlsFile) : Prop where
  flow : ∃ h, TlsSocket.Flow h f.sock ∧ TlsSocket.delivered h ++ f.unsent.flatten = chunks.flatten ∧
    (.loop .readEOF ∈ h → f.sock.conn.eof = true) ∧
    ∀ h₁ h₂, h = h₁ ++ .loop .readEOF :: h₂ → TlsSocket.delivered h₁ = chunks.flatten
  solid : ∀ b ∈ f.unsent, b ≠ []
  ended : f.sock.conn.eof = true → f.unsent = []
  noErr : f.sock.conn.readErr = none

theorem fileInv_makefile {chunks : List Bytes} (h : ∀ b ∈ chunks, b ≠ []) :
    FileInv chunks (makefile chunks) where
  flow := ⟨[], TlsSocket.flow_wrapped, rfl, nofun, fun h₁ h₂ h => by cases h₁ <;> cases h⟩
  solid := h
  ended := nofun
  noErr := rfl

theorem onSocket_some {f f' : TlsFile} {e : TlsSocket.Event} (hs : f.onSocket e = some f') :
    f.sock.step e = some f'.sock ∧ f'.unsent = f.unsent ∧ f'.taken = f.taken := by
  obtain ⟨sock, hsock, rfl⟩ := Option.map_eq_some_iff.mp hs
  exact ⟨hsock, rfl, rfl⟩

/-- What a socket event does to the flags of the connection. -/
theorem flags_step {s s' : TlsSocket} {e : TlsSocket.Event} (h : s.Synced) (hs : s.step e = some s') :
    s'.conn.eof = (if e = .loop .readEOF then true else s.conn.eof) ∧
    ((∀ what, e ≠ .loop (.readErr what)) → s.conn.readErr = none → s'.conn.readErr = none) := by
  cases e with
  | resume =>
    obtain ⟨c, p, a, -, -, rfl, -⟩ := TlsSocket.resume_cases h hs
    have hconn : (s.resume c a).conn = s.conn := by
      unfold TlsSocket.resume
      split
      · split_ifs <;> rfl
      · rfl
    rw [hconn]
    exact ⟨rfl, fun _ hr => hr⟩
  | close =>
    cases hs
    have hconn : s.close.conn.eof = s.conn.eof ∧ s.close.conn.readErr = s.conn.readErr := by
      unfold TlsSocket.close
      split_ifs <;> exact ⟨rfl, rfl⟩
    exact ⟨hconn.1, fun _ hr => hconn.2.trans hr⟩
  | call c timeoutMs =>
    simp only [TlsSocket.step] at hs
    split_ifs at hs
    obtain ⟨-, rfl⟩ | ⟨-, -, rfl⟩ | ⟨-, -, p, conn, rfl, -, -, -, -, heof, herr, -⟩ :=
      TlsSocket.call_cases h hs
    · exact ⟨rfl, fun _ hr => hr⟩
    · exact ⟨rfl, fun _ hr => hr⟩
    · exact ⟨heof, fun _ hr => herr.trans hr⟩
  | loop e =>
    obtain ⟨conn, rfl, -, hh⟩ := TlsSocket.step_loop h hs
    refine ⟨hh.eof.trans ?_, fun hne hr => hh.readErr.trans ?_⟩
    · cases e <;> rfl
    · cases e with
      | readErr what => exact absurd rfl (hne what)
      | _ => exact hr

/-- A valid socket event keeps the invariant; `b` is what it delivers. -/
theorem fileInv_socket {chunks : List Bytes} {f f' : TlsFile} {e : TlsSocket.Event}
    (h : FileInv chunks f) (hs : f.sock.step e = some f'.sock) (hv : e.Valid)
    (herr : ∀ what, e ≠ .loop (.readErr what))
    (hun : TlsSocket.delivered [e] ++ f'.unsent.flatten = f.unsent.flatten)
    (hsub : ∀ b ∈ f'.unsent, b ∈ f.unsent) (heof : e = .loop .readEOF → f'.unsent = []) :
    FileInv chunks f' := by
  obtain ⟨hist, hflow, hdel, hseen, hlast⟩ := h.flow
  obtain ⟨he, hr⟩ := flags_step hflow.toSynced hs
  refine ⟨⟨hist ++ [e], TlsSocket.flow_step hflow hv hs, ?_, fun hmem => ?_, fun h₁ h₂ heq => ?_⟩,
    fun b hb => h.solid b (hsub b hb), fun hc => ?_, hr herr h.noErr⟩
  · rw [TlsSocket.delivered_append, List.append_assoc, hun, hdel]
  · rw [he]
    split_ifs with hx
    · rfl
    · rcases List.mem_append.mp hmem with hm | hm
      · exact hseen hm
      · exact absurd (List.mem_singleton.mp hm).symm hx
  · rcases List.eq_nil_or_concat h₂ with rfl | ⟨h₂, x, rfl⟩
    · obtain ⟨rfl, hx⟩ := List.append_inj' heq rfl
      rw [List.singleton_inj.mp hx] at hun heof
      rw [heof rfl] at hun
      rw [← hun] at hdel
      simpa [TlsSocket.delivered] using hdel
    · rw [List.concat_eq_append, ← List.cons_append, ← List.append_assoc] at heq
      exact hlast h₁ h₂ (List.append_inj' heq rfl).1
  · rw [he] at hc
    split_ifs at hc with hx
    · exact heof hx
    · rw [List.eq_nil_iff_forall_not_mem]
      intro b hb
      have := hsub b hb
      rw [h.ended hc] at this
      cases this

/-- So does one that delivers nothing. -/
theorem fileInv_quiet {chunks : List Bytes} {f f' : TlsFile} {e : TlsSocket.Event}
    (h : FileInv chunks f) (hs : f.onSocket e = some f') (hv : e.Valid)
    (herr : ∀ what, e ≠ .loop (.readErr what)) (hdel : TlsSocket.delivered [e] = [])
    (heof : e = .loop .readEOF → f.unsent = []) : FileInv chunks f' := by
  obtain ⟨hsock, hun, -⟩ := onSocket_some hs
  refine fileInv_socket h hsock hv herr ?_ ?_ fun he => hun.trans (heof he)
  · rw [hdel, hun, List.nil_append]
  · rw [hun]
    exact fun _ hb => hb

theorem fileInv_step {chunks : List Bytes} {f f' : TlsFile} {e : Event} (h : FileInv chunks f)
    (hs : step f e = some f') : FileInv chunks f' := by
  cases e with
  | take n => cases hs; exact ⟨h.flow, h.solid, h.ended, h.noErr⟩
  | fill size timeoutMs =>
    simp only [step] at hs
    split_ifs at hs with hpos
    refine fileInv_quiet h hs ?_ nofun rfl nofun
    show List.replicate size 0 ≠ []
    simpa using Nat.pos_iff_ne_zero.mp hpos
  | resume => exact fileInv_quiet h hs trivial nofun rfl nofun
  | close => exact fileInv_quiet h hs trivial nofun rfl nofun
  | runTask => exact fileInv_quiet h hs trivial nofun rfl nofun
  | readTimeout => exact fileInv_quiet h hs trivial nofun rfl nofun
  | readEOF =>
    simp only [step] at hs
    split_ifs at hs with hempty
    exact fileInv_quiet h hs trivial nofun rfl fun _ => hempty
  | deliver =>
    simp only [step] at hs
    split at hs
    · rename_i b rest hb
      obtain ⟨hsock, hun, -⟩ := onSocket_some hs
      have hne : b ≠ [] := h.solid b (by rw [hb]; exact List.mem_cons_self)
      refine fileInv_socket h hsock hne nofun ?_ ?_ nofun
      · rw [hun, hb, TlsSocket.delivered_loop]
        simp [TlsConnection.Event.received, TlsConnection.Event.chunks]
      · rw [hun, hb]
        exact fun x hx => List.mem_cons_of_mem b hx
    · cases hs

/-! ## A connection closed too early -/

theorem listening_runTask {c : TlsConnection} (t : Task) (h : ¬ c.listening) :
    ¬ (TlsConnection.runTask t c).listening := by
  unfold TlsConnection.listening at *
  cases t with
  | connect => simp [TlsConnection.runTask]
  | close => simp [TlsConnection.runTask, TlsConnection.runClose]
  | read p timeoutMs =>
    have hclient : (TlsConnection.runRead p timeoutMs c).client = c.client := by
      by_cases hun : c.Unanswered
      · obtain ⟨t, heq, -⟩ := TlsConnection.runRead_parked hun p timeoutMs
        rw [heq]
      · rw [TlsConnection.runRead_answered hun]
    rw [TlsConnection.runTask, hclient]
    exact h

/-- Once detached, a connection hears nothing, unless it is connected anew. -/
theorem not_listening_step {c c' : TlsConnection} {e : TlsConnection.Event} (h : ¬ c.listening)
    (he : e ≠ .connectSuccess) (hs : c.step e = some c') : ¬ c'.listening := by
  cases e with
  | connect | close => cases hs; exact h
  | read timeoutMs => rw [(TlsConnection.step_read hs).2.1]; exact h
  | connectSuccess => exact absurd rfl he
  | readBufferAvailable | readEOF | readErr => simp [TlsConnection.step, h] at hs
  | readTimeout =>
    simp only [TlsConnection.step, Option.ite_none_right_eq_some, Option.some.injEq] at hs
    obtain ⟨-, rfl⟩ := hs
    unfold TlsConnection.onReadTimeout
    dsimp only
    split <;> exact h
  | runTask =>
    simp only [TlsConnection.step] at hs
    split at hs
    · cases hs
      exact listening_runTask _ h
    · cases hs

theorem not_listening_socket {s s' : TlsSocket} {e : TlsSocket.Event} (h : ¬ s.conn.listening)
    (he : e ≠ .loop .connectSuccess) (hs : s.step e = some s') : ¬ s'.conn.listening := by
  cases e with
  | call c timeoutMs =>
    simp only [TlsSocket.step, TlsSocket.call] at hs
    split_ifs at hs
    · cases hs; exact h
    · cases hs; exact h
    · obtain ⟨conn, hconn, rfl⟩ := Option.map_eq_some_iff.mp hs
      exact not_listening_step (e := .read timeoutMs) h (fun h => by cases h) hconn
  | resume =>
    simp only [TlsSocket.step] at hs
    split at hs
    · obtain ⟨a, -, rfl⟩ := Option.map_eq_some_iff.mp hs
      unfold TlsSocket.resume
      split
      · split_ifs <;> exact h
      · exact h
    · cases hs
  | close =>
    cases hs
    unfold TlsSocket.close
    split_ifs <;> exact h
  | loop x =>
    simp only [TlsSocket.step] at hs
    split_ifs at hs
    obtain ⟨conn, hconn, rfl⟩ := Option.map_eq_some_iff.mp hs
    exact not_listening_step h (fun hx => he (by rw [hx])) hconn

/-- The transport calls back no more, and the stream has not ended. -/
structure Deaf (chunks : List Bytes) (f : TlsFile) : Prop where
  inv : FileInv chunks f
  detached : ¬ f.sock.conn.listening
  open_ : f.sock.conn.eof = false

theorem deaf_socket {chunks : List Bytes} {f f' : TlsFile} {e : TlsSocket.Event} (h : Deaf chunks f)
    (hi : FileInv chunks f') (hs : f.onSocket e = some f') (he : e ≠ .loop .connectSuccess)
    (heof : e ≠ .loop .readEOF) : Deaf chunks f' := by
  obtain ⟨hist, hflow, -⟩ := h.inv.flow
  obtain ⟨hsock, -⟩ := onSocket_some hs
  refine ⟨hi, not_listening_socket h.detached he hsock, ?_⟩
  rw [(flags_step hflow.toSynced hsock).1, if_neg heof]
  exact h.open_

theorem deaf_step {chunks : List Bytes} {f f' : TlsFile} {e : Event} (h : Deaf chunks f)
    (hs : step f e = some f') : Deaf chunks f' := by
  have hi := fileInv_step h.inv hs
  cases e with
  | take n => cases hs; exact ⟨hi, h.detached, h.open_⟩
  | fill size timeoutMs =>
    simp only [step] at hs
    split_ifs at hs
    exact deaf_socket h hi hs nofun nofun
  | resume => exact deaf_socket h hi hs nofun nofun
  | close => exact deaf_socket h hi hs nofun nofun
  | runTask => exact deaf_socket h hi hs nofun nofun
  | readTimeout => exact deaf_socket h hi hs nofun nofun
  | readEOF => simp [step, onSocket, TlsSocket.step, TlsConnection.step, h.detached] at hs
  | deliver =>
    simp only [step] at hs
    split at hs
    · simp [onSocket, TlsSocket.step, TlsConnection.step, h.detached] at hs
    · cases hs

/-- No raw read reports an end that did not come. -/
theorem not_rawEnded {chunks : List Bytes} {f : TlsFile} (h : FileInv chunks f)
    (he : f.sock.conn.eof = false) : ¬ f.RawEnded := by
  rintro ⟨r, hr, ret, hret, hd⟩
  obtain ⟨hist, hflow, -, hseen, -⟩ := h.flow
  obtain ⟨pre, post, hres⟩ := List.append_of_mem hr
  obtain ⟨h₁, h₂, rfl, -⟩ := (hflow.results pre r post hres).ended ret hret hd
  have := hseen (by simp)
  rw [he] at this
  cases this

theorem deaf_never_finishes {chunks : List Bytes} {f f' : TlsFile} {es : List Event}
    (h : Deaf chunks f) (hr : run step f es = some f') : ¬ f'.Finished := by
  have h' := run_invariant (fun _ _ _ h hs => deaf_step h hs) h hr
  exact fun hfin => not_rawEnded h'.inv h'.open_ hfin.1

/-! ## A stream that has ended -/

/-- All that was delivered is in, and its end too. -/
structure Complete (chunks : List Bytes) (f : TlsFile) : Prop where
  inv : FileInv chunks f
  ended : f.sock.conn.eof = true

theorem complete_step {chunks : List Bytes} {f f' : TlsFile} {e : Event} (h : Complete chunks f)
    (hs : step f e = some f') : Complete chunks f' := by
  have hi := fileInv_step h.inv hs
  obtain ⟨hist, hflow, -⟩ := h.inv.flow
  have hkeep {x : TlsSocket.Event} (hx : f.onSocket x = some f') : Complete chunks f' := by
    obtain ⟨hsock, -⟩ := onSocket_some hx
    refine ⟨hi, ?_⟩
    rw [(flags_step hflow.toSynced hsock).1, h.ended]
    split_ifs <;> rfl
  cases e with
  | take n => cases hs; exact ⟨hi, h.ended⟩
  | fill size timeoutMs =>
    simp only [step] at hs
    split_ifs at hs
    exact hkeep hs
  | resume | close | runTask | readTimeout => exact hkeep hs
  | readEOF =>
    simp only [step] at hs
    split_ifs at hs
    exact hkeep hs
  | deliver =>
    simp only [step] at hs
    rw [h.inv.ended h.ended] at hs
    cases hs

theorem complete_run {chunks : List Bytes} {f f' : TlsFile} {es : List Event} (h : Complete chunks f)
    (hr : run step f es = some f') : Complete chunks f' :=
  run_invariant (fun _ _ _ h hs => complete_step h hs) h hr

theorem run_two {f f₁ f₂ : TlsFile} {es₁ es₂ : List Event} (h₁ : run step f es₁ = some f₁)
    (h₂ : run step f₁ es₂ = some f₂) : run step f (es₁ ++ es₂) = some f₂ := by
  rw [run_append, h₁]
  exact h₂

theorem Complete.synced {chunks : List Bytes} {f : TlsFile} (h : Complete chunks f) : f.sock.Synced := by
  obtain ⟨hist, hflow, -⟩ := h.inv.flow
  exact hflow.toSynced

theorem Complete.answered {chunks : List Bytes} {f : TlsFile} (h : Complete chunks f) :
    ¬ f.sock.conn.Unanswered := by
  rintro ⟨-, he, -⟩
  rw [h.ended] at he
  cases he

theorem tasks_runTask (t : Task) (c : TlsConnection) : (TlsConnection.runTask t c).tasks = c.tasks := by
  cases t with
  | connect | close => rfl
  | read p timeoutMs =>
    show (TlsConnection.runRead p timeoutMs c).tasks = c.tasks
    by_cases hun : c.Unanswered
    · obtain ⟨t, heq, -⟩ := TlsConnection.runRead_parked hun p timeoutMs
      rw [heq]
    · rw [TlsConnection.runRead_answered hun]

/-- The loop runs what is queued. -/
theorem exists_drained (n : ℕ) : ∀ f : TlsFile, f.sock.conn.tasks.length = n →
    ∃ es f', run step f es = some f' ∧ f'.sock.conn.tasks = [] := by
  induction n with
  | zero => exact fun f hn => ⟨[], f, rfl, List.length_eq_zero_iff.mp hn⟩
  | succ n ih =>
    intro f hn
    obtain ⟨t, ts, ht⟩ := List.exists_cons_of_length_eq_add_one hn
    have hstep : step f .runTask = some { f with sock := { f.sock with
        conn := TlsConnection.runTask t { f.sock.conn with tasks := ts } } } := by
      simp [step, onSocket, TlsSocket.step, TlsSocket.onLoop, TlsConnection.step, ht]
    obtain ⟨es, f', hr, hf'⟩ := ih { f with sock := { f.sock with
        conn := TlsConnection.runTask t { f.sock.conn with tasks := ts } } } (by
      show (TlsConnection.runTask t { f.sock.conn with tasks := ts }).tasks.length = n
      rw [tasks_runTask]
      rw [ht, List.length_cons] at hn
      exact Nat.succ.inj hn)
    exact ⟨.runTask :: es, f', by rw [run_cons, hstep]; exact hr, hf'⟩

/-- The file can be read again: nothing is queued, and the reader is outside a call. -/
structure Ready (chunks : List Bytes) (f : TlsFile) : Prop extends Complete chunks f where
  drained : f.sock.conn.tasks = []
  idle : f.sock.reader = .idle

theorem exists_ready {chunks : List Bytes} {f : TlsFile} (h : Complete chunks f) :
    ∃ es f', run step f es = some f' ∧ Ready chunks f' := by
  obtain ⟨es, f₁, hr, ht⟩ := exists_drained _ f rfl
  have h₁ := complete_run h hr
  cases hread : f₁.sock.reader with
  | idle => exact ⟨es, f₁, hr, h₁, ht, hread⟩
  | waiting c p =>
    -- with the stream ended nothing is parked, so the promise is settled
    obtain ⟨-, -, ⟨ho, -⟩ | ⟨-, hans⟩⟩ := h₁.synced.waiting c p hread
    · have hp : f₁.sock.conn.pendingRead ≠ none := by
        rintro hp
        simp [TlsConnection.outstanding, hp, ht] at ho
      exact absurd (h₁.synced.inv.parked hp) h₁.answered
    · obtain ⟨a, ha⟩ := Option.ne_none_iff_exists'.mp hans
      have hl : f₁.sock.conn.settled.lookup p = some a := by
        unfold TlsSocket.answer? at ha
        rw [hread] at ha
        exact ha
      have hstep : run step f₁ [.resume] = some { f₁ with sock := f₁.sock.resume c a } := by
        simp [run_cons, step, onSocket, TlsSocket.step, hread, hl]
      refine ⟨es ++ [.resume], _, run_two hr hstep, complete_run h₁ hstep, ?_, ?_⟩
      · show (f₁.sock.resume c a).conn.tasks = []
        unfold TlsSocket.resume
        split
        · split_ifs <;> exact ht
        · exact ht
      · show (f₁.sock.resume c a).reader = .idle
        unfold TlsSocket.resume
        split
        · split_ifs <;> rfl
        · rfl

/-- What is in but was not returned to the file. -/
def pending (f : TlsFile) : ℕ := f.sock.rbuf.length + f.sock.conn.buffer.flatten.length

/-- A call that finds nothing in the Python buffer gets what waits in the connection. -/
theorem read_now {s : TlsSocket} (h : s.Synced) (hidle : s.reader = .idle) (ht : s.conn.tasks = [])
    (hb : s.rbuf = []) (he : s.eof = false) (hun : ¬ s.conn.Unanswered) (c : ReadCall) :
    ∃ conn p, run TlsSocket.step s [.call c 0, .loop .runTask, .resume] =
        some ({ s with conn := conn, reader := .waiting c p }.resume c s.conn.waitingAnswer) ∧
      conn.tasks = [] ∧ conn.buffer = [] := by
  have ho := h.idle hidle
  have hfresh : s.conn.settled.lookup s.conn.reads = none := by
    refine TlsSocket.lookup_eq_none fun hmem => ?_
    have := h.inv.once.subset (List.mem_append_left _ hmem)
    exact absurd (List.mem_range.mp this) (lt_irrefl _)
  refine ⟨{ s.conn with
    reads := s.conn.reads + 1, buffer := []
    settled := s.conn.settled ++ [(s.conn.reads, s.conn.waitingAnswer)] }, s.conn.reads, ?_, ht, rfl⟩
  have hcall : s.step (.call c 0) = some { s with
      conn := TlsConnection.submit (.read s.conn.reads 0) { s.conn with reads := s.conn.reads + 1 }
      reader := .waiting c s.conn.reads } := by
    simp [TlsSocket.step, TlsSocket.call, TlsConnection.step, hidle, hb, he, ho]
  have hqueue : TlsConnection.step
      (TlsConnection.submit (.read s.conn.reads 0) { s.conn with reads := s.conn.reads + 1 }) .runTask =
      some (TlsConnection.runRead s.conn.reads 0 { s.conn with reads := s.conn.reads + 1 }) := by
    simp only [TlsConnection.step, TlsConnection.submit, ht, List.nil_append, TlsConnection.runTask]
  rw [TlsConnection.runRead_answered (c := { s.conn with reads := s.conn.reads + 1 }) hun] at hqueue
  rw [run_cons, hcall, Option.bind_some, run_cons]
  simp only [TlsSocket.step, TlsSocket.onLoop, if_true, hqueue, Option.map_some, Option.bind_some,
    run_cons, run_nil, List.lookup_append, hfresh]
  simp
  rfl

/-- The three socket steps, taken by the file. -/
theorem run_fill {f : TlsFile} {s : TlsSocket}
    (h : run TlsSocket.step f.sock [.call (.readinto [0]) 0, .loop .runTask, .resume] = some s) :
    run step f [.fill 1 0, .runTask, .resume] = some { f with sock := s } := by
  simp only [run_cons, run_nil, Option.bind_eq_some_iff, Option.some.injEq] at h
  obtain ⟨s₁, h₁, s₂, h₂, s₃, h₃, rfl⟩ := h
  have hfill : step f (.fill 1 0) = some { f with sock := s₁ } := by
    show f.onSocket (.call (.readinto [0]) 0) = _
    rw [onSocket, h₁]
    rfl
  rw [run_cons, hfill, Option.bind_some, run_cons]
  simp [step, onSocket, h₂, h₃, run_cons]

/-- One raw read: it reports the end, or there is less to come. -/
theorem exists_fill {chunks : List Bytes} {f : TlsFile} (h : Ready chunks f) :
    ∃ es f', run step f es = some f' ∧ Ready chunks f' ∧ (f'.RawEnded ∨ f'.pending < f.pending) := by
  have hstep {s : TlsSocket} (hs : f.sock.step (.call (.readinto [0]) 0) = some s) :
      run step f [.fill 1 0] = some { f with sock := s } := by
    show (f.onSocket (.call (.readinto [0]) 0)).bind some = _
    rw [onSocket, hs]
    rfl
  by_cases hb : f.sock.rbuf = []
  · by_cases he : f.sock.eof = true
    · have hs : f.sock.step (.call (.readinto [0]) 0) = some (f.sock.finish (.readinto [0]) []) := by
        simp [TlsSocket.step, TlsSocket.call, h.idle, hb, he]
      have hr := hstep hs
      refine ⟨_, _, hr, ⟨complete_run h.toComplete hr, h.drained, rfl⟩, .inl ?_⟩
      exact ⟨_, List.mem_append_right _ (List.mem_singleton_self _), _, rfl, rfl⟩
    · have he : f.sock.eof = false := by simpa using he
      obtain ⟨conn, p, hs, ht, hbuf⟩ :=
        read_now h.synced h.idle h.drained hb he h.answered (.readinto [0])
      have hr := run_fill hs
      have hans : f.sock.conn.waitingAnswer = .resolve f.sock.conn.buffer.flatten := by
        unfold TlsConnection.waitingAnswer
        rw [h.inv.noErr]
        by_cases hc : f.sock.conn.buffer = [] <;> simp [hc]
      rw [hans] at hr
      unfold TlsSocket.resume at hr
      dsimp only at hr
      split_ifs at hr with hempty
      · refine ⟨_, _, hr, ⟨complete_run h.toComplete hr, ht, rfl⟩, .inl ?_⟩
        exact ⟨_, List.mem_append_right _ (List.mem_singleton_self _), _, rfl, rfl⟩
      · refine ⟨_, _, hr, ⟨complete_run h.toComplete hr, ht, rfl⟩, .inr ?_⟩
        have hpos := List.length_pos_of_ne_nil hempty
        show (f.sock.conn.buffer.flatten.drop 1).length + conn.buffer.flatten.length < f.pending
        rw [hbuf, List.length_drop, pending, hb]
        simp only [List.flatten_nil, List.length_nil]
        omega
  · have hs : f.sock.step (.call (.readinto [0]) 0) =
        some (f.sock.slice (.readinto [0]) f.sock.rbuf) := by
      simp [TlsSocket.step, TlsSocket.call, h.idle, hb]
    have hr := hstep hs
    refine ⟨_, _, hr, ⟨complete_run h.toComplete hr, h.drained, rfl⟩, .inr ?_⟩
    have hpos := List.length_pos_of_ne_nil hb
    show (f.sock.rbuf.drop 1).length + f.sock.conn.buffer.flatten.length < f.pending
    rw [List.length_drop, pending]
    omega

theorem exists_rawEnded {chunks : List Bytes} (n : ℕ) : ∀ f : TlsFile, Ready chunks f → f.pending = n →
    ∃ es f', run step f es = some f' ∧ f'.RawEnded := by
  induction n using Nat.strong_induction_on with
  | _ n ih =>
    intro f h hn
    obtain ⟨es, f₁, hr, h₁, hend | hless⟩ := exists_fill h
    · exact ⟨es, f₁, hr, hend⟩
    · obtain ⟨es', f₂, hr', hend⟩ := ih f₁.pending (hn ▸ hless) f₁ h₁ rfl
      exact ⟨es ++ es', f₂, run_two hr hr', hend⟩

theorem exists_finished {chunks : List Bytes} {f : TlsFile} (h : Complete chunks f) :
    ∃ es f', run step f es = some f' ∧ f'.Finished := by
  obtain ⟨es, f₁, hr, h₁⟩ := exists_ready h
  obtain ⟨es', f₂, hr', hend⟩ := exists_rawEnded f₁.pending f₁ h₁ rfl
  have htake : run step f₂ [.take f₂.sock.returned.length] =
      some { f₂ with taken := f₂.sock.returned } := by
    show some { f₂ with taken := f₂.sock.returned.take (f₂.taken.length + f₂.sock.returned.length) } = _
    rw [List.take_of_length_le (by omega)]
  exact ⟨_, _, run_two (run_two hr hr') htake, hend, rfl⟩

/-- A file that has been read to its end has handed out the whole stream. -/
theorem taken_of_finished {chunks : List Bytes} {f : TlsFile} (h : Complete chunks f)
    (hfin : f.Finished) : f.taken = chunks.flatten := by
  obtain ⟨⟨r, hr, ret, hret, hd⟩, htaken⟩ := hfin
  obtain ⟨hist, hflow, hdel, -, hlast⟩ := h.inv.flow
  obtain ⟨pre, post, hres⟩ := List.append_of_mem hr
  obtain ⟨h₁, h₂, hsplit, hpre⟩ := (hflow.results pre r post hres).ended ret hret hd
  rw [hlast h₁ h₂ hsplit] at hpre
  have hall : chunks.flatten <+: f.sock.returned := by
    unfold TlsSocket.returned
    rw [hres, List.flatMap_append]
    exact hpre.trans (List.prefix_append _ _)
  have hback : f.sock.returned <+: chunks.flatten := by
    rw [h.inv.ended h.ended, List.flatten_nil, List.append_nil] at hdel
    rw [← hdel, ← hflow.bytes, List.append_assoc, List.append_assoc]
    exact List.prefix_append _ _
  rw [htaken]
  exact hback.eq_of_length_le hall.length_le

/-- Closing the connection before the end of the stream detaches it for good. -/
theorem deaf_of_close {chunks : List Bytes} {f f' : TlsFile} (h : FileInv chunks f)
    (hclose : f.sock.conn.tasks.head? = some .close) (hs : step f .runTask = some f')
    (he : f.sock.conn.eof = false) : Deaf chunks f' := by
  obtain ⟨ts, ht⟩ : ∃ ts, f.sock.conn.tasks = .close :: ts := List.head?_eq_some_iff.mp hclose
  have hf' : f' = { f with sock := { f.sock with
      conn := TlsConnection.runClose { f.sock.conn with tasks := ts } } } := by
    simpa [step, onSocket, TlsSocket.step, TlsSocket.onLoop, TlsConnection.step, ht,
      TlsConnection.runTask] using hs.symm
  refine ⟨fileInv_step h hs, ?_, ?_⟩
  · rw [hf']
    simp [TlsConnection.listening, TlsConnection.runClose]
  · rw [hf']
    exact he

theorem fileInv_run {chunks : List Bytes} (hsolid : ∀ b ∈ chunks, b ≠ []) {es : List Event}
    {f : TlsFile} (hr : run step (makefile chunks) es = some f) : FileInv chunks f :=
  run_invariant (fun _ _ _ h hs => fileInv_step h hs) (fileInv_makefile hsolid) hr

/-- **A file outlives its socket** exactly if the stream had ended when the connection was closed:
then it can always be read to its end and delivers all of the stream, and otherwise its end never
comes. -/
theorem makefile_survives_iff {chunks : List Bytes} (hsolid : ∀ b ∈ chunks, b ≠ []) {es : List Event}
    {f f' : TlsFile} (hr : run step (makefile chunks) es = some f)
    (hclose : f.sock.conn.tasks.head? = some .close) (hs : step f .runTask = some f') :
    Delivers chunks f' ↔ f.sock.conn.eof = true := by
  have hi := fileInv_run hsolid hr
  constructor
  · intro hdel
    by_contra he
    have hdeaf := deaf_of_close hi hclose hs (by simpa using he)
    obtain ⟨⟨es', f'', hr', hfin⟩, -⟩ := hdel [] f' rfl
    exact deaf_never_finishes hdeaf hr' hfin
  · intro he es' f'' hr'
    have h := complete_run (complete_step ⟨hi, he⟩ hs) hr'
    exact ⟨exists_finished h, taken_of_finished h⟩

/-- Closed after the end of the stream, before the file has read anything. -/
theorem makefile_survives_ended : ∃ f f',
    run step (makefile [ascii "he", ascii "llo"]) [.deliver, .deliver, .readEOF, .close] = some f ∧
      step f .runTask = some f' ∧ Delivers [ascii "he", ascii "llo"] f' :=
  ⟨_, _, rfl, rfl, (makefile_survives_iff (by decide)
    (rfl : run step _ [.deliver, .deliver, .readEOF, .close] = some _) rfl rfl).mpr rfl⟩

/-- Closed between two buffers: the file can never be read to its end. -/
theorem makefile_cut_off : ∃ f f',
    run step (makefile [ascii "he", ascii "llo"]) [.deliver, .close] = some f ∧
      step f .runTask = some f' ∧ ¬ Delivers [ascii "he", ascii "llo"] f' ∧
      ∀ es f'', run step f' es = some f'' → ¬ f''.Finished := by
  refine ⟨_, _, rfl, rfl, fun hdel => ?_, fun es f'' hr => ?_⟩
  · obtain ⟨⟨es, f'', hr, hfin⟩, -⟩ := hdel [] _ rfl
    exact deaf_never_finishes (deaf_of_close (fileInv_run (by decide)
      (rfl : run step (makefile [ascii "he", ascii "llo"]) [.deliver, .close] = some _)) rfl rfl rfl) hr hfin
  · exact deaf_never_finishes (deaf_of_close (fileInv_run (by decide)
      (rfl : run step (makefile [ascii "he", ascii "llo"]) [.deliver, .close] = some _)) rfl rfl rfl) hr

end TlsFile

end Fizzpy
