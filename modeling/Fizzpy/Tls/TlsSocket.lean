import Fizzpy.Core.Delivery

/-!
# The socket view

`TlsSocket` over the native connection: `recv`, its callers `recv_into` and `readinto`, and `close`.
`run_sync` blocks the one reader between the call and the settling of its promise, so a call is two
steps, with the loop thread's events in between. `results` lists what the calls returned or raised.
-/

namespace Fizzpy

open Foundation

/-- A call that reads. -/
inductive ReadCall
  | recv (bufsize : ℕ)
  | recvInto (buffer : Bytes) (nbytes : ℕ)
  /-- `_TlsRawIO.readinto`. -/
  | readinto (buffer : Bytes)
  deriving DecidableEq

/-- What a call returns: bytes, or the filled buffer and a count. -/
inductive Returned
  | bytes (data : Bytes)
  | filled (buffer : Bytes) (n : ℕ)
  deriving DecidableEq

/-- The bytes a call handed out. -/
def Returned.data : Returned → Bytes
  | bytes data => data
  | filled buffer n => buffer.take n

namespace ReadCall

/-- The size passed to `recv`. -/
def size : ReadCall → ℕ
  | recv bufsize => bufsize
  | recvInto buffer nbytes => if nbytes = 0 then buffer.length else nbytes
  | readinto buffer => buffer.length

/-- What is made of the bytes `recv` returned. -/
def finish : ReadCall → Bytes → Returned
  | recv _, data => .bytes data
  | recvInto buffer _, data => .filled (data ++ buffer.drop data.length) data.length
  | readinto buffer, data => .filled (data ++ buffer.drop data.length) data.length

/-- Something is asked for, and it fits. -/
def Valid : ReadCall → Prop
  | recv bufsize => 1 ≤ bufsize
  | recvInto buffer nbytes => buffer ≠ [] ∧ nbytes ≤ buffer.length
  | readinto buffer => buffer ≠ []

instance (call : ReadCall) : Decidable call.Valid := by
  cases call <;> unfold Valid <;> infer_instance

theorem data_finish (call : ReadCall) (data : Bytes) : (call.finish data).data = data := by
  cases call <;> simp [finish, Returned.data]

theorem Valid.size_pos {call : ReadCall} (h : call.Valid) : 0 < call.size := by
  cases call with
  | recv bufsize => exact h
  | recvInto buffer nbytes =>
    have := List.length_pos_of_ne_nil h.1
    show 0 < if nbytes = 0 then buffer.length else nbytes
    split_ifs <;> omega
  | readinto buffer => exact List.length_pos_of_ne_nil h

end ReadCall

structure ReadResult where
  call : ReadCall
  outcome : Except CoreError Returned
  deriving DecidableEq

/-- The bytes of a result; an exception has none. -/
def ReadResult.data (r : ReadResult) : Bytes :=
  match r.outcome with
  | .ok ret => ret.data
  | .error _ => []

/-- The one reader: outside a call, or blocked in `run_sync` on a promise. -/
inductive Reader
  | idle
  | waiting (call : ReadCall) (promise : ℕ)
  deriving DecidableEq

structure TlsSocket where
  conn : TlsConnection
  rbuf : Bytes := []
  eof : Bool := false
  closed : Bool := false
  reader : Reader := .idle
  results : List ReadResult := []
  deriving DecidableEq

namespace TlsSocket

/-- `wrap_socket`: the handshake is done and nothing was received. -/
def wrapped : TlsSocket := { conn := { client := some .opened } }

def finish (call : ReadCall) (data : Bytes) (s : TlsSocket) : TlsSocket :=
  { s with reader := .idle, results := s.results ++ [⟨call, .ok (call.finish data)⟩] }

def fail (call : ReadCall) (error : CoreError) (s : TlsSocket) : TlsSocket :=
  { s with reader := .idle, results := s.results ++ [⟨call, .error error⟩] }

/-- `out, self._rbuf = chunk[:bufsize], chunk[bufsize:]`. -/
def slice (call : ReadCall) (chunk : Bytes) (s : TlsSocket) : TlsSocket :=
  finish call (chunk.take call.size) { s with rbuf := chunk.drop call.size }

/-- `recv` up to the native read. -/
def call (c : ReadCall) (timeoutMs : ℕ) (s : TlsSocket) : Option TlsSocket :=
  if s.rbuf ≠ [] then some (slice c s.rbuf s)
  else if s.eof then some (finish c [] s)
  else
    (s.conn.step (.read timeoutMs)).map fun conn =>
      { s with conn, reader := .waiting c s.conn.reads }

/-- `recv` from the settled promise on. -/
def resume (c : ReadCall) (a : Answer) (s : TlsSocket) : TlsSocket :=
  match a with
  | .resolve chunk => if chunk = [] then finish c [] { s with eof := true } else slice c chunk s
  | .reject error => fail c error s

def close (s : TlsSocket) : TlsSocket :=
  if s.closed then s else { s with closed := true, conn := s.conn.submit .close }

inductive Event
  | call (c : ReadCall) (timeoutMs : ℕ)
  /-- The reader wakes up. -/
  | resume
  | close
  /-- An event of the loop thread. -/
  | loop (e : TlsConnection.Event)
  deriving DecidableEq

/-- The events that do not come from a call on the connection. -/
def onLoop : TlsConnection.Event → Bool
  | .connect | .read _ | .close => false
  | _ => true

def step (s : TlsSocket) : Event → Option TlsSocket
  | .call c timeoutMs => if s.reader = .idle then s.call c timeoutMs else none
  | .resume =>
    match s.reader with
    | .waiting c p => (s.conn.settled.lookup p).map fun a => s.resume c a
    | .idle => none
  | .close => some s.close
  | .loop e => if onLoop e then (s.conn.step e).map fun conn => { s with conn } else none

/-! ## Where the bytes are -/

/-- All bytes returned so far. -/
def returned (s : TlsSocket) : Bytes := s.results.flatMap ReadResult.data

/-- The answer the reader will wake up to. -/
def answer? (s : TlsSocket) : Option Answer :=
  match s.reader with
  | .waiting _ p => s.conn.settled.lookup p
  | .idle => none

/-- The chunk a promise was resolved with, before the reader has picked it up. -/
def inFlight (s : TlsSocket) : Bytes := s.answer?.elim [] Answer.data

/-- The buffers delivered to `readBufferAvailable`, in order. -/
def delivered (es : List Event) : Bytes :=
  es.flatMap fun
    | .loop (.readBufferAvailable buf) => buf.getD []
    | _ => []

/-- Reads ask for something, and buffers are not empty. -/
def Event.Valid : Event → Prop
  | .call c _ => c.Valid
  | .loop (.readBufferAvailable buf) => buf.getD [] ≠ []
  | _ => True

instance (e : Event) : Decidable e.Valid := by
  unfold Event.Valid
  split <;> infer_instance

/-! ## The reader and its promise -/

/-- The reader waits for the one outstanding read, or for one that is settled. -/
structure Synced (s : TlsSocket) : Prop where
  inv : s.conn.ReadInv
  idle : s.reader = .idle → s.conn.outstanding = []
  waiting : ∀ c p, s.reader = .waiting c p → s.rbuf = [] ∧ s.eof = false ∧
    (s.conn.outstanding = [p] ∧ s.answer? = none ∨ s.conn.outstanding = [] ∧ s.answer? ≠ none)

theorem lookup_eq_none {l : List (ℕ × Answer)} {p : ℕ} (h : p ∉ l.map Prod.fst) :
    l.lookup p = none := by
  rw [List.lookup_eq_none_iff]
  intro x hx
  have : p ≠ x.1 := fun hp => h (List.mem_map.mpr ⟨x, hx, hp.symm⟩)
  simpa using this

/-- An outstanding read is not among the settled ones. -/
theorem lookup_outstanding {c : TlsConnection} (h : c.ReadInv) {p : ℕ} (hp : c.outstanding = [p]) :
    c.settled.lookup p = none := by
  have hnodup := h.once.nodup_iff.mpr List.nodup_range
  exact lookup_eq_none fun hmem =>
    List.disjoint_of_nodup_append hnodup hmem (by rw [hp]; exact List.mem_singleton_self p)

/-- An event on the connection settles the promise the reader waits for, or none. -/
theorem synced_conn {s : TlsSocket} {e : TlsConnection.Event} {conn : TlsConnection}
    (h : Synced s) (hs : s.conn.Handled e conn) :
    (s.conn.settlement e = none ∧ { s with conn := conn }.answer? = s.answer? ∧
      conn.outstanding = s.conn.outstanding) ∨
    ∃ c p a, s.reader = .waiting c p ∧ s.conn.settlement e = some (p, a) ∧ s.answer? = none ∧
      { s with conn := conn }.answer? = some a ∧ conn.outstanding = [] := by
  cases hset : s.conn.settlement e with
  | none =>
    refine .inl ⟨rfl, ?_, by rw [hs.outstanding, hset]; rfl⟩
    unfold answer?
    dsimp only
    rw [hs.settled, hset, Option.toList_none, List.append_nil]
  | some x =>
    obtain ⟨p, a⟩ := x
    have hwas := hs.was p a hset
    refine .inr ?_
    cases hr : s.reader with
    | idle =>
      have := h.idle hr
      rw [hwas] at this
      cases this
    | waiting c q =>
      obtain ⟨-, -, ⟨hq, hans⟩ | ⟨hq, -⟩⟩ := h.waiting c q hr
      · rw [hwas, List.singleton_inj] at hq
        subst hq
        have hnone := lookup_outstanding h.inv hwas
        refine ⟨c, p, a, rfl, rfl, hans, ?_, by rw [hs.outstanding, hset]; rfl⟩
        unfold answer?
        simp [hs.settled, hset, List.lookup_append, hnone]
      · rw [hwas] at hq
        cases hq

theorem synced_wrapped : Synced wrapped where
  inv := TlsConnection.readInv_run (rfl : run _ _ [.connect, .runTask, .connectSuccess] = some _)
  idle _ := rfl
  waiting c p h := by cases h

theorem synced_of_handled {s : TlsSocket} {e : TlsConnection.Event} {conn : TlsConnection}
    (h : Synced s) (hc : conn.ReadInv) (hs : s.conn.Handled e conn) :
    Synced { s with conn := conn } := by
  obtain ⟨-, hans, ho⟩ | ⟨c, p, a, hr, -, -, hans, ho⟩ := synced_conn h hs
  · refine ⟨hc, fun hr => ho.trans (h.idle hr), fun c p hr => ?_⟩
    rw [hans, ho]
    exact h.waiting c p hr
  · refine ⟨hc, fun hr' => ho, fun c' p' hr' => ?_⟩
    obtain ⟨hb, he, -⟩ := h.waiting c p hr
    exact ⟨hb, he, .inr ⟨ho, by rw [hans]; exact Option.some_ne_none a⟩⟩

theorem handled_close {c : TlsConnection} (h : c.ReadInv) : c.Handled .close (c.submit .close) :=
  TlsConnection.handled_step h (fun _ h => by cases h) rfl

/-- The call is answered at once, or a read is submitted. -/
theorem call_cases {s s' : TlsSocket} {c : ReadCall} {timeoutMs : ℕ} (h : Synced s)
    (hs : s.call c timeoutMs = some s') :
    (s.rbuf ≠ [] ∧ s' = slice c s.rbuf s) ∨
    (s.rbuf = [] ∧ s.eof = true ∧ s' = finish c [] s) ∨
    (s.rbuf = [] ∧ s.eof = false ∧ ∃ p conn, s' = { s with conn := conn, reader := .waiting c p } ∧
      conn.ReadInv ∧ conn.outstanding = [p] ∧ conn.settled.lookup p = none ∧
      conn.buffer = s.conn.buffer ∧ conn.eof = s.conn.eof ∧ conn.readErr = s.conn.readErr ∧
      conn.settled = s.conn.settled) := by
  unfold call at hs
  by_cases hb : s.rbuf = []
  · rw [if_neg (not_not.mpr hb)] at hs
    by_cases he : s.eof = true
    · rw [if_pos he] at hs
      exact .inr (.inl ⟨hb, he, (Option.some.inj hs).symm⟩)
    · rw [if_neg he, Option.map_eq_some_iff] at hs
      obtain ⟨conn, hconn, rfl⟩ := hs
      obtain ⟨-, hsub, ho⟩ := TlsConnection.step_read hconn
      have hinv := TlsConnection.readInv_step h.inv hconn
      refine .inr (.inr ⟨hb, by simpa using he, _, conn, rfl, hinv, ho, lookup_outstanding hinv ho, ?_⟩)
      rw [hsub]
      exact ⟨rfl, rfl, rfl, rfl⟩
  · rw [if_pos hb] at hs
    exact .inl ⟨hb, (Option.some.inj hs).symm⟩

/-- A reader that wakes up has its answer. -/
theorem resume_cases {s s' : TlsSocket} (h : Synced s) (hs : s.step .resume = some s') :
    ∃ c p a, s.reader = .waiting c p ∧ s.answer? = some a ∧ s' = s.resume c a ∧ s.rbuf = [] ∧
      s.eof = false ∧ s.conn.outstanding = [] := by
  simp only [step] at hs
  split at hs
  · rename_i c p hr
    rw [Option.map_eq_some_iff] at hs
    obtain ⟨a, ha, rfl⟩ := hs
    have hans : s.answer? = some a := by unfold answer?; rw [hr]; exact ha
    obtain ⟨hb, he, ⟨-, hno⟩ | ⟨ho, -⟩⟩ := h.waiting c p hr
    · rw [hans] at hno
      cases hno
    · exact ⟨c, p, a, hr, hans, rfl, hb, he, ho⟩
  · cases hs

theorem step_loop {s s' : TlsSocket} {e : TlsConnection.Event} (h : Synced s)
    (hs : s.step (.loop e) = some s') :
    ∃ conn, s' = { s with conn := conn } ∧ s.conn.step e = some conn ∧ s.conn.Handled e conn := by
  simp only [step] at hs
  split_ifs at hs with he
  obtain ⟨conn, hconn, rfl⟩ := Option.map_eq_some_iff.mp hs
  exact ⟨conn, rfl, hconn, TlsConnection.handled_step h.inv (fun ms hms => by subst hms; cases he) hconn⟩

theorem synced_step {s s' : TlsSocket} {e : Event} (h : Synced s) (hs : s.step e = some s') :
    Synced s' := by
  cases e with
  | call c timeoutMs =>
    simp only [step] at hs
    split_ifs at hs with hr
    have hidle := h.idle hr
    obtain ⟨-, rfl⟩ | ⟨-, -, rfl⟩ | ⟨hb, he, p, conn, rfl, hinv, ho, hl, -⟩ := call_cases h hs
    · exact ⟨h.inv, fun _ => hidle, fun c p hr' => by cases hr'⟩
    · exact ⟨h.inv, fun _ => hidle, fun c p hr' => by cases hr'⟩
    · refine ⟨hinv, fun hr' => (by cases hr'), fun c' p' hr' => ?_⟩
      cases hr'
      exact ⟨hb, he, .inl ⟨ho, hl⟩⟩
  | resume =>
    obtain ⟨c, p, a, -, -, rfl, -, -, ho⟩ := resume_cases h hs
    unfold resume
    split
    · split_ifs
      · exact ⟨h.inv, fun _ => ho, fun c p hr' => by cases hr'⟩
      · exact ⟨h.inv, fun _ => ho, fun c p hr' => by cases hr'⟩
    · exact ⟨h.inv, fun _ => ho, fun c p hr' => by cases hr'⟩
  | close =>
    cases hs
    unfold close
    split_ifs
    · exact h
    · have hinv := TlsConnection.readInv_step h.inv (e := .close) rfl
      obtain ⟨hi, hidle, hwait⟩ := synced_of_handled h hinv (handled_close h.inv)
      exact ⟨hi, hidle, hwait⟩
  | loop e =>
    obtain ⟨conn, rfl, hconn, hhandled⟩ := step_loop h hs
    exact synced_of_handled h (TlsConnection.readInv_step h.inv hconn) hhandled

end TlsSocket

end Fizzpy
