import Fizzpy.Core.Delivery

/-!
# Callbacks that may not throw

The loop thread of a `TlsConnection` with what its promises run: a call of `resolve` or `reject` is a
call into Python and may raise. The callbacks of the transport are `noexcept`, so an exception that
leaves one ends the process (`Fate.terminated`). The error callbacks and the timer contain it; the
others do not, and `contained_iff` says what that comes to. What the connection itself does is
`TlsConnection` (`conn_step`).
-/

namespace Fizzpy

open Foundation

/-- A Python exception, on the C++ side `py::error_already_set`. -/
structure PyError where
  name : Str
  text : Str
  deriving DecidableEq

/-- A lambda queued for the loop thread, the arguments it does not need for settling left out. -/
inductive LoopTask
  | connect
  | wrapFd
  | write
  | read (promise timeoutMs : ℕ)
  | close
  deriving DecidableEq

inductive Fate
  | running
  /-- `std::terminate`: an exception has come to a `noexcept` frame. -/
  | terminated (e : PyError)
  /-- An exception has left a lambda, into the loop of folly. -/
  | thrown (e : PyError)
  deriving DecidableEq

/-- `connectCbs`, `handshakeCbs` and `writeCbs` count the callback objects that wait for their call,
and `unraisable` is what `discard_as_unraisable` has reported. -/
structure LoopThread where
  conn : TlsConnection := {}
  tasks : List LoopTask := []
  connectCbs : ℕ := 0
  handshakeCbs : ℕ := 0
  writeCbs : ℕ := 0
  unraisable : List PyError := []
  fate : Fate := .running
  deriving DecidableEq

/-- Native code on the loop thread, which keeps what it has done when it throws. -/
abbrev Native := EStateM PyError LoopThread PUnit

namespace LoopThread

def init : LoopThread := {}

/-! ## Settling -/

/-- A call of `resolve` or `reject`, the building of its argument included. -/
def python (raises : Option PyError) : Native :=
  match raises with
  | some e => throw e
  | none => pure ⟨⟩

def onConn (f : TlsConnection → TlsConnection) : Native := modify fun l => { l with conn := f l.conn }

def resolveBytes (p : ℕ) (data : Bytes) (raises : Option PyError) : Native := do
  onConn (TlsConnection.resolveBytes p data)
  python raises

/-- The promise is that of a read, with its number, or another one. -/
def rejectOnLoop (p : Option ℕ) (msg : Str) (raises : Option PyError) : Native := do
  match p with
  | some p => onConn (TlsConnection.rejectOnLoop p msg)
  | none => pure ⟨⟩
  python raises

def fulfillRead (p : ℕ) (raises : Option PyError) : Native := do
  let out := (← get).conn.buffer.flatten
  onConn fun c => { c with buffer := [] }
  resolveBytes p out raises

/-- `try` with both its handlers: a Python exception is reported. -/
def contained (m : Native) : Native :=
  tryCatch m fun e => modify fun l => { l with unraisable := l.unraisable ++ [e] }

/-! ## The lambdas -/

/-- The lambda of `connect`. What comes before the connect may fail. -/
def runConnect (fails : Option Str) (raises : Option PyError) : Native :=
  match fails with
  | some what => rejectOnLoop none (str "connect failed: " ++ what) raises
  | none => modify fun l =>
    { l with conn := { l.conn with client := some .connecting }, connectCbs := l.connectCbs + 1 }

/-- The lambda of `wrapFd`. -/
def runWrapFd (fails : Option Str) (raises : Option PyError) : Native :=
  match fails with
  | some what => rejectOnLoop none (str "wrap failed: " ++ what) raises
  | none => modify fun l =>
    { l with conn := { l.conn with client := some .connecting }, handshakeCbs := l.handshakeCbs + 1 }

/-- The lambda of `write`; `good` is what the client says of itself. -/
def runWrite (good : Bool) (raises : Option PyError) : Native := do
  if (← get).conn.client = none ∨ good = false then
    rejectOnLoop none (str "connection not open") raises
  else modify fun l => { l with writeCbs := l.writeCbs + 1 }

/-- The lambda of `read`. -/
def runRead (p timeoutMs : ℕ) (raises : Option PyError) : Native := do
  let c := (← get).conn
  if c.buffer ≠ [] then fulfillRead p raises
  else
    match c.readErr with
    | some msg => rejectOnLoop (some p) msg raises
    | none =>
      if c.eof then resolveBytes p [] raises
      else do
        onConn fun c => { c with pendingRead := some p }
        if 0 < timeoutMs then onConn (TlsConnection.armReadTimeout timeoutMs) else pure ⟨⟩

def runTask (t : LoopTask) (fails : Option Str) (good : Bool) (raises : Option PyError) : Native :=
  match t with
  | .connect => runConnect fails raises
  | .wrapFd => runWrapFd fails raises
  | .write => runWrite good raises
  | .read p timeoutMs => runRead p timeoutMs raises
  | .close => onConn TlsConnection.runClose

/-! ## The callbacks -/

/-- `delete this`, of each kind of callback object. -/
def dropConnectCb : Native := modify fun l => { l with connectCbs := l.connectCbs - 1 }

def dropHandshakeCb : Native := modify fun l => { l with handshakeCbs := l.handshakeCbs - 1 }

def dropWriteCb : Native := modify fun l => { l with writeCbs := l.writeCbs - 1 }

/-- `setReadCB(conn)`. -/
def setReadCB : Native := onConn fun c => { c with client := some .opened }

def connectSuccess (raises : Option PyError) : Native := do
  setReadCB
  python raises
  dropConnectCb

def connectErr (raises : Option PyError) : Native := do
  contained (python raises)
  dropConnectCb

def fizzHandshakeSuccess (raises : Option PyError) : Native := do
  setReadCB
  python raises
  dropHandshakeCb

def fizzHandshakeError (raises : Option PyError) : Native := do
  contained (python raises)
  dropHandshakeCb

def writeSuccess (raises : Option PyError) : Native := do
  python raises
  dropWriteCb

def writeErr (raises : Option PyError) : Native := do
  contained (python raises)
  dropWriteCb

def readBufferAvailable (buf : Option Bytes) (raises : Option PyError) : Native := do
  onConn fun c => { c with buffer := c.buffer ++ buf.toList }
  match (← get).conn.pendingRead with
  | some p => do
    onConn TlsConnection.takePendingRead
    fulfillRead p raises
  | none => pure ⟨⟩

def readEOF (raises : Option PyError) : Native := do
  onConn fun c => { c with eof := true }
  match (← get).conn.pendingRead with
  | some p => do
    onConn TlsConnection.takePendingRead
    resolveBytes p [] raises
  | none => pure ⟨⟩

/-- The callback `readErr`. -/
def onReadErr (what : Str) (raises : Option PyError) : Native := do
  let msg := TlsConnection.readErrMessage what
  onConn fun c => { c with readErr := some msg }
  match (← get).conn.pendingRead with
  | some p => do
    onConn TlsConnection.takePendingRead
    rejectOnLoop (some p) msg raises
  | none => pure ⟨⟩

/-- The timer has fired, so it is no longer scheduled. -/
def onReadTimeout (raises : Option PyError) : Native := do
  onConn fun c => { c with readTimeout := c.readTimeout.map AsyncTimeout.cancelTimeout }
  match (← get).conn.pendingRead with
  | some p => do
    onConn fun c => { c with pendingRead := none }
    contained do
      onConn (TlsConnection.settle p (.reject (.timeout (str "read timed out"))))
      python raises
  | none => pure ⟨⟩

/-! ## Events -/

/-- A frame on the loop thread, and the fate in which an exception that comes to it ends. -/
def frame (ends : PyError → Fate) (m : Native) (l : LoopThread) : LoopThread :=
  match m l with
  | .ok _ l => l
  | .error e l => { l with fate := ends e }

/-- A function declared `noexcept`. -/
def noexcept (m : Native) (l : LoopThread) : LoopThread := frame .terminated m l

/-- A lambda that the loop runs. -/
def lambda (m : Native) (l : LoopThread) : LoopThread := frame .thrown m l

/-- `raises` is what the call into Python raises, if the event makes one. -/
inductive Event
  /-- The calls from Python, which queue a lambda. -/
  | connect
  | wrapFd
  | write
  | read (timeoutMs : ℕ)
  | close
  /-- The loop runs the next lambda. -/
  | runTask (fails : Option Str) (good : Bool) (raises : Option PyError)
  /-- The transport calls back. -/
  | connectSuccess (raises : Option PyError)
  | connectErr (raises : Option PyError)
  | fizzHandshakeSuccess (raises : Option PyError)
  | fizzHandshakeError (raises : Option PyError)
  | writeSuccess (raises : Option PyError)
  | writeErr (raises : Option PyError)
  | readBufferAvailable (buf : Option Bytes) (raises : Option PyError)
  | readEOF (raises : Option PyError)
  | readErr (what : Str) (raises : Option PyError)
  /-- The deadline has passed. -/
  | readTimeout (raises : Option PyError)
  deriving DecidableEq

/-- What `call_soon_threadsafe` raises, called by the `resolve` and `reject` of `run_async`. -/
def callSoonThreadsafe (closed : Bool) : Option PyError :=
  if closed then some ⟨str "RuntimeError", str "Event loop is closed"⟩ else none

def submit (t : LoopTask) (l : LoopThread) : LoopThread := { l with tasks := l.tasks ++ [t] }

/-- A callback is called, if it can be. -/
def callback (enabled : Prop) [Decidable enabled] (m : Native) (l : LoopThread) : Option LoopThread :=
  if enabled then some (noexcept m l) else none

def stepRunning (l : LoopThread) : Event → Option LoopThread
  | .connect => some (l.submit .connect)
  | .wrapFd => some (l.submit .wrapFd)
  | .write => some (l.submit .write)
  | .read timeoutMs =>
    some (submit (.read l.conn.reads timeoutMs)
      { l with conn := { l.conn with reads := l.conn.reads + 1 } })
  | .close => some (l.submit .close)
  | .runTask fails good raises =>
    match l.tasks with
    | t :: ts => some (lambda (runTask t fails good raises) { l with tasks := ts })
    | [] => none
  | .connectSuccess raises =>
    callback (l.conn.client = some .connecting ∧ 0 < l.connectCbs) (connectSuccess raises) l
  | .connectErr raises => callback (0 < l.connectCbs) (connectErr raises) l
  | .fizzHandshakeSuccess raises =>
    callback (l.conn.client = some .connecting ∧ 0 < l.handshakeCbs) (fizzHandshakeSuccess raises) l
  | .fizzHandshakeError raises => callback (0 < l.handshakeCbs) (fizzHandshakeError raises) l
  | .writeSuccess raises => callback (0 < l.writeCbs) (writeSuccess raises) l
  | .writeErr raises => callback (0 < l.writeCbs) (writeErr raises) l
  | .readBufferAvailable buf raises => callback l.conn.listening (readBufferAvailable buf raises) l
  | .readEOF raises => callback l.conn.listening (readEOF raises) l
  | .readErr what raises => callback l.conn.listening (onReadErr what raises) l
  | .readTimeout raises => callback (l.conn.deadline.isSome = true) (onReadTimeout raises) l

/-- One event, while the loop runs. -/
def step (l : LoopThread) (e : Event) : Option LoopThread :=
  if l.fate = .running then stepRunning l e else none

/-! ## What a program does in its frame -/

def report (raises : Option PyError) (l : LoopThread) : LoopThread :=
  { l with unraisable := l.unraisable ++ raises.toList }

section

variable (ends : PyError → Fate) (l : LoopThread) (raises : Option PyError)

/-- Without a handler, what is raised comes to the frame. -/
theorem frame_python : frame ends (python raises) l =
    { l with fate := raises.elim l.fate ends } := by
  cases raises with
  | none => rfl
  | some e => rfl

theorem frame_python_then (f : LoopThread → LoopThread) :
    frame ends (do python raises; modify f) l =
      raises.elim (f l) fun e => { l with fate := ends e } := by
  cases raises with
  | none => rfl
  | some e => rfl

theorem report_none : l.report none = l := by rw [report, Option.toList_none, List.append_nil]

/-- With both handlers, the program goes on. -/
theorem frame_contained_then (m : Native) : frame ends (do contained (python raises); m) l =
    frame ends m (l.report raises) := by
  cases raises with
  | none => rw [report_none]; rfl
  | some e => rfl

theorem frame_get_then (k : LoopThread → Native) :
    frame ends (do k (← get)) l = frame ends (k l) l := rfl

/-- The lambda of `write` rejects on a connection that is not open. -/
theorem frame_runWrite (good : Bool) : frame ends (runWrite good raises) l =
    if l.conn.client = none ∨ good = false then { l with fate := raises.elim l.fate ends }
    else { l with writeCbs := l.writeCbs + 1 } := by
  unfold runWrite
  rw [frame_get_then]
  by_cases h : l.conn.client = none ∨ good = false
  · rw [if_pos h, if_pos h]
    exact frame_python ends l raises
  · rw [if_neg h, if_neg h]
    rfl

theorem frame_resolveBytes (p : ℕ) (data : Bytes) : frame ends (resolveBytes p data raises) l =
    { l with conn := l.conn.resolveBytes p data, fate := raises.elim l.fate ends } :=
  frame_python ends { l with conn := l.conn.resolveBytes p data } raises

theorem frame_fulfillRead (p : ℕ) : frame ends (fulfillRead p raises) l =
    { l with conn := l.conn.fulfillRead p, fate := raises.elim l.fate ends } :=
  frame_python ends { l with conn := l.conn.fulfillRead p } raises

theorem frame_rejectOnLoop (p : ℕ) (msg : Str) : frame ends (rejectOnLoop (some p) msg raises) l =
    { l with conn := l.conn.rejectOnLoop p msg, fate := raises.elim l.fate ends } :=
  frame_python ends { l with conn := l.conn.rejectOnLoop p msg } raises

/-- The lambda of `read` calls Python when an answer is there. -/
theorem frame_runRead (p timeoutMs : ℕ) : frame ends (runRead p timeoutMs raises) l =
    { l with
      conn := l.conn.runRead p timeoutMs
      fate := if l.conn.Unanswered then l.fate else raises.elim l.fate ends } := by
  by_cases hu : l.conn.Unanswered
  · rw [if_pos hu]
    obtain ⟨⟨client, buffer, pendingRead, readTimeout, eof, readErr⟩⟩ := l
    obtain ⟨hb, he, hr⟩ := hu
    cases hb
    cases he
    cases hr
    cases timeoutMs with
    | zero => rfl
    | succ n => rfl
  · rw [if_neg hu]
    obtain ⟨⟨client, buffer, pendingRead, readTimeout, eof, readErr⟩⟩ := l
    cases buffer with
    | cons chunk chunks => exact frame_fulfillRead ends _ raises p
    | nil =>
      cases readErr with
      | some msg => exact frame_rejectOnLoop ends _ raises p msg
      | none =>
        cases eof with
        | true => exact frame_resolveBytes ends _ raises p []
        | false => exact absurd ⟨rfl, rfl, rfl⟩ hu

/-! ### The callbacks -/

/-- The callback object is left behind when the call raises. -/
theorem frame_connectSuccess : frame ends (connectSuccess raises) l =
    let l := { l with conn := { l.conn with client := some .opened } }
    raises.elim { l with connectCbs := l.connectCbs - 1 } fun e => { l with fate := ends e } :=
  frame_python_then ends _ raises _

theorem frame_fizzHandshakeSuccess : frame ends (fizzHandshakeSuccess raises) l =
    let l := { l with conn := { l.conn with client := some .opened } }
    raises.elim { l with handshakeCbs := l.handshakeCbs - 1 } fun e => { l with fate := ends e } :=
  frame_python_then ends _ raises _

theorem frame_writeSuccess : frame ends (writeSuccess raises) l =
    raises.elim { l with writeCbs := l.writeCbs - 1 } fun e => { l with fate := ends e } :=
  frame_python_then ends l raises _

theorem frame_connectErr : frame ends (connectErr raises) l =
    { l.report raises with connectCbs := l.connectCbs - 1 } :=
  frame_contained_then ends l raises _

theorem frame_fizzHandshakeError : frame ends (fizzHandshakeError raises) l =
    { l.report raises with handshakeCbs := l.handshakeCbs - 1 } :=
  frame_contained_then ends l raises _

theorem frame_writeErr : frame ends (writeErr raises) l =
    { l.report raises with writeCbs := l.writeCbs - 1 } :=
  frame_contained_then ends l raises _

theorem frame_readBufferAvailable (buf : Option Bytes) : frame ends (readBufferAvailable buf raises) l =
    { l with
      conn := l.conn.readBufferAvailable buf
      fate := if l.conn.pendingRead = none then l.fate else raises.elim l.fate ends } := by
  obtain ⟨⟨client, buffer, pendingRead⟩⟩ := l
  cases pendingRead with
  | none => rfl
  | some p => cases raises <;> rfl

theorem frame_readEOF : frame ends (readEOF raises) l =
    { l with
      conn := l.conn.readEOF
      fate := if l.conn.pendingRead = none then l.fate else raises.elim l.fate ends } := by
  obtain ⟨⟨client, buffer, pendingRead⟩⟩ := l
  cases pendingRead with
  | none => rfl
  | some p => cases raises <;> rfl

theorem frame_onReadErr (what : Str) : frame ends (onReadErr what raises) l =
    { l with
      conn := l.conn.onReadErr what
      fate := if l.conn.pendingRead = none then l.fate else raises.elim l.fate ends } := by
  obtain ⟨⟨client, buffer, pendingRead⟩⟩ := l
  cases pendingRead with
  | none => rfl
  | some p => cases raises <;> rfl

/-- The timer has a handler. -/
theorem frame_onReadTimeout : frame ends (onReadTimeout raises) l =
    { l with
      conn := l.conn.onReadTimeout
      unraisable := l.unraisable ++ if l.conn.pendingRead = none then [] else raises.toList } := by
  obtain ⟨⟨client, buffer, pendingRead⟩⟩ := l
  cases pendingRead with
  | none => rw [if_pos rfl, List.append_nil]; rfl
  | some p =>
    cases raises with
    | none => rw [Option.toList_none, ite_self, List.append_nil]; rfl
    | some e => rfl

end

/-! ## What is let out -/

/-- What the call into Python raises. -/
def Event.raises : Event → Option PyError
  | .connect | .wrapFd | .write | .read _ | .close => none
  | .runTask _ _ raises => raises
  | .connectSuccess raises | .connectErr raises => raises
  | .fizzHandshakeSuccess raises | .fizzHandshakeError raises => raises
  | .writeSuccess raises | .writeErr raises => raises
  | .readBufferAvailable _ raises | .readEOF raises | .readErr _ raises => raises
  | .readTimeout raises => raises

/-- The event, had nothing been raised. -/
def Event.quiet : Event → Event
  | .runTask fails good _ => .runTask fails good none
  | .connectSuccess _ => .connectSuccess none
  | .connectErr _ => .connectErr none
  | .fizzHandshakeSuccess _ => .fizzHandshakeSuccess none
  | .fizzHandshakeError _ => .fizzHandshakeError none
  | .writeSuccess _ => .writeSuccess none
  | .writeErr _ => .writeErr none
  | .readBufferAvailable buf _ => .readBufferAvailable buf none
  | .readEOF _ => .readEOF none
  | .readErr what _ => .readErr what none
  | .readTimeout _ => .readTimeout none
  | e => e

/-- A callback settles a promise with no handler around the call. -/
def Unguarded (l : LoopThread) : Event → Prop
  | .connectSuccess _ | .fizzHandshakeSuccess _ | .writeSuccess _ => True
  | .readBufferAvailable _ _ | .readEOF _ | .readErr _ _ => l.conn.pendingRead ≠ none
  | _ => False

/-- Nothing is raised where it is not contained. -/
def Calm (l : LoopThread) (e : Event) : Prop := l.Unguarded e → e.raises = none

/-- No callback has let an exception out. -/
def Contained (l : LoopThread) : Prop := ∀ e, l.fate ≠ .terminated e

/-- What is left when the reports are set aside. -/
def forget (l : LoopThread) : LoopThread := { l with unraisable := [] }

theorem step_eq_some {l l' : LoopThread} {e : Event} (hs : step l e = some l') :
    l.fate = .running ∧ stepRunning l e = some l' := by
  unfold step at hs
  split_ifs at hs with hl
  exact ⟨hl, hs⟩

theorem callback_eq_some {enabled : Prop} [Decidable enabled] {m : Native} {l l' : LoopThread}
    (h : callback enabled m l = some l') : enabled ∧ frame .terminated m l = l' := by
  unfold callback at h
  split_ifs at h with hc
  exact ⟨hc, Option.some.inj h⟩

theorem contained_of_running {l : LoopThread} (h : l.fate = .running) : l.Contained := by
  intro e he
  rw [h] at he
  cases he

/-- A call with no handler around it is contained if nothing is raised. -/
theorem contained_elim_iff {l : LoopThread} {f : PyError → LoopThread} {raises : Option PyError}
    (h : l.fate = .running) (hf : ∀ e, (f e).fate = .terminated e) :
    (raises.elim l f).Contained ↔ raises = none := by
  cases raises with
  | none => exact iff_of_true (contained_of_running h) rfl
  | some e => exact iff_of_false (fun hl => hl e (hf e)) fun h => by cases h

/-- So it is where a parked read is what the callback settles. -/
theorem contained_parked_iff {l : LoopThread} {parked : Option ℕ} {raises : Option PyError}
    (h : l.fate = .running) : Contained
      { l with fate := if parked = none then l.fate else raises.elim l.fate .terminated } ↔
        (parked ≠ none → raises = none) := by
  by_cases hp : parked = none
  · rw [if_pos hp]
    exact iff_of_true (contained_of_running h) fun hn => absurd hp hn
  · rw [if_neg hp, imp_iff_right hp]
    cases raises with
    | none => exact iff_of_true (contained_of_running h) rfl
    | some e => exact iff_of_false (fun hl => hl e rfl) fun h => by cases h

/-- A lambda does what it does with nothing raised, or lets what is raised out into the loop. -/
theorem lambda_runTask (t : LoopTask) (fails : Option Str) (good : Bool) (raises : Option PyError)
    (l : LoopThread) :
    lambda (runTask t fails good raises) l = lambda (runTask t fails good none) l ∨
      ∃ e, (lambda (runTask t fails good raises) l).fate = .thrown e := by
  cases raises with
  | none => exact .inl rfl
  | some e =>
    cases t with
    | connect =>
      cases fails with
      | none => exact .inl rfl
      | some what => exact .inr ⟨e, rfl⟩
    | wrapFd =>
      cases fails with
      | none => exact .inl rfl
      | some what => exact .inr ⟨e, rfl⟩
    | write =>
      unfold runTask lambda
      rw [frame_runWrite, frame_runWrite]
      split_ifs
      · exact .inr ⟨e, rfl⟩
      · exact .inl rfl
    | read p timeoutMs =>
      unfold runTask lambda
      rw [frame_runRead, frame_runRead]
      split_ifs
      · exact .inl rfl
      · exact .inr ⟨e, rfl⟩
    | close => exact .inl rfl

theorem lambda_runTask_none (t : LoopTask) (fails : Option Str) (good : Bool) (l : LoopThread) :
    (lambda (runTask t fails good none) l).fate = l.fate := by
  cases t with
  | connect => cases fails <;> rfl
  | wrapFd => cases fails <;> rfl
  | write =>
    unfold runTask lambda
    rw [frame_runWrite]
    split_ifs <;> rfl
  | read p timeoutMs =>
    unfold runTask lambda
    rw [frame_runRead]
    exact ite_self _
  | close => rfl

theorem stepRunning_runTask {l l' : LoopThread} {fails : Option Str} {good : Bool}
    {raises : Option PyError} (hs : stepRunning l (.runTask fails good raises) = some l') :
    ∃ t ts, l.tasks = t :: ts ∧ lambda (runTask t fails good raises) { l with tasks := ts } = l' := by
  unfold stepRunning at hs
  cases ht : l.tasks with
  | nil => rw [ht] at hs; cases hs
  | cons t ts =>
    rw [ht] at hs
    exact ⟨t, ts, rfl, Option.some.inj hs⟩

/-- **Step.** Exactly the callbacks that settle with no handler can let an exception out. -/
theorem step_contained {l l' : LoopThread} {e : Event} (hs : step l e = some l') :
    l'.Contained ↔ l.Calm e := by
  obtain ⟨hl, hs⟩ := step_eq_some hs
  cases e with
  | connect | wrapFd | write | read | close =>
    cases hs
    exact iff_of_true (contained_of_running hl) fun h => h.elim
  | runTask fails good raises =>
    obtain ⟨t, ts, -, rfl⟩ := stepRunning_runTask hs
    refine iff_of_true (fun e he => ?_) fun h => h.elim
    obtain hq | ⟨e', he'⟩ := lambda_runTask t fails good raises { l with tasks := ts }
    · rw [hq, lambda_runTask_none, hl] at he
      cases he
    · cases he'.symm.trans he
  | connectSuccess raises =>
    obtain ⟨-, rfl⟩ := callback_eq_some hs
    rw [frame_connectSuccess]
    exact (contained_elim_iff (by exact hl) fun _ => rfl).trans (imp_iff_right trivial).symm
  | fizzHandshakeSuccess raises =>
    obtain ⟨-, rfl⟩ := callback_eq_some hs
    rw [frame_fizzHandshakeSuccess]
    exact (contained_elim_iff (by exact hl) fun _ => rfl).trans (imp_iff_right trivial).symm
  | writeSuccess raises =>
    obtain ⟨-, rfl⟩ := callback_eq_some hs
    rw [frame_writeSuccess]
    exact (contained_elim_iff (by exact hl) fun _ => rfl).trans (imp_iff_right trivial).symm
  | readBufferAvailable buf raises =>
    obtain ⟨-, rfl⟩ := callback_eq_some hs
    rw [frame_readBufferAvailable]
    exact contained_parked_iff hl
  | readEOF raises =>
    obtain ⟨-, rfl⟩ := callback_eq_some hs
    rw [frame_readEOF]
    exact contained_parked_iff hl
  | readErr what raises =>
    obtain ⟨-, rfl⟩ := callback_eq_some hs
    rw [frame_onReadErr]
    exact contained_parked_iff hl
  | connectErr raises =>
    obtain ⟨-, rfl⟩ := callback_eq_some hs
    rw [frame_connectErr]
    exact iff_of_true (contained_of_running hl) fun h => h.elim
  | fizzHandshakeError raises =>
    obtain ⟨-, rfl⟩ := callback_eq_some hs
    rw [frame_fizzHandshakeError]
    exact iff_of_true (contained_of_running hl) fun h => h.elim
  | writeErr raises =>
    obtain ⟨-, rfl⟩ := callback_eq_some hs
    rw [frame_writeErr]
    exact iff_of_true (contained_of_running hl) fun h => h.elim
  | readTimeout raises =>
    obtain ⟨-, rfl⟩ := callback_eq_some hs
    rw [frame_onReadTimeout]
    exact iff_of_true (contained_of_running hl) fun h => h.elim

/-! ## What is left of it -/

/-- A lambda that raises nothing leaves the reports alone. -/
theorem lambda_runTask_forget (t : LoopTask) (fails : Option Str) (good : Bool) (l : LoopThread) :
    lambda (runTask t fails good none) l.forget = (lambda (runTask t fails good none) l).forget := by
  cases t with
  | connect => cases fails <;> rfl
  | wrapFd => cases fails <;> rfl
  | write =>
    unfold runTask lambda
    rw [frame_runWrite, frame_runWrite, apply_ite forget]
    rfl
  | read p timeoutMs =>
    unfold runTask lambda
    rw [frame_runRead, frame_runRead]
    rfl
  | close => rfl

/-- So does a callback that settles the parked read, where the loop runs on. -/
theorem forget_parked {l : LoopThread} {raises : Option PyError} (hl : l.fate = .running)
    (conn : TlsConnection) (hr : (if l.conn.pendingRead = none then l.fate
      else raises.elim l.fate .terminated) = .running) :
    { l.forget with
      conn := conn
      fate := if l.conn.pendingRead = none then l.fate else none.elim l.fate .terminated } =
      forget { l with
        conn := conn
        fate := if l.conn.pendingRead = none then l.fate
          else raises.elim l.fate .terminated } := by
  rw [hr, Option.elim_none, ite_self, hl]
  rfl

/-- While the loop runs on, what was raised is forgotten with its report. -/
theorem step_forget {l l' : LoopThread} {e : Event} (hs : step l e = some l')
    (hr : l'.fate = .running) : step l.forget e.quiet = some l'.forget := by
  obtain ⟨hl, hs⟩ := step_eq_some hs
  have hquiet : step l.forget e.quiet = stepRunning l.forget e.quiet := if_pos hl
  rw [hquiet]
  cases e with
  | connect | wrapFd | write | read | close =>
    cases hs
    rfl
  | runTask fails good raises =>
    obtain ⟨t, ts, ht, rfl⟩ := stepRunning_runTask hs
    obtain hn | ⟨e, he⟩ := lambda_runTask t fails good raises { l with tasks := ts }
    · rw [hn, ← lambda_runTask_forget]
      simp only [Event.quiet, stepRunning, forget, ht]
    · cases he.symm.trans hr
  | connectSuccess raises =>
    obtain ⟨henabled, rfl⟩ := callback_eq_some hs
    rw [frame_connectSuccess] at hr ⊢
    cases raises with
    | none => exact if_pos henabled
    | some e => cases hr
  | fizzHandshakeSuccess raises =>
    obtain ⟨henabled, rfl⟩ := callback_eq_some hs
    rw [frame_fizzHandshakeSuccess] at hr ⊢
    cases raises with
    | none => exact if_pos henabled
    | some e => cases hr
  | writeSuccess raises =>
    obtain ⟨henabled, rfl⟩ := callback_eq_some hs
    rw [frame_writeSuccess] at hr ⊢
    cases raises with
    | none => exact if_pos henabled
    | some e => cases hr
  | readBufferAvailable buf raises =>
    obtain ⟨henabled, rfl⟩ := callback_eq_some hs
    rw [frame_readBufferAvailable] at hr ⊢
    refine (if_pos henabled).trans (congrArg some ?_)
    rw [noexcept, frame_readBufferAvailable]
    exact forget_parked hl _ hr
  | readEOF raises =>
    obtain ⟨henabled, rfl⟩ := callback_eq_some hs
    rw [frame_readEOF] at hr ⊢
    refine (if_pos henabled).trans (congrArg some ?_)
    rw [noexcept, frame_readEOF]
    exact forget_parked hl _ hr
  | readErr what raises =>
    obtain ⟨henabled, rfl⟩ := callback_eq_some hs
    rw [frame_onReadErr] at hr ⊢
    refine (if_pos henabled).trans (congrArg some ?_)
    rw [noexcept, frame_onReadErr]
    exact forget_parked hl _ hr
  | connectErr raises =>
    obtain ⟨henabled, rfl⟩ := callback_eq_some hs
    rw [frame_connectErr]
    exact if_pos henabled
  | fizzHandshakeError raises =>
    obtain ⟨henabled, rfl⟩ := callback_eq_some hs
    rw [frame_fizzHandshakeError]
    exact if_pos henabled
  | writeErr raises =>
    obtain ⟨henabled, rfl⟩ := callback_eq_some hs
    rw [frame_writeErr]
    exact if_pos henabled
  | readTimeout raises =>
    obtain ⟨henabled, rfl⟩ := callback_eq_some hs
    rw [frame_onReadTimeout]
    refine (if_pos henabled).trans (congrArg some ?_)
    rw [noexcept, frame_onReadTimeout, Option.toList_none, ite_self]
    rfl

/-! ## What the connection does -/

/-- What the event is to the connection, where it is one of the read side. -/
def Event.conn? : Event → Option TlsConnection.Event
  | .connectSuccess _ | .fizzHandshakeSuccess _ => some .connectSuccess
  | .readBufferAvailable buf _ => some (.readBufferAvailable buf)
  | .readEOF _ => some .readEOF
  | .readErr what _ => some (.readErr what)
  | .readTimeout _ => some .readTimeout
  | _ => none

/-- A callback does to the connection what `TlsConnection` says, whether or not the call raises. -/
theorem conn_step {l l' : LoopThread} {e : Event} {e' : TlsConnection.Event}
    (hs : step l e = some l') (he : e.conn? = some e') :
    TlsConnection.step l.conn e' = some l'.conn := by
  obtain ⟨hl, hs⟩ := step_eq_some hs
  cases e with
  | connect | wrapFd | write | read | close | runTask | connectErr | fizzHandshakeError
    | writeSuccess | writeErr => cases he
  | connectSuccess raises =>
    cases he
    obtain ⟨henabled, rfl⟩ := callback_eq_some hs
    rw [frame_connectSuccess]
    refine (if_pos henabled.1).trans ?_
    cases raises <;> rfl
  | fizzHandshakeSuccess raises =>
    cases he
    obtain ⟨henabled, rfl⟩ := callback_eq_some hs
    rw [frame_fizzHandshakeSuccess]
    refine (if_pos henabled.1).trans ?_
    cases raises <;> rfl
  | readBufferAvailable buf raises =>
    cases he
    obtain ⟨henabled, rfl⟩ := callback_eq_some hs
    rw [frame_readBufferAvailable]
    exact if_pos henabled
  | readEOF raises =>
    cases he
    obtain ⟨henabled, rfl⟩ := callback_eq_some hs
    rw [frame_readEOF]
    exact if_pos henabled
  | readErr what raises =>
    cases he
    obtain ⟨henabled, rfl⟩ := callback_eq_some hs
    rw [frame_onReadErr]
    exact if_pos henabled
  | readTimeout raises =>
    cases he
    obtain ⟨henabled, rfl⟩ := callback_eq_some hs
    rw [frame_onReadTimeout]
    exact if_pos henabled

/-! ## Runs -/

/-- **Containment.** No callback of a run lets an exception out exactly if nothing is raised where a
promise is settled with no handler; and a run that the loop survives goes as if nothing had been
raised at all, the reports aside. -/
theorem contained_iff (es : List Event) :
    (Throughout step Contained init es ↔ Along step Calm init es) ∧
      ∀ l, run step init es = some l → l.fate = .running →
        run step init (es.map Event.quiet) = some l.forget := by
  constructor
  · exact throughout_iff_along (I := fun _ => True) (fun _ _ _ _ _ => trivial)
      (fun _ _ _ _ _ hs => step_contained hs) trivial (contained_of_running rfl) es
  · intro l hr hl
    have hforget : forget init = init := rfl
    rw [← hforget]
    exact run_map (P := fun l => l.fate = .running) (fun _ _ _ hs => (step_eq_some hs).1)
      (fun _ _ _ hs hr => step_forget hs hr) hr hl

/-- A `connect` that is awaited until the asyncio loop closes ends the process when it succeeds. -/
theorem abandoned_connect_terminates :
    let es := [.connect, .runTask none true none, .connectSuccess (callSoonThreadsafe true)]
    (run step init es).map LoopThread.fate =
        some (.terminated ⟨str "RuntimeError", str "Event loop is closed"⟩) ∧
      ¬ Throughout step Contained init es := by
  refine ⟨rfl, fun h => ?_⟩
  exact h.last rfl _ rfl

end LoopThread

end Fizzpy
