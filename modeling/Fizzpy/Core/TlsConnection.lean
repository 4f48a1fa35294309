import Fizzpy.Foundation.Transition
import Fizzpy.Text

/-!
# The native connection

`TlsConnection` as the loop thread sees it: the lambdas that `read` and `close` queue there, the
callbacks of the transport, and the read deadline. A promise is the number of its read; the order in
which promises were settled is kept in `settled`, and `closed` remembers that a `close` has run.
-/

namespace Fizzpy

open Foundation

/-- What a promise is rejected with: `makeError` or `makeTimeoutError`. -/
inductive CoreError
  | connectionError (msg : Str)
  | timeout (msg : Str)
  deriving DecidableEq

/-- How a read promise is settled. -/
inductive Answer
  | resolve (data : Bytes)
  | reject (error : CoreError)
  deriving DecidableEq

/-- A scheduled deadline, with the read that was parked when it was scheduled. -/
structure Deadline where
  timeoutMs : ℕ
  owner : Option ℕ
  deriving DecidableEq

structure AsyncTimeout where
  scheduled : Option Deadline
  deriving DecidableEq

namespace AsyncTimeout

def cancelTimeout (_ : AsyncTimeout) : AsyncTimeout := ⟨none⟩

def scheduleTimeout (_ : AsyncTimeout) (timeoutMs : ℕ) (owner : Option ℕ) : AsyncTimeout :=
  ⟨some ⟨timeoutMs, owner⟩⟩

end AsyncTimeout

/-- The Fizz client. It delivers to the read callback while it is `opened`. -/
inductive ClientState
  | connecting
  | opened
  | closed
  deriving DecidableEq

/-- A lambda queued for the loop thread. -/
inductive Task
  | connect
  | read (promise timeoutMs : ℕ)
  | close
  deriving DecidableEq

def Task.promise? : Task → Option ℕ
  | read promise _ => some promise
  | _ => none

structure TlsConnection where
  client : Option ClientState := none
  buffer : List Bytes := []
  pendingRead : Option ℕ := none
  readTimeout : Option AsyncTimeout := none
  eof : Bool := false
  readErr : Option Str := none
  tasks : List Task := []
  reads : ℕ := 0
  settled : List (ℕ × Answer) := []
  closed : Bool := false
  deriving DecidableEq

namespace TlsConnection

/-- `TlsConnection()`. -/
def init : TlsConnection := {}

/-- The reads that were submitted and are not settled. -/
def outstanding (c : TlsConnection) : List ℕ :=
  c.pendingRead.toList ++ c.tasks.filterMap Task.promise?

/-- The deadline the timer is scheduled for. -/
def deadline (c : TlsConnection) : Option Deadline := c.readTimeout.bind AsyncTimeout.scheduled

/-! ## Settling -/

def settle (p : ℕ) (a : Answer) (c : TlsConnection) : TlsConnection :=
  { c with settled := c.settled ++ [(p, a)] }

def resolveBytes (p : ℕ) (data : Bytes) (c : TlsConnection) : TlsConnection :=
  c.settle p (.resolve data)

def rejectOnLoop (p : ℕ) (msg : Str) (c : TlsConnection) : TlsConnection :=
  c.settle p (.reject (.connectionError msg))

/-- All buffered chunks in one result. -/
def fulfillRead (p : ℕ) (c : TlsConnection) : TlsConnection :=
  resolveBytes p c.buffer.flatten { c with buffer := [] }

/-- The parked read leaves, and its deadline with it. -/
def takePendingRead (c : TlsConnection) : TlsConnection :=
  { c with readTimeout := c.readTimeout.map AsyncTimeout.cancelTimeout, pendingRead := none }

/-- The timer object is made at the first deadline. -/
def armReadTimeout (timeoutMs : ℕ) (c : TlsConnection) : TlsConnection :=
  { c with
    readTimeout := some ((c.readTimeout.getD ⟨none⟩).scheduleTimeout timeoutMs c.pendingRead) }

/-! ## The lambdas -/

/-- The lambda of `read`. -/
def runRead (p timeoutMs : ℕ) (c : TlsConnection) : TlsConnection :=
  if c.buffer ≠ [] then fulfillRead p c
  else
    match c.readErr with
    | some msg => rejectOnLoop p msg c
    | none =>
      if c.eof then resolveBytes p [] c
      else
        let c := { c with pendingRead := some p }
        if 0 < timeoutMs then armReadTimeout timeoutMs c else c

/-- The lambda of `close`: `setReadCB(nullptr)` and `closeNow()`. -/
def runClose (c : TlsConnection) : TlsConnection :=
  { c with client := c.client.map fun _ => .closed, closed := true }

def runTask : Task → TlsConnection → TlsConnection
  | .connect, c => { c with client := some .connecting }
  | .read p timeoutMs, c => runRead p timeoutMs c
  | .close, c => runClose c

/-! ## The callbacks -/

def readBufferAvailable (buf : Option Bytes) (c : TlsConnection) : TlsConnection :=
  let c := { c with buffer := c.buffer ++ buf.toList }
  match c.pendingRead with
  | some p => fulfillRead p c.takePendingRead
  | none => c

def readEOF (c : TlsConnection) : TlsConnection :=
  let c := { c with eof := true }
  match c.pendingRead with
  | some p => resolveBytes p [] c.takePendingRead
  | none => c

def readErrMessage (what : Str) : Str := str "read error: " ++ what

/-- The callback `readErr`. -/
def onReadErr (what : Str) (c : TlsConnection) : TlsConnection :=
  let c := { c with readErr := some (readErrMessage what) }
  match c.pendingRead with
  | some p => rejectOnLoop p (readErrMessage what) c.takePendingRead
  | none => c

/-- The timer has fired, so it is no longer scheduled. -/
def onReadTimeout (c : TlsConnection) : TlsConnection :=
  let c := { c with readTimeout := c.readTimeout.map AsyncTimeout.cancelTimeout }
  match c.pendingRead with
  | some p => settle p (.reject (.timeout (str "read timed out"))) { c with pendingRead := none }
  | none => c

/-! ## Events -/

inductive Event
  /-- The calls from Python, which queue a lambda. -/
  | connect
  | read (timeoutMs : ℕ)
  | close
  /-- The loop runs the next lambda. -/
  | runTask
  /-- The transport calls back: the handshake is done, or something was received. -/
  | connectSuccess
  | readBufferAvailable (buf : Option Bytes)
  | readEOF
  | readErr (what : Str)
  /-- The deadline has passed. -/
  | readTimeout
  deriving DecidableEq

def submit (t : Task) (c : TlsConnection) : TlsConnection := { c with tasks := c.tasks ++ [t] }

/-- The read callback is installed. -/
def listening (c : TlsConnection) : Prop := c.client = some .opened

instance (c : TlsConnection) : Decidable c.listening :=
  inferInstanceAs (Decidable (c.client = some .opened))

/-- One event. A read is submitted only while no other is outstanding, the documented rule. -/
def step (c : TlsConnection) : Event → Option TlsConnection
  | .connect => some (c.submit .connect)
  | .read timeoutMs =>
    if c.outstanding = [] then
      some (submit (.read c.reads timeoutMs) { c with reads := c.reads + 1 })
    else none
  | .close => some (c.submit .close)
  | .runTask =>
    match c.tasks with
    | t :: ts => some (runTask t { c with tasks := ts })
    | [] => none
  | .connectSuccess =>
    if c.client = some .connecting then some { c with client := some .opened } else none
  | .readBufferAvailable buf => if c.listening then some (c.readBufferAvailable buf) else none
  | .readEOF => if c.listening then some c.readEOF else none
  | .readErr what => if c.listening then some (c.onReadErr what) else none
  | .readTimeout => if c.deadline.isSome then some c.onReadTimeout else none

end TlsConnection

end Fizzpy
