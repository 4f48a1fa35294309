import Fizzpy.Client.Pool
import Fizzpy.Foundation.Transition
import Fizzpy.Http.Request
import Fizzpy.Http.ResponseParser

/-!
# The client

Threads that share one `Client`. Each performs requests, one `_perform` after the other (a request
is one of them, or one for each hop of its redirects), or closes the client. A step is one atomic
operation on the pool, or one operation on a connection with the outcome its environment gives it.
`AsyncClient` takes the same steps.
-/

namespace Fizzpy

open Foundation

/-- What a request fails with. -/
inductive RequestExn
  /-- The exception of a connect, write or read. -/
  | transport
  | parse (e : ParseExn)
  /-- `ConnectionError("connection closed before a full response")`. -/
  | incomplete
  deriving DecidableEq

/-- What `conn.read` resolves with, or its failure (a deadline included). -/
inductive ReadReply
  | chunk (data : Bytes)
  | failed
  deriving DecidableEq

/-- The target and the bytes of one `_perform`. -/
structure Job where
  key : Key
  raw : Bytes
  deriving DecidableEq

/-- `_perform` up to the pool. -/
def Job.of (method : Str) (key : Key) (path : Str) (headers : List (Str × Str)) (body : Option Bytes) :
    Option Job :=
  (buildRequest method path key.1 headers body).map fun raw => ⟨key, raw⟩

/-- Where a thread stands. -/
inductive Phase
  | idle
  | take
  /-- `_exchange`: before the write, and in the loop of reads. -/
  | write (conn : ConnId) (reused : Bool)
  | read (conn : ConnId) (reused : Bool) (parser : ResponseParser) (received : Bool)
  | give (conn : ConnId) (response : Response)
  | close (conn : ConnId) (response : Response)
  /-- `_perform` has caught `_Stale`. -/
  | closeStale (conn : ConnId)
  | connect
  /-- `Client.close`, after the clear. -/
  | closing (conns : List ConnId)

/-- `sent` lists the connections on which the current `_perform` has completed its write, `results`
what the ones before returned or raised. -/
structure Thread where
  job : Job := ⟨([], 0), []⟩
  phase : Phase := .idle
  sent : List ConnId := []
  results : List (Except RequestExn Response) := []

/-- `opened` has the target of each connection, `closed` those that were closed. -/
structure Client where
  pool : Pool := []
  opened : List Key := []
  closed : List ConnId := []
  threads : ℕ → Thread := fun _ => {}

namespace Client

def init : Client := {}

/-! ## `_exchange` -/

/-- `_reusable`. -/
def reusable (parser : ResponseParser) (response : Response) : Bool :=
  if parser.usedCloseFraming ∨ response.httpVersion ≠ str "HTTP/1.1" then false
  else !contains (str "close") (lower ((response.headers.get (str "Connection")).getD []))

/-- What comes of an exchange: where the thread goes on, or how the `_perform` ended. -/
inductive Outcome
  | goOn (phase : Phase)
  | returned (response : Response)
  | raised (e : RequestExn)

/-- After the loop. -/
def afterLoop (c : ConnId) (reused : Bool) (parser : ResponseParser) : Outcome :=
  match parser.response with
  | none => if reused then .goOn (.closeStale c) else .raised .incomplete
  | some r => if reusable parser r then .goOn (.give c r) else .goOn (.close c r)

/-- The write. -/
def afterWrite (c : ConnId) (reused ok : Bool) : Outcome :=
  if ok then .goOn (.read c reused .fresh false)
  else if reused then .goOn (.closeStale c)
  else .raised .transport

/-- One round of the loop, and what follows it when the loop ends. -/
def afterRead (codec : Codec) (c : ConnId) (reused : Bool) (parser : ResponseParser) (received : Bool) :
    ReadReply → Outcome
  | .failed => if reused ∧ ¬ received then .goOn (.closeStale c) else .raised .transport
  | .chunk data =>
    if data = [] then
      if reused ∧ ¬ received then .goOn (.closeStale c)
      else
        match parser.feedEof codec with
        | .ok parser => afterLoop c reused parser
        | .error e => .raised (.parse e.1)
    else
      match parser.feed codec data with
      | .ok parser =>
        if parser.isComplete then afterLoop c reused parser else .goOn (.read c reused parser true)
      | .error e => .raised (.parse e.1)

/-! ## Steps -/

inductive Action
  | perform (job : Job)
  | take
  | write (ok : Bool)
  | read (reply : ReadReply)
  | give
  | close
  | closeStale
  | connect (ok : Bool)
  /-- `Client.close`: the clear, and the closing of one connection. -/
  | closeAll
  | closeNext

end Client

def Thread.proceed (t : Thread) : Client.Outcome → Thread
  | .goOn phase => { t with phase }
  | .returned r => { t with phase := .idle, results := t.results ++ [.ok r] }
  | .raised e => { t with phase := .idle, results := t.results ++ [.error e] }

namespace Client

def setThread (s : Client) (i : ℕ) (t : Thread) : Client :=
  { s with threads := Function.update s.threads i t }

/-- A step of thread `i`. -/
def step (codec : Codec) (s : Client) (x : ℕ × Action) : Option Client :=
  let t := s.threads x.1
  match t.phase, x.2 with
  | .idle, .perform job => some (s.setThread x.1 { t with job, phase := .take, sent := [] })
  | .take, .take =>
    match s.pool.take t.job.key with
    | some (c, pool) => some ({ s with pool }.setThread x.1 { t with phase := .write c true })
    | none => some (s.setThread x.1 { t with phase := .connect })
  | .write c reused, .write ok =>
    some (s.setThread x.1 ({ t with sent := t.sent ++ if ok then [c] else [] }.proceed
      (afterWrite c reused ok)))
  | .read c reused parser received, .read reply =>
    some (s.setThread x.1 (t.proceed (afterRead codec c reused parser received reply)))
  | .give c r, .give =>
    some ({ s with pool := s.pool.give t.job.key c }.setThread x.1 (t.proceed (.returned r)))
  | .close c r, .close =>
    some ({ s with closed := s.closed ++ [c] }.setThread x.1 (t.proceed (.returned r)))
  | .closeStale c, .closeStale =>
    some ({ s with closed := s.closed ++ [c] }.setThread x.1 { t with phase := .connect })
  | .connect, .connect ok =>
    if ok then
      some ({ s with opened := s.opened ++ [t.job.key] }.setThread x.1
        { t with phase := .write s.opened.length false })
    else some (s.setThread x.1 (t.proceed (.raised .transport)))
  | .idle, .closeAll =>
    some ({ s with pool := [] }.setThread x.1 { t with phase := .closing s.pool.conns })
  | .closing (c :: cs), .closeNext =>
    some ({ s with closed := s.closed ++ [c] }.setThread x.1 { t with phase := .closing cs })
  | .closing [], .closeNext => some (s.setThread x.1 { t with phase := .idle })
  | _, _ => none

/-- The steps of `step`, one rule for each. -/
inductive Step (codec : Codec) (s : Client) (i : ℕ) : Action → Client → Prop
  | perform {job : Job} (h : (s.threads i).phase = .idle) :
      Step codec s i (.perform job)
        (s.setThread i { s.threads i with job, phase := .take, sent := [] })
  | takePooled {c : ConnId} {pool : Pool} (h : (s.threads i).phase = .take)
      (hp : s.pool.take (s.threads i).job.key = some (c, pool)) :
      Step codec s i .take
        ({ s with pool }.setThread i { s.threads i with phase := .write c true })
  | takeNone (h : (s.threads i).phase = .take) (hp : s.pool.take (s.threads i).job.key = none) :
      Step codec s i .take (s.setThread i { s.threads i with phase := .connect })
  | write {c : ConnId} {reused ok : Bool} (h : (s.threads i).phase = .write c reused) :
      Step codec s i (.write ok) (s.setThread i
        ({ s.threads i with sent := (s.threads i).sent ++ if ok then [c] else [] }.proceed
          (afterWrite c reused ok)))
  | read {c : ConnId} {reused received : Bool} {parser : ResponseParser} {reply : ReadReply}
      (h : (s.threads i).phase = .read c reused parser received) :
      Step codec s i (.read reply) (s.setThread i
        ((s.threads i).proceed (afterRead codec c reused parser received reply)))
  | give {c : ConnId} {r : Response} (h : (s.threads i).phase = .give c r) :
      Step codec s i .give ({ s with pool := s.pool.give (s.threads i).job.key c }.setThread i
        ((s.threads i).proceed (.returned r)))
  | close {c : ConnId} {r : Response} (h : (s.threads i).phase = .close c r) :
      Step codec s i .close ({ s with closed := s.closed ++ [c] }.setThread i
        ((s.threads i).proceed (.returned r)))
  | closeStale {c : ConnId} (h : (s.threads i).phase = .closeStale c) :
      Step codec s i .closeStale ({ s with closed := s.closed ++ [c] }.setThread i
        { s.threads i with phase := .connect })
  | connected (h : (s.threads i).phase = .connect) :
      Step codec s i (.connect true)
        ({ s with opened := s.opened ++ [(s.threads i).job.key] }.setThread i
          { s.threads i with phase := .write s.opened.length false })
  | connectFailed (h : (s.threads i).phase = .connect) :
      Step codec s i (.connect false) (s.setThread i ((s.threads i).proceed (.raised .transport)))
  | closeAll (h : (s.threads i).phase = .idle) :
      Step codec s i .closeAll
        ({ s with pool := [] }.setThread i { s.threads i with phase := .closing s.pool.conns })
  | closeNext {c : ConnId} {cs : List ConnId} (h : (s.threads i).phase = .closing (c :: cs)) :
      Step codec s i .closeNext ({ s with closed := s.closed ++ [c] }.setThread i
        { s.threads i with phase := .closing cs })
  | closeDone (h : (s.threads i).phase = .closing []) :
      Step codec s i .closeNext (s.setThread i { s.threads i with phase := .idle })

theorem step_sound {codec : Codec} {s s' : Client} {i : ℕ} {a : Action}
    (h : step codec s (i, a) = some s') : Step codec s i a s' := by
  unfold step at h
  dsimp only at h
  split at h
  case h_2 hph =>
    split at h
    · cases h; exact .takePooled hph ‹_›
    · cases h; exact .takeNone hph ‹_›
  case h_8 ok hph =>
    cases ok
    · cases h; exact .connectFailed hph
    · cases h; exact .connected hph
  all_goals cases h
  · exact .perform ‹_›
  · exact .write ‹_›
  · exact .read ‹_›
  · exact .give ‹_›
  · exact .close ‹_›
  · exact .closeStale ‹_›
  · exact .closeAll ‹_›
  · exact .closeNext ‹_›
  · exact .closeDone ‹_›

end Client

end Fizzpy
