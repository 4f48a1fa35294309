import Fizzpy.Probe.Attempt

/-!
# The probe

`probe`: the first connection, the round of handshakes, the second round, and the verdict. What name
resolution, connects and handshakes come to is given by the environment.
-/

namespace Fizzpy

namespace Probe

inductive Verdict
  | postQuantum
  | classicalOnly
  | pqBlocked
  | noTls13
  | unreachable
  | error
  deriving DecidableEq

structure ProbeResult where
  host : Str
  port : ℕ
  verdict : Verdict
  address : Option Str := none
  error : Option Str := none
  attempts : List Attempt := []
  default : Option Attempt := none
  deriving DecidableEq

def ProbeResult.acceptedGroups (r : ProbeResult) : List Str :=
  (r.attempts.filter fun a => a.outcome = .accepted).flatMap fun a => a.offered.take 1

def ProbeResult.preferred (r : ProbeResult) : Option Str := r.default.bind Attempt.group

/-! ## The verdict -/

def noSharedGroup : List Str := [str "handshake_failure", str "insufficient_security"]

def noTls13 : List Str := noSharedGroup ++ [str "protocol_version"]

/-- `a.outcome is Outcome.REJECTED and a.alert in alerts`. -/
def Attempt.rejectedWith (a : Attempt) (alerts : List Str) : Bool :=
  a.outcome = .rejected && a.alert.any (· ∈ alerts)

/-- `_verdict`. -/
def verdict (pq : Attempt) (classical : List Attempt) : Verdict :=
  if pq.outcome = .accepted then .postQuantum
  else if classical.any fun a => a.outcome = .accepted then
    if pq.rejectedWith noSharedGroup then .classicalOnly else .pqBlocked
  else if (pq :: classical).all fun a => a.rejectedWith noTls13 then .noTls13
  else .error

/-- `_explain_error`. An empty text counts as none. -/
def explainError (attempts : List Attempt) : Str :=
  if attempts.any fun a => a.alert = some (str "unrecognized_name") then
    str "server rejected the server name (unrecognized_name); try --sni"
  else
    (attempts.findSome? fun a => orNone (a.detail.getD []) <|> orNone (a.alert.getD [])).getD
      (str "no handshake completed")

/-! ## The probe -/

inductive Round
  | first
  | second
  deriving DecidableEq

/-- All that a probe meets. `ServerName` is what `_server_name(host)` gives, `none` for a
`UnicodeError`; each address comes with what the connect to it comes to; `shaken` is the handshake over
the first connection, and `fresh` those over connections of their own. -/
structure Env (Info : Type) where
  host : Str
  port : ℕ
  pqSupported : Bool := true
  sni : Option Str := none
  serverName : Option Str := some []
  infos : Except Exn (List (Info × Except Exn Unit))
  address : Info → Str
  shaken : Shaken
  fresh : Round → Info → List Group → Fresh

/-- What `probe` raises. -/
inductive ProbeExn
  | noPostQuantumSupport
  | unexpected (e : Exn)
  deriving DecidableEq

variable {Info : Type}

namespace Env

def unreachable (env : Env Info) (error : Str) : ProbeResult :=
  { host := env.host, port := env.port, verdict := .unreachable, error := some error }

/-- `sni or _server_name(host)`. -/
def sentName (env : Env Info) : Option Str :=
  if env.sni.getD [] = [] then env.serverName else env.sni

end Env

/-- The loop over the addresses: the first that accepts, or the last error. -/
def connectFirst : List (Info × Except Exn Unit) → Str → Except Exn (Info ⊕ Str)
  | [], lastError => .ok (.inr lastError)
  | (info, .ok ()) :: _, _ => .ok (.inl info)
  | (_, .error e) :: infos, _ =>
    if e.expected then connectFirst infos (str "connect: " ++ reason e) else .error e

/-- The first `gather`, settled: the exception raised is the first in the order of the tasks. -/
def firstRound (env : Env Info) (info : Info) : Except Exn (Attempt × Attempt × List Attempt) := do
  let default ← handshake defaultOffer env.shaken
  let pq ← handshakeFresh [pqGroup] (env.fresh .first info [pqGroup])
  let classical ← classicalGroups.mapM fun g => handshakeFresh [g] (env.fresh .first info [g])
  pure (default, pq, classical)

/-- The second one. -/
def secondRound (env : Env Info) (info : Info) : Except Exn (Attempt × Attempt) := do
  let default ← handshakeFresh defaultOffer (env.fresh .second info defaultOffer)
  let pq ← handshakeFresh [pqGroup] (env.fresh .second info [pqGroup])
  pure (default, pq)

def Env.result (env : Env Info) (info : Info) (default pq : Attempt) (classical : List Attempt) :
    ProbeResult :=
  let verdict := verdict pq classical
  { host := env.host
    port := env.port
    verdict
    address := some (env.address info)
    error := if verdict = .error then some (explainError (pq :: classical)) else none
    attempts := pq :: classical
    default := some default }

/-- The handshakes with the address that accepted. -/
def probeAt (env : Env Info) (info : Info) : Except Exn ProbeResult := do
  let (default, pq, classical) ← firstRound env info
  if verdict pq classical = .pqBlocked then
    let (default, pq) ← secondRound env info
    return env.result info default pq classical
  return env.result info default pq classical

def probe (env : Env Info) : Except ProbeExn ProbeResult :=
  if ¬ env.pqSupported then .error .noPostQuantumSupport
  else if env.sentName = none then .ok (env.unreachable (str "dns: invalid hostname"))
  else
    match env.infos with
    | .error e =>
      if e.kind = .other then .error (.unexpected e)
      else .ok (env.unreachable (str "dns: " ++ reason e))
    | .ok infos =>
      match connectFirst infos (str "no addresses") with
      | .error e => .error (.unexpected e)
      | .ok (.inr error) => .ok (env.unreachable error)
      | .ok (.inl info) => (probeAt env info).mapError .unexpected

end Probe

end Fizzpy
