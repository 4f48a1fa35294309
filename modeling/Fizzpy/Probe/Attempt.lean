import Fizzpy.Text

/-!
# Handshake attempts

One handshake of the probe, from what its connection did to the `Attempt` that reports it. Times are
left out.
-/

namespace Fizzpy

/-- The groups of `_NAMES`. -/
inductive Group
  | x25519Mlkem768
  | x25519
  | secp256r1
  | secp384r1
  deriving DecidableEq

/-- `_NAMES`. -/
def Group.name : Group → Str
  | x25519Mlkem768 => str "X25519MLKEM768"
  | x25519 => str "x25519"
  | secp256r1 => str "secp256r1"
  | secp384r1 => str "secp384r1"

namespace Probe

def pqGroup : Group := .x25519Mlkem768

def classicalGroups : List Group := [.x25519, .secp256r1, .secp384r1]

def probeGroups : List Group := pqGroup :: classicalGroups

def defaultOffer : List Group := [pqGroup, .x25519]

def pqName : Str := pqGroup.name

/-! ## Exceptions -/

/-- The class of an exception, as far as the probe tells classes apart. -/
inductive ExnKind
  | connectionRefused
  | connectionReset
  | connectionAborted
  /-- `TimeoutError` or `asyncio.TimeoutError`. -/
  | timeout
  | gaierror
  /-- Any other `OSError`, and whether its number is in `_UNREACHABLE`. An `ssl.SSLError` is one. -/
  | osError (unreachable : Bool)
  | valueError
  | other
  deriving DecidableEq

/-- `name` is `type(exc).__name__` and `text` is `str(exc)`; the last two are the attributes that the
native layer may have set. -/
structure Exn where
  kind : ExnKind
  name : Str := []
  text : Str := []
  fizzAlert : Option Str := none
  fizzAlertRemote : Bool := false
  deriving DecidableEq

/-- `OSError` or `asyncio.TimeoutError`: what a connect or a handshake may raise. -/
def Exn.expected (e : Exn) : Bool := e.kind ≠ .valueError ∧ e.kind ≠ .other

def removePrefix (p s : Str) : Str := if p <+: s then s.drop p.length else s

/-- `_reason`. -/
def reason (e : Exn) : Str :=
  match e.kind with
  | .connectionRefused => str "connection refused"
  | .connectionReset => str "connection reset"
  | .connectionAborted => str "connection aborted"
  | .timeout => str "timeout"
  | .gaierror => str "name not resolved"
  | .osError true => str "network unreachable"
  | _ =>
    let lowered := lower e.text
    if contains (str "timed out") lowered then str "timeout"
    else if contains (str "reset by peer") lowered then str "connection reset"
    else if contains (str "end of file") lowered then str "connection closed"
    else if contains (str "plaintext content type") lowered then str "not a TLS server"
    else removePrefix (str "handshake failed: ") e.text

/-! ## Attempts -/

inductive Outcome
  | accepted
  | rejected
  | failed
  deriving DecidableEq

structure Attempt where
  offered : List Str
  outcome : Outcome
  alert : Option Str := none
  detail : Option Str := none
  group : Option Str := none
  version : Option Str := none
  cipher : Option Str := none
  alpn : Option Str := none
  certificate : Option Str := none
  deriving DecidableEq

/-- `conn.negotiated()`. -/
structure Negotiated where
  group : Str
  version : Str := str "TLSv1.3"
  cipher : Str := str "TLS_AES_128_GCM_SHA256"
  alpn : Str := []
  peerCert : Str := []
  deriving DecidableEq

/-- What a handshake came to, and what a new connection and a handshake over it came to. -/
abbrev Shaken := Except Exn Negotiated
abbrev Fresh := Except Exn Shaken

/-- `text or None`. -/
def orNone (text : Str) : Option Str := if text = [] then none else some text

/-- `_classify`. -/
def classify (e : Exn) : Outcome × Option Str × Option Str :=
  if e.fizzAlert ≠ none ∧ e.fizzAlertRemote then (.rejected, e.fizzAlert, none)
  else (.failed, e.fizzAlert, some (reason e))

/-- `_handshake`. -/
def handshake (groups : List Group) : Shaken → Except Exn Attempt
  | .ok n =>
    let offered := groups.map Group.name
    if offered.length = 1 ∧ offered.head? ≠ some n.group then
      .ok { offered, outcome := .failed, detail := some (str "negotiated " ++ n.group ++ str " instead") }
    else
      .ok {
        offered
        outcome := .accepted
        group := some n.group
        version := some n.version
        cipher := some n.cipher
        alpn := orNone n.alpn
        certificate := orNone n.peerCert }
  | .error e =>
    if e.expected then
      let (outcome, alert, detail) := classify e
      .ok { offered := groups.map Group.name, outcome, alert, detail }
    else .error e

/-- `_handshake_fresh`. -/
def handshakeFresh (groups : List Group) : Fresh → Except Exn Attempt
  | .ok shaken => handshake groups shaken
  | .error e =>
    if e.expected then
      .ok {
        offered := groups.map Group.name
        outcome := .failed
        detail := some (str "connect: " ++ reason e) }
    else .error e

/-! ## What an attempt tells -/

/-- The server completed a handshake in the group. -/
def Completed (g : Group) (x : Fresh) : Prop := ∃ n, x = .ok (.ok n) ∧ n.group = g.name

/-- The peer answered the handshake with one of the alerts. -/
def Refused (alerts : List Str) (x : Fresh) : Prop :=
  ∃ e alert, x = .ok (.error e) ∧ e.fizzAlert = some alert ∧ e.fizzAlertRemote = true ∧
    alert ∈ alerts

/-- An attempt with one group tells how it ended. An alert of this side is no refusal. -/
structure Tells (g : Group) (x : Fresh) (a : Attempt) : Prop where
  offered : a.offered = [g.name]
  accepted : a.outcome = .accepted ↔ Completed g x
  group : a.outcome = .accepted → a.group = some g.name
  refused : ∀ alerts, (a.outcome = .rejected ∧ ∃ alert ∈ a.alert, alert ∈ alerts) ↔ Refused alerts x
  ownAlert : ∀ e, x = .ok (.error e) → e.fizzAlertRemote = false → a.outcome = .failed

theorem not_completed_error {g : Group} {e : Exn} : ¬ Completed g (.ok (.error e)) := by
  rintro ⟨n, h, -⟩
  cases h

theorem not_completed_connect {g : Group} {e : Exn} : ¬ Completed g (.error e) := by
  rintro ⟨n, h, -⟩
  cases h

theorem completed_iff {g : Group} {n : Negotiated} : Completed g (.ok (.ok n)) ↔ n.group = g.name := by
  constructor
  · rintro ⟨n', h, hg⟩
    cases h
    exact hg
  · exact fun hg => ⟨n, rfl, hg⟩

theorem not_refused_ok {alerts : List Str} {n : Negotiated} : ¬ Refused alerts (.ok (.ok n)) := by
  rintro ⟨e, alert, h, -⟩
  cases h

theorem not_refused_connect {alerts : List Str} {e : Exn} : ¬ Refused alerts (.error e) := by
  rintro ⟨e', alert, h, -⟩
  cases h

/-- An attempt that failed tells of neither. -/
theorem tells_failed {g : Group} {x : Fresh} {a : Attempt} (ho : a.offered = [g.name])
    (ha : a.outcome = .failed) (hc : ¬ Completed g x) (hr : ∀ alerts, ¬ Refused alerts x) :
    Tells g x a where
  offered := ho
  accepted := iff_of_false (by rw [ha]; nofun) hc
  group := by rw [ha]; nofun
  refused alerts := iff_of_false (by rw [ha]; nofun) (hr alerts)
  ownAlert _ _ _ := ha

theorem handshake_tells {g : Group} {shaken : Shaken} {a : Attempt}
    (h : handshake [g] shaken = .ok a) : Tells g (.ok shaken) a := by
  cases shaken with
  | ok n =>
    unfold handshake at h
    dsimp only at h
    split_ifs at h with hg
    · cases h
      refine tells_failed rfl rfl (fun hc => ?_) fun alerts => not_refused_ok
      rw [completed_iff] at hc
      exact hg.2 (congrArg some hc.symm)
    · have hg : n.group = g.name := by
        by_contra hne
        exact hg ⟨rfl, fun heq => hne (Option.some.inj heq).symm⟩
      cases h
      exact {
        offered := rfl
        accepted := iff_of_true rfl (completed_iff.mpr hg)
        group := fun _ => congrArg some hg
        refused := fun alerts => iff_of_false nofun not_refused_ok
        ownAlert := nofun }
  | error e =>
    unfold handshake classify at h
    dsimp only at h
    split_ifs at h with he hr
    · cases h
      refine ⟨rfl, iff_of_false nofun not_completed_error, nofun, fun alerts => ?_, ?_⟩
      · constructor
        · rintro ⟨-, alert, halert, hmem⟩
          exact ⟨e, alert, rfl, halert, hr.2, hmem⟩
        · rintro ⟨e', alert, heq, halert, -, hmem⟩
          cases heq
          exact ⟨rfl, alert, halert, hmem⟩
      · rintro e' heq hlocal
        cases heq
        rw [hr.2] at hlocal
        cases hlocal
    · cases h
      refine tells_failed rfl rfl not_completed_error ?_
      rintro alerts ⟨e', alert, heq, halert, hremote, -⟩
      cases heq
      exact hr ⟨by rw [halert]; nofun, hremote⟩

/-- The attempt of a new connection tells how it ended. -/
theorem handshakeFresh_tells {g : Group} {x : Fresh} {a : Attempt}
    (h : handshakeFresh [g] x = .ok a) : Tells g x a := by
  cases x with
  | ok shaken => exact handshake_tells h
  | error e =>
    unfold handshakeFresh at h
    dsimp only at h
    split_ifs at h
    cases h
    exact tells_failed rfl rfl not_completed_connect fun alerts => not_refused_connect

end Probe

end Fizzpy
