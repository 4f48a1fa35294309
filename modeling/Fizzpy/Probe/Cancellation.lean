import Fizzpy.Foundation.Custody
import Fizzpy.Foundation.Order
import Fizzpy.Foundation.Transition
import Fizzpy.Probe.Probe

/-!
# The probe and its tasks

`probe` as it runs on the event loop: it awaits name resolution, connects and two gathers, whose
children are tasks of their own, and any task may be cancelled at any of its awaits. A cancelled task
gets the exception at its await; one that has not begun runs none of its body. What connects and
handshakes come to is given by the environment; the events say in which order the tasks go on.
-/

namespace Fizzpy

namespace Probe

open Foundation

namespace Probing

/-! ## A child -/

/-- What a task raises. -/
inductive TaskExn
  | cancelled
  | raised (e : Exn)
  deriving DecidableEq

def settle (r : Except Exn Attempt) : Except TaskExn Attempt := r.mapError .raised

/-- The coroutine of a child, with what its operations come to. -/
inductive Body
  | handshake (sock : ℕ) (groups : List Group) (shaken : Shaken)
  | handshakeFresh (groups : List Group) (fresh : Fresh)

/-- Where a child stands: at an await, unless it has not begun or is done. -/
inductive Task
  | ready (body : Body)
  | connecting (sock : ℕ) (groups : List Group) (fresh : Fresh)
  | shaking (sock : ℕ) (groups : List Group) (shaken : Shaken)
  | done (result : Except TaskExn Attempt)

/-- `cancelled`: it was cancelled, and has not been told yet. -/
structure Child where
  task : Task
  cancelled : Bool := false

inductive ChildEvent
  /-- Its first step; `opened` says whether `socket.socket` made a socket. -/
  | start (opened : Bool)
  /-- What it awaits is done. -/
  | resume
  | cancel
  /-- The `CancelledError` arrives. -/
  | deliver
  deriving DecidableEq

namespace Child

def step (socks : Ledger ℕ) (c : Child) : ChildEvent → Option (Child × Ledger ℕ)
  | .start opened =>
    if c.cancelled then none
    else
      match c.task with
      | .ready (.handshake sock groups shaken) => some (⟨.shaking sock groups shaken, false⟩, socks)
      | .ready (.handshakeFresh groups fresh) =>
        if opened then
          let sock := socks.opened.length
          some (⟨.connecting sock groups fresh, false⟩, socks.create sock)
        else
          match fresh with
          | .ok _ => none
          | .error e => some (⟨.done (settle (handshakeFresh groups (.error e))), false⟩, socks)
      | _ => none
  | .resume =>
    if c.cancelled then none
    else
      match c.task with
      | .connecting sock groups (.ok shaken) => some (⟨.shaking sock groups shaken, false⟩, socks)
      | .connecting sock groups (.error e) =>
        some (⟨.done (settle (handshakeFresh groups (.error e))), false⟩, socks.close sock)
      | .shaking sock groups shaken =>
        some (⟨.done (settle (handshake groups shaken)), false⟩, socks.close sock)
      | _ => none
  | .cancel =>
    match c.task with
    | .done _ => none
    | task => some (⟨task, true⟩, socks)
  | .deliver =>
    if ¬ c.cancelled then none
    else
      match c.task with
      | .ready _ => some (⟨.done (.error .cancelled), false⟩, socks)
      | .connecting sock _ _ | .shaking sock _ _ =>
        some (⟨.done (.error .cancelled), false⟩, socks.close sock)
      | .done _ => none

def isDone (c : Child) : Bool :=
  match c.task with
  | .done _ => true
  | _ => false

/-- `Task.cancel`, which does nothing to one that is done. -/
def requestCancel (c : Child) : Child := if c.isDone then c else { c with cancelled := true }

/-- The result of a child that is done. -/
def result (c : Child) : Except TaskExn Attempt :=
  match c.task with
  | .done r => r
  | _ => .error .cancelled

/-- The socket that a child is to close. -/
def holds (c : Child) : Option ℕ :=
  match c.task with
  | .connecting sock _ _ | .shaking sock _ _ => some sock
  | _ => none

end Child

/-! ## The probe -/

/-- How `probe` ends. -/
inductive Ending
  | returned (r : ProbeResult)
  | raised (e : ProbeExn)
  | cancelled
  deriving DecidableEq

def Ending.ofTask : TaskExn → Ending
  | .cancelled => .cancelled
  | .raised e => .raised (.unexpected e)

/-- The await that `probe` is at; `trying` is the head of the loop over the addresses. -/
inductive Await (Info : Type)
  | resolving
  | trying (infos : List (Info × Except Exn Unit)) (lastError : Str)
  | connecting (sock : ℕ) (info : Info) (outcome : Except Exn Unit)
      (infos : List (Info × Except Exn Unit))
  | first (sock : ℕ) (info : Info)
  | second (info : Info) (classical : List Attempt)
  | ended (ending : Ending)

variable {Info : Type}

namespace Await

def gathering : Await Info → Bool
  | first _ _ | second _ _ => true
  | _ => false

/-- The socket that `probe` itself is to close. -/
def holds : Await Info → Option ℕ
  | connecting sock _ _ _ | first sock _ => some sock
  | _ => none

/-- On to the next address, or the exception goes on. -/
def retry (e : Exn) (infos : List (Info × Except Exn Unit)) : Await Info :=
  if e.expected then .trying infos (str "connect: " ++ reason e) else .ended (.raised (.unexpected e))

end Await

inductive Event
  | resolve
  /-- The next address; `opened` says whether `socket.socket` made a socket. -/
  | openSocket (opened : Bool)
  | connect
  /-- All children are done. -/
  | gather
  | cancel
  /-- The `CancelledError` arrives. -/
  | deliver
  | child (i : ℕ) (e : ChildEvent)
  deriving DecidableEq

end Probing

/-- `probe` and the children of its gather. `cancelled`: it was cancelled, and has not been told yet. -/
structure Probing (Info : Type) where
  phase : Probing.Await Info
  cancelled : Bool := false
  children : List Probing.Child := []
  socks : Ledger ℕ := {}

variable {Info : Type}

namespace Env

open Probing

/-- Up to the first await. -/
def start (env : Env Info) : Probing Info where
  phase :=
    if ¬ env.pqSupported then .ended (.raised .noPostQuantumSupport)
    else if env.sentName = none then .ended (.returned (env.unreachable (str "dns: invalid hostname")))
    else .resolving

def resolved (env : Env Info) : Await Info :=
  match env.infos with
  | .error e =>
    if e.kind = .other then .ended (.raised (.unexpected e))
    else .ended (.returned (env.unreachable (str "dns: " ++ reason e)))
  | .ok infos => .trying infos (str "no addresses")

def firstBodies (env : Env Info) (sock : ℕ) (info : Info) : List Body :=
  .handshake sock defaultOffer env.shaken ::
    probeGroups.map fun g => .handshakeFresh [g] (env.fresh .first info [g])

def secondBodies (env : Env Info) (info : Info) : List Body :=
  [.handshakeFresh defaultOffer (env.fresh .second info defaultOffer),
    .handshakeFresh [pqGroup] (env.fresh .second info [pqGroup])]

/-- The exception of an unpacking that does not fit. -/
def unpacking : Ending := .raised (.unexpected { kind := .valueError })

/-- What follows the first gather, settled. -/
def afterFirst (env : Env Info) (info : Info) (results : Except TaskExn (List Attempt)) :
    Await Info × List Body :=
  match results with
  | .error e => (.ended (.ofTask e), [])
  | .ok (default :: pq :: classical) =>
    if verdict pq classical = .pqBlocked then (.second info classical, env.secondBodies info)
    else (.ended (.returned (env.result info default pq classical)), [])
  | .ok _ => (.ended unpacking, [])

/-- What follows the second. -/
def afterSecond (env : Env Info) (info : Info) (classical : List Attempt)
    (results : Except TaskExn (List Attempt)) : Await Info :=
  match results with
  | .error e => .ended (.ofTask e)
  | .ok [default, pq] => .ended (.returned (env.result info default pq classical))
  | .ok _ => .ended unpacking

end Env

namespace Probing

def ready (bodies : List Body) : List Child := bodies.map fun body => ⟨.ready body, false⟩

/-- The results of a gather, or the first exception among them. A gather that was cancelled raises. -/
def settled (s : Probing Info) : Except TaskExn (List Attempt) :=
  if s.cancelled then .error .cancelled else s.children.mapM Child.result

def step (env : Env Info) (s : Probing Info) : Event → Option (Probing Info)
  | .resolve =>
    if s.cancelled then none
    else
      match s.phase with
      | .resolving => some { s with phase := env.resolved }
      | _ => none
  | .openSocket opened =>
    match s.phase with
    | .trying [] lastError => some { s with phase := .ended (.returned (env.unreachable lastError)) }
    | .trying ((info, outcome) :: infos) _ =>
      if opened then
        let sock := s.socks.opened.length
        some { s with phase := .connecting sock info outcome infos, socks := s.socks.create sock }
      else
        match outcome with
        | .ok () => none
        | .error e => some { s with phase := .retry e infos }
    | _ => none
  | .connect =>
    if s.cancelled then none
    else
      match s.phase with
      | .connecting sock info (.ok ()) _ =>
        some { s with phase := .first sock info, children := ready (env.firstBodies sock info) }
      | .connecting sock _ (.error e) infos =>
        some { s with phase := .retry e infos, socks := s.socks.close sock }
      | _ => none
  | .gather =>
    if s.children.all Child.isDone then
      match s.phase with
      | .first sock info =>
        let (phase, bodies) := env.afterFirst info s.settled
        some { s with phase, children := ready bodies, socks := s.socks.close sock }
      | .second info classical =>
        some { s with phase := env.afterSecond info classical s.settled, children := [] }
      | _ => none
    else none
  | .cancel =>
    match s.phase with
    | .ended _ => none
    -- the gather cancels its children, and waits for all of them
    | _ => some { s with cancelled := true, children := s.children.map Child.requestCancel }
  | .deliver =>
    if ¬ s.cancelled then none
    else
      match s.phase with
      | .resolving => some { s with phase := .ended .cancelled }
      | .connecting sock _ _ _ =>
        some { s with phase := .ended .cancelled, socks := s.socks.close sock }
      | _ => none
  | .child i e =>
    (s.children[i]?).bind fun c => (c.step s.socks e).map fun p =>
      { s with children := s.children.set i p.1, socks := p.2 }

/-- `probe` has returned or raised. -/
def Ended (s : Probing Info) : Prop := ∃ ending, s.phase = .ended ending

/-- The steps, one by one. -/
inductive Does (env : Env Info) (s : Probing Info) : Event → Probing Info → Prop
  | resolve (hc : s.cancelled = false) (h : s.phase = .resolving) :
    Does env s .resolve { s with phase := env.resolved }
  | exhausted {lastError opened} (h : s.phase = .trying [] lastError) :
    Does env s (.openSocket opened)
      { s with phase := .ended (.returned (env.unreachable lastError)) }
  | opened {info outcome infos lastError} (h : s.phase = .trying ((info, outcome) :: infos) lastError) :
    Does env s (.openSocket true)
      { s with
        phase := .connecting s.socks.opened.length info outcome infos
        socks := s.socks.create s.socks.opened.length }
  | notOpened {info e infos lastError} (h : s.phase = .trying ((info, .error e) :: infos) lastError) :
    Does env s (.openSocket false) { s with phase := .retry e infos }
  | connected {sock info infos} (hc : s.cancelled = false)
      (h : s.phase = .connecting sock info (.ok ()) infos) :
    Does env s .connect
      { s with phase := .first sock info, children := ready (env.firstBodies sock info) }
  | notConnected {sock info e infos} (hc : s.cancelled = false)
      (h : s.phase = .connecting sock info (.error e) infos) :
    Does env s .connect { s with phase := .retry e infos, socks := s.socks.close sock }
  | gatherFirst {sock info} (hall : ∀ c ∈ s.children, c.isDone) (h : s.phase = .first sock info) :
    Does env s .gather
      { s with
        phase := (env.afterFirst info s.settled).1
        children := ready (env.afterFirst info s.settled).2
        socks := s.socks.close sock }
  | gatherSecond {info classical} (hall : ∀ c ∈ s.children, c.isDone)
      (h : s.phase = .second info classical) :
    Does env s .gather { s with phase := env.afterSecond info classical s.settled, children := [] }
  | cancel (h : ∀ ending, s.phase ≠ .ended ending) :
    Does env s .cancel { s with cancelled := true, children := s.children.map Child.requestCancel }
  | cancelledResolving (hc : s.cancelled = true) (h : s.phase = .resolving) :
    Does env s .deliver { s with phase := .ended .cancelled }
  | cancelledConnecting {sock info outcome infos} (hc : s.cancelled = true)
      (h : s.phase = .connecting sock info outcome infos) :
    Does env s .deliver { s with phase := .ended .cancelled, socks := s.socks.close sock }
  | child {i c c' socks e} (hi : s.children[i]? = some c) (h : c.step s.socks e = some (c', socks)) :
    Does env s (.child i e) { s with children := s.children.set i c', socks }

theorem step_does {env : Env Info} {s s' : Probing Info} {e : Event} (h : s.step env e = some s') :
    Does env s e s' := by
  unfold step at h
  cases e with
  | resolve =>
    dsimp only at h
    split_ifs at h with hc
    cases hphase : s.phase with
    | resolving => rw [hphase] at h; cases h; exact .resolve (by simpa using hc) hphase
    | _ => rw [hphase] at h; cases h
  | openSocket opened =>
    cases hphase : s.phase with
    | trying infos lastError =>
      rw [hphase] at h
      cases infos with
      | nil => cases h; exact .exhausted hphase
      | cons p infos =>
        obtain ⟨info, outcome⟩ := p
        dsimp only at h
        cases opened with
        | true => cases h; exact .opened hphase
        | false =>
          cases outcome with
          | ok u => cases h
          | error e => cases h; exact .notOpened hphase
    | _ => rw [hphase] at h; cases h
  | connect =>
    dsimp only at h
    split_ifs at h with hc
    cases hphase : s.phase with
    | connecting sock info outcome infos =>
      rw [hphase] at h
      cases outcome with
      | ok u => cases h; exact .connected (by simpa using hc) hphase
      | error e => cases h; exact .notConnected (by simpa using hc) hphase
    | _ => rw [hphase] at h; cases h
  | gather =>
    dsimp only at h
    split_ifs at h with hall
    cases hphase : s.phase with
    | first sock info => rw [hphase] at h; cases h; exact .gatherFirst (List.all_eq_true.mp hall) hphase
    | second info classical =>
      rw [hphase] at h
      cases h
      exact .gatherSecond (List.all_eq_true.mp hall) hphase
    | _ => rw [hphase] at h; cases h
  | cancel =>
    dsimp only at h
    split at h
    · cases h
    · rename_i hphase
      cases h
      exact .cancel hphase
  | deliver =>
    dsimp only at h
    split_ifs at h with hc
    cases hphase : s.phase with
    | resolving => rw [hphase] at h; cases h; exact .cancelledResolving hc hphase
    | connecting sock info outcome infos =>
      rw [hphase] at h
      cases h
      exact .cancelledConnecting hc hphase
    | _ => rw [hphase] at h; cases h
  | child i e =>
    rw [Option.bind_eq_some_iff] at h
    obtain ⟨c, hc, h⟩ := h
    rw [Option.map_eq_some_iff] at h
    obtain ⟨⟨c', socks⟩, hstep, rfl⟩ := h
    exact .child hc hstep

/-! ## Sockets -/

namespace Child

variable {socks socks' : Ledger ℕ} {c c' : Child} {e : ChildEvent} {held : ℕ → Prop}

/-- A child that lets go of its socket closes it, and one that opens a socket holds it. -/
theorem step_covered (h : c.step socks e = some (c', socks'))
    (hc : socks.Covered fun r => c.holds = some r ∨ held r) :
    socks'.Covered fun r => c'.holds = some r ∨ held r := by
  obtain ⟨task, cancelled⟩ := c
  have hclose {sock : ℕ} {r : Except TaskExn Attempt}
      (hc : socks.Covered fun r => some sock = some r ∨ held r) :
      (socks.close sock).Covered fun x => (⟨.done r, false⟩ : Child).holds = some x ∨ held x :=
    (hc.mono fun x hx => hx.imp Option.some.inj id).close.mono fun x hx => .inr hx
  have hfree (hc : socks.Covered fun r => none = some r ∨ held r) : socks.Covered held :=
    hc.mono fun x hx => hx.resolve_left (by simp)
  have hnone {task : Task} (hc : socks.Covered fun r => none = some r ∨ held r) :
      socks.Covered fun x => (⟨task, false⟩ : Child).holds = some x ∨ held x :=
    (hfree hc).mono fun x hx => .inr hx
  unfold step at h
  cases e with
  | start opened =>
    split_ifs at h with hcancelled
    cases task with
    | ready body =>
      cases body with
      | handshake sock groups shaken => cases h; exact hnone hc
      | handshakeFresh groups fresh =>
        dsimp only at h
        split_ifs at h with hopened
        · cases h
          exact (hfree hc).create.mono fun x hx => hx.imp (congrArg some) id
        · cases fresh with
          | ok shaken => cases h
          | error err => cases h; exact hnone hc
    | connecting sock groups fresh => cases h
    | shaking sock groups shaken => cases h
    | done r => cases h
  | resume =>
    split_ifs at h with hcancelled
    cases task with
    | ready body => cases h
    | connecting sock groups fresh =>
      cases fresh with
      | ok shaken => cases h; exact hc
      | error err => cases h; exact hclose hc
    | shaking sock groups shaken => cases h; exact hclose hc
    | done r => cases h
  | cancel =>
    cases task with
    | done r => cases h
    | _ => cases h; exact hc
  | deliver =>
    split_ifs at h with hcancelled
    cases task with
    | ready body => cases h; exact hnone hc
    | connecting sock groups fresh => cases h; exact hclose hc
    | shaking sock groups shaken => cases h; exact hclose hc
    | done r => cases h

theorem holds_requestCancel (c : Child) : c.requestCancel.holds = c.holds := by
  unfold requestCancel
  split_ifs <;> rfl

theorem holds_of_isDone {c : Child} (h : c.isDone = true) : c.holds = none := by
  obtain ⟨task, cancelled⟩ := c
  cases task with
  | done r => rfl
  | _ => cases h

end Child

/-- What `probe` or one of the children is to close. -/
def Held (s : Probing Info) (r : ℕ) : Prop := s.phase.holds = some r ∨ HeldBy Child.holds s.children r

/-- Every socket has been closed or is held, and there are children in a gather only. -/
structure Inv (s : Probing Info) : Prop where
  covered : s.socks.Covered s.Held
  alone : s.phase.gathering = false → s.children = []

variable {env : Env Info} {s s' : Probing Info}

/-- Outside the gathers only `probe` has a socket. -/
theorem Inv.at_phase {phase : Await Info} (hi : s.Inv) (hphase : s.phase = phase)
    (h : phase.gathering = false) :
    (s.socks.Covered fun r => phase.holds = some r) ∧ s.children = [] := by
  subst hphase
  refine ⟨hi.covered.mono fun r hr => hr.resolve_right ?_, hi.alone h⟩
  rw [hi.alone h]
  rintro ⟨c, hc, -⟩
  cases hc

/-- In a gather whose children are done, too. -/
theorem Inv.at_gather {phase : Await Info} (hi : s.Inv) (hphase : s.phase = phase)
    (hall : ∀ c ∈ s.children, c.isDone) : s.socks.Covered fun r => phase.holds = some r := by
  subst hphase
  exact hi.covered.mono fun r hr => hr.resolve_right
    (not_heldBy (fun c hc => Child.holds_of_isDone (hall c hc)) r)

theorem inv_alone (hc : s.socks.Covered fun r => s.phase.holds = some r) (h : s.children = []) :
    s.Inv := ⟨hc.mono fun _ => .inl, fun _ => h⟩

theorem covered_close {sock : ℕ} {socks : Ledger ℕ} {held : ℕ → Prop}
    (hc : socks.Covered fun r => some sock = some r) : (socks.close sock).Covered held :=
  (hc.mono fun _ hx => .inl (Option.some.inj hx)).close

theorem inv_start (env : Env Info) : env.start.Inv where
  covered := Ledger.covered_empty
  alone := fun _ => rfl

theorem afterFirst_alone {info : Info} {results : Except TaskExn (List Attempt)}
    (h : (env.afterFirst info results).1.gathering = false) : (env.afterFirst info results).2 = [] := by
  unfold Env.afterFirst at h ⊢
  split at h
  · rfl
  · split_ifs at h with hv
    · cases h
    · rw [if_neg hv]
  · rfl

theorem inv_step (hi : s.Inv) {e : Event} (h : s.step env e = some s') : s'.Inv := by
  cases step_does h with
  | resolve hc hphase =>
    obtain ⟨hfree, hnil⟩ := hi.at_phase hphase rfl
    exact inv_alone (hfree.mono fun r hr => by cases hr) hnil
  | exhausted hphase =>
    obtain ⟨hfree, hnil⟩ := hi.at_phase hphase rfl
    exact inv_alone (hfree.mono fun r hr => by cases hr) hnil
  | opened hphase =>
    obtain ⟨hfree, hnil⟩ := hi.at_phase hphase rfl
    exact inv_alone (hfree.create.mono fun r hr => congrArg some (hr.resolve_right (by simp [Await.holds])))
      hnil
  | notOpened hphase =>
    obtain ⟨hfree, hnil⟩ := hi.at_phase hphase rfl
    exact inv_alone (hfree.mono fun r hr => by cases hr) hnil
  | connected hc hphase =>
    -- the connection goes over to the first gather
    obtain ⟨hsock, -⟩ := hi.at_phase hphase rfl
    exact ⟨hsock.mono fun r hr => .inl hr, fun hg => by cases hg⟩
  | notConnected hc hphase =>
    obtain ⟨hsock, hnil⟩ := hi.at_phase hphase rfl
    exact inv_alone (covered_close hsock) hnil
  | gatherFirst hall hphase =>
    refine ⟨covered_close (hi.at_gather hphase hall), fun hg => ?_⟩
    show ready (env.afterFirst _ s.settled).2 = []
    rw [afterFirst_alone hg]
    rfl
  | gatherSecond hall hphase =>
    exact inv_alone ((hi.at_gather hphase hall).mono fun r hr => by cases hr) rfl
  | cancel hphase =>
    refine ⟨hi.covered.mono fun r hr => hr.imp id ?_, fun hg => ?_⟩
    · rintro ⟨c, hc, hholds⟩
      exact ⟨c.requestCancel, List.mem_map_of_mem hc, c.holds_requestCancel.trans hholds⟩
    · show s.children.map Child.requestCancel = []
      rw [hi.alone hg, List.map_nil]
  | cancelledResolving hc hphase =>
    obtain ⟨hfree, hnil⟩ := hi.at_phase hphase rfl
    exact inv_alone (hfree.mono fun r hr => by cases hr) hnil
  | cancelledConnecting hc hphase =>
    obtain ⟨hsock, hnil⟩ := hi.at_phase hphase rfl
    exact inv_alone (covered_close hsock) hnil
  | child hc hstep =>
    rename_i i c c' socks e
    refine ⟨?_, fun hg => ?_⟩
    · have hheld : s.socks.Covered fun r => c.holds = some r ∨
          (s.phase.holds = some r ∨ HeldBy Child.holds (s.children.set i c') r) := by
        refine hi.covered.mono fun r hr => ?_
        obtain hprobe | hchild := hr
        · exact .inr (.inl hprobe)
        · exact (heldBy_set hc hchild).imp id .inr
      refine (Child.step_covered hstep hheld).mono fun r hr => ?_
      obtain hself | hother := hr
      · exact .inr (heldBy_set_self hc hself)
      · exact hother
    · have hnil := hi.alone hg
      rw [hnil] at hc
      cases hc

/-- **Sockets.** When `probe` has returned or raised, however its tasks were scheduled and whichever of
them were cancelled, every socket has been closed. -/
theorem run_closed {es : List Event} (h : run (fun s e => s.step env e) env.start es = some s)
    (hend : s.Ended) : ∀ sock ∈ s.socks.opened, sock ∈ s.socks.closed := by
  have hi : s.Inv := run_invariant (fun _ _ _ hi h => inv_step hi h) (inv_start env) h
  obtain ⟨ending, hphase⟩ := hend
  obtain ⟨hfree, -⟩ := hi.at_phase hphase rfl
  exact hfree.all_closed fun r hr => by cases hr

/-- One address, which accepts the connection. -/
def accepting : Env Unit where
  host := str "a.b"
  port := 443
  infos := .ok [((), .ok ())]
  address _ := str "192.0.2.1"
  shaken := .ok ⟨str "x25519", str "TLSv1.3", [], [], []⟩
  fresh _ _ _ := .ok (.ok ⟨str "x25519", str "TLSv1.3", [], [], []⟩)

/-- `probe` is cancelled when it has its connection, before any child has begun. -/
def cancelledEarly : List Event :=
  [.resolve, .openSocket true, .connect, .cancel, .child 2 .deliver, .child 0 .deliver,
    .child 1 .deliver, .child 3 .deliver, .child 4 .deliver, .gather]

theorem run_closed_cancelledEarly : ∃ s,
    run (fun s e => s.step accepting e) accepting.start cancelledEarly = some s ∧
    s.phase = .ended .cancelled ∧ s.socks.opened = [0] ∧
    ∀ sock ∈ s.socks.opened, sock ∈ s.socks.closed :=
  ⟨⟨.ended .cancelled, true, [], ⟨[0], [0]⟩⟩, rfl, rfl, rfl,
    @run_closed _ accepting _ cancelledEarly rfl ⟨_, rfl⟩⟩

/-! ## Without cancellation -/

/-- What a coroutine comes to. -/
def Body.value : Body → Except Exn Attempt
  | handshake _ groups shaken => Probe.handshake groups shaken
  | handshakeFresh groups fresh => Probe.handshakeFresh groups fresh

/-- What a child comes to when it is let run. -/
def Child.value (c : Child) : Except TaskExn Attempt :=
  match c.task with
  | .ready body => settle body.value
  | .connecting _ groups fresh => settle (handshakeFresh groups fresh)
  | .shaking _ groups shaken => settle (handshake groups shaken)
  | .done r => r

theorem Child.step_value {socks socks' : Ledger ℕ} {c c' : Child} {e : ChildEvent}
    (h : c.step socks e = some (c', socks')) (hc : c.cancelled = false) (he : e ≠ .cancel) :
    c'.value = c.value ∧ c'.cancelled = false := by
  obtain ⟨task, cancelled⟩ := c
  obtain rfl : cancelled = false := hc
  cases e with
  | start opened =>
    cases task with
    | ready body =>
      cases body with
      | handshake sock groups shaken => cases h; exact ⟨rfl, rfl⟩
      | handshakeFresh groups fresh =>
        cases opened with
        | true => cases h; exact ⟨rfl, rfl⟩
        | false =>
          cases fresh with
          | ok shaken => cases h
          | error err => cases h; exact ⟨rfl, rfl⟩
    | _ => cases h
  | resume =>
    cases task with
    | connecting sock groups fresh =>
      cases fresh with
      | ok shaken => cases h; exact ⟨rfl, rfl⟩
      | error err => cases h; exact ⟨rfl, rfl⟩
    | shaking sock groups shaken => cases h; exact ⟨rfl, rfl⟩
    | _ => cases h
  | cancel => exact absurd rfl he
  | deliver => cases h

def Ending.of : Except ProbeExn ProbeResult → Ending
  | .ok r => .returned r
  | .error e => .raised e

namespace Await

/-- The coroutines of the gather that is awaited. -/
def bodies (env : Env Info) : Await Info → List Body
  | first sock info => env.firstBodies sock info
  | second info _ => env.secondBodies info
  | _ => []

/-- What `probe` comes to from here. -/
def value (env : Env Info) : Await Info → Ending
  | resolving =>
    .of (match env.infos with
      | .error e =>
        if e.kind = .other then .error (.unexpected e)
        else .ok (env.unreachable (str "dns: " ++ reason e))
      | .ok infos => addresses env infos (str "no addresses"))
  | trying infos lastError => .of (addresses env infos lastError)
  | connecting _ info outcome infos => .of (addresses env ((info, outcome) :: infos) [])
  | first _ info => .of ((probeAt env info).mapError .unexpected)
  | second info classical =>
    .of (((secondRound env info).map fun p => env.result info p.1 p.2 classical).mapError .unexpected)
  | ended ending => ending
where
  addresses (env : Env Info) (infos : List (Info × Except Exn Unit)) (lastError : Str) :
      Except ProbeExn ProbeResult :=
    match connectFirst infos lastError with
    | .error e => .error (.unexpected e)
    | .ok (.inr error) => .ok (env.unreachable error)
    | .ok (.inl info) => (probeAt env info).mapError .unexpected

end Await

/-- Nothing was cancelled, and what is to come comes to the result of `Probe.probe`. -/
structure Undisturbed (env : Env Info) (s : Probing Info) : Prop where
  cancelled : s.cancelled = false
  children : ∀ c ∈ s.children, c.cancelled = false
  values : s.children.map Child.value = (s.phase.bodies env).map fun b => settle b.value
  result : s.phase.value env = .of (probe env)

theorem undisturbed_start (env : Env Info) : Undisturbed env env.start := by
  refine ⟨rfl, (fun c hc => by cases hc), ?_, ?_⟩
  · unfold Env.start
    dsimp only
    split_ifs <;> rfl
  · unfold Env.start probe
    dsimp only
    split_ifs
    · rfl
    · show Ending.of _ = Ending.of _
      cases env.infos with
      | error e => rfl
      | ok infos => rfl
    · rfl

theorem retry_value (env : Env Info) (e : Exn) (infos : List (Info × Except Exn Unit)) (info : Info)
    (lastError : Str) : (Await.retry e infos).value env =
      .of (Await.value.addresses env ((info, .error e) :: infos) lastError) := by
  unfold Await.retry Await.value.addresses connectFirst
  split_ifs <;> rfl

theorem retry_bodies (env : Env Info) (e : Exn) (infos : List (Info × Except Exn Unit)) :
    (Await.retry e infos).bodies env = [] := by
  unfold Await.retry
  split_ifs <;> rfl

theorem mapM_settle {α β : Type} (f : α → Except Exn β) (xs : List α) :
    (xs.map fun x => (f x).mapError TaskExn.raised).mapM id = (xs.mapM f).mapError .raised := by
  induction xs with
  | nil => rfl
  | cons x xs ih =>
    rw [List.map_cons, List.mapM_cons, List.mapM_cons, ih]
    cases f x with
    | error e => rfl
    | ok y => cases xs.mapM f <;> rfl

theorem mapM_result {cs : List Child} (h : ∀ c ∈ cs, c.isDone = true) :
    cs.mapM Child.result = (cs.map Child.value).mapM id := by
  induction cs with
  | nil => rfl
  | cons c cs ih =>
    rw [List.forall_mem_cons] at h
    have hc : c.result = c.value := by
      obtain ⟨task, cancelled⟩ := c
      cases task with
      | done r => rfl
      | _ => cases h.1
    rw [List.map_cons, List.mapM_cons, List.mapM_cons, ih h.2, hc]
    rfl

theorem settled_eq (hi : Undisturbed env s) (hall : ∀ c ∈ s.children, c.isDone = true) :
    s.settled = ((s.phase.bodies env).mapM Body.value).mapError .raised := by
  unfold settled
  rw [hi.cancelled, mapM_result hall, hi.values]
  exact mapM_settle Body.value _

theorem firstBodies_value (env : Env Info) (sock : ℕ) (info : Info) :
    (env.firstBodies sock info).mapM Body.value =
      (firstRound env info).map fun p => p.1 :: p.2.1 :: p.2.2 := by
  unfold Env.firstBodies probeGroups firstRound
  rw [List.map_cons, List.mapM_cons, List.mapM_cons, List.mapM_map]
  show (do
    let default ← handshake defaultOffer env.shaken
    let rest ← (do
      let pq ← handshakeFresh [pqGroup] (env.fresh .first info [pqGroup])
      let rest ← classicalGroups.mapM fun g => handshakeFresh [g] (env.fresh .first info [g])
      pure (pq :: rest))
    pure (default :: rest)) = _
  cases handshake defaultOffer env.shaken with
  | error e => rfl
  | ok default =>
    cases handshakeFresh [pqGroup] (env.fresh .first info [pqGroup]) with
    | error e => rfl
    | ok pq =>
      cases classicalGroups.mapM fun g => handshakeFresh [g] (env.fresh .first info [g]) <;> rfl

theorem secondBodies_value (env : Env Info) (info : Info) :
    (env.secondBodies info).mapM Body.value = (secondRound env info).map fun p => [p.1, p.2] := by
  unfold Env.secondBodies secondRound
  rw [List.mapM_cons, List.mapM_cons, List.mapM_nil]
  show (do
    let default ← handshakeFresh defaultOffer (env.fresh .second info defaultOffer)
    let rest ← (do
      let pq ← handshakeFresh [pqGroup] (env.fresh .second info [pqGroup])
      let rest ← pure []
      pure (pq :: rest))
    pure (default :: rest)) = _
  cases handshakeFresh defaultOffer (env.fresh .second info defaultOffer) with
  | error e => rfl
  | ok default => cases handshakeFresh [pqGroup] (env.fresh .second info [pqGroup]) <;> rfl

/-- What follows the first gather comes to what `probeAt` does. -/
theorem afterFirst_value (env : Env Info) (info : Info) :
    ((env.afterFirst info (((firstRound env info).map fun p => p.1 :: p.2.1 :: p.2.2).mapError
      .raised)).1.value env) = .of ((probeAt env info).mapError .unexpected) := by
  unfold probeAt
  cases firstRound env info with
  | error e => rfl
  | ok p =>
    obtain ⟨default, pq, classical⟩ := p
    dsimp only [Except.map, Except.mapError, Env.afterFirst, bind, Except.bind]
    by_cases hv : verdict pq classical = .pqBlocked
    · rw [if_pos hv, if_pos hv]
      show Ending.of _ = Ending.of _
      cases secondRound env info <;> rfl
    · rw [if_neg hv, if_neg hv]
      rfl

theorem afterSecond_value (env : Env Info) (info : Info) (classical : List Attempt) :
    (env.afterSecond info classical (((secondRound env info).map fun p => [p.1, p.2]).mapError
      .raised)).value env = (Await.second info classical).value env := by
  show _ = Ending.of _
  cases secondRound env info <;> rfl

theorem afterSecond_bodies (env : Env Info) (info : Info) (classical : List Attempt)
    (results : Except TaskExn (List Attempt)) :
    (env.afterSecond info classical results).bodies env = [] := by
  unfold Env.afterSecond
  split <;> rfl

theorem afterFirst_bodies (env : Env Info) (info : Info) (results : Except TaskExn (List Attempt)) :
    (env.afterFirst info results).2 = (env.afterFirst info results).1.bodies env := by
  unfold Env.afterFirst
  split
  · rfl
  · split_ifs <;> rfl
  · rfl

theorem ready_values (bodies : List Body) :
    (ready bodies).map Child.value = bodies.map fun b => settle b.value := by
  unfold ready
  rw [List.map_map]
  rfl

theorem ready_cancelled (bodies : List Body) : ∀ c ∈ ready bodies, c.cancelled = false := by
  intro c hc
  obtain ⟨body, -, rfl⟩ := List.mem_map.mp hc
  rfl

theorem undisturbed_step (hi : Undisturbed env s) {e : Event}
    (he : e ≠ .cancel ∧ ∀ i, e ≠ .child i .cancel)
    (h : s.step env e = some s') : Undisturbed env s' := by
  obtain ⟨hcancelled, hchildren, hvalues, hresult⟩ := hi
  cases step_does h with
  | resolve hc hphase =>
    rw [hphase] at hvalues hresult
    have hbodies : env.resolved.bodies env = [] := by
      unfold Env.resolved
      cases env.infos with
      | error e => dsimp only; split_ifs <;> rfl
      | ok infos => rfl
    refine ⟨hcancelled, hchildren, hvalues.trans (by rw [hbodies]; rfl), Eq.trans ?_ hresult⟩
    unfold Env.resolved Await.value
    cases env.infos with
    | error e => dsimp only; split_ifs <;> rfl
    | ok infos => rfl
  | exhausted hphase =>
    rw [hphase] at hvalues hresult
    exact ⟨hcancelled, hchildren, hvalues, hresult⟩
  | opened hphase =>
    rw [hphase] at hvalues hresult
    rename_i info outcome infos lastError
    refine ⟨hcancelled, hchildren, hvalues, Eq.trans ?_ hresult⟩
    cases outcome <;> rfl
  | notOpened hphase =>
    rw [hphase] at hvalues hresult
    exact ⟨hcancelled, hchildren, hvalues.trans (by rw [retry_bodies]; rfl),
      (retry_value env _ _ _ _).trans hresult⟩
  | connected hc hphase =>
    rw [hphase] at hresult
    exact ⟨hcancelled, ready_cancelled _, ready_values _, hresult⟩
  | notConnected hc hphase =>
    rw [hphase] at hvalues hresult
    exact ⟨hcancelled, hchildren, hvalues.trans (by rw [retry_bodies]; rfl),
      (retry_value env _ _ _ _).trans hresult⟩
  | gatherFirst hall hphase =>
    rename_i sock info
    have hsettled := settled_eq ⟨hcancelled, hchildren, hvalues, hresult⟩ hall
    rw [hphase] at hsettled hresult
    have hround : s.settled =
        ((firstRound env info).map fun p => p.1 :: p.2.1 :: p.2.2).mapError .raised :=
      hsettled.trans (congrArg _ (firstBodies_value env sock info))
    refine ⟨hcancelled, ready_cancelled _, ?_, ?_⟩
    · rw [ready_values, afterFirst_bodies]
    · show (env.afterFirst info s.settled).1.value env = _
      rw [hround, afterFirst_value]
      exact hresult
  | gatherSecond hall hphase =>
    rename_i info classical
    have hsettled := settled_eq ⟨hcancelled, hchildren, hvalues, hresult⟩ hall
    rw [hphase] at hsettled hresult
    have hround : s.settled = ((secondRound env info).map fun p => [p.1, p.2]).mapError .raised :=
      hsettled.trans (congrArg _ (secondBodies_value env info))
    refine ⟨hcancelled, (fun c hc => by cases hc), ?_, ?_⟩
    · show [] = ((env.afterSecond info classical s.settled).bodies env).map _
      rw [afterSecond_bodies, List.map_nil]
    · show (env.afterSecond info classical s.settled).value env = _
      rw [hround, afterSecond_value]
      exact hresult
  | cancel hphase => exact absurd rfl he.1
  | cancelledResolving hc hphase => rw [hcancelled] at hc; cases hc
  | cancelledConnecting hc hphase => rw [hcancelled] at hc; cases hc
  | child hc hstep =>
    rename_i i c c' socks e
    have hmem := List.mem_of_getElem? hc
    obtain ⟨hvalue, hnot⟩ :=
      Child.step_value hstep (hchildren c hmem) fun hcancel => he.2 i (hcancel ▸ rfl)
    refine ⟨hcancelled, fun d hd => ?_, ?_, hresult⟩
    · obtain hd | rfl := List.mem_or_eq_of_mem_set hd
      · exact hchildren d hd
      · exact hnot
    · obtain ⟨before, behind, heq, hset⟩ := split_getElem? hc
      show (s.children.set i c').map Child.value = _
      rw [← hvalues, hset c', heq, List.map_append, List.map_append, List.map_cons, List.map_cons,
        hvalue]

/-- **Without cancellation.** However its tasks are scheduled, `probe` ends as the sequential one. -/
theorem undisturbed_ends {es : List Event} {ending : Ending}
    (hes : ∀ e ∈ es, e ≠ .cancel ∧ ∀ i, e ≠ .child i .cancel)
    (h : run (fun s e => s.step env e) env.start es = some s) (hend : s.phase = .ended ending) :
    ending = .of (probe env) := by
  have hi : Undisturbed env s := by
    refine run_history (I := fun _ s => Undisturbed env s)
      (V := fun e => e ≠ .cancel ∧ ∀ i, e ≠ .child i .cancel)
      (fun _ s e s' hi he h => undisturbed_step hi he h) hes [] (undisturbed_start env) h
  have hresult := hi.result
  rw [hend] at hresult
  exact hresult

end Probing

end Probe

end Fizzpy
