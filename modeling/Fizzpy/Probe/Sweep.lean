import Fizzpy.Foundation.Simulation
import Fizzpy.Probe.Cancellation
import Fizzpy.Probe.Scan

/-!
# Scans that are left

`probe_many` with its tasks as they run: each one waits for the gate and then is at some await of its
probe or of the probe's children. The loop over the results may be left in the middle, by an exception, a
cancellation or the end of the generator; then all tasks are cancelled and waited for, and the wait may be
cancelled itself. However it comes, there are never more probes than the gate lets in, and none of them
leaves a socket open (`nothing_left`); the wait comes to an end (`leaving_ends`).
-/

namespace Fizzpy

namespace Probe

open Foundation

variable {Info : Type}

/-! ## How far a probe is from its end -/

namespace Probing

/-- No cancellation. -/
def Event.Calm : Event → Prop
  | .cancel | .child _ .cancel => False
  | _ => True

/-- The events that a child still takes part in, at most. -/
def Child.left (c : Child) : ℕ :=
  match c.task with
  | .ready _ => 3
  | .connecting _ _ _ => 2
  | .shaking _ _ _ => 1
  | .done _ => 0

/-- The same of `probe` itself, with the children of the gathers that are to come. -/
def Await.left (env : Env Info) : Await Info → ℕ
  | .resolving =>
    match env.infos with
    | .ok infos => 24 + 2 * infos.length
    | .error _ => 1
  | .trying infos _ => 23 + 2 * infos.length
  | .connecting _ _ _ infos => 24 + 2 * infos.length
  | .first _ _ => 8
  | .second _ _ => 1
  | .ended _ => 0

def left (env : Env Info) (s : Probing Info) : ℕ :=
  s.phase.left env + (s.children.map Child.left).sum

theorem Child.step_left {socks socks' : Ledger ℕ} {c c' : Child} {e : ChildEvent} (he : e ≠ .cancel)
    (h : c.step socks e = some (c', socks')) : c'.left < c.left := by
  obtain ⟨task, cancelled⟩ := c
  cases e with
  | start opened =>
    obtain ⟨-, h⟩ := Option.ite_none_left_eq_some.mp h
    cases task with
    | ready body =>
      cases body with
      | handshake sock groups shaken =>
        cases h
        simp [Child.left]
      | handshakeFresh groups fresh =>
        cases opened with
        | true =>
          cases h
          simp [Child.left]
        | false =>
          cases fresh with
          | ok shaken => cases h
          | error e =>
            cases h
            simp [Child.left]
    | _ => cases h
  | resume =>
    obtain ⟨-, h⟩ := Option.ite_none_left_eq_some.mp h
    cases task with
    | connecting sock groups fresh =>
      cases fresh with
      | ok shaken =>
        cases h
        simp [Child.left]
      | error e =>
        cases h
        simp [Child.left]
    | shaking sock groups shaken =>
      cases h
      simp [Child.left]
    | _ => cases h
  | cancel => exact absurd rfl he
  | deliver =>
    obtain ⟨-, h⟩ := Option.ite_none_left_eq_some.mp h
    cases task with
    | done r => cases h
    | _ =>
      cases h
      simp [Child.left]

theorem Child.left_requestCancel (c : Child) : c.requestCancel.left = c.left := by
  unfold Child.requestCancel
  split_ifs
  · rfl
  · rfl

/-- A child that is not done can go on. -/
theorem Child.goes_on (socks : Ledger ℕ) {c : Child} (h : c.isDone = false) :
    ∃ e x, e ≠ .cancel ∧ c.step socks e = some x := by
  obtain ⟨task, cancelled⟩ := c
  cases cancelled with
  | true =>
    refine ⟨.deliver, ?_⟩
    cases task with
    | done r => cases h
    | _ => exact ⟨_, nofun, rfl⟩
  | false =>
    cases task with
    | ready body =>
      cases body with
      | handshake sock groups shaken => exact ⟨.start true, _, nofun, rfl⟩
      | handshakeFresh groups fresh => exact ⟨.start true, _, nofun, rfl⟩
    | connecting sock groups fresh =>
      cases fresh with
      | ok shaken => exact ⟨.resume, _, nofun, rfl⟩
      | error e => exact ⟨.resume, _, nofun, rfl⟩
    | shaking sock groups shaken => exact ⟨.resume, _, nofun, rfl⟩
    | done r => cases h

theorem sum_left_ready (bodies : List Body) :
    ((ready bodies).map Child.left).sum = 3 * bodies.length := by
  unfold ready
  rw [List.map_map]
  simp [Function.comp_def, Child.left, Nat.mul_comm]

theorem retry_left (env : Env Info) (e : Exn) (infos : List (Info × Except Exn Unit)) :
    (Await.retry e infos).left env ≤ 23 + 2 * infos.length := by
  unfold Await.retry
  split_ifs
  · exact le_rfl
  · exact Nat.zero_le _

theorem resolved_left {env : Env Info} : env.resolved.left env < Await.resolving.left env := by
  unfold Env.resolved
  cases hinfos : env.infos with
  | error e =>
    simp only
    split_ifs
    · simp [Await.left, hinfos]
    · simp [Await.left, hinfos]
  | ok infos => simp [Await.left, hinfos]

theorem afterFirst_left (env : Env Info) (info : Info) (results : Except TaskExn (List Attempt)) :
    (env.afterFirst info results).1.left env + 3 * (env.afterFirst info results).2.length ≤ 7 := by
  unfold Env.afterFirst
  split
  · exact Nat.zero_le 7
  · split_ifs
    · exact le_rfl
    · exact Nat.zero_le 7
  · exact Nat.zero_le 7

theorem afterSecond_left (env : Env Info) (info : Info) (classical : List Attempt)
    (results : Except TaskExn (List Attempt)) : (env.afterSecond info classical results).left env = 0 := by
  unfold Env.afterSecond
  split
  · rfl
  · rfl
  · rfl

variable {env : Env Info} {s s' : Probing Info}

/-- Every event but a cancellation takes the probe nearer to its end. -/
theorem left_step {e : Event} (he : e.Calm) (h : s.step env e = some s') : s'.left env < s.left env := by
  unfold left
  cases step_does h with
  | resolve hc hphase =>
    rw [hphase]
    exact Nat.add_lt_add_right resolved_left _
  | exhausted hphase =>
    rw [hphase]
    exact Nat.add_lt_add_right (by simp [Await.left]) _
  | opened hphase =>
    rw [hphase]
    refine Nat.add_lt_add_right ?_ _
    simp only [Await.left, List.length_cons]
    omega
  | @notOpened info err infos lastError hphase =>
    rw [hphase]
    refine Nat.add_lt_add_right ((retry_left env err infos).trans_lt ?_) _
    simp only [Await.left, List.length_cons]
    omega
  | @connected sock info infos hc hphase =>
    rw [hphase]
    show 8 + ((ready (env.firstBodies sock info)).map Child.left).sum < _
    rw [sum_left_ready]
    show 8 + 3 * 5 < _
    simp only [Await.left]
    omega
  | @notConnected sock info err infos hc hphase =>
    rw [hphase]
    refine Nat.add_lt_add_right ((retry_left env err infos).trans_lt ?_) _
    simp only [Await.left]
    omega
  | @gatherFirst sock info hall hphase =>
    rw [hphase]
    show (env.afterFirst info s.settled).1.left env + ((ready _).map Child.left).sum < 8 + _
    rw [sum_left_ready]
    have hle := afterFirst_left env info s.settled
    omega
  | @gatherSecond info classical hall hphase =>
    rw [hphase]
    show (env.afterSecond info classical s.settled).left env + 0 < 1 + _
    rw [afterSecond_left]
    omega
  | cancel hphase => exact he.elim
  | cancelledResolving hc hphase =>
    rw [hphase]
    refine Nat.add_lt_add_right ?_ _
    unfold Await.left
    cases env.infos with
    | error e => exact Nat.one_pos
    | ok infos =>
      simp only
      omega
  | cancelledConnecting hc hphase =>
    rw [hphase]
    refine Nat.add_lt_add_right ?_ _
    simp only [Await.left]
    omega
  | @child i c c' socks e' hi hstep =>
    refine Nat.add_lt_add_left ?_ _
    have hne : e' ≠ .cancel := by
      rintro rfl
      exact he
    have hlt := Child.step_left hne hstep
    obtain ⟨before, behind, heq, hset⟩ := split_getElem? hi
    show ((s.children.set i c').map Child.left).sum < _
    rw [hset c', heq]
    simp only [List.map_append, List.map_cons, List.sum_append, List.sum_cons]
    omega

/-- A probe that has not ended can go on. -/
theorem goes_on (env : Env Info) (h : ∀ ending, s.phase ≠ .ended ending) :
    ∃ e s', e.Calm ∧ s.step env e = some s' := by
  have hgather : s.phase.gathering = true → ∃ e s', e.Calm ∧ s.step env e = some s' := by
    intro hg
    by_cases hall : s.children.all Child.isDone = true
    · refine ⟨.gather, ?_⟩
      cases hphase : s.phase with
      | first sock info =>
        simp only [step, if_pos hall, hphase]
        exact ⟨_, trivial, rfl⟩
      | second info classical =>
        simp only [step, if_pos hall, hphase]
        exact ⟨_, trivial, rfl⟩
      | _ =>
        rw [hphase] at hg
        cases hg
    · rw [List.all_eq_true, not_forall] at hall
      obtain ⟨c, hc⟩ := hall
      rw [Classical.not_imp, Bool.not_eq_true] at hc
      obtain ⟨hmem, hdone⟩ := hc
      obtain ⟨i, hi⟩ := List.mem_iff_getElem?.mp hmem
      obtain ⟨e, x, hne, hstep⟩ := Child.goes_on s.socks hdone
      have hcalm : (Event.child i e).Calm := by
        cases e with
        | cancel => exact absurd rfl hne
        | _ => trivial
      exact ⟨.child i e, _, hcalm, by simp only [step, hi, Option.bind_some, hstep, Option.map_some]; rfl⟩
  cases hphase : s.phase with
  | resolving =>
    cases hc : s.cancelled with
    | true =>
      exact ⟨.deliver, { s with phase := .ended .cancelled }, trivial, by simp [step, hc, hphase]⟩
    | false => exact ⟨.resolve, { s with phase := env.resolved }, trivial, by simp [step, hc, hphase]⟩
  | trying infos lastError =>
    refine ⟨.openSocket true, ?_⟩
    cases infos with
    | nil =>
      simp only [step, hphase]
      exact ⟨_, trivial, rfl⟩
    | cons x infos =>
      simp only [step, hphase, if_true]
      exact ⟨_, trivial, rfl⟩
  | connecting sock info outcome infos =>
    cases hc : s.cancelled with
    | true =>
      refine ⟨.deliver, ?_⟩
      simp only [step, hc, hphase, not_true_eq_false, if_false]
      exact ⟨_, trivial, rfl⟩
    | false =>
      refine ⟨.connect, ?_⟩
      cases outcome with
      | ok u =>
        simp only [step, hc, hphase, Bool.false_eq_true, if_false]
        exact ⟨_, trivial, rfl⟩
      | error e =>
        simp only [step, hc, hphase, Bool.false_eq_true, if_false]
        exact ⟨_, trivial, rfl⟩
  | first sock info => exact hgather (by rw [hphase]; rfl)
  | second info classical => exact hgather (by rw [hphase]; rfl)
  | ended ending => exact absurd hphase (h ending)

end Probing

/-! ## The scan -/

namespace Sweep

/-- Where a task stands. `cancelled`: it was cancelled before the gate, and has not been told yet. -/
inductive Task (Info : Type)
  | queued (cancelled : Bool)
  | probing (p : Probing Info)
  /-- How it ended, with the sockets of its probe. -/
  | done (ending : Probing.Ending) (socks : Ledger ℕ)

/-- `Task.cancel`; a task at its probe is cancelled there. -/
def Task.requestCancel (env : Env Info) : Task Info → Task Info
  | .queued _ => .queued true
  | .probing p => .probing ((p.step env .cancel).getD p)
  | .done ending socks => .done ending socks

def Task.isDone : Task Info → Bool
  | .done _ _ => true
  | _ => false

def Task.isProbing : Task Info → Bool
  | .probing _ => true
  | _ => false

/-- What `one` makes of the end of its probe. -/
def oneEnds (env : Env Info) : Probing.Ending → Probing.Ending
  | .raised (.unexpected e) =>
    .returned {
      host := env.host
      port := env.port
      verdict := .error
      error := some (e.name ++ str ": " ++ e.text) }
  | ending => ending

/-- How the loop over the results is left. -/
inductive Exit
  | exhausted
  /-- The generator is closed at its `yield`. -/
  | closed
  | cancelled
  | raised (e : ProbeExn)
  deriving DecidableEq

/-- `leaving`: in the `finally`, at its gather. -/
inductive Stage
  | looping
  | leaving (exit : Exit)
  | ended (exit : Exit)
  deriving DecidableEq

inductive Event
  /-- The `i`-th task passes the gate, and its probe goes up to its first await. -/
  | enter (i : ℕ)
  | probe (i : ℕ) (e : Probing.Event)
  | cancel (i : ℕ)
  /-- The `CancelledError` arrives, before the gate. -/
  | deliver (i : ℕ)
  /-- `await pending` has the next task that is done. -/
  | next
  | leave (exit : Exit)
  | cancelGather
  /-- All tasks are done. -/
  | gather
  deriving DecidableEq

end Sweep

/-- `probe_many`, with what each task meets. `free` is the value of `gate`, and `completed` has how the
tasks ended that are not awaited yet, in the order in which they did. -/
structure Sweep (Info : Type) where
  tasks : List (Env Info × Sweep.Task Info)
  free : ℕ
  completed : List Probing.Ending := []
  yielded : List ProbeResult := []
  stage : Sweep.Stage := .looping

namespace Sweep

def start (c : ℕ) (envs : List (Env Info)) : Sweep Info where
  tasks := envs.map fun env => (env, .queued false)
  free := c

/-- The `i`-th task is at its probe, or done with it and out of the gate. -/
def proceed (s : Sweep Info) (i : ℕ) (env : Env Info) (p : Probing Info) : Sweep Info :=
  match p.phase with
  | .ended ending =>
    { s with
      tasks := s.tasks.set i (env, .done (oneEnds env ending) p.socks)
      free := s.free + 1
      completed := s.completed ++ [oneEnds env ending] }
  | _ => { s with tasks := s.tasks.set i (env, .probing p) }

def cancelAll (s : Sweep Info) : Sweep Info :=
  { s with tasks := s.tasks.map fun x => (x.1, x.2.requestCancel x.1) }

/-- The `finally` cancels every task and gathers them. -/
def leave (exit : Exit) (s : Sweep Info) : Sweep Info := { s.cancelAll with stage := .leaving exit }

/-- An exception is raised by `next` only; the loop is over when every task was awaited. -/
def CanLeave (s : Sweep Info) : Exit → Prop
  | .exhausted => s.yielded.length = s.tasks.length
  | .closed | .cancelled => True
  | .raised _ => False

instance (s : Sweep Info) : (exit : Exit) → Decidable (s.CanLeave exit)
  | .exhausted => inferInstanceAs (Decidable (s.yielded.length = s.tasks.length))
  | .closed | .cancelled => .isTrue trivial
  | .raised _ => .isFalse id

def step (s : Sweep Info) : Event → Option (Sweep Info)
  | .enter i =>
    match s.tasks[i]? with
    | some (env, .queued false) =>
      if s.free = 0 then none else some ({ s with free := s.free - 1 }.proceed i env env.start)
    | _ => none
  | .probe i e =>
    match s.tasks[i]? with
    | some (env, .probing p) => (p.step env e).map (s.proceed i env)
    | _ => none
  | .cancel i =>
    (s.tasks[i]?).map fun x => { s with tasks := s.tasks.set i (x.1, x.2.requestCancel x.1) }
  | .deliver i =>
    match s.tasks[i]? with
    | some (env, .queued true) =>
      some { s with
        tasks := s.tasks.set i (env, .done .cancelled {})
        completed := s.completed ++ [.cancelled] }
    | _ => none
  | .next =>
    match s.stage, s.completed with
    | .looping, .returned r :: completed => some { s with completed, yielded := s.yielded ++ [r] }
    | .looping, .raised e :: completed => some ({ s with completed }.leave (.raised e))
    | .looping, .cancelled :: completed => some ({ s with completed }.leave .cancelled)
    | _, _ => none
  | .leave exit => if s.stage = .looping ∧ s.CanLeave exit then some (s.leave exit) else none
  | .cancelGather =>
    match s.stage with
    -- the tasks are cancelled again, and still waited for
    | .leaving _ => some (s.leave .cancelled)
    | _ => none
  | .gather =>
    match s.stage with
    | .leaving exit =>
      if s.tasks.all fun x => x.2.isDone then some { s with stage := .ended exit } else none
    | _ => none

/-- The probes in flight. -/
def inFlight (s : Sweep Info) : ℕ := s.tasks.countP fun x => x.2.isProbing

/-! ## The steps, one by one -/

/-- A step changes one task, by itself or with its probe; or it changes the loop. -/
inductive Does (s : Sweep Info) : Event → Sweep Info → Prop
  | enter {i : ℕ} {env : Env Info} (hi : s.tasks[i]? = some (env, .queued false)) (hfree : s.free ≠ 0) :
    Does s (.enter i) ({ s with free := s.free - 1 }.proceed i env env.start)
  | probe {i : ℕ} {env : Env Info} {p p' : Probing Info} {e : Probing.Event}
      (hi : s.tasks[i]? = some (env, .probing p)) (hp : p.step env e = some p') :
    Does s (.probe i e) (s.proceed i env p')
  | cancel {i : ℕ} {env : Env Info} {t : Task Info} (hi : s.tasks[i]? = some (env, t)) :
    Does s (.cancel i) { s with tasks := s.tasks.set i (env, t.requestCancel env) }
  | deliver {i : ℕ} {env : Env Info} (hi : s.tasks[i]? = some (env, .queued true)) :
    Does s (.deliver i)
      { s with
        tasks := s.tasks.set i (env, .done .cancelled {})
        completed := s.completed ++ [.cancelled] }
  | yielded {r : ProbeResult} {completed : List Probing.Ending} (hstage : s.stage = .looping)
      (hcompleted : s.completed = .returned r :: completed) :
    Does s .next { s with completed, yielded := s.yielded ++ [r] }
  | raised {e : ProbeExn} {completed : List Probing.Ending} (hstage : s.stage = .looping)
      (hcompleted : s.completed = .raised e :: completed) :
    Does s .next ({ s with completed }.leave (.raised e))
  | nextCancelled {completed : List Probing.Ending} (hstage : s.stage = .looping)
      (hcompleted : s.completed = .cancelled :: completed) :
    Does s .next ({ s with completed }.leave .cancelled)
  | leave {exit : Exit} (hstage : s.stage = .looping) (hexit : s.CanLeave exit) :
    Does s (.leave exit) (s.leave exit)
  | cancelGather {exit : Exit} (hstage : s.stage = .leaving exit) :
    Does s .cancelGather (s.leave .cancelled)
  | gather {exit : Exit} (hstage : s.stage = .leaving exit) (hall : ∀ x ∈ s.tasks, x.2.isDone = true) :
    Does s .gather { s with stage := .ended exit }

theorem step_does {s s' : Sweep Info} {e : Event} (h : s.step e = some s') : Does s e s' := by
  unfold step at h
  cases e with
  | enter i =>
    dsimp only at h
    split at h
    · next env hi =>
      split_ifs at h with hfree
      cases h
      exact .enter hi hfree
    · cases h
  | probe i e =>
    dsimp only at h
    split at h
    · next env p hi =>
      obtain ⟨p', hp, rfl⟩ := Option.map_eq_some_iff.mp h
      exact .probe hi hp
    · cases h
  | cancel i =>
    obtain ⟨⟨env, t⟩, hi, rfl⟩ := Option.map_eq_some_iff.mp h
    exact .cancel hi
  | deliver i =>
    dsimp only at h
    split at h
    · next env hi =>
      cases h
      exact .deliver hi
    · cases h
  | next =>
    dsimp only at h
    split at h
    · next hstage hcompleted =>
      cases h
      exact .yielded hstage hcompleted
    · next hstage hcompleted =>
      cases h
      exact .raised hstage hcompleted
    · next hstage hcompleted =>
      cases h
      exact .nextCancelled hstage hcompleted
    · cases h
  | leave exit =>
    obtain ⟨⟨hstage, hexit⟩, h⟩ := Option.ite_none_right_eq_some.mp h
    cases h
    exact .leave hstage hexit
  | cancelGather =>
    dsimp only at h
    split at h
    · next hstage =>
      cases h
      exact .cancelGather hstage
    · cases h
  | gather =>
    dsimp only at h
    split at h
    · next hstage =>
      split_ifs at h with hall
      cases h
      exact .gather hstage (List.all_eq_true.mp hall)
    · cases h

/-! ## Cancelled tasks -/

/-- The sockets of a task that is done are closed, and the probe of one that is not has not ended. -/
def Task.Clean : Task Info → Prop
  | .queued _ => True
  | .probing p => p.Inv ∧ ∀ ending, p.phase ≠ .ended ending
  | .done _ socks => ∀ sock ∈ socks.opened, sock ∈ socks.closed

/-- The events that a task still takes part in, at most. -/
def Task.left (env : Env Info) : Task Info → ℕ
  | .queued _ => env.start.left env + 2
  | .probing p => p.left env + 1
  | .done _ _ => 0

namespace Task

variable {env : Env Info} {t : Task Info}

/-- A cancelled probe is where it was. -/
theorem cancel_probing (env : Env Info) (p : Probing Info) :
    (p.step env .cancel).getD p = p ∨ ∃ p', p.step env .cancel = some p' ∧
      (p.step env .cancel).getD p = p' ∧ p'.phase = p.phase ∧ p'.left env = p.left env := by
  cases hp : p.step env .cancel with
  | none => exact .inl rfl
  | some p' =>
    refine .inr ⟨p', rfl, rfl, ?_⟩
    cases Probing.step_does hp with
    | cancel hphase =>
      refine ⟨rfl, ?_⟩
      unfold Probing.left
      rw [List.map_map]
      congr 2
      exact List.map_congr_left fun c _ => c.left_requestCancel

theorem isDone_requestCancel : (t.requestCancel env).isDone = t.isDone := by cases t <;> rfl

theorem isProbing_requestCancel : (t.requestCancel env).isProbing = t.isProbing := by cases t <;> rfl

theorem requestCancel_ne : t.requestCancel env ≠ .queued false := by cases t <;> nofun

theorem left_requestCancel : (t.requestCancel env).left env = t.left env := by
  cases t with
  | queued cancelled => rfl
  | probing p =>
    obtain h | ⟨p', -, h, -, hleft⟩ := cancel_probing env p
    · exact congrArg (fun q => Probing.left env q + 1) h
    · exact (congrArg (fun q => Probing.left env q + 1) h).trans (congrArg (· + 1) hleft)
  | done ending socks => rfl

theorem Clean.requestCancel (h : t.Clean) : (t.requestCancel env).Clean := by
  cases t with
  | queued cancelled => trivial
  | probing p =>
    obtain ⟨hinv, hphase⟩ := h
    show ((p.step env .cancel).getD p).Inv ∧ ∀ ending, ((p.step env .cancel).getD p).phase ≠ .ended ending
    obtain heq | ⟨p', hp, heq, hsame, -⟩ := cancel_probing env p
    · rw [heq]
      exact ⟨hinv, hphase⟩
    · rw [heq, hsame]
      exact ⟨Probing.inv_step hinv hp, hphase⟩
  | done ending socks => exact h

end Task

/-! ## The invariant -/

structure Inv (c : ℕ) (s : Sweep Info) : Prop where
  gate : s.free + s.inFlight = c
  clean : ∀ x ∈ s.tasks, x.2.Clean
  /-- Once the loop is left, nobody goes through the gate. -/
  told : s.stage ≠ .looping → ∀ x ∈ s.tasks, x.2 ≠ .queued false
  ended : ∀ exit, s.stage = .ended exit → ∀ x ∈ s.tasks, x.2.isDone = true

section

variable {c : ℕ} {s s' : Sweep Info} {i : ℕ} {env : Env Info} {t : Task Info}

theorem inv_start (c : ℕ) (envs : List (Env Info)) : (start c envs).Inv c where
  gate := by simp [start, inFlight, Task.isProbing]
  clean := by
    intro x hx
    obtain ⟨env, -, rfl⟩ := List.mem_map.mp hx
    trivial
  told := fun h => absurd rfl h
  ended := nofun

/-- One task takes a step. -/
theorem Inv.set {t' : Task Info} {tasks : List (Env Info × Task Info)} {free : ℕ}
    {completed : List Probing.Ending} {yielded : List ProbeResult} (h : s.Inv c)
    (hi : s.tasks[i]? = some (env, t)) (htasks : tasks = s.tasks.set i (env, t'))
    (hgate : free + (if t'.isProbing then 1 else 0) = s.free + (if t.isProbing then 1 else 0))
    (hclean : t'.Clean) (htold : s.stage ≠ .looping → t' ≠ .queued false)
    (hended : t.isDone = true → t'.isDone = true) : Inv c ⟨tasks, free, completed, yielded, s.stage⟩ := by
  obtain ⟨before, behind, heq, hset⟩ := split_getElem? hi
  obtain ⟨hgate', hclean', htold', hended'⟩ := h
  rw [inFlight, heq] at hgate'
  rw [heq, List.forall_mem_append, List.forall_mem_cons] at hclean'
  subst htasks
  refine ⟨?_, ?_, fun hs => ?_, fun exit hs => ?_⟩
  · show free + (s.tasks.set i (env, t')).countP _ = c
    rw [hset, List.countP_append, List.countP_cons]
    rw [List.countP_append, List.countP_cons] at hgate'
    simp only at hgate' ⊢
    omega
  · show ∀ x ∈ s.tasks.set i (env, t'), x.2.Clean
    rw [hset, List.forall_mem_append, List.forall_mem_cons]
    exact ⟨hclean'.1, hclean, hclean'.2.2⟩
  · have hall := htold' hs
    rw [heq, List.forall_mem_append, List.forall_mem_cons] at hall
    show ∀ x ∈ s.tasks.set i (env, t'), x.2 ≠ .queued false
    rw [hset, List.forall_mem_append, List.forall_mem_cons]
    exact ⟨hall.1, htold hs, hall.2.2⟩
  · have hall := hended' exit hs
    rw [heq, List.forall_mem_append, List.forall_mem_cons] at hall
    show ∀ x ∈ s.tasks.set i (env, t'), x.2.isDone = true
    rw [hset, List.forall_mem_append, List.forall_mem_cons]
    exact ⟨hall.1, hended hall.2.1, hall.2.2⟩

/-- A task that is at its probe, or is done with it. -/
theorem proceed_cases (s : Sweep Info) (i : ℕ) (env : Env Info) (p : Probing Info) :
    (∃ ending, p.phase = .ended ending ∧ s.proceed i env p =
      { s with
        tasks := s.tasks.set i (env, .done (oneEnds env ending) p.socks)
        free := s.free + 1
        completed := s.completed ++ [oneEnds env ending] }) ∨
    ((∀ ending, p.phase ≠ .ended ending) ∧
      s.proceed i env p = { s with tasks := s.tasks.set i (env, .probing p) }) := by
  unfold proceed
  split
  · next ending hp => exact .inl ⟨ending, hp, rfl⟩
  · next hp => exact .inr ⟨hp, rfl⟩

theorem ended_clean {p : Probing Info} {ending : Probing.Ending} (h : p.Inv) (hp : p.phase = .ended ending) :
    ∀ sock ∈ p.socks.opened, sock ∈ p.socks.closed := by
  obtain ⟨hfree, -⟩ := h.at_phase hp rfl
  exact hfree.all_closed fun r hr => by cases hr

theorem Inv.leave (h : s.Inv c) {completed : List Probing.Ending} {exit : Exit} :
    Inv c ({ s with completed }.leave exit) := by
  refine ⟨?_, fun x hx => ?_, fun _ x hx => ?_, nofun⟩
  · have hsame : (s.tasks.map fun x => (x.1, x.2.requestCancel x.1)).countP (fun x => x.2.isProbing) =
        s.inFlight := by
      rw [List.countP_map]
      exact List.countP_congr fun x _ => by rw [Function.comp_apply, Task.isProbing_requestCancel]
    show s.free + (s.tasks.map _).countP _ = c
    rw [hsame]
    exact h.gate
  · obtain ⟨y, hy, rfl⟩ := List.mem_map.mp hx
    exact (h.clean y hy).requestCancel
  · obtain ⟨y, hy, rfl⟩ := List.mem_map.mp hx
    exact Task.requestCancel_ne

theorem inv_step {e : Event} (h : s.Inv c) (hs : s.step e = some s') : s'.Inv c := by
  cases step_does hs with
  | @enter i env hi hfree =>
    have hloop : s.stage = .looping := by
      by_contra hne
      exact h.told hne _ (List.mem_of_getElem? hi) rfl
    obtain ⟨ending, hp, heq⟩ | ⟨hp, heq⟩ := { s with free := s.free - 1 }.proceed_cases i env env.start
    · rw [heq]
      refine h.set hi rfl ?_ (ended_clean (Probing.inv_start env) hp) (fun _ => nofun) (fun _ => rfl)
      show s.free - 1 + 1 + 0 = s.free + 0
      omega
    · rw [heq]
      refine h.set hi rfl ?_ ⟨Probing.inv_start env, hp⟩ (fun _ => nofun) nofun
      show s.free - 1 + 1 = s.free + 0
      omega
  | @probe i env p p' e hi hp =>
    have hinv := Probing.inv_step (h.clean _ (List.mem_of_getElem? hi)).1 hp
    obtain ⟨ending, hend, heq⟩ | ⟨hend, heq⟩ := s.proceed_cases i env p'
    · rw [heq]
      exact h.set hi rfl rfl (ended_clean hinv hend) (fun _ => nofun) (fun _ => rfl)
    · rw [heq]
      exact h.set hi rfl rfl ⟨hinv, hend⟩ (fun _ => nofun) nofun
  | @cancel i env t hi =>
    refine h.set hi rfl ?_ (h.clean _ (List.mem_of_getElem? hi)).requestCancel
      (fun _ => Task.requestCancel_ne) (fun hd => Task.isDone_requestCancel.trans hd)
    rw [Task.isProbing_requestCancel]
  | deliver hi => exact h.set hi rfl rfl (fun _ hx => hx) (fun _ => nofun) nofun
  | yielded hstage hcompleted => exact ⟨h.gate, h.clean, h.told, h.ended⟩
  | raised hstage hcompleted => exact h.leave
  | nextCancelled hstage hcompleted => exact h.leave
  | leave hstage hexit => exact h.leave
  | cancelGather hstage => exact h.leave
  | gather hstage hall =>
    exact ⟨h.gate, h.clean, fun _ x hx hq => by simpa [hq, Task.isDone] using hall x hx, fun _ _ => hall⟩

theorem inv_run {envs : List (Env Info)} {es : List Event} (h : run step (start c envs) es = some s) :
    s.Inv c := run_invariant (fun _ _ _ hi hs => inv_step hi hs) (inv_start c envs) h

/-! ## The way to the end -/

/-- No cancellation. -/
def Event.Calm : Event → Prop
  | .cancel _ | .cancelGather => False
  | .probe _ e => e.Calm
  | _ => True

def Stage.left : Stage → ℕ
  | .looping => 2
  | .leaving _ => 1
  | .ended _ => 0

/-- The events that are still to come, at most. -/
def pending (s : Sweep Info) : ℕ :=
  (s.tasks.map fun x => x.2.left x.1).sum + s.completed.length + s.stage.left

/-- A task takes a step. -/
theorem pending_set {t' : Task Info} (hi : s.tasks[i]? = some (env, t))
    (htasks : s'.tasks = s.tasks.set i (env, t')) (hstage : s'.stage = s.stage)
    (hlt : t'.left env + s'.completed.length < t.left env + s.completed.length) :
    s'.pending < s.pending := by
  obtain ⟨before, behind, heq, hset⟩ := split_getElem? hi
  unfold pending
  rw [htasks, hset, heq, hstage]
  simp only [List.map_append, List.map_cons, List.sum_append, List.sum_cons]
  omega

theorem pending_proceed {free : ℕ} {p : Probing Info} (hi : s.tasks[i]? = some (env, t))
    (hleft : p.left env + 1 < t.left env) :
    ({ s with free }.proceed i env p).pending < s.pending := by
  obtain ⟨ending, -, heq⟩ | ⟨-, heq⟩ := { s with free }.proceed_cases i env p
  · rw [heq]
    refine pending_set hi rfl rfl ?_
    show 0 + (s.completed ++ [_]).length < _
    rw [List.length_append, List.length_singleton]
    omega
  · rw [heq]
    refine pending_set hi rfl rfl ?_
    show p.left env + 1 + s.completed.length < _
    omega

theorem pending_leave {completed : List Probing.Ending} {exit : Exit}
    (hlt : completed.length + 1 < s.completed.length + s.stage.left) :
    ({ s with completed }.leave exit).pending < s.pending := by
  have hsum : ((s.tasks.map fun x => (x.1, x.2.requestCancel x.1)).map fun x => x.2.left x.1).sum =
      (s.tasks.map fun x => x.2.left x.1).sum := by
    rw [List.map_map]
    congr 1
    exact List.map_congr_left fun x _ => Task.left_requestCancel
  show ((s.tasks.map fun x => (x.1, x.2.requestCancel x.1)).map _).sum + completed.length + 1 <
    (s.tasks.map _).sum + s.completed.length + s.stage.left
  rw [hsum]
  omega

/-- Every event but a cancellation takes the scan nearer to its end. -/
theorem pending_step {e : Event} (he : e.Calm) (h : s.step e = some s') : s'.pending < s.pending := by
  cases step_does h with
  | enter hi hfree => exact pending_proceed hi (Nat.lt_succ_self _)
  | probe hi hp => exact pending_proceed hi (Nat.add_lt_add_right (Probing.left_step he hp) 1)
  | cancel hi => exact he.elim
  | deliver hi =>
    refine pending_set hi rfl rfl ?_
    show 0 + (s.completed ++ [_]).length < _ + 2 + _
    rw [List.length_append, List.length_singleton]
    omega
  | yielded hstage hcompleted =>
    unfold pending
    simp only [hcompleted, List.length_cons]
    omega
  | raised hstage hcompleted =>
    refine pending_leave ?_
    rw [hcompleted, hstage, List.length_cons]
    exact Nat.lt_add_of_pos_right (by decide)
  | nextCancelled hstage hcompleted =>
    refine pending_leave ?_
    rw [hcompleted, hstage, List.length_cons]
    exact Nat.lt_add_of_pos_right (by decide)
  | leave hstage hexit =>
    refine pending_leave ?_
    rw [hstage]
    exact Nat.lt_succ_self _
  | cancelGather hstage => exact he.elim
  | gather hstage hall =>
    unfold pending
    rw [hstage]
    exact Nat.lt_succ_self _

theorem proceed_stage (s : Sweep Info) (i : ℕ) (env : Env Info) (p : Probing Info) :
    (s.proceed i env p).stage = s.stage := by
  unfold proceed
  split <;> rfl

/-- Only a cancellation changes how the loop was left. -/
theorem left_as {e : Event} {exit : Exit} (he : e.Calm) (h : s.step e = some s')
    (hstage : s.stage = .leaving exit ∨ s.stage = .ended exit) :
    s'.stage = .leaving exit ∨ s'.stage = .ended exit := by
  have hloop : s.stage ≠ .looping := by
    rintro heq
    rw [heq] at hstage
    rcases hstage with hstage | hstage
    · cases hstage
    · cases hstage
  cases step_does h with
  | enter hi hfree =>
    rw [proceed_stage]
    exact hstage
  | probe hi hp =>
    rw [proceed_stage]
    exact hstage
  | cancel hi => exact he.elim
  | deliver hi => exact hstage
  | yielded hlooping hcompleted => exact absurd hlooping hloop
  | raised hlooping hcompleted => exact absurd hlooping hloop
  | nextCancelled hlooping hcompleted => exact absurd hlooping hloop
  | leave hlooping hexit => exact absurd hlooping hloop
  | cancelGather hleaving => exact he.elim
  | gather hleaving hall =>
    rw [hleaving] at hstage
    rcases hstage with hstage | hstage
    · cases hstage
      exact .inr rfl
    · cases hstage

/-- While the tasks are waited for, one of them can go on, or the wait is over. -/
theorem Inv.goes_on (h : s.Inv c) {exit : Exit} (hstage : s.stage = .leaving exit) :
    ∃ e s', e.Calm ∧ s.step e = some s' := by
  have hleft : s.stage ≠ .looping := by
    rw [hstage]
    nofun
  by_cases hall : (s.tasks.all fun x => x.2.isDone) = true
  · refine ⟨.gather, { s with stage := .ended exit }, trivial, ?_⟩
    simp only [step, hstage, if_pos hall]
  · rw [List.all_eq_true, not_forall] at hall
    obtain ⟨⟨env, t⟩, hx⟩ := hall
    rw [Classical.not_imp] at hx
    obtain ⟨hmem, hdone⟩ := hx
    obtain ⟨i, hi⟩ := List.mem_iff_getElem?.mp hmem
    cases t with
    | queued cancelled =>
      cases cancelled with
      | true =>
        refine ⟨.deliver i, ?_⟩
        simp only [step, hi]
        exact ⟨_, trivial, rfl⟩
      | false => exact absurd rfl (h.told hleft _ hmem)
    | probing p =>
      obtain ⟨e, p', he, hp⟩ := Probing.goes_on env (h.clean _ hmem).2
      refine ⟨.probe i e, s.proceed i env p', he, ?_⟩
      simp only [step, hi, hp, Option.map_some]
    | done ending socks => exact absurd rfl hdone

end

/-! ## The results -/

section

variable {c : ℕ} {envs : List (Env Info)} {s : Sweep Info} {es : List Event}

/-- **What a scan leaves.** Whatever is cancelled and however the loop is left, at no time are there more
probes than the gate lets in, a task that is done has closed its sockets, and behind the loop no task starts
to probe. When the generator has ended, all of its tasks are done, and the gate is as it was. -/
theorem nothing_left (h : run step (start c envs) es = some s) :
    s.free + s.inFlight = c ∧
    (∀ env ending socks, (env, .done ending socks) ∈ s.tasks →
      ∀ sock ∈ socks.opened, sock ∈ socks.closed) ∧
    (s.stage ≠ .looping → ∀ i, s.step (.enter i) = none) ∧
    ∀ exit, s.stage = .ended exit → s.free = c ∧
      ∀ x ∈ s.tasks, ∃ ending socks, x.2 = .done ending socks := by
  have hi := inv_run h
  refine ⟨hi.gate, fun env ending socks hmem => hi.clean _ hmem, fun hstage i => ?_, fun exit hstage => ?_⟩
  · by_contra hne
    obtain ⟨s', hs'⟩ := Option.ne_none_iff_exists'.mp hne
    cases step_does hs' with
    | enter hq hfree => exact hi.told hstage _ (List.mem_of_getElem? hq) rfl
  · have hdone := hi.ended exit hstage
    have hnone : s.inFlight = 0 := by
      refine List.countP_eq_zero.mpr fun x hx => ?_
      have hd := hdone x hx
      cases ht : x.2 with
      | done ending socks => nofun
      | _ =>
        rw [ht] at hd
        cases hd
    refine ⟨by rw [← hi.gate, hnone, Nat.add_zero], fun x hx => ?_⟩
    have hd := hdone x hx
    cases ht : x.2 with
    | done ending socks => exact ⟨ending, socks, rfl⟩
    | _ =>
      rw [ht] at hd
      cases hd

/-- **The wait ends.** Behind the loop, whatever comes but a cancellation, the generator ends as the loop was
left, after a number of events that is known. -/
theorem leaving_ends (h : run step (start c envs) es = some s) {exit : Exit}
    (hstage : s.stage = .leaving exit) {es' : List Event} {s' : Sweep Info} (hcalm : ∀ e ∈ es', e.Calm)
    (h' : run step s es' = some s') :
    es'.length ≤ s.pending ∧
      (s'.stage = .ended exit ∨
        s'.stage = .leaving exit ∧ ∃ e s'', e.Calm ∧ s'.step e = some s'') := by
  have hstep : ∀ (x : Sweep Info) (e : Event) (x' : Sweep Info), (x.Inv c ∧ (x.stage = .leaving exit ∨
      x.stage = .ended exit)) → e.Calm → x.step e = some x' →
      (x'.Inv c ∧ (x'.stage = .leaving exit ∨ x'.stage = .ended exit)) ∧ x'.pending < x.pending :=
    fun x e x' hx he hs => ⟨⟨inv_step hx.1 hs, left_as he hs hx.2⟩, pending_step he hs⟩
  obtain ⟨⟨hi, hstage'⟩, hle⟩ := run_measured hstep ⟨inv_run h, .inl hstage⟩ hcalm h'
  refine ⟨Nat.le_of_add_right_le hle, ?_⟩
  rcases hstage' with hstage' | hstage'
  · exact .inr ⟨hstage', hi.goes_on hstage'⟩
  · exact .inl hstage'

/-- Two targets behind a gate for one; the scan is closed while the first is connected to. -/
def closedEarly : List Event :=
  [.enter 0, .probe 0 .resolve, .probe 0 (.openSocket true), .leave .closed]

/-- What is left of it to do. -/
def waitedFor : List Event := [.deliver 1, .probe 0 .deliver, .gather]

theorem nothing_left_closedEarly : ∃ s,
    run step (start 1 [Probing.accepting, Probing.accepting]) (closedEarly ++ waitedFor) = some s ∧
    s.stage = .ended .closed ∧ s.free = 1 ∧
    ∀ x ∈ s.tasks, ∃ ending socks, x.2 = .done ending socks := by
  have h : (run step (start 1 [Probing.accepting, Probing.accepting]) (closedEarly ++ waitedFor)).map
      stage = some (.ended .closed) := by
    decide +kernel
  obtain ⟨s, hs, hstage⟩ := Option.map_eq_some_iff.mp h
  obtain ⟨-, -, -, hended⟩ := nothing_left hs
  exact ⟨s, hs, hstage, hended .closed hstage⟩

theorem leaving_ends_closedEarly : ∃ s s',
    run step (start 1 [Probing.accepting, Probing.accepting]) closedEarly = some s ∧
    run step s (waitedFor.take 2) = some s' ∧ ∃ e s'', e.Calm ∧ s'.step e = some s'' := by
  have h : ((run step (start 1 [Probing.accepting, Probing.accepting]) closedEarly).bind fun s =>
      (run step s (waitedFor.take 2)).map fun s' => (s.stage, s'.stage)) =
      some (.leaving .closed, .leaving .closed) := by
    decide +kernel
  have hcalm : ∀ e ∈ waitedFor.take 2, e.Calm := by simp [waitedFor, Event.Calm, Probing.Event.Calm]
  obtain ⟨s, hs, h⟩ := Option.bind_eq_some_iff.mp h
  obtain ⟨s', hs', h⟩ := Option.map_eq_some_iff.mp h
  rw [Prod.mk.injEq] at h
  obtain ⟨-, hended | ⟨-, hgo⟩⟩ := leaving_ends hs h.1 hcalm hs'
  · rw [h.2] at hended
    cases hended
  · exact ⟨s, s', hs, hs', hgo⟩

end

end Sweep

end Probe

end Fizzpy
