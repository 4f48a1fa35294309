import Fizzpy.Client.AsyncClient

/-!
# From one await to the next

What the code of a task of `AsyncClient` comes to between two awaits, one lemma for each await. `Led` says
where the task is then, what the pool is, and that it has its job still and has opened nothing.
-/

namespace Fizzpy

open Foundation

namespace AsyncClient

structure Led (s s' : Client) (t : ℕ) (x : Pool × Phase) : Prop where
  pool : s'.pool = x.1
  opened : s'.opened = s.opened
  job : (s'.threads t).job = (s.threads t).job
  phase : (s'.threads t).phase = x.2

/-- The pool and the task's phase, when the statements behind an outcome have run. -/
def landing (pool : Pool) (key : Key) : Client.Outcome → Pool × Phase
  | .goOn (.give c _) => (pool.give key c, .idle)
  | .goOn (.close _ _) => (pool, .idle)
  | .goOn (.closeStale _) => (pool, .connect)
  | .goOn phase => (pool, phase)
  | .returned _ | .raised _ => (pool, .idle)

/-- What the core calls, as an outcome of the connect or of the write. -/
def Reply.ok : Reply → Bool
  | resolve _ => true
  | reject => false

def Reply.read : Reply → ReadReply
  | resolve data => .chunk data
  | reject => .failed

variable {codec : Codec} {s s' : Client} {t : ℕ}

theorem Led.setThread {client : Client} {thread : Thread} (hopened : client.opened = s.opened)
    (hjob : thread.job = (s.threads t).job) :
    Led s (client.setThread t thread) t (client.pool, thread.phase) :=
  ⟨rfl, hopened, by rw [Client.threads_setThread_self, hjob], by rw [Client.threads_setThread_self]⟩

theorem Led.trans {s₁ : Client} {x y : Pool × Phase} (h : Led s s₁ t y) (h' : Led s₁ s' t x) :
    Led s s' t x :=
  ⟨h'.pool, h'.opened.trans h.opened, h'.job.trans h.job, h'.phase⟩

/-- One statement that follows. -/
theorem run_one {a : Client.Action} (h : s.step codec (t, a) = some s') :
    run (Client.step codec) s ([a].map (t, ·)) = some s' := by
  rw [List.map_singleton, run_cons, h, Option.bind_some]
  rfl

/-- The statements behind an outcome run through. -/
theorem follow (codec : Codec) {phase : Phase} {c : ConnId} (hph : (s.threads t).phase = phase)
    (hc : phase.conn? = some c) : ∃ s', run (Client.step codec) s ((followUps phase).map (t, ·)) = some s' ∧
      Led s s' t (landing s.pool (s.threads t).job.key (.goOn phase)) := by
  cases phase with
  | idle | take | connect | closing => cases hc
  | write c' reused => exact ⟨s, rfl, rfl, rfl, rfl, hph⟩
  | read c' reused parser received => exact ⟨s, rfl, rfl, rfl, rfl, hph⟩
  | give c' r =>
    have hs : s.step codec (t, .give) =
        some ({ s with pool := s.pool.give (s.threads t).job.key c' }.setThread t
          ((s.threads t).proceed (.returned r))) := by
      unfold Client.step
      dsimp only
      rw [hph]
    exact ⟨_, run_one hs, .setThread rfl rfl⟩
  | close c' r =>
    have hs : s.step codec (t, .close) =
        some ({ s with closed := s.closed ++ [c'] }.setThread t ((s.threads t).proceed (.returned r))) := by
      unfold Client.step
      dsimp only
      rw [hph]
    exact ⟨_, run_one hs, .setThread rfl rfl⟩
  | closeStale c' =>
    have hs : s.step codec (t, .closeStale) =
        some ({ s with closed := s.closed ++ [c'] }.setThread t { s.threads t with phase := .connect }) := by
      unfold Client.step
      dsimp only
      rw [hph]
    exact ⟨_, run_one hs, .setThread rfl rfl⟩

theorem segment_proceed {a : Client.Action} {thread : Thread} {o : Client.Outcome} {c : ConnId}
    (hs : s.step codec (t, a) = some (s.setThread t (thread.proceed o)))
    (hjob : thread.job = (s.threads t).job) (ho : o.Keeps c) :
    ∃ s', segment codec t a s = some s' ∧ Led s s' t (landing s.pool (s.threads t).job.key o) := by
  have hself := Client.threads_setThread_self s t (thread.proceed o)
  have hseg : segment codec t a s = run (Client.step codec) (s.setThread t (thread.proceed o))
      ((followUps (thread.proceed o).phase).map (t, ·)) := by
    unfold segment
    rw [hs, Option.bind_some, hself]
  cases o with
  | returned r => exact absurd ho id
  | raised e => exact ⟨_, hseg, .setThread rfl hjob⟩
  | goOn phase =>
    obtain ⟨s', hrun, hled⟩ := follow codec (congrArg Thread.phase hself) ho
    have hset : Led s (s.setThread t (thread.proceed (.goOn phase))) t (s.pool, phase) :=
      .setThread rfl hjob
    refine ⟨s', hseg.trans hrun, hset.trans ?_⟩
    rw [hself] at hled
    rw [← hjob]
    exact hled

theorem resume_eq {x : Reply} {a : Client.Action} (ha : answered (s.threads t).phase x = some a)
    (hs : segment codec t a s = some s') : resume codec s t (.reply x) = s' := by
  unfold resume
  dsimp only
  rw [ha, Option.bind_some, hs, Option.getD_some]

/-! ## Behind each await -/

theorem segment_write (codec : Codec) {c : ConnId} {reused : Bool}
    (hph : (s.threads t).phase = .write c reused) (x : Reply) :
    ∃ s', segment codec t (.write x.ok) s = some s' ∧
      Led s s' t (landing s.pool (s.threads t).job.key (Client.afterWrite c reused x.ok)) := by
  have hs : s.step codec (t, .write x.ok) = some (s.setThread t
      ({ s.threads t with sent := (s.threads t).sent ++ if x.ok then [c] else [] }.proceed
        (Client.afterWrite c reused x.ok))) := by
    unfold Client.step
    dsimp only
    rw [hph]
  exact segment_proceed hs rfl (Client.afterWrite_keeps c reused x.ok)

theorem segment_read (codec : Codec) {c : ConnId} {reused received : Bool} {parser : ResponseParser}
    (hph : (s.threads t).phase = .read c reused parser received) (x : Reply) :
    ∃ s', segment codec t (.read x.read) s = some s' ∧ Led s s' t (landing s.pool (s.threads t).job.key
      (Client.afterRead codec c reused parser received x.read)) := by
  have hs : s.step codec (t, .read x.read) = some (s.setThread t
      ((s.threads t).proceed (Client.afterRead codec c reused parser received x.read))) := by
    unfold Client.step
    dsimp only
    rw [hph]
  exact segment_proceed hs rfl (Client.afterRead_keeps codec c reused parser received x.read)

theorem segment_refused (codec : Codec) (hph : (s.threads t).phase = .connect) :
    ∃ s', segment codec t (.connect false) s = some s' ∧ Led s s' t (s.pool, .idle) := by
  have hs : s.step codec (t, .connect false) =
      some (s.setThread t ((s.threads t).proceed (.raised .transport))) := by
    unfold Client.step
    dsimp only
    rw [hph]
    rfl
  exact segment_proceed (c := 0) hs rfl trivial

/-- The one await behind which something was opened. -/
theorem segment_connected (codec : Codec) (hph : (s.threads t).phase = .connect) :
    segment codec t (.connect true) s =
      some ({ s with opened := s.opened ++ [(s.threads t).job.key] }.setThread t
        { s.threads t with phase := .write s.opened.length false }) := by
  unfold segment Client.step
  dsimp only
  rw [hph]
  dsimp only
  rw [if_pos rfl, Option.bind_some, Client.threads_setThread_self]
  rfl

theorem resume_write (codec : Codec) {c : ConnId} {reused : Bool}
    (hph : (s.threads t).phase = .write c reused) (x : Reply) :
    Led s (resume codec s t (.reply x)) t
      (landing s.pool (s.threads t).job.key (Client.afterWrite c reused x.ok)) := by
  obtain ⟨s', hseg, hled⟩ := segment_write codec hph x
  rwa [resume_eq (by rw [hph]; cases x <;> rfl) hseg]

theorem resume_read (codec : Codec) {c : ConnId} {reused received : Bool} {parser : ResponseParser}
    (hph : (s.threads t).phase = .read c reused parser received) (x : Reply) :
    Led s (resume codec s t (.reply x)) t (landing s.pool (s.threads t).job.key
      (Client.afterRead codec c reused parser received x.read)) := by
  obtain ⟨s', hseg, hled⟩ := segment_read codec hph x
  rwa [resume_eq (by rw [hph]; cases x <;> rfl) hseg]

theorem resume_refused (hph : (s.threads t).phase = .connect) :
    Led s (resume codec s t (.reply .reject)) t (s.pool, .idle) := by
  obtain ⟨s', hseg, hled⟩ := segment_refused codec hph
  rwa [resume_eq (by rw [hph]; rfl) hseg]

theorem resume_connected (codec : Codec) (hph : (s.threads t).phase = .connect) (data : Bytes) :
    let s' := resume codec s t (.reply (.resolve data))
    s'.pool = s.pool ∧ s'.opened = s.opened ++ [(s.threads t).job.key] ∧
      (s'.threads t).job = (s.threads t).job ∧ (s'.threads t).phase = .write s.opened.length false := by
  rw [resume_eq (by rw [hph]; rfl) (segment_connected codec hph)]
  refine ⟨rfl, rfl, ?_, ?_⟩
  · rw [Client.threads_setThread_self]
  · rw [Client.threads_setThread_self]

theorem abandon_led : Led s (abandon t s) t (s.pool, .idle) := .setThread rfl rfl

/-! ## Into the code -/

theorem enter_perform {job : Job} (h : enter codec s t (.perform job) = some s') :
    (s.threads t).phase = .idle ∧ s'.opened = s.opened ∧ (s'.threads t).job = job ∧
      ((∃ c, s.pool.take job.key = some (c, s'.pool) ∧ (s'.threads t).phase = .write c true) ∨
        s'.pool = s.pool ∧ (s'.threads t).phase = .connect) := by
  obtain ⟨s₁, h₁, h⟩ := Option.bind_eq_some_iff.mp h
  cases Client.step_sound h₁ with
  | perform hph =>
    rw [Client.threads_setThread_self] at h
    obtain ⟨s₂, h₂, h⟩ := Option.bind_eq_some_iff.mp h
    cases h
    refine ⟨hph, ?_⟩
    cases Client.step_sound h₂ with
    | takePooled hph' hp =>
      rw [Client.threads_setThread_self] at hp
      rw [Client.threads_setThread_self, Client.threads_setThread_self]
      exact ⟨rfl, rfl, .inl ⟨_, hp, rfl⟩⟩
    | takeNone hph' hp =>
      rw [Client.threads_setThread_self, Client.threads_setThread_self]
      exact ⟨rfl, rfl, .inr ⟨rfl, rfl⟩⟩

/-- All connections that were cleared are closed. -/
theorem closing_run {conns : List ConnId} (hph : (s.threads t).phase = .closing conns)
    (h : run (Client.step codec) s
      ((List.replicate (conns.length + 1) Client.Action.closeNext).map (t, ·)) = some s') :
    Led s s' t (s.pool, .idle) := by
  induction conns generalizing s with
  | nil =>
    obtain ⟨s₁, h₁, h⟩ := Option.bind_eq_some_iff.mp h
    cases h
    cases Client.step_sound h₁ with
    | closeNext hph' =>
      rw [hph] at hph'
      cases hph'
    | closeDone hph' => exact .setThread rfl rfl
  | cons c conns ih =>
    obtain ⟨s₁, h₁, h⟩ := Option.bind_eq_some_iff.mp h
    cases Client.step_sound h₁ with
    | closeNext hph' =>
      rw [hph] at hph'
      cases hph'
      have hset : Led s ({ s with closed := s.closed ++ [c] }.setThread t
          { s.threads t with phase := .closing conns }) t (s.pool, .closing conns) := .setThread rfl rfl
      exact hset.trans (ih (by rw [Client.threads_setThread_self]) h)
    | closeDone hph' =>
      rw [hph] at hph'
      cases hph'

theorem enter_aclose (h : enter codec s t .aclose = some s') : Led s s' t ([], .idle) := by
  obtain ⟨s₁, h₁, h⟩ := Option.bind_eq_some_iff.mp h
  cases Client.step_sound h₁ with
  | closeAll hph =>
    rw [Client.threads_setThread_self] at h
    have hset : Led s ({ s with pool := [] }.setThread t
        { s.threads t with phase := .closing s.pool.conns }) t ([], .closing s.pool.conns) :=
      .setThread rfl rfl
    exact hset.trans (closing_run (by rw [Client.threads_setThread_self]) h)

end AsyncClient

end Fizzpy
