import Fizzpy.Client.Ownership
import Fizzpy.Foundation.EventLoop

/-!
# The asynchronous client

`AsyncClient` on the event loop of its tasks, with `run_async` for its awaits. Its `_perform` and its
`_exchange` have the statements of `Client`, so the code between two awaits is a list of the client's
steps, which nothing comes between. The core settles what was submitted in any order and at any time,
and tasks are cancelled at any of their awaits. Whatever happens, a connection carries one operation at
a time (`one_operation`), and one whose exchange was cancelled is not used again
(`abandoned_for_good`).
-/

namespace Fizzpy

open Foundation

namespace AsyncClient

/-! ## `run_async` -/

/-- What is submitted to the core. -/
inductive Request
  | connect (key : Key)
  | write (conn : ConnId) (raw : Bytes)
  | read (conn : ConnId)
  deriving DecidableEq

def Request.conn? : Request → Option ConnId
  | connect _ => none
  | write c _ | read c => some c

/-- What the core calls; the `None` of a connect and of a write has no bytes. -/
inductive Reply
  | resolve (data : Bytes)
  | reject
  deriving DecidableEq

/-- `_set_result`; a future that is done would raise `InvalidStateError`. -/
def setResult (fut : Future Reply) (data : Bytes) : Option (Future Reply) :=
  if fut.isPending then fut.finish (.resolve data) else some fut

def setException (fut : Future Reply) : Option (Future Reply) :=
  if fut.isPending then fut.finish .reject else some fut

/-- What `resolve` and `reject` hand to `call_soon_threadsafe`. -/
def callback : Reply → Future Reply → Option (Future Reply)
  | .resolve data, fut => setResult fut data
  | .reject, fut => setException fut

theorem callback_eq (x : Reply) (fut : Future Reply) : callback x fut = some (fut.settle x) := by
  cases x <;> cases fut <;> rfl

/-! ## From one await to the next -/

inductive Call
  | perform (job : Job)
  | aclose

def Call.action : Call → Client.Action
  | perform job => .perform job
  | aclose => .closeAll

/-- The statements up to the next await. -/
def followUps : Phase → List Client.Action
  | .take => [.take]
  | .give _ _ => [.give]
  | .close _ _ => [.close]
  | .closeStale _ => [.closeStale]
  | .closing conns => List.replicate (conns.length + 1) .closeNext
  | .idle | .write _ _ | .read _ _ _ _ | .connect => []

def segment (codec : Codec) (t : ℕ) (a : Client.Action) (s : Client) : Option Client :=
  (s.step codec (t, a)).bind fun s' =>
    run (Client.step codec) s' ((followUps (s'.threads t).phase).map (t, ·))

/-- The await that a phase is at goes on with the reply. -/
def answered : Phase → Reply → Option Client.Action
  | .connect, .resolve _ => some (.connect true)
  | .connect, .reject => some (.connect false)
  | .write _ _, .resolve _ => some (.write true)
  | .write _ _, .reject => some (.write false)
  | .read _ _ _ _, .resolve data => some (.read (.chunk data))
  | .read _ _ _ _, .reject => some (.read .failed)
  | _, _ => none

/-- `CancelledError` is not an `Exception`: it leaves `_exchange` and `_perform`, and the connection is
dropped. -/
def abandon (t : ℕ) (s : Client) : Client :=
  s.setThread t { s.threads t with phase := .idle }

def resume (codec : Codec) (s : Client) (t : ℕ) : Arrival Reply → Client
  | .reply x => ((answered (s.threads t).phase x).bind fun a => segment codec t a s).getD s
  | .cancelled => abandon t s

def asks (s : Client) (t : ℕ) : Option Request :=
  match (s.threads t).phase with
  | .connect => some (.connect (s.threads t).job.key)
  | .write c _ => some (.write c (s.threads t).job.raw)
  | .read c _ _ _ => some (.read c)
  | _ => none

/-! ## What a segment does -/

variable {codec : Codec}

theorem segment_run {t : ℕ} {a : Client.Action} {s s' : Client} (h : segment codec t a s = some s') :
    ∃ as : List Client.Action, run (Client.step codec) s (as.map (t, ·)) = some s' := by
  obtain ⟨s₁, h₁, h⟩ := Option.bind_eq_some_iff.mp h
  refine ⟨a :: followUps (s₁.threads t).phase, ?_⟩
  rw [List.map_cons, run_cons, h₁]
  exact h

theorem threads_run_ne {t u : ℕ} (hu : u ≠ t) {as : List Client.Action} {s s' : Client}
    (h : run (Client.step codec) s (as.map (t, ·)) = some s') : s'.threads u = s.threads u := by
  induction as generalizing s with
  | nil =>
    cases h
    rfl
  | cons a as ih =>
    obtain ⟨s₁, h₁, h⟩ := Option.bind_eq_some_iff.mp h
    exact (ih h).trans (Client.threads_step_ne (Client.step_sound h₁) hu)

/-- What follows a reply is a run of the task's own steps. -/
theorem resume_run (codec : Codec) (s : Client) (t : ℕ) (x : Reply) : ∃ as : List Client.Action,
    run (Client.step codec) s (as.map (t, ·)) = some (resume codec s t (.reply x)) := by
  unfold resume
  dsimp only
  cases hr : (answered (s.threads t).phase x).bind fun a => segment codec t a s with
  | none => exact ⟨[], rfl⟩
  | some s' =>
    obtain ⟨a, -, hseg⟩ := Option.bind_eq_some_iff.mp hr
    exact segment_run hseg

/-- A task's code touches no other thread. -/
theorem threads_resume_ne {t u : ℕ} (hu : u ≠ t) (a : Arrival Reply) (s : Client) :
    (resume codec s t a).threads u = s.threads u := by
  cases a with
  | reply x =>
    obtain ⟨as, has⟩ := resume_run codec s t x
    exact threads_run_ne hu has
  | cancelled => exact Client.threads_setThread_ne s hu _

def enter (codec : Codec) (s : Client) (t : ℕ) (c : Call) : Option Client :=
  segment codec t c.action s

theorem threads_enter_ne {s s' : Client} {t u : ℕ} {c : Call} (h : enter codec s t c = some s')
    (hu : u ≠ t) : s'.threads u = s.threads u := by
  obtain ⟨as, has⟩ := segment_run h
  exact threads_run_ne hu has

def program (codec : Codec) : Program Client Call Request Reply where
  enter := enter codec
  resume := resume codec
  asks := asks
  callback := callback
  enter_frame := fun h hu => by unfold asks; rw [threads_enter_ne h hu]
  resume_frame := fun {w t a u} hu => by unfold asks; rw [threads_resume_ne hu a w]
  callback_eq := callback_eq

/-- A task that awaits an operation on a connection has the connection. -/
theorem held_of_asks {s : Client} {t : ℕ} {r : Request} {c : ConnId} (h : asks s t = some r)
    (hc : r.conn? = some c) : (s.threads t).phase.conn? = some c := by
  unfold asks at h
  split at h
  · cases h
    cases hc
  · next hph =>
    cases h
    rw [hph]
    exact hc
  · next hph =>
    cases h
    rw [hph]
    exact hc
  · cases h

/-! ## Connections that nobody has -/

/-- The connection is not pooled, nor with a task, nor closed by the client. -/
def Loose (s : Client) (c : ConnId) : Prop := ∀ k, c ∉ s.cell k

theorem loose_step {s s' : Client} {x : ℕ × Client.Action} {c : ConnId} (hlt : c < s.opened.length)
    (h : Loose s c) (hs : Client.step codec s x = some s') : Loose s' c := by
  intro k hk
  obtain ⟨l, hl⟩ | hnew := (Client.cells_step (Client.step_sound hs)).mem hk
  · exact h l hl
  · exact absurd hlt (Nat.not_lt.mpr hnew.1)

theorem opened_run {s s' : Client} {xs : List (ℕ × Client.Action)}
    (h : run (Client.step codec) s xs = some s') : s.opened.length ≤ s'.opened.length :=
  run_invariant (I := fun r => s.opened.length ≤ r.opened.length)
    (fun _ _ _ hle hs => hle.trans (Client.opened_step (Client.step_sound hs)).length_le) le_rfl h

theorem loose_run {s s' : Client} {xs : List (ℕ × Client.Action)} {c : ConnId}
    (hlt : c < s.opened.length) (h : Loose s c) (hr : run (Client.step codec) s xs = some s') :
    Loose s' c :=
  (run_invariant (I := fun r => c < r.opened.length ∧ Loose r c) (fun _ _ _ hi hs =>
    ⟨hi.1.trans_le (Client.opened_step (Client.step_sound hs)).length_le,
      loose_step hi.1 hi.2 hs⟩) ⟨hlt, h⟩ hr).2

theorem abandon_move (t : ℕ) (s : Client) : Move (fun _ => False) s.cell (abandon t s).cell :=
  Client.move_drop (List.nil_sublist _)

theorem owned_abandon {s : Client} (h : s.Owned) (t : ℕ) : (abandon t s).Owned where
  exclusive := (abandon_move t s).exclusive h.exclusive nofun
  opened := by
    intro k c hc
    obtain ⟨l, hl⟩ | hno := (abandon_move t s).mem hc
    · exact h.opened l c hl
    · exact hno.elim
  targeted := h.targeted.setThread h.targeted.pooled nofun

theorem loose_abandon {s : Client} (h : s.Owned) {t : ℕ} {c : ConnId}
    (hc : Loose s c ∨ c ∈ (s.threads t).phase.held) : Loose (abandon t s) c := by
  intro k hk
  have hown : (∃ l, c ∈ s.cell l) ∧ c ∉ (abandon t s).cell (.held t) := by
    constructor
    · exact ((abandon_move t s).mem hk).resolve_right id
    · show c ∉ ((abandon t s).threads t).phase.held
      rw [abandon, Client.threads_setThread_self]
      exact List.not_mem_nil
  rcases hc with hc | hc
  · obtain ⟨l, hl⟩ := hown.1
    exact hc l hl
  · -- it was with the task only, and the task has dropped it
    have hother : ∀ l, l ≠ .held t → (abandon t s).cell l = s.cell l := by
      rintro (_ | j | _) hl
      · rfl
      · exact Client.held_setThread_ne s _ hl
      · rfl
    by_cases hkt : k = .held t
    · rw [hkt] at hk
      exact hown.2 hk
    · rw [hother k hkt] at hk
      exact hkt (h.exclusive.unique (l := .held t) hk hc)

/-! ## One operation at a time -/

abbrev Loop := EventLoop Client Request Reply

/-- An operation that is under way on a connection is awaited by the task that has the connection, or
nobody has the connection any more. There is one at most. -/
structure Tended (codec : Codec) (s : Loop) : Prop where
  wired : s.Wired (program codec)
  owned : s.world.Owned
  opened : ∀ {f : ℕ} {op : Op Request Reply} {c : ConnId}, s.ops[f]? = some op →
    op.request.conn? = some c → c < s.world.opened.length
  busy : ∀ {f : ℕ} {op : Op Request Reply} {c : ConnId}, s.ops[f]? = some op →
    op.request.conn? = some c → op.reply = none →
    (s.waiters op.task).awaits = some f ∨ Loose s.world c
  alone : ∀ {f g : ℕ} {op op' : Op Request Reply} {c : ConnId}, s.ops[f]? = some op →
    s.ops[g]? = some op' → op.request.conn? = some c → op'.request.conn? = some c →
    op.reply = none → op'.reply = none → f = g

/-- The task that awaits an operation on a connection has it. -/
theorem Tended.held {s : Loop} (h : Tended codec s) {f : ℕ} {op : Op Request Reply} {c : ConnId}
    (hf : s.ops[f]? = some op) (hc : op.request.conn? = some c)
    (ha : (s.waiters op.task).awaits = some f) : c ∈ (s.world.threads op.task).phase.held := by
  have hasks : asks s.world op.task = some op.request := h.wired.asks_of_awaits ha hf
  exact Client.mem_held (held_of_asks hasks hc)

/-- A step that settles or finishes an operation. -/
theorem Tended.set {s s' : Loop} {f : ℕ} {op op' : Op Request Reply} (h : Tended codec s)
    (hw : s'.Wired (program codec)) (hf : s.ops[f]? = some op) (hops : s'.ops = s.ops.set f op')
    (hreq : op'.request = op.request) (htask : op'.task = op.task)
    (hreply : op'.reply = none → op.reply = none) (hworld : s'.world = s.world)
    (hwaiters : s'.waiters = s.waiters) : Tended codec s' := by
  have hlt : f < s.ops.length := (List.getElem?_eq_some_iff.mp hf).1
  have hold : ∀ {g : ℕ} {op₁ : Op Request Reply}, s'.ops[g]? = some op₁ →
      ∃ op₂, s.ops[g]? = some op₂ ∧ op₁.request = op₂.request ∧ op₁.task = op₂.task ∧
        (op₁.reply = none → op₂.reply = none) := by
    intro g op₁ h₁
    rw [hops] at h₁
    by_cases hg : f = g
    · subst hg
      rw [List.getElem?_set_self hlt, Option.some.injEq] at h₁
      subst h₁
      exact ⟨op, hf, hreq, htask, hreply⟩
    · rw [List.getElem?_set_ne hg] at h₁
      exact ⟨op₁, h₁, rfl, rfl, id⟩
  refine ⟨hw, hworld ▸ h.owned, fun {g op₁ c} h₁ hc => ?_, fun {g op₁ c} h₁ hc hr => ?_,
    fun {g g' op₁ op₁' c} h₁ h₁' hc hc' hr hr' => ?_⟩
  · obtain ⟨op₂, h₂, hq, -, -⟩ := hold h₁
    rw [hworld]
    exact h.opened h₂ (hq ▸ hc)
  · obtain ⟨op₂, h₂, hq, ht, hr₂⟩ := hold h₁
    rw [hworld, hwaiters, ht]
    exact h.busy h₂ (hq ▸ hc) (hr₂ hr)
  · obtain ⟨op₂, h₂, hq, -, hr₂⟩ := hold h₁
    obtain ⟨op₂', h₂', hq', -, hr₂'⟩ := hold h₁'
    exact h.alone h₂ h₂' (hq ▸ hc) (hq' ▸ hc') (hr₂ hr) (hr₂' hr')

/-- The task `t` goes on to the next await in `world`, where it has let go of what is under way. -/
theorem Tended.suspend {s s₀ : Loop} {t : ℕ} {world : Client} (h : Tended codec s)
    (hw : (s₀.suspend (program codec) t world).Wired (program codec)) (htied : s₀.Tied)
    (hidle : (s₀.waiters t).awaits = none) (hops : s₀.ops = s.ops)
    (hothers : ∀ u, u ≠ t → s₀.waiters u = s.waiters u) (howned : world.Owned)
    (hthreads : ∀ u, u ≠ t → world.threads u = s.world.threads u)
    (hopened : s.world.opened.length ≤ world.opened.length)
    (hfree : ∀ {f : ℕ} {op : Op Request Reply} {c : ConnId}, s.ops[f]? = some op →
      op.request.conn? = some c → op.reply = none →
      ((s.waiters op.task).awaits = some f ∧ op.task ≠ t) ∨ Loose world c) :
    Tended codec (s₀.suspend (program codec) t world) := by
  -- whoever else awaits an operation on a connection still has it
  have hkept : ∀ {f : ℕ} {op : Op Request Reply} {c : ConnId}, s.ops[f]? = some op →
      op.request.conn? = some c → (s.waiters op.task).awaits = some f → op.task ≠ t →
      c ∈ world.cell (.held op.task) := by
    intro f op c hf hc ha hu
    show c ∈ (world.threads op.task).phase.held
    rw [hthreads op.task hu]
    exact h.held hf hc ha
  unfold EventLoop.suspend at hw ⊢
  cases hr : (program codec).asks world t with
  | none =>
    rw [hr] at hw
    refine ⟨hw, howned, fun {f op c} hf hc => ?_, fun {f op c} hf hc hn => ?_,
      fun {f g op op' c} hf hg => ?_⟩
    · exact (h.opened (hops ▸ hf) hc).trans_le hopened
    · refine (hfree (hops ▸ hf) hc hn).imp (fun hu => ?_) id
      rw [EventLoop.waiters_setWaiter_ne hu.2]
      show (s₀.waiters op.task).awaits = some f
      rw [hothers _ hu.2]
      exact hu.1
    · exact h.alone (hops ▸ hf) (hops ▸ hg)
  | some r =>
    rw [hr] at hw
    have hworld : EventLoop.Tied { s₀ with world } :=
      ⟨htied.awaited, htied.op, htied.unborn, htied.failed⟩
    obtain ⟨-, hsame, hself, hwaiters, future, hsub⟩ := hworld.submit (r := r) hidle
    have hsub : (EventLoop.submit { s₀ with world } t r).ops =
        s.ops ++ [{ task := t, request := r, future }] := by
      rw [hsub]
      exact congrArg (· ++ _) hops
    have hheld : ∀ {c : ConnId}, r.conn? = some c → c ∈ world.cell (.held t) :=
      fun hc => Client.mem_held (held_of_asks hr hc)
    -- an operation is the new one, or it was there
    have hold : ∀ {f : ℕ} {op : Op Request Reply},
        (EventLoop.submit { s₀ with world } t r).ops[f]? = some op →
        s.ops[f]? = some op ∨ f = s.ops.length ∧ op.task = t ∧ op.request = r := by
      intro f op hf
      rw [hsub] at hf
      obtain ⟨hlt, -⟩ := List.getElem?_eq_some_iff.mp hf
      rw [List.length_append, List.length_singleton] at hlt
      rcases Nat.lt_or_ge f s.ops.length with hlt' | hge
      · rw [List.getElem?_append_left hlt'] at hf
        exact .inl hf
      · obtain rfl : f = s.ops.length := by omega
        rw [List.getElem?_concat_length, Option.some.injEq] at hf
        subst hf
        exact .inr ⟨rfl, rfl, rfl⟩
    -- the connection of the new one carries nothing else
    have hquiet : ∀ {f : ℕ} {op : Op Request Reply} {c : ConnId}, s.ops[f]? = some op →
        op.request.conn? = some c → r.conn? = some c → op.reply ≠ none := by
      intro f op c hf hc hrc hn
      rcases hfree hf hc hn with ⟨ha, hu⟩ | hloose
      · cases howned.exclusive.unique (hkept hf hc ha hu) (hheld hrc)
        exact hu rfl
      · exact hloose _ (hheld hrc)
    refine ⟨hw, hsame.symm ▸ howned, fun {f op c} hf hc => ?_, fun {f op c} hf hc hn => ?_,
      fun {f g op op' c} hf hg hc hc' hn hn' => ?_⟩
    · dsimp only
      rw [hsame]
      rcases hold hf with hf | ⟨-, -, hreq⟩
      · exact (h.opened hf hc).trans_le hopened
      · exact howned.opened _ c (hheld (hreq ▸ hc))
    · dsimp only
      rw [hsame]
      rcases hold hf with hf | ⟨rfl, rfl, -⟩
      · refine (hfree hf hc hn).imp (fun hu => ?_) id
        rw [hwaiters _ hu.2]
        show (s₀.waiters op.task).awaits = some f
        rw [hothers _ hu.2]
        exact hu.1
      · left
        rw [hself]
        exact congrArg (fun ops => some (List.length ops)) hops
    · rcases hold hf with hf | ⟨rfl, -, hreq⟩ <;> rcases hold hg with hg | ⟨rfl, -, hreq'⟩
      · exact h.alone hf hg hc hc' hn hn'
      · exact absurd hn (hquiet hf hc (hreq' ▸ hc'))
      · exact absurd hn' (hquiet hg hc' (hreq ▸ hc))
      · rfl

theorem tended_step {s s' : Loop} {e : EventLoop.Event Call Reply} (h : Tended codec s)
    (hs : EventLoop.step (program codec) s e = some s') : Tended codec s' := by
  have hw := EventLoop.wired_step h.wired hs
  cases EventLoop.step_does (program codec) hs with
  | settle hf hr => exact h.set hw hf rfl rfl rfl nofun rfl rfl
  | cancelFuture ha hf hp => exact h.set hw hf rfl rfl rfl id rfl rfl
  | callback hq hf => exact h.set hw hf rfl rfl rfl id rfl rfl
  | @mark t b e he =>
    refine ⟨hw, h.owned, h.opened, fun {f op c} hf hc hn => ?_, h.alone⟩
    refine (h.busy hf hc hn).imp (fun ha => ?_) id
    by_cases hu : op.task = t
    · rw [hu, EventLoop.waiters_setWaiter_self]
      rwa [hu] at ha
    · rwa [EventLoop.waiters_setWaiter_ne hu]
  | @enter t c world ha henter =>
    obtain ⟨as, has⟩ := segment_run henter
    refine h.suspend hw h.wired.toTied ha rfl (fun _ _ => rfl) (Client.owned_run h.owned has)
      (fun u hu => threads_enter_ne henter hu) (opened_run has) fun {f op c} hf hc hn => ?_
    rcases h.busy hf hc hn with haw | hloose
    · refine .inl ⟨haw, fun hu => ?_⟩
      rw [hu, ha] at haw
      cases haw
    · exact .inr (loose_run (h.opened hf hc) hloose has)
  | @wakeup f op a ready hq hf ha =>
    obtain ⟨haw, htied⟩ := EventLoop.tied_wakeup h.wired.toTied hq hf ha
    -- the others' operations are theirs, and the task's own has come to `a`
    have hothers : ∀ {g : ℕ} {op' : Op Request Reply} {c : ConnId}, g ≠ f → s.ops[g]? = some op' →
        op'.request.conn? = some c → op'.reply = none →
        ((s.waiters op'.task).awaits = some g ∧ op'.task ≠ op.task) ∨ Loose s.world c := by
      intro g op' c hg hg' hc hn
      refine (h.busy hg' hc hn).imp (fun haw' => ⟨haw', fun hu => hg ?_⟩) id
      rw [hu, haw] at haw'
      exact (Option.some.inj haw').symm
    cases a with
    | reply x =>
      obtain ⟨as, has⟩ := resume_run codec s.world op.task x
      have hreply : op.reply = some x := by
        have hdone : op.future = .finished x := by
          cases hm : (s.waiters op.task).mustCancel <;> cases hfut : op.future <;>
            rw [hm, hfut] at ha <;> cases ha
          rfl
        exact ((h.wired.op hf).finished x hdone).1
      refine h.suspend hw htied (by rw [EventLoop.waiters_setWaiter_self]) rfl
        (fun u hu => EventLoop.waiters_setWaiter_ne hu _) (Client.owned_run h.owned has)
        (fun u hu => threads_resume_ne hu _ _) (opened_run has) fun {g op' c} hg hc hn => ?_
      by_cases hgf : g = f
      · subst hgf
        rw [hf, Option.some.injEq] at hg
        subst hg
        rw [hreply] at hn
        cases hn
      · exact (hothers hgf hg hc hn).imp id fun hloose => loose_run (h.opened hg hc) hloose has
    | cancelled =>
      refine h.suspend hw htied (by rw [EventLoop.waiters_setWaiter_self]) rfl
        (fun u hu => EventLoop.waiters_setWaiter_ne hu _) (owned_abandon h.owned op.task)
        (fun u hu => Client.threads_setThread_ne s.world hu _) le_rfl fun {g op' c} hg hc hn => ?_
      by_cases hgf : g = f
      · subst hgf
        rw [hf, Option.some.injEq] at hg
        subst hg
        exact .inr (loose_abandon h.owned (.inr (h.held hf hc haw)))
      · exact (hothers hgf hg hc hn).imp id fun hloose => loose_abandon h.owned (.inl hloose)

/-! ## Runs -/

def start : Loop := { world := Client.init }

theorem tended_start : Tended codec start where
  wired := EventLoop.wired_start fun _ => rfl
  owned := Client.owned_init
  opened := nofun
  busy := nofun
  alone := nofun

theorem tended_of_run {es : List (EventLoop.Event Call Reply)} {s s' : Loop} (h : Tended codec s)
    (hr : run (EventLoop.step (program codec)) s es = some s') : Tended codec s' :=
  run_invariant (fun _ _ _ h hs => tended_step h hs) h hr

/-- The connection of an operation under way is with the task that awaits it, or with nobody. -/
theorem Tended.only_held {s : Loop} (h : Tended codec s) {f : ℕ} {op : Op Request Reply} {c : ConnId}
    (hf : s.ops[f]? = some op) (hc : op.request.conn? = some c) (hr : op.reply = none)
    {k : Client.Cell} (hk : c ∈ s.world.cell k) : k = .held op.task := by
  rcases h.busy hf hc hr with ha | hloose
  · exact h.owned.exclusive.unique (l := .held op.task) hk (h.held hf hc ha)
  · exact absurd hk (hloose k)

/-- **One operation at a time.** Whatever is cancelled when, no two operations are under way on one
connection, and none is under way on one that is pooled or closed. So a read is submitted only while no
other read is outstanding, as the core asks. -/
theorem one_operation (codec : Codec) {es : List (EventLoop.Event Call Reply)} {s : Loop}
    (h : run (EventLoop.step (program codec)) start es = some s) :
    (∀ (f g : ℕ) (op op' : Op Request Reply) (c : ConnId), s.ops[f]? = some op →
      s.ops[g]? = some op' → op.request.conn? = some c → op'.request.conn? = some c →
      op.reply = none → op'.reply = none → f = g) ∧
    ∀ (f : ℕ) (op : Op Request Reply) (c : ConnId), s.ops[f]? = some op →
      op.request.conn? = some c → op.reply = none →
      c ∉ s.world.pool.conns ∧ c ∉ s.world.closed := by
  have hs := tended_of_run tended_start h
  refine ⟨fun f g op op' c hf hg => hs.alone hf hg, fun f op c hf hc hr => ⟨fun hp => ?_, fun hp => ?_⟩⟩
  · exact nomatch hs.only_held (k := .pooled) hf hc hr hp
  · exact nomatch hs.only_held (k := .closed) hf hc hr hp

/-- A request up to its first read, which is operation 2 on connection 0. -/
def reading : List (EventLoop.Event Call Reply) :=
  [.enter 0 (.perform ⟨(str "a.b", 443), []⟩), .settle 0 (.resolve []), .next, .next,
    .settle 1 (.resolve []), .next, .next]

theorem one_operation_cancelled : ∃ s : Loop, 0 ∉ s.world.pool.conns ∧
    run (EventLoop.step (program noCodec)) start (reading ++ [.cancel 0, .next]) = some s := by
  have h : (run (EventLoop.step (program noCodec)) start (reading ++ [.cancel 0, .next])).bind
      (fun s => s.ops[2]?.map fun op => (op.request, op.reply)) = some (.read 0, none) := by
    decide +kernel
  obtain ⟨s, hs, hop⟩ := Option.bind_eq_some_iff.mp h
  obtain ⟨op, hf, heq⟩ := Option.map_eq_some_iff.mp hop
  rw [Prod.mk.injEq] at heq
  exact ⟨s, ((one_operation noCodec hs).2 2 op 0 hf (by rw [heq.1]; rfl) heq.2).1, hs⟩

/-- **Exclusive ownership**, with cancellations. -/
theorem owned_under_cancellation (codec : Codec) {es : List (EventLoop.Event Call Reply)} {s : Loop}
    (h : run (EventLoop.step (program codec)) start es = some s) :
    (∀ c ∈ s.world.pool.conns, s.world.pool.conns.count c = 1 ∧ c ∉ s.world.closed ∧
      ∀ t, c ∉ (s.world.threads t).phase.held) ∧
    (∀ t u c, c ∈ (s.world.threads t).phase.held → c ∈ (s.world.threads u).phase.held → t = u) ∧
    (∀ k c, s.world.pool.Has k c → s.world.opened[c]? = some k) ∧
    ∀ t c, (s.world.threads t).phase.conn? = some c →
      s.world.opened[c]? = some (s.world.threads t).job.key := by
  have hs := (tended_of_run tended_start h).owned
  refine ⟨fun c hc => ⟨?_, fun hc' => ?_, fun t ht => ?_⟩, fun t u c ht hu => ?_, hs.targeted.pooled,
    hs.targeted.exchange⟩
  · exact List.count_eq_one_of_mem (hs.exclusive.nodup .pooled) hc
  · exact nomatch hs.exclusive.unique (k := .pooled) (l := .closed) hc hc'
  · exact nomatch hs.exclusive.unique (k := .pooled) (l := .held t) hc ht
  · cases hs.exclusive.unique (k := .held t) (l := .held u) ht hu
    rfl

theorem owned_under_cancellation_pooled : ∃ s : Loop, s.world.pool.conns = [0] ∧
    ∀ t, 0 ∉ (s.world.threads t).phase.held := by
  have h : (run (EventLoop.step (program noCodec)) start (reading ++
      [.settle 2 (.resolve (ascii "HTTP/1.1 204 No Content\r\n\r\n")), .next, .next])).map
      (fun s => s.world.pool.conns) = some [0] := by
    decide +kernel
  obtain ⟨s, hs, hp⟩ := Option.map_eq_some_iff.mp h
  exact ⟨s, hp, ((owned_under_cancellation noCodec hs).1 0 (by rw [hp]; exact List.mem_singleton_self 0)).2.2⟩

theorem loose_loop_step {s s' : Loop} {e : EventLoop.Event Call Reply} {c : ConnId}
    (h : Tended codec s) (hlt : c < s.world.opened.length) (hl : Loose s.world c)
    (hs : EventLoop.step (program codec) s e = some s') :
    c < s'.world.opened.length ∧ Loose s'.world c := by
  cases EventLoop.step_does (program codec) hs with
  | settle hf hr => exact ⟨hlt, hl⟩
  | cancelFuture ha hf hp => exact ⟨hlt, hl⟩
  | callback hq hf => exact ⟨hlt, hl⟩
  | mark he => exact ⟨hlt, hl⟩
  | enter ha henter =>
    obtain ⟨as, has⟩ := segment_run henter
    rw [EventLoop.suspend_world]
    exact ⟨hlt.trans_le (opened_run has), loose_run hlt hl has⟩
  | @wakeup f op a ready hq hf ha =>
    rw [EventLoop.suspend_world]
    cases a with
    | reply x =>
      obtain ⟨as, has⟩ := resume_run codec s.world op.task x
      exact ⟨hlt.trans_le (opened_run has), loose_run hlt hl has⟩
    | cancelled => exact ⟨hlt, loose_abandon h.owned (.inl hl)⟩

/-- **Abandoned for good.** When a task is told at an await on a connection that it was cancelled, the
connection is never again in the pool nor with any task. -/
theorem abandoned_for_good (codec : Codec) {es es' : List (EventLoop.Event Call Reply)}
    {s s' s'' : Loop} {f : ℕ} {op : Op Request Reply} {c : ConnId}
    (h : run (EventLoop.step (program codec)) start es = some s)
    (hnext : EventLoop.step (program codec) s .next = some s')
    (hlog : s'.log = s.log ++ [(f, .cancelled)]) (hf : s.ops[f]? = some op)
    (hc : op.request.conn? = some c) (h' : run (EventLoop.step (program codec)) s' es' = some s'') :
    c ∉ s''.world.pool.conns ∧ ∀ t, c ∉ (s''.world.threads t).phase.held := by
  have hs := tended_of_run tended_start h
  have hlt := hs.opened hf hc
  have hfirst : c < s'.world.opened.length ∧ Loose s'.world c := by
    cases EventLoop.step_does (program codec) hnext with
    | mark he => rcases he with he | he <;> cases he
    | callback hq hg =>
      have hlen := congrArg List.length hlog
      rw [List.length_append, List.length_singleton] at hlen
      exact absurd hlen (Nat.succ_ne_self _).symm
    | @wakeup g op' a ready hq hg ha =>
      obtain ⟨haw, -⟩ := EventLoop.tied_wakeup hs.wired.toTied hq hg ha
      rw [EventLoop.suspend_log] at hlog
      have heq : (g, a) = (f, .cancelled) := List.singleton_inj.mp (List.append_cancel_left hlog)
      cases heq
      rw [hf, Option.some.injEq] at hg
      subst hg
      rw [EventLoop.suspend_world]
      exact ⟨hlt, loose_abandon hs.owned (.inr (hs.held hf hc haw))⟩
  have hlast : Loose s''.world c :=
    (run_invariant (I := fun r : Loop => Tended codec r ∧ c < r.world.opened.length ∧ Loose r.world c)
      (fun _ _ _ hi hr => ⟨tended_step hi.1 hr, loose_loop_step hi.1 hi.2.1 hi.2.2 hr⟩)
      ⟨tended_step hs hnext, hfirst⟩ h').2.2
  exact ⟨hlast .pooled, fun t => hlast (.held t)⟩

theorem abandoned_for_good_read : ∃ s : Loop, 0 ∉ s.world.pool.conns := by
  have h : (run (EventLoop.step (program noCodec)) start (reading ++ [.cancel 0])).bind (fun s =>
      s.ops[2]?.bind fun op => (EventLoop.step (program noCodec) s .next).map fun s' =>
        (op.request, s.log, s'.log)) =
      some (.read 0, [(0, .reply (.resolve [])), (1, .reply (.resolve []))],
        [(0, .reply (.resolve [])), (1, .reply (.resolve [])), (2, .cancelled)]) := by
    decide +kernel
  obtain ⟨s, hs, h⟩ := Option.bind_eq_some_iff.mp h
  obtain ⟨op, hf, h⟩ := Option.bind_eq_some_iff.mp h
  obtain ⟨s', hs', h⟩ := Option.map_eq_some_iff.mp h
  rw [Prod.mk.injEq, Prod.mk.injEq] at h
  obtain ⟨hreq, hlog, hlog'⟩ := h
  have hc : op.request.conn? = some 0 := by
    rw [hreq]
    rfl
  have hstay : run (EventLoop.step (program noCodec)) s' [] = some s' := rfl
  exact ⟨s', (abandoned_for_good noCodec hs hs' (by rw [hlog, hlog']; rfl) hf hc hstay).1⟩

/-- **`run_async`.** Each operation tells its task one thing at most: what the core has settled it with,
or that it was cancelled; what comes later is dropped, and no callback raises. When the loop has nothing
to run, a task that waits waits for an operation which the core has not settled. -/
theorem told_once (codec : Codec) {es : List (EventLoop.Event Call Reply)} {s : Loop}
    (h : run (EventLoop.step (program codec)) start es = some s) :
    s.failed = 0 ∧
    (∀ (f : ℕ) (op : Op Request Reply), s.ops[f]? = some op →
      (s.heard f = [] ∧ asks s.world op.task = some op.request) ∨
        ∃ a, s.heard f = [a] ∧ ∀ x, a = .reply x → op.reply = some x) ∧
    (s.ready ≠ [] → ∃ s', EventLoop.step (program codec) s .next = some s') ∧
    (s.ready = [] → ∀ t r, asks s.world t = some r → ∃ (f : ℕ) (op : Op Request Reply),
      s.ops[f]? = some op ∧ op.task = t ∧ op.request = r ∧ op.reply = none) := by
  have hs := (tended_of_run tended_start h).wired
  have hasks : ∀ t, asks s.world t = (s.waiters t).awaits.bind fun f => s.ops[f]?.map Op.request :=
    hs.asks
  refine ⟨hs.failed, fun f op hf => ?_, hs.toTied.progress, fun hq t r hr => ?_⟩
  · refine (hs.toTied.delivery hf).imp (fun ⟨hheard, ha⟩ => ⟨hheard, ?_⟩) id
    rw [hasks, ha, Option.bind_some, hf, Option.map_some]
  · rw [hasks] at hr
    obtain ⟨f, ha, hr⟩ := Option.bind_eq_some_iff.mp hr
    obtain ⟨op, hf, ht, hn, -⟩ := hs.toTied.nothing_lost hq ha
    rw [hf, Option.map_some, Option.some.injEq] at hr
    exact ⟨f, op, hf, ht, hr, hn⟩

/-- What comes of a read after it was cancelled is dropped. -/
theorem told_once_late : ∃ s : Loop, s.failed = 0 ∧ s.log.getLast? = some (2, .cancelled) := by
  have h : (run (EventLoop.step (program noCodec)) start
      (reading ++ [.cancel 0, .settle 2 (.resolve (ascii "late")), .next, .next])).map
      (fun s => s.log.getLast?) = some (some (2, .cancelled)) := by
    decide +kernel
  obtain ⟨s, hs, hlog⟩ := Option.map_eq_some_iff.mp h
  exact ⟨s, (told_once noCodec hs).1, hlog⟩

end AsyncClient

end Fizzpy
