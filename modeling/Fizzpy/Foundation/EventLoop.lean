import Fizzpy.Foundation.Transition

/-!
# An event loop

Tasks on one thread, which await operations that are carried out elsewhere. An operation is settled at
any time, once; its callback is queued, finishes the future, and that queues the wakeup of the task. A
task may be cancelled at any time, which cancels the future that it awaits. `Wired` ties the queue, the
futures and the tasks to each other in every state reached, so that each await is told once and of
nothing but its own operation (`delivery`), and nothing settled is left lying (`nothing_lost`).
-/

namespace Foundation

/-- A future, with what it was finished with. -/
inductive Future (υ : Type*)
  | pending
  | finished (x : υ)
  | cancelled

/-- What an await comes to. -/
inductive Arrival (υ : Type*)
  | reply (x : υ)
  | cancelled
  deriving DecidableEq

/-- An operation, with the task that awaits its future and what it has been settled with. -/
structure Op (ρ υ : Type*) where
  task : ℕ
  request : ρ
  reply : Option υ := none
  future : Future υ := .pending

/-- A callback in the queue. -/
inductive Handle (υ : Type*)
  | settle (f : ℕ) (x : υ)
  | wakeup (f : ℕ)

/-- The future that a task awaits, and whether it is to be cancelled at its next step. -/
structure Waiter where
  awaits : Option ℕ := none
  mustCancel : Bool := false

/-- `log` lists what the awaits have come to, `failed` counts the callbacks that raised. -/
structure EventLoop (W ρ υ : Type*) where
  world : W
  waiters : ℕ → Waiter := fun _ => {}
  ops : List (Op ρ υ) := []
  ready : List (Handle υ) := []
  log : List (ℕ × Arrival υ) := []
  failed : ℕ := 0

variable {W ε ρ υ : Type*}

namespace Future

def isPending : Future υ → Bool
  | pending => true
  | _ => false

/-- To finish a future that is done is refused. -/
def finish (x : υ) : Future υ → Option (Future υ)
  | pending => some (finished x)
  | _ => none

/-- A future that is done stays as it is. -/
def settle (x : υ) : Future υ → Future υ
  | pending => finished x
  | fut => fut

end Future

/-- The code of the tasks: it is entered where a task awaits nothing, and resumed with what its await has
come to. It then runs up to the next await, and asks for an operation, or not. `callback` is what is
queued for a future, `none` where it raises. -/
structure Program (W ε ρ υ : Type*) where
  enter : W → ℕ → ε → Option W
  resume : W → ℕ → Arrival υ → W
  asks : W → ℕ → Option ρ
  callback : υ → Future υ → Option (Future υ)
  enter_frame : ∀ {w t e w' u}, enter w t e = some w' → u ≠ t → asks w' u = asks w u
  resume_frame : ∀ {w t a u}, u ≠ t → asks (resume w t a) u = asks w u
  callback_eq : ∀ x fut, callback x fut = some (fut.settle x)

namespace EventLoop

inductive Event (ε υ : Type*)
  /-- A task goes into the code. -/
  | enter (t : ℕ) (e : ε)
  /-- An operation is settled, on another thread. -/
  | settle (f : ℕ) (x : υ)
  /-- `Task.cancel`, and the exception leaving the task where it awaits nothing here. -/
  | cancel (t : ℕ)
  | uncancel (t : ℕ)
  /-- The loop runs the first callback. -/
  | next

variable (prog : Program W ε ρ υ)

def setWaiter (s : EventLoop W ρ υ) (t : ℕ) (w : Waiter) : EventLoop W ρ υ :=
  { s with waiters := Function.update s.waiters t w }

/-- A task that is to be cancelled cancels the future as soon as it awaits it. -/
def submit (s : EventLoop W ρ υ) (t : ℕ) (r : ρ) : EventLoop W ρ υ :=
  let f := s.ops.length
  if (s.waiters t).mustCancel then
    setWaiter { s with
      ops := s.ops ++ [{ task := t, request := r, future := .cancelled }]
      ready := s.ready ++ [.wakeup f] } t { awaits := some f }
  else setWaiter { s with ops := s.ops ++ [{ task := t, request := r }] } t { awaits := some f }

/-- The task has run up to its next await. -/
def suspend (s : EventLoop W ρ υ) (t : ℕ) (world : W) : EventLoop W ρ υ :=
  match prog.asks world t with
  | some r => { s with world }.submit t r
  | none => { s with world }.setWaiter t { s.waiters t with awaits := none }

/-- `Task.cancel`. -/
def cancel (s : EventLoop W ρ υ) (t : ℕ) : EventLoop W ρ υ :=
  match (s.waiters t).awaits.bind fun f => s.ops[f]?.map (f, ·) with
  | some (f, op) =>
    if op.future.isPending then
      { s with
        ops := s.ops.set f { op with future := .cancelled }
        ready := s.ready ++ [.wakeup f] }
    else s.setWaiter t { s.waiters t with mustCancel := true }
  | none => s.setWaiter t { s.waiters t with mustCancel := true }

/-- What a woken task is told. -/
def arrival (mustCancel : Bool) (fut : Future υ) : Option (Arrival υ) :=
  match mustCancel, fut with
  | true, _ => some .cancelled
  | false, .pending => none
  | false, .finished x => some (.reply x)
  | false, .cancelled => some .cancelled

/-- The first callback runs, and the rest is the queue. -/
def runHandle (s : EventLoop W ρ υ) : Handle υ → Option (EventLoop W ρ υ)
  | .settle f x =>
    s.ops[f]?.map fun op =>
      match prog.callback x op.future with
      | some future =>
        { s with
          ops := s.ops.set f { op with future }
          ready := s.ready ++ if op.future.isPending ∧ ¬ future.isPending then [.wakeup f] else [] }
      | none => { s with failed := s.failed + 1 }
  | .wakeup f =>
    s.ops[f]?.bind fun op =>
      (arrival (s.waiters op.task).mustCancel op.future).map fun a =>
        ({ s with log := s.log ++ [(f, a)] }.setWaiter op.task {}).suspend prog op.task
          (prog.resume s.world op.task a)

def step (s : EventLoop W ρ υ) : Event ε υ → Option (EventLoop W ρ υ)
  | .enter t e =>
    if (s.waiters t).awaits = none then (prog.enter s.world t e).map (s.suspend prog t) else none
  | .settle f x =>
    s.ops[f]?.bind fun op =>
      match op.reply with
      | none =>
        some { s with
          ops := s.ops.set f { op with reply := some x }, ready := s.ready ++ [.settle f x] }
      | some _ => none
  | .cancel t => some (s.cancel t)
  | .uncancel t =>
    if (s.waiters t).awaits = none then some (s.setWaiter t { s.waiters t with mustCancel := false })
    else none
  | .next =>
    match s.ready with
    | h :: ready => { s with ready }.runHandle prog h
    | [] => none

/-! ## What a step does -/

/-- The steps, one rule for each. -/
inductive Does (s : EventLoop W ρ υ) : Event ε υ → EventLoop W ρ υ → Prop
  | enter {t e world} (ha : (s.waiters t).awaits = none) (h : prog.enter s.world t e = some world) :
    Does s (.enter t e) (s.suspend prog t world)
  | settle {f x op} (hf : s.ops[f]? = some op) (hr : op.reply = none) :
    Does s (.settle f x)
      { s with ops := s.ops.set f { op with reply := some x }, ready := s.ready ++ [.settle f x] }
  | cancelFuture {t f op} (ha : (s.waiters t).awaits = some f) (hf : s.ops[f]? = some op)
      (hp : op.future = .pending) :
    Does s (.cancel t)
      { s with
        ops := s.ops.set f { op with future := .cancelled }, ready := s.ready ++ [.wakeup f] }
  | mark {t b e} (he : e = .cancel t ∨ e = .uncancel t) :
    Does s e (s.setWaiter t { s.waiters t with mustCancel := b })
  | callback {f x op ready} (hq : s.ready = .settle f x :: ready) (hf : s.ops[f]? = some op) :
    Does s .next
      { s with
        ops := s.ops.set f { op with future := op.future.settle x }
        ready := ready ++ if op.future.isPending then [.wakeup f] else [] }
  | wakeup {f op a ready} (hq : s.ready = .wakeup f :: ready) (hf : s.ops[f]? = some op)
      (ha : arrival (s.waiters op.task).mustCancel op.future = some a) :
    Does s .next
      (({ s with ready, log := s.log ++ [(f, a)] }.setWaiter op.task {}).suspend prog op.task
        (prog.resume s.world op.task a))

theorem isPending_iff {fut : Future υ} : fut.isPending = true ↔ fut = .pending := by
  cases fut <;> simp [Future.isPending]

theorem step_does {s s' : EventLoop W ρ υ} {e : Event ε υ} (h : step prog s e = some s') :
    Does prog s e s' := by
  cases e with
  | enter t e =>
    simp only [step, Option.ite_none_right_eq_some, Option.map_eq_some_iff] at h
    obtain ⟨ha, world, hw, rfl⟩ := h
    exact .enter ha hw
  | settle f x =>
    simp only [step, Option.bind_eq_some_iff] at h
    obtain ⟨op, hf, h⟩ := h
    cases hr : op.reply with
    | none =>
      simp only [hr, Option.some.injEq] at h
      subst h
      exact .settle hf hr
    | some y =>
      simp only [hr] at h
      cases h
  | cancel t =>
    simp only [step, Option.some.injEq] at h
    subst h
    unfold cancel
    split
    · next f op hfind =>
      obtain ⟨g, hg, hop⟩ := Option.bind_eq_some_iff.mp hfind
      obtain ⟨op', hf, heq⟩ := Option.map_eq_some_iff.mp hop
      cases heq
      split_ifs with hp
      · exact .cancelFuture hg hf (isPending_iff.mp hp)
      · exact .mark (.inl rfl)
    · exact .mark (.inl rfl)
  | uncancel t =>
    simp only [step, Option.ite_none_right_eq_some, Option.some.injEq] at h
    obtain ⟨-, rfl⟩ := h
    exact .mark (.inr rfl)
  | next =>
    cases hq : s.ready with
    | nil => simp only [step, hq] at h; cases h
    | cons hd ready =>
      simp only [step, hq] at h
      cases hd with
      | settle f x =>
        simp only [runHandle, Option.map_eq_some_iff] at h
        obtain ⟨op, hf, rfl⟩ := h
        have hcall : Does prog s .next _ := .callback hq hf
        rw [prog.callback_eq]
        cases hfut : op.future <;> simpa [hfut, Future.isPending, Future.settle] using hcall
      | wakeup f =>
        simp only [runHandle, Option.bind_eq_some_iff, Option.map_eq_some_iff] at h
        obtain ⟨op, hf, a, ha, rfl⟩ := h
        exact .wakeup hq hf ha

end EventLoop

/-! ## The queue, the futures and the tasks -/

def Handle.settling (f : ℕ) : Handle υ → Option υ
  | .settle g x => if g = f then some x else none
  | .wakeup _ => none

def Handle.wakes (f : ℕ) : Handle υ → Bool
  | .settle _ _ => false
  | .wakeup g => g = f

namespace EventLoop

/-- What is queued for the future, and for the task that awaits it. -/
def settling (s : EventLoop W ρ υ) (f : ℕ) : List υ := s.ready.filterMap (Handle.settling f)

def waking (s : EventLoop W ρ υ) (f : ℕ) : ℕ := s.ready.countP (Handle.wakes f)

/-- What the await of the future has come to. -/
def heard (s : EventLoop W ρ υ) (f : ℕ) : List (Arrival υ) :=
  s.log.filterMap fun x => if x.1 = f then some x.2 else none

end EventLoop

/-- An operation with what is queued and noted of it. -/
structure Op.Wired (op : Op ρ υ) (awaited : Prop) (settling : List υ) (waking : ℕ)
    (heard : List (Arrival υ)) : Prop where
  pending : op.future = .pending → awaited ∧ settling = op.reply.toList
  finished : ∀ x, op.future = .finished x → op.reply = some x ∧ settling = []
  queued : settling = [] ∨ settling = op.reply.toList
  waking_eq : waking = if op.future.isPending then 0 else 1 - heard.length
  once : (awaited ∧ heard = []) ∨
    (¬ awaited ∧ ∃ a, heard = [a] ∧ ∀ x, a = .reply x → op.reply = some x)

namespace Op.Wired

variable {op : Op ρ υ} {awaited : Prop} {settling : List υ} {waking : ℕ} {heard : List (Arrival υ)}

theorem submitted (t : ℕ) (r : ρ) (ha : awaited) :
    ({ task := t, request := r } : Op ρ υ).Wired awaited [] 0 [] :=
  ⟨fun _ => ⟨ha, rfl⟩, nofun, .inl rfl, rfl, .inl ⟨ha, rfl⟩⟩

theorem born_cancelled (t : ℕ) (r : ρ) (ha : awaited) :
    ({ task := t, request := r, future := .cancelled } : Op ρ υ).Wired awaited [] 1 [] :=
  ⟨nofun, nofun, .inl rfl, rfl, .inl ⟨ha, rfl⟩⟩

theorem settled (h : op.Wired awaited settling waking heard) (hr : op.reply = none) (x : υ) :
    Wired { op with reply := some x } awaited (settling ++ [x]) waking heard := by
  have hempty : settling = [] := by
    rcases h.queued with hq | hq
    · exact hq
    · rw [hq, hr]
      rfl
  refine ⟨fun hp => ⟨(h.pending hp).1, by rw [hempty]; rfl⟩, fun y hy => ?_,
    .inr (by rw [hempty]; rfl), h.waking_eq, ?_⟩
  · rw [(h.finished y hy).1] at hr
    cases hr
  · rcases h.once with h' | ⟨ha, a, hheard, hreply⟩
    · exact .inl h'
    · refine .inr ⟨ha, a, hheard, fun y hy => ?_⟩
      rw [hreply y hy] at hr
      cases hr

theorem cancel (h : op.Wired awaited settling waking heard) (hp : op.future = .pending) :
    Wired { op with future := .cancelled } awaited settling (waking + 1) heard := by
  obtain ⟨ha, -⟩ := h.pending hp
  have hheard : heard = [] := by
    rcases h.once with h' | h'
    · exact h'.2
    · exact absurd ha h'.1
  have hwaking := h.waking_eq
  rw [hp] at hwaking
  refine ⟨nofun, nofun, h.queued, ?_, h.once⟩
  rw [hwaking, hheard]
  rfl

/-- The callback finishes the future, unless it is done. -/
theorem callback {x : υ} (h : op.Wired awaited (x :: settling) waking heard) :
    Wired { op with future := op.future.settle x } awaited settling
      (waking + if op.future.isPending then 1 else 0) heard := by
  have hreply : op.reply = some x ∧ settling = [] := by
    rcases h.queued with hq | hq
    · cases hq
    · cases hr : op.reply with
      | none => rw [hr] at hq; cases hq
      | some y =>
        rw [hr, Option.toList_some, List.cons.injEq] at hq
        exact ⟨by rw [hq.1], hq.2⟩
  obtain ⟨hr, rfl⟩ := hreply
  cases hfut : op.future with
  | pending =>
    have hheard : heard = [] := by
      rcases h.once with h' | h'
      · exact h'.2
      · exact absurd (h.pending hfut).1 h'.1
    have hwaking := h.waking_eq
    rw [hfut] at hwaking
    refine ⟨nofun, fun y hy => ?_, .inl rfl, ?_, h.once⟩
    · cases hy
      exact ⟨hr, rfl⟩
    · rw [hwaking, hheard]
      rfl
  | finished y => cases (h.finished y hfut).2
  | cancelled =>
    have hwaking := h.waking_eq
    rw [hfut] at hwaking
    exact ⟨nofun, nofun, .inl rfl, hwaking, h.once⟩

/-- The task that is woken has awaited the future, and has heard nothing of it yet. -/
theorem woken {a : Arrival υ} {b : Bool} {awaited' : Prop}
    (h : op.Wired awaited settling (waking + 1) heard) (ha : EventLoop.arrival b op.future = some a)
    (hno : ¬ awaited') : awaited ∧ op.Wired awaited' settling waking (heard ++ [a]) := by
  have hwaking := h.waking_eq
  have hdone : op.future.isPending = false ∧ heard = [] ∧ waking = 0 := by
    by_cases hp : op.future.isPending
    · rw [if_pos hp] at hwaking
      omega
    · rw [if_neg hp] at hwaking
      exact ⟨by simpa using hp, List.length_eq_zero_iff.mp (by omega), by omega⟩
  obtain ⟨hp, rfl, rfl⟩ := hdone
  have hawaited : awaited := by
    rcases h.once with h' | ⟨-, a', h', -⟩
    · exact h'.1
    · cases h'
  refine ⟨hawaited, ⟨fun hpend => ?_, h.finished, h.queued, ?_, .inr ⟨hno, a, rfl, ?_⟩⟩⟩
  · rw [hpend] at hp
    cases hp
  · rw [if_neg (by simp [hp])]
    rfl
  · rintro x rfl
    cases hfut : op.future with
    | pending => rw [hfut] at hp; cases hp
    | finished y =>
      have hy := (h.finished y hfut).1
      rw [hfut] at ha
      cases b
      · cases ha
        exact hy
      · cases ha
    | cancelled =>
      rw [hfut] at ha
      cases b <;> cases ha

end Op.Wired

namespace EventLoop

variable (prog : Program W ε ρ υ)

/-- What is queued and noted belongs to the operations, and each is awaited by its own task. -/
structure Tied (s : EventLoop W ρ υ) : Prop where
  awaited : ∀ {t f}, (s.waiters t).awaits = some f → ∃ op, s.ops[f]? = some op ∧ op.task = t
  op : ∀ {f : ℕ} {op : Op ρ υ}, s.ops[f]? = some op →
    op.Wired ((s.waiters op.task).awaits = some f) (s.settling f) (s.waking f) (s.heard f)
  unborn : ∀ {f}, s.ops.length ≤ f → s.settling f = [] ∧ s.waking f = 0 ∧ s.heard f = []
  failed : s.failed = 0

/-- And a task awaits what it has asked for. -/
structure Wired (s : EventLoop W ρ υ) : Prop extends s.Tied where
  asks : ∀ t, prog.asks s.world t = (s.waiters t).awaits.bind fun f => s.ops[f]?.map Op.request

variable {prog} {s : EventLoop W ρ υ}

/-- A task has asked for what it awaits. -/
theorem Wired.asks_of_awaits (h : s.Wired prog) {t f : ℕ} {op : Op ρ υ}
    (ha : (s.waiters t).awaits = some f) (hf : s.ops[f]? = some op) :
    prog.asks s.world t = some op.request := by
  have hasks := h.asks t
  rwa [ha, Option.bind_some, hf, Option.map_some] at hasks

theorem waiters_setWaiter_self (t : ℕ) (w : Waiter) : (s.setWaiter t w).waiters t = w :=
  Function.update_self ..

theorem waiters_setWaiter_ne {t u : ℕ} (h : u ≠ t) (w : Waiter) :
    (s.setWaiter t w).waiters u = s.waiters u := Function.update_of_ne h ..

/-- The queue with one more handle. -/
theorem settling_concat (hd : Handle υ) (f : ℕ) : settling { s with ready := s.ready ++ [hd] } f =
    s.settling f ++ (hd.settling f).toList := by
  unfold settling
  rw [List.filterMap_append]
  cases h : hd.settling f <;> simp [h]

theorem waking_concat (hd : Handle υ) (f : ℕ) : waking { s with ready := s.ready ++ [hd] } f =
    s.waking f + if hd.wakes f then 1 else 0 := by
  unfold waking
  rw [List.countP_append, List.countP_singleton]

theorem suspend_world (t : ℕ) (world : W) : (s.suspend prog t world).world = world := by
  unfold suspend submit
  cases prog.asks world t with
  | none => rfl
  | some r =>
    dsimp only
    split_ifs <;> rfl

theorem suspend_log (t : ℕ) (world : W) : (s.suspend prog t world).log = s.log := by
  unfold suspend submit
  cases prog.asks world t with
  | none => rfl
  | some r =>
    dsimp only
    split_ifs <;> rfl

/-! ### An operation goes on -/

/-- A step of one operation, with what it queues, leaves the others as they are. -/
theorem Tied.set {s' : EventLoop W ρ υ} {f : ℕ} {op op' : Op ρ υ} (h : s.Tied)
    (hf : s.ops[f]? = some op) (hops : s'.ops = s.ops.set f op') (htask : op'.task = op.task)
    (hwaiters : s'.waiters = s.waiters) (hfailed : s'.failed = s.failed)
    (hothers : ∀ g, g ≠ f →
      s'.settling g = s.settling g ∧ s'.waking g = s.waking g ∧ s'.heard g = s.heard g)
    (hop : op'.Wired ((s.waiters op.task).awaits = some f) (s'.settling f) (s'.waking f)
      (s'.heard f)) : s'.Tied := by
  have hlt : f < s.ops.length := (List.getElem?_eq_some_iff.mp hf).1
  constructor
  · intro t g hg
    rw [hwaiters] at hg
    obtain ⟨op₀, h₀, ht⟩ := h.awaited hg
    rw [hops]
    by_cases hgf : f = g
    · subst hgf
      rw [hf, Option.some.injEq] at h₀
      subst h₀
      exact ⟨op', List.getElem?_set_self hlt, htask.trans ht⟩
    · exact ⟨op₀, by rwa [List.getElem?_set_ne hgf], ht⟩
  · intro g op₀ h₀
    rw [hops] at h₀
    rw [hwaiters]
    by_cases hgf : f = g
    · subst hgf
      rw [List.getElem?_set_self hlt, Option.some.injEq] at h₀
      subst h₀
      rwa [htask]
    · rw [List.getElem?_set_ne hgf] at h₀
      obtain ⟨h₁, h₂, h₃⟩ := hothers g (Ne.symm hgf)
      rw [h₁, h₂, h₃]
      exact h.op h₀
  · intro g hg
    rw [hops, List.length_set] at hg
    obtain ⟨h₁, h₂, h₃⟩ := hothers g (by omega)
    rw [h₁, h₂, h₃]
    exact h.unborn hg
  · exact hfailed.trans h.failed

/-- Nor does it change what is asked. -/
theorem Wired.set {s' : EventLoop W ρ υ} {f : ℕ} {op op' : Op ρ υ} (h : s.Wired prog)
    (hf : s.ops[f]? = some op) (hops : s'.ops = s.ops.set f op') (hreq : op'.request = op.request)
    (hwaiters : s'.waiters = s.waiters) (hworld : s'.world = s.world) (ht : s'.Tied) :
    s'.Wired prog := by
  have hlt : f < s.ops.length := (List.getElem?_eq_some_iff.mp hf).1
  refine ⟨ht, fun t => ?_⟩
  rw [hworld, h.asks t, hwaiters, hops]
  congr 1
  funext g
  by_cases hgf : f = g
  · subst hgf
    rw [List.getElem?_set_self hlt, hf, Option.map_some, Option.map_some, hreq]
  · rw [List.getElem?_set_ne hgf]

theorem wired_settle {f : ℕ} {x : υ} {op : Op ρ υ} (h : s.Wired prog) (hf : s.ops[f]? = some op)
    (hr : op.reply = none) : Wired prog { s with
      ops := s.ops.set f { op with reply := some x }, ready := s.ready ++ [.settle f x] } := by
  refine h.set hf rfl rfl rfl rfl (h.toTied.set hf rfl rfl rfl rfl (fun g hg => ?_) ?_)
  · refine ⟨(settling_concat _ g).trans ?_, (waking_concat _ g).trans ?_, rfl⟩
    · simp [Handle.settling, Ne.symm hg]
    · simp [Handle.wakes]
  · have hop := (h.op hf).settled hr x
    have hs : settling { s with ready := s.ready ++ [.settle f x] } f = s.settling f ++ [x] := by
      rw [settling_concat, Handle.settling, if_pos rfl, Option.toList_some]
    have hw : waking { s with ready := s.ready ++ [Handle.settle f x] } f = s.waking f := by
      rw [waking_concat]
      simp [Handle.wakes]
    rw [← hs, ← hw] at hop
    exact hop

theorem wired_cancelFuture {f : ℕ} {op : Op ρ υ} (h : s.Wired prog) (hf : s.ops[f]? = some op)
    (hp : op.future = .pending) : Wired prog { s with
      ops := s.ops.set f { op with future := .cancelled }, ready := s.ready ++ [.wakeup f] } := by
  refine h.set hf rfl rfl rfl rfl (h.toTied.set hf rfl rfl rfl rfl (fun g hg => ?_) ?_)
  · refine ⟨(settling_concat _ g).trans ?_, (waking_concat _ g).trans ?_, rfl⟩
    · simp [Handle.settling]
    · simp [Handle.wakes, Ne.symm hg]
  · have hop := (h.op hf).cancel hp
    have hs : settling { s with ready := s.ready ++ [.wakeup f] } f = s.settling f := by
      rw [settling_concat]
      simp [Handle.settling]
    have hw : waking { s with ready := s.ready ++ [Handle.wakeup f] } f = s.waking f + 1 := by
      rw [waking_concat]
      simp [Handle.wakes]
    rw [← hs, ← hw] at hop
    exact hop

theorem wired_callback {f : ℕ} {x : υ} {op : Op ρ υ} {ready : List (Handle υ)} (h : s.Wired prog)
    (hq : s.ready = .settle f x :: ready) (hf : s.ops[f]? = some op) : Wired prog { s with
      ops := s.ops.set f { op with future := op.future.settle x }
      ready := ready ++ if op.future.isPending then [.wakeup f] else [] } := by
  let s₁ : EventLoop W ρ υ := { s with ready }
  have hsettling : ∀ g, s.settling g = (if f = g then [x] else []) ++ s₁.settling g := by
    intro g
    unfold settling
    rw [hq, List.filterMap_cons, Handle.settling]
    split_ifs <;> rfl
  have hwaking : ∀ g, s.waking g = s₁.waking g := by
    intro g
    unfold waking
    rw [hq, List.countP_cons]
    exact Nat.add_zero _
  have hnew : ∀ g,
      settling { s with ready := ready ++ if op.future.isPending then [.wakeup f] else [] } g =
        s₁.settling g ∧
      waking { s with ready := ready ++ if op.future.isPending then [Handle.wakeup f] else [] } g =
        s₁.waking g + if f = g ∧ op.future.isPending then 1 else 0 := by
    intro g
    by_cases hp : op.future.isPending
    · rw [if_pos hp]
      refine ⟨(settling_concat (s := s₁) _ g).trans ?_, (waking_concat (s := s₁) _ g).trans ?_⟩
      · simp [Handle.settling]
      · simp [Handle.wakes, hp]
    · rw [if_neg hp, List.append_nil]
      exact ⟨rfl, by simp [hp]; rfl⟩
  refine h.set hf rfl rfl rfl rfl (h.toTied.set hf rfl rfl rfl rfl (fun g hg => ?_) ?_)
  · obtain ⟨h₁, h₂⟩ := hnew g
    refine ⟨h₁.trans ?_, h₂.trans ?_, rfl⟩
    · rw [hsettling g, if_neg (Ne.symm hg), List.nil_append]
    · rw [hwaking g, if_neg fun hc => hg hc.1.symm]
      rfl
  · have hop := h.op hf
    rw [hsettling f, if_pos rfl, List.singleton_append, hwaking f] at hop
    have hop := hop.callback
    obtain ⟨h₁, h₂⟩ := hnew f
    rw [← h₁] at hop
    rw [show (if op.future.isPending then 1 else 0) =
      if f = f ∧ op.future.isPending then 1 else 0 by simp, ← h₂] at hop
    exact hop

/-! ### A task goes on -/

theorem tied_setWaiter {t : ℕ} {w : Waiter} (h : s.Tied) (hw : w.awaits = (s.waiters t).awaits) :
    (s.setWaiter t w).Tied := by
  have hawaits : ∀ u, ((s.setWaiter t w).waiters u).awaits = (s.waiters u).awaits := by
    intro u
    by_cases hu : u = t
    · subst hu
      rw [waiters_setWaiter_self, hw]
    · rw [waiters_setWaiter_ne hu]
  refine ⟨fun ha => h.awaited ((hawaits _).symm.trans ha), fun {f op} hf => ?_, h.unborn, h.failed⟩
  rw [hawaits]
  exact h.op hf

theorem wired_mark {t : ℕ} {b : Bool} (h : s.Wired prog) :
    (s.setWaiter t { s.waiters t with mustCancel := b }).Wired prog := by
  refine ⟨tied_setWaiter h.toTied rfl, fun u => (h.asks u).trans ?_⟩
  by_cases hu : u = t
  · subst hu
    rw [waiters_setWaiter_self]
    rfl
  · rw [waiters_setWaiter_ne hu]
    rfl

/-- A task that awaited nothing submits an operation, whose future is pending or cancelled at once. -/
theorem Tied.submit {t : ℕ} {r : ρ} (h : s.Tied) (ha : (s.waiters t).awaits = none) :
    (s.submit t r).Tied ∧ (s.submit t r).world = s.world ∧
      ((s.submit t r).waiters t).awaits = some s.ops.length ∧
      (∀ u, u ≠ t → (s.submit t r).waiters u = s.waiters u) ∧
      ∃ future, (s.submit t r).ops = s.ops ++ [{ task := t, request := r, future }] := by
  have hfresh := h.unborn (f := s.ops.length) le_rfl
  -- whatever is queued with it is queued for it
  have hpush : ∀ (future : Future υ) (ready : List (Handle υ)),
      (∀ g, g ≠ s.ops.length →
        settling { s with ready } g = s.settling g ∧ waking { s with ready } g = s.waking g) →
      ({ task := t, request := r, future } : Op ρ υ).Wired True
        (settling { s with ready } s.ops.length) (waking { s with ready } s.ops.length) [] →
      Tied (setWaiter { s with ops := s.ops ++ [{ task := t, request := r, future }], ready } t
        { awaits := some s.ops.length }) := by
    intro future ready hothers hop
    constructor
    · intro u f hf
      by_cases hu : u = t
      · subst hu
        rw [waiters_setWaiter_self, Option.some.injEq] at hf
        subst hf
        exact ⟨_, List.getElem?_concat_length, rfl⟩
      · rw [waiters_setWaiter_ne hu] at hf
        obtain ⟨op, hop, htask⟩ := h.awaited hf
        exact ⟨op, by rw [← hop]; exact List.getElem?_append_left (List.getElem?_eq_some_iff.mp hop).1,
          htask⟩
    · intro f op hf
      rcases Nat.lt_or_ge f s.ops.length with hlt | hge
      · have hf : s.ops[f]? = some op := by
          rw [← hf]
          exact (List.getElem?_append_left hlt).symm
        obtain ⟨h₁, h₂⟩ := hothers f (Nat.ne_of_lt hlt)
        have hold := h.op hf
        rw [← h₁, ← h₂] at hold
        have hiff : ((setWaiter { s with ops := s.ops ++ [{ task := t, request := r, future }], ready } t
            { awaits := some s.ops.length }).waiters op.task).awaits = some f ↔
            (s.waiters op.task).awaits = some f := by
          by_cases hu : op.task = t
          · rw [hu, waiters_setWaiter_self, ha, Option.some.injEq]
            exact iff_of_false (by omega) nofun
          · rw [waiters_setWaiter_ne hu]
        rw [hiff]
        exact hold
      · obtain ⟨hlt, -⟩ := List.getElem?_eq_some_iff.mp hf
        have hlt : f < (s.ops ++ [_]).length := hlt
        rw [List.length_append, List.length_singleton] at hlt
        obtain rfl : f = s.ops.length := by omega
        have hf : (s.ops ++ [_])[s.ops.length]? = some op := hf
        rw [List.getElem?_concat_length, Option.some.injEq] at hf
        subst hf
        rw [waiters_setWaiter_self, eq_true (rfl : some s.ops.length = some s.ops.length)]
        have hheard : s.heard s.ops.length = [] := hfresh.2.2
        rw [← hheard] at hop
        exact hop
    · intro f hf
      have hf : (s.ops ++ [_]).length ≤ f := hf
      rw [List.length_append, List.length_singleton] at hf
      obtain ⟨h₁, h₂⟩ := hothers f (by omega)
      obtain ⟨h₃, h₄, h₅⟩ := h.unborn (f := f) (by omega)
      exact ⟨h₁.trans h₃, h₂.trans h₄, h₅⟩
    · exact h.failed
  unfold EventLoop.submit
  dsimp only
  split_ifs
  · refine ⟨hpush .cancelled _ (fun g hg => ⟨?_, ?_⟩) ?_, rfl, ?_, fun u hu => ?_, .cancelled, rfl⟩
    · rw [settling_concat]
      simp [Handle.settling]
    · rw [waking_concat]
      simp [Handle.wakes, Ne.symm hg]
    · rw [settling_concat, waking_concat, hfresh.1, hfresh.2.1]
      simpa [Handle.settling, Handle.wakes] using @Op.Wired.born_cancelled _ υ _ t r trivial
    · rw [waiters_setWaiter_self]
    · rw [waiters_setWaiter_ne hu]
  · refine ⟨hpush .pending s.ready (fun g hg => ⟨rfl, rfl⟩) ?_, rfl, ?_, fun u hu => ?_, .pending, rfl⟩
    · show Op.Wired _ True (s.settling s.ops.length) (s.waking s.ops.length) []
      rw [hfresh.1, hfresh.2.1]
      exact .submitted t r trivial
    · rw [waiters_setWaiter_self]
    · rw [waiters_setWaiter_ne hu]

/-- Going to the next await adds the operation that is asked for, if one is. -/
theorem suspend_ops (prog : Program W ε ρ υ) (h : s.Tied) {t : ℕ} (ha : (s.waiters t).awaits = none)
    (world : W) :
    ∃ future, (s.suspend prog t world).ops =
      s.ops ++ (prog.asks world t).toList.map fun r => { task := t, request := r, future } := by
  have hworld : Tied { s with world } := ⟨h.awaited, h.op, h.unborn, h.failed⟩
  unfold suspend
  cases prog.asks world t with
  | none => exact ⟨.pending, (List.append_nil _).symm⟩
  | some r =>
    obtain ⟨-, -, -, -, future, hops⟩ := hworld.submit (r := r) ha
    exact ⟨future, hops⟩

/-- The other tasks' awaits are as they were, and this one awaits what it asks for. -/
theorem wired_suspend {t : ℕ} {world : W} (h : s.Tied) (ha : (s.waiters t).awaits = none)
    (hasks : ∀ u, u ≠ t → prog.asks world u =
      (s.waiters u).awaits.bind fun f => s.ops[f]?.map Op.request) :
    (s.suspend prog t world).Wired prog := by
  have hworld : Tied { s with world } := ⟨h.awaited, h.op, h.unborn, h.failed⟩
  unfold suspend
  cases hr : prog.asks world t with
  | none =>
    refine ⟨tied_setWaiter hworld ha.symm, fun u => ?_⟩
    by_cases hu : u = t
    · subst hu
      rw [waiters_setWaiter_self]
      exact hr
    · rw [waiters_setWaiter_ne hu]
      exact hasks u hu
  | some r =>
    obtain ⟨htied, hsame, hself, hothers, future, hops⟩ := hworld.submit (r := r) ha
    refine ⟨htied, fun u => ?_⟩
    dsimp only
    rw [hsame, hops]
    by_cases hu : u = t
    · subst hu
      rw [hself]
      show prog.asks world u = (s.ops ++ [_])[s.ops.length]?.map Op.request
      rw [hr, List.getElem?_concat_length]
      rfl
    · rw [hothers u hu]
      show prog.asks world u = _
      rw [hasks u hu]
      cases haw : (s.waiters u).awaits with
      | none => rfl
      | some f =>
        obtain ⟨op, hop, -⟩ := h.awaited haw
        show s.ops[f]?.map Op.request = (s.ops ++ [_])[f]?.map Op.request
        rw [List.getElem?_append_left (List.getElem?_eq_some_iff.mp hop).1]

theorem tied_wakeup {f : ℕ} {a : Arrival υ} {op : Op ρ υ} {ready : List (Handle υ)} (h : s.Tied)
    (hq : s.ready = .wakeup f :: ready) (hf : s.ops[f]? = some op)
    (ha : arrival (s.waiters op.task).mustCancel op.future = some a) :
    (s.waiters op.task).awaits = some f ∧
      (setWaiter { s with ready, log := s.log ++ [(f, a)] } op.task {}).Tied := by
  let s₁ : EventLoop W ρ υ := { s with ready, log := s.log ++ [(f, a)] }
  have hsettling : ∀ g, s.settling g = s₁.settling g := by
    intro g
    unfold settling
    rw [hq]
    rfl
  have hwaking : ∀ g, s.waking g = s₁.waking g + if f = g then 1 else 0 := by
    intro g
    unfold waking
    rw [hq, List.countP_cons]
    simp [Handle.wakes, s₁]
  have hheard : ∀ g, s₁.heard g = s.heard g ++ if f = g then [a] else [] := by
    intro g
    unfold heard
    rw [List.filterMap_append]
    by_cases hg : f = g <;> simp [hg]
  have hop := h.op hf
  rw [hsettling f, hwaking f, if_pos rfl] at hop
  have hno : ¬ ((s₁.setWaiter op.task {}).waiters op.task).awaits = some f := by
    rw [waiters_setWaiter_self]
    exact nofun
  obtain ⟨hawaited, hop⟩ := hop.woken ha hno
  refine ⟨hawaited, fun {t g} hg => ?_, fun {g op₀} h₀ => ?_, fun {g} hg => ?_, h.failed⟩
  · by_cases ht : t = op.task
    · subst ht
      rw [waiters_setWaiter_self] at hg
      cases hg
    · rw [waiters_setWaiter_ne ht] at hg
      exact h.awaited hg
  · by_cases hgf : f = g
    · subst hgf
      have h₀ : s.ops[f]? = some op₀ := h₀
      rw [hf, Option.some.injEq] at h₀
      subst h₀
      have hh := hheard f
      rw [if_pos rfl] at hh
      rw [← hh] at hop
      exact hop
    · have hold := h.op h₀
      have hh := hheard g
      rw [hsettling g, hwaking g, if_neg hgf, Nat.add_zero] at hold
      rw [if_neg hgf, List.append_nil] at hh
      rw [← hh] at hold
      have hiff : ((s₁.setWaiter op.task {}).waiters op₀.task).awaits = some g ↔
          (s.waiters op₀.task).awaits = some g := by
        by_cases ht : op₀.task = op.task
        · rw [ht, waiters_setWaiter_self, hawaited, Option.some.injEq]
          exact iff_of_false nofun hgf
        · rw [waiters_setWaiter_ne ht]
      rw [← hiff] at hold
      exact hold
  · have hlt : f < s.ops.length := (List.getElem?_eq_some_iff.mp hf).1
    have hg : s.ops.length ≤ g := hg
    have hgf : f ≠ g := by omega
    obtain ⟨h₁, h₂, h₃⟩ := h.unborn hg
    have hh := hheard g
    have hw := hwaking g
    rw [if_neg hgf, List.append_nil, h₃] at hh
    rw [if_neg hgf, Nat.add_zero, h₂] at hw
    exact ⟨(hsettling g).symm.trans h₁, hw.symm, hh⟩

/-- **What every step keeps.** -/
theorem wired_step {s' : EventLoop W ρ υ} {e : Event ε υ} (h : s.Wired prog)
    (hs : step prog s e = some s') : s'.Wired prog := by
  cases step_does prog hs with
  | enter ha hw =>
    refine wired_suspend h.toTied ha fun u hu => ?_
    rw [prog.enter_frame hw hu]
    exact h.asks u
  | settle hf hr => exact wired_settle h hf hr
  | cancelFuture ha hf hp => exact wired_cancelFuture h hf hp
  | mark he => exact wired_mark h
  | callback hq hf => exact wired_callback h hq hf
  | wakeup hq hf ha =>
    obtain ⟨-, htied⟩ := tied_wakeup h.toTied hq hf ha
    refine wired_suspend htied (by rw [waiters_setWaiter_self]) fun u hu => ?_
    rw [prog.resume_frame hu, waiters_setWaiter_ne hu]
    exact h.asks u

/-! ## Runs -/

theorem wired_start {world : W} (h : ∀ t, prog.asks world t = none) :
    Wired prog ({ world } : EventLoop W ρ υ) :=
  ⟨⟨nofun, nofun, fun _ => ⟨rfl, rfl, rfl⟩, rfl⟩, h⟩

/-- **Delivery.** An operation is awaited by its task and has told it nothing, or it has told it one
thing: its own reply, or that it was cancelled. -/
theorem Tied.delivery (h : s.Tied) {f : ℕ} {op : Op ρ υ} (hf : s.ops[f]? = some op) :
    (s.heard f = [] ∧ (s.waiters op.task).awaits = some f) ∨
      ∃ a, s.heard f = [a] ∧ ∀ x, a = .reply x → op.reply = some x :=
  (h.op hf).once.imp And.symm And.right

/-- **Nothing is lost.** When the queue is empty, whoever awaits an operation awaits one that is still
under way. -/
theorem Tied.nothing_lost (h : s.Tied) (hq : s.ready = []) {t f : ℕ}
    (ha : (s.waiters t).awaits = some f) :
    ∃ op, s.ops[f]? = some op ∧ op.task = t ∧ op.reply = none ∧ op.future = .pending := by
  obtain ⟨op, hf, rfl⟩ := h.awaited ha
  have hop := h.op hf
  have hsettling : s.settling f = [] := by
    unfold settling
    rw [hq]
    rfl
  have hwaking : s.waking f = 0 := by
    unfold waking
    rw [hq]
    rfl
  have hheard : s.heard f = [] := by
    rcases hop.once with h' | h'
    · exact h'.2
    · exact absurd ha h'.1
  have hpending : op.future = .pending := by
    have heq := hop.waking_eq
    rw [hwaking, hheard] at heq
    by_contra hne
    rw [if_neg (mt isPending_iff.mp hne)] at heq
    cases heq
  have hreply := (hop.pending hpending).2
  rw [hsettling] at hreply
  refine ⟨op, hf, rfl, ?_, hpending⟩
  cases hr : op.reply with
  | none => rfl
  | some x => rw [hr] at hreply; cases hreply

/-- **Progress.** A queue that is not empty is gone on with. -/
theorem Tied.progress (h : s.Tied) (hq : s.ready ≠ []) : ∃ s', step prog s .next = some s' := by
  obtain ⟨hd, ready, hq⟩ := List.exists_cons_of_ne_nil hq
  have hborn : ∀ {f}, s.settling f ≠ [] ∨ s.waking f ≠ 0 → ∃ op, s.ops[f]? = some op := by
    intro f hne
    by_cases hlt : f < s.ops.length
    · exact ⟨_, List.getElem?_eq_getElem hlt⟩
    · obtain ⟨h₁, h₂, -⟩ := h.unborn (not_lt.mp hlt)
      exact hne.elim (absurd h₁) (absurd h₂)
  cases hd with
  | settle f x =>
    obtain ⟨op, hf⟩ := hborn (f := f) (.inl (by unfold settling; rw [hq]; simp [Handle.settling]))
    simp only [step, hq, runHandle, hf, Option.map_some]
    exact ⟨_, rfl⟩
  | wakeup f =>
    have hwaking : s.waking f ≠ 0 := by
      unfold waking
      rw [hq, List.countP_cons]
      simp [Handle.wakes]
    obtain ⟨op, hf⟩ := hborn (f := f) (.inr hwaking)
    have hdone : op.future.isPending = false := by
      by_contra hp
      have heq := (h.op hf).waking_eq
      rw [if_pos (by simpa using hp)] at heq
      exact hwaking heq
    obtain ⟨a, ha⟩ : ∃ a, arrival (s.waiters op.task).mustCancel op.future = some a := by
      cases hm : (s.waiters op.task).mustCancel <;> cases hfut : op.future <;>
        first
        | exact ⟨_, rfl⟩
        | (rw [hfut] at hdone; cases hdone)
    simp only [step, hq, runHandle, hf, Option.bind_some, ha, Option.map_some]
    exact ⟨_, rfl⟩

end EventLoop

end Foundation
