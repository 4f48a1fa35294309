import Fizzpy.Client.Client
import Fizzpy.Foundation.Cells

/-!
# Who has a connection

A connection is in the pool, with a thread (in its exchange, or cleared and about to be closed), or
closed. Every step of a thread is a `Move` between these cells (`cells_step`), so that a connection
is in one of them at most, and once, in every state reached.
-/

namespace Fizzpy

open Foundation

/-- The connection of an exchange. -/
def Phase.conn? : Phase → Option ConnId
  | .write c _ | .read c _ _ _ | .give c _ | .close c _ | .closeStale c => some c
  | .idle | .take | .connect | .closing _ => none

/-- The connections a thread has. -/
def Phase.held : Phase → List ConnId
  | .closing cs => cs
  | phase => phase.conn?.toList

theorem Phase.held_of_conn {phase : Phase} {c : ConnId} (h : phase.conn? = some c) :
    phase.held = [c] := by
  cases phase <;> cases h <;> rfl

namespace Client

/-! ## Outcomes -/

/-- The exchange goes on with its connection, or it failed. -/
def Outcome.Keeps (c : ConnId) : Outcome → Prop
  | .goOn phase => phase.conn? = some c
  | .returned _ => False
  | .raised _ => True

theorem afterLoop_keeps (c : ConnId) (reused : Bool) (parser : ResponseParser) :
    (afterLoop c reused parser).Keeps c := by
  unfold afterLoop
  split
  · split_ifs
    · rfl
    · trivial
  · split_ifs <;> rfl

theorem afterWrite_keeps (c : ConnId) (reused ok : Bool) : (afterWrite c reused ok).Keeps c := by
  unfold afterWrite
  split_ifs
  · rfl
  · rfl
  · trivial

theorem afterRead_keeps (codec : Codec) (c : ConnId) (reused : Bool) (parser : ResponseParser)
    (received : Bool) (reply : ReadReply) :
    (afterRead codec c reused parser received reply).Keeps c := by
  unfold afterRead
  cases reply with
  | failed =>
    dsimp only
    split_ifs
    · rfl
    · trivial
  | chunk data =>
    dsimp only
    split_ifs
    · rfl
    · split
      · exact afterLoop_keeps ..
      · trivial
    · split
      · split_ifs
        · exact afterLoop_keeps ..
        · rfl
      · trivial

theorem held_proceed {t : Thread} {c : ConnId} {o : Outcome} (h : o.Keeps c) :
    (t.proceed o).phase.held.Sublist [c] := by
  cases o with
  | goOn phase => rw [Thread.proceed, Phase.held_of_conn h]
  | returned r => cases h
  | raised e => exact List.nil_sublist _

theorem conn_proceed {t : Thread} {c c' : ConnId} {o : Outcome} (h : o.Keeps c)
    (hc : (t.proceed o).phase.conn? = some c') : c' = c ∧ (t.proceed o).job = t.job := by
  cases o with
  | goOn phase => exact ⟨Option.some.inj (hc.symm.trans h), rfl⟩
  | returned r => cases h
  | raised e => cases hc

/-! ## Cells -/

inductive Cell
  | pooled
  | held (i : ℕ)
  | closed

/-- The connections of a cell. -/
def cell (s : Client) : Cell → List ConnId
  | .pooled => s.pool.conns
  | .held i => (s.threads i).phase.held
  | .closed => s.closed

theorem mem_held {s : Client} {i : ℕ} {c : ConnId} (h : (s.threads i).phase.conn? = some c) :
    c ∈ s.cell (.held i) := by
  show c ∈ (s.threads i).phase.held
  rw [Phase.held_of_conn h]
  exact List.mem_singleton_self c

@[simp] theorem threads_setThread_self (s : Client) (i : ℕ) (t : Thread) :
    (s.setThread i t).threads i = t := Function.update_self ..

theorem threads_setThread_ne (s : Client) {i j : ℕ} (h : j ≠ i) (t : Thread) :
    (s.setThread i t).threads j = s.threads j := Function.update_of_ne h ..

/-- A thread's step leaves the cells of the others. -/
theorem held_setThread_ne (s : Client) {i j : ℕ} (t : Thread) (h : Cell.held j ≠ Cell.held i) :
    ((s.setThread i t).threads j).phase.held = (s.threads j).phase.held := by
  rw [threads_setThread_ne s (fun hj => h (congrArg Cell.held hj))]

/-- A step on no connection, or one that keeps or drops the thread's own. -/
theorem move_drop {s : Client} {i : ℕ} {t : Thread} {fresh : ConnId → Prop}
    (h : t.phase.held.Sublist (s.threads i).phase.held) :
    Move fresh s.cell (s.setThread i t).cell := by
  refine .drop (.held i) ?_ ?_
  · show ((s.setThread i t).threads i).phase.held.Sublist _
    rw [threads_setThread_self]
    exact h
  · rintro (_ | j | _) hj
    · rfl
    · exact held_setThread_ne s t hj
    · rfl

/-- The thread gets connections of the pool. -/
theorem move_take {s : Client} {i : ℕ} {t : Thread} {pool : Pool} {fresh : ConnId → Prop}
    (hs : (s.threads i).phase.held = []) (h : s.pool.conns.Perm (t.phase.held ++ pool.conns)) :
    Move fresh s.cell ({ s with pool }.setThread i t).cell := by
  refine .carry .pooled (.held i) t.phase.held nofun h ?_ ?_
  · show ((setThread _ i t).threads i).phase.held.Perm (_ ++ (s.threads i).phase.held)
    rw [threads_setThread_self, hs, List.append_nil]
  · rintro (_ | j | _) hj hj'
    · exact absurd rfl hj
    · exact held_setThread_ne _ t hj'
    · rfl

/-- The thread puts its connection into the pool. -/
theorem move_give {s : Client} {i : ℕ} {t : Thread} {key : Key} {c : ConnId}
    {fresh : ConnId → Prop} (h : (s.threads i).phase.held = c :: t.phase.held) :
    Move fresh s.cell ({ s with pool := s.pool.give key c }.setThread i t).cell := by
  refine .carry (.held i) .pooled [c] nofun ?_ (Pool.conns_give key c s.pool) ?_
  · show (s.threads i).phase.held.Perm ([c] ++ ((setThread _ i t).threads i).phase.held)
    rw [threads_setThread_self, h]
    exact List.Perm.refl _
  · rintro (_ | j | _) hj hj'
    · exact absurd rfl hj'
    · exact held_setThread_ne _ t hj
    · rfl

/-- The thread closes a connection of its own. -/
theorem move_close {s : Client} {i : ℕ} {t : Thread} {c : ConnId} {fresh : ConnId → Prop}
    (h : (s.threads i).phase.held = c :: t.phase.held) :
    Move fresh s.cell ({ s with closed := s.closed ++ [c] }.setThread i t).cell := by
  refine .carry (.held i) .closed [c] nofun ?_ List.perm_append_comm ?_
  · show (s.threads i).phase.held.Perm ([c] ++ ((setThread _ i t).threads i).phase.held)
    rw [threads_setThread_self, h]
    exact List.Perm.refl _
  · rintro (_ | j | _) hj hj'
    · rfl
    · exact held_setThread_ne _ t hj
    · exact absurd rfl hj'

/-- The thread has a connection that was just opened. -/
theorem move_connect {s : Client} {i : ℕ} {t : Thread} {key : Key} {c : ConnId}
    {fresh : ConnId → Prop} (hs : (s.threads i).phase.held = []) (h : t.phase.held = [c])
    (hc : fresh c) : Move fresh s.cell ({ s with opened := s.opened ++ [key] }.setThread i t).cell := by
  refine .bring (.held i) c hc ?_ ?_
  · show ((setThread _ i t).threads i).phase.held.Perm (c :: (s.threads i).phase.held)
    rw [threads_setThread_self, hs, h]
  · rintro (_ | j | _) hj
    · rfl
    · exact held_setThread_ne _ t hj
    · rfl

/-- A connection that `s'` has opened and `s` has not. -/
def OpenedNext (s s' : Client) (c : ConnId) : Prop :=
  s.opened.length ≤ c ∧ c < s'.opened.length

/-- **What a step does to the cells.** -/
theorem cells_step {codec : Codec} {s s' : Client} {i : ℕ} {a : Action} (h : Step codec s i a s') :
    Move (OpenedNext s s') s.cell s'.cell := by
  cases h with
  | perform h => exact move_drop (List.nil_sublist _)
  | takePooled h hp => exact move_take (by rw [h]; rfl) (Pool.take_spec hp).2.1
  | takeNone h hp => exact move_drop (List.nil_sublist _)
  | write h => exact move_drop (by rw [h]; exact held_proceed (afterWrite_keeps ..))
  | read h => exact move_drop (by rw [h]; exact held_proceed (afterRead_keeps ..))
  | give h => exact move_give (by rw [h]; rfl)
  | close h => exact move_close (by rw [h]; rfl)
  | closeStale h => exact move_close (by rw [h]; rfl)
  | connected h =>
    refine move_connect (by rw [h]; rfl) rfl ⟨Nat.le_refl _, ?_⟩
    show s.opened.length < (s.opened ++ [_]).length
    rw [List.length_append, List.length_singleton]
    exact Nat.lt_succ_self _
  | connectFailed h => exact move_drop (List.nil_sublist _)
  | closeAll h =>
    refine move_take (by rw [h]; rfl) ?_
    show s.pool.conns.Perm (s.pool.conns ++ [])
    rw [List.append_nil]
  | closeNext h => exact move_close (by rw [h]; rfl)
  | closeDone h => exact move_drop (List.nil_sublist _)

/-! ## Targets -/

/-- The connections of the pool and of the exchanges were opened to the targets they serve. -/
structure Targeted (s : Client) : Prop where
  pooled : ∀ k c, s.pool.Has k c → s.opened[c]? = some k
  exchange : ∀ i c, (s.threads i).phase.conn? = some c → s.opened[c]? = some (s.threads i).job.key

/-- A thread's step is over its own target. -/
theorem Targeted.setThread {s : Client} {i : ℕ} {t : Thread} {pool : Pool} {closed : List ConnId}
    (hs : s.Targeted) (hpool : ∀ k c, pool.Has k c → s.opened[c]? = some k)
    (ht : ∀ c, t.phase.conn? = some c → s.opened[c]? = some t.job.key) :
    ({ s with pool, closed }.setThread i t).Targeted := by
  refine ⟨hpool, fun j c hc => ?_⟩
  by_cases hj : j = i
  · subst hj
    rw [threads_setThread_self] at hc ⊢
    exact ht c hc
  · rw [threads_setThread_ne _ hj] at hc ⊢
    exact hs.exchange j c hc

theorem Targeted.open {s : Client} (hs : s.Targeted) (key : Key) :
    Targeted { s with opened := s.opened ++ [key] } := by
  have mono : ∀ {c : ConnId} {k : Key}, s.opened[c]? = some k → (s.opened ++ [key])[c]? = some k := by
    intro c k h
    rw [List.getElem?_append_left (List.getElem?_eq_some_iff.mp h).1, h]
  exact ⟨fun k c h => mono (hs.pooled k c h), fun i c h => mono (hs.exchange i c h)⟩

theorem targeted_step {codec : Codec} {s s' : Client} {i : ℕ} {a : Action} (hs : s.Targeted)
    (h : Step codec s i a s') : s'.Targeted := by
  cases h with
  | perform h => exact hs.setThread hs.pooled nofun
  | takePooled h hp =>
    obtain ⟨hhas, -, hsub⟩ := Pool.take_spec hp
    refine hs.setThread (fun k c hc => hs.pooled k c (hsub k c hc)) fun c hc => ?_
    cases hc
    exact hs.pooled _ _ hhas
  | takeNone h hp => exact hs.setThread hs.pooled nofun
  | write h =>
    refine hs.setThread hs.pooled fun c hc => ?_
    obtain ⟨rfl, hjob⟩ := conn_proceed (afterWrite_keeps ..) hc
    rw [hjob]
    exact hs.exchange i c (by rw [h]; rfl)
  | read h =>
    refine hs.setThread hs.pooled fun c hc => ?_
    obtain ⟨rfl, hjob⟩ := conn_proceed (afterRead_keeps ..) hc
    rw [hjob]
    exact hs.exchange i c (by rw [h]; rfl)
  | give h =>
    refine hs.setThread (fun k c hc => ?_) nofun
    obtain hc | ⟨rfl, rfl⟩ := Pool.has_give hc
    · exact hs.pooled k c hc
    · exact hs.exchange i c (by rw [h]; rfl)
  | close h => exact hs.setThread hs.pooled nofun
  | closeStale h => exact hs.setThread hs.pooled nofun
  | connected h =>
    have ho := hs.open (s.threads i).job.key
    refine ho.setThread ho.pooled fun c hc => ?_
    cases hc
    show (s.opened ++ [_])[s.opened.length]? = some _
    exact List.getElem?_concat_length
  | connectFailed h => exact hs.setThread hs.pooled nofun
  | closeAll h => exact hs.setThread (fun k c ⟨_, hmem, _⟩ => nomatch hmem) nofun
  | closeNext h => exact hs.setThread hs.pooled nofun
  | closeDone h => exact hs.setThread hs.pooled nofun

/-! ## Runs -/

/-- What holds of the connections in every state. -/
structure Owned (s : Client) : Prop where
  exclusive : Exclusive s.cell
  opened : ∀ k, ∀ c ∈ s.cell k, c < s.opened.length
  targeted : s.Targeted

theorem cell_init (k : Cell) : init.cell k = [] := by
  cases k <;> rfl

theorem owned_init : init.Owned := by
  refine ⟨⟨fun k => ?_, fun {c k l} hc => ?_⟩, fun k c hc => ?_, ⟨?_, nofun⟩⟩
  · rw [cell_init]; exact List.nodup_nil
  · rw [cell_init] at hc; cases hc
  · rw [cell_init] at hc; cases hc
  · rintro k c ⟨_, hmem, _⟩; cases hmem

theorem threads_step_ne {codec : Codec} {s s' : Client} {i j : ℕ} {a : Action}
    (h : Step codec s i a s') (hj : j ≠ i) : s'.threads j = s.threads j := by
  cases h <;> exact threads_setThread_ne _ hj _

/-- What is in the pool was there, or was given back. -/
theorem pool_step {codec : Codec} {s s' : Client} {i : ℕ} {a : Action} (h : Step codec s i a s')
    {c : ConnId} (hc : c ∈ s'.pool.conns) :
    c ∈ s.pool.conns ∨ a = .give ∧ ∃ r, (s.threads i).phase = .give c r := by
  cases h with
  | takePooled h hp => exact .inl ((Pool.take_spec hp).2.1.mem_iff.mpr (List.mem_cons_of_mem _ hc))
  | give h =>
    obtain rfl | hc := List.mem_cons.mp ((Pool.conns_give ..).mem_iff.mp hc)
    · exact .inr ⟨rfl, _, h⟩
    · exact .inl hc
  | closeAll h => cases hc
  | _ => exact .inl hc

theorem opened_step {codec : Codec} {s s' : Client} {i : ℕ} {a : Action} (h : Step codec s i a s') :
    s.opened <+: s'.opened := by
  cases h with
  | connected h => exact List.prefix_append _ _
  | _ => exact List.prefix_rfl

theorem closed_step {codec : Codec} {s s' : Client} {i : ℕ} {a : Action} (h : Step codec s i a s') :
    s.closed <+: s'.closed := by
  cases h with
  | close h => exact List.prefix_append _ _
  | closeStale h => exact List.prefix_append _ _
  | closeNext h => exact List.prefix_append _ _
  | _ => exact List.prefix_rfl

theorem owned_step {codec : Codec} {s s' : Client} {x : ℕ × Action} (hs : s.Owned)
    (h : step codec s x = some s') : s'.Owned := by
  have hstep : Step codec s x.1 x.2 s' := step_sound h
  have hmove := cells_step hstep
  constructor
  · refine hmove.exclusive hs.exclusive fun c hc k hk => ?_
    exact absurd (hs.opened k c hk) (Nat.not_lt.mpr hc.1)
  · intro k c hc
    obtain ⟨l, hl⟩ | hc := hmove.mem hc
    · exact (hs.opened l c hl).trans_le (opened_step hstep).length_le
    · exact hc.2
  · exact targeted_step hs.targeted hstep

theorem owned_run {codec : Codec} {s s' : Client} {xs : List (ℕ × Action)} (hs : s.Owned)
    (h : run (step codec) s xs = some s') : s'.Owned :=
  run_invariant (fun _ _ _ hs h => owned_step hs h) hs h

theorem closed_run {codec : Codec} {s s' : Client} {xs : List (ℕ × Action)} {c : ConnId}
    (hc : c ∈ s.closed) (h : run (step codec) s xs = some s') : c ∈ s'.closed :=
  run_invariant (I := fun s => c ∈ s.closed)
    (fun _ _ _ hc h => (closed_step (step_sound h)).subset hc) hc h

/-- **Exclusive ownership.** In every state that threads reach, a connection in the pool is there
once, was opened to the target it is pooled under, and no thread has it; a connection that a thread
has is with no other; and one that was closed is never pooled nor with a thread again. -/
theorem exclusive_ownership {codec : Codec} {xs : List (ℕ × Action)} {s : Client}
    (h : run (step codec) init xs = some s) :
    (∀ c ∈ s.pool.conns, s.pool.conns.count c = 1 ∧ ∀ i, c ∉ (s.threads i).phase.held) ∧
    (∀ i, ∀ c ∈ (s.threads i).phase.held, (s.threads i).phase.held.count c = 1 ∧
      ∀ j, c ∈ (s.threads j).phase.held → j = i) ∧
    (∀ k c, s.pool.Has k c → s.opened[c]? = some k) ∧
    (∀ i c, (s.threads i).phase.conn? = some c → s.opened[c]? = some (s.threads i).job.key) ∧
    (∀ c ∈ s.closed, ∀ ys s', run (step codec) s ys = some s' →
      c ∉ s'.pool.conns ∧ ∀ i, c ∉ (s'.threads i).phase.held) := by
  have hs := owned_run owned_init h
  refine ⟨fun c hc => ⟨?_, fun i hi => ?_⟩, fun i c hc => ⟨?_, fun j hj => ?_⟩,
    hs.targeted.pooled, hs.targeted.exchange, fun c hc ys s' h' => ?_⟩
  · exact List.count_eq_one_of_mem (hs.exclusive.nodup .pooled) hc
  · exact nomatch hs.exclusive.unique (k := .pooled) (l := .held i) hc hi
  · exact List.count_eq_one_of_mem (hs.exclusive.nodup (.held i)) hc
  · cases hs.exclusive.unique (k := .held j) (l := .held i) hj hc
    rfl
  · have hs' := owned_run hs h'
    have hc' : c ∈ s'.cell .closed := closed_run hc h'
    exact ⟨fun hp => (nomatch hs'.exclusive.unique (k := .pooled) hp hc'),
      fun i hi => (nomatch hs'.exclusive.unique (k := .held i) hi hc')⟩

/-- A thread's steps through an exchange on a new connection that ends in the pool. -/
def pooledOnce (i : ℕ) (job : Job) : List (ℕ × Action) :=
  [.perform job, .take, .connect true, .write true,
    .read (.chunk (ascii "HTTP/1.1 200 OK\r\nContent-Length: 0\r\n\r\n")), .give].map (i, ·)

theorem exclusive_ownership_pooled : ∃ s,
    run (step noCodec) init (pooledOnce 0 ⟨(str "a.b", 443), []⟩) = some s ∧
    s.pool.conns = [0] ∧ s.pool.conns.count 0 = 1 ∧ ∀ i, 0 ∉ (s.threads i).phase.held := by
  have h : (run (step noCodec) init (pooledOnce 0 ⟨(str "a.b", 443), []⟩)).map (·.pool.conns) =
      some [0] := by decide +kernel
  obtain ⟨s, hs, hp⟩ := Option.map_eq_some_iff.mp h
  exact ⟨s, hs, hp, (exclusive_ownership hs).1 0 (by rw [hp]; exact List.mem_singleton_self 0)⟩

end Client

end Fizzpy
