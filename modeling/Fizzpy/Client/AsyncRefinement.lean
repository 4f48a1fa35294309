import Fizzpy.Client.Segment

/-!
# The asynchronous client is the client

`AsyncClient` beside `Client`: every run of its tasks over the event loop is a run of the threads' steps in
which exchanges may be dropped at an await. The calls are the same, and what the tasks are told, in the
order in which they are told it, is what the operations come to there (`refines_client`). Where no await is
cancelled nothing is dropped, and what holds of every run of `Client` holds of `AsyncClient`.
-/

namespace Fizzpy

open Foundation

namespace AsyncClient

/-! ## Threads that may drop their exchange -/

inductive Deed
  | acts (a : Client.Action)
  | drops

def act (codec : Codec) (s : Client) (x : ℕ × Deed) : Option Client :=
  match x.2 with
  | .acts a => s.step codec (x.1, a)
  | .drops => some (abandon x.1 s)

/-- The calls of a run of either client. -/
def called : ℕ × Deed → Option (ℕ × Client.Action)
  | (t, .acts (.perform job)) => some (t, .perform job)
  | (t, .acts .closeAll) => some (t, .closeAll)
  | _ => none

def entered : EventLoop.Event Call Reply → Option (ℕ × Client.Action)
  | .enter t call => some (t, call.action)
  | _ => none

/-- What operations come to, in a run of the client. -/
def happened : ℕ × Deed → Option (ℕ × Deed)
  | (t, .acts (.connect ok)) => some (t, .acts (.connect ok))
  | (t, .acts (.write ok)) => some (t, .acts (.write ok))
  | (t, .acts (.read reply)) => some (t, .acts (.read reply))
  | (t, .drops) => some (t, .drops)
  | _ => none

/-- The step that a reply stands for. -/
def Request.action : Request → Reply → Client.Action
  | .connect _, x => .connect x.ok
  | .write _ _, x => .write x.ok
  | .read _, x => .read x.read

/-- What a task was told, as a step of its thread. -/
def deed (ops : List (Op Request Reply)) (x : ℕ × Arrival Reply) : Option (ℕ × Deed) :=
  ops[x.1]?.map fun op => (op.task,
    match x.2 with
    | .reply reply => .acts (op.request.action reply)
    | .cancelled => .drops)

variable {codec : Codec} {s s' : Loop} {t : ℕ}

theorem act_run {w w' : Client} {as : List Client.Action}
    (h : run (Client.step codec) w (as.map (t, ·)) = some w') :
    run (act codec) w (as.map fun a => (t, Deed.acts a)) = some w' := by
  induction as generalizing w with
  | nil => exact h
  | cons a as ih =>
    obtain ⟨w₁, h₁, h⟩ := Option.bind_eq_some_iff.mp h
    rw [List.map_cons, run_cons]
    show (Client.step codec w (t, a)).bind _ = _
    rw [h₁]
    exact ih h

theorem followUps_silent {phase : Phase} {a : Client.Action} (h : a ∈ followUps phase) :
    called (t, .acts a) = none ∧ happened (t, .acts a) = none := by
  cases phase with
  | closing conns =>
    rw [List.eq_of_mem_replicate h]
    exact ⟨rfl, rfl⟩
  | take | give | close | closeStale =>
    rw [List.mem_singleton.mp h]
    exact ⟨rfl, rfl⟩
  | idle | write | read | connect => cases h

/-- A segment is one step, and steps that follow from it. -/
theorem segment_deeds {a : Client.Action} {w w' : Client} (h : segment codec t a w = some w') :
    ∃ ds, run (act codec) w ds = some w' ∧ ds.filterMap called = (called (t, .acts a)).toList ∧
      ds.filterMap happened = (happened (t, .acts a)).toList := by
  obtain ⟨w₁, h₁, hrun⟩ := Option.bind_eq_some_iff.mp h
  have hall : run (Client.step codec) w ((a :: followUps (w₁.threads t).phase).map (t, ·)) = some w' := by
    rw [List.map_cons, run_cons, h₁]
    exact hrun
  refine ⟨_, act_run hall, ?_, ?_⟩
  · have hnil : ((followUps (w₁.threads t).phase).map fun a => (t, Deed.acts a)).filterMap called = [] := by
      refine List.filterMap_eq_nil_iff.mpr fun x hx => ?_
      obtain ⟨a, ha, rfl⟩ := List.mem_map.mp hx
      exact (followUps_silent ha).1
    rw [List.map_cons, List.filterMap_cons, hnil]
    cases called (t, Deed.acts a) <;> rfl
  · have hnil : ((followUps (w₁.threads t).phase).map fun a => (t, Deed.acts a)).filterMap happened = [] := by
      refine List.filterMap_eq_nil_iff.mpr fun x hx => ?_
      obtain ⟨a, ha, rfl⟩ := List.mem_map.mp hx
      exact (followUps_silent ha).2
    rw [List.map_cons, List.filterMap_cons, hnil]
    cases happened (t, Deed.acts a) <;> rfl

/-- What a task does behind an await is the step that its reply stands for, with what follows. -/
theorem resume_deeds (codec : Codec) {w : Client} {r : Request} (h : asks w t = some r) (x : Reply) :
    segment codec t (r.action x) w = some (resume codec w t (.reply x)) := by
  unfold asks at h
  split at h
  · next hph =>
    cases h
    cases x with
    | resolve data =>
      have hseg := segment_connected codec hph
      exact hseg.trans (congrArg some (resume_eq (by rw [hph]; rfl) hseg).symm)
    | reject =>
      obtain ⟨w', hseg, -⟩ := segment_refused codec hph
      exact hseg.trans (congrArg some (resume_eq (by rw [hph]; rfl) hseg).symm)
  · next hph =>
    cases h
    obtain ⟨w', hseg, -⟩ := segment_write codec hph x
    exact hseg.trans (congrArg some (resume_eq (by rw [hph]; cases x <;> rfl) hseg).symm)
  · next hph =>
    cases h
    obtain ⟨w', hseg, -⟩ := segment_read codec hph x
    exact hseg.trans (congrArg some (resume_eq (by rw [hph]; cases x <;> rfl) hseg).symm)
  · cases h

/-! ## The simulation -/

/-- The client has come to the same state with the same calls, and its operations to what was told. -/
def Matched (codec : Codec) (calls : List (ℕ × Client.Action)) (s : Loop) : Prop :=
  ∃ ds, run (act codec) Client.init ds = some s.world ∧ ds.filterMap called = calls ∧
    ds.filterMap happened = s.log.filterMap (deed s.ops)

theorem deed_congr {ops ops' : List (Op Request Reply)} {x : ℕ × Arrival Reply}
    (h : ops'[x.1]?.map (fun op => (op.task, op.request)) =
      ops[x.1]?.map fun op => (op.task, op.request)) : deed ops' x = deed ops x := by
  unfold deed
  cases h' : ops'[x.1]? with
  | none =>
    rw [h'] at h
    rw [Option.map_eq_none_iff.mp h.symm]
  | some op' =>
    rw [h'] at h
    obtain ⟨op, hop, heq⟩ := Option.map_eq_some_iff.mp h.symm
    rw [Prod.mk.injEq] at heq
    rw [hop, Option.map_some, Option.map_some, heq.1, heq.2]

/-- A step that is no call and tells nothing. -/
theorem Matched.same {calls : List (ℕ × Client.Action)} {e : EventLoop.Event Call Reply}
    (h : Matched codec calls s) (he : entered e = none) (hworld : s'.world = s.world) (hlog : s'.log = s.log)
    (hops : ∀ x, deed s'.ops x = deed s.ops x) : Matched codec (calls ++ (entered e).toList) s' := by
  obtain ⟨ds, hrun, hcalls, hlogs⟩ := h
  refine ⟨ds, by rw [hworld]; exact hrun, ?_, hlogs.trans ?_⟩
  · rw [he, hcalls]
    exact (List.append_nil _).symm
  · rw [hlog]
    exact (List.filterMap_congr fun x _ => hops x).symm

theorem Matched.set {calls : List (ℕ × Client.Action)} {e : EventLoop.Event Call Reply} {f : ℕ}
    {op op' : Op Request Reply} (h : Matched codec calls s) (he : entered e = none)
    (hf : s.ops[f]? = some op) (hops : s'.ops = s.ops.set f op') (htask : op'.task = op.task)
    (hreq : op'.request = op.request) (hworld : s'.world = s.world) (hlog : s'.log = s.log) :
    Matched codec (calls ++ (entered e).toList) s' := by
  refine h.same he hworld hlog fun x => deed_congr ?_
  rw [hops]
  by_cases hx : f = x.1
  · subst hx
    rw [List.getElem?_set_self (List.getElem?_eq_some_iff.mp hf).1, hf, Option.map_some, Option.map_some,
      htask, hreq]
  · rw [List.getElem?_set_ne hx]

/-- What was told was told of operations that were submitted. -/
theorem lt_of_mem_log (h : s.Tied) {x : ℕ × Arrival Reply} (hx : x ∈ s.log) : x.1 < s.ops.length := by
  by_contra hge
  have hnone := (h.unborn (not_lt.mp hge)).2.2
  have hmem : x.2 ∈ s.heard x.1 := List.mem_filterMap.mpr ⟨x, hx, if_pos rfl⟩
  rw [hnone] at hmem
  cases hmem

/-- Going to the next await changes nothing of what was told. -/
theorem deed_suspend (h : s.Tied) {w : Client} (ha : (s.waiters t).awaits = none) {x : ℕ × Arrival Reply}
    (hx : x.1 < s.ops.length) : deed (s.suspend (program codec) t w).ops x = deed s.ops x := by
  obtain ⟨more, hops⟩ := EventLoop.suspend_ops (program codec) h ha w
  rw [hops]
  refine deed_congr ?_
  rw [List.getElem?_append_left hx]

theorem matched_step {calls : List (ℕ × Client.Action)} {e : EventLoop.Event Call Reply}
    (h : Matched codec calls s) (ht : Tended codec s) (hs : EventLoop.step (program codec) s e = some s') :
    Matched codec (calls ++ (entered e).toList) s' := by
  cases EventLoop.step_does (program codec) hs with
  | settle hf hr => exact h.set rfl hf rfl rfl rfl rfl rfl
  | cancelFuture ha hf hp => exact h.set rfl hf rfl rfl rfl rfl rfl
  | callback hq hf => exact h.set rfl hf rfl rfl rfl rfl rfl
  | mark he => exact h.same (by rcases he with rfl | rfl <;> rfl) rfl rfl fun x => rfl
  | @enter t call world ha henter =>
    obtain ⟨ds, hrun, hcalls, hlog⟩ := h
    obtain ⟨ds', hrun', hcalled, hhappened⟩ := segment_deeds henter
    refine ⟨ds ++ ds', ?_, ?_, ?_⟩
    · rw [run_append, hrun, EventLoop.suspend_world]
      exact hrun'
    · rw [List.filterMap_append, hcalls, hcalled]
      cases call <;> rfl
    · have hnothing : ds'.filterMap happened = [] := by
        rw [hhappened]
        cases call <;> rfl
      rw [List.filterMap_append, hnothing, List.append_nil, hlog, EventLoop.suspend_log]
      exact (List.filterMap_congr fun x hx =>
        deed_suspend ht.wired.toTied ha (lt_of_mem_log ht.wired.toTied hx)).symm
  | @wakeup f op a ready hq hf ha =>
    obtain ⟨haw, htied⟩ := EventLoop.tied_wakeup ht.wired.toTied hq hf ha
    have hasks : asks s.world op.task = some op.request := ht.wired.asks_of_awaits haw hf
    obtain ⟨ds, hrun, hcalls, hlog⟩ := h
    have hsame : ∀ x, x.1 < s.ops.length → deed ((EventLoop.setWaiter { s with ready, log := s.log ++ [(f, a)] }
        op.task {}).suspend (program codec) op.task ((program codec).resume s.world op.task a)).ops x =
          deed s.ops x := fun x hx => deed_suspend htied (by rw [EventLoop.waiters_setWaiter_self]) hx
    have hdeeds : ∃ ds', run (act codec) s.world ds' = some (resume codec s.world op.task a) ∧
        ds'.filterMap called = [] ∧ ds'.filterMap happened = (deed s.ops (f, a)).toList := by
      unfold deed
      rw [hf, Option.map_some]
      cases a with
      | cancelled => exact ⟨[(op.task, .drops)], rfl, rfl, rfl⟩
      | reply x =>
        obtain ⟨ds', hrun', hcalled, hhappened⟩ := segment_deeds (resume_deeds codec hasks x)
        refine ⟨ds', hrun', hcalled.trans ?_, hhappened.trans ?_⟩
        · cases op.request <;> rfl
        · cases op.request <;> rfl
    obtain ⟨ds', hrun', hcalled, hhappened⟩ := hdeeds
    refine ⟨ds ++ ds', ?_, ?_, ?_⟩
    · rw [run_append, hrun, EventLoop.suspend_world]
      exact hrun'
    · rw [List.filterMap_append, hcalls, hcalled]
      rfl
    · rw [EventLoop.suspend_log, List.filterMap_append, hlog, hhappened]
      show _ = (s.log ++ [(f, a)]).filterMap _
      rw [List.filterMap_append]
      congr 1
      · exact (List.filterMap_congr fun x hx => hsame x (lt_of_mem_log ht.wired.toTied hx)).symm
      · have hlast := hsame (f, a) (List.getElem?_eq_some_iff.mp hf).1
        rw [List.filterMap_cons, List.filterMap_nil, hlast]
        cases deed s.ops (f, a) <;> rfl

/-! ## Runs -/

theorem matched_run {es : List (EventLoop.Event Call Reply)}
    (h : run (EventLoop.step (program codec)) start es = some s) :
    Matched codec (es.filterMap entered) s := by
  have hstep : ∀ (before : List (EventLoop.Event Call Reply)) (s : Loop) (e : EventLoop.Event Call Reply)
      (s' : Loop), Tended codec s ∧ Matched codec (before.filterMap entered) s → True →
      EventLoop.step (program codec) s e = some s' →
      Tended codec s' ∧ Matched codec ((before ++ [e]).filterMap entered) s' := by
    rintro before s e s' ⟨ht, hm⟩ - hs
    refine ⟨tended_step ht hs, ?_⟩
    have hnext := matched_step hm ht hs
    rw [List.filterMap_append]
    cases he : entered e <;> simpa [he] using hnext
  have hstart : Tended codec start ∧ Matched codec (([] : List (EventLoop.Event Call Reply)).filterMap entered)
      start := ⟨tended_start, [], rfl, rfl, rfl⟩
  exact (run_history hstep (fun _ _ => trivial) [] hstart h).2

/-- Where nothing is dropped, the steps are the client's. -/
theorem steps_of_deeds (codec : Codec) {ds : List (ℕ × Deed)} (h : ∀ x ∈ ds, x.2 ≠ .drops) :
    ∃ xs : List (ℕ × Client.Action), ds = xs.map (fun x => (x.1, .acts x.2)) ∧
      ∀ s : Client, run (act codec) s ds = run (Client.step codec) s xs := by
  induction ds with
  | nil => exact ⟨[], rfl, fun _ => rfl⟩
  | cons d ds ih =>
    obtain ⟨hd, hds⟩ := List.forall_mem_cons.mp h
    obtain ⟨xs, rfl, hrun⟩ := ih hds
    obtain ⟨t, a | _⟩ := d
    · refine ⟨(t, a) :: xs, rfl, fun s => ?_⟩
      rw [run_cons, run_cons]
      show (Client.step codec s (t, a)).bind _ = _
      exact congrArg _ (funext hrun)
    · exact absurd rfl hd

/-- **Refinement.** What the tasks of `AsyncClient` do over the event loop is a run of the client's threads
that may drop their exchange at an await: with the same calls, to the same state, and with the operations
coming to what the tasks were told, in the same order. When no task was told that it was cancelled it is a run
of `Client`. -/
theorem refines_client (codec : Codec) {es : List (EventLoop.Event Call Reply)} {s : Loop}
    (h : run (EventLoop.step (program codec)) start es = some s) :
    ∃ ds, run (act codec) Client.init ds = some s.world ∧
      ds.filterMap called = es.filterMap entered ∧
      (ds.filterMap happened).map some = s.log.map (deed s.ops) ∧
      ((∀ x ∈ s.log, x.2 ≠ .cancelled) → ∃ xs : List (ℕ × Client.Action),
        ds = xs.map (fun x => (x.1, .acts x.2)) ∧
          run (Client.step codec) Client.init xs = some s.world) := by
  obtain ⟨ds, hrun, hcalls, hlog⟩ := matched_run h
  have ht := (tended_of_run tended_start h).wired.toTied
  refine ⟨ds, hrun, hcalls, ?_, fun hcalm => ?_⟩
  · rw [hlog, List.map_filterMap_some_eq_filter_map_isSome]
    refine List.filter_eq_self.mpr fun d hd => ?_
    obtain ⟨x, hx, rfl⟩ := List.mem_map.mp hd
    unfold deed
    rw [List.getElem?_eq_getElem (lt_of_mem_log ht hx)]
    rfl
  · have hacts : ∀ d ∈ ds, d.2 ≠ .drops := by
      rintro ⟨t, d⟩ hd rfl
      have hmem : (t, Deed.drops) ∈ ds.filterMap happened := List.mem_filterMap.mpr ⟨_, hd, rfl⟩
      rw [hlog] at hmem
      obtain ⟨x, hx, hdeed⟩ := List.mem_filterMap.mp hmem
      obtain ⟨op, -, heq⟩ := Option.map_eq_some_iff.mp hdeed
      rw [Prod.mk.injEq] at heq
      cases ha : x.2 with
      | cancelled => exact hcalm x hx ha
      | reply reply =>
        rw [ha] at heq
        cases heq.2
    obtain ⟨xs, heq, hsame⟩ := steps_of_deeds codec hacts
    exact ⟨xs, heq, (hsame _).symm.trans hrun⟩

/-- A request whose connection is given back. -/
def answering : List (EventLoop.Event Call Reply) :=
  reading ++ [.settle 2 (.resolve (ascii "HTTP/1.1 204 No Content\r\n\r\n")), .next, .next]

theorem refines_client_answering : ∃ (s : Loop) (xs : List (ℕ × Client.Action)),
    run (EventLoop.step (program noCodec)) start answering = some s ∧ s.world.pool.conns = [0] ∧
    run (Client.step noCodec) Client.init xs = some s.world := by
  have h : (run (EventLoop.step (program noCodec)) start answering).map
      (fun s => (s.world.pool.conns, s.log.all fun x => x.2 ≠ .cancelled)) = some ([0], true) := by
    decide +kernel
  obtain ⟨s, hs, heq⟩ := Option.map_eq_some_iff.mp h
  rw [Prod.mk.injEq] at heq
  have hcalm : ∀ x ∈ s.log, x.2 ≠ .cancelled := by
    intro x hx
    exact of_decide_eq_true (List.all_eq_true.mp heq.2 x hx)
  obtain ⟨ds, -, -, -, hsteps⟩ := refines_client noCodec hs
  obtain ⟨xs, -, hrun⟩ := hsteps hcalm
  exact ⟨s, xs, hs, heq.1, hrun⟩

end AsyncClient

end Fizzpy
