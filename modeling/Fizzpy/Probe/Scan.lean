import Fizzpy.Foundation.Order
import Fizzpy.Foundation.Transition
import Fizzpy.Probe.Soundness

/-!
# Scans

`probe_many`: one task for each target, each behind the semaphore for as long as it probes. The tasks
are let in and completed in any order; the results are yielded in the order of completion.
-/

namespace Fizzpy

namespace Probe

open Foundation

abbrev Target := Str × ℕ

def ProbeResult.key (r : ProbeResult) : Target := (r.host, r.port)

variable {Info : Type}

def Env.target (env : Env Info) : Target := (env.host, env.port)

/-- `one`, behind the gate: what the task makes of its probe. -/
def one (env : Env Info) : Except ProbeExn ProbeResult :=
  match probe env with
  | .ok r => .ok r
  | .error .noPostQuantumSupport => .error .noPostQuantumSupport
  | .error (.unexpected e) =>
    .ok {
      host := env.host
      port := env.port
      verdict := .error
      error := some (e.name ++ str ": " ++ e.text) }

/-- How far a task is: it waits for the gate, it probes, or it is done with what its probe met. -/
inductive Stage (Info : Type)
  | queued
  | probing
  | done (env : Env Info)

def Stage.isProbing : Stage Info → Bool
  | .probing => true
  | _ => false

/-- The events that the task still takes part in. -/
def Stage.left : Stage Info → ℕ
  | .queued => 3
  | .probing => 2
  | .done _ => 0

/-- `free` is the value of `gate`; `completed` are the tasks that are done and not awaited yet, in the
order in which they were done. -/
structure Scan (Info : Type) where
  tasks : List (Target × Stage Info)
  free : ℕ
  completed : List (Except ProbeExn ProbeResult) := []
  yielded : List ProbeResult := []
  raised : Option ProbeExn := none

/-- A task passes the gate, a probe returns or raises, `await pending` gives the next task. -/
inductive Event (Info : Type)
  | enter (i : ℕ)
  | complete (i : ℕ) (env : Env Info)
  | next

/-- No probe finds the build without post-quantum support. -/
def Event.Supported : Event Info → Prop
  | .complete _ env => env.pqSupported = true
  | _ => True

/-- `probe_many`, up to its loop. A string is parsed by `parse`, a pair taken as it is. -/
def probeMany (Info : Type) (parse : Str → Except Exn Target) (targets : List (Str ⊕ Target))
    (concurrency : ℕ) : Except Exn (Scan Info) := do
  let parsed ← targets.mapM (Sum.elim parse .ok)
  pure { tasks := parsed.map fun t => (t, .queued), free := concurrency }

/-! ## What a task comes to -/

theorem probe_supported {env : Env Info} (h : env.pqSupported = true) :
    probe env ≠ .error .noPostQuantumSupport := by
  unfold probe
  rw [if_neg (not_not.mpr h)]
  intro heq
  split at heq
  · cases heq
  · split at heq
    · split at heq <;> cases heq
    · split at heq
      · cases heq
      · cases heq
      · rename_i info _
        cases hr : probeAt env info with
        | ok r => rw [hr] at heq; cases heq
        | error e => rw [hr] at heq; cases heq

/-- What a probe answers for its target: the result, or one with the exception. -/
structure Answers (env : Env Info) (r : ProbeResult) : Prop where
  key : r.key = env.target
  returned : ∀ r', probe env = .ok r' → r = r'
  raised : ∀ e, probe env = .error (.unexpected e) →
    r.verdict = .error ∧ r.error = some (e.name ++ str ": " ++ e.text)

theorem answers_ok {env : Env Info} {r : ProbeResult} (h : probe env = .ok r) : Answers env r where
  key := congrArg₂ Prod.mk (probe_target h).1 (probe_target h).2
  returned _ hr' := Except.ok.inj (h.symm.trans hr')
  raised _ he := nomatch h.symm.trans he

theorem one_answers {env : Env Info} (h : env.pqSupported = true) :
    ∃ r, one env = .ok r ∧ Answers env r := by
  unfold one
  cases hprobe : probe env with
  | ok r => exact ⟨r, rfl, answers_ok hprobe⟩
  | error x =>
    cases x with
    | noPostQuantumSupport => exact absurd hprobe (probe_supported h)
    | unexpected e =>
      refine ⟨_, rfl, rfl, fun _ hr' => (nomatch hprobe.symm.trans hr'), fun e' he' => ?_⟩
      rw [ProbeExn.unexpected.inj (Except.error.inj (hprobe.symm.trans he'))]
      exact ⟨rfl, rfl⟩

namespace Scan

/-- One event. What a task raises ends the scan: the loop is left and the other tasks are cancelled. -/
def step (s : Scan Info) (e : Event Info) : Option (Scan Info) :=
  if s.raised ≠ none then none
  else
    match e with
    | .enter i =>
      match s.tasks[i]? with
      | some (t, .queued) =>
        if s.free = 0 then none
        else some { s with tasks := s.tasks.set i (t, .probing), free := s.free - 1 }
      | _ => none
    | .complete i env =>
      match s.tasks[i]? with
      | some (t, .probing) =>
        if env.target = t then
          some { s with
            tasks := s.tasks.set i (t, .done env)
            free := s.free + 1
            completed := s.completed ++ [one env] }
        else none
      | _ => none
    | .next =>
      match s.completed with
      | .ok r :: completed => some { s with completed, yielded := s.yielded ++ [r] }
      | .error x :: completed => some { s with completed, raised := some x }
      | [] => none

/-- The probes in flight. -/
def inFlight (s : Scan Info) : ℕ := s.tasks.countP fun p => p.2.isProbing

/-- What an event can do. -/
inductive Does (s : Scan Info) : Event Info → Scan Info → Prop
  | enter {i : ℕ} {before behind : List (Target × Stage Info)} {t : Target}
      (htasks : s.tasks = before ++ (t, .queued) :: behind) (hfree : s.free ≠ 0) :
      Does s (.enter i)
        { s with tasks := before ++ (t, .probing) :: behind, free := s.free - 1 }
  | complete {i : ℕ} {before behind : List (Target × Stage Info)} {env : Env Info}
      (htasks : s.tasks = before ++ (env.target, .probing) :: behind) :
      Does s (.complete i env)
        { s with
          tasks := before ++ (env.target, .done env) :: behind
          free := s.free + 1
          completed := s.completed ++ [one env] }
  | yielded {r : ProbeResult} {completed : List (Except ProbeExn ProbeResult)}
      (hcompleted : s.completed = .ok r :: completed) :
      Does s .next { s with completed, yielded := s.yielded ++ [r] }
  | raised {x : ProbeExn} {completed : List (Except ProbeExn ProbeResult)}
      (hcompleted : s.completed = .error x :: completed) :
      Does s .next { s with completed, raised := some x }

theorem step_does {s s' : Scan Info} {e : Event Info} (h : s.step e = some s') :
    s.raised = none ∧ Does s e s' := by
  unfold step at h
  have hraised : s.raised = none := by
    by_contra hne
    rw [if_pos hne] at h
    cases h
  rw [if_neg (not_not.mpr hraised)] at h
  refine ⟨hraised, ?_⟩
  cases e with
  | enter i =>
    dsimp only at h
    split at h
    · rename_i t hi
      split_ifs at h with hfree
      cases h
      obtain ⟨before, behind, htasks, hset⟩ := split_getElem? hi
      rw [hset]
      exact .enter htasks hfree
    · cases h
  | complete i env =>
    dsimp only at h
    split at h
    · rename_i t hi
      split_ifs at h with henv
      cases h
      subst henv
      obtain ⟨before, behind, htasks, hset⟩ := split_getElem? hi
      rw [hset]
      exact .complete htasks
    · cases h
  | next =>
    dsimp only at h
    split at h
    · rename_i r completed hcompleted
      cases h
      exact .yielded hcompleted
    · rename_i x completed hcompleted
      cases h
      exact .raised hcompleted
    · cases h

/-! ## Runs -/

variable {s s' : Scan Info} {e : Event Info} {es : List (Event Info)} {c : ℕ} {targets : List Target}

/-- How many events are still to come: three for a task that waits, two for one that probes, one for a
result that is not yielded yet. -/
def pending (s : Scan Info) : ℕ :=
  (s.tasks.map fun p => p.2.left).sum + s.completed.length

theorem step_pending (h : s.step e = some s') : s'.pending < s.pending := by
  obtain ⟨-, h⟩ := step_does h
  unfold pending
  cases h with
  | enter htasks hfree => simp [htasks, Stage.left]
  | complete htasks =>
    simp [htasks, Stage.left]
    omega
  | yielded hcompleted => simp [hcompleted]
  | raised hcompleted => simp [hcompleted]

def outcome : Target × Stage Info → Option (Except ProbeExn ProbeResult)
  | (_, .done env) => some (one env)
  | _ => none

/-- Every permit is free or with a probe in flight, and what the tasks that are done came to is
yielded already or still to be. -/
structure Inv (c : ℕ) (targets : List Target) (s : Scan Info) : Prop where
  targets : s.tasks.map Prod.fst = targets
  gate : s.free + s.inFlight = c
  own : ∀ t env, (t, .done env) ∈ s.tasks → env.target = t ∧ env.pqSupported = true
  answered : (s.yielded.map Except.ok ++ s.completed).Perm (s.tasks.filterMap outcome)
  raised : s.raised = none

theorem Inv.completed (hi : Inv c targets s) : ∀ x ∈ s.completed, ∃ r, x = .ok r := by
  intro x hx
  have hmem := hi.answered.mem_iff.mp (List.mem_append_right _ hx)
  obtain ⟨⟨t, stage⟩, hp, houtcome⟩ := List.mem_filterMap.mp hmem
  cases stage with
  | queued => cases houtcome
  | probing => cases houtcome
  | done env =>
    obtain ⟨r, hr, -⟩ := one_answers (hi.own t env hp).2
    cases houtcome
    exact ⟨r, hr⟩

theorem inv_step (hi : Inv c targets s) (he : e.Supported) (h : s.step e = some s') :
    Inv c targets s' := by
  obtain ⟨-, h⟩ := step_does h
  have hcompletedOk := hi.completed
  obtain ⟨htargets, hgate, hown, hanswered, hraised⟩ := hi
  cases h with
  | enter htasks hfree =>
    rw [htasks] at htargets hown hanswered
    rw [inFlight, htasks] at hgate
    refine ⟨?_, ?_, fun t' env hmem => hown t' env ?_, ?_, hraised⟩
    · simpa using htargets
    · simp [inFlight, Stage.isProbing] at hgate ⊢
      omega
    · simpa using hmem
    · simpa [List.filterMap_cons, outcome] using hanswered
  | complete htasks =>
    rename_i i before behind env
    rw [htasks] at htargets hown hanswered
    rw [inFlight, htasks] at hgate
    refine ⟨?_, ?_, fun t' env' hmem => ?_, ?_, hraised⟩
    · simpa using htargets
    · simp [inFlight, Stage.isProbing] at hgate ⊢
      omega
    · rcases List.mem_append.mp hmem with hmem | hmem
      · exact hown t' env' (List.mem_append_left _ hmem)
      · rcases List.mem_cons.mp hmem with heq | hmem
        · cases heq
          exact ⟨rfl, he⟩
        · exact hown t' env' (List.mem_append_right _ (List.mem_cons_of_mem _ hmem))
    · rw [List.filterMap_append, List.filterMap_cons] at hanswered ⊢
      rw [← List.append_assoc]
      refine (List.perm_append_singleton _ _).trans ?_
      exact (hanswered.cons (one env)).trans List.perm_middle.symm
  | yielded hcompleted =>
    refine ⟨htargets, hgate, hown, ?_, hraised⟩
    rw [hcompleted] at hanswered
    simpa using hanswered
  | raised hcompleted =>
    obtain ⟨r, hr⟩ := hcompletedOk _ (hcompleted ▸ List.mem_cons_self)
    cases hr

/-! ## Scans that have ended -/

theorem next_enabled (hraised : s.raised = none) (hcompleted : s.completed ≠ []) :
    ∃ s', s.step .next = some s' := by
  unfold step
  rw [if_neg (not_not.mpr hraised)]
  dsimp only
  split
  · exact ⟨_, rfl⟩
  · exact ⟨_, rfl⟩
  · rename_i hnil
    exact absurd hnil hcompleted

variable {before behind : List (Target × Stage Info)} {t : Target}

theorem enter_enabled (hraised : s.raised = none) (htasks : s.tasks = before ++ (t, .queued) :: behind)
    (hfree : s.free ≠ 0) : ∃ s', s.step (.enter before.length) = some s' := by
  unfold step
  rw [if_neg (not_not.mpr hraised)]
  simp only [htasks, List.getElem?_append_right le_rfl, Nat.sub_self, List.getElem?_cons_zero,
    if_neg hfree]
  exact ⟨_, rfl⟩

theorem complete_enabled (env : Env Info) (hraised : s.raised = none)
    (htasks : s.tasks = before ++ (env.target, .probing) :: behind) :
    ∃ s', s.step (.complete before.length env) = some s' := by
  unfold step
  rw [if_neg (not_not.mpr hraised)]
  simp only [htasks, List.getElem?_append_right le_rfl, Nat.sub_self, List.getElem?_cons_zero, if_true]
  exact ⟨_, rfl⟩

/-- A name that does not resolve. -/
def unresolved (Info : Type) (t : Target) : Env Info where
  host := t.1
  port := t.2
  infos := .error { kind := .gaierror }
  address _ := []
  shaken := .error { kind := .timeout }
  fresh _ _ _ := .error { kind := .timeout }

/-- No event is possible any more. -/
def Ended (s : Scan Info) : Prop := ∀ e, s.step e = none

theorem ended_of_pending (h : s.pending = 0) : s.Ended := by
  intro e
  by_contra hne
  obtain ⟨s', hs'⟩ := Option.ne_none_iff_exists'.mp hne
  have hlt := step_pending hs'
  rw [h] at hlt
  exact Nat.not_lt_zero _ hlt

/-- The answers to the targets, in the order of the targets, are what was yielded. -/
structure Answered (targets : List Target) (s : Scan Info) : Prop where
  answers : ∃ envs rs, s.tasks = envs.map (fun env => (env.target, .done env)) ∧
    List.Forall₂ Answers envs rs ∧ s.yielded.Perm rs
  keys : (s.yielded.map ProbeResult.key).Perm targets

theorem completed_of_ended (hi : Inv c targets s) (h : s.Ended) : s.completed = [] := by
  by_contra hne
  obtain ⟨s', hs'⟩ := next_enabled hi.raised hne
  rw [h] at hs'
  cases hs'

theorem not_probing_of_ended (hi : Inv c targets s) (h : s.Ended) : (t, .probing) ∉ s.tasks := by
  intro hmem
  obtain ⟨before, behind, htasks⟩ := List.append_of_mem hmem
  obtain ⟨s', hs'⟩ := complete_enabled (unresolved Info t) hi.raised htasks
  rw [h] at hs'
  cases hs'

theorem inFlight_of_ended (hi : Inv c targets s) (h : s.Ended) : s.inFlight = 0 := by
  refine List.countP_eq_zero.mpr fun p hp hprobing => ?_
  obtain ⟨t, stage⟩ := p
  cases stage with
  | queued => cases hprobing
  | probing => exact not_probing_of_ended hi h hp
  | done env => cases hprobing

theorem not_queued_of_ended (hc : 1 ≤ c) (hi : Inv c targets s) (h : s.Ended) :
    (t, .queued) ∉ s.tasks := by
  intro hmem
  obtain ⟨before, behind, htasks⟩ := List.append_of_mem hmem
  have hgate := hi.gate
  rw [inFlight_of_ended hi h] at hgate
  obtain ⟨s', hs'⟩ := enter_enabled hi.raised htasks (by omega)
  rw [h] at hs'
  cases hs'

theorem done_of_ended (hc : 1 ≤ c) (hi : Inv c targets s) (h : s.Ended) :
    ∃ envs : List (Env Info), s.tasks = envs.map fun env => (env.target, .done env) := by
  have hrange : s.tasks ∈ Set.range (List.map fun env : Env Info => (env.target, Stage.done env)) := by
    rw [Set.range_list_map]
    rintro ⟨t, stage⟩ hp
    cases stage with
    | queued => exact absurd hp (not_queued_of_ended hc hi h)
    | probing => exact absurd hp (not_probing_of_ended hi h)
    | done env => exact ⟨env, congrArg (fun t => (t, Stage.done env)) (hi.own t env hp).1⟩
  obtain ⟨envs, hmap⟩ := hrange
  exact ⟨envs, hmap.symm⟩

theorem filterMap_outcome_done (envs : List (Env Info)) :
    (envs.map fun env => (env.target, Stage.done env)).filterMap outcome = envs.map one := by
  rw [List.filterMap_map]
  exact List.filterMap_eq_map.symm ▸ rfl

theorem forall₂_answers {envs : List (Env Info)} (h : ∀ env ∈ envs, env.pqSupported = true) :
    ∃ rs, envs.map one = rs.map Except.ok ∧ List.Forall₂ Answers envs rs := by
  induction envs with
  | nil => exact ⟨[], rfl, .nil⟩
  | cons env envs ih =>
    obtain ⟨r, hr, hanswers⟩ := one_answers (h env List.mem_cons_self)
    obtain ⟨rs, hrs, hall⟩ := ih fun env' henv' => h env' (List.mem_cons_of_mem _ henv')
    exact ⟨r :: rs, by rw [List.map_cons, List.map_cons, hr, hrs], .cons hanswers hall⟩

theorem map_key_answers {envs : List (Env Info)} {rs : List ProbeResult}
    (h : List.Forall₂ Answers envs rs) : rs.map ProbeResult.key = envs.map Env.target := by
  induction h with
  | nil => rfl
  | cons hanswers _ ih => rw [List.map_cons, List.map_cons, ih, hanswers.key]

theorem answered_of_ended (hc : 1 ≤ c) (hi : Inv c targets s) (h : s.Ended) : Answered targets s := by
  obtain ⟨envs, htasks⟩ := done_of_ended hc hi h
  have hsupported : ∀ env ∈ envs, env.pqSupported = true := by
    intro env henv
    refine (hi.own env.target env ?_).2
    rw [htasks]
    exact List.mem_map_of_mem henv
  obtain ⟨rs, hrs, hanswers⟩ := forall₂_answers hsupported
  have hyielded : s.yielded.Perm rs := by
    have hperm := hi.answered
    rw [completed_of_ended hi h, htasks, filterMap_outcome_done, hrs, List.append_nil] at hperm
    exact (List.map_perm_map_iff fun _ _ => Except.ok.inj).mp hperm
  refine ⟨⟨envs, rs, htasks, hanswers, hyielded⟩, ?_⟩
  have htargets : envs.map Env.target = targets := by
    rw [← hi.targets, htasks, List.map_map]
    rfl
  rw [← htargets, ← map_key_answers hanswers]
  exact hyielded.map _

/-! ## Whole runs -/

theorem probeMany_inv {parse : Str → Except Exn Target} {given : List (Str ⊕ Target)}
    (h : probeMany Info parse given c = .ok s) :
    ∃ parsed, given.mapM (Sum.elim parse .ok) = .ok parsed ∧ Inv c parsed s ∧
      s.pending = 3 * parsed.length := by
  obtain ⟨parsed, hparsed, h⟩ := bind_eq_ok.mp h
  cases h
  refine ⟨parsed, hparsed, ?_, ?_⟩
  · exact {
      targets := by rw [List.map_map]; exact List.map_id _
      gate := by simp [inFlight, Stage.isProbing]
      own := by simp
      answered := by simp [outcome]
      raised := rfl }
  · simp [pending, Stage.left, Function.comp_def]
    omega

theorem run_inv (hi : Inv c targets s) (hsupported : ∀ e ∈ es, e.Supported)
    (h : run step s es = some s') : Inv c targets s' :=
  run_history (I := fun _ s => Inv c targets s) (V := Event.Supported)
    (fun _ _ _ _ hi he hs => inv_step hi he hs) hsupported [] hi h

/-- A scan that has not ended can go on, and with a probe that does not find the build unsupported. -/
theorem enabled_of_not_ended (hi : Inv c targets s) (h : ¬ s.Ended) :
    ∃ e s', e.Supported ∧ s.step e = some s' := by
  obtain ⟨e, he⟩ := not_forall.mp h
  obtain ⟨s', hs'⟩ := Option.ne_none_iff_exists'.mp he
  cases e with
  | enter i => exact ⟨.enter i, s', trivial, hs'⟩
  | next => exact ⟨.next, s', trivial, hs'⟩
  | complete i env =>
    obtain ⟨-, hdoes⟩ := step_does hs'
    cases hdoes with
    | complete htasks =>
      obtain ⟨s'', hs''⟩ := complete_enabled (unresolved Info env.target) hi.raised htasks
      exact ⟨.complete _ (unresolved Info env.target), s'', rfl, hs''⟩

theorem exists_ended (hi : Inv c targets s) :
    ∃ es s', (∀ e ∈ es, Event.Supported e) ∧ run step s es = some s' ∧ s'.Ended := by
  induction hn : s.pending using Nat.strong_induction_on generalizing s with
  | _ n ih =>
    by_cases h : s.Ended
    · exact ⟨[], s, by simp, rfl, h⟩
    · obtain ⟨e, s₁, he, hs₁⟩ := enabled_of_not_ended hi h
      obtain ⟨es, s', hes, hrun, hended⟩ :=
        ih s₁.pending (hn ▸ step_pending hs₁) (inv_step hi he hs₁) rfl
      refine ⟨e :: es, s', List.forall_mem_cons.mpr ⟨he, hes⟩, ?_, hended⟩
      rw [run_cons, hs₁]
      exact hrun

theorem inFlight_le (hi : Inv c targets s) : s.inFlight ≤ c := hi.gate ▸ Nat.le_add_left _ _

end Scan

end Probe

end Fizzpy
