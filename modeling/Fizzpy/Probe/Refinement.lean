import Fizzpy.Probe.Sweep

/-!
# Scans that are not disturbed

Where nothing is cancelled and the generator is not closed, the scan with its tasks as they run
(`Sweep`) takes the steps of the plain one (`Scan`), in which a probe is one event: what happens inside a
probe is a stutter, and its end is the event. So every target is answered once there as well, by what the
sequential probe comes to (`refines_scan`).
-/

namespace Fizzpy

namespace Probe

open Foundation

variable {Info : Type}

namespace Sweep

/-! ## The relation -/

/-- No cancellation, and the loop is left when it is over. -/
def Event.Undisturbed : Event → Prop
  | .leave exit => exit = .exhausted
  | e => e.Calm

/-- The stage of the plain scan. -/
def Task.plain (env : Env Info) : Task Info → Probe.Stage Info
  | .queued _ => .queued
  | .probing _ => .probing
  | .done _ _ => .done env

/-- The task was not disturbed, and it ended as the sequential probe does. -/
def Task.Undisturbed (env : Env Info) : Task Info → Prop
  | .queued cancelled => cancelled = false
  | .probing p => Probing.Undisturbed env p
  | .done ending _ => ending = .of (one env)

structure Simulates (t : Scan Info) (s : Sweep Info) : Prop where
  tasks : t.tasks = s.tasks.map fun x => (x.1.target, x.2.plain x.1)
  free : t.free = s.free
  completed : s.completed = t.completed.map Probing.Ending.of
  yielded : t.yielded = s.yielded
  raised : t.raised = none
  undisturbed : ∀ x ∈ s.tasks, x.1.pqSupported = true ∧ x.2.Undisturbed x.1
  finished : s.stage = .looping ∨
    (s.stage = .leaving .exhausted ∨ s.stage = .ended .exhausted) ∧ t.pending = 0

theorem calm_ne {e : Probing.Event} (he : e.Calm) : e ≠ .cancel ∧ ∀ i, e ≠ .child i .cancel := by
  constructor
  · rintro rfl
    exact he
  · rintro i rfl
    exact he

theorem oneEnds_of (env : Env Info) : oneEnds env (.of (probe env)) = .of (one env) := by
  unfold one
  cases probe env with
  | ok r => rfl
  | error e => cases e <;> rfl

theorem oneEnds_eq {env : Env Info} {p : Probing Info} {ending : Probing.Ending}
    (h : Probing.Undisturbed env p) (hp : p.phase = .ended ending) : oneEnds env ending = .of (one env) := by
  have hresult := h.result
  rw [hp] at hresult
  rw [show ending = .of (probe env) from hresult, oneEnds_of]

variable {t : Scan Info} {s s' : Sweep Info} {i : ℕ} {env : Env Info} {x : Task Info}

/-- A task that is not done is one of the loop. -/
theorem Simulates.looping (h : Simulates t s) (hi : s.tasks[i]? = some (env, x))
    (hx : (x.plain env).left ≠ 0) : s.stage = .looping := by
  refine h.finished.resolve_right fun hend => hx ?_
  have hsum : (t.tasks.map fun p => p.2.left).sum = 0 := (Nat.add_eq_zero_iff.mp hend.2).1
  rw [List.sum_eq_zero_iff] at hsum
  refine hsum _ (List.mem_map.mpr ⟨(env.target, x.plain env), ?_, rfl⟩)
  rw [h.tasks]
  exact List.mem_map.mpr ⟨_, List.mem_of_getElem? hi, rfl⟩

theorem Simulates.undisturbed_set {y : Task Info} (h : Simulates t s) (hi : s.tasks[i]? = some (env, x))
    (hy : y.Undisturbed env) :
    ∀ z ∈ s.tasks.set i (env, y), z.1.pqSupported = true ∧ z.2.Undisturbed z.1 := by
  intro z hz
  rcases List.mem_or_eq_of_mem_set hz with hz | rfl
  · exact h.undisturbed z hz
  · exact ⟨(h.undisturbed _ (List.mem_of_getElem? hi)).1, hy⟩

/-- What happens inside a probe is nothing to the plain scan, and its end is one event. -/
theorem simulates_proceed {p p' : Probing Info} (h : Simulates t s)
    (hi : s.tasks[i]? = some (env, .probing p)) (hp' : Probing.Undisturbed env p') :
    ∃ es t', (∀ e ∈ es, e.Supported) ∧ run Scan.step t es = some t' ∧
      Simulates t' (s.proceed i env p') := by
  have hloop : s.stage = .looping := h.looping hi (by simp [Task.plain, Probe.Stage.left])
  have hplain : t.tasks[i]? = some (env.target, .probing) := by
    rw [h.tasks, List.getElem?_map, hi]
    rfl
  obtain ⟨ending, hend, heq⟩ | ⟨-, heq⟩ := s.proceed_cases i env p'
  · refine ⟨[.complete i env], { t with
      tasks := t.tasks.set i (env.target, .done env)
      free := t.free + 1
      completed := t.completed ++ [one env] }, ?_, ?_, ?_⟩
    · simpa [Probe.Event.Supported] using (h.undisturbed _ (List.mem_of_getElem? hi)).1
    · rw [run_cons]
      simp only [Scan.step, h.raised, hplain]
      rfl
    · rw [heq]
      refine ⟨?_, congrArg (· + 1) h.free, ?_, h.yielded, h.raised,
        h.undisturbed_set hi (oneEnds_eq hp' hend), .inl hloop⟩
      · rw [List.map_set, ← h.tasks]
        rfl
      · rw [List.map_append, ← h.completed, oneEnds_eq hp' hend]
        rfl
  · refine ⟨[], t, by simp, rfl, ?_⟩
    rw [heq]
    refine ⟨?_, h.free, h.completed, h.yielded, h.raised, h.undisturbed_set hi hp', .inl hloop⟩
    rw [List.map_set, ← h.tasks]
    obtain ⟨before, behind, htasks, hset⟩ := split_getElem? hplain
    show _ = t.tasks.set i (env.target, .probing)
    rw [hset, ← htasks]

/-- When every task was awaited, all of them are done and cancelling them is nothing. -/
theorem simulates_leave {c : ℕ} {targets : List Target} (hi : Scan.Inv c targets t) (h : Simulates t s)
    (hall : s.yielded.length = s.tasks.length) : Simulates t (s.leave .exhausted) := by
  have hlength := hi.answered.length_eq
  have hle := List.length_filterMap_le Scan.outcome t.tasks
  have htasks : t.tasks.length = s.tasks.length := by rw [h.tasks, List.length_map]
  rw [List.length_append, List.length_map, h.yielded] at hlength
  have hnil : t.completed = [] := List.eq_nil_of_length_eq_zero (by omega)
  have hdone : ∀ p ∈ t.tasks, (Scan.outcome p).isSome := by
    rw [← List.filterMap_length_eq_length]
    omega
  have hended : ∀ x ∈ s.tasks, ∃ ending socks, x.2 = .done ending socks := by
    intro x hx
    have hsome := hdone (x.1.target, x.2.plain x.1) (h.tasks ▸ List.mem_map_of_mem hx)
    cases hx2 : x.2 with
    | done ending socks => exact ⟨ending, socks, rfl⟩
    | _ =>
      rw [hx2] at hsome
      cases hsome
  have hsame : (s.tasks.map fun x => (x.1, x.2.requestCancel x.1)) = s.tasks := by
    refine (List.map_congr_left fun x hx => ?_).trans (List.map_id _)
    obtain ⟨env, task⟩ := x
    obtain ⟨ending, socks, heq⟩ := hended _ hx
    obtain rfl : task = .done ending socks := heq
    rfl
  have hpending : t.pending = 0 := by
    unfold Scan.pending
    rw [hnil, List.length_nil, Nat.add_zero, List.sum_eq_zero_iff]
    intro n hn
    obtain ⟨p, hp, rfl⟩ := List.mem_map.mp hn
    rw [h.tasks] at hp
    obtain ⟨x, hx, rfl⟩ := List.mem_map.mp hp
    obtain ⟨ending, socks, heq⟩ := hended x hx
    rw [heq]
    rfl
  refine ⟨?_, h.free, h.completed, h.yielded, h.raised, ?_, .inr ⟨.inl rfl, hpending⟩⟩
  · show t.tasks = (s.tasks.map _).map _
    rw [hsame, h.tasks]
  · show ∀ x ∈ s.tasks.map _, _
    rw [hsame]
    exact h.undisturbed

theorem simulates_step {c : ℕ} {targets : List Target} {e : Event} (hi : Scan.Inv c targets t)
    (h : Simulates t s) (he : e.Undisturbed) (hs : s.step e = some s') :
    ∃ es t', (∀ e ∈ es, e.Supported) ∧ run Scan.step t es = some t' ∧ Simulates t' s' := by
  cases step_does hs with
  | @enter i env hq hfree =>
    have hloop := h.looping hq (by simp [Task.plain, Probe.Stage.left])
    have hplain : t.tasks[i]? = some (env.target, .queued) := by
      rw [h.tasks, List.getElem?_map, hq]
      rfl
    -- the task is at its probe for a moment, whatever the probe begins with
    let s₁ : Sweep Info :=
      { s with tasks := s.tasks.set i (env, .probing env.start), free := s.free - 1 }
    let t₁ : Scan Info := { t with tasks := t.tasks.set i (env.target, .probing), free := t.free - 1 }
    have hgate : t.free ≠ 0 := by
      rw [h.free]
      exact hfree
    have hstep : t.step (.enter i) = some t₁ := by
      unfold Scan.step
      rw [if_neg (not_not.mpr h.raised)]
      simp only [hplain, if_neg hgate]
      rfl
    have hstart := Probing.undisturbed_start env
    have h₁ : Simulates t₁ s₁ := by
      refine ⟨?_, congrArg (· - 1) h.free, h.completed, h.yielded, h.raised, h.undisturbed_set hq hstart,
        .inl hloop⟩
      show t.tasks.set i _ = (s.tasks.set i _).map _
      rw [List.map_set, ← h.tasks]
      rfl
    have hi₁ : s₁.tasks[i]? = some (env, .probing env.start) :=
      List.getElem?_set_self (List.getElem?_eq_some_iff.mp hq).1
    obtain ⟨es, t', hes, hrun, h'⟩ := simulates_proceed h₁ hi₁ hstart
    refine ⟨.enter i :: es, t', List.forall_mem_cons.mpr ⟨trivial, hes⟩, ?_, ?_⟩
    · rw [run_cons, hstep]
      exact hrun
    · have hsame : s₁.proceed i env env.start = { s with free := s.free - 1 }.proceed i env env.start := by
        unfold proceed
        simp only [s₁, List.set_set]
      rwa [hsame] at h'
  | probe hq hp =>
    exact simulates_proceed h hq
      (Probing.undisturbed_step (h.undisturbed _ (List.mem_of_getElem? hq)).2 (calm_ne he) hp)
  | cancel hq => exact he.elim
  | deliver hq =>
    have hqueued : true = false := (h.undisturbed _ (List.mem_of_getElem? hq)).2
    cases hqueued
  | @yielded r completed hstage hcompleted =>
    rw [h.completed] at hcompleted
    obtain ⟨x, xs, heq, hx, hxs⟩ := List.map_eq_cons_iff.mp hcompleted
    have hx : x = .ok r := by
      cases x with
      | ok r' => cases hx; rfl
      | error e => cases hx
    subst hx
    refine ⟨[.next], { t with completed := xs, yielded := t.yielded ++ [r] }, by simp [Probe.Event.Supported],
      ?_, ⟨h.tasks, h.free, hxs.symm, congrArg (· ++ [r]) h.yielded, h.raised, h.undisturbed, .inl hstage⟩⟩
    rw [run_cons]
    simp only [Scan.step, h.raised, heq]
    rfl
  | @raised err completed hstage hcompleted =>
    rw [h.completed] at hcompleted
    obtain ⟨x, xs, heq, hx, -⟩ := List.map_eq_cons_iff.mp hcompleted
    obtain ⟨r, rfl⟩ := hi.completed x (by rw [heq]; exact List.mem_cons_self)
    cases hx
  | nextCancelled hstage hcompleted =>
    rw [h.completed] at hcompleted
    obtain ⟨x, xs, -, hx, -⟩ := List.map_eq_cons_iff.mp hcompleted
    cases x with
    | ok r => cases hx
    | error e => cases hx
  | leave hstage hexit =>
    obtain rfl := he
    exact ⟨[], t, by simp, rfl, simulates_leave hi h hexit⟩
  | cancelGather hstage => exact he.elim
  | gather hstage hall =>
    obtain hloop | ⟨hleft | hended, hpending⟩ := h.finished
    · rw [hloop] at hstage
      cases hstage
    · rw [hleft] at hstage
      cases hstage
      exact ⟨[], t, by simp, rfl, h.tasks, h.free, h.completed, h.yielded, h.raised, h.undisturbed,
        .inr ⟨.inr rfl, hpending⟩⟩
    · rw [hended] at hstage
      cases hstage

theorem map_fst_set {y : Task Info} (hi : s.tasks[i]? = some (env, x)) :
    (s.tasks.set i (env, y)).map Prod.fst = s.tasks.map Prod.fst := by
  obtain ⟨before, behind, heq, hset⟩ := split_getElem? hi
  rw [hset, heq, List.map_append, List.map_append]
  rfl

/-- What the tasks meet stays what it is. -/
theorem envs_step {e : Event} (h : s.step e = some s') : s'.tasks.map Prod.fst = s.tasks.map Prod.fst := by
  have hproceed : ∀ {free : ℕ} {i : ℕ} {env : Env Info} {x : Task Info} (p : Probing Info),
      s.tasks[i]? = some (env, x) →
      ({ s with free }.proceed i env p).tasks.map Prod.fst = s.tasks.map Prod.fst := by
    intro free i env x p hi
    obtain ⟨ending, -, heq⟩ | ⟨-, heq⟩ := { s with free }.proceed_cases i env p
    · rw [heq]
      exact map_fst_set hi
    · rw [heq]
      exact map_fst_set hi
  have hleave : (s.tasks.map fun x => (x.1, x.2.requestCancel x.1)).map Prod.fst =
      s.tasks.map Prod.fst := by
    rw [List.map_map]
    rfl
  cases step_does h with
  | enter hi hfree => exact hproceed _ hi
  | probe hi hp => exact hproceed _ hi
  | cancel hi => exact map_fst_set hi
  | deliver hi => exact map_fst_set hi
  | yielded hstage hcompleted => rfl
  | raised hstage hcompleted => exact hleave
  | nextCancelled hstage hcompleted => exact hleave
  | leave hstage hexit => exact hleave
  | cancelGather hstage => exact hleave
  | gather hstage hall => rfl

theorem simulates_start {c : ℕ} {envs : List (Env Info)} {parsed : List Target}
    (hsupported : ∀ env ∈ envs, env.pqSupported = true) (hparsed : parsed = envs.map Env.target) :
    Simulates ({ tasks := parsed.map fun t => (t, .queued), free := c } : Scan Info) (start c envs) := by
  refine ⟨?_, rfl, rfl, rfl, rfl, ?_, .inl rfl⟩
  · subst hparsed
    show (envs.map _).map _ = (envs.map _).map _
    rw [List.map_map, List.map_map]
    rfl
  · intro x hx
    obtain ⟨env, henv, rfl⟩ := List.mem_map.mp hx
    exact ⟨hsupported env henv, rfl⟩

theorem Simulates.inFlight (h : Simulates t s) : t.inFlight = s.inFlight := by
  unfold Scan.inFlight Sweep.inFlight
  rw [h.tasks, List.countP_map]
  refine List.countP_congr fun x _ => ?_
  obtain ⟨env, task⟩ := x
  cases task <;> rfl

/-- When all tasks are done and awaited, what was yielded are the answers. -/
theorem Simulates.answers {c : ℕ} {targets : List Target} (hi : Scan.Inv c targets t) (h : Simulates t s)
    (hpending : t.pending = 0) (hdone : ∀ x ∈ s.tasks, x.2.isDone = true) :
    ∃ rs, List.Forall₂ Answers (s.tasks.map Prod.fst) rs ∧ s.yielded.Perm rs := by
  have hout : t.tasks.filterMap Scan.outcome = (s.tasks.map Prod.fst).map one := by
    rw [h.tasks, List.filterMap_map, List.map_map, ← List.filterMap_eq_map]
    refine List.filterMap_congr fun x hx => ?_
    have hd := hdone x hx
    obtain ⟨env, task⟩ := x
    cases task with
    | done ending socks => rfl
    | _ => cases hd
  have hsupported : ∀ env ∈ s.tasks.map Prod.fst, env.pqSupported = true := by
    intro env henv
    obtain ⟨x, hx, rfl⟩ := List.mem_map.mp henv
    exact (h.undisturbed x hx).1
  have hnil : t.completed = [] := List.eq_nil_of_length_eq_zero (Nat.add_eq_zero_iff.mp hpending).2
  obtain ⟨rs, hrs, hanswers⟩ := Scan.forall₂_answers hsupported
  have hperm := hi.answered
  rw [hnil, List.append_nil, hout, hrs, h.yielded] at hperm
  exact ⟨rs, hanswers, (List.map_perm_map_iff fun _ _ => Except.ok.inj).mp hperm⟩

/-- **Refinement.** When nothing is cancelled and the generator is not closed, the tasks as they run take
the steps of the plain scan of the same targets, and yield the same. When the generator has ended, the loop
was over, and what was yielded are the answers, one for each target. -/
theorem refines_scan {c : ℕ} {parse : Str → Except Exn Target} {given : List (Str ⊕ Target)}
    {envs : List (Env Info)} {es : List Event} {t₀ : Scan Info}
    (hsupported : ∀ env ∈ envs, env.pqSupported = true) (h₀ : probeMany Info parse given c = .ok t₀)
    (htargets : t₀.tasks.map Prod.fst = envs.map Env.target) (hes : ∀ e ∈ es, e.Undisturbed)
    (h : run step (start c envs) es = some s) :
    (∃ es' t, run Scan.step t₀ es' = some t ∧ t.yielded = s.yielded ∧ t.free = s.free ∧
      t.inFlight = s.inFlight) ∧
    ∀ exit, s.stage = .ended exit → exit = .exhausted ∧
      (∃ rs, List.Forall₂ Answers envs rs ∧ s.yielded.Perm rs) ∧
      (s.yielded.map ProbeResult.key).Perm (t₀.tasks.map Prod.fst) := by
  obtain ⟨parsed, -, hi₀, -⟩ := Scan.probeMany_inv h₀
  have hstart : Simulates t₀ (start c envs) := by
    obtain ⟨parsed', -, heq⟩ := bind_eq_ok.mp h₀
    cases heq
    refine simulates_start hsupported ?_
    rw [← htargets, List.map_map]
    exact (List.map_id _).symm
  have hstep : ∀ (t : Scan Info) (x : Sweep Info) (e : Event) (x' : Sweep Info),
      (Scan.Inv c parsed t ∧ Simulates t x ∧ x.tasks.map Prod.fst = envs) → e.Undisturbed →
      x.step e = some x' → ∃ es' t', run Scan.step t es' = some t' ∧
      Scan.Inv c parsed t' ∧ Simulates t' x' ∧ x'.tasks.map Prod.fst = envs := by
    rintro t x e x' ⟨hi, hsim, henvs⟩ he hs
    obtain ⟨es', t', hes', hr', hsim'⟩ := simulates_step hi hsim he hs
    exact ⟨es', t', hr', Scan.run_inv hi hes' hr', hsim', (envs_step hs).trans henvs⟩
  have henvs₀ : (start c envs).tasks.map Prod.fst = envs := by simp [start, Function.comp_def]
  obtain ⟨es', t, hr, hi, hsim, henvs⟩ := run_simulated hstep ⟨hi₀, hstart, henvs₀⟩ hes h
  refine ⟨⟨es', t, hr, hsim.yielded, hsim.free, hsim.inFlight⟩, fun exit hstage => ?_⟩
  obtain hloop | ⟨hleft | hended, hpending⟩ := hsim.finished
  · rw [hloop] at hstage
    cases hstage
  · rw [hleft] at hstage
    cases hstage
  · obtain ⟨rs, hanswers, hperm⟩ := hsim.answers hi hpending ((inv_run h).ended exit hstage)
    rw [hended] at hstage
    cases hstage
    rw [henvs] at hanswers
    refine ⟨rfl, ⟨rs, hanswers, hperm⟩, ?_⟩
    rw [htargets, ← Scan.map_key_answers hanswers]
    exact hperm.map _

/-- Two names that do not resolve, behind a gate for one. -/
def lostNames : List Target := [(str "a.b", 443), (str "c.d", 443)]

def scanned : List Event :=
  [.enter 1, .probe 1 .resolve, .enter 0, .next, .probe 0 .resolve, .next, .leave .exhausted, .gather]

theorem refines_scan_lostNames : ∃ s,
    run step (start 1 (lostNames.map (Scan.unresolved Unit))) scanned = some s ∧
    s.stage = .ended .exhausted ∧ (s.yielded.map ProbeResult.key).Perm lostNames := by
  have h : (run step (start 1 (lostNames.map (Scan.unresolved Unit))) scanned).map stage =
      some (.ended .exhausted) := by
    decide +kernel
  have hes : ∀ e ∈ scanned, e.Undisturbed := by
    simp [scanned, Event.Undisturbed, Event.Calm, Probing.Event.Calm]
  obtain ⟨s, hs, hstage⟩ := Option.map_eq_some_iff.mp h
  have h₀ : probeMany Unit (fun _ => .error { kind := .valueError }) (lostNames.map .inr) 1 =
      .ok { tasks := lostNames.map fun t => (t, .queued), free := 1 } := rfl
  obtain ⟨-, hended⟩ := refines_scan (by simp [lostNames, Scan.unresolved]) h₀ rfl hes hs
  exact ⟨s, hs, hstage, (hended .exhausted hstage).2.2⟩

end Sweep

end Probe

end Fizzpy
