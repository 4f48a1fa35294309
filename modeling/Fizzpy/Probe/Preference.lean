import Fizzpy.Probe.Soundness

/-!
# Preference and verdict

The default handshake and the attempts that the verdict is about are connections of their own. A
result that names the post-quantum group as preferred has the verdict for it exactly when those of
one round end alike (`preferred_iff_agrees`).
-/

namespace Fizzpy

namespace Probe

variable {Info : Type} {env : Env Info} {info : Info} {r : ProbeResult} {pq a : Attempt}
  {classical : List Attempt}

/-! ## The group of the default handshake -/

theorem handshake_group_iff {shaken : Shaken} (h : handshake defaultOffer shaken = .ok a) :
    a.group = some pqName ↔ Completed pqGroup (.ok shaken) := by
  cases shaken with
  | ok n =>
    unfold handshake at h
    dsimp only at h
    split_ifs at h with hlen
    · exact absurd hlen.1 (by decide)
    · cases h
      rw [completed_iff]
      exact Option.some_inj
  | error e =>
    unfold handshake at h
    dsimp only at h
    split_ifs at h
    cases h
    exact iff_of_false nofun not_completed_error

theorem handshakeFresh_group_iff {x : Fresh} (h : handshakeFresh defaultOffer x = .ok a) :
    a.group = some pqName ↔ Completed pqGroup x := by
  cases x with
  | ok shaken => exact handshake_group_iff h
  | error e =>
    unfold handshakeFresh at h
    dsimp only at h
    split_ifs at h
    cases h
    exact iff_of_false nofun not_completed_connect

/-! ## When they agree -/

/-- The first round reads as blocked, so a second one follows. -/
def Retried (env : Env Info) (info : Info) : Prop :=
  (∃ g ∈ classicalGroups, Completed g (env.alone .first info g)) ∧
    Blocked (env.alone .first info pqGroup)

/-- In the round that the result is from, the post-quantum group is completed alone if it is completed
in the default offer. -/
def Agrees (env : Env Info) : Prop :=
  ∀ info, env.connected = some info →
    (Retried env info → Completed pqGroup (env.fresh .second info defaultOffer) →
      Completed pqGroup (env.alone .second info pqGroup)) ∧
    (¬ Retried env info → Completed pqGroup (.ok env.shaken) →
      Completed pqGroup (env.alone .first info pqGroup))

theorem agrees_unconnected (h : env.connected = none) : Agrees env := by
  intro info hinfo
  rw [h] at hinfo
  cases hinfo

theorem agrees_retried (h : env.connected = some info) (hretried : Retried env info) :
    Agrees env ↔ (Completed pqGroup (env.fresh .second info defaultOffer) →
      Completed pqGroup (env.alone .second info pqGroup)) := by
  constructor
  · exact fun hagrees => (hagrees info h).1 hretried
  · intro hsecond info' hinfo
    rw [h] at hinfo
    cases hinfo
    exact ⟨fun _ => hsecond, fun hnot => absurd hretried hnot⟩

theorem agrees_once (h : env.connected = some info) (hretried : ¬ Retried env info) :
    Agrees env ↔ (Completed pqGroup (.ok env.shaken) →
      Completed pqGroup (env.alone .first info pqGroup)) := by
  constructor
  · exact fun hagrees => (hagrees info h).2 hretried
  · intro hfirst info' hinfo
    rw [h] at hinfo
    cases hinfo
    exact ⟨fun hyes => absurd hyes hretried, fun _ => hfirst⟩

theorem verdict_pqBlocked_iff_retried (hpq : Tells pqGroup (env.alone .first info pqGroup) pq)
    (hclassical : List.Forall₂ (fun g a => Tells g (env.alone .first info g) a)
      classicalGroups classical) :
    verdict pq classical = .pqBlocked ↔ Retried env info := by
  rw [verdict_pqBlocked_iff_blocked hpq, exists_accepted_iff hclassical, Retried]

/-- What the result prefers never contradicts its verdict, exactly when its handshakes agree. -/
theorem preferred_iff_agrees (h : probe env = .ok r) :
    (r.preferred = some pqName → r.verdict = .postQuantum) ↔ Agrees env := by
  obtain ⟨hconnected, error, rfl⟩ | ⟨info, hconnected, h⟩ := probe_cases h
  · exact iff_of_true nofun (agrees_unconnected hconnected)
  · obtain ⟨default, pq, classical, hfirst, hround⟩ := probeAt_cases h
    obtain ⟨hdefault, hpq, hclassical⟩ := firstRound_ok hfirst
    have hretried := verdict_pqBlocked_iff_retried hpq hclassical
    obtain ⟨hverdict, rfl⟩ | ⟨hverdict, default', pq', hsecond, rfl⟩ := hround
    · rw [agrees_once hconnected (hretried.not.mp hverdict), ← handshake_group_iff hdefault,
        ← hpq.accepted, ← @verdict_postQuantum_iff _ classical]
      rfl
    · obtain ⟨hdefault', hpq'⟩ := secondRound_ok hsecond
      rw [agrees_retried hconnected (hretried.mp hverdict), ← handshakeFresh_group_iff hdefault',
        ← hpq'.accepted, ← @verdict_postQuantum_iff _ classical]
      rfl

/-- Two servers behind one address: the first connection reaches one with the post-quantum group, the
others one without. -/
def mixedEnv : Env Unit :=
  { classicalEnv fun _ => .ok (.error { kind := .osError false,
                                        fizzAlert := str "handshake_failure",
                                        fizzAlertRemote := true }) with
    shaken := .ok { group := pqName } }

theorem preferred_iff_agrees_mixedEnv :
    ∃ r, probe mixedEnv = .ok r ∧
      ((r.preferred = some pqName → r.verdict = .postQuantum) ↔ Agrees mixedEnv) :=
  ⟨_, rfl, preferred_iff_agrees rfl⟩

theorem preferred_contradicts :
    ∃ r, probe mixedEnv = .ok r ∧ r.preferred = some pqName ∧ r.verdict = .classicalOnly :=
  ⟨_, rfl, rfl, rfl⟩

end Probe

end Fizzpy
