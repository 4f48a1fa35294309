import Fizzpy.Foundation.Sequence
import Fizzpy.Probe.Probe

/-!
# What a verdict says

Every handshake ends completed, refused by the peer, or neither; `Tells` reads that off the attempt.
The verdict is then a statement about the handshakes with the first address that accepted
(`probe_sound`), and about the round that the attempt with the post-quantum group is from.
-/

namespace Fizzpy

namespace Probe

open Foundation

variable {Info : Type} {env : Env Info} {info : Info} {r : ProbeResult} {pq : Attempt}
  {classical : List Attempt}

/-! ## The verdict of four attempts -/

theorem rejectedWith_iff {a : Attempt} {alerts : List Str} :
    a.rejectedWith alerts = true ↔ a.outcome = .rejected ∧ ∃ alert ∈ a.alert, alert ∈ alerts := by
  unfold Attempt.rejectedWith
  cases a.alert <;> simp

theorem not_accepted_of_rejectedWith {a : Attempt} {alerts : List Str}
    (h : a.rejectedWith alerts = true) : a.outcome ≠ .accepted := by
  rw [(rejectedWith_iff.mp h).1]
  nofun

theorem any_accepted_iff :
    (classical.any fun a => a.outcome = .accepted) = true ↔ ∃ a ∈ classical, a.outcome = .accepted := by
  simp

theorem not_any_of_rejectedWith {alerts : List Str}
    (h : ∀ a ∈ pq :: classical, a.rejectedWith alerts = true) :
    ¬ (classical.any fun a => a.outcome = .accepted) = true := by
  rw [any_accepted_iff]
  rintro ⟨a, ha, haccepted⟩
  exact not_accepted_of_rejectedWith (h a (List.mem_cons_of_mem _ ha)) haccepted

theorem verdict_postQuantum_iff : verdict pq classical = .postQuantum ↔ pq.outcome = .accepted := by
  unfold verdict
  split_ifs with h <;> simp [h]

theorem verdict_classicalOnly_iff : verdict pq classical = .classicalOnly ↔
    (∃ a ∈ classical, a.outcome = .accepted) ∧ pq.rejectedWith noSharedGroup = true := by
  rw [← any_accepted_iff]
  unfold verdict
  split_ifs with haccepted hany hrejected hall
  · exact iff_of_false nofun fun h => not_accepted_of_rejectedWith h.2 haccepted
  · exact iff_of_true rfl ⟨hany, hrejected⟩
  · exact iff_of_false nofun fun h => hrejected h.2
  · exact iff_of_false nofun fun h => hany h.1
  · exact iff_of_false nofun fun h => hany h.1

theorem verdict_pqBlocked_iff : verdict pq classical = .pqBlocked ↔
    (∃ a ∈ classical, a.outcome = .accepted) ∧ pq.outcome ≠ .accepted ∧
      ¬ pq.rejectedWith noSharedGroup = true := by
  rw [← any_accepted_iff]
  unfold verdict
  split_ifs with haccepted hany hrejected hall
  · exact iff_of_false nofun fun h => h.2.1 haccepted
  · exact iff_of_false nofun fun h => h.2.2 hrejected
  · exact iff_of_true rfl ⟨hany, haccepted, hrejected⟩
  · exact iff_of_false nofun fun h => hany h.1
  · exact iff_of_false nofun fun h => hany h.1

theorem verdict_noTls13_iff : verdict pq classical = .noTls13 ↔
    pq.rejectedWith noTls13 = true ∧ ∀ a ∈ classical, a.rejectedWith noTls13 = true := by
  rw [← List.forall_mem_cons (p := fun a : Attempt => a.rejectedWith noTls13 = true)]
  unfold verdict
  split_ifs with haccepted hany hrejected hall
  · exact iff_of_false nofun fun h => not_accepted_of_rejectedWith (h pq List.mem_cons_self) haccepted
  · exact iff_of_false nofun fun h => not_any_of_rejectedWith h hany
  · exact iff_of_false nofun fun h => not_any_of_rejectedWith h hany
  · exact iff_of_true rfl (List.all_eq_true.mp hall)
  · exact iff_of_false nofun fun h => hall (List.all_eq_true.mpr h)

theorem verdict_ne_unreachable : verdict pq classical ≠ .unreachable := by
  unfold verdict
  split_ifs <;> nofun

/-! ## The rounds -/

/-- The first address whose connect succeeds, if the probe gets as far. -/
def Env.connected (env : Env Info) : Option Info :=
  if env.sentName = none then none
  else
    match env.infos with
    | .error _ => none
    | .ok infos => (infos.find? fun p => p.2.isOk).map Prod.fst

theorem connectFirst_inl {infos : List (Info × Except Exn Unit)} {lastError : Str}
    (h : connectFirst infos lastError = .ok (.inl info)) :
    (infos.find? fun p => p.2.isOk).map Prod.fst = some info := by
  induction infos generalizing lastError with
  | nil => cases h
  | cons p infos ih =>
    obtain ⟨info', connect⟩ := p
    cases connect with
    | ok _ =>
      cases h
      rfl
    | error e =>
      unfold connectFirst at h
      split_ifs at h
      exact ih h

theorem connectFirst_inr {infos : List (Info × Except Exn Unit)} {lastError error : Str}
    (h : connectFirst infos lastError = .ok (.inr error)) :
    (infos.find? fun p => p.2.isOk).map Prod.fst = none := by
  induction infos generalizing lastError with
  | nil => rfl
  | cons p infos ih =>
    obtain ⟨info', connect⟩ := p
    cases connect with
    | ok _ => cases h
    | error e =>
      unfold connectFirst at h
      split_ifs at h
      exact ih h

/-- Without a connection the result says so; with one the handshakes make it. -/
theorem probe_cases (h : probe env = .ok r) :
    (env.connected = none ∧ ∃ error, r = env.unreachable error) ∨
      ∃ info, env.connected = some info ∧ probeAt env info = .ok r := by
  unfold probe at h
  unfold Env.connected
  split_ifs at h with hsupported hname
  · cases h
    exact .inl ⟨if_pos hname, _, rfl⟩
  · rw [if_neg hname]
    cases hinfos : env.infos with
    | error e =>
      rw [hinfos] at h
      dsimp only at h
      split_ifs at h
      cases h
      exact .inl ⟨rfl, _, rfl⟩
    | ok infos =>
      rw [hinfos] at h
      dsimp only at h
      split at h
      · cases h
      · rename_i error hconnect
        cases h
        exact .inl ⟨connectFirst_inr hconnect, _, rfl⟩
      · rename_i info hconnect
        refine .inr ⟨info, connectFirst_inl hconnect, ?_⟩
        cases hr : probeAt env info with
        | ok r' =>
          rw [hr] at h
          cases h
          rfl
        | error e =>
          rw [hr] at h
          cases h

/-- What the handshake with one group came to, over a connection of its own. -/
abbrev Env.alone (env : Env Info) (round : Round) (info : Info) (g : Group) : Fresh :=
  env.fresh round info [g]

theorem firstRound_ok {default : Attempt}
    (h : firstRound env info = .ok (default, pq, classical)) :
    handshake defaultOffer env.shaken = .ok default ∧
      Tells pqGroup (env.alone .first info pqGroup) pq ∧
      List.Forall₂ (fun g a => Tells g (env.alone .first info g) a) classicalGroups classical := by
  obtain ⟨default', hdefault, h⟩ := bind_eq_ok.mp h
  obtain ⟨pq', hpq, h⟩ := bind_eq_ok.mp h
  obtain ⟨classical', hclassical, h⟩ := bind_eq_ok.mp h
  cases h
  exact ⟨hdefault, handshakeFresh_tells hpq,
    (forall₂_of_mapM hclassical).imp fun _ _ => handshakeFresh_tells⟩

theorem secondRound_ok {default : Attempt} (h : secondRound env info = .ok (default, pq)) :
    handshakeFresh defaultOffer (env.fresh .second info defaultOffer) = .ok default ∧
      Tells pqGroup (env.alone .second info pqGroup) pq := by
  obtain ⟨default', hdefault, h⟩ := bind_eq_ok.mp h
  obtain ⟨pq', hpq, h⟩ := bind_eq_ok.mp h
  cases h
  exact ⟨hdefault, handshakeFresh_tells hpq⟩

/-- The second round replaces two attempts of the first, and only where that one reads as blocked. -/
theorem probeAt_cases (h : probeAt env info = .ok r) :
    ∃ default pq classical, firstRound env info = .ok (default, pq, classical) ∧
      ((verdict pq classical ≠ .pqBlocked ∧ r = env.result info default pq classical) ∨
        (verdict pq classical = .pqBlocked ∧ ∃ default' pq',
          secondRound env info = .ok (default', pq') ∧
            r = env.result info default' pq' classical)) := by
  obtain ⟨⟨default, pq, classical⟩, hfirst, h⟩ := bind_eq_ok.mp h
  refine ⟨default, pq, classical, hfirst, ?_⟩
  dsimp only at h
  split_ifs at h with hverdict
  · obtain ⟨⟨default', pq'⟩, hsecond, h⟩ := bind_eq_ok.mp h
    cases h
    exact .inr ⟨hverdict, default', pq', hsecond, rfl⟩
  · cases h
    exact .inl ⟨hverdict, rfl⟩

/-! ## The verdict over the handshakes -/

variable {x : Group → Fresh} {groups : List Group} {attempts : List Attempt}

theorem Tells.rejectedWith {g : Group} {y : Fresh} {a : Attempt} (h : Tells g y a)
    (alerts : List Str) : a.rejectedWith alerts = true ↔ Refused alerts y :=
  rejectedWith_iff.trans (h.refused alerts)

theorem exists_accepted_iff (h : List.Forall₂ (fun g a => Tells g (x g) a) groups attempts) :
    (∃ a ∈ attempts, a.outcome = .accepted) ↔ ∃ g ∈ groups, Completed g (x g) := by
  induction h with
  | nil => simp
  | cons htells _ ih => rw [List.exists_mem_cons_iff, List.exists_mem_cons_iff, ih, htells.accepted]

theorem forall_rejectedWith_iff (h : List.Forall₂ (fun g a => Tells g (x g) a) groups attempts)
    (alerts : List Str) :
    (∀ a ∈ attempts, a.rejectedWith alerts = true) ↔ ∀ g ∈ groups, Refused alerts (x g) := by
  induction h with
  | nil => simp
  | cons htells _ ih => rw [List.forall_mem_cons, List.forall_mem_cons, ih, htells.rejectedWith]

theorem map_offered (h : List.Forall₂ (fun g a => Tells g (x g) a) groups attempts) :
    attempts.map Attempt.offered = groups.map fun g => [g.name] := by
  induction h with
  | nil => rfl
  | cons htells _ ih => rw [List.map_cons, List.map_cons, ih, htells.offered]

/-- The name that an attempt adds to the accepted groups. -/
theorem Tells.mem_accepted {g : Group} {y : Fresh} {a : Attempt} (h : Tells g y a) {name : Str} :
    (a.outcome = .accepted ∧ name ∈ a.offered.take 1) ↔ g.name = name ∧ Completed g y := by
  rw [h.offered, h.accepted, and_comm]
  exact and_congr_left' (List.mem_singleton.trans eq_comm)

theorem mem_accepted_iff (h : List.Forall₂ (fun g a => Tells g (x g) a) groups attempts)
    {name : Str} : (∃ a ∈ attempts, a.outcome = .accepted ∧ name ∈ a.offered.take 1) ↔
      ∃ g ∈ groups, g.name = name ∧ Completed g (x g) := by
  induction h with
  | nil => simp
  | cons htells _ ih =>
    rw [List.exists_mem_cons_iff, List.exists_mem_cons_iff, ih, htells.mem_accepted]

/-- A handshake that the peer neither completed with the post-quantum group nor refused for want of
one. -/
def Blocked (y : Fresh) : Prop := ¬ Completed pqGroup y ∧ ¬ Refused noSharedGroup y

/-- What the result says about the handshakes with the address it names. `pq` and `classical` are its
attempts, `pq` that of the round. -/
structure Reached (env : Env Info) (info : Info) (round : Round) (pq : Attempt)
    (classical : List Attempt) (r : ProbeResult) : Prop where
  address : r.address = some (env.address info)
  attempts : r.attempts = pq :: classical
  offered : r.attempts.map Attempt.offered = probeGroups.map fun g => [g.name]
  tellsPq : Tells pqGroup (env.alone round info pqGroup) pq
  tellsClassical :
    List.Forall₂ (fun g a => Tells g (env.alone .first info g) a) classicalGroups classical
  postQuantum : r.verdict = .postQuantum ↔ pq.outcome = .accepted ∧ pq.group = some pqName
  classicalOnly : r.verdict = .classicalOnly ↔
    (∃ a ∈ classical, a.outcome = .accepted) ∧ Refused noSharedGroup (env.alone round info pqGroup)
  pqBlocked : r.verdict = .pqBlocked →
    (∃ a ∈ classical, a.outcome = .accepted) ∧
      ∀ round, Blocked (env.alone round info pqGroup)
  noTls13 : r.verdict = .noTls13 ↔
    Refused noTls13 (env.alone round info pqGroup) ∧
      ∀ g ∈ classicalGroups, Refused noTls13 (env.alone .first info g)

/-- The accepted groups are those in which a handshake was completed. -/
theorem Reached.mem_acceptedGroups {round : Round} (h : Reached env info round pq classical r)
    {name : Str} : name ∈ r.acceptedGroups ↔
      (pqName = name ∧ Completed pqGroup (env.alone round info pqGroup)) ∨
        ∃ g ∈ classicalGroups, g.name = name ∧ Completed g (env.alone .first info g) := by
  have hmem : name ∈ r.acceptedGroups ↔
      ∃ a ∈ pq :: classical, a.outcome = .accepted ∧ name ∈ a.offered.take 1 := by
    simp [ProbeResult.acceptedGroups, h.attempts, and_assoc]
  rw [hmem, List.exists_mem_cons_iff, h.tellsPq.mem_accepted, mem_accepted_iff h.tellsClassical]
  rfl

structure Sound (env : Env Info) (r : ProbeResult) : Prop where
  target : r.host = env.host ∧ r.port = env.port
  unreachable : r.verdict = .unreachable ↔ env.connected = none
  untried : r.verdict = .unreachable → r.attempts = [] ∧ r.default = none
  reached : ∀ info, env.connected = some info →
    ∃ round pq classical, Reached env info round pq classical r

theorem verdict_postQuantum_iff_group {y : Fresh} (h : Tells pqGroup y pq) :
    verdict pq classical = .postQuantum ↔ pq.outcome = .accepted ∧ pq.group = some pqName :=
  verdict_postQuantum_iff.trans (and_iff_left_of_imp h.group).symm

theorem verdict_pqBlocked_iff_blocked {y : Fresh} (h : Tells pqGroup y pq) :
    verdict pq classical = .pqBlocked ↔
      (∃ a ∈ classical, a.outcome = .accepted) ∧ Blocked y := by
  rw [verdict_pqBlocked_iff, Ne, h.accepted, h.rejectedWith, Blocked]

/-- The fields that only the attempts decide. -/
theorem reached_result {default : Attempt} {round : Round}
    (hpq : Tells pqGroup (env.alone round info pqGroup) pq)
    (hclassical : List.Forall₂ (fun g a => Tells g (env.alone .first info g) a)
      classicalGroups classical)
    (hblocked : verdict pq classical = .pqBlocked →
      ∀ round, Blocked (env.alone round info pqGroup)) :
    Reached env info round pq classical (env.result info default pq classical) where
  address := rfl
  attempts := rfl
  offered := by
    unfold probeGroups
    rw [List.map_cons, ← map_offered hclassical, ← hpq.offered]
    rfl
  tellsPq := hpq
  tellsClassical := hclassical
  postQuantum := verdict_postQuantum_iff_group hpq
  classicalOnly := by rw [← hpq.rejectedWith]; exact verdict_classicalOnly_iff
  pqBlocked h := ⟨(verdict_pqBlocked_iff.mp h).1, hblocked h⟩
  noTls13 := by
    rw [← hpq.rejectedWith, ← forall_rejectedWith_iff hclassical]
    exact verdict_noTls13_iff

theorem probeAt_reached (h : probeAt env info = .ok r) :
    ∃ round pq classical, Reached env info round pq classical r := by
  obtain ⟨default, pq, classical, hfirst, ⟨hverdict, rfl⟩ | ⟨hverdict, default', pq', hsecond, rfl⟩⟩ :=
    probeAt_cases h
  · obtain ⟨-, hpq, hclassical⟩ := firstRound_ok hfirst
    exact ⟨.first, pq, classical, reached_result hpq hclassical fun h => absurd h hverdict⟩
  · obtain ⟨-, hpq, hclassical⟩ := firstRound_ok hfirst
    obtain ⟨-, hpq'⟩ := secondRound_ok hsecond
    have hblocked := ((verdict_pqBlocked_iff_blocked hpq).mp hverdict).2
    refine ⟨.second, pq', classical, reached_result hpq' hclassical fun h => ?_⟩
    rintro (_ | _)
    · exact hblocked
    · exact ((verdict_pqBlocked_iff_blocked hpq').mp h).2

theorem probeAt_verdict (h : probeAt env info = .ok r) :
    r.host = env.host ∧ r.port = env.port ∧ r.verdict ≠ .unreachable := by
  obtain ⟨default, pq, classical, -, ⟨-, rfl⟩ | ⟨-, default', pq', -, rfl⟩⟩ := probeAt_cases h
  · exact ⟨rfl, rfl, verdict_ne_unreachable⟩
  · exact ⟨rfl, rfl, verdict_ne_unreachable⟩

theorem probe_target (h : probe env = .ok r) : r.host = env.host ∧ r.port = env.port := by
  obtain ⟨-, error, rfl⟩ | ⟨info, -, h⟩ := probe_cases h
  · exact ⟨rfl, rfl⟩
  · exact ⟨(probeAt_verdict h).1, (probeAt_verdict h).2.1⟩

/-- The result of every probe that returns one. -/
theorem probe_sound (h : probe env = .ok r) : Sound env r := by
  have htarget := probe_target h
  obtain ⟨hconnected, error, rfl⟩ | ⟨info, hconnected, h⟩ := probe_cases h
  · exact {
      target := htarget
      unreachable := iff_of_true rfl hconnected
      untried := fun _ => ⟨rfl, rfl⟩
      reached := fun info hinfo => by rw [hconnected] at hinfo; cases hinfo }
  · have hverdict := (probeAt_verdict h).2.2
    exact {
      target := htarget
      unreachable := iff_of_false hverdict (by rw [hconnected]; nofun)
      untried := fun h => absurd h hverdict
      reached := fun info' hinfo' => by
        rw [hconnected] at hinfo'
        cases hinfo'
        exact probeAt_reached h }

/-- A server with one address that completes a handshake in `x25519` and, of a connection of its own,
nothing else but what `pq` says. -/
def classicalEnv (pq : Round → Fresh) : Env Unit where
  host := str "example.org"
  port := 443
  infos := .ok [((), .ok ())]
  address _ := str "192.0.2.1"
  shaken := .ok { group := Group.x25519.name }
  fresh round _ groups :=
    if groups = [pqGroup] then pq round
    else if Group.x25519 ∈ groups then .ok (.ok { group := Group.x25519.name })
    else .ok (.error { kind := .osError false, fizzAlert := str "handshake_failure",
                       fizzAlertRemote := true })

theorem probe_sound_classicalEnv :
    ∃ r, probe (classicalEnv fun _ => .ok (.error { kind := .timeout })) = .ok r ∧
      r.verdict = .pqBlocked ∧
      Sound (classicalEnv fun _ => .ok (.error { kind := .timeout })) r :=
  ⟨_, rfl, rfl, probe_sound rfl⟩

/-- Both connects of the post-quantum attempts are refused: neither attempt gets to a handshake. -/
theorem blocked_unconnected :
    ∃ r, probe (classicalEnv fun _ => .error { kind := .connectionRefused }) = .ok r ∧
      r.verdict = .pqBlocked ∧
      ∀ round shaken, (classicalEnv fun _ => .error { kind := .connectionRefused }).alone round ()
        pqGroup ≠ .ok shaken :=
  ⟨_, rfl, rfl, fun _ _ h => nomatch h⟩

/-! ## Probes that return -/

/-- A build with post-quantum support, and no exception but those that name resolution, connects and
handshakes may raise. -/
structure Env.Expected (env : Env Info) : Prop where
  pqSupported : env.pqSupported = true
  infos : ∀ e, env.infos = .error e → e.kind ≠ .other
  connects : ∀ infos, env.infos = .ok infos → ∀ p ∈ infos, ∀ e, p.2 = .error e → e.expected = true
  shaken : ∀ e, env.shaken = .error e → e.expected = true
  fresh : ∀ round info groups e, env.fresh round info groups = .error e → e.expected = true
  freshShaken : ∀ round info groups e, env.fresh round info groups = .ok (.error e) →
    e.expected = true

theorem connectFirst_returns {infos : List (Info × Except Exn Unit)}
    (h : ∀ p ∈ infos, ∀ e, p.2 = .error e → e.expected = true) (lastError : Str) :
    ∃ found, connectFirst infos lastError = .ok found := by
  induction infos generalizing lastError with
  | nil => exact ⟨_, rfl⟩
  | cons p infos ih =>
    obtain ⟨info, connect⟩ := p
    cases connect with
    | ok _ => exact ⟨_, rfl⟩
    | error e =>
      unfold connectFirst
      rw [if_pos (h _ List.mem_cons_self e rfl)]
      exact ih (fun p hp => h p (List.mem_cons_of_mem _ hp)) _

theorem handshake_returns {shaken : Shaken} (h : ∀ e, shaken = .error e → e.expected = true)
    (groups : List Group) : ∃ a, handshake groups shaken = .ok a := by
  cases shaken with
  | ok n =>
    unfold handshake
    dsimp only
    split_ifs <;> exact ⟨_, rfl⟩
  | error e =>
    unfold handshake
    dsimp only
    rw [if_pos (h e rfl)]
    exact ⟨_, rfl⟩

theorem handshakeFresh_returns (h : env.Expected) (round : Round) (info : Info)
    (groups offer : List Group) : ∃ a, handshakeFresh groups (env.fresh round info offer) = .ok a := by
  cases hx : env.fresh round info offer with
  | ok shaken =>
    refine handshake_returns (fun e he => h.freshShaken round info offer e ?_) groups
    rw [hx, he]
  | error e =>
    unfold handshakeFresh
    dsimp only
    rw [if_pos (h.fresh round info offer e hx)]
    exact ⟨_, rfl⟩

theorem probeAt_returns (h : env.Expected) (info : Info) : ∃ r, probeAt env info = .ok r := by
  obtain ⟨default, hdefault⟩ := handshake_returns h.shaken defaultOffer
  obtain ⟨pq, hpq⟩ := handshakeFresh_returns h .first info [pqGroup] [pqGroup]
  obtain ⟨a, ha⟩ := handshakeFresh_returns h .first info [.x25519] [.x25519]
  obtain ⟨b, hb⟩ := handshakeFresh_returns h .first info [.secp256r1] [.secp256r1]
  obtain ⟨c, hc⟩ := handshakeFresh_returns h .first info [.secp384r1] [.secp384r1]
  obtain ⟨default', hdefault'⟩ := handshakeFresh_returns h .second info defaultOffer defaultOffer
  obtain ⟨pq', hpq'⟩ := handshakeFresh_returns h .second info [pqGroup] [pqGroup]
  unfold probeAt firstRound secondRound classicalGroups
  simp only [List.mapM_cons, List.mapM_nil, hdefault, hpq, ha, hb, hc, hdefault', hpq', ok_bind,
    pure_bind]
  split_ifs <;> exact ⟨_, rfl⟩

theorem probe_returns (h : env.Expected) : ∃ r, probe env = .ok r := by
  unfold probe
  rw [if_neg (not_not.mpr h.pqSupported)]
  split_ifs with hname
  · exact ⟨_, rfl⟩
  · cases hinfos : env.infos with
    | error e =>
      dsimp only
      rw [if_neg (h.infos e hinfos)]
      exact ⟨_, rfl⟩
    | ok infos =>
      obtain ⟨found, hfound⟩ := connectFirst_returns (h.connects infos hinfos) (str "no addresses")
      dsimp only
      rw [hfound]
      cases found with
      | inl info =>
        obtain ⟨r, hr⟩ := probeAt_returns h info
        dsimp only
        rw [hr]
        exact ⟨r, rfl⟩
      | inr error => exact ⟨_, rfl⟩

end Probe

end Fizzpy
