import Fizzpy.Client.Ownership
import Fizzpy.Http.Server

/-!
# What a connection carries

Beside the client a record is kept of the turns on each connection: the requests that threads write on it
and the responses they have from it. Whatever the threads do, the turns alternate: a request is written
only when the one before it has had its response, one that failed to be written is the last, and all of
them are for the target that the connection was opened to (`Conversing`). So the server behind a connection
reads just the requests that were performed on it, each as it was asked for (`server_reads`).
-/

namespace Fizzpy

open Foundation

namespace Client

/-! ## Turns -/

inductive Turn
  | asked (job : Job) (ok : Bool)
  | answered (response : Response)

abbrev Log := ConnId → List Turn

/-- The turn that a step of the thread takes, with its connection. -/
def turn? (s s' : Client) (i : ℕ) : Action → Option (ConnId × Turn)
  | .write ok =>
    match (s.threads i).phase with
    | .write c _ => some (c, .asked (s.threads i).job ok)
    | _ => none
  | .read _ =>
    match (s'.threads i).phase with
    | .give c r | .close c r => some (c, .answered r)
    | _ => none
  | _ => none

def Log.add (log : Log) : Option (ConnId × Turn) → Log
  | some (c, turn) => Function.update log c (log c ++ [turn])
  | none => log

/-- The client, with the record. -/
def talk (codec : Codec) (x : Client × Log) (e : ℕ × Action) : Option (Client × Log) :=
  (step codec x.1 e).map fun s' => (s', x.2.add (turn? x.1 s' e.1 e.2))

/-- Requests with their responses, and perhaps one that has none: written, or failed to be. -/
def script (key : Key) (past : List (Bytes × Response)) (last : Option (Bytes × Bool)) : List Turn :=
  past.flatMap (fun x => [.asked ⟨key, x.1⟩ true, .answered x.2]) ++
    last.toList.map fun y => .asked ⟨key, y.1⟩ y.2

theorem script_ask (key : Key) (past : List (Bytes × Response)) (raw : Bytes) (ok : Bool) :
    script key past none ++ [.asked ⟨key, raw⟩ ok] = script key past (some (raw, ok)) := by
  unfold script
  rw [List.append_assoc]
  rfl

theorem script_answer (key : Key) (past : List (Bytes × Response)) (raw : Bytes) (r : Response) :
    script key past (some (raw, true)) ++ [.answered r] = script key (past ++ [(raw, r)]) none := by
  unfold script
  rw [List.flatMap_append, List.append_assoc, List.append_assoc]
  rfl

/-! ## The invariant -/

section

variable (A : Job → Prop)

/-- The turns of a connection that was opened to `key`, where `A` holds of every request. -/
def Told (key : Key) (turns : List Turn) (last : Option (Bytes × Bool)) : Prop :=
  ∃ past, turns = script key past last ∧ ∀ x ∈ past, A ⟨key, x.1⟩

/-- Where a thread stands in the conversation on its connection. -/
def Stands (log : Log) (job : Job) : Phase → Prop
  | .idle | .closing _ => True
  | .take | .connect | .closeStale _ => A job
  | .write c _ => A job ∧ Told A job.key (log c) none
  | .read c _ _ _ => A job ∧ Told A job.key (log c) (some (job.raw, true))
  | .give c _ | .close c _ => Told A job.key (log c) none

structure Conversing (s : Client) (log : Log) : Prop where
  owned : s.Owned
  unopened : ∀ c, s.opened.length ≤ c → log c = []
  told : ∀ c k, s.opened[c]? = some k → ∃ last, Told A k (log c) last ∧ ∀ y ∈ last, A ⟨k, y.1⟩
  pooled : ∀ k c, s.pool.Has k c → Told A k (log c) none
  stands : ∀ i, Stands A log (s.threads i).job (s.threads i).phase

end

variable {A : Job → Prop} {codec : Codec} {s s' : Client} {log : Log} {i : ℕ} {a : Action}

theorem conversing_init : Conversing A init fun _ => [] where
  owned := owned_init
  unopened := fun _ _ => rfl
  told := nofun
  pooled := by
    rintro k c ⟨_, hmem, _⟩
    cases hmem
  stands := fun _ => trivial

/-- Only the turns on the thread's own connection matter to it. -/
theorem Stands.congr {log' : Log} {job : Job} {phase : Phase} (h : Stands A log job phase)
    (hc : ∀ c, phase.conn? = some c → log' c = log c) : Stands A log' job phase := by
  cases phase with
  | idle | closing | take | connect | closeStale => exact h
  | write c reused => exact ⟨h.1, (hc c rfl).symm ▸ h.2⟩
  | read c reused parser received => exact ⟨h.1, (hc c rfl).symm ▸ h.2⟩
  | give c r =>
    show Told A job.key (log' c) none
    rw [hc c rfl]
    exact h
  | close c r =>
    show Told A job.key (log' c) none
    rw [hc c rfl]
    exact h

theorem told_nil (k : Key) : Told A k [] none := ⟨[], rfl, nofun⟩

/-- A step that takes no turn. -/
theorem Conversing.quiet {client : Client} {thread : Thread} (h : Conversing A s log)
    (ho : (client.setThread i thread).Owned) (hthreads : client.threads = s.threads)
    (hopened : client.opened = s.opened ∨ ∃ k, client.opened = s.opened ++ [k])
    (hpool : ∀ k c, client.pool.Has k c → Told A k (log c) none)
    (hself : Stands A log thread.job thread.phase) : Conversing A (client.setThread i thread) log where
  owned := ho
  unopened := fun c hc => by
    have hc : client.opened.length ≤ c := hc
    refine h.unopened c ?_
    rcases hopened with heq | ⟨k, heq⟩
    · rwa [heq] at hc
    · rw [heq, List.length_append] at hc
      omega
  told := fun c k hk => by
    have hk : client.opened[c]? = some k := hk
    rcases hopened with heq | ⟨k', heq⟩
    · rw [heq] at hk
      exact h.told c k hk
    · rw [heq] at hk
      by_cases hlt : c < s.opened.length
      · rw [List.getElem?_append_left hlt] at hk
        exact h.told c k hk
      · rw [h.unopened c (Nat.not_lt.mp hlt)]
        exact ⟨none, told_nil k, nofun⟩
  pooled := hpool
  stands := fun j => by
    by_cases hj : j = i
    · subst hj
      rw [threads_setThread_self]
      exact hself
    · rw [threads_setThread_ne client hj, hthreads]
      exact h.stands j

/-- A step that takes a turn on the thread's own connection, which is in the way of nobody else. -/
theorem Conversing.turn {c : ConnId} {t : Turn} {thread : Thread} (h : Conversing A s log)
    (ho : (s.setThread i thread).Owned) (hc : (s.threads i).phase.conn? = some c)
    (htold : ∃ last, Told A (s.threads i).job.key (log c ++ [t]) last ∧
      ∀ y ∈ last, A ⟨(s.threads i).job.key, y.1⟩)
    (hself : Stands A (Function.update log c (log c ++ [t])) thread.job thread.phase) :
    Conversing A (s.setThread i thread) (log.add (some (c, t))) := by
  have hopened := h.owned.targeted.exchange i c hc
  have hheld : c ∈ s.cell (.held i) := mem_held hc
  have hother : ∀ c', c' ≠ c → log.add (some (c, t)) c' = log c' := fun c' hne =>
    Function.update_of_ne hne ..
  refine ⟨ho, fun c' hc' => ?_, fun c' k hk => ?_, fun k c' hhas => ?_, fun j => ?_⟩
  · rw [hother c']
    · exact h.unopened c' hc'
    · rintro rfl
      exact absurd (List.getElem?_eq_some_iff.mp hopened).1 (Nat.not_lt.mpr hc')
  · by_cases hne : c' = c
    · subst hne
      obtain rfl := Option.some.inj (hopened.symm.trans hk)
      rw [Log.add, Function.update_self]
      exact htold
    · rw [hother c' hne]
      exact h.told c' k hk
  · rw [hother c']
    · exact h.pooled k c' hhas
    · rintro rfl
      have hpool : c' ∈ s.cell .pooled := Pool.mem_conns_iff.mpr ⟨k, hhas⟩
      exact nomatch h.owned.exclusive.unique hheld hpool
  · by_cases hj : j = i
    · subst hj
      rw [threads_setThread_self]
      exact hself
    · rw [threads_setThread_ne s hj]
      refine (h.stands j).congr fun c' hc' => hother c' ?_
      rintro rfl
      cases h.owned.exclusive.unique (k := .held i) (l := .held j) hheld (mem_held hc')
      exact hj rfl

/-- The write of a request behind answered ones. -/
theorem conversing_write {c : ConnId} {reused ok : Bool} {sent : List ConnId} (h : Conversing A s log)
    (hph : (s.threads i).phase = .write c reused)
    (ho : (s.setThread i ({ s.threads i with sent }.proceed (afterWrite c reused ok))).Owned) :
    Conversing A (s.setThread i ({ s.threads i with sent }.proceed (afterWrite c reused ok)))
      (log.add (some (c, .asked (s.threads i).job ok))) := by
  have hstands := h.stands i
  rw [hph] at hstands
  obtain ⟨hA, past, hlog, hpast⟩ := hstands
  have hnow : log c ++ [.asked (s.threads i).job ok] =
      script (s.threads i).job.key past (some ((s.threads i).job.raw, ok)) := by
    rw [hlog]
    exact script_ask _ past _ ok
  refine h.turn ho (by rw [hph]; rfl) ⟨some ((s.threads i).job.raw, ok), ⟨past, hnow, hpast⟩, ?_⟩ ?_
  · rintro y hy
    cases hy
    exact hA
  · unfold afterWrite
    split_ifs with hok
    · subst hok
      refine ⟨hA, past, ?_, hpast⟩
      rw [Function.update_self]
      exact hnow
    · exact hA
    · trivial

/-- A round of the loop: it goes on, it gives the exchange up, or it has the response. -/
theorem afterRead_phases (codec : Codec) (c : ConnId) (reused : Bool) (parser : ResponseParser)
    (received : Bool) (reply : ReadReply) :
    (∃ parser' received', afterRead codec c reused parser received reply =
      .goOn (.read c reused parser' received')) ∨
    afterRead codec c reused parser received reply = .goOn (.closeStale c) ∨
    (∃ e, afterRead codec c reused parser received reply = .raised e) ∨
    ∃ r, afterRead codec c reused parser received reply = .goOn (.give c r) ∨
      afterRead codec c reused parser received reply = .goOn (.close c r) := by
  have hloop : ∀ q, afterLoop c reused q = .goOn (.closeStale c) ∨ (∃ e, afterLoop c reused q = .raised e) ∨
      ∃ r, afterLoop c reused q = .goOn (.give c r) ∨ afterLoop c reused q = .goOn (.close c r) := by
    intro q
    unfold afterLoop
    split
    · split_ifs
      · exact .inl rfl
      · exact .inr (.inl ⟨_, rfl⟩)
    · split_ifs
      · exact .inr (.inr ⟨_, .inl rfl⟩)
      · exact .inr (.inr ⟨_, .inr rfl⟩)
  unfold afterRead
  cases reply with
  | failed =>
    dsimp only
    split_ifs
    · exact .inr (.inl rfl)
    · exact .inr (.inr (.inl ⟨_, rfl⟩))
  | chunk data =>
    dsimp only
    split_ifs
    · exact .inr (.inl rfl)
    · split
      · exact .inr (hloop _)
      · exact .inr (.inr (.inl ⟨_, rfl⟩))
    · split
      · split_ifs
        · exact .inr (hloop _)
        · exact .inl ⟨_, _, rfl⟩
      · exact .inr (.inr (.inl ⟨_, rfl⟩))

theorem conversing_read {c : ConnId} {reused received : Bool} {parser : ResponseParser} {reply : ReadReply}
    (h : Conversing A s log) (hph : (s.threads i).phase = .read c reused parser received)
    (hs' : s' = s.setThread i ((s.threads i).proceed (afterRead codec c reused parser received reply)))
    (ho : s'.Owned) : Conversing A s' (log.add (turn? s s' i (.read reply))) := by
  have hstands := h.stands i
  rw [hph] at hstands
  obtain ⟨hA, hlog⟩ := hstands
  have hquiet : ∀ {t : Thread}, (s.setThread i t).Owned → Stands A log t.job t.phase →
      Conversing A (s.setThread i t) log := fun ho hself => h.quiet ho rfl (.inl rfl) h.pooled hself
  have hanswer : ∀ {t : Thread} {r : Response}, t.job = (s.threads i).job →
      (t.phase = .give c r ∨ t.phase = .close c r) → (s.setThread i t).Owned →
      Conversing A (s.setThread i t) (log.add (some (c, .answered r))) := by
    intro t r hjob hphase ho
    obtain ⟨past, hlog, hpast⟩ := hlog
    have hnow : log c ++ [.answered r] =
        script (s.threads i).job.key (past ++ [((s.threads i).job.raw, r)]) none := by
      rw [hlog]
      exact script_answer _ past _ r
    have htold : Told A (s.threads i).job.key (log c ++ [.answered r]) none := by
      refine ⟨_, hnow, fun x hx => ?_⟩
      rcases List.mem_append.mp hx with hx | hx
      · exact hpast x hx
      · rw [List.mem_singleton.mp hx]
        exact hA
    refine h.turn ho (by rw [hph]; rfl) ⟨none, htold, nofun⟩ ?_
    have hself : Told A t.job.key (Function.update log c (log c ++ [.answered r]) c) none := by
      rw [Function.update_self, hjob]
      exact htold
    rcases hphase with hphase | hphase
    · rw [hphase]
      exact hself
    · rw [hphase]
      exact hself
  have hturn : ∀ t : Thread, s' = s.setThread i t → turn? s s' i (.read reply) =
      match t.phase with
      | .give c r | .close c r => some (c, .answered r)
      | _ => none := by
    rintro t rfl
    unfold turn?
    dsimp only
    rw [threads_setThread_self]
  obtain ⟨q, got, heq⟩ | heq | ⟨e, heq⟩ | ⟨r, heq | heq⟩ :=
    afterRead_phases codec c reused parser received reply
  · rw [heq] at hs'
    rw [hturn _ hs']
    subst hs'
    exact hquiet ho ⟨hA, hlog⟩
  · rw [heq] at hs'
    rw [hturn _ hs']
    subst hs'
    exact hquiet ho hA
  · rw [heq] at hs'
    rw [hturn _ hs']
    subst hs'
    exact hquiet ho trivial
  · rw [heq] at hs'
    rw [hturn _ hs']
    subst hs'
    exact hanswer rfl (.inl rfl) ho
  · rw [heq] at hs'
    rw [hturn _ hs']
    subst hs'
    exact hanswer rfl (.inr rfl) ho

theorem conversing_step {x x' : Client × Log} (h : Conversing A x.1 x.2)
    (hA : ∀ job, a = .perform job → A job) (hs : talk codec x (i, a) = some x') :
    Conversing A x'.1 x'.2 := by
  obtain ⟨s, log⟩ := x
  obtain ⟨s', hstep, rfl⟩ := Option.map_eq_some_iff.mp hs
  have ho := owned_step h.owned hstep
  have hstands := h.stands i
  show Conversing A s' (log.add (turn? s s' i a))
  cases step_sound hstep with
  | perform hph => exact h.quiet ho rfl (.inl rfl) h.pooled (hA _ rfl)
  | takePooled hph hp =>
    rw [hph] at hstands
    obtain ⟨hhas, -, hsub⟩ := Pool.take_spec hp
    exact h.quiet ho rfl (.inl rfl) (fun k c hc => h.pooled k c (hsub k c hc))
      ⟨hstands, h.pooled _ _ hhas⟩
  | takeNone hph hp =>
    rw [hph] at hstands
    exact h.quiet ho rfl (.inl rfl) h.pooled hstands
  | @write c reused ok hph =>
    have hturn : ∀ s', turn? s s' i (.write ok) = some (c, .asked (s.threads i).job ok) := by
      intro s'
      unfold turn?
      dsimp only
      rw [hph]
    rw [hturn]
    exact conversing_write h hph ho
  | read hph => exact conversing_read h hph rfl ho
  | @give c r hph =>
    rw [hph] at hstands
    refine h.quiet ho rfl (.inl rfl) (fun k c' hc => ?_) trivial
    obtain hc | ⟨rfl, rfl⟩ := Pool.has_give hc
    · exact h.pooled k c' hc
    · exact hstands
  | close hph => exact h.quiet ho rfl (.inl rfl) h.pooled trivial
  | closeStale hph =>
    rw [hph] at hstands
    exact h.quiet ho rfl (.inl rfl) h.pooled hstands
  | connected hph =>
    rw [hph] at hstands
    have hlog := h.unopened s.opened.length le_rfl
    refine h.quiet ho rfl (.inr ⟨_, rfl⟩) h.pooled ⟨hstands, ?_⟩
    rw [hlog]
    exact told_nil _
  | connectFailed hph => exact h.quiet ho rfl (.inl rfl) h.pooled trivial
  | closeAll hph =>
    refine h.quiet ho rfl (.inl rfl) ?_ trivial
    rintro k c ⟨_, hmem, _⟩
    cases hmem
  | closeNext hph => exact h.quiet ho rfl (.inl rfl) h.pooled trivial
  | closeDone hph => exact h.quiet ho rfl (.inl rfl) h.pooled trivial

/-! ## What the server reads -/

/-- The request of a call, to a target. -/
def Asks (job : Job) : Prop :=
  ∃ call : RequestCall, call.Sayable ∧ call.host = job.key.1 ∧ call.build = some job.raw

/-- The requests that were written in full. -/
def written (turns : List Turn) : Bytes :=
  turns.flatMap fun
    | .asked job true => job.raw
    | _ => []

theorem conversing_run {xs : List (ℕ × Action)} {x : Client × Log}
    (hA : ∀ i job, (i, Action.perform job) ∈ xs → A job)
    (h : run (talk codec) (init, fun _ => []) xs = some x) : Conversing A x.1 x.2 :=
  run_history (I := fun _ x => Conversing A x.1 x.2) (V := fun e => ∀ job, e.2 = .perform job → A job)
    (fun _ _ e _ hi hv hs => conversing_step hi hv hs)
    (fun e he job hjob => hA e.1 job (by rw [← hjob]; exact he)) [] conversing_init h

/-- The calls behind requests. -/
theorem exists_calls {β : Type} {key : Key} (raws : List (Bytes × β)) (h : ∀ x ∈ raws, Asks ⟨key, x.1⟩) :
    ∃ calls : List (RequestCall × β), raws = calls.map (fun y => (y.1.encode, y.2)) ∧
      ∀ y ∈ calls, y.1.Sayable ∧ y.1.host = key.1 := by
  induction raws with
  | nil => exact ⟨[], rfl, nofun⟩
  | cons x raws ih =>
    obtain ⟨call, hsay, hhost, hbuild⟩ := h x List.mem_cons_self
    obtain ⟨calls, rfl, hcalls⟩ := ih fun y hy => h y (List.mem_cons_of_mem x hy)
    rw [RequestCall.build_eq hsay, Option.some.injEq] at hbuild
    refine ⟨(call, x.2) :: calls, ?_, fun y hy => ?_⟩
    · rw [List.map_cons, hbuild]
    · rcases List.mem_cons.mp hy with rfl | hy
      · exact ⟨hsay, hhost⟩
      · exact hcalls y hy

/-- The turns of calls. -/
def callScript (key : Key) (past : List (RequestCall × Response)) (last : Option (RequestCall × Bool)) :
    List Turn :=
  script key (past.map fun y => (y.1.encode, y.2)) (last.map fun y => (y.1.encode, y.2))

/-- The requests that the server has in full. -/
def requestsOf (past : List (RequestCall × Response)) (last : Option (RequestCall × Bool)) :
    List ServerRequest :=
  past.map (fun y => y.1.request) ++ (last.toList.filter Prod.snd).map fun y => y.1.request

theorem written_callScript (key : Key) (past : List (RequestCall × Response))
    (last : Option (RequestCall × Bool)) : written (callScript key past last) =
      (past.map Prod.fst ++ (last.toList.filter Prod.snd).map Prod.fst).flatMap RequestCall.encode := by
  have hpast : written (past.flatMap fun y => [.asked ⟨key, y.1.encode⟩ true, .answered y.2]) =
      (past.map Prod.fst).flatMap RequestCall.encode := by
    unfold written
    rw [List.flatMap_assoc, List.flatMap_map]
    simp
  unfold callScript script
  rw [List.flatMap_map, written, List.flatMap_append, ← written, hpast, List.flatMap_append]
  congr 1
  rcases last with _ | ⟨call, _ | _⟩
  · rfl
  · rfl
  · simp

theorem reads_callScript {key : Key} {past : List (RequestCall × Response)}
    {last : Option (RequestCall × Bool)} (hpast : ∀ y ∈ past, y.1.Sayable)
    (hlast : ∀ y ∈ last, y.1.Sayable) :
    readRequests (written (callScript key past last)) = some (requestsOf past last) := by
  rw [written_callScript]
  refine (readAll_flatMap readRequest_consumes fun call hc => RequestCall.readRequest_encode ?_).trans ?_
  · rcases List.mem_append.mp hc with hc | hc
    · obtain ⟨y, hy, rfl⟩ := List.mem_map.mp hc
      exact hpast y hy
    · obtain ⟨y, hy, rfl⟩ := List.mem_map.mp hc
      exact hlast y (Option.mem_toList.mp (List.mem_filter.mp hy).1)
  · rw [List.map_append, List.map_map, List.map_map]
    rfl

/-- Requests and responses of calls, with what the server reads. -/
def Serves (key : Key) (turns : List Turn) (past : List (RequestCall × Response))
    (last : Option (RequestCall × Bool)) : Prop :=
  turns = callScript key past last ∧ (∀ y ∈ past, y.1.Sayable ∧ y.1.host = key.1) ∧
    (∀ y ∈ last, y.1.Sayable ∧ y.1.host = key.1) ∧
    readRequests (written turns) = some (requestsOf past last)

theorem serves_of_asks {key : Key} {past : List (Bytes × Response)} {last : Option (Bytes × Bool)}
    (hpast : ∀ y ∈ past, Asks ⟨key, y.1⟩) (hlast : ∀ y ∈ last, Asks ⟨key, y.1⟩) :
    ∃ past' last', Serves key (script key past last) past' last' ∧
      past = past'.map (fun y => (y.1.encode, y.2)) ∧ last = last'.map fun y => (y.1.encode, y.2) := by
  obtain ⟨past', rfl, hpast'⟩ := exists_calls past hpast
  have hopen : ∃ last' : Option (RequestCall × Bool), last = last'.map (fun y => (y.1.encode, y.2)) ∧
      ∀ y ∈ last', y.1.Sayable ∧ y.1.host = key.1 := by
    cases last with
    | none => exact ⟨none, rfl, nofun⟩
    | some y =>
      obtain ⟨call, hsay, hhost, hbuild⟩ := hlast y rfl
      rw [RequestCall.build_eq hsay, Option.some.injEq] at hbuild
      refine ⟨some (call, y.2), ?_, ?_⟩
      · rw [Option.map_some, hbuild]
      · rintro z hz
        cases hz
        exact ⟨hsay, hhost⟩
  obtain ⟨last', rfl, hlast'⟩ := hopen
  exact ⟨past', last', ⟨rfl, hpast', hlast',
    reads_callScript (fun y hy => (hpast' y hy).1) fun y hy => (hlast' y hy).1⟩, rfl, rfl⟩

/-- The record changes no run. -/
theorem run_of_talk {xs : List (ℕ × Action)} {x x' : Client × Log} (h : run (talk codec) x xs = some x') :
    run (step codec) x.1 xs = some x'.1 := by
  have hstep : ∀ (y : Client × Log) e y', talk codec y e = some y' → True →
      step codec y.1 (id e) = some y'.1 := by
    intro y e y' hs _
    obtain ⟨s', hs', rfl⟩ := Option.map_eq_some_iff.mp hs
    exact hs'
  have hmap := run_map (fun _ _ _ _ => trivial) hstep h trivial
  rwa [List.map_id] at hmap

/-- Some thread was asked for it. -/
def Performed (xs : List (ℕ × Action)) (job : Job) : Prop := ∃ i, (i, Action.perform job) ∈ xs

/-- **What the servers read.** On each connection, in every state reached, the requests that were written
stand one behind the other, each with its response before the next one, all performed for the host that the
connection was opened to; a last one may have no response, and then the connection is not pooled. Whoever
reads from a connection has the last request on it. Where the requests on a connection can be said at all,
the server behind it reads them as they were asked for. -/
theorem server_reads (codec : Codec) {xs : List (ℕ × Action)} {x : Client × Log}
    (h : run (talk codec) (init, fun _ => []) xs = some x) :
    run (step codec) init xs = some x.1 ∧
    ∀ c key, x.1.opened[c]? = some key → ∃ past last, x.2 c = script key past last ∧
      (∀ y ∈ past, Performed xs ⟨key, y.1⟩) ∧ (∀ y ∈ last, Performed xs ⟨key, y.1⟩) ∧
      (c ∈ x.1.pool.conns → last = none) ∧
      (∀ i reused parser received, (x.1.threads i).phase = .read c reused parser received →
        last = some ((x.1.threads i).job.raw, true)) ∧
      ((∀ y ∈ past, Asks ⟨key, y.1⟩) → (∀ y ∈ last, Asks ⟨key, y.1⟩) →
        ∃ past' last', Serves key (x.2 c) past' last' ∧
          past = past'.map (fun y => (y.1.encode, y.2)) ∧ last = last'.map fun y => (y.1.encode, y.2)) := by
  have hx : Conversing (Performed xs) x.1 x.2 := conversing_run (fun i _ hmem => ⟨i, hmem⟩) h
  refine ⟨run_of_talk h, fun c key hkey => ?_⟩
  have hheld : ∀ {i reused parser received}, (x.1.threads i).phase = .read c reused parser received →
      c ∈ x.1.cell (.held i) := by
    intro i reused parser received hph
    show c ∈ (x.1.threads i).phase.held
    rw [hph]
    exact List.mem_singleton_self c
  by_cases hp : c ∈ x.1.pool.conns
  · obtain ⟨k, hk⟩ := Pool.mem_conns_iff.mp hp
    obtain rfl := Option.some.inj ((hx.owned.targeted.pooled k c hk).symm.trans hkey)
    obtain ⟨past, hlog, hpast⟩ := hx.pooled k c hk
    refine ⟨past, none, hlog, hpast, nofun, fun _ => rfl, ?_, fun hasks hlast => ?_⟩
    · intro i reused parser received hph
      exact nomatch hx.owned.exclusive.unique (k := .pooled) (l := .held i) hp (hheld hph)
    · rw [hlog]
      exact serves_of_asks hasks hlast
  by_cases hr : ∃ i reused parser received, (x.1.threads i).phase = .read c reused parser received
  · obtain ⟨i, reused, parser, received, hph⟩ := hr
    have hstands := hx.stands i
    rw [hph] at hstands
    obtain ⟨hA, past, hlog, hpast⟩ := hstands
    have hkey' := hx.owned.targeted.exchange i c (by rw [hph]; rfl)
    obtain rfl := Option.some.inj (hkey'.symm.trans hkey)
    refine ⟨past, some ((x.1.threads i).job.raw, true), hlog, hpast, ?_, fun hp' => absurd hp' hp,
      fun j _ _ _ hj => ?_, fun hasks hlast => ?_⟩
    · rintro y hy
      cases hy
      exact hA
    · cases hx.owned.exclusive.unique (k := .held i) (l := .held j) (hheld hph) (hheld hj)
      rfl
    · rw [hlog]
      exact serves_of_asks hasks hlast
  · obtain ⟨last, ⟨past, hlog, hpast⟩, hlast⟩ := hx.told c key hkey
    refine ⟨past, last, hlog, hpast, hlast, fun hp' => absurd hp' hp,
      fun i reused parser received hph => absurd ⟨i, reused, parser, received, hph⟩ hr,
      fun hasks hlast => ?_⟩
    rw [hlog]
    exact serves_of_asks hasks hlast

def nestedJob : Job := ⟨(str "a.b", 443), nested.encode⟩

/-- A request, and another one over the same connection up to its read. -/
def reusing : List (ℕ × Action) :=
  pooledOnce 0 nestedJob ++ [.perform nestedJob, .take, .write true].map (1, ·)

theorem asks_nestedJob : Asks nestedJob :=
  ⟨nested, nested_sayable, rfl, RequestCall.build_eq nested_sayable⟩

theorem asks_of_reusing {i : ℕ} {job : Job} (h : (i, Action.perform job) ∈ reusing) : Asks job := by
  have hjob : job = nestedJob := by
    simp only [reusing, pooledOnce, List.map_cons, List.map_nil, List.mem_append, List.mem_cons,
      Prod.mk.injEq, Action.perform.injEq, reduceCtorEq, and_false, or_false, List.not_mem_nil] at h
    rcases h with ⟨-, hjob⟩ | ⟨-, hjob⟩
    · exact hjob
    · exact hjob
  rw [hjob]
  exact asks_nestedJob

theorem server_reads_reusing : ∃ (x : Client × Log) (past : List (RequestCall × Response))
    (last : Option (RequestCall × Bool)), run (talk noCodec) (init, fun _ => []) reusing = some x ∧
    (x.2 0).length = 3 ∧ Serves (str "a.b", 443) (x.2 0) past last := by
  have h : (run (talk noCodec) (init, fun _ => []) reusing).map
      (fun x => (x.1.opened[0]?, (x.2 0).length)) = some (some (str "a.b", 443), 3) := by
    decide +kernel
  obtain ⟨x, hx, heq⟩ := Option.map_eq_some_iff.mp h
  rw [Prod.mk.injEq] at heq
  obtain ⟨past, last, -, hpast, hlast, -, -, hserves⟩ := (server_reads noCodec hx).2 0 _ heq.1
  have hasks : ∀ job, Performed reusing job → Asks job := fun job ⟨i, h⟩ => asks_of_reusing h
  obtain ⟨past', last', hserves, -⟩ :=
    hserves (fun y hy => hasks _ (hpast y hy)) fun y hy => hasks _ (hlast y hy)
  exact ⟨x, past', last', hx, heq.2, hserves⟩

end Client

end Fizzpy
