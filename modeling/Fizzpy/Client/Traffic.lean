import Fizzpy.Client.Conversation
import Fizzpy.Client.Replies
import Fizzpy.Client.Segment
import Fizzpy.Foundation.Transcript

/-!
# What the core is asked on a connection

The operations that the tasks of an `AsyncClient` submit on one connection, in their order, each with what
its task was told of it. Whatever is cancelled when, they are one exchange after the other: a write, then
reads whose data makes a whole response, and only then the next write (`Talking`). The last one may be
broken off, and then the connection is not pooled. So a server reads just the requests that were performed
on the connection, however many of them it gets (`asks_in_turn`).
-/

namespace Fizzpy

open Foundation

namespace AsyncClient

/-! ## Exchanges -/

/-- An operation, with what its task was told. -/
abbrev Entry := Request × Option (Arrival Reply)

def traffic (s : Loop) (c : ConnId) : List Entry := s.transcript fun r => r.conn? = some c

/-- A read that was told its data. -/
def got (c : ConnId) (data : Bytes) : Entry := (.read c, some (.reply (.resolve data)))

/-- A write, and reads behind it. `done` is what the write was settled with. -/
def begun (c : ConnId) (raw done : Bytes) (pieces : List Bytes) : List Entry :=
  (.write c raw, some (.reply (.resolve done))) :: pieces.map (got c)

structure Exchanged where
  raw : Bytes
  done : Bytes
  pieces : List Bytes
  last : Bytes
  response : Response

def Exchanged.entries (c : ConnId) (x : Exchanged) : List Entry :=
  begun c x.raw x.done (x.pieces ++ [x.last])

/-- The pieces do not make the response yet, and the last piece, or the end, does. -/
def Exchanged.Answered (codec : Codec) (x : Exchanged) : Prop :=
  ∃ parser received q, Client.Reads codec (x.pieces.map .chunk) parser received x.pieces ∧
    (if x.last = [] then parser.feedEof codec = .ok q
      else parser.feed codec x.last = .ok q ∧ q.isComplete = true) ∧
    q.response = some x.response ∧ Client.reusable q x.response = true

/-- An exchange that is under way, or was broken off. -/
inductive Unanswered (c : ConnId) (P : Bytes → Prop) : List Entry → Prop
  | writing {raw : Bytes} {a : Option (Arrival Reply)} (h : P raw) : Unanswered c P [(.write c raw, a)]
  | reading {raw done : Bytes} {pieces : List Bytes} {a : Option (Arrival Reply)} (h : P raw) :
    Unanswered c P (begun c raw done pieces ++ [(.read c, a)])

/-! ## The invariant -/

section

variable (codec : Codec) (A : Job → Prop)

/-- Whole exchanges of a connection that was opened to `key`, and the rest behind them. -/
def Told (key : Key) (c : ConnId) (entries rest : List Entry) : Prop :=
  ∃ past : List Exchanged, entries = past.flatMap (Exchanged.entries c) ++ rest ∧
    ∀ x ∈ past, A ⟨key, x.raw⟩ ∧ x.Answered codec

def Known (key : Key) (c : ConnId) (entries : List Entry) : Prop :=
  ∃ rest, Told codec A key c entries rest ∧
    (rest = [] ∨ Unanswered c (fun raw => A ⟨key, raw⟩) rest)

/-- Where a task stands, at an await or outside of the code. -/
def Stands (T : ConnId → List Entry) (job : Job) : Phase → Prop
  | .idle => True
  | .connect => A job
  | .write c _ => A job ∧ Told codec A job.key c (T c) [(.write c job.raw, none)]
  | .read c _ parser received => A job ∧ ∃ done pieces,
      Client.Reads codec (pieces.map .chunk) parser received pieces ∧
      Told codec A job.key c (T c) (begun c job.raw done pieces ++ [(.read c, none)])
  | .take | .give _ _ | .close _ _ | .closeStale _ | .closing _ => False

structure Talking (s : Loop) : Prop where
  tended : Tended codec s
  known : ∀ c k, s.world.opened[c]? = some k → Known codec A k c (traffic s c)
  pooled : ∀ k c, s.world.pool.Has k c → Told codec A k c (traffic s c) []
  stands : ∀ t, Stands codec A (traffic s) (s.world.threads t).job (s.world.threads t).phase

end

variable {codec : Codec} {A : Job → Prop} {s s' : Loop} {t : ℕ} {key : Key} {c : ConnId}

/-! ## What is told -/

theorem got_told {data : Bytes} : (got c data).2 ≠ none := nofun

theorem begun_told {raw done : Bytes} {pieces : List Bytes} {e : Entry}
    (h : e ∈ begun c raw done pieces) : e.2 ≠ none := by
  rcases List.mem_cons.mp h with rfl | h
  · exact nofun
  · obtain ⟨data, -, rfl⟩ := List.mem_map.mp h
    exact got_told

theorem past_told {past : List Exchanged} {e : Entry} (h : e ∈ past.flatMap (Exchanged.entries c)) :
    e.2 ≠ none := by
  obtain ⟨x, -, he⟩ := List.mem_flatMap.mp h
  exact begun_told he

theorem Told.append {entries rest more : List Entry} (h : Told codec A key c entries rest) :
    Told codec A key c (entries ++ more) (rest ++ more) := by
  obtain ⟨past, rfl, hpast⟩ := h
  exact ⟨past, List.append_assoc .., hpast⟩

theorem Told.nil : Told codec A key c [] [] := ⟨[], rfl, nofun⟩

/-- One more exchange is whole. -/
theorem Told.answered {entries : List Entry} {x : Exchanged}
    (h : Told codec A key c entries (x.entries c)) (hA : A ⟨key, x.raw⟩) (hx : x.Answered codec) :
    Told codec A key c entries [] := by
  obtain ⟨past, rfl, hpast⟩ := h
  refine ⟨past ++ [x], by simp, fun y hy => ?_⟩
  rcases List.mem_append.mp hy with hy | hy
  · exact hpast y hy
  · rw [List.mem_singleton.mp hy]
    exact ⟨hA, hx⟩

/-- Where an exchange goes on behind a read: it reads on, or the loop is over, or it was stale. -/
theorem afterRead_cases {reused received : Bool} {parser : ResponseParser} {data : Bytes} {phase : Phase}
    (h : Client.afterRead codec c reused parser received (.chunk data) = .goOn phase) :
    (∃ q, data ≠ [] ∧ parser.feed codec data = .ok q ∧ q.isComplete = false ∧
      phase = .read c reused q true) ∨
    (∃ q, (if data = [] then parser.feedEof codec = .ok q
      else parser.feed codec data = .ok q ∧ q.isComplete = true) ∧
      Client.afterLoop c reused q = .goOn phase) ∨
    phase = .closeStale c := by
  by_cases hd : data = []
  · subst hd
    by_cases hstale : reused = true ∧ received = false
    · unfold Client.afterRead at h
      dsimp only at h
      rw [if_pos rfl, if_pos (by simpa using hstale)] at h
      cases h
      exact .inr (.inr rfl)
    · rw [Client.afterRead_end codec c reused parser received hstale] at h
      split at h
      · rename_i q hq
        exact .inr (.inl ⟨q, by rwa [if_pos rfl], h⟩)
      · cases h
  · rw [Client.afterRead_data codec c reused parser received hd] at h
    split at h
    · rename_i q hq
      split_ifs at h with hcomplete
      · exact .inr (.inl ⟨q, by rw [if_neg hd]; exact ⟨hq, hcomplete⟩, h⟩)
      · cases h
        exact .inl ⟨q, hd, hq, by simpa using hcomplete, rfl⟩
    · cases h

/-- A connection is given back when the response is whole. -/
theorem answered_of_give {reused received : Bool} {parser : ResponseParser} {pieces : List Bytes}
    {data : Bytes} {c' : ConnId} {r : Response}
    (hr : Client.Reads codec (pieces.map .chunk) parser received pieces)
    (h : Client.afterRead codec c reused parser received (.chunk data) = .goOn (.give c' r))
    (raw done : Bytes) : c' = c ∧ Exchanged.Answered codec ⟨raw, done, pieces, data, r⟩ := by
  obtain ⟨q, -, -, -, heq⟩ | ⟨q, hq, hloop⟩ | heq := afterRead_cases h
  · cases heq
  · obtain ⟨r', hr', ⟨heq, hu⟩ | ⟨heq, -⟩⟩ | ⟨-, -, heq⟩ := Client.afterLoop_goOn hloop
    · cases heq
      exact ⟨rfl, parser, received, q, hr, hq, hr', hu⟩
    · cases heq
    · cases heq
  · cases heq

/-- An exchange that reads on has one piece more. -/
theorem reads_of_goOn {reused reused' received received' : Bool} {parser q : ResponseParser}
    {pieces : List Bytes} {data : Bytes} {c' : ConnId}
    (hr : Client.Reads codec (pieces.map .chunk) parser received pieces)
    (h : Client.afterRead codec c reused parser received (.chunk data) =
      .goOn (.read c' reused' q received')) :
    c' = c ∧ Client.Reads codec ((pieces ++ [data]).map .chunk) q received' (pieces ++ [data]) := by
  obtain ⟨q', hd, hq, hc, heq⟩ | ⟨q', -, hloop⟩ | heq := afterRead_cases h
  · cases heq
    refine ⟨rfl, ?_⟩
    rw [List.map_append]
    exact hr.snoc hd hq hc
  · obtain ⟨r', -, ⟨heq, -⟩ | ⟨heq, -⟩⟩ | ⟨-, -, heq⟩ := Client.afterLoop_goOn hloop
    · cases heq
    · cases heq
    · cases heq
  · cases heq

theorem afterRead_failed (codec : Codec) (c : ConnId) (reused : Bool) (parser : ResponseParser)
    (received : Bool) :
    Client.afterRead codec c reused parser received .failed = .goOn (.closeStale c) ∨
      Client.afterRead codec c reused parser received .failed = .raised .transport := by
  unfold Client.afterRead
  dsimp only
  split_ifs
  · exact .inl rfl
  · exact .inr rfl

/-! ## The frame -/

/-- What a task asks for, as the last line of a connection's traffic. -/
def asked (w : Client) (t : ℕ) (c : ConnId) : List Entry :=
  ((asks w t).filter fun r => r.conn? = some c).toList.map (·, none)

theorem asks_connect {w : Client} (hph : (w.threads t).phase = .connect) :
    asks w t = some (.connect (w.threads t).job.key) := by
  unfold asks
  rw [hph]

theorem asks_write {w : Client} {reused : Bool} (hph : (w.threads t).phase = .write c reused) :
    asks w t = some (.write c (w.threads t).job.raw) := by
  unfold asks
  rw [hph]

theorem asks_read {w : Client} {reused received : Bool} {parser : ResponseParser}
    (hph : (w.threads t).phase = .read c reused parser received) : asks w t = some (.read c) := by
  unfold asks
  rw [hph]

theorem asked_other {w : Client} (h : (w.threads t).phase.conn? ≠ some c) : asked w t c = [] := by
  unfold asked
  cases hr : asks w t with
  | none => rfl
  | some r =>
    have hne : r.conn? ≠ some c := fun hc => h (held_of_asks hr hc)
    simp [Option.filter, hne]

theorem asked_self {w : Client} {r : Request} (hr : asks w t = some r) (hc : r.conn? = some c) :
    asked w t c = [(r, none)] := by
  unfold asked
  simp [hr, Option.filter, hc]

theorem traffic_suspend {w : Client} (h : s.Tied) (ha : (s.waiters t).awaits = none) (c : ConnId) :
    traffic (s.suspend (program codec) t w) c = traffic s c ++ asked w t c :=
  EventLoop.transcript_suspend h ha

/-- Only the connection `c₀` has something new, and what concerns it is put in order. -/
theorem Talking.turn (c₀ : ConnId) (h : Talking codec A s) (hs' : Tended codec s')
    (hthreads : ∀ u, u ≠ t → s'.world.threads u = s.world.threads u)
    (htraffic : ∀ c, c ≠ c₀ → traffic s' c = traffic s c)
    (hown : ∀ u, u ≠ t → (s.world.threads u).phase.conn? ≠ some c₀)
    (hopened : s'.world.opened = s.world.opened ∨
      c₀ = s.world.opened.length ∧ ∃ k, s'.world.opened = s.world.opened ++ [k])
    (hknown : ∀ k, s'.world.opened[c₀]? = some k → Known codec A k c₀ (traffic s' c₀))
    (hpool : ∀ k c, s'.world.pool.Has k c →
      c ≠ c₀ ∧ s.world.pool.Has k c ∨ Told codec A k c (traffic s' c) [])
    (hself : Stands codec A (traffic s') (s'.world.threads t).job (s'.world.threads t).phase) :
    Talking codec A s' where
  tended := hs'
  known := fun c k hk => by
    by_cases hc : c = c₀
    · subst hc
      exact hknown k hk
    · rw [htraffic c hc]
      refine h.known c k ?_
      rcases hopened with heq | ⟨rfl, k', heq⟩
      · rwa [heq] at hk
      · rw [heq] at hk
        obtain ⟨hlt, -⟩ := List.getElem?_eq_some_iff.mp hk
        rw [List.length_append, List.length_singleton] at hlt
        have hlt' : c < s.world.opened.length := Nat.lt_of_le_of_ne (Nat.lt_succ_iff.mp hlt) hc
        rwa [List.getElem?_append_left hlt'] at hk
  pooled := fun k c hc => by
    obtain ⟨hne, hhas⟩ | htold := hpool k c hc
    · rw [htraffic c hne]
      exact h.pooled k c hhas
    · exact htold
  stands := fun u => by
    by_cases hu : u = t
    · subst hu
      exact hself
    · rw [hthreads u hu]
      have hstands := h.stands u
      have hne : ∀ c, (s.world.threads u).phase.conn? = some c → traffic s' c = traffic s c := by
        intro c hc
        refine htraffic c fun heq => hown u hu ?_
        rw [hc, heq]
      cases hph : (s.world.threads u).phase with
      | idle => trivial
      | take | give | close | closeStale | closing =>
        rw [hph] at hstands
        exact hstands
      | connect =>
        rw [hph] at hstands
        exact hstands
      | write c reused =>
        rw [hph] at hstands hne
        refine ⟨hstands.1, ?_⟩
        rw [hne c rfl]
        exact hstands.2
      | read c reused parser received =>
        rw [hph] at hstands hne
        obtain ⟨hA, done, pieces, hreads, htold⟩ := hstands
        refine ⟨hA, done, pieces, hreads, ?_⟩
        rw [hne c rfl]
        exact htold

theorem unopened (h : Tended codec s) (hc : s.world.opened.length ≤ c) : traffic s c = [] := by
  refine List.filterMap_eq_nil_iff.mpr fun f _ => ?_
  unfold EventLoop.line
  cases hf : s.ops[f]? with
  | none => rfl
  | some op =>
    rw [Option.map_some, Option.bind_some]
    refine if_neg fun hop => ?_
    exact absurd (h.opened hf hop) (Nat.not_lt.mpr hc)

/-- A connection that a task has is with no other, nor in the pool. -/
theorem held_alone {s : Client} (h : s.Owned) (hc : (s.threads t).phase.conn? = some c) :
    (∀ u, u ≠ t → (s.threads u).phase.conn? ≠ some c) ∧ ∀ k, ¬ s.pool.Has k c := by
  refine ⟨fun u hu hconn => hu ?_, fun k hk => ?_⟩
  · cases h.exclusive.unique (Client.mem_held hconn) (Client.mem_held hc)
    rfl
  · exact nomatch h.exclusive.unique (k := .pooled) (l := .held t) (Pool.mem_conns_iff.mpr ⟨k, hk⟩)
      (Client.mem_held hc)

/-- The connection of the task's exchange is its own. -/
theorem Talking.alone (h : Talking codec A s) (hconn : (s.world.threads t).phase.conn? = some c) :
    (∀ u, u ≠ t → (s.world.threads u).phase.conn? ≠ some c) ∧ ∀ k, ¬ s.world.pool.Has k c :=
  held_alone h.tended.owned hconn

/-- A task that goes on to nothing on a connection, with the pool as it was or smaller. -/
theorem Talking.rest {pool : Pool} {phase : Phase} (c₀ : ConnId) (h : Talking codec A s)
    (hs' : Tended codec s') (hthreads : ∀ u, u ≠ t → s'.world.threads u = s.world.threads u)
    (hled : Led s.world s'.world t (pool, phase)) (hconn : phase = .idle ∨ phase = .connect)
    (hA : phase = .connect → A (s.world.threads t).job)
    (htraffic : ∀ c, c ≠ c₀ → traffic s' c = traffic s c)
    (hown : ∀ u, u ≠ t → (s.world.threads u).phase.conn? ≠ some c₀)
    (hknown : ∀ k, s.world.opened[c₀]? = some k → Known codec A k c₀ (traffic s' c₀))
    (hpool : ∀ k c, pool.Has k c → c ≠ c₀ ∧ s.world.pool.Has k c ∨ Told codec A k c (traffic s' c) []) :
    Talking codec A s' := by
  refine h.turn c₀ hs' hthreads htraffic hown (.inl hled.opened) (hled.opened ▸ hknown) ?_ ?_
  · rw [hled.pool]
    exact hpool
  · rw [hled.phase, hled.job]
    rcases hconn with rfl | rfl
    · trivial
    · exact hA rfl

/-! ## Steps -/

theorem known_unopened {s : Client} {k : Key} {P : Prop} (h : s.opened[s.opened.length]? = some k) : P := by
  rw [List.getElem?_length] at h
  cases h

theorem conn_ne_unopened {s : Client} (h : s.Owned) (u : ℕ) :
    (s.threads u).phase.conn? ≠ some s.opened.length :=
  fun hc => known_unopened (h.targeted.exchange u _ hc)

theorem ne_unopened {s : Client} (h : s.Owned) {k : Key} (hc : s.pool.Has k c) : c ≠ s.opened.length := by
  rintro rfl
  exact known_unopened (h.targeted.pooled _ _ hc)

theorem talking_enter {call : Call} {world : Client} (h : Talking codec A s)
    (hA : ∀ job, call = .perform job → A job) (ha : (s.waiters t).awaits = none)
    (henter : enter codec s.world t call = some world)
    (hs' : Tended codec (s.suspend (program codec) t world)) :
    Talking codec A (s.suspend (program codec) t world) := by
  have hworld : (s.suspend (program codec) t world).world = world := EventLoop.suspend_world t world
  have hthreads : ∀ u, u ≠ t →
      (s.suspend (program codec) t world).world.threads u = s.world.threads u := by
    intro u hu
    rw [hworld]
    exact threads_enter_ne henter hu
  have htraffic : ∀ c, traffic (s.suspend (program codec) t world) c = traffic s c ++ asked world t c :=
    traffic_suspend h.tended.wired.toTied ha
  have hquiet : ∀ c, (world.threads t).phase.conn? ≠ some c →
      traffic (s.suspend (program codec) t world) c = traffic s c := by
    intro c hc
    rw [htraffic, asked_other hc, List.append_nil]
  have howned := h.tended.owned
  cases call with
  | aclose =>
    have hled := enter_aclose henter
    refine h.rest s.world.opened.length hs' hthreads (hworld.symm ▸ hled) (.inl rfl) nofun
      (fun c _ => hquiet c (by rw [hled.phase]; exact nofun)) (fun u _ => conn_ne_unopened howned u)
      (fun k hk => known_unopened hk) ?_
    rintro k c ⟨_, hmem, _⟩
    cases hmem
  | perform job =>
    obtain ⟨-, hopened, hjob, ⟨c, hp, hph⟩ | ⟨hp, hph⟩⟩ := enter_perform henter
    · obtain ⟨hhas, -, hsub⟩ := Pool.take_spec hp
      have hself : traffic (s.suspend (program codec) t world) c =
          traffic s c ++ [(.write c job.raw, none)] := by
        rw [htraffic, asked_self (asks_write hph) rfl, hjob]
      have htold : Told codec A job.key c (traffic s c ++ [(.write c job.raw, none)])
          [(.write c job.raw, none)] := (h.pooled _ _ hhas).append
      rw [← hself] at htold
      refine h.turn c hs' hthreads (fun c' hc' => hquiet c' ?_) (fun u hu hu' => ?_)
        (.inl ((congrArg Client.opened hworld).trans hopened)) (fun k hk => ?_) (fun k c' hc' => .inl ?_) ?_
      · rw [hph]
        exact fun heq => hc' (Option.some.inj heq).symm
      · exact (held_alone howned hu').2 _ hhas
      · rw [hworld, hopened] at hk
        obtain rfl := Option.some.inj ((howned.targeted.pooled _ _ hhas).symm.trans hk)
        exact ⟨_, htold, .inr (.writing (hA job rfl))⟩
      · rw [hworld] at hc'
        refine ⟨?_, hsub k c' hc'⟩
        rintro rfl
        have howned' := hs'.owned
        rw [hworld] at howned'
        exact (held_alone howned' (by rw [hph]; rfl)).2 k hc'
      · rw [hworld, hph, hjob]
        exact ⟨hA job rfl, htold⟩
    · refine h.turn s.world.opened.length hs' hthreads
        (fun c _ => hquiet c (by rw [hph]; exact nofun)) (fun u _ => conn_ne_unopened howned u)
        (.inl ((congrArg Client.opened hworld).trans hopened)) (fun k hk => ?_) (fun k c hc => .inl ?_) ?_
      · rw [hworld, hopened] at hk
        exact known_unopened hk
      · rw [hworld, hp] at hc
        exact ⟨ne_unopened howned hc, hc⟩
      · rw [hworld, hph, hjob]
        exact hA job rfl

/-- A task has been told what its await came to, and has gone on to its next one. -/
structure Woken (codec : Codec) (s s' : Loop) (t : ℕ) (r : Request) (a : Arrival Reply) : Prop where
  tended : Tended codec s'
  asking : asks s.world t = some r
  world : s'.world = resume codec s.world t a
  quiet : ∀ c, r.conn? ≠ some c → traffic s' c = traffic s c ++ asked s'.world t c
  told : ∀ c entries, r.conn? = some c → traffic s c = entries ++ [(r, none)] →
    (∀ e ∈ entries, e.2 ≠ none) → traffic s' c = entries ++ [(r, some a)] ++ asked s'.world t c

theorem woken {f : ℕ} {op : Op Request Reply} {a : Arrival Reply} {ready : List (Handle Reply)}
    (h : Tended codec s) (hq : s.ready = .wakeup f :: ready) (hf : s.ops[f]? = some op)
    (ha : EventLoop.arrival (s.waiters op.task).mustCancel op.future = some a)
    (hs' : s' = (EventLoop.setWaiter { s with ready, log := s.log ++ [(f, a)] } op.task {}).suspend
      (program codec) op.task (resume codec s.world op.task a))
    (ht : Tended codec s') : Woken codec s s' op.task op.request a := by
  obtain ⟨haw, htied⟩ := EventLoop.tied_wakeup h.wired.toTied hq hf ha
  have hasks : asks s.world op.task = some op.request := h.wired.asks_of_awaits haw hf
  have hheard : s.heard f = [] := by
    rcases (h.wired.op hf).once with hheard | hheard
    · exact hheard.2
    · exact absurd haw hheard.1
  have hworld : s'.world = resume codec s.world op.task a := by
    rw [hs']
    exact EventLoop.suspend_world ..
  have htraffic : ∀ c, traffic s' c =
      traffic (EventLoop.setWaiter { s with ready, log := s.log ++ [(f, a)] } op.task {}) c ++
        asked s'.world op.task c := by
    rw [hworld, hs']
    exact traffic_suspend htied (by rw [EventLoop.waiters_setWaiter_self])
  refine ⟨ht, hasks, hworld, fun c hc => ?_, fun c entries hc hentries htold => ?_⟩
  · rw [htraffic]
    congr 1
    exact EventLoop.transcript_tell_ne hf rfl rfl hc
  · rw [htraffic]
    congr 1
    exact EventLoop.transcript_tell hf rfl rfl hheard hc htold hentries

namespace Woken

variable {r : Request} {a : Arrival Reply}

theorem threads (h : Woken codec s s' t r a) : ∀ u, u ≠ t → s'.world.threads u = s.world.threads u := by
  intro u hu
  rw [h.world]
  exact threads_resume_ne hu a s.world

/-- Whatever the connect comes to. -/
theorem connect (h : Woken codec s s' t r a) (hs : Talking codec A s)
    (hph : (s.world.threads t).phase = .connect) : Talking codec A s' := by
  have howned := hs.tended.owned
  have hstands := hs.stands t
  rw [hph] at hstands
  have hr : r.conn? = none := by
    have hasks := (asks_connect hph).symm.trans h.asking
    cases hasks
    rfl
  have hfailed : Led s.world s'.world t (s.world.pool, .idle) → Talking codec A s' := by
    intro hled
    refine hs.rest s.world.opened.length h.tended h.threads hled (.inl rfl) nofun (fun c _ => ?_)
      (fun u _ => conn_ne_unopened howned u) (fun k hk => known_unopened hk)
      (fun k c hc => .inl ⟨ne_unopened howned hc, hc⟩)
    rw [h.quiet c (by rw [hr]; exact nofun), asked_other (by rw [hled.phase]; exact nofun),
      List.append_nil]
  have hworld := h.world
  cases a with
  | cancelled => exact hfailed (hworld.symm ▸ abandon_led)
  | reply x =>
    cases x with
    | reject => exact hfailed (hworld.symm ▸ resume_refused hph)
    | resolve data =>
      obtain ⟨hpool, hopened, hjob, hphase⟩ := resume_connected codec hph data
      rw [← hworld] at hpool hopened hjob hphase
      have hself : traffic s' s.world.opened.length =
          [(.write s.world.opened.length (s.world.threads t).job.raw, none)] := by
        rw [h.quiet _ (by rw [hr]; exact nofun), unopened hs.tended le_rfl,
          asked_self (asks_write hphase) rfl, hjob]
        rfl
      have htold : ∀ k, Told codec A k s.world.opened.length (traffic s' s.world.opened.length)
          [(.write s.world.opened.length (s.world.threads t).job.raw, none)] := by
        intro k
        rw [hself]
        exact Told.nil.append
      refine hs.turn s.world.opened.length h.tended h.threads (fun c hc => ?_)
        (fun u _ => conn_ne_unopened howned u) (.inr ⟨rfl, _, hopened⟩) (fun k hk => ?_)
        (fun k c hc => .inl ?_) ?_
      · rw [h.quiet c (by rw [hr]; exact nofun), asked_other, List.append_nil]
        rw [hphase]
        exact fun heq => hc (Option.some.inj heq).symm
      · rw [hopened, List.getElem?_concat_length, Option.some.injEq] at hk
        subst hk
        exact ⟨_, htold _, .inr (.writing hstands)⟩
      · rw [hpool] at hc
        exact ⟨ne_unopened howned hc, hc⟩
      · rw [hphase, hjob]
        exact ⟨hstands, htold _⟩

/-- What the task awaited is told, and what it asks for now stands behind it. -/
theorem completed {rest : List Entry} (h : Woken codec s s' t r a) (hr : r.conn? = some c)
    (htold : Told codec A key c (traffic s c) (rest ++ [(r, none)])) (hrest : ∀ e ∈ rest, e.2 ≠ none) :
    Told codec A key c (traffic s' c) (rest ++ [(r, some a)] ++ asked s'.world t c) := by
  obtain ⟨past, heq, hpast⟩ := htold
  refine ⟨past, ?_, hpast⟩
  rw [← List.append_assoc] at heq
  rw [h.told c _ hr heq fun e he => ?_]
  · simp only [List.append_assoc]
  · rcases List.mem_append.mp he with he | he
    · exact past_told he
    · exact hrest e he

/-- No other connection has anything new. -/
theorem others (h : Woken codec s s' t r a) (hr : r.conn? = some c)
    (hphase : ∀ c', (s'.world.threads t).phase.conn? = some c' → c' = c) {c' : ConnId} (hc : c' ≠ c) :
    traffic s' c' = traffic s c' := by
  rw [h.quiet c' (by rw [hr]; exact fun heq => hc (Option.some.inj heq).symm),
    asked_other fun heq => hc (hphase c' heq), List.append_nil]

/-- The exchange is over, and its connection is not given back. -/
theorem broken {rest : List Entry} {phase : Phase} (h : Woken codec s s' t r a) (hs : Talking codec A s)
    (hconn : (s.world.threads t).phase.conn? = some c) (hr : r.conn? = some c)
    (htold : Told codec A (s.world.threads t).job.key c (traffic s c) (rest ++ [(r, none)]))
    (hrest : ∀ e ∈ rest, e.2 ≠ none)
    (hopen : Unanswered c (fun raw => A ⟨(s.world.threads t).job.key, raw⟩) (rest ++ [(r, some a)]))
    (hA : A (s.world.threads t).job) (hled : Led s.world s'.world t (s.world.pool, phase))
    (hphase : phase = .idle ∨ phase = .connect) : Talking codec A s' := by
  have howned := hs.tended.owned
  obtain ⟨halone, hpooled⟩ := hs.alone hconn
  have hnone : (s'.world.threads t).phase.conn? = none := by
    rw [hled.phase]
    rcases hphase with rfl | rfl <;> rfl
  refine hs.rest c h.tended h.threads hled hphase (fun _ => hA)
    (fun c' hc' => h.others hr (by rw [hnone]; exact nofun) hc') halone (fun k hk => ?_)
    (fun k c' hc' => .inl ⟨?_, hc'⟩)
  · obtain rfl := Option.some.inj ((howned.targeted.exchange t c hconn).symm.trans hk)
    have hnow := h.completed hr htold hrest
    rw [asked_other (by rw [hnone]; exact nofun), List.append_nil] at hnow
    exact ⟨_, hnow, .inr hopen⟩
  · rintro rfl
    exact hpooled k hc'

/-- The exchange goes on to its next read. -/
theorem goesOn {rest : List Entry} {reused received : Bool} {parser : ResponseParser} {done : Bytes}
    {pieces : List Bytes} (h : Woken codec s s' t r a) (hs : Talking codec A s)
    (hconn : (s.world.threads t).phase.conn? = some c) (hr : r.conn? = some c)
    (htold : Told codec A (s.world.threads t).job.key c (traffic s c) (rest ++ [(r, none)]))
    (hrest : ∀ e ∈ rest, e.2 ≠ none)
    (hbegun : rest ++ [(r, some a)] = begun c (s.world.threads t).job.raw done pieces)
    (hA : A (s.world.threads t).job)
    (hled : Led s.world s'.world t (s.world.pool, .read c reused parser received))
    (hreads : Client.Reads codec (pieces.map .chunk) parser received pieces) : Talking codec A s' := by
  have howned := hs.tended.owned
  obtain ⟨halone, hpooled⟩ := hs.alone hconn
  have hnow := h.completed hr htold hrest
  rw [asked_self (asks_read hled.phase) rfl, hbegun] at hnow
  refine hs.turn c h.tended h.threads (fun c' hc' => h.others hr (fun c'' hc'' => ?_) hc') halone
    (.inl hled.opened) (fun k hk => ?_) (fun k c' hc' => .inl ?_) ?_
  · rw [hled.phase] at hc''
    exact (Option.some.inj hc'').symm
  · rw [hled.opened] at hk
    obtain rfl := Option.some.inj ((howned.targeted.exchange t c hconn).symm.trans hk)
    exact ⟨_, hnow, .inr (.reading hA)⟩
  · rw [hled.pool] at hc'
    refine ⟨?_, hc'⟩
    rintro rfl
    exact hpooled k hc'
  · rw [hled.phase, hled.job]
    exact ⟨hA, done, pieces, hreads, hnow⟩

/-- The exchange is whole, and its connection is given back. -/
theorem gives {rest : List Entry} (x : Exchanged) (h : Woken codec s s' t r a) (hs : Talking codec A s)
    (hconn : (s.world.threads t).phase.conn? = some c) (hr : r.conn? = some c)
    (htold : Told codec A (s.world.threads t).job.key c (traffic s c) (rest ++ [(r, none)]))
    (hrest : ∀ e ∈ rest, e.2 ≠ none) (hwhole : rest ++ [(r, some a)] = x.entries c)
    (hA : A ⟨(s.world.threads t).job.key, x.raw⟩)
    (hled : Led s.world s'.world t (s.world.pool.give (s.world.threads t).job.key c, .idle))
    (hx : x.Answered codec) : Talking codec A s' := by
  have hnow := h.completed hr htold hrest
  rw [asked_other (by rw [hled.phase]; exact nofun), List.append_nil, hwhole] at hnow
  have hnow := hnow.answered hA hx
  have halone := hs.alone hconn
  refine hs.rest c h.tended h.threads hled (.inl rfl) nofun
    (fun c' hc' => h.others hr (by rw [hled.phase]; exact nofun) hc') halone.1 (fun k hk => ?_)
    (fun k c' hc' => ?_)
  · obtain rfl := Option.some.inj ((hs.tended.owned.targeted.exchange t c hconn).symm.trans hk)
    exact ⟨[], hnow, .inl rfl⟩
  · obtain hhas | ⟨rfl, rfl⟩ := Pool.has_give hc'
    · refine .inl ⟨?_, hhas⟩
      rintro rfl
      exact halone.2 k hhas
    · exact .inr hnow

/-- Whatever the write comes to. -/
theorem write {reused : Bool} (h : Woken codec s s' t r a) (hs : Talking codec A s)
    (hph : (s.world.threads t).phase = .write c reused) : Talking codec A s' := by
  have hstands := hs.stands t
  rw [hph] at hstands
  obtain ⟨hA, htold⟩ := hstands
  have hasks := (asks_write hph).symm.trans h.asking
  cases hasks
  have htold : Told codec A (s.world.threads t).job.key c (traffic s c)
      ([] ++ [(.write c (s.world.threads t).job.raw, none)]) := htold
  have hbroken : ∀ {phase : Phase}, (phase = .idle ∨ phase = .connect) →
      Led s.world s'.world t (s.world.pool, phase) → Talking codec A s' := fun hphase hled =>
    h.broken hs (by rw [hph]; rfl) rfl htold nofun (.writing hA) hA hled hphase
  have hworld := h.world
  cases a with
  | cancelled => exact hbroken (.inl rfl) (hworld.symm ▸ abandon_led)
  | reply x =>
    have hled := resume_write codec hph x
    rw [← hworld] at hled
    cases x with
    | reject =>
      cases reused with
      | true => exact hbroken (.inr rfl) hled
      | false => exact hbroken (.inl rfl) hled
    | resolve data =>
      have hbegun : [] ++ [(Request.write c (s.world.threads t).job.raw,
          some (Arrival.reply (Reply.resolve data)))] = begun c (s.world.threads t).job.raw data [] := rfl
      exact h.goesOn hs (by rw [hph]; rfl) rfl htold nofun hbegun hA hled (Client.reads_nil codec)

/-- Whatever a read comes to. -/
theorem read {reused received : Bool} {parser : ResponseParser} (h : Woken codec s s' t r a)
    (hs : Talking codec A s) (hph : (s.world.threads t).phase = .read c reused parser received) :
    Talking codec A s' := by
  have howned := hs.tended.owned
  have hconn : (s.world.threads t).phase.conn? = some c := by
    rw [hph]
    rfl
  have hstands := hs.stands t
  rw [hph] at hstands
  obtain ⟨hA, done, pieces, hreads, htold⟩ := hstands
  have hasks := (asks_read hph).symm.trans h.asking
  cases hasks
  have hrest : ∀ e ∈ begun c (s.world.threads t).job.raw done pieces, e.2 ≠ none := fun _ => begun_told
  have hbroken : ∀ {phase : Phase}, (phase = .idle ∨ phase = .connect) →
      Led s.world s'.world t (s.world.pool, phase) → Talking codec A s' := fun hphase hled =>
    h.broken hs hconn rfl htold hrest (.reading hA) hA hled hphase
  have hworld := h.world
  cases a with
  | cancelled => exact hbroken (.inl rfl) (hworld.symm ▸ abandon_led)
  | reply x =>
    have hled := resume_read codec hph x
    rw [← hworld] at hled
    cases x with
    | reject =>
      obtain hout | hout := afterRead_failed codec c reused parser received
      · rw [Reply.read, hout] at hled
        exact hbroken (.inr rfl) hled
      · rw [Reply.read, hout] at hled
        exact hbroken (.inl rfl) hled
    | resolve data =>
      rw [Reply.read] at hled
      have hmore : begun c (s.world.threads t).job.raw done pieces ++
          [(Request.read c, some (Arrival.reply (Reply.resolve data)))] =
          begun c (s.world.threads t).job.raw done (pieces ++ [data]) := by
        unfold begun
        rw [List.map_append]
        rfl
      have hkeeps := Client.afterRead_keeps codec c reused parser received (.chunk data)
      cases ho : Client.afterRead codec c reused parser received (.chunk data) with
      | returned r =>
        rw [ho] at hkeeps
        exact absurd hkeeps id
      | raised e =>
        rw [ho] at hled
        exact hbroken (.inl rfl) hled
      | goOn phase =>
        rw [ho] at hled
        obtain ⟨q, -, -, -, rfl⟩ | ⟨q, -, hloop⟩ | rfl := afterRead_cases ho
        · exact h.goesOn hs hconn rfl htold hrest hmore hA hled (reads_of_goOn hreads ho).2
        · obtain ⟨r, -, ⟨rfl, -⟩ | ⟨rfl, -⟩⟩ | ⟨-, -, rfl⟩ := Client.afterLoop_goOn hloop
          · exact h.gives ⟨(s.world.threads t).job.raw, done, pieces, data, r⟩ hs hconn rfl htold hrest
              hmore hA hled (answered_of_give hreads ho _ done).2
          · exact hbroken (.inl rfl) hled
          · exact hbroken (.inr rfl) hled
        · exact hbroken (.inr rfl) hled

end Woken

/-- A step that tells no task anything and submits nothing. -/
theorem Talking.same (h : Talking codec A s) (hs' : Tended codec s') (hworld : s'.world = s.world)
    (htraffic : ∀ c, traffic s' c = traffic s c) : Talking codec A s' := by
  have heq : traffic s' = traffic s := funext htraffic
  refine ⟨hs', ?_, ?_, ?_⟩
  · rw [hworld, heq]
    exact h.known
  · rw [hworld, heq]
    exact h.pooled
  · rw [hworld, heq]
    exact h.stands

theorem talking_step {e : EventLoop.Event Call Reply} (h : Talking codec A s)
    (hA : ∀ t job, e = .enter t (.perform job) → A job)
    (hs : EventLoop.step (program codec) s e = some s') : Talking codec A s' := by
  have ht := tended_step h.tended hs
  cases EventLoop.step_does (program codec) hs with
  | settle hf hr => exact h.same ht rfl fun c => EventLoop.transcript_set hf rfl rfl rfl
  | cancelFuture ha hf hp => exact h.same ht rfl fun c => EventLoop.transcript_set hf rfl rfl rfl
  | callback hq hf => exact h.same ht rfl fun c => EventLoop.transcript_set hf rfl rfl rfl
  | mark he => exact h.same ht rfl fun c => rfl
  | @enter t call world ha henter =>
    refine talking_enter h (fun job hjob => hA t job ?_) ha henter ht
    rw [hjob]
  | @wakeup f op a ready hq hf ha =>
    have hw := woken h.tended hq hf ha rfl ht
    have hstands := h.stands op.task
    cases hph : (s.world.threads op.task).phase with
    | connect => exact hw.connect h hph
    | write c reused => exact hw.write h hph
    | read c reused parser received => exact hw.read h hph
    | idle =>
      have hasks := hw.asking
      unfold asks at hasks
      rw [hph] at hasks
      cases hasks
    | take | give | close | closeStale | closing =>
      rw [hph] at hstands
      exact absurd hstands id

/-! ## Runs -/

theorem talking_start : Talking codec A start where
  tended := tended_start
  known := nofun
  pooled := by
    rintro k c ⟨_, hmem, _⟩
    cases hmem
  stands := fun _ => trivial

theorem talking_run {es : List (EventLoop.Event Call Reply)}
    (hA : ∀ t job, EventLoop.Event.enter t (.perform job) ∈ es → A job)
    (h : run (EventLoop.step (program codec)) start es = some s) : Talking codec A s :=
  run_history (I := fun _ s => Talking codec A s)
    (V := fun e : EventLoop.Event Call Reply => ∀ t job, e = .enter t (.perform job) → A job)
    (fun _ _ _ _ hi hv hs => talking_step hi hv hs)
    (fun _ he t job heq => hA t job (heq ▸ he)) [] talking_start h

/-! ## What the server reads -/

/-- The writes, in the order in which they were submitted. -/
def writes (entries : List Entry) : List Bytes :=
  entries.filterMap fun
    | (.write _ raw, _) => some raw
    | _ => none

theorem writes_begun (c : ConnId) (raw done : Bytes) (pieces : List Bytes) :
    writes (begun c raw done pieces) = [raw] := by
  have hreads : writes (pieces.map (got c)) = [] := by
    unfold writes
    rw [List.filterMap_map]
    exact List.filterMap_eq_nil_iff.mpr fun _ _ => rfl
  show raw :: writes (pieces.map (got c)) = [raw]
  rw [hreads]

theorem writes_append (as bs : List Entry) : writes (as ++ bs) = writes as ++ writes bs :=
  List.filterMap_append ..

theorem writes_past (c : ConnId) (past : List Exchanged) :
    writes (past.flatMap (Exchanged.entries c)) = past.map Exchanged.raw := by
  induction past with
  | nil => rfl
  | cons x past ih =>
    rw [List.flatMap_cons, writes_append, ih, Exchanged.entries, writes_begun]
    rfl

theorem writes_reading (c : ConnId) (raw done : Bytes) (pieces : List Bytes) (a : Option (Arrival Reply)) :
    writes (begun c raw done pieces ++ [(.read c, a)]) = [raw] := by
  rw [writes_append, writes_begun]
  rfl

theorem Unanswered.writes {P : Bytes → Prop} {rest : List Entry} (h : Unanswered c P rest) :
    ∃ raw, writes rest = [raw] ∧ P raw := by
  cases h with
  | writing h => exact ⟨_, rfl, h⟩
  | reading h => exact ⟨_, writes_reading .., h⟩

/-- Whole exchanges and a rest, where `A` holds of every request. -/
structure InTurn (codec : Codec) (A : Job → Prop) (key : Key) (c : ConnId) (entries rest : List Entry)
    (past : List Exchanged) : Prop where
  parts : entries = past.flatMap (Exchanged.entries c) ++ rest
  answered : ∀ x ∈ past, x.Answered codec
  unanswered : rest = [] ∨ Unanswered c (fun raw => A ⟨key, raw⟩) rest
  asked : ∀ raw ∈ writes entries, A ⟨key, raw⟩

/-- The calls whose requests are written, and what a server reads that has got any number of them. -/
structure Speaks (key : Key) (entries : List Entry) (calls : List RequestCall) : Prop where
  written : writes entries = calls.map RequestCall.encode
  sayable : ∀ call ∈ calls, call.Sayable ∧ call.host = key.1
  read : ∀ n, readRequests ((calls.take n).flatMap RequestCall.encode) =
    some ((calls.take n).map RequestCall.request)

theorem inTurn_of_told {entries rest : List Entry} (h : Told codec A key c entries rest)
    (hrest : rest = [] ∨ Unanswered c (fun raw => A ⟨key, raw⟩) rest) :
    ∃ past, InTurn codec A key c entries rest past := by
  obtain ⟨past, rfl, hpast⟩ := h
  refine ⟨past, rfl, fun x hx => (hpast x hx).2, hrest, fun raw hraw => ?_⟩
  rw [writes_append, writes_past] at hraw
  rcases List.mem_append.mp hraw with hraw | hraw
  · obtain ⟨x, hx, rfl⟩ := List.mem_map.mp hraw
    exact (hpast x hx).1
  · rcases hrest with rfl | hrest
    · cases hraw
    · obtain ⟨raw', hwrites, hraw'⟩ := hrest.writes
      rw [hwrites] at hraw
      rwa [List.mem_singleton.mp hraw]

theorem speaks_of_asks {entries : List Entry} (h : ∀ raw ∈ writes entries, Client.Asks ⟨key, raw⟩) :
    ∃ calls, Speaks key entries calls := by
  obtain ⟨calls, heq, hcalls⟩ := Client.exists_calls ((writes entries).map (·, ())) fun x hx => by
    obtain ⟨raw, hraw, rfl⟩ := List.mem_map.mp hx
    exact h raw hraw
  have hwrites := congrArg (List.map Prod.fst) heq
  rw [List.map_map, List.map_map] at hwrites
  have hsay : ∀ call ∈ calls.map Prod.fst, call.Sayable ∧ call.host = key.1 := by
    intro call hcall
    obtain ⟨y, hy, rfl⟩ := List.mem_map.mp hcall
    exact hcalls y hy
  refine ⟨calls.map Prod.fst, ?_, hsay, fun n => ?_⟩
  · rw [List.map_map]
    refine Eq.trans ?_ hwrites
    exact (List.map_id _).symm
  · exact readAll_flatMap readRequest_consumes fun call hc =>
      RequestCall.readRequest_encode (hsay call (List.mem_of_mem_take hc)).1

/-- Some task entered the client with it. -/
def Performed (es : List (EventLoop.Event Call Reply)) (job : Job) : Prop :=
  ∃ t, EventLoop.Event.enter t (.perform job) ∈ es

/-- **Asked in turn.** Whatever is cancelled when, what the core is asked on a connection is one whole
exchange after the other, each a request performed for the host that the connection was opened to and reads
that make its response, and perhaps one that has no response, and then the connection is not pooled. Whoever
reads has the last request. Where the requests can be said at all, a server reads as many of them as it has
got, each as it was asked for. -/
theorem asks_in_turn (codec : Codec) {es : List (EventLoop.Event Call Reply)} {s : Loop}
    (h : run (EventLoop.step (program codec)) start es = some s) :
    ∀ c key, s.world.opened[c]? = some key → ∃ rest past,
      InTurn codec (Performed es) key c (traffic s c) rest past ∧ (c ∈ s.world.pool.conns → rest = []) ∧
      (∀ t reused parser received, (s.world.threads t).phase = .read c reused parser received →
        (writes (traffic s c)).getLast? = some (s.world.threads t).job.raw) ∧
      ((∀ raw ∈ writes (traffic s c), Client.Asks ⟨key, raw⟩) → ∃ calls, Speaks key (traffic s c) calls) := by
  have hs : Talking codec (Performed es) s := talking_run (fun t _ hmem => ⟨t, hmem⟩) h
  have howned := hs.tended.owned
  intro c key hkey
  by_cases hp : c ∈ s.world.pool.conns
  · obtain ⟨k, hk⟩ := Pool.mem_conns_iff.mp hp
    obtain rfl := Option.some.inj ((howned.targeted.pooled k c hk).symm.trans hkey)
    obtain ⟨past, hturn⟩ := inTurn_of_told (hs.pooled k c hk) (.inl rfl)
    refine ⟨[], past, hturn, fun _ => rfl, fun t _ _ _ hph => ?_, speaks_of_asks⟩
    exact absurd hk ((hs.alone (by rw [hph]; rfl)).2 k)
  by_cases hr : ∃ t reused parser received, (s.world.threads t).phase = .read c reused parser received
  · obtain ⟨t, reused, parser, received, hph⟩ := hr
    have hconn : (s.world.threads t).phase.conn? = some c := by
      rw [hph]
      rfl
    have hstands := hs.stands t
    rw [hph] at hstands
    obtain ⟨hA, done, pieces, -, htold⟩ := hstands
    obtain rfl := Option.some.inj ((howned.targeted.exchange t c hconn).symm.trans hkey)
    obtain ⟨past, hturn⟩ := inTurn_of_told htold (.inr (.reading hA))
    refine ⟨_, past, hturn, fun hp' => absurd hp' hp, fun u _ _ _ hu => ?_, speaks_of_asks⟩
    obtain rfl : u = t := by
      by_contra hne
      exact (hs.alone hconn).1 u hne (by rw [hu]; rfl)
    rw [hturn.parts, writes_append, writes_reading, List.getLast?_concat]
  · obtain ⟨rest, htold, hrest⟩ := hs.known c key hkey
    obtain ⟨past, hturn⟩ := inTurn_of_told htold hrest
    exact ⟨rest, past, hturn, fun hp' => absurd hp' hp,
      fun t reused parser received hph => absurd ⟨t, reused, parser, received, hph⟩ hr, speaks_of_asks⟩

/-- A request, and another one over the same connection, which is cancelled at its read. -/
def brokenOff : List (EventLoop.Event Call Reply) :=
  [.enter 0 (.perform Client.nestedJob), .settle 0 (.resolve []), .next, .next, .settle 1 (.resolve []),
    .next, .next, .settle 2 (.resolve (ascii "HTTP/1.1 204 No Content\r\n\r\n")), .next, .next,
    .enter 1 (.perform Client.nestedJob), .settle 3 (.resolve []), .next, .next, .cancel 1, .next]

theorem asks_in_turn_brokenOff : ∃ (s : Loop) (rest : List Entry) (past : List Exchanged)
    (calls : List RequestCall), run (EventLoop.step (program noCodec)) start brokenOff = some s ∧
    (traffic s 0).length = 4 ∧
    InTurn noCodec (Performed brokenOff) (str "a.b", 443) 0 (traffic s 0) rest past ∧
    Speaks (str "a.b", 443) (traffic s 0) calls := by
  have h : (run (EventLoop.step (program noCodec)) start brokenOff).map
      (fun s => (s.world.opened[0]?, (traffic s 0).length)) = some (some (str "a.b", 443), 4) := by
    decide +kernel
  have hasks : ∀ job, Performed brokenOff job → Client.Asks job := by
    rintro job ⟨t, hmem⟩
    have hjob : job = Client.nestedJob := by
      simp only [brokenOff, List.mem_cons, EventLoop.Event.enter.injEq, Call.perform.injEq, reduceCtorEq,
        List.not_mem_nil, or_false, false_or] at hmem
      rcases hmem with ⟨-, hjob⟩ | ⟨-, hjob⟩
      · exact hjob
      · exact hjob
    rw [hjob]
    exact Client.asks_nestedJob
  obtain ⟨s, hs, heq⟩ := Option.map_eq_some_iff.mp h
  rw [Prod.mk.injEq] at heq
  obtain ⟨rest, past, hturn, -, -, hspeaks⟩ := asks_in_turn noCodec hs 0 _ heq.1
  obtain ⟨calls, hcalls⟩ := hspeaks fun raw hraw => hasks _ (hturn.asked raw hraw)
  exact ⟨s, rest, past, calls, hs, heq.2, hturn, hcalls⟩

end AsyncClient

end Fizzpy
