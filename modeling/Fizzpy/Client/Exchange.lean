import Fizzpy.Client.Replies
import Fizzpy.Http.Ending
import Fizzpy.Tls.ByteStream
import Fizzpy.Tls.EndOfStream

/-!
# An exchange on its connection

`_exchange` over the native connection: the write, then the loop of reads. Each read is submitted when
the one before has been answered and the parser wants more, and events of the loop thread come in between,
which deliver the stream in pieces of any size, at any time. What the exchange returns is what stands at
the front of the stream (`exchange_reads`), so it depends on the bytes only, neither on how they were
cut nor on when they came (`exchange_timing`). An empty buffer is taken for the end of the stream, here as
by the reads themselves and by the socket (`empty_means_eof_iff`).
-/

namespace Fizzpy

open Foundation ResponseParser Client

/-- Before the write is done, in the loop with a read submitted, or behind it. -/
inductive Exchange.Stage
  | write
  | reading (parser : ResponseParser) (received : Bool) (promise : ℕ)
  | ended (outcome : Outcome)

structure Exchange where
  id : ConnId
  reused : Bool
  timeoutMs : ℕ
  conn : TlsConnection
  stage : Exchange.Stage := .write

namespace Exchange

/-- What `run_sync` makes of a settled promise. -/
def replyOf : Answer → ReadReply
  | .resolve data => .chunk data
  | .reject _ => .failed

/-- The loop goes round again with another read, or it is over. -/
def proceed (s : Exchange) : Outcome → Option Exchange
  | .goOn (.read _ _ parser received) =>
    (s.conn.step (.read s.timeoutMs)).map fun conn =>
      { s with conn, stage := .reading parser received s.conn.reads }
  | outcome => some { s with stage := .ended outcome }

inductive Event
  | written (ok : Bool)
  /-- The reader wakes up. -/
  | resume
  /-- An event of the loop thread. -/
  | loop (e : TlsConnection.Event)
  deriving DecidableEq

def step (codec : Codec) (s : Exchange) : Event → Option Exchange
  | .written ok =>
    match s.stage with
    | .write => s.proceed (afterWrite s.id s.reused ok)
    | _ => none
  | .resume =>
    match s.stage with
    | .reading parser received p => (s.conn.settled.lookup p).bind fun a =>
        s.proceed (afterRead codec s.id s.reused parser received (replyOf a))
    | _ => none
  | .loop e =>
    if TlsSocket.onLoop e then (s.conn.step e).map fun conn => { s with conn } else none

/-! ## The stream -/

/-- Buffers are not empty. -/
def Event.Valid : Event → Prop
  | .loop e => (TlsSocket.Event.loop e).Valid
  | _ => True

instance (e : Event) : Decidable e.Valid := by
  unfold Event.Valid
  split <;> infer_instance

def received (es : List Event) : Bytes :=
  es.flatMap fun
    | .loop e => e.received
    | _ => []

/-- The decrypted stream from the exchange on: what the connection has buffered, and what comes. -/
def stream (c₀ : TlsConnection) (es : List Event) : Bytes := c₀.buffer.flatten ++ received es

/-- The connection has ended, and `seen` has all the bytes that had come by then. -/
def EndSeen (c₀ : TlsConnection) (es : List Event) (seen : Bytes) : Prop :=
  seen <+: stream c₀ es ∧ ∃ h₁, stream c₀ h₁ <+: seen ∧
    (c₀.eof = true ∨ ∃ h₂, es = h₁ ++ .loop .readEOF :: h₂)

theorem stream_append (c₀ : TlsConnection) (es es' : List Event) :
    stream c₀ (es ++ es') = stream c₀ es ++ received es' := by
  unfold stream received
  rw [List.flatMap_append, ← List.append_assoc]

theorem stream_loop (c₀ : TlsConnection) (es : List Event) (e : TlsConnection.Event) :
    stream c₀ (es ++ [.loop e]) = stream c₀ es ++ e.received := by
  rw [stream_append]
  exact congrArg (stream c₀ es ++ ·) (List.append_nil _)

theorem stream_other (c₀ : TlsConnection) (es : List Event) {e : Event} (he : ∀ x, e ≠ .loop x) :
    stream c₀ (es ++ [e]) = stream c₀ es := by
  rw [stream_append]
  cases e with
  | loop x => exact absurd rfl (he x)
  | _ => exact List.append_nil _

theorem EndSeen.later {c₀ : TlsConnection} {h : List Event} {seen : Bytes} (hs : EndSeen c₀ h seen)
    (es : List Event) : EndSeen c₀ (h ++ es) seen := by
  obtain ⟨hp, h₁, hd, hend⟩ := hs
  refine ⟨hp.trans ?_, h₁, hd, hend.imp_right ?_⟩
  · rw [stream_append]
    exact List.prefix_append _ _
  · rintro ⟨h₂, rfl⟩
    exact ⟨h₂ ++ es, by simp⟩

/-! ## What the end of the loop says -/

/-- There is a response at the front, or the end of the connection makes it one. -/
def Readable (codec : Codec) (seen : Bytes) : Prop :=
  Begins codec seen ∨ ∃ m : CutResponse, m.Sound codec ∧ m.wire = seen

/-- What an outcome says about the stream. -/
def Concluded (codec : Codec) (c₀ : TlsConnection) (h : List Event) : Outcome → Prop
  | .goOn (.give _ r) | .goOn (.close _ r) =>
    (∃ m : WireResponse, m.Sound codec ∧ m.wire <+: stream c₀ h ∧ m.response codec = r) ∨
      ∃ m : CutResponse, m.Sound codec ∧ EndSeen c₀ h m.wire ∧ m.response codec = r
  | .raised (.parse _) => (∀ more, ¬ Begins codec (stream c₀ h ++ more)) ∨
      ∃ seen, EndSeen c₀ h seen ∧ ¬ Readable codec seen
  | .raised .incomplete => ∃ seen, EndSeen c₀ h seen ∧ ¬ Readable codec seen
  | .goOn _ | .raised .transport | .returned _ => True

theorem Concluded.later {codec : Codec} {c₀ : TlsConnection} {h : List Event} {o : Outcome}
    (hc : Concluded codec c₀ h o) (es : List Event) : Concluded codec c₀ (h ++ es) o := by
  have hanswer : ∀ r, ((∃ m : WireResponse, m.Sound codec ∧ m.wire <+: stream c₀ h ∧
        m.response codec = r) ∨ ∃ m : CutResponse, m.Sound codec ∧ EndSeen c₀ h m.wire ∧
        m.response codec = r) → (∃ m : WireResponse, m.Sound codec ∧ m.wire <+: stream c₀ (h ++ es) ∧
        m.response codec = r) ∨ ∃ m : CutResponse, m.Sound codec ∧ EndSeen c₀ (h ++ es) m.wire ∧
        m.response codec = r := by
    rintro r (⟨m, hm, hp, hr⟩ | ⟨m, hm, hs, hr⟩)
    · rw [stream_append]
      exact .inl ⟨m, hm, hp.trans (List.prefix_append _ _), hr⟩
    · exact .inr ⟨m, hm, hs.later es, hr⟩
  unfold Concluded at hc ⊢
  split
  · exact hanswer _ hc
  · exact hanswer _ hc
  · refine hc.imp (fun hno more => ?_) fun ⟨seen, hs, hr⟩ => ⟨seen, hs.later es, hr⟩
    rw [stream_append, List.append_assoc]
    exact hno _
  · obtain ⟨seen, hs, hr⟩ := hc
    exact ⟨seen, hs.later es, hr⟩
  all_goals trivial

/-- The parser of a loop that goes round again. -/
def again : Outcome → Option (ResponseParser × Bool)
  | .goOn (.read _ _ parser got) => some (parser, got)
  | _ => none

theorem again_afterLoop (id : ConnId) (reused : Bool) (q : ResponseParser) :
    again (afterLoop id reused q) = none := by
  unfold afterLoop
  split
  · split_ifs <;> rfl
  · split_ifs <;> rfl

section Parsing

variable {codec : Codec} {parser : ResponseParser} {got : Bool} {pieces : List Bytes}

/-- At the end of the connection a response is what makes the text one. -/
theorem ends_of_feedEof (h : Reads codec (pieces.map .chunk) parser got pieces) {q : ResponseParser}
    {r : Response} (hq : feedEof codec parser = .ok q) (hr : q.response = some r) :
    Ends (feedAll codec fresh pieces >>= feedEof codec) r q.buf := by
  rw [h.fed, ok_bind]
  refine ⟨q, hq, ?_, hr, rfl⟩
  cases feedEof_awaits codec h.awaits with
  | raises hfeed _ => rw [hfeed] at hq; cases hq
  | stays hfeed _ _ =>
    rw [hfeed, Except.ok.injEq] at hq
    subst hq
    exact absurd (hr.symm.trans h.live.response) (Option.some_ne_none r)
  | finishes hfeed _ _ =>
    rw [hfeed] at hq
    obtain ⟨content, -, rfl⟩ := finalize_ok hq
    rfl

theorem readable_iff : Readable codec pieces.flatten ↔
    ∃ r rest, Ends (feedAll codec fresh pieces >>= feedEof codec) r rest := by
  simp only [ends_feedAll_feedEof_iff, ends_feed_feedEof_iff]
  constructor
  · rintro (⟨m, hm, rest, hrest⟩ | ⟨m, hm, hw⟩)
    · exact ⟨_, rest, .inl ⟨m, hm, hrest.symm, rfl⟩⟩
    · exact ⟨_, _, .inr ⟨m, hm, hw.symm, rfl, rfl⟩⟩
  · rintro ⟨r, rest, ⟨m, hm, hs, -⟩ | ⟨m, hm, hs, -⟩⟩
    · exact .inl ⟨m, hm, rest, hs.symm⟩
    · exact .inr ⟨m, hm, hs.symm⟩

/-- The end of the connection that gives no response comes where there is none. -/
theorem not_readable_of_feedEof (h : Reads codec (pieces.map .chunk) parser got pieces)
    (hno : ∀ q, feedEof codec parser = .ok q → q.response = none) :
    ¬ Readable codec pieces.flatten := by
  rw [readable_iff]
  rintro ⟨r, rest, hends⟩
  rw [h.fed, ok_bind] at hends
  obtain ⟨q, hq, -, hr, -⟩ := hends
  exact absurd (hr.symm.trans (hno q hq)) (Option.some_ne_none r)

/-- The response of a loop that has ended. -/
theorem concluded_afterLoop {c₀ : TlsConnection} {h : List Event} {q : ResponseParser} {id : ConnId}
    {reused : Bool}
    (hsome : ∀ r, q.response = some r → Concluded codec c₀ h (.goOn (.give id r)))
    (hnone : q.response = none → ∃ seen, EndSeen c₀ h seen ∧ ¬ Readable codec seen) :
    Concluded codec c₀ h (afterLoop id reused q) := by
  unfold afterLoop
  cases hr : q.response with
  | none =>
    dsimp only
    split_ifs
    · trivial
    · exact hnone hr
  | some r =>
    dsimp only
    split_ifs
    · exact hsome r hr
    · exact hsome r hr

/-- The loop is over, and its outcome says what the stream is. -/
def Final (codec : Codec) (c₀ : TlsConnection) (h : List Event) (o : Outcome) : Prop :=
  again o = none ∧ Concluded codec c₀ h o

theorem final_failed {c₀ : TlsConnection} {h : List Event} {id : ConnId} {reused : Bool} :
    Final codec c₀ h (afterRead codec id reused parser got .failed) := by
  unfold afterRead
  dsimp only
  split_ifs
  · exact ⟨rfl, trivial⟩
  · exact ⟨rfl, trivial⟩

theorem final_end {c₀ : TlsConnection} {h : List Event} {id : ConnId} {reused : Bool}
    (hreads : Reads codec (pieces.map .chunk) parser got pieces) (hend : EndSeen c₀ h pieces.flatten) :
    Final codec c₀ h (afterRead codec id reused parser got (.chunk [])) := by
  by_cases hs : reused = true ∧ got = false
  · have hstale : afterRead codec id reused parser got (.chunk []) = .goOn (.closeStale id) := by
      unfold afterRead
      dsimp only
      rw [if_pos rfl, if_pos (by simpa using hs)]
    rw [hstale]
    exact ⟨rfl, trivial⟩
  rw [afterRead_end codec id reused parser got hs]
  cases hq : feedEof codec parser with
  | error e =>
    refine ⟨rfl, .inr ⟨_, hend, not_readable_of_feedEof hreads fun q hq' => ?_⟩⟩
    rw [hq] at hq'
    cases hq'
  | ok q =>
    refine ⟨again_afterLoop id reused q, concluded_afterLoop (fun r hr => ?_) fun hr => ?_⟩
    · have hends := ends_of_feedEof hreads hq hr
      rw [ends_feedAll_feedEof_iff, ends_feed_feedEof_iff] at hends
      obtain ⟨m, hm, hflat, hmean⟩ | ⟨m, hm, hflat, -, hmean⟩ := hends
      · refine .inl ⟨m, hm, List.IsPrefix.trans ?_ hend.1, hmean⟩
        rw [hflat]
        exact List.prefix_append _ _
      · exact .inr ⟨m, hm, hflat ▸ hend, hmean⟩
    · refine ⟨_, hend, not_readable_of_feedEof hreads fun q' hq' => ?_⟩
      rw [hq] at hq'
      cases hq'
      exact hr

/-- A chunk makes the response whole, or is in the way of any; else it is fed, and the loop goes on. -/
theorem final_chunk {c₀ : TlsConnection} {h : List Event} (id : ConnId) (reused : Bool) {data : Bytes}
    (hreads : Reads codec (pieces.map .chunk) parser got pieces) (hd : data ≠ [])
    (hfed : pieces.flatten ++ data <+: stream c₀ h) :
    (∃ q, Reads codec ((pieces ++ [data]).map .chunk) q true (pieces ++ [data]) ∧
      afterRead codec id reused parser got (.chunk data) = .goOn (.read id reused q true)) ∨
    Final codec c₀ h (afterRead codec id reused parser got (.chunk data)) := by
  have hall : feedAll codec fresh (pieces ++ [data]) = feed codec parser data := by
    rw [feedAll_concat, hreads.fed]
    rfl
  have hflat : (pieces ++ [data]).flatten = pieces.flatten ++ data := by simp
  obtain ⟨rest, hrest⟩ := hfed
  rw [afterRead_data codec id reused parser got hd]
  cases hq : feed codec parser data with
  | error e =>
    refine .inr ⟨rfl, .inl fun more => ?_⟩
    have hno := not_begins_of_error (hall.trans hq) (rest ++ more)
    rwa [hflat, ← List.append_assoc, hrest] at hno
  | ok q =>
    dsimp only
    cases hc : q.isComplete with
    | false =>
      refine .inl ⟨q, ?_, rfl⟩
      have hsnoc := hreads.snoc hd hq hc
      rwa [show pieces.map ReadReply.chunk ++ [.chunk data] = (pieces ++ [data]).map .chunk by simp] at hsnoc
    | true =>
      rw [if_pos rfl]
      have hsome : q.response ≠ none :=
        answers_feedAll codec _ (answers_waiting (by decide)) q (hall.trans hq) (of_decide_eq_true hc)
      refine .inr ⟨again_afterLoop id reused q,
        concluded_afterLoop (fun r hr => ?_) fun hr => absurd hr hsome⟩
      have hends : Ends (feedAll codec fresh (pieces ++ [data])) r q.buf :=
        ⟨q, hall.trans hq, hc, hr, rfl⟩
      rw [ends_feedAll_iff, ends_feed_iff, hflat] at hends
      obtain ⟨m, hm, hwire, hmean⟩ := hends
      refine .inl ⟨m, hm, ⟨q.buf ++ rest, ?_⟩, hmean⟩
      rw [← List.append_assoc, ← hwire, hrest]

end Parsing

/-! ## The invariant -/

/-- The exchange has been fed what the stream begins with; what it has not been fed is the answer to its
read, and behind it what is buffered. -/
structure Awaiting (codec : Codec) (c₀ : TlsConnection) (h : List Event) (s : Exchange)
    (parser : ResponseParser) (got : Bool) (p : ℕ) (pieces : List Bytes) : Prop where
  reads : Reads codec (pieces.map .chunk) parser got pieces
  bytes : pieces.flatten ++ ((s.conn.settled.lookup p).elim [] Answer.data ++ s.conn.buffer.flatten) =
    stream c₀ h
  outstanding : s.conn.outstanding = if s.conn.settled.lookup p = none then [p] else []
  ended : s.conn.settled.lookup p = some (.resolve []) → EndSeen c₀ h pieces.flatten

structure Follows (codec : Codec) (c₀ : TlsConnection) (h : List Event) (s : Exchange) : Prop where
  inv : s.conn.ReadInv
  solid : ∀ b ∈ s.conn.buffer, b ≠ []
  seenEof : s.conn.eof = true → c₀.eof = true ∨ .loop .readEOF ∈ h
  stage : match s.stage with
    | .write => s.conn.outstanding = [] ∧ s.conn.buffer.flatten = stream c₀ h
    | .reading parser got p => ∃ pieces, Awaiting codec c₀ h s parser got p pieces
    | .ended o => Concluded codec c₀ h o

variable {codec : Codec} {c₀ : TlsConnection} {h : List Event} {s s' : Exchange}

/-- Without empty buffers every read that is answered from buffers is answered with bytes. -/
theorem answersWithBytes_of_solid {c : TlsConnection} {e : TlsConnection.Event}
    (hsolid : ∀ b ∈ c.buffer, b ≠ []) (hv : (Event.loop e).Valid) : c.AnswersWithBytes e := by
  cases e with
  | readBufferAvailable buf => exact fun _ _ => hv
  | runTask =>
    unfold TlsConnection.AnswersWithBytes
    dsimp only
    split
    · intro _ hne hflat
      obtain ⟨b, bs, hbs⟩ := List.exists_cons_of_ne_nil hne
      rw [hbs, List.flatten_cons, List.append_eq_nil_iff] at hflat
      exact hsolid b (by rw [hbs]; exact List.mem_cons_self) hflat.1
    · trivial
  | _ => trivial

/-- A read is answered with no bytes only at the end, when all others have been taken. -/
theorem end_of_settlement {c : TlsConnection} {e : TlsConnection.Event} {p : ℕ} (hc : c.ReadInv)
    (hsolid : ∀ b ∈ c.buffer, b ≠ []) (hv : (Event.loop e).Valid)
    (hset : c.settlement e = some (p, .resolve [])) :
    c.buffer.flatten = [] ∧ (e = .readEOF ∨ c.eof = true) := by
  constructor
  · cases ha : e.answer with
    | some a =>
      rw [TlsConnection.settlement_of_answer ha, Option.map_eq_some_iff] at hset
      obtain ⟨q, hq, -⟩ := hset
      rw [(hc.parked (by rw [hq]; exact Option.some_ne_none q)).1]
      rfl
    | none =>
      obtain rfl : e = .runTask := by
        by_contra hrun
        rw [TlsConnection.settlement_of_quiet ha hrun] at hset
        cases hset
      simp only [TlsConnection.settlement] at hset
      split at hset
      · split_ifs at hset
        rw [Option.some.injEq, Prod.mk.injEq] at hset
        rw [← TlsConnection.waitingAnswer_data, hset.2]
        rfl
      · cases hset
  · by_contra hno
    obtain ⟨hr, he⟩ := not_or.mp hno
    exact (TlsConnection.settlement_empty_iff hr (by simpa using he)).mp ⟨p, hset⟩
      (answersWithBytes_of_solid hsolid hv)

theorem endSeen_of_eof {seen : Bytes} {e : TlsConnection.Event} (hf : Follows codec c₀ h s)
    (hbytes : seen = stream c₀ h) (he : e = .readEOF ∨ s.conn.eof = true) :
    EndSeen c₀ (h ++ [.loop e]) seen := by
  subst hbytes
  have hfront : stream c₀ h <+: stream c₀ (h ++ [.loop e]) := by
    rw [stream_append]
    exact List.prefix_append _ _
  refine ⟨hfront, ?_⟩
  rcases he with rfl | he
  · exact ⟨h, List.prefix_rfl, .inr ⟨[], rfl⟩⟩
  · rcases hf.seenEof he with h₀ | hmem
    · exact ⟨h, List.prefix_rfl, .inl h₀⟩
    · obtain ⟨h₁, h₂, rfl⟩ := List.append_of_mem hmem
      refine ⟨h₁, ?_, .inr ⟨h₂ ++ [.loop e], by simp⟩⟩
      rw [stream_append]
      exact List.prefix_append _ _

theorem follows_loop {e : TlsConnection.Event} (hf : Follows codec c₀ h s) (hv : (Event.loop e).Valid)
    (hs : step codec s (.loop e) = some s') : Follows codec c₀ (h ++ [.loop e]) s' := by
  simp only [step] at hs
  split_ifs at hs with hon
  obtain ⟨conn, hconn, rfl⟩ := Option.map_eq_some_iff.mp hs
  have hh := TlsConnection.handled_step hf.inv (fun ms hms => by subst hms; cases hon) hconn
  have hbytes := hh.bytes
  refine ⟨TlsConnection.readInv_step hf.inv hconn, TlsSocket.solid_handled hh hv hf.solid, fun he => ?_, ?_⟩
  · rw [show conn.eof = _ from hh.eof] at he
    cases e with
    | readEOF => exact .inr (List.mem_append_right _ (List.mem_singleton_self _))
    | _ => exact (hf.seenEof he).imp_right (List.mem_append_left _)
  have hstage := hf.stage
  dsimp only
  cases hst : s.stage with
  | ended o =>
    rw [hst] at hstage
    exact hstage.later _
  | write =>
    rw [hst] at hstage
    obtain ⟨ho, hb⟩ := hstage
    have hset : s.conn.settlement e = none := by
      by_contra hne
      obtain ⟨x, hx⟩ := Option.ne_none_iff_exists'.mp hne
      have hwas := hh.was x.1 x.2 hx
      rw [ho] at hwas
      cases hwas
    rw [hset] at hbytes
    have hbytes : conn.buffer.flatten = s.conn.buffer.flatten ++ e.received := hbytes
    refine ⟨?_, ?_⟩
    · rw [hh.outstanding, hset]
      exact ho
    · rw [stream_loop, ← hb]
      exact hbytes
  | reading parser got p =>
    rw [hst] at hstage
    obtain ⟨pieces, hw⟩ := hstage
    refine ⟨pieces, ?_⟩
    cases hset : s.conn.settlement e with
    | none =>
      -- the answer, if there is one, stays
      rw [hset] at hbytes
      have hbytes : conn.buffer.flatten = s.conn.buffer.flatten ++ e.received := hbytes
      have hsettled : conn.settled = s.conn.settled := by
        rw [hh.settled, hset]
        exact List.append_nil _
      refine ⟨hw.reads, ?_, ?_, fun hl => ?_⟩
      · show _ ++ ((conn.settled.lookup p).elim [] Answer.data ++ conn.buffer.flatten) = _
        rw [stream_loop, ← hw.bytes, hsettled, hbytes]
        simp only [List.append_assoc]
      · show conn.outstanding = if conn.settled.lookup p = none then [p] else []
        rw [hh.outstanding, hset, hsettled]
        exact hw.outstanding
      · have hl : conn.settled.lookup p = some (.resolve []) := hl
        rw [hsettled] at hl
        exact (hw.ended hl).later _
    | some x =>
      -- it is the read of the loop that is answered
      obtain ⟨q, a⟩ := x
      have hwas := hh.was q a hset
      have hout := hw.outstanding
      have hnone : s.conn.settled.lookup p = none := by
        by_contra hne
        rw [if_neg hne, hwas] at hout
        cases hout
      rw [if_pos hnone, hwas, List.singleton_inj] at hout
      subst hout
      have hlook : conn.settled.lookup q = some a := by
        rw [hh.settled, hset, List.lookup_append, hnone]
        simp
      have hfed : pieces.flatten ++ s.conn.buffer.flatten = stream c₀ h := by
        rw [← hw.bytes, hnone]
        rfl
      rw [hset] at hbytes
      have hbytes : a.data ++ conn.buffer.flatten = s.conn.buffer.flatten ++ e.received := hbytes
      refine ⟨hw.reads, ?_, ?_, fun hl => ?_⟩
      · show _ ++ ((conn.settled.lookup q).elim [] Answer.data ++ conn.buffer.flatten) = _
        rw [hlook, stream_loop, ← hfed, List.append_assoc, ← hbytes]
        rfl
      · show conn.outstanding = if conn.settled.lookup q = none then [q] else []
        rw [if_neg (by rw [hlook]; exact Option.some_ne_none a), hh.outstanding, hset]
        rfl
      · have hl : conn.settled.lookup q = some (.resolve []) := hl
        rw [hlook, Option.some.injEq] at hl
        subst hl
        obtain ⟨hempty, hend⟩ := end_of_settlement hf.inv hf.solid hv hset
        refine endSeen_of_eof hf ?_ hend
        rw [← hfed, hempty, List.append_nil]

/-- With nothing outstanding the loop can go round again: another read is submitted. -/
theorem follows_read {e : Event} {pieces : List Bytes} {parser : ResponseParser} {got : Bool} {id : ConnId}
    {reused : Bool} (hf : Follows codec c₀ h s) (he : ∀ x, e ≠ .loop x)
    (hreads : Reads codec (pieces.map .chunk) parser got pieces)
    (hbytes : pieces.flatten ++ s.conn.buffer.flatten = stream c₀ h)
    (hs : s.proceed (.goOn (.read id reused parser got)) = some s') : Follows codec c₀ (h ++ [e]) s' := by
  obtain ⟨conn, hconn, rfl⟩ := Option.map_eq_some_iff.mp hs
  obtain ⟨-, hsub, hout⟩ := TlsConnection.step_read hconn
  have hinv := TlsConnection.readInv_step hf.inv hconn
  have hnone := TlsSocket.lookup_outstanding hinv hout
  have hbuf : conn.buffer = s.conn.buffer := by rw [hsub]; rfl
  have heof : conn.eof = s.conn.eof := by rw [hsub]; rfl
  refine ⟨hinv, ?_, fun hc => ?_, pieces, hreads, ?_, ?_, fun hl => ?_⟩
  · rw [hbuf]
    exact hf.solid
  · exact (hf.seenEof (heof ▸ hc)).imp_right (List.mem_append_left _)
  · show pieces.flatten ++ ((conn.settled.lookup s.conn.reads).elim [] Answer.data ++ conn.buffer.flatten) = _
    rw [hnone, stream_other c₀ h he, ← hbytes, hbuf]
    rfl
  · show conn.outstanding = if conn.settled.lookup s.conn.reads = none then [s.conn.reads] else []
    rw [if_pos hnone]
    exact hout
  · have hl : conn.settled.lookup s.conn.reads = some (.resolve []) := hl
    rw [hnone] at hl
    cases hl

theorem follows_ended {e : Event} {o : Outcome} (hf : Follows codec c₀ h s)
    (ho : Final codec c₀ h o) (hs : s.proceed o = some s') : Follows codec c₀ (h ++ [e]) s' := by
  have hover : s.proceed o = some { s with stage := .ended o } := by
    have hno := ho.1
    unfold proceed
    split
    · cases hno
    · rfl
  rw [hover, Option.some.injEq] at hs
  subst hs
  exact ⟨hf.inv, hf.solid, fun hc => (hf.seenEof hc).imp_right (List.mem_append_left _), ho.2.later _⟩

theorem follows_written {ok : Bool} (hf : Follows codec c₀ h s)
    (hs : step codec s (.written ok) = some s') : Follows codec c₀ (h ++ [.written ok]) s' := by
  have hstage := hf.stage
  simp only [step] at hs
  cases hst : s.stage with
  | reading | ended => rw [hst] at hs; cases hs
  | write =>
    rw [hst] at hs hstage
    obtain ⟨-, hb⟩ := hstage
    dsimp only at hs
    cases ok with
    | true =>
      have hreads : Reads codec (([] : List Bytes).map .chunk) fresh false [] := reads_nil codec
      exact follows_read hf nofun hreads hb hs
    | false =>
      refine follows_ended hf ?_ hs
      unfold afterWrite
      rw [if_neg Bool.false_ne_true]
      split_ifs
      · exact ⟨rfl, trivial⟩
      · exact ⟨rfl, trivial⟩

theorem follows_resume (hf : Follows codec c₀ h s) (hs : step codec s .resume = some s') :
    Follows codec c₀ (h ++ [.resume]) s' := by
  have hstage := hf.stage
  simp only [step] at hs
  cases hst : s.stage with
  | write | ended => rw [hst] at hs; cases hs
  | reading parser got p =>
    rw [hst] at hs hstage
    obtain ⟨pieces, hw⟩ := hstage
    obtain ⟨a, hl, hs⟩ := Option.bind_eq_some_iff.mp hs
    cases a with
    | reject error => exact follows_ended hf final_failed hs
    | resolve data =>
      by_cases hd : data = []
      · subst hd
        exact follows_ended hf (final_end hw.reads (hw.ended hl)) hs
      · have hbytes := hw.bytes
        rw [hl] at hbytes
        have hbytes : pieces.flatten ++ (data ++ s.conn.buffer.flatten) = stream c₀ h := hbytes
        rw [← List.append_assoc] at hbytes
        have hs : s.proceed (afterRead codec s.id s.reused parser got (.chunk data)) = some s' := hs
        obtain ⟨q, hreads, heq⟩ | hends := final_chunk s.id s.reused hw.reads hd ⟨_, hbytes⟩
        · rw [heq] at hs
          refine follows_read hf nofun hreads ?_ hs
          rw [List.flatten_append, List.flatten_singleton]
          exact hbytes
        · exact follows_ended hf hends hs

theorem follows_step {e : Event} (hf : Follows codec c₀ h s) (hv : e.Valid)
    (hs : step codec s e = some s') : Follows codec c₀ (h ++ [e]) s' := by
  cases e with
  | written ok => exact follows_written hf hs
  | resume => exact follows_resume hf hs
  | loop e => exact follows_loop hf hv hs

/-- `_exchange` on a connection that was taken from the pool, or that was just opened. -/
def start (id : ConnId) (reused : Bool) (timeoutMs : ℕ) (conn : TlsConnection) : Exchange :=
  { id, reused, timeoutMs, conn }

/-- A connection as `_exchange` is given it: nobody reads from it. -/
structure Ready (c₀ : TlsConnection) : Prop where
  reached : ∃ es, run TlsConnection.step .init es = some c₀
  idle : c₀.outstanding = []
  solid : ∀ b ∈ c₀.buffer, b ≠ []

theorem follows_run {id : ConnId} {reused : Bool} {timeoutMs : ℕ} {es : List Event} (hc : Ready c₀)
    (hv : ∀ e ∈ es, e.Valid) (hr : run (step codec) (start id reused timeoutMs c₀) es = some s) :
    Follows codec c₀ es s := by
  obtain ⟨es₀, hreach⟩ := hc.reached
  have hstart : Follows codec c₀ [] (start id reused timeoutMs c₀) :=
    ⟨TlsConnection.readInv_run hreach, hc.solid, .inl, hc.idle, (List.append_nil _).symm⟩
  exact run_history (fun _ _ _ _ hf hv hs => follows_step hf hv hs) hv [] hstart hr

/-! ## The results -/

/-- The response that `_exchange` returns. -/
def Stage.response? : Stage → Option Response
  | .ended (.goOn (.give _ r)) | .ended (.goOn (.close _ r)) => some r
  | _ => none

theorem Follows.concluded {r : Response} (hf : Follows codec c₀ h s) (hr : s.stage.response? = some r) :
    (∃ m : WireResponse, m.Sound codec ∧ m.wire <+: stream c₀ h ∧ m.response codec = r) ∨
      ∃ m : CutResponse, m.Sound codec ∧ EndSeen c₀ h m.wire ∧ m.response codec = r := by
  have hstage := hf.stage
  unfold Stage.response? at hr
  split at hr
  · next hst =>
    cases hr
    rw [hst] at hstage
    exact hstage
  · next hst =>
    cases hr
    rw [hst] at hstage
    exact hstage
  · cases hr

/-- While nothing is on its way to the exchange, it waits for good reason. -/
theorem Follows.waits {parser : ResponseParser} {got : Bool} {p : ℕ} (hf : Follows codec c₀ h s)
    (hst : s.stage = .reading parser got p) (hl : s.conn.settled.lookup p = none)
    (hb : s.conn.buffer = []) : ¬ Begins codec (stream c₀ h) := by
  have hstage := hf.stage
  rw [hst] at hstage
  obtain ⟨pieces, hw⟩ := hstage
  have hbytes := hw.bytes
  rw [hl, hb, List.flatten_nil] at hbytes
  have hbytes : pieces.flatten ++ [] = stream c₀ h := hbytes
  rw [List.append_nil] at hbytes
  rw [← hbytes, ← isComplete_iff_begins hw.reads.fed, hw.reads.incomplete]
  exact Bool.false_ne_true

/-- With the answer there, the exchange goes on; another read finds none outstanding. -/
theorem Follows.resumes {parser : ResponseParser} {got : Bool} {p : ℕ} {a : Answer}
    (hf : Follows codec c₀ h s) (hst : s.stage = .reading parser got p)
    (hl : s.conn.settled.lookup p = some a) : ∃ s', step codec s .resume = some s' := by
  have hstage := hf.stage
  rw [hst] at hstage
  obtain ⟨pieces, hw⟩ := hstage
  have ho := hw.outstanding
  rw [if_neg (by rw [hl]; exact Option.some_ne_none a)] at ho
  simp only [step, hst, hl, Option.bind_some]
  unfold proceed
  split
  · simp only [TlsConnection.step, if_pos ho]
    exact ⟨_, rfl⟩
  · exact ⟨_, rfl⟩

/-- **The exchange reads its stream.** However the stream is cut and whenever its pieces come, a response
that is returned stands at its front, or is what the connection has ended. The parser raises only where
no response stands at the front whatever may follow, or where the end of the connection makes none of what
there is. And as long as the exchange waits, with nothing on its way to it, there is no response yet. -/
theorem exchange_reads (codec : Codec) {id : ConnId} {reused : Bool} {timeoutMs : ℕ} {es : List Event}
    (hc : Ready c₀) (hv : ∀ e ∈ es, e.Valid)
    (hr : run (step codec) (start id reused timeoutMs c₀) es = some s) :
    (∀ r, s.stage.response? = some r →
      (∃ m : WireResponse, m.Sound codec ∧ m.wire <+: stream c₀ es ∧ m.response codec = r) ∨
        ∃ m : CutResponse, m.Sound codec ∧ EndSeen c₀ es m.wire ∧ m.response codec = r) ∧
    (∀ e, s.stage = .ended (.raised (.parse e)) →
      (∀ more, ¬ Begins codec (stream c₀ es ++ more)) ∨
        ∃ seen, EndSeen c₀ es seen ∧ ¬ Readable codec seen) ∧
    (s.stage = .ended (.raised .incomplete) → ∃ seen, EndSeen c₀ es seen ∧ ¬ Readable codec seen) ∧
    ∀ parser got p, s.stage = .reading parser got p →
      (∀ a, s.conn.settled.lookup p = some a → ∃ s', step codec s .resume = some s') ∧
      (s.conn.settled.lookup p = none → s.conn.buffer = [] → ¬ Begins codec (stream c₀ es)) := by
  have hf := follows_run hc hv hr
  have hstage := hf.stage
  refine ⟨fun r hr => hf.concluded hr, fun e hst => ?_, fun hst => ?_, fun parser got p hst =>
    ⟨fun a => hf.resumes hst, hf.waits hst⟩⟩
  · rw [hst] at hstage
    exact hstage
  · rw [hst] at hstage
    exact hstage

/-- A connection on which the handshake is done. -/
def opened : TlsConnection := { client := some .opened }

theorem ready_opened : Ready opened where
  reached := ⟨[.connect, .runTask, .connectSuccess], rfl⟩
  idle := rfl
  solid := nofun

/-- The greeting in two pieces, the first while no read is submitted. -/
def pieceByPiece : List Event :=
  [.loop (.readBufferAvailable (some (ascii "HTTP/1.1 200 OK\r\nContent-Length: 2\r"))), .written true,
    .loop .runTask, .resume, .loop .runTask,
    .loop (.readBufferAvailable (some (ascii "\n\r\nhi and more"))), .resume]

theorem exchange_reads_pieces : ∃ s r, run (step noCodec) (start 0 false 5000 opened) pieceByPiece = some s ∧
    s.stage.response? = some r ∧ r.content = ascii "hi" ∧
    ((∃ m : WireResponse, m.Sound noCodec ∧ m.wire <+: stream opened pieceByPiece ∧ m.response noCodec = r) ∨
      ∃ m : CutResponse, m.Sound noCodec ∧ EndSeen opened pieceByPiece m.wire ∧ m.response noCodec = r) := by
  have h : (run (step noCodec) (start 0 false 5000 opened) pieceByPiece).bind
      (fun s => s.stage.response?.map Response.content) = some (ascii "hi") := by
    decide +kernel
  obtain ⟨s, hs, hr⟩ := Option.bind_eq_some_iff.mp h
  obtain ⟨r, hr, hcontent⟩ := Option.map_eq_some_iff.mp hr
  exact ⟨s, r, hs, hr, hcontent,
    (exchange_reads noCodec ready_opened (by decide) hs).1 r hr⟩

/-- **Neither the cuts nor the timing matter.** On two connections that do not end, where one stream goes
on as the other does, the same response is returned, whatever the pieces, the deadlines and the order of
the events. -/
theorem exchange_timing (codec : Codec) {c₀' : TlsConnection} {id id' : ConnId} {reused reused' : Bool}
    {timeoutMs timeoutMs' : ℕ} {es es' : List Event} {r r' : Response} (hc : Ready c₀) (hc' : Ready c₀')
    (hv : ∀ e ∈ es, e.Valid) (hv' : ∀ e ∈ es', e.Valid)
    (hr : run (step codec) (start id reused timeoutMs c₀) es = some s)
    (hr' : run (step codec) (start id' reused' timeoutMs' c₀') es' = some s')
    (hopen : c₀.eof = false ∧ .loop .readEOF ∉ es) (hopen' : c₀'.eof = false ∧ .loop .readEOF ∉ es')
    (hsame : stream c₀ es <+: stream c₀' es') (hret : s.stage.response? = some r)
    (hret' : s'.stage.response? = some r') : r = r' := by
  have hwhole : ∀ {c : TlsConnection} {es : List Event} {s : Exchange} {r : Response},
      Follows codec c es s → c.eof = false ∧ .loop .readEOF ∉ es → s.stage.response? = some r →
      ∃ w, WireResponse.Language codec w r ∧ w <+: stream c es := by
    intro c es s r hf hopen hr
    obtain ⟨m, hm, hp, hmean⟩ | ⟨m, -, ⟨-, h₁, -, hend⟩, -⟩ := hf.concluded hr
    · exact ⟨m.wire, ⟨m, hm, rfl, hmean⟩, hp⟩
    · rcases hend with hend | ⟨h₂, rfl⟩
      · rw [hopen.1] at hend
        cases hend
      · exact absurd (List.mem_append_right h₁ List.mem_cons_self) hopen.2
  obtain ⟨w, hw, hp⟩ := hwhole (follows_run hc hv hr) hopen hret
  obtain ⟨w', hw', ⟨rest', hp'⟩⟩ := hwhole (follows_run hc' hv' hr') hopen' hret'
  obtain ⟨rest, hp⟩ := hp.trans hsame
  exact ((selfDelimiting_language codec).unique hw hw' (hp.trans hp'.symm)).2

/-- All of it in one buffer, behind the submitted read. -/
def atOnce : List Event :=
  [.written true, .loop .runTask,
    .loop (.readBufferAvailable (some (ascii "HTTP/1.1 200 OK\r\nContent-Length: 2\r\n\r\nhi and more"))),
    .resume]

theorem exchange_timing_pieces : ∃ s s' r r',
    run (step noCodec) (start 0 false 5000 opened) pieceByPiece = some s ∧ s.stage.response? = some r ∧
    run (step noCodec) (start 3 true 0 opened) atOnce = some s' ∧ s'.stage.response? = some r' ∧ r = r' := by
  have h : ((run (step noCodec) (start 0 false 5000 opened) pieceByPiece).bind
      fun s => s.stage.response?).isSome := by
    decide +kernel
  have h' : ((run (step noCodec) (start 3 true 0 opened) atOnce).bind
      fun s => s.stage.response?).isSome := by
    decide +kernel
  obtain ⟨r, h⟩ := Option.isSome_iff_exists.mp h
  obtain ⟨r', h'⟩ := Option.isSome_iff_exists.mp h'
  obtain ⟨s, hs, hr⟩ := Option.bind_eq_some_iff.mp h
  obtain ⟨s', hs', hr'⟩ := Option.bind_eq_some_iff.mp h'
  exact ⟨s, s', r, r', hs, hr, hs', hr', exchange_timing noCodec ready_opened ready_opened (by decide)
    (by decide) hs hs' ⟨rfl, by decide⟩ ⟨rfl, by decide⟩ ⟨[], by decide⟩ hr hr'⟩

/-! ## Empty bytes -/

/-- The reader, when it wakes up, calls `feed_eof`: its read has resolved with no bytes, and the
connection is not taken for stale. -/
def FeedsEof (s : Exchange) : Prop :=
  ∃ parser got p, s.stage = .reading parser got p ∧ s.conn.settled.lookup p = some (.resolve []) ∧
    ¬ (s.reused = true ∧ got = false)

/-- Empty bytes mean the end of the stream, for the reads and for the parser. -/
def EofIsEof (s : Exchange) : Prop := s.conn.EmptyMeansEof ∧ (s.FeedsEof → s.conn.eof = true)

def AnswersWithBytes (s : Exchange) : Event → Prop
  | .loop e => s.conn.AnswersWithBytes e
  | _ => True

theorem eofIsEof_of_conn (h : s.conn.EmptyMeansEof) : EofIsEof s := by
  refine ⟨h, ?_⟩
  rintro ⟨parser, got, p, -, hl, -⟩
  exact h p (TlsConnection.mem_settled hl)

theorem proceed_conn {o : Outcome} (hs : s.proceed o = some s') :
    s'.conn = s.conn ∨ s.conn.step (.read s.timeoutMs) = some s'.conn := by
  unfold proceed at hs
  split at hs
  · obtain ⟨conn, hconn, rfl⟩ := Option.map_eq_some_iff.mp hs
    exact .inr hconn
  · cases hs
    exact .inl rfl

/-- Events of the loop thread aside, an exchange does nothing to its connection but submit a read. -/
theorem step_conn {e : Event} (hs : step codec s e = some s') :
    (∃ x, e = .loop x ∧ TlsSocket.onLoop x = true ∧ s.conn.step x = some s'.conn) ∨
      (∀ x, e ≠ .loop x) ∧
        (s'.conn = s.conn ∨ s.conn.step (.read s.timeoutMs) = some s'.conn) := by
  cases e with
  | loop x =>
    simp only [step] at hs
    split_ifs at hs with hon
    obtain ⟨conn, hconn, rfl⟩ := Option.map_eq_some_iff.mp hs
    exact .inl ⟨x, rfl, hon, hconn⟩
  | written ok =>
    simp only [step] at hs
    split at hs
    · exact .inr ⟨nofun, proceed_conn hs⟩
    · cases hs
  | resume =>
    simp only [step] at hs
    split at hs
    · obtain ⟨a, -, hs⟩ := Option.bind_eq_some_iff.mp hs
      exact .inr ⟨nofun, proceed_conn hs⟩
    · cases hs

theorem answersWithBytes_other {e : Event} (he : ∀ x, e ≠ .loop x) : AnswersWithBytes s e := by
  cases e with
  | loop x => exact absurd rfl (he x)
  | _ => trivial

theorem readInv_step {e : Event} (hi : s.conn.ReadInv) (hs : step codec s e = some s') :
    s'.conn.ReadInv := by
  obtain ⟨x, rfl, -, hconn⟩ | ⟨-, hsame | hread⟩ := step_conn hs
  · exact TlsConnection.readInv_step hi hconn
  · rwa [hsame]
  · exact TlsConnection.readInv_step hi hread

theorem eofIsEof_step {e : Event} (hi : s.conn.ReadInv) (hm : EofIsEof s)
    (hs : step codec s e = some s') : EofIsEof s' ↔ AnswersWithBytes s e := by
  obtain ⟨x, rfl, -, hconn⟩ | ⟨he, hconn⟩ := step_conn hs
  · have hiff := TlsConnection.emptyMeansEof_step hi hm.1 hconn
    exact ⟨fun hm' => hiff.mp hm'.1, fun hans => eofIsEof_of_conn (hiff.mpr hans)⟩
  · refine iff_of_true (eofIsEof_of_conn ?_) (answersWithBytes_other he)
    obtain hsame | hread := hconn
    · rw [hsame]
      exact hm.1
    · exact (TlsConnection.emptyMeansEof_step hi hm.1 hread).mpr trivial

theorem solid_step {e : Event} (hi : s.conn.ReadInv) (hsolid : ∀ b ∈ s.conn.buffer, b ≠ [])
    (hv : e.Valid) (hs : step codec s e = some s') : ∀ b ∈ s'.conn.buffer, b ≠ [] := by
  obtain ⟨x, rfl, hon, hconn⟩ | ⟨-, hsame | hread⟩ := step_conn hs
  · have hh := TlsConnection.handled_step hi (fun ms hms => by subst hms; cases hon) hconn
    exact TlsSocket.solid_handled hh hv hsolid
  · rwa [hsame]
  · rw [(TlsConnection.step_read hread).2.1]
    exact hsolid

/-- So without empty buffers no step needs a condition. -/
theorem along_of_valid {es : List Event} (hi : s.conn.ReadInv) (hsolid : ∀ b ∈ s.conn.buffer, b ≠ [])
    (hv : ∀ e ∈ es, e.Valid) : Along (step codec) AnswersWithBytes s es := by
  induction es generalizing s with
  | nil => trivial
  | cons e es ih =>
    intro s' hs
    have hve := hv e List.mem_cons_self
    refine ⟨?_, ih (readInv_step hi hs) (solid_step hi hsolid hve hs)
      fun x hx => hv x (List.mem_cons_of_mem e hx)⟩
    cases e with
    | loop x => exact answersWithBytes_of_solid hsolid hve
    | _ => trivial

/-- **When empty bytes mean the end of the stream.** In every run of a connection, of a socket over
one, and of an exchange on one with any past, reads resolve with empty bytes only after `readEOF`,
the socket takes the stream for ended and the exchange calls `feed_eof` only then, exactly if before
`readEOF` every read that is answered from buffers is answered with bytes. -/
theorem empty_means_eof_iff (codec : Codec) (ls : List TlsConnection.Event)
    (ts : List TlsSocket.Event) (es : List Event) :
    (Throughout TlsConnection.step TlsConnection.EmptyMeansEof .init ls ↔
      Along TlsConnection.step TlsConnection.AnswersWithBytes .init ls) ∧
    (Throughout TlsSocket.step TlsSocket.EofIsEof TlsSocket.wrapped ts ↔
      Along TlsSocket.step TlsSocket.AnswersWithBytes TlsSocket.wrapped ts) ∧
    ∀ (c₀ : TlsConnection) (id : ConnId) (reused : Bool) (timeoutMs : ℕ),
      run TlsConnection.step .init ls = some c₀ →
      ((Throughout TlsConnection.step TlsConnection.EmptyMeansEof .init ls ∧
          Throughout (step codec) EofIsEof (start id reused timeoutMs c₀) es) ↔
        Along TlsConnection.step TlsConnection.AnswersWithBytes .init ls ∧
          Along (step codec) AnswersWithBytes (start id reused timeoutMs c₀) es) := by
  refine ⟨TlsConnection.emptyMeansEof_iff ls, TlsSocket.eofIsEof_iff ts, ?_⟩
  intro c₀ id reused timeoutMs hr
  rw [← TlsConnection.emptyMeansEof_iff ls]
  refine and_congr_right fun hpast => ?_
  exact throughout_iff_along (I := fun s => s.conn.ReadInv) (fun _ _ _ hi hs => readInv_step hi hs)
    (fun _ _ _ hi hm hs => eofIsEof_step hi hm hs) (TlsConnection.readInv_run hr)
    (eofIsEof_of_conn (hpast.last hr)) es

theorem empty_means_eof_iff_greeting :
    Throughout (step noCodec) EofIsEof (start 3 true 0 opened) atOnce := by
  have hopened : run TlsConnection.step .init [.connect, .runTask, .connectSuccess] = some opened := rfl
  have hpast : Along TlsConnection.step TlsConnection.AnswersWithBytes .init
      [.connect, .runTask, .connectSuccess] := by
    rintro _ ⟨rfl⟩
    refine ⟨trivial, ?_⟩
    rintro _ ⟨rfl⟩
    exact ⟨trivial, fun _ _ => ⟨trivial, trivial⟩⟩
  exact (((empty_means_eof_iff noCodec _ [] atOnce).2.2 opened 3 true 0 hopened).mpr
    ⟨hpast, along_of_valid (TlsConnection.readInv_run hopened) nofun (by decide)⟩).2

/-- The head of a response that goes on until the end of the connection, a piece of its body, and an
empty buffer. -/
def halfBody : List Event :=
  [.written true, .loop .runTask,
    .loop (.readBufferAvailable (some (ascii "HTTP/1.1 200 OK\r\n\r\nhalf"))), .resume, .loop .runTask,
    .loop (.readBufferAvailable (some []))]

/-- An empty buffer arrives for a parked read: `recv` returns `b""`, and it does so again when there
is data, although the stream has not ended. In an exchange the wake-up calls `feed_eof`, and half a
body is returned. -/
theorem empty_buffer_ends_stream :
    (∃ s, run TlsSocket.step TlsSocket.wrapped
      [.call (.recv 10) 0, .loop .runTask, .loop (.readBufferAvailable (some [])), .resume,
        .loop (.readBufferAvailable (some (ascii "data"))), .call (.recv 10) 0] = some s ∧
      ¬ TlsSocket.EofIsEof s ∧ s.conn.settled = [(0, .resolve [])] ∧ s.conn.eof = false ∧
      s.eof = true ∧ s.results.map ReadResult.data = [[], []] ∧ s.conn.buffer = [ascii "data"]) ∧
    ∃ s s', run (step noCodec) (start 0 false 5000 opened) halfBody = some s ∧ s.FeedsEof ∧
      s.conn.eof = false ∧ step noCodec s .resume = some s' ∧
      s'.stage.response?.map Response.content = some (ascii "half") := by
  constructor
  · refine ⟨_, rfl, fun hm => ?_, rfl, rfl, rfl, by decide, rfl⟩
    cases hm.2 rfl
  · refine ⟨_, _, rfl, ⟨_, true, 1, rfl, rfl, by decide⟩, rfl, rfl, by decide +kernel⟩

end Exchange

end Fizzpy
