import Fizzpy.Client.Ownership
import Fizzpy.Http.Completion

/-!
# Requests that are sent twice

`_exchange` turns a dead pooled connection into `_Stale`, and `_perform` sends the request again on
a new one, also when the write on the pooled one had gone through. Which runs do so is read off the
operations on connections of the `_perform` (`course`): `Course` says what they were, phase by
phase.
-/

namespace Fizzpy

open Foundation ResponseParser

namespace Client

/-- The operations on connections since the thread began its current `_perform`. -/
def courseStep (i : ℕ) (ops : List Action) (x : ℕ × Action) : List Action :=
  if x.1 = i then
    match x.2 with
    | .perform _ => []
    | .write ok => ops ++ [.write ok]
    | .read reply => ops ++ [.read reply]
    | .connect ok => ops ++ [.connect ok]
    | _ => ops
  else ops

def course (i : ℕ) (xs : List (ℕ × Action)) : List Action := xs.foldl (courseStep i) []

theorem course_concat (i : ℕ) (xs : List (ℕ × Action)) (x : ℕ × Action) :
    course i (xs ++ [x]) = courseStep i (course i xs) x := by
  unfold course
  rw [List.foldl_append]
  rfl

/-- What is read from a connection that turns out stale: nothing before a failure or the end of the
stream, or bytes after which the end of the stream neither gives a response nor raises. -/
inductive StaleReads (codec : Codec) : List ReadReply → Prop
  | failed : StaleReads codec [.failed]
  | ended : StaleReads codec [.chunk []]
  | cut {pieces : List Bytes} {p q : ResponseParser} (hd : ∀ d ∈ pieces, d ≠ [])
      (hp : feedAll codec fresh pieces = .ok p) (hq : p.feedEof codec = .ok q)
      (hr : q.response = none) : StaleReads codec (pieces.map .chunk ++ [.chunk []])

/-- The request is written to a pooled connection, which is stale, and then to a new one. (A
`_perform` whose first operation is a write has taken a pooled connection.) -/
def Resent (codec : Codec) (ops : List Action) : Prop :=
  ∃ (reads : List ReadReply) (rest : List Action),
    ops = .write true :: (reads.map .read ++ .connect true :: .write true :: rest) ∧
    StaleReads codec reads

/-- The request has not been written to two connections. -/
def SentOnce (sent : List ConnId) : Prop := ∀ c ∈ sent, ∀ c' ∈ sent, c = c'

theorem sentOnce_singleton (c : ConnId) : SentOnce [c] := by
  intro a ha b hb
  rw [List.mem_singleton.mp ha, List.mem_singleton.mp hb]

/-! ## The course of a `_perform` -/

/-- The exchange on a pooled connection, if there was one, has come to nothing. -/
inductive Lost (codec : Codec) : List Action → List ConnId → Prop
  | none : Lost codec [] []
  | unsent : Lost codec [.write false] []
  | stale {c : ConnId} {reads : List ReadReply} (h : StaleReads codec reads) :
      Lost codec (.write true :: reads.map .read) [c]

/-- The exchange on a new connection reads. -/
def Renewed (codec : Codec) (c : ConnId) (sent : List ConnId) (ops : List Action) : Prop :=
  ∃ (ops₀ : List Action) (sent₀ : List ConnId) (reads : List ReadReply),
    Lost codec ops₀ sent₀ ∧ c ∉ sent₀ ∧ sent = sent₀ ++ [c] ∧
    ops = ops₀ ++ .connect true :: .write true :: reads.map .read

/-- What the operations of a `_perform` were, and where the request was written. -/
def Course (codec : Codec) (sent : List ConnId) (ops : List Action) : Phase → Prop
  | .take | .write _ true => ops = [] ∧ sent = []
  | .read c true parser received =>
    sent = [c] ∧ ∃ pieces : List Bytes, (∀ d ∈ pieces, d ≠ []) ∧
      (received = false → pieces = []) ∧ feedAll codec fresh pieces = .ok parser ∧
      ops = .write true :: (pieces.map ReadReply.chunk).map .read
  | .closeStale _ | .connect => Lost codec ops sent
  | .write c false => ∃ ops₀, ops = ops₀ ++ [.connect true] ∧ Lost codec ops₀ sent ∧ c ∉ sent
  | .read c false _ _ => Renewed codec c sent ops
  | .idle | .give _ _ | .close _ _ | .closing _ => SentOnce sent ↔ ¬ Resent codec ops

theorem lost_sentOnce {codec : Codec} {ops : List Action} {sent : List ConnId}
    (h : Lost codec ops sent) : SentOnce sent := by
  cases h with
  | none => exact nofun
  | unsent => exact nofun
  | stale h => exact sentOnce_singleton _

/-- Where the first connect stands among the operations is read off them. -/
theorem connect_split {reads reads' : List ReadReply} {ok ok' : Bool} {l l' : List Action}
    (h : reads.map Action.read ++ .connect ok :: l = reads'.map .read ++ .connect ok' :: l') :
    reads = reads' ∧ ok = ok' ∧ l = l' := by
  induction reads generalizing reads' with
  | nil =>
    cases reads' with
    | nil => cases h; exact ⟨rfl, rfl, rfl⟩
    | cons r rs => cases h
  | cons r rs ih =>
    cases reads' with
    | nil => cases h
    | cons r' rs' =>
      rw [List.map_cons, List.map_cons, List.cons_append, List.cons_append, List.cons.injEq] at h
      obtain ⟨rfl, hl⟩ := ih h.2
      cases h.1
      exact ⟨rfl, hl⟩

/-- Without a connect nothing was sent again. -/
theorem not_resent_reads (codec : Codec) (ok : Bool) (reads : List ReadReply) :
    ¬ Resent codec (.write ok :: reads.map .read) := by
  rintro ⟨reads', rest, h, -⟩
  have hmem : Action.connect true ∈ Action.write ok :: reads.map .read := by
    rw [h]
    exact List.mem_cons_of_mem _ (List.mem_append_right _ List.mem_cons_self)
  rcases List.mem_cons.mp hmem with h | h
  · cases h
  · obtain ⟨_, _, h⟩ := List.mem_map.mp h
    cases h

/-- Nor was it before a write on the new connection has succeeded. -/
theorem not_resent_lost {codec : Codec} {ops : List Action} {sent : List ConnId} {ok : Bool}
    {l : List Action} (h : Lost codec ops sent) (hl : ok = true → ∀ rest, l ≠ .write true :: rest) :
    ¬ Resent codec (ops ++ .connect ok :: l) := by
  rintro ⟨reads, rest, heq, -⟩
  cases h with
  | none => cases heq
  | unsent => cases heq
  | stale h =>
    rw [List.cons_append, List.cons.injEq] at heq
    obtain ⟨-, hok, hrest⟩ := connect_split heq.2
    exact hl hok rest hrest

theorem not_resent_of_lost {codec : Codec} {ops : List Action} {sent : List ConnId}
    (h : Lost codec ops sent) : ¬ Resent codec ops := by
  cases h with
  | none => rintro ⟨_, _, heq, -⟩; cases heq
  | unsent => exact not_resent_reads codec false []
  | stale h => exact not_resent_reads codec true _

/-- The write on the new connection was the second one exactly if the pooled one was stale. -/
theorem renewed_sentOnce {codec : Codec} {c : ConnId} {sent : List ConnId} {ops : List Action}
    (h : Renewed codec c sent ops) : SentOnce sent ↔ ¬ Resent codec ops := by
  obtain ⟨ops₀, sent₀, reads, hlost, hc, rfl, rfl⟩ := h
  cases hlost with
  | none =>
    refine iff_of_true (sentOnce_singleton c) ?_
    rintro ⟨_, _, heq, -⟩
    cases heq
  | unsent =>
    refine iff_of_true (sentOnce_singleton c) ?_
    rintro ⟨_, _, heq, -⟩
    cases heq
  | stale h =>
    rename_i c₀ reads₀
    refine iff_of_false ?_ ?_
    · intro hs
      exact hc (List.mem_singleton.mpr (hs c (by simp) c₀ (by simp)))
    · exact not_not.mpr ⟨reads₀, reads.map .read, rfl, h⟩

/-- Every phase tells where the request was written. -/
theorem course_sentOnce {codec : Codec} {sent : List ConnId} {ops : List Action} {phase : Phase}
    (h : Course codec sent ops phase) : SentOnce sent ↔ ¬ Resent codec ops := by
  cases phase with
  | idle => exact h
  | give c r => exact h
  | close c r => exact h
  | closing cs => exact h
  | take =>
    obtain ⟨rfl, rfl⟩ := h
    exact iff_of_true nofun (not_resent_of_lost .none)
  | closeStale c => exact iff_of_true (lost_sentOnce h) (not_resent_of_lost h)
  | connect => exact iff_of_true (lost_sentOnce h) (not_resent_of_lost h)
  | write c reused =>
    cases reused with
    | true =>
      obtain ⟨rfl, rfl⟩ := h
      exact iff_of_true nofun (not_resent_of_lost .none)
    | false =>
      obtain ⟨ops₀, rfl, hlost, -⟩ := h
      exact iff_of_true (lost_sentOnce hlost) (not_resent_lost hlost nofun)
  | read c reused parser received =>
    cases reused with
    | true =>
      obtain ⟨rfl, pieces, -, -, -, rfl⟩ := h
      exact iff_of_true (sentOnce_singleton c) (not_resent_reads codec true _)
    | false => exact renewed_sentOnce h

/-! ## Outcomes -/

/-- The exchange is over, with a response or an exception. -/
def Outcome.Over : Outcome → Prop
  | .goOn (.give _ _) | .goOn (.close _ _) | .raised _ => True
  | _ => False

theorem course_over {codec : Codec} {t : Thread} {o : Outcome} {ops : List Action} (ho : o.Over)
    (h : SentOnce t.sent ↔ ¬ Resent codec ops) :
    Course codec (t.proceed o).sent ops (t.proceed o).phase := by
  cases o with
  | goOn phase =>
    cases phase with
    | give c r => exact h
    | close c r => exact h
    | _ => cases ho
  | returned r => cases ho
  | raised e => exact h

theorem afterLoop_over (c : ConnId) {reused : Bool} {parser : ResponseParser}
    (h : parser.response ≠ none ∨ reused = false) : (afterLoop c reused parser).Over := by
  unfold afterLoop
  split
  · rename_i hr
    rw [h.resolve_left (fun hne => hne hr)]
    trivial
  · split_ifs <;> trivial

/-- What a read leads to. -/
theorem afterRead_cases (codec : Codec) (c : ConnId) (reused : Bool) (parser : ResponseParser)
    (received : Bool) (reply : ReadReply) : (afterRead codec c reused parser received reply).Over ∨
      (∃ parser' received', afterRead codec c reused parser received reply =
        .goOn (.read c reused parser' received')) ∨
      (reused = true ∧ afterRead codec c reused parser received reply = .goOn (.closeStale c)) := by
  have hloop : ∀ q : ResponseParser, (afterLoop c reused q).Over ∨
      (reused = true ∧ afterLoop c reused q = .goOn (.closeStale c)) := by
    intro q
    cases hr : q.response with
    | some r => exact .inl (afterLoop_over c (.inl (by rw [hr]; nofun)))
    | none =>
      cases reused with
      | false => exact .inl (afterLoop_over c (.inr rfl))
      | true =>
        refine .inr ⟨rfl, ?_⟩
        unfold afterLoop
        rw [hr]
        rfl
  unfold afterRead
  cases reply with
  | failed =>
    dsimp only
    split_ifs with hs
    · exact .inr (.inr ⟨hs.1, rfl⟩)
    · exact .inl trivial
  | chunk data =>
    dsimp only
    split_ifs with hd hs
    · exact .inr (.inr ⟨hs.1, rfl⟩)
    · split
      · exact (hloop _).imp id .inr
      · exact .inl trivial
    · split
      · split_ifs
        · exact (hloop _).imp id .inr
        · exact .inr (.inl ⟨_, _, rfl⟩)
      · exact .inl trivial

/-- On a new connection nothing is stale. -/
theorem afterRead_new (codec : Codec) (c : ConnId) (parser : ResponseParser) (received : Bool)
    (reply : ReadReply) : (afterRead codec c false parser received reply).Over ∨
      ∃ parser' received', afterRead codec c false parser received reply =
        .goOn (.read c false parser' received') := by
  obtain h | h | ⟨h, -⟩ := afterRead_cases codec c false parser received reply
  · exact .inl h
  · exact .inr h
  · cases h

/-- A read in the exchange on a pooled connection. -/
theorem course_read_pooled {codec : Codec} {t : Thread} {c : ConnId} {parser : ResponseParser}
    {received : Bool} {ops : List Action}
    (h : Course codec t.sent ops (.read c true parser received)) (reply : ReadReply) :
    Course codec (t.proceed (afterRead codec c true parser received reply)).sent
      (ops ++ [.read reply]) (t.proceed (afterRead codec c true parser received reply)).phase := by
  obtain ⟨hsent, pieces, hd, hrec, hfeed, rfl⟩ := h
  have hops : Action.write true :: (pieces.map ReadReply.chunk).map .read ++ [.read reply] =
      .write true :: (pieces.map ReadReply.chunk ++ [reply]).map .read := by
    rw [List.map_append]
    rfl
  rw [hops]
  -- whatever ends the exchange here, the request has been written once
  have hover : SentOnce t.sent ↔
      ¬ Resent codec (.write true :: (pieces.map ReadReply.chunk ++ [reply]).map .read) := by
    rw [hsent]
    exact iff_of_true (sentOnce_singleton c) (not_resent_reads codec true _)
  have hstale : StaleReads codec (pieces.map ReadReply.chunk ++ [reply]) →
      Lost codec (.write true :: (pieces.map ReadReply.chunk ++ [reply]).map .read) t.sent := by
    intro h
    rw [hsent]
    exact .stale h
  cases reply with
  | failed =>
    cases received with
    | true => exact course_over trivial hover
    | false =>
      rw [hrec rfl] at hstale ⊢
      exact hstale .failed
  | chunk data =>
    by_cases hdata : data = []
    · subst hdata
      cases received with
      | false =>
        rw [hrec rfl] at hstale ⊢
        exact hstale .ended
      | true =>
        unfold afterRead
        dsimp only
        rw [if_pos rfl, if_neg (fun h => h.2 rfl)]
        cases hq : parser.feedEof codec with
        | error e => exact course_over trivial hover
        | ok q =>
          dsimp only
          cases hr : q.response with
          | none =>
            have hloop : afterLoop c true q = .goOn (.closeStale c) := by
              unfold afterLoop; rw [hr]; rfl
            rw [hloop]
            exact hstale (.cut hd hfeed hq hr)
          | some r => exact course_over (afterLoop_over c (.inl (by rw [hr]; nofun))) hover
    · unfold afterRead
      dsimp only
      rw [if_neg hdata]
      cases hq : parser.feed codec data with
      | error e => exact course_over trivial hover
      | ok q =>
        dsimp only
        have hnext : feedAll codec fresh (pieces ++ [data]) = .ok q := by
          rw [feedAll_concat, hfeed]
          exact hq
        split_ifs with hc
        · have hr : q.response ≠ none :=
            answers_feedAll codec _ answers_fresh q hnext (of_decide_eq_true hc)
          exact course_over (afterLoop_over c (.inl hr)) hover
        · refine ⟨hsent, pieces ++ [data], ?_, nofun, hnext, ?_⟩
          · intro d hmem
            rcases List.mem_append.mp hmem with hmem | hmem
            · exact hd d hmem
            · rw [List.mem_singleton.mp hmem]; exact hdata
          · rw [List.map_append (f := ReadReply.chunk)]
            rfl

/-- A read in the exchange on a new connection. -/
theorem course_read_new {codec : Codec} {t : Thread} {c : ConnId} {parser : ResponseParser}
    {received : Bool} {ops : List Action}
    (h : Course codec t.sent ops (.read c false parser received)) (reply : ReadReply) :
    Course codec (t.proceed (afterRead codec c false parser received reply)).sent
      (ops ++ [.read reply]) (t.proceed (afterRead codec c false parser received reply)).phase := by
  obtain ⟨ops₀, sent₀, reads, hlost, hc, hsent, rfl⟩ := h
  have hnext : Renewed codec c t.sent
      (ops₀ ++ .connect true :: .write true :: reads.map .read ++ [.read reply]) := by
    refine ⟨ops₀, sent₀, reads ++ [reply], hlost, hc, hsent, ?_⟩
    rw [List.map_append, List.append_assoc]
    rfl
  obtain hover | ⟨parser', received', heq⟩ := afterRead_new codec c parser received reply
  · exact course_over hover (renewed_sentOnce hnext)
  · rw [heq]
    exact hnext

/-- The write of an exchange. -/
theorem course_write {codec : Codec} {t : Thread} {c : ConnId} {reused ok : Bool} {ops : List Action}
    (h : Course codec t.sent ops (.write c reused)) :
    Course codec (t.sent ++ if ok then [c] else []) (ops ++ [.write ok])
      (({ t with sent := t.sent ++ if ok then [c] else [] } : Thread).proceed
        (afterWrite c reused ok)).phase := by
  cases reused with
  | true =>
    obtain ⟨rfl, hsent⟩ := h
    rw [hsent]
    cases ok with
    | true => exact ⟨rfl, [], nofun, fun _ => rfl, rfl, rfl⟩
    | false => exact .unsent
  | false =>
    obtain ⟨ops₀, rfl, hlost, hc⟩ := h
    rw [List.append_assoc]
    cases ok with
    | true => exact ⟨ops₀, t.sent, [], hlost, hc, rfl, rfl⟩
    | false =>
      show SentOnce (t.sent ++ []) ↔ ¬ Resent codec (ops₀ ++ [.connect true, .write false])
      rw [List.append_nil]
      exact iff_of_true (lost_sentOnce hlost) (not_resent_lost hlost nofun)

/-! ## Steps and runs -/

theorem sent_proceed (t : Thread) (o : Outcome) : (t.proceed o).sent = t.sent := by
  cases o <;> rfl

/-- A thread writes to the connection it has. -/
theorem sent_step {codec : Codec} {s s' : Client} {i : ℕ} {a : Action} (h : Step codec s i a s')
    {c : ConnId} (hc : c ∈ (s'.threads i).sent) :
    c ∈ (s.threads i).sent ∨ c ∈ (s.threads i).phase.held := by
  cases h with
  | perform h => rw [threads_setThread_self] at hc; cases hc
  | write h =>
    rename_i d reused ok
    rw [threads_setThread_self, sent_proceed] at hc
    rw [h]
    refine (List.mem_append.mp hc).imp id fun hc => ?_
    cases ok
    · cases hc
    · exact hc
  | _ =>
    rw [threads_setThread_self] at hc
    first
      | exact .inl hc
      | rw [sent_proceed] at hc; exact .inl hc

theorem course_step {codec : Codec} {s s' : Client} {i : ℕ} {a : Action} {ops : List Action}
    (hs : ∀ c ∈ (s.threads i).sent, c < s.opened.length)
    (hc : Course codec (s.threads i).sent ops (s.threads i).phase) (h : Step codec s i a s') :
    Course codec (s'.threads i).sent (courseStep i ops (i, a)) (s'.threads i).phase := by
  unfold courseStep
  rw [if_pos rfl]
  cases h with
  | perform h => rw [threads_setThread_self]; exact ⟨rfl, rfl⟩
  | takePooled h hp => rw [threads_setThread_self]; rw [h] at hc; exact hc
  | takeNone h hp =>
    rw [threads_setThread_self]
    rw [h] at hc
    obtain ⟨hops, hsent⟩ := hc
    rw [hops, hsent]
    exact .none
  | write h =>
    rw [threads_setThread_self, sent_proceed]
    rw [h] at hc
    exact course_write hc
  | read h =>
    rename_i c reused received parser reply
    rw [threads_setThread_self]
    rw [h] at hc
    cases reused with
    | true => exact course_read_pooled hc reply
    | false => exact course_read_new hc reply
  | connected h =>
    rw [threads_setThread_self]
    rw [h] at hc
    exact ⟨ops, rfl, hc, fun hmem => absurd (hs _ hmem) (Nat.lt_irrefl _)⟩
  | connectFailed h =>
    rw [threads_setThread_self]
    rw [h] at hc
    exact iff_of_true (lost_sentOnce hc) (not_resent_lost hc nofun)
  | give h | close h | closeStale h | closeAll h | closeNext h | closeDone h =>
    rw [threads_setThread_self]
    rw [h] at hc
    exact hc

/-- After the steps `xs`. -/
structure Courses (codec : Codec) (xs : List (ℕ × Action)) (s : Client) : Prop where
  owned : s.Owned
  sent : ∀ i, ∀ c ∈ (s.threads i).sent, c < s.opened.length
  course : ∀ i, Course codec (s.threads i).sent (course i xs) (s.threads i).phase

theorem courses_step {codec : Codec} {xs : List (ℕ × Action)} {s s' : Client} {x : ℕ × Action}
    (hI : Courses codec xs s) (h : step codec s x = some s') : Courses codec (xs ++ [x]) s' := by
  have hstep : Step codec s x.1 x.2 s' := step_sound h
  refine ⟨owned_step hI.owned h, fun j c hc => ?_, fun j => ?_⟩
  · refine Nat.lt_of_lt_of_le ?_ (opened_step hstep).length_le
    by_cases hj : j = x.1
    · subst hj
      obtain hc | hc := sent_step hstep hc
      · exact hI.sent _ c hc
      · exact hI.owned.opened (.held x.1) c hc
    · rw [threads_step_ne hstep hj] at hc
      exact hI.sent j c hc
  · rw [course_concat]
    by_cases hj : j = x.1
    · subst hj
      exact course_step (hI.sent _) (hI.course _) hstep
    · rw [threads_step_ne hstep hj, courseStep, if_neg (Ne.symm hj)]
      exact hI.course j

theorem courses_run {codec : Codec} {xs : List (ℕ × Action)} {s : Client}
    (h : run (step codec) init xs = some s) : Courses codec xs s :=
  run_history (I := Courses codec) (V := fun _ => True)
    (fun _ _ _ _ hI _ h => courses_step hI h) (fun _ _ => trivial) []
    ⟨owned_init, fun _ => nofun, fun _ => iff_of_true nofun (not_resent_of_lost .none)⟩ h

/-- **At most one delivery, when.** In every state that threads reach, the request of a thread's
current `_perform` has been written to one connection at most, unless the write on a pooled
connection succeeded, the connection then turned out stale and the write on a new one succeeded. -/
theorem sent_once_iff {codec : Codec} {xs : List (ℕ × Action)} {s : Client}
    (h : run (step codec) init xs = some s) (i : ℕ) :
    (∀ c ∈ (s.threads i).sent, ∀ c' ∈ (s.threads i).sent, c = c') ↔ ¬ Resent codec (course i xs) :=
  course_sentOnce ((courses_run h).course i)

def order : Job :=
  ⟨(str "a.b", 443), ascii "POST /orders HTTP/1.1\r\nHost: a.b\r\nContent-Length: 1\r\n\r\n7"⟩

/-- A `_perform` over a pooled connection that takes the request and answers it. -/
def orderOnce : List (ℕ × Action) :=
  pooledOnce 0 order ++
    [.perform order, .take, .write true,
      .read (.chunk (ascii "HTTP/1.1 201 Created\r\nContent-Length: 0\r\n\r\n")), .give].map (0, ·)

/-- A `_perform` over a pooled connection that takes the request and ends its stream. -/
def orderTwice : List (ℕ × Action) :=
  pooledOnce 0 order ++
    [.perform order, .take, .write true, .read (.chunk []), .closeStale, .connect true,
      .write true].map (0, ·)

/-- A `POST` is written to the pooled connection, and to a new one. -/
theorem order_sent_twice :
    Job.of (str "POST") (str "a.b", 443) (str "/orders") [] (some (ascii "7")) = some order ∧
    (run (step noCodec) init orderTwice).map (fun s => ((s.threads 0).job, (s.threads 0).sent)) =
      some (order, [0, 1]) := by
  decide +kernel

theorem sent_once_iff_order :
    (∃ s, run (step noCodec) init orderOnce = some s ∧ (s.threads 0).sent = [0] ∧
      ¬ Resent noCodec (course 0 orderOnce)) ∧
    ∃ s, run (step noCodec) init orderTwice = some s ∧ (s.threads 0).sent = [0, 1] ∧
      Resent noCodec (course 0 orderTwice) := by
  have honce : (run (step noCodec) init orderOnce).map (fun s => (s.threads 0).sent) = some [0] := by
    decide +kernel
  have htwice : (run (step noCodec) init orderTwice).map (fun s => (s.threads 0).sent) = some [0, 1] := by
    decide +kernel
  obtain ⟨s, hs, hsent⟩ := Option.map_eq_some_iff.mp honce
  obtain ⟨s', hs', hsent'⟩ := Option.map_eq_some_iff.mp htwice
  refine ⟨⟨s, hs, hsent, (sent_once_iff hs 0).mp ?_⟩, s', hs', hsent', ?_⟩
  · rw [hsent]
    exact sentOnce_singleton 0
  · by_contra hnot
    have h := (sent_once_iff hs' 0).mpr hnot
    rw [hsent'] at h
    exact absurd (h 0 (by simp) 1 (by simp)) (by decide)

end Client

end Fizzpy
