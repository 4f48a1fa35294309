import Fizzpy.Client.Network
import Fizzpy.Http.Completion

/-!
# Requests and their answers

When no server sends an interim response, every result pairs with the answer to its request, and a
connection goes back to the pool with nothing unread. An interim response is taken for the answer,
and the final one for that to the next request.
-/

namespace Fizzpy

open Foundation Client ResponseParser

namespace Network

/-! ## Reading an answer -/

/-- The parser of an exchange, and the bytes still under way: the whole answer in all, or nothing
when none was sent. -/
def Reading (codec : Codec) (parser : ResponseParser) (rest : Bytes) : Option FinalResponse → Prop
  | some m => m.framing.isUntilClose = false ∧ rest ≠ [] ∧ ∃ pieces : List Bytes,
      feedAll codec fresh pieces = .ok parser ∧ pieces.flatten ++ rest = m.encode
  | none => parser = fresh ∧ rest = []

theorem encode_ne_nil (m : FinalResponse) : m.encode ≠ [] := by
  unfold FinalResponse.encode Head.encode Head.statusLine Head.version
  simp [ascii]

/-- The whole message, in pieces. -/
theorem feedAll_encode (codec : Codec) {m : FinalResponse} (pieces : List Bytes)
    (hm : m.framing.isUntilClose = false) (h : pieces.flatten = m.encode) :
    (∃ p content, feedAll codec fresh pieces = .ok p ∧ p.isComplete ∧ p.buf = [] ∧
      decompress codec m.head.headers m.framing.data = .ok content ∧
      p.response = some (responseOf m content)) ∨
    ∃ e, feedAll codec fresh pieces = .error e ∧
      decompress codec m.head.headers m.framing.data = .error e.1 := by
  have hout := outcome_feedAll codec pieces
  obtain ⟨p, hp, hfeed⟩ := feed_encode codec m hm []
  rw [List.append_nil] at hfeed
  rw [h, hfeed] at hout
  cases hd : decompress codec m.head.headers m.framing.data with
  | ok content =>
    rw [finalize_hasRead hp hd, outcome_ok, outcome_eq_ok_iff] at hout
    exact .inl ⟨_, content, hout, rfl, hp.buf, rfl, rfl⟩
  | error e =>
    have hfin : finalize codec p = .error (e, p) := by
      unfold finalize
      rw [hp.headers, hp.body, hd]
    rw [hfin, outcome_error] at hout
    cases hall : feedAll codec fresh pieces with
    | ok q => rw [hall] at hout; cases hout
    | error e' =>
      rw [hall] at hout
      cases hout
      exact .inr ⟨e', rfl, rfl⟩

/-- A piece of the answer is fed. The parser is complete exactly when nothing is left, and then has
the response; it raises only what the content encoding gives rise to. -/
theorem feed_piece {codec : Codec} {m : FinalResponse} {pieces : List Bytes} {parser : ResponseParser}
    {data rest : Bytes} (hm : m.framing.isUntilClose = false)
    (hp : feedAll codec fresh pieces = .ok parser)
    (hsum : pieces.flatten ++ (data ++ rest) = m.encode) :
    match parser.feed codec data with
    | .ok q =>
      if q.isComplete then rest = [] ∧ ∃ content,
        decompress codec m.head.headers m.framing.data = .ok content ∧
        q.response = some (responseOf m content)
      else rest ≠ []
    | .error e => decompress codec m.head.headers m.framing.data = .error e.1 := by
  have hdata : feedAll codec fresh (pieces ++ [data]) = parser.feed codec data := by
    rw [feedAll_concat, hp, ok_bind]
  have hrest : feedAll codec fresh (pieces ++ [data] ++ [rest]) =
      parser.feed codec data >>= fun q => q.feed codec rest := by
    rw [feedAll_concat, hdata]
  have hwhole := feedAll_encode codec (pieces ++ [data] ++ [rest]) hm (by simpa using hsum)
  rw [hrest] at hwhole
  -- with nothing left, the piece was the last one
  have hlast : rest = [] → _ := fun h =>
    feedAll_encode codec (pieces ++ [data]) hm (by simpa [h] using hsum)
  rw [hdata] at hlast
  cases hq : parser.feed codec data with
  | error e =>
    rw [hq] at hwhole
    obtain ⟨p, content, h, -⟩ | ⟨e', h, hd⟩ := hwhole
    · cases h
    · cases h; exact hd
  | ok q =>
    rw [hq, ok_bind] at hwhole
    dsimp only
    split_ifs with hc
    · rw [feed_of_complete codec hc] at hwhole
      obtain ⟨p, content, h, -, hbuf, hd, hr⟩ | ⟨e', h, -⟩ := hwhole
      · cases h
        exact ⟨(List.append_eq_nil_iff.mp hbuf).2, content, hd, hr⟩
      · cases h
    · intro hnil
      rw [hq] at hlast
      obtain ⟨p, content, h, hcomplete, -⟩ | ⟨e', h, -⟩ := hlast hnil
      · cases h; exact hc hcomplete
      · cases h

/-! ## Outcomes -/

/-- An outcome of the exchange over `c`, where `rest` is under way, suits the answer. -/
def Suits (codec : Codec) (c : ConnId) (rest : Bytes) (answer : Option FinalResponse) :
    Outcome → Prop
  | .goOn (.closeStale _) => True
  | .goOn (.read d _ parser _) => d = c ∧ Reading codec parser rest answer
  | .goOn (.give d r) | .goOn (.close d r) => d = c ∧ rest = [] ∧ Pairs codec (.ok r) answer
  | .raised e => Pairs codec (.error e) answer
  | _ => False

theorem pairs_transport (codec : Codec) (answer : Option FinalResponse) :
    Pairs codec (.error .transport) answer := by
  cases answer <;> trivial

theorem afterWrite_suits (codec : Codec) (c : ConnId) (reused ok : Bool) {rest : Bytes}
    {answer : Option FinalResponse} (h : ok = true → Reading codec fresh rest answer) :
    Suits codec c rest answer (afterWrite c reused ok) := by
  unfold afterWrite
  cases ok with
  | true => exact ⟨rfl, h rfl⟩
  | false =>
    cases reused with
    | true => trivial
    | false => exact pairs_transport codec answer

/-- The exchange ends with a response, or with none when the server did not answer. -/
theorem afterLoop_suits (codec : Codec) (c : ConnId) (reused : Bool) {parser : ResponseParser}
    {rest : Bytes} {answer : Option FinalResponse}
    (h : match parser.response with
      | some r => rest = [] ∧ Pairs codec (.ok r) answer
      | none => answer = none) : Suits codec c rest answer (afterLoop c reused parser) := by
  unfold afterLoop
  cases hr : parser.response with
  | none =>
    rw [hr] at h
    dsimp only at h ⊢
    subst h
    split_ifs
    · trivial
    · rfl
  | some r =>
    rw [hr] at h
    dsimp only
    split_ifs
    · exact ⟨rfl, h⟩
    · exact ⟨rfl, h⟩

/-- No byte of an answer is left out at the end of the stream: there was none. -/
theorem afterRead_suits_end {codec : Codec} (c : ConnId) (reused received : Bool)
    {parser : ResponseParser} {answer : Option FinalResponse} (h : Reading codec parser [] answer) :
    Suits codec c [] answer (afterRead codec c reused parser received (.chunk [])) := by
  cases answer with
  | some m => exact absurd rfl h.2.1
  | none =>
    obtain ⟨rfl, -⟩ := h
    unfold afterRead
    dsimp only
    rw [if_pos rfl]
    split_ifs
    · trivial
    · exact afterLoop_suits codec c reused rfl

theorem afterRead_suits_data {codec : Codec} (c : ConnId) (reused received : Bool)
    {parser : ResponseParser} {answer : Option FinalResponse} {data rest : Bytes} (hd : data ≠ [])
    (h : Reading codec parser (data ++ rest) answer) :
    Suits codec c rest answer (afterRead codec c reused parser received (.chunk data)) := by
  cases answer with
  | none => exact absurd (List.append_eq_nil_iff.mp h.2).1 hd
  | some m =>
    obtain ⟨hm, -, pieces, hp, hsum⟩ := h
    have hpiece := feed_piece hm hp hsum
    unfold afterRead
    dsimp only
    rw [if_neg hd]
    cases hq : parser.feed codec data with
    | error e => rw [hq] at hpiece; exact hpiece
    | ok q =>
      rw [hq] at hpiece
      dsimp only at hpiece ⊢
      split_ifs at hpiece ⊢ with hc
      · obtain ⟨hrest, content, hd, hr⟩ := hpiece
        refine afterLoop_suits codec c reused ?_
        rw [hr]
        exact ⟨hrest, content, hd, rfl⟩
      · refine ⟨rfl, hm, hpiece, pieces ++ [data], ?_, ?_⟩
        · rw [feedAll_concat, hp, ok_bind, hq]
        · rw [← hsum, List.flatten_append, List.flatten_singleton, List.append_assoc]

/-! ## Threads -/

/-- Where a thread stands with the answer to its current request, behind those to the past ones. -/
def Awaiting (codec : Codec) (inbox : ConnId → Bytes) (past answers : List (Option FinalResponse)) :
    Phase → Prop
  | .idle | .closing _ => answers = past
  | .take | .closeStale _ | .connect => ∃ y, answers = past ++ [y]
  | .write c _ => inbox c = [] ∧ ∃ y, answers = past ++ [y]
  | .read c _ parser _ => ∃ y, answers = past ++ [y] ∧ Reading codec parser (inbox c) y
  | .give c r | .close c r => inbox c = [] ∧ ∃ y, answers = past ++ [y] ∧ Pairs codec (.ok r) y

def Served (codec : Codec) (inbox : ConnId → Bytes) (t : Thread)
    (answers : List (Option FinalResponse)) : Prop :=
  ∃ past, List.Forall₂ (Pairs codec) t.results past ∧ Awaiting codec inbox past answers t.phase

/-- Only the thread's own connection matters to it. -/
theorem Served.congr {codec : Codec} {inbox inbox' : ConnId → Bytes} {t : Thread}
    {answers : List (Option FinalResponse)} (h : Served codec inbox t answers)
    (hc : ∀ c, t.phase.conn? = some c → inbox' c = inbox c) : Served codec inbox' t answers := by
  obtain ⟨past, hpast, ha⟩ := h
  refine ⟨past, hpast, ?_⟩
  cases hp : t.phase with
  | write c reused => rw [hp] at ha hc; rwa [Awaiting, hc c rfl]
  | read c reused parser received => rw [hp] at ha hc; rwa [Awaiting, hc c rfl]
  | give c r => rw [hp] at ha hc; rwa [Awaiting, hc c rfl]
  | close c r => rw [hp] at ha hc; rwa [Awaiting, hc c rfl]
  | _ => rw [hp] at ha; exact ha

theorem served_proceed {codec : Codec} {inbox : ConnId → Bytes} {t : Thread} {c : ConnId} {o : Outcome}
    {past : List (Option FinalResponse)} {y : Option FinalResponse}
    (hpast : List.Forall₂ (Pairs codec) t.results past) (ho : Suits codec c (inbox c) y o) :
    Served codec inbox (t.proceed o) (past ++ [y]) := by
  cases o with
  | returned r => cases ho
  | raised e => exact ⟨past ++ [y], List.rel_append hpast (.cons ho .nil), rfl⟩
  | goOn phase =>
    refine ⟨past, hpast, ?_⟩
    cases phase with
    | closeStale d => exact ⟨y, rfl⟩
    | read d reused parser received => obtain ⟨rfl, ho⟩ := ho; exact ⟨y, rfl, ho⟩
    | give d r => obtain ⟨rfl, hrest, ho⟩ := ho; exact ⟨hrest, y, rfl, ho⟩
    | close d r => obtain ⟨rfl, hrest, ho⟩ := ho; exact ⟨hrest, y, rfl, ho⟩
    | _ => cases ho

/-! ## Steps -/

structure Consistent (codec : Codec) (w : Network) : Prop where
  owned : w.client.Owned
  pooled : ∀ c ∈ w.client.pool.conns, w.inbox c = []
  unopened : ∀ c, w.client.opened.length ≤ c → w.inbox c = []
  served : ∀ i, Served codec w.inbox (w.client.threads i) (w.answers i)

theorem consistent_init (codec : Codec) : Consistent codec init :=
  ⟨owned_init, fun _ _ => rfl, fun _ _ => rfl, fun _ => ⟨[], .nil, rfl⟩⟩

/-- A read takes bytes off the thread's own connection. -/
theorem inboxAfter_frame {w : Network} {i : ℕ} {a : Action} {inbox : ConnId → Bytes}
    (h : w.inboxAfter i a = some inbox) {c : ConnId} (hc : c ∉ (w.client.threads i).phase.held) :
    inbox c = w.inbox c := by
  unfold inboxAfter at h
  split at h
  · split at h
    · rename_i d reused parser received hp
      split_ifs at h
      cases h
      refine Function.update_of_ne ?_ _ _
      rintro rfl
      rw [hp] at hc
      exact hc (List.mem_singleton_self c)
    · cases h
  · cases h; rfl

/-- What the step of a thread makes of its answers. -/
theorem served_act {codec : Codec} {w : Network} {i : ℕ} {a : Action} {client : Client}
    {inbox : ConnId → Bytes} (hw : Consistent codec w) (h : Client.Step codec w.client i a client)
    (hin : w.inboxAfter i a = some inbox) :
    Served codec inbox (client.threads i) (answersAfter (w.answers i) a) := by
  obtain ⟨past, hpast, ha⟩ := hw.served i
  cases h with
  | perform h =>
    cases hin
    rw [threads_setThread_self]
    rw [h] at ha
    exact ⟨past, hpast, none, congrArg (· ++ [none]) ha⟩
  | takePooled h hp =>
    cases hin
    rw [threads_setThread_self]
    rw [h] at ha
    exact ⟨past, hpast, hw.pooled _ (Pool.mem_conns_iff.mpr ⟨_, (Pool.take_spec hp).1⟩), ha⟩
  | takeNone h hp =>
    cases hin
    rw [threads_setThread_self]
    rw [h] at ha
    exact ⟨past, hpast, ha⟩
  | write h =>
    cases hin
    rw [threads_setThread_self]
    rw [h] at ha
    obtain ⟨hin, y, hy⟩ := ha
    rw [hy, answersAfter, List.dropLast_concat]
    exact served_proceed hpast (afterWrite_suits codec _ _ _ fun _ => ⟨rfl, hin⟩)
  | read h =>
    rename_i c reused received parser reply
    rw [threads_setThread_self]
    rw [h] at ha
    obtain ⟨y, hy, hread⟩ := ha
    show Served codec inbox _ (w.answers i)
    rw [hy]
    cases reply with
    | failed =>
      cases hin
      refine served_proceed (c := c) hpast ?_
      unfold afterRead
      dsimp only
      split_ifs
      · trivial
      · exact pairs_transport codec y
    | chunk data =>
      simp only [inboxAfter, h] at hin
      split_ifs at hin with hdata
      cases hin
      obtain ⟨⟨rest, hrest⟩, hend⟩ := hdata
      refine served_proceed (c := c) hpast ?_
      rw [Function.update_self, ← hrest, List.drop_left]
      rw [← hrest] at hread hend
      by_cases hd : data = []
      · subst hd
        have hnil : rest = [] := hend rfl
        subst hnil
        exact afterRead_suits_end c reused received hread
      · exact afterRead_suits_data c reused received hd hread
  | give h | close h =>
    cases hin
    rw [threads_setThread_self]
    rw [h] at ha
    obtain ⟨-, y, hy, hpair⟩ := ha
    exact ⟨past ++ [y], List.rel_append hpast (.cons hpair .nil), hy⟩
  | closeStale h | closeAll h | closeNext h | closeDone h =>
    cases hin
    rw [threads_setThread_self]
    rw [h] at ha
    exact ⟨past, hpast, ha⟩
  | connected h =>
    cases hin
    rw [threads_setThread_self]
    rw [h] at ha
    exact ⟨past, hpast, hw.unopened _ (Nat.le_refl _), ha⟩
  | connectFailed h =>
    cases hin
    rw [threads_setThread_self]
    rw [h] at ha
    obtain ⟨y, hy⟩ := ha
    exact ⟨past ++ [y], List.rel_append hpast (.cons (pairs_transport codec y) .nil), hy⟩

/-- A step of a thread that suits its answer keeps the rest of the network as it is. -/
theorem Consistent.advance {codec : Codec} {w : Network} {i : ℕ} {a : Action} {client : Client}
    {inbox : ConnId → Bytes} {answers : List (Option FinalResponse)} (hw : Consistent codec w)
    (h : w.client.step codec (i, a) = some client)
    (hframe : ∀ c, c ∉ (w.client.threads i).phase.held → inbox c = w.inbox c)
    (hgive : a = .give → inbox = w.inbox) (hserved : Served codec inbox (client.threads i) answers) :
    Consistent codec ⟨client, inbox, Function.update w.answers i answers⟩ := by
  have hstep : Client.Step codec w.client i a client := step_sound h
  refine ⟨owned_step hw.owned h, fun c hc => ?_, fun c hc => ?_, fun j => ?_⟩
  · obtain hc | ⟨ha, r, hp⟩ := pool_step hstep hc
    · rw [← hw.pooled c hc]
      refine hframe c fun hheld => ?_
      exact nomatch hw.owned.exclusive.unique (k := .pooled) (l := .held i) hc hheld
    · obtain ⟨past, -, hawait⟩ := hw.served i
      rw [hp] at hawait
      show inbox c = []
      rw [hgive ha]
      exact hawait.1
  · have hc' : w.client.opened.length ≤ c := (opened_step hstep).length_le.trans hc
    rw [← hw.unopened c hc']
    exact hframe c fun hheld =>
      absurd (hw.owned.opened (.held i) c hheld) (Nat.not_lt.mpr hc')
  · by_cases hj : j = i
    · subst hj
      show Served codec inbox (client.threads j) (Function.update w.answers j answers j)
      rwa [Function.update_self]
    · show Served codec inbox (client.threads j) (Function.update w.answers i answers j)
      rw [Function.update_of_ne hj, threads_step_ne hstep hj]
      refine (hw.served j).congr fun c hc => hframe c fun hheld => ?_
      have hjc : c ∈ w.client.cell (.held j) := by
        show c ∈ (w.client.threads j).phase.held
        rw [Phase.held_of_conn hc]
        exact List.mem_singleton_self c
      cases hw.owned.exclusive.unique (l := .held i) hjc hheld
      exact hj rfl

/-- The server goes straight to the final response. -/
def Event.Direct : Event → Prop
  | .act _ _ => True
  | .answered _ answer => answer.interims = []

theorem consistent_step {codec : Codec} {w w' : Network} {e : Event} (hw : Consistent codec w)
    (he : e.Direct) (h : step codec w e = some w') : Consistent codec w' := by
  cases e with
  | act i a =>
    obtain ⟨client, hclient, h⟩ := Option.bind_eq_some_iff.mp h
    obtain ⟨inbox, hin, h⟩ := Option.bind_eq_some_iff.mp h
    cases h
    refine hw.advance hclient (fun c hc => inboxAfter_frame hin hc) ?_
      (served_act hw (step_sound hclient) hin)
    rintro rfl
    cases hin
    rfl
  | answered i answer =>
    unfold step at h
    dsimp only at h
    split at h
    · rename_i c reused hp
      obtain ⟨client, hclient, h⟩ := Option.bind_eq_some_iff.mp h
      cases h
      refine hw.advance hclient (fun d hd => ?_) nofun ?_
      · refine Function.update_of_ne ?_ _ _
        rintro rfl
        rw [hp] at hd
        exact hd (List.mem_singleton_self d)
      · obtain ⟨past, hpast, ha⟩ := hw.served i
        rw [hp] at ha
        obtain ⟨hin, y, hy⟩ := ha
        have hencode : answer.encode = answer.final.encode := by
          unfold ServerAnswer.encode
          rw [show answer.interims = [] from he]
          rfl
        unfold Client.step at hclient
        simp only [hp] at hclient
        cases hclient
        rw [threads_setThread_self, hy, List.dropLast_concat]
        refine served_proceed (c := c) hpast (afterWrite_suits codec c reused true fun _ => ?_)
        rw [Function.update_self, hin, hencode]
        exact ⟨answer.delimited, encode_ne_nil _, [], rfl, rfl⟩
    · cases h

theorem consistent_run {codec : Codec} {es : List Event} {w : Network}
    (hes : ∀ e ∈ es, e.Direct) (h : run (step codec) init es = some w) : Consistent codec w :=
  run_history (I := fun _ => Consistent codec) (fun _ _ _ _ hw he h => consistent_step hw he h) hes []
    (consistent_init codec) h

theorem Awaiting.past_prefix {codec : Codec} {inbox : ConnId → Bytes} {phase : Phase}
    {past answers : List (Option FinalResponse)} (h : Awaiting codec inbox past answers phase) :
    past <+: answers := by
  have hconcat : ∀ {y}, answers = past ++ [y] → past <+: answers := fun {y} hy => ⟨[y], hy.symm⟩
  cases phase with
  | idle | closing cs => exact ⟨[], by rw [h, List.append_nil]⟩
  | take | closeStale c | connect => obtain ⟨y, hy⟩ := h; exact hconcat hy
  | write c reused => obtain ⟨-, y, hy⟩ := h; exact hconcat hy
  | read c reused parser received => obtain ⟨y, hy, -⟩ := h; exact hconcat hy
  | give c r | close c r => obtain ⟨-, y, hy, -⟩ := h; exact hconcat hy

/-- **Pairing.** Over servers that send no interim responses, whatever threads do on however many
connections, every result pairs with the answer to its request; and while a thread reads an answer
there is more of it to come. -/
theorem paired_without_interims {codec : Codec} {es : List Event} {w : Network}
    (h : run (step codec) init es = some w) (hes : ∀ e ∈ es, e.Direct) :
    w.Paired codec ∧ ∀ i c reused parser received m,
      (w.client.threads i).phase = .read c reused parser received →
      (w.answers i).getLast? = some (some m) → w.inbox c ≠ [] := by
  have hw := consistent_run hes h
  constructor
  · intro i k x hx
    obtain ⟨past, hpast, ha⟩ := hw.served i
    obtain ⟨hk, rfl⟩ := List.getElem?_eq_some_iff.mp hx
    have hk' : k < past.length := hpast.length_eq ▸ hk
    obtain ⟨tail, htail⟩ := ha.past_prefix
    refine ⟨past[k], ?_, hpast.get hk hk'⟩
    rw [← htail, List.getElem?_append_left hk', List.getElem?_eq_getElem hk']
  · intro i c reused parser received m hp hm
    obtain ⟨past, -, ha⟩ := hw.served i
    rw [hp] at ha
    obtain ⟨y, hy, hread⟩ := ha
    rw [hy, List.getLast?_concat] at hm
    cases hm
    exact hread.2.1

/-! ## Early hints -/

/-- **Interim responses end the exchange.** Whatever follows an interim response, and in whatever
pieces, the parser is complete with it, or raises, and does not read on. -/
theorem interim_complete {codec : Codec} {m : InterimResponse} {pieces : List Bytes} {rest : Bytes}
    {q : ResponseParser} (h : pieces.flatten = m.head.encode ++ rest)
    (hq : feedAll codec fresh pieces = .ok q) :
    q.isComplete ∧ q.buf = rest ∧ ∃ r, q.response = some r ∧ r.statusCode = m.head.status := by
  have hout := outcome_feedAll codec pieces
  obtain ⟨p, hstatus, hbuf, hfeed⟩ := feed_interim codec m rest
  rw [h, hfeed, hq, outcome_ok] at hout
  have hfin := outcome_eq_ok_iff.mp hout.symm
  unfold finalize at hfin
  split at hfin
  · cases hfin
    exact ⟨rfl, hbuf, _, rfl, hstatus⟩
  · cases hfin

/-- A request on a new connection whose server has sent what the client reads in one piece. -/
def fetch (answer : ServerAnswer) (data : Bytes) : List Event :=
  [.act 0 (.perform ⟨(str "a.b", 443), ascii "GET / HTTP/1.1\r\nHost: a.b\r\n\r\n"⟩), .act 0 .take,
    .act 0 (.connect true), .answered 0 answer, .act 0 (.read (.chunk data)), .act 0 .give]

/-- The same on the pooled connection. -/
def fetchPooled (answer : ServerAnswer) (data : Bytes) : List Event :=
  [.act 0 (.perform ⟨(str "a.b", 443), ascii "GET / HTTP/1.1\r\nHost: a.b\r\n\r\n"⟩), .act 0 .take,
    .answered 0 answer, .act 0 (.read (.chunk data)), .act 0 .give]

def statusAndContent : Except RequestExn Response → Option (ℕ × Bytes)
  | .ok r => some (r.statusCode, r.content)
  | .error _ => none

/-- Two requests; before its answer to the first one the server sends early hints. -/
def hintedRun : List Event :=
  fetch ⟨[earlyHints], letter 65, rfl⟩ earlyHints.head.encode ++
    fetchPooled ⟨[], letter 66, rfl⟩ (letter 65).encode

/-- The hints are returned for the first request, and its answer for the second one. -/
theorem early_hints_returned : ∃ w, run (step noCodec) init hintedRun = some w ∧
    (w.client.threads 0).results.map statusAndContent = [some (103, []), some (200, [65])] ∧
    (w.answers 0).map (Option.map fun m => m.framing.data) = [some [65], some [66]] ∧
    ¬ w.Paired noCodec := by
  have h : (run (step noCodec) init hintedRun).map (fun w =>
      ((w.client.threads 0).results.map statusAndContent,
        (w.answers 0).map (Option.map fun m => m.framing.data))) =
      some ([some (103, []), some (200, [65])], [some [65], some [66]]) := by
    decide +kernel
  obtain ⟨w, hw, heq⟩ := Option.map_eq_some_iff.mp h
  obtain ⟨hresults, hanswers⟩ := Prod.mk.inj heq
  refine ⟨w, hw, hresults, hanswers, fun hpaired => ?_⟩
  have hfirst : (w.client.threads 0).results[0]?.map statusAndContent = some (some (103, [])) := by
    rw [← List.getElem?_map, hresults]
    rfl
  obtain ⟨x, hx, hstatus⟩ := Option.map_eq_some_iff.mp hfirst
  obtain ⟨y, -, hpair⟩ := hpaired 0 0 x hx
  cases x with
  | error e => cases hstatus
  | ok r =>
    cases y with
    | none => exact hpair
    | some m =>
      obtain ⟨content, -, rfl⟩ := hpair
      have hm : m.head.status = 103 := congrArg Prod.fst (Option.some.inj hstatus)
      exact absurd m.final (by omega)

theorem paired_without_interims_letter : ∃ w,
    run (step noCodec) init (fetch ⟨[], letter 65, rfl⟩ (letter 65).encode) = some w ∧
    (w.client.threads 0).results.map statusAndContent = [some (200, [65])] ∧ w.Paired noCodec := by
  have h : (run (step noCodec) init (fetch ⟨[], letter 65, rfl⟩ (letter 65).encode)).map
      (fun w => (w.client.threads 0).results.map statusAndContent) = some [some (200, [65])] := by
    decide +kernel
  obtain ⟨w, hw, heq⟩ := Option.map_eq_some_iff.mp h
  exact ⟨w, hw, heq, (paired_without_interims hw (by simp [fetch, Event.Direct])).1⟩

end Network

end Fizzpy
