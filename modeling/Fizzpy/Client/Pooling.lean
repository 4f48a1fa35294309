import Fizzpy.Client.Replies

/-!
# Which connections are pooled

An exchange pools its connection when the response says that it persists, also when the stream has
ended under the response or more than the response was read. `poolsClean_iff` says which reads lead
there.
-/

namespace Fizzpy

open Foundation ResponseParser

namespace Client

/-- The response ended the exchange where it ends itself: the stream did not end, and no part of what
was read is a whole response without the rest. -/
structure Clean (codec : Codec) (replies : List ReadReply) : Prop where
  live : ReadReply.chunk [] ∉ replies
  exact : ∀ a b, a ++ b = bytesOf replies → b ≠ [] → ∀ q, feed codec fresh a = .ok q →
    q.isComplete = false

/-- Every thread that is about to pool its connection has left it live and clean. -/
def PoolsClean (codec : Codec) (s : Client × Record) : Prop :=
  ∀ i c r, (s.1.threads i).phase = .give c r → Clean codec (s.2 i)

/-- The response says that its connection persists. -/
def Persistent (p : ResponseParser) : Prop :=
  p.httpVersion = str "HTTP/1.1" ∧
    contains (str "close") (lower ((p.headers.get (str "Connection")).getD [])) = false

/-- A persistent response is unfinished, in a body with a length or in its trailers. (A body that is
encoded decompresses as far as it has come.) -/
structure CutShort (codec : Codec) (p : ResponseParser) : Prop where
  body : p.state = .body
  trailers : p.chunked = true → p.inTrailers = true
  length : p.chunked = false → p.contentLength ≠ none
  persistent : Persistent p
  decompresses : ∃ content, decompress codec p.headers p.body = .ok content

/-- The data finish a persistent response before their end. -/
def Overrun (codec : Codec) (p : ResponseParser) (data : Bytes) : Prop :=
  ∃ a b q r, a ++ b = data ∧ b ≠ [] ∧ p.feed codec a = .ok q ∧ q.isComplete ∧
    q.response = some r ∧ reusable q r

/-- A reply that spoils the connection of an exchange, which pools it nevertheless. -/
def Spoils (codec : Codec) : Phase → Action → Prop
  | .read _ _ parser _, .read (.chunk data) =>
    if data = [] then CutShort codec parser else Overrun codec parser data
  | _, _ => False

theorem not_spoils {codec : Codec} {phase : Phase} {a : Action} (h : ∀ reply, a ≠ .read reply) :
    ¬ Spoils codec phase a := by
  cases a with
  | read reply => exact absurd rfl (h reply)
  | _ => cases phase <;> exact id

/-! ## Data -/

namespace Reads

variable {codec : Codec} {replies : List ReadReply} {parser : ResponseParser} {received : Bool}
  {pieces : List Bytes}

/-- A fresh parser, fed all that was read and more, ends as the exchange's does with what is more. -/
theorem feed_more (h : Reads codec replies parser received pieces) (a : Bytes) :
    outcome (feed codec fresh (pieces.flatten ++ a)) = outcome (parser.feed codec a) := by
  have hout := outcome_feedAll codec (pieces ++ [a])
  rw [List.flatten_append, List.flatten_singleton, feedAll_concat, h.fed, ok_bind] at hout
  exact hout.symm

/-- No part of what was read is a whole response. -/
theorem part_incomplete (h : Reads codec replies parser received pieces) {a c : Bytes}
    (hac : a ++ c = pieces.flatten) {q : ResponseParser} (hq : feed codec fresh a = .ok q) :
    q.isComplete = false := by
  cases hc : q.isComplete with
  | false => rfl
  | true =>
    have hout := outcome_feedAll codec pieces
    rw [← hac, feed_append_of_complete rfl hq hc, h.fed, outcome_ok, outcome_ok,
      Except.ok.injEq] at hout
    have hinc := h.incomplete
    rw [hout] at hinc
    exact absurd (hc.symm.trans hinc) Bool.true_eq_false.mp

theorem end_not_mem (h : Reads codec replies parser received pieces) {data : Bytes} (hd : data ≠ []) :
    ReadReply.chunk [] ∉ replies ++ [.chunk data] := by
  rw [h.replies]
  intro hmem
  rcases List.mem_append.mp hmem with hmem | hmem
  · obtain ⟨d, hdmem, heq⟩ := List.mem_map.mp hmem
    cases heq
    exact h.nonempty _ hdmem rfl
  · rw [List.mem_singleton] at hmem
    cases hmem
    exact hd rfl

/-- A response is finished by the last piece. It is clean unless less than the piece finishes it. -/
theorem clean_iff (h : Reads codec replies parser received pieces) {data : Bytes} (hd : data ≠ [])
    {q : ResponseParser} {r : Response} (hq : parser.feed codec data = .ok q)
    (hr : q.response = some r) (hreuse : reusable q r) :
    Clean codec (replies ++ [.chunk data]) ↔ ¬ Overrun codec parser data := by
  have hbytes : bytesOf (replies ++ [.chunk data]) = pieces.flatten ++ data := by
    rw [bytesOf, List.flatMap_append]
    exact congrArg₂ _ h.bytes (List.flatMap_singleton ..)
  constructor
  · rintro hclean ⟨a, b, q', r', hab, hb, hq', hc', -⟩
    have hout := h.feed_more a
    rw [hq', outcome_ok, outcome_eq_ok_iff] at hout
    have := hclean.exact (pieces.flatten ++ a) b
      (by rw [hbytes, List.append_assoc, hab]) hb q' hout
    exact absurd (hc'.symm.trans this) Bool.true_eq_false.mp
  · intro hover
    refine ⟨h.end_not_mem hd, fun a b hab hb q' hq' => ?_⟩
    rw [hbytes] at hab
    obtain ⟨c, hac, -⟩ | ⟨a', rfl, hdata⟩ := List.append_eq_append_iff.mp hab
    · exact h.part_incomplete hac.symm hq'
    · cases hc' : q'.isComplete with
      | false => rfl
      | true =>
        have hout := h.feed_more a'
        rw [hq', outcome_ok] at hout
        have hfeed : parser.feed codec a' = .ok q' := outcome_eq_ok_iff.mp hout.symm
        -- what comes behind a whole response does not change it
        have hext := feed_append_of_complete h.live.eof hfeed hc' b
        rw [← hdata, hq, Except.ok.injEq] at hext
        subst hext
        exact absurd ⟨a', b, q', r, hdata.symm, hb, hfeed, hc', hr, hreuse⟩ hover

end Reads

/-! ## The end of the stream -/

theorem reusable_iff {p : ResponseParser} {r : Response} (hv : r.httpVersion = p.httpVersion)
    (hh : r.headers = p.headers) : reusable p r ↔ p.readUntilClose = false ∧ Persistent p := by
  unfold reusable usedCloseFraming Persistent
  rw [hv, hh]
  split_ifs with h
  · refine iff_of_false id ?_
    rintro ⟨hclose, hversion, -⟩
    exact h.elim (fun h => Bool.false_ne_true (hclose.symm.trans h)) fun h => h hversion
  · rw [not_or, not_not, Bool.not_eq_true] at h
    simp only [Bool.not_eq_true', h.1, h.2, true_and]

/-- The stream ends under a response that is pooled nevertheless. -/
theorem cutShort_iff {codec : Codec} {p : ResponseParser} (hl : Live p) (ha : Awaits p) :
    CutShort codec p ↔ ∃ q r, feedEof codec p = .ok q ∧ q.response = some r ∧ reusable q r := by
  constructor
  · intro h
    obtain ⟨content, hd⟩ := h.decompresses
    have hclose : p.readUntilClose = false := by
      cases hr : p.readUntilClose with
      | false => rfl
      | true => exact absurd (hl.framed hr).2 (h.length (hl.framed hr).1)
    refine ⟨_, _, (feedEof_finishes codec ha h.body h.trailers).trans
      (finalize_of_decompress (p := { p with eof := true }) hd), rfl, ?_⟩
    exact (reusable_iff rfl rfl).mpr ⟨hclose, h.persistent⟩
  · rintro ⟨q, r, hq, hr, hreuse⟩
    cases feedEof_awaits codec ha with
    | raises h => rw [h] at hq; cases hq
    | stays h hb hs =>
      rw [h, Except.ok.injEq] at hq
      subst hq
      exact absurd (hl.response.symm.trans hr) nofun
    | finishes h hs ht =>
      rw [h] at hq
      obtain ⟨content, hd, rfl⟩ := finalize_ok hq
      cases hr
      obtain ⟨hclose, hpersistent⟩ := (reusable_iff rfl rfl).mp hreuse
      refine ⟨hs, ht, fun hc hn => ?_, hpersistent, content, hd⟩
      exact absurd (hclose.symm.trans (hl.delimited hs hc hn)) Bool.false_ne_true

/-! ## Steps and runs -/

theorem afterLoop_give {c c' : ConnId} {reused : Bool} {parser : ResponseParser} {r : Response}
    (h : afterLoop c reused parser = .goOn (.give c' r)) :
    parser.response = some r ∧ reusable parser r := by
  obtain ⟨r', hr, ⟨heq, hreuse⟩ | ⟨heq, -⟩⟩ | ⟨-, -, heq⟩ := afterLoop_goOn h
  · cases heq; exact ⟨hr, hreuse⟩
  · cases heq
  · cases heq

section

variable {codec : Codec} {t : Thread} {c : ConnId} {reused received : Bool} {parser : ResponseParser}
  {replies : List ReadReply} {pieces : List Bytes}

/-- The end of the stream leads to no pooling exactly if it does not cut a persistent response. -/
theorem give_end_iff (hreads : Reads codec replies parser received pieces) :
    (∃ c' r, (t.proceed (afterRead codec c reused parser received (.chunk []))).phase = .give c' r) ↔
      CutShort codec parser := by
  rw [cutShort_iff hreads.live hreads.awaits]
  by_cases hs : reused = true ∧ received = false
  · -- nothing was received: the connection is stale
    have hfresh : parser = fresh := by
      have hfed := hreads.fed
      rw [hreads.received.mp hs.2] at hfed
      exact (Except.ok.inj hfed).symm
    refine iff_of_false ?_ ?_
    · rintro ⟨c', r, h⟩
      have h := proceed_goOn h nofun
      unfold afterRead at h
      dsimp only at h
      rw [if_pos rfl, if_pos (by simpa using hs)] at h
      cases h
    · rintro ⟨q, r, hq, hr, -⟩
      rw [hfresh] at hq
      cases hq
      cases hr
  · rw [afterRead_end codec c reused parser received hs]
    constructor
    · rintro ⟨c', r, hgive⟩
      have hgive := proceed_goOn hgive nofun
      cases hq : parser.feedEof codec with
      | error e => rw [hq] at hgive; cases hgive
      | ok q =>
        rw [hq] at hgive
        exact ⟨q, r, rfl, afterLoop_give hgive⟩
    · rintro ⟨q, r, hq, hr, hreuse⟩
      refine ⟨c, r, ?_⟩
      rw [hq]
      dsimp only
      rw [afterLoop_response hr, if_pos hreuse]
      rfl

/-- Data that finish a response lead to a pooling exactly if it persists. -/
theorem give_data_iff {data : Bytes} (hd : data ≠ []) {c' : ConnId} {r : Response} :
    (t.proceed (afterRead codec c reused parser received (.chunk data))).phase = .give c' r ↔
      c' = c ∧ ∃ q, parser.feed codec data = .ok q ∧ q.isComplete ∧ q.response = some r ∧
        reusable q r := by
  rw [afterRead_data codec c reused parser received hd]
  constructor
  · intro hgive
    have hgive := proceed_goOn hgive nofun
    cases hq : parser.feed codec data with
    | error e => rw [hq] at hgive; cases hgive
    | ok q =>
      rw [hq] at hgive
      dsimp only at hgive
      split_ifs at hgive with hc
      · obtain ⟨hr, hreuse⟩ := afterLoop_give hgive
        rw [afterLoop_response hr, if_pos hreuse] at hgive
        cases hgive
        exact ⟨rfl, q, rfl, hc, hr, hreuse⟩
      · cases hgive
  · rintro ⟨rfl, q, hq, hc, hr, hreuse⟩
    rw [hq]
    dsimp only
    rw [if_pos hc, afterLoop_response hr, if_pos hreuse]
    rfl

/-- A read leads to a clean pooling, or to none, exactly if it does not spoil the connection. -/
theorem clean_afterRead_iff (hreads : Reads codec replies parser received pieces) (reply : ReadReply) :
    (∀ c' r, (t.proceed (afterRead codec c reused parser received reply)).phase = .give c' r →
      Clean codec (replies ++ [reply])) ↔
    ¬ Spoils codec (.read c reused parser received) (.read reply) := by
  cases reply with
  | failed =>
    refine iff_of_true (fun c' r h => ?_) id
    have h := proceed_goOn h nofun
    unfold afterRead at h
    dsimp only at h
    split_ifs at h
    cases h
  | chunk data =>
    by_cases hd : data = []
    · subst hd
      have hend : ¬ Clean codec (replies ++ [.chunk []]) := fun h =>
        h.live (List.mem_append_right _ List.mem_cons_self)
      rw [Spoils, if_pos rfl, ← @give_end_iff codec t c reused received parser replies pieces hreads]
      constructor
      · rintro h ⟨c', r, hgive⟩
        exact hend (h c' r hgive)
      · exact fun h c' r hgive => absurd ⟨c', r, hgive⟩ h
    · rw [Spoils, if_neg hd]
      constructor
      · rintro h ⟨a, b, q, r, hab, hb, hq, hc, hr, hreuse⟩
        have hfeed := feed_append_of_complete hreads.live.eof hq hc b
        rw [hab] at hfeed
        exact (hreads.clean_iff hd hfeed hr hreuse).mp
          (h c r ((give_data_iff hd).mpr ⟨rfl, q.extend b, hfeed, hc, hr, hreuse⟩))
          ⟨a, b, q, r, hab, hb, hq, hc, hr, hreuse⟩
      · intro hover c' r hgive
        obtain ⟨-, q, hq, -, hr, hreuse⟩ := (give_data_iff hd).mp hgive
        exact (hreads.clean_iff hd hq hr hreuse).mpr hover

end

/-- A step keeps the poolings clean exactly if it does not spoil a connection. -/
theorem poolsClean_step_iff {codec : Codec} {s s' : Client × Record} {x : ℕ × Action}
    (hs : Recorded codec s) (hclean : PoolsClean codec s) (h : watch codec s x = some s') :
    PoolsClean codec s' ↔ ¬ Spoils codec (s.1.threads x.1).phase x.2 := by
  obtain ⟨i, a⟩ := x
  refine (watch_forall_iff (P := fun replies phase => ∀ c r, phase = .give c r →
    Clean codec replies) hclean h).trans ?_
  obtain ⟨hstep, hreplies⟩ := watch_self h
  rw [hreplies]
  have hI := hs i
  generalize s'.1 = client' at hstep ⊢
  clear h
  cases hstep with
  | read h =>
    rw [threads_setThread_self, h]
    rw [h] at hI
    obtain ⟨pieces, hreads⟩ := hI
    exact clean_afterRead_iff hreads _
  | write h =>
    rename_i c reused ok
    rw [threads_setThread_self, h]
    refine iff_of_true (fun c' r hgive => ?_) id
    have hgive := proceed_goOn hgive nofun
    unfold afterWrite at hgive
    split_ifs at hgive <;> cases hgive
  | _ =>
    rw [threads_setThread_self]
    exact iff_of_true nofun (not_spoils nofun)

/-- **Clean poolings, when.** In every run of threads against any peers, all poolings are of live and
clean connections exactly if no read spoils its connection. -/
theorem poolsClean_iff (codec : Codec) (xs : List (ℕ × Action)) :
    Throughout (watch codec) (PoolsClean codec) watchInit xs ↔
      Along (watch codec) (fun s x => ¬ Spoils codec (s.1.threads x.1).phase x.2) watchInit xs :=
  throughout_iff_along (I := Recorded codec) (fun _ _ _ hs h => recorded_step hs h)
    (fun _ _ _ hs hclean h => poolsClean_step_iff hs hclean h) (recorded_init codec) nofun xs

/-- The content of a response whose connection is about to be pooled. -/
def givenContent : Phase → Option (ConnId × Bytes)
  | .give c r => some (c, r.content)
  | _ => none

/-- A server that announces five bytes, sends two and ends its stream. -/
def hungUp : List (ℕ × Action) :=
  [.perform ⟨(str "a.b", 443), ascii "GET / HTTP/1.1\r\nHost: a.b\r\n\r\n"⟩, .take, .connect true,
    .write true, .read (.chunk (ascii "HTTP/1.1 200 OK\r\nContent-Length: 5\r\n\r\nhe")),
    .read (.chunk [])].map (0, ·)

/-- Its connection is pooled. -/
theorem hungUp_pooled : (∃ s, run (watch noCodec) watchInit hungUp = some s ∧
      givenContent (s.1.threads 0).phase = some (0, ascii "he") ∧ ¬ PoolsClean noCodec s) ∧
    (run (step noCodec) init (hungUp ++ [(0, .give)])).map (·.pool.conns) = some [0] := by
  refine ⟨?_, by decide +kernel⟩
  have h : (run (watch noCodec) watchInit hungUp).map
      (fun s => (givenContent (s.1.threads 0).phase, decide (ReadReply.chunk [] ∈ s.2 0))) =
      some (some (0, ascii "he"), true) := by decide +kernel
  obtain ⟨s, hs, heq⟩ := Option.map_eq_some_iff.mp h
  obtain ⟨hgive, hend⟩ := Prod.mk.inj heq
  refine ⟨s, hs, hgive, fun hclean => ?_⟩
  cases hp : (s.1.threads 0).phase with
  | give c r => exact (hclean 0 c r hp).live (of_decide_eq_true hend)
  | _ => rw [hp] at hgive; cases hgive

end Client

end Fizzpy
