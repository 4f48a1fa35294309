import Fizzpy.Client.Replies
import Fizzpy.Client.Resend

/-!
# Responses that have begun

A pooled connection that ends its stream is taken for a stale one even when it has begun to answer,
if the end falls between two elements of the response. `staleUnheard_iff` says that this is the only
way.
-/

namespace Fizzpy

open Foundation ResponseParser

namespace Client

/-- Nothing was received on a connection that is given up as stale. -/
def StaleUnheard (s : Client × Record) : Prop :=
  ∀ i c, (s.1.threads i).phase = .closeStale c → bytesOf (s.2 i) = []

/-- A response stands between two of its elements: right behind the status line, or where a chunk
size comes next. -/
def BetweenElements (p : ResponseParser) : Prop :=
  p.buf = [] ∧ (p.state = .headers ∨ p.state = .body ∧ p.chunked = true ∧ p.inTrailers = false ∧
    p.awaitingChunkSize = true)

/-- The stream of a pooled connection ends there. -/
def CutBetween : Phase → Action → Prop
  | .read _ true parser true, .read (.chunk []) => BetweenElements parser
  | _, _ => False

theorem not_cutBetween {phase : Phase} {a : Action} (h : a ≠ .read (.chunk [])) :
    ¬ CutBetween phase a := by
  unfold CutBetween
  split
  · exact absurd rfl h
  · exact id

namespace Reads

variable {codec : Codec} {replies : List ReadReply} {parser : ResponseParser} {received : Bool}
  {pieces : List Bytes}

theorem bytes_nil_iff (h : Reads codec replies parser received pieces) :
    bytesOf replies = [] ↔ received = false := by
  rw [h.bytes, h.received]
  constructor
  · intro hnil
    cases pieces with
    | nil => rfl
    | cons d ds => exact absurd (List.append_eq_nil_iff.mp hnil).1 (h.nonempty d List.mem_cons_self)
  · rintro rfl
    rfl

/-- Something was received and is not read yet, or the status line is. -/
theorem started (h : Reads codec replies parser received pieces) (hr : received = true)
    (hb : parser.buf = []) : parser.state ≠ .status := by
  intro hs
  have hout := outcome_feedAll codec pieces
  rw [h.fed, outcome_ok] at hout
  have hbuf := feed_unstarted (outcome_eq_ok_iff.mp hout.symm) hs
  rw [hb, ← h.bytes] at hbuf
  exact absurd (hr.symm.trans (h.bytes_nil_iff.mp hbuf.symm)) Bool.true_eq_false.mp

/-- The end of the stream gives neither a response nor an exception exactly between elements. -/
theorem between_iff (h : Reads codec replies parser received pieces) (hr : received = true) :
    BetweenElements parser ↔ ∃ q, feedEof codec parser = .ok q ∧ q.response = none := by
  constructor
  · rintro ⟨hb, hs⟩
    cases feedEof_awaits codec h.awaits with
    | raises hfeed hne =>
      obtain hne | ⟨hbody, ha⟩ := hne
      · exact absurd hb hne
      · obtain hs | ⟨-, -, -, ha'⟩ := hs
        · rw [hbody] at hs; cases hs
        · exact absurd (ha.symm.trans ha') Bool.false_ne_true
    | stays hfeed _ _ => exact ⟨_, hfeed, h.live.response⟩
    | finishes _ hbody ht =>
      obtain hs | ⟨-, hc, ht', -⟩ := hs
      · rw [hbody] at hs; cases hs
      · exact absurd (ht'.symm.trans (ht hc)) Bool.false_ne_true
  · rintro ⟨q, hq, hnone⟩
    cases feedEof_awaits codec h.awaits with
    | raises hfeed _ => rw [hfeed] at hq; cases hq
    | stays hfeed hb hs =>
      refine ⟨hb, ?_⟩
      cases hst : parser.state with
      | status => exact absurd hst (h.started hr hb)
      | headers => exact .inl rfl
      | done => exact absurd hst h.awaits.state_ne
      | body => exact .inr ⟨rfl, hs.resolve_left fun hne => hne hst⟩
    | finishes hfeed _ _ =>
      rw [hfeed] at hq
      obtain ⟨content, -, rfl⟩ := finalize_ok hq
      cases hnone

end Reads

theorem afterLoop_closeStale_iff {c c' : ConnId} {reused : Bool} {parser : ResponseParser} :
    afterLoop c reused parser = .goOn (.closeStale c') ↔
      c' = c ∧ parser.response = none ∧ reused = true := by
  constructor
  · intro h
    obtain ⟨r, -, ⟨heq, -⟩ | ⟨heq, -⟩⟩ | ⟨hr, hu, heq⟩ := afterLoop_goOn h
    · cases heq
    · cases heq
    · cases heq; exact ⟨rfl, hr, hu⟩
  · rintro ⟨rfl, hr, rfl⟩
    unfold afterLoop
    rw [hr]
    rfl

section

variable {codec : Codec} {t : Thread} {c : ConnId} {reused received : Bool} {parser : ResponseParser}
  {replies : List ReadReply} {pieces : List Bytes}

/-- Data never make a connection stale. -/
theorem not_stale_data (hreads : Reads codec replies parser received pieces) {data : Bytes}
    (hd : data ≠ []) {c' : ConnId} :
    (t.proceed (afterRead codec c reused parser received (.chunk data))).phase ≠ .closeStale c' := by
  intro h
  have h := proceed_goOn h nofun
  rw [afterRead_data codec c reused parser received hd] at h
  cases hq : parser.feed codec data with
  | error e => rw [hq] at h; cases h
  | ok q =>
    rw [hq] at h
    dsimp only at h
    split_ifs at h with hc
    · have hfed : feedAll codec fresh (pieces ++ [data]) = .ok q := by
        rw [feedAll_concat, hreads.fed]
        exact hq
      exact answers_feedAll codec _ answers_fresh q hfed (of_decide_eq_true hc)
        (afterLoop_closeStale_iff.mp h).2.1
    · cases h

/-- A read gives a connection that was heard up as stale exactly if the stream is cut. -/
theorem unheard_afterRead_iff (hreads : Reads codec replies parser received pieces)
    (reply : ReadReply) :
    (∀ c', (t.proceed (afterRead codec c reused parser received reply)).phase = .closeStale c' →
      bytesOf (replies ++ [reply]) = []) ↔
    ¬ CutBetween (.read c reused parser received) (.read reply) := by
  have hbytes : ∀ reply, bytesOf (replies ++ [reply]) = bytesOf replies ++ bytesOf [reply] :=
    fun reply => List.flatMap_append
  cases reply with
  | failed =>
    refine iff_of_true (fun c' h => ?_) (not_cutBetween nofun)
    have h := proceed_goOn h nofun
    unfold afterRead at h
    dsimp only at h
    split_ifs at h with hs
    rw [hbytes, hreads.bytes_nil_iff.mpr (by simpa using hs.2)]
    rfl
  | chunk data =>
    by_cases hd : data = []
    · subst hd
      rw [hbytes, show bytesOf [.chunk []] = [] from rfl, List.append_nil, hreads.bytes_nil_iff]
      cases received with
      | false => exact iff_of_true (fun _ _ => rfl) (by cases reused <;> exact id)
      | true =>
        rw [afterRead_end codec c reused parser true (by simp)]
        cases reused with
        | false =>
          refine iff_of_true (fun c' h => ?_) id
          have h := proceed_goOn h nofun
          cases hq : parser.feedEof codec with
          | error e => rw [hq] at h; cases h
          | ok q => rw [hq] at h; exact absurd (afterLoop_closeStale_iff.mp h).2.2 Bool.false_ne_true
        | true =>
          rw [CutBetween, hreads.between_iff rfl]
          constructor
          · rintro h ⟨q, hq, hnone⟩
            refine absurd (h c ?_) Bool.true_eq_false.mp
            rw [hq]
            dsimp only
            rw [afterLoop_closeStale_iff.mpr ⟨rfl, hnone, rfl⟩]
            rfl
          · intro h c' hstale
            have hstale := proceed_goOn hstale nofun
            cases hq : parser.feedEof codec with
            | error e => rw [hq] at hstale; cases hstale
            | ok q =>
              rw [hq] at hstale
              exact absurd ⟨q, hq, (afterLoop_closeStale_iff.mp hstale).2.1⟩ h
    · exact iff_of_true (fun c' h => absurd h (not_stale_data hreads hd))
        (not_cutBetween (by simpa using hd))

end

/-! ## Steps and runs -/

/-- A step gives a connection up unheard, or gives none up, exactly if it does not cut a response. -/
theorem staleUnheard_step_iff {codec : Codec} {s s' : Client × Record} {x : ℕ × Action}
    (hs : Recorded codec s) (hstale : StaleUnheard s) (h : watch codec s x = some s') :
    StaleUnheard s' ↔ ¬ CutBetween (s.1.threads x.1).phase x.2 := by
  obtain ⟨i, a⟩ := x
  refine (watch_forall_iff (P := fun replies phase => ∀ c, phase = .closeStale c →
    bytesOf replies = []) hstale h).trans ?_
  obtain ⟨hstep, hreplies⟩ := watch_self h
  rw [hreplies]
  have hI := hs i
  generalize s'.1 = client' at hstep ⊢
  clear h
  cases hstep with
  | read h =>
    rw [threads_setThread_self, h]
    rw [h] at hI
    obtain ⟨pieces, hreads⟩ := hI
    exact unheard_afterRead_iff hreads _
  | write h => exact iff_of_true (fun _ _ => rfl) (not_cutBetween nofun)
  | _ =>
    rw [threads_setThread_self]
    exact iff_of_true nofun (not_cutBetween nofun)

/-- **No retry of a begun response, when.** In every run of threads against any peers, nothing was
received on the connections given up as stale exactly if no stream ends between two elements of the
response on a pooled connection. -/
theorem staleUnheard_iff (codec : Codec) (xs : List (ℕ × Action)) :
    Throughout (watch codec) StaleUnheard watchInit xs ↔
      Along (watch codec) (fun s x => ¬ CutBetween (s.1.threads x.1).phase x.2) watchInit xs :=
  throughout_iff_along (I := Recorded codec) (fun _ _ _ hs h => recorded_step hs h)
    (fun _ _ _ hs hstale h => staleUnheard_step_iff hs hstale h) (recorded_init codec) nofun xs

/-- The connection that is given up as stale. -/
def givenUp : Phase → Option ConnId
  | .closeStale c => some c
  | _ => none

/-- A pooled connection takes an order, begins its answer and ends its stream. -/
def begun : List (ℕ × Action) :=
  pooledOnce 0 order ++ [.perform order, .take, .write true,
    .read (.chunk (ascii "HTTP/1.1 200 OK\r\n")), .read (.chunk [])].map (0, ·)

/-- The order is sent again. -/
theorem begun_sent_again : (∃ s, run (watch noCodec) watchInit begun = some s ∧
      givenUp (s.1.threads 0).phase = some 0 ∧ ¬ StaleUnheard s) ∧
    (run (step noCodec) init
      (begun ++ [.closeStale, .connect true, .write true].map (0, ·))).map
        (fun s => ((s.threads 0).job, (s.threads 0).sent)) = some (order, [0, 1]) := by
  refine ⟨?_, by decide +kernel⟩
  have h : (run (watch noCodec) watchInit begun).map
      (fun s => (givenUp (s.1.threads 0).phase, decide (bytesOf (s.2 0) = []))) =
      some (some 0, false) := by decide +kernel
  obtain ⟨s, hs, heq⟩ := Option.map_eq_some_iff.mp h
  obtain ⟨hup, hbytes⟩ := Prod.mk.inj heq
  refine ⟨s, hs, hup, fun hstale => ?_⟩
  cases hp : (s.1.threads 0).phase with
  | closeStale c => exact of_decide_eq_false hbytes (hstale 0 c hp)
  | _ => rw [hp] at hup; cases hup

end Client

end Fizzpy
