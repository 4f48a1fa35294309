import Fizzpy.Client.Replies
import Fizzpy.Http.Truncation

/-!
# Responses to HEAD

The parser does not know the method of the request, so it waits for the body that the head of a
response to HEAD announces. `head_ends_iff` says for which heads the exchange ends nevertheless.
-/

namespace Fizzpy

open Foundation ResponseParser

/-- The head says by itself, without regard to the method, that nothing follows: no chunked body, and
either a status that never has a body or the length 0, in a numeral that `int` reads. -/
def FinalHead.EndsItself (m : FinalHead) : Prop :=
  match m.announced with
  | .length f => m.Bodyless ∨ f.length = 0 ∧ f.digits ≤ intMaxStrDigits
  | .chunked _ => False
  | .silent => m.Bodyless

namespace ResponseParser

/-! ## A head alone -/

theorem status_of_not_bodyless {m : FinalHead} (hs : ¬ m.Bodyless) :
    ¬ (m.head.status < 200 ∨ m.head.status = 204 ∨ m.head.status = 304) := by
  rintro (h | h)
  · exact absurd m.final (Nat.not_le.mpr h)
  · exact hs h

theorem get_transferEncoding_none {m : FinalHead} (h : ∀ f, m.announced ≠ .chunked f) :
    m.head.headers.get (str "Transfer-Encoding") = none := by
  refine get_framing_absent m.plain (by decide) m.fields_eq fun g hg => ?_
  cases hm : m.announced with
  | length f =>
    rw [hm] at hg
    rw [List.mem_singleton.mp hg, f.key_eq]
    decide
  | chunked f => exact absurd hm (h f)
  | silent => rw [hm] at hg; cases hg

variable (codec : Codec) {m : FinalHead}

theorem feed_head_alone : feed codec fresh m.head.encode =
    resolveFraming (afterHead m.head []) >>= fun p => parse codec { p with state := .body } := by
  have h := feed_head codec m.head []
  rwa [List.append_nil] at h

/-- A head whose body has the length `n` is waited behind unless `n` is 0. -/
theorem feed_head_length {n : ℤ} (h : resolveFraming (afterHead m.head []) =
    .ok { afterHead m.head [] with contentLength := some n }) :
    feed codec fresh m.head.encode =
      let p := { afterHead m.head [] with contentLength := some n, state := .body }
      if n ≤ 0 then finalize codec p else .ok p := by
  rw [feed_head_alone, h, ok_bind, parse_body codec rfl]
  show parseFixedLength codec n _ = _
  have hfill : fillBody n { afterHead m.head [] with contentLength := some n, state := .body } =
      { afterHead m.head [] with contentLength := some n, state := .body } := by
    simp [fillBody, afterHead]
  unfold parseFixedLength
  rw [hfill]
  simp [afterHead]

theorem parseChunked_nothing {p : ResponseParser} (ht : p.inTrailers = false)
    (ha : p.awaitingChunkSize = true) (hb : p.buf = []) (he : p.eof = false) :
    parseChunked codec p = .ok p := by
  have hround : chunkRound codec p = .leave (.ok p) := by
    rw [chunkRound_of_size ht ha]
    unfold chunkSize
    rw [hb, he, if_neg (fun h => Bool.false_ne_true h.1)]
    rfl
  exact parseChunked_leave hround

/-- Behind the announcement of a chunked body a size line is waited for. -/
theorem feed_head_chunked {f : ChunkedField} (hm : m.announced = .chunked f) :
    feed codec fresh m.head.encode =
      .ok { afterHead m.head [] with chunked := true, state := .body } := by
  have hget : m.head.headers.get (str "Transfer-Encoding") = some (latin1 f.field.value) :=
    get_framing_only m.plain (by decide) m.fields_eq (by rw [hm]; rfl)
      (f.key_eq.trans lower_transferEncoding.symm)
  have hne : latin1 f.field.value ≠ [] := by
    intro h
    have hv := f.value_eq
    rw [h] at hv
    exact absurd hv (by decide)
  rw [feed_head_alone, resolveFraming_chunked (p := afterHead m.head []) hget hne
    (by rw [f.value_eq]; decide), ok_bind, parse_body codec rfl]
  exact parseChunked_nothing codec (p := { afterHead m.head [] with chunked := true, state := .body })
    rfl rfl rfl rfl

/-- Without an announcement the end of the stream is waited for. -/
theorem feed_head_silent (hm : m.announced = .silent) (hs : ¬ m.Bodyless) :
    feed codec fresh m.head.encode =
      .ok { afterHead m.head [] with readUntilClose := true, state := .body } := by
  have hcl : m.head.headers.get (str "Content-Length") = none :=
    get_framing_absent m.plain (by decide) m.fields_eq (by rw [hm]; nofun)
  rw [feed_head_alone, resolveFraming_untilClose (p := afterHead m.head [])
    (get_transferEncoding_none (by rw [hm]; nofun)) (status_of_not_bodyless hs) hcl, ok_bind,
    parse_body codec rfl]
  rfl

theorem resolveFraming_bodyless (h : ∀ f, m.announced ≠ .chunked f) (hs : m.Bodyless) :
    resolveFraming (afterHead m.head []) =
      .ok { afterHead m.head [] with contentLength := some 0 } :=
  resolveFraming_bodiless (get_transferEncoding_none h) (.inr hs)

/-- A head that ends itself makes an empty response. -/
theorem feed_head_ends (h : m.EndsItself) : ∃ q r, feed codec fresh m.head.encode = .ok q ∧
    q.isComplete ∧ q.response = some r ∧ r.content = [] := by
  have hframing : resolveFraming (afterHead m.head []) =
      .ok { afterHead m.head [] with contentLength := some 0 } := by
    unfold FinalHead.EndsItself at h
    split at h
    · rename_i f hm
      by_cases hs : m.Bodyless
      · exact resolveFraming_bodyless (by rw [hm]; nofun) hs
      · obtain ⟨hzero, hlen⟩ := h.resolve_left hs
        rw [resolveFraming_announced_length hm hs, if_neg (Nat.not_lt.mpr hlen), hzero]
        rfl
    · exact h.elim
    · rename_i hm
      exact resolveFraming_bodyless (by rw [hm]; nofun) h
  rw [feed_head_length codec hframing]
  dsimp only
  have hd : decompress codec m.head.headers [] = .ok [] := if_pos (.inr rfl)
  rw [if_pos le_rfl, finalize_of_decompress
    (p := { afterHead m.head [] with contentLength := some 0, state := .body }) hd]
  exact ⟨_, _, rfl, rfl, rfl, rfl⟩

/-- Any other is waited behind, or raises. -/
theorem feed_head_waits (h : ¬ m.EndsItself) {q : ResponseParser}
    (hq : feed codec fresh m.head.encode = .ok q) : q.isComplete = false := by
  cases hm : m.announced with
  | length f =>
    rw [FinalHead.EndsItself, hm, not_or, not_and] at h
    obtain ⟨hs, hzero⟩ := h
    have hframing := resolveFraming_announced_length hm hs []
    split_ifs at hframing with hlong
    · rw [feed_head_alone, hframing] at hq
      cases hq
    · have hpos : ¬ (f.length : ℤ) ≤ 0 := by
        have := mt hzero (not_not.mpr (Nat.le_of_not_lt hlong))
        omega
      rw [feed_head_length codec hframing] at hq
      dsimp only at hq
      rw [if_neg hpos] at hq
      cases hq
      rfl
  | chunked f =>
    rw [feed_head_chunked codec hm] at hq
    cases hq
    rfl
  | silent =>
    rw [FinalHead.EndsItself, hm] at h
    rw [feed_head_silent codec hm h] at hq
    cases hq
    rfl

end ResponseParser

namespace Client

/-! ## The exchange -/

/-- The thread has sent a HEAD request, and the head is what it has read since, in some pieces. -/
structure HeadAnswered (s : Client × Record) (i : ℕ) (m : FinalHead) : Prop where
  job : ∃ key path headers body,
    Job.of (str "HEAD") key path headers body = some (s.1.threads i).job
  replies : ∃ pieces : List Bytes, s.2 i = pieces.map .chunk ∧ (∀ d ∈ pieces, d ≠ []) ∧
    pieces.flatten = m.head.encode

/-- The exchange has ended with an empty response; its connection remains to be pooled or closed. -/
def EndsEmpty (phase : Phase) : Prop :=
  ∃ c r, r.content = [] ∧ (phase = .give c r ∨ phase = .close c r)

theorem not_endsEmpty_raised {t : Thread} {e : RequestExn} :
    ¬ EndsEmpty (t.proceed (.raised e)).phase := by
  rintro ⟨c, r, -, h | h⟩ <;> cases h

/-- The last piece of the head. -/
theorem endsEmpty_afterRead_iff {codec : Codec} {t : Thread} {c : ConnId} {reused received : Bool}
    {parser : ResponseParser} {replies : List ReadReply} {pieces : List Bytes}
    (hreads : Reads codec replies parser received pieces) {data : Bytes} (hd : data ≠ [])
    {m : FinalHead} (hm : pieces.flatten ++ data = m.head.encode) :
    EndsEmpty (t.proceed (afterRead codec c reused parser received (.chunk data))).phase ↔
      m.EndsItself := by
  have hout := outcome_feedAll codec (pieces ++ [data])
  rw [List.flatten_append, List.flatten_singleton, hm, feedAll_concat, hreads.fed, ok_bind] at hout
  rw [afterRead_data codec c reused parser received hd]
  constructor
  · intro hends
    by_contra h
    cases hq : parser.feed codec data with
    | error e => rw [hq] at hends; exact not_endsEmpty_raised hends
    | ok q =>
      rw [hq, outcome_ok] at hout
      have hwaits := feed_head_waits codec h (outcome_eq_ok_iff.mp hout.symm)
      rw [hq] at hends
      dsimp only at hends
      rw [hwaits, if_neg Bool.false_ne_true] at hends
      obtain ⟨c', r, -, heq | heq⟩ := hends <;> cases heq
  · intro h
    obtain ⟨q, r, hq, hc, hr, hcontent⟩ := feed_head_ends codec h
    rw [hq, outcome_ok] at hout
    rw [outcome_eq_ok_iff.mp hout]
    dsimp only
    rw [if_pos hc, afterLoop_response hr]
    split_ifs
    · exact ⟨c, r, hcontent, .inl rfl⟩
    · exact ⟨c, r, hcontent, .inr rfl⟩

/-- **Responses to HEAD, when.** In every run of threads against any peers, once the read that
completes the head of a final response to HEAD is done, the exchange has ended with an empty response
exactly if the head ends itself. -/
theorem head_ends_iff {codec : Codec} {xs : List (ℕ × Action)} {i : ℕ} {reply : ReadReply}
    {s : Client × Record} (h : run (watch codec) watchInit (xs ++ [(i, .read reply)]) = some s)
    {m : FinalHead} (hm : HeadAnswered s i m) :
    EndsEmpty (s.1.threads i).phase ↔ m.EndsItself := by
  rw [run_append, Option.bind_eq_some_iff] at h
  obtain ⟨s₀, h₀, h⟩ := h
  rw [run_cons, Option.bind_eq_some_iff] at h
  obtain ⟨s₁, h, heq⟩ := h
  obtain rfl : s₁ = s := Option.some.inj heq
  have hI := run_invariant (I := Recorded codec) (fun _ _ _ hs h => recorded_step hs h)
    (recorded_init codec) h₀ i
  obtain ⟨hstep, hreplies⟩ := watch_self h
  obtain ⟨pieces, hpieces, hne, hflat⟩ := hm.replies
  rw [hreplies, repliesAfter] at hpieces
  generalize s₁.1 = client' at hstep ⊢
  clear h
  cases hstep with
  | read h =>
    rw [threads_setThread_self]
    rw [h] at hI
    obtain ⟨before, hreads⟩ := hI
    obtain ⟨before', last, rfl, hbefore, hlast⟩ := List.append_eq_map_iff.mp hpieces
    cases last with
    | nil => cases hlast
    | cons d ds =>
      obtain ⟨rfl, hds⟩ := List.cons.inj hlast
      obtain rfl := List.map_eq_nil_iff.mp hds
      have hinj : before' = before :=
        List.map_injective_iff.mpr (fun _ _ h => ReadReply.chunk.inj h)
          (hbefore.trans hreads.replies)
      subst hinj
      rw [List.flatten_append, List.flatten_singleton] at hflat
      exact endsEmpty_afterRead_iff hreads (hne d (by simp)) hflat

def headJob : Job := ⟨(str "a.b", 443), ascii "HEAD / HTTP/1.1\r\nHost: a.b\r\n\r\n"⟩

/-- A HEAD request, and the head of its response. -/
def headRun : List (ℕ × Action) :=
  [(0, .perform headJob), (0, .take), (0, .connect true), (0, .write true)] ++
    [(0, .read (.chunk letterHead.head.encode))]

theorem headAnswered_headRun : ∃ s, run (watch noCodec) watchInit headRun = some s ∧
    HeadAnswered s 0 letterHead := by
  have h : (run (watch noCodec) watchInit headRun).map
      (fun s => ((s.1.threads 0).job, s.2 0)) =
      some (headJob, [.chunk letterHead.head.encode]) := by decide +kernel
  obtain ⟨s, hs, heq⟩ := Option.map_eq_some_iff.mp h
  obtain ⟨hjob, hreplies⟩ := Prod.mk.inj heq
  refine ⟨s, hs, ⟨(str "a.b", 443), str "/", [], none, ?_⟩, [letterHead.head.encode], hreplies, ?_,
    List.append_nil _⟩
  · rw [hjob]
    decide +kernel
  · rintro d hd rfl
    exact absurd (List.mem_singleton.mp hd) (by decide +kernel)

theorem head_ends_iff_headRun : ∃ s, run (watch noCodec) watchInit headRun = some s ∧
    (EndsEmpty (s.1.threads 0).phase ↔ letterHead.EndsItself) := by
  obtain ⟨s, hs, hm⟩ := headAnswered_headRun
  exact ⟨s, hs, head_ends_iff hs hm⟩

def reading : Phase → Bool
  | .read .. => true
  | _ => false

/-- The exchange waits for the body that was announced. -/
theorem head_waits : ∃ s, run (watch noCodec) watchInit headRun = some s ∧
    HeadAnswered s 0 letterHead ∧ ¬ EndsEmpty (s.1.threads 0).phase := by
  have h : (run (watch noCodec) watchInit headRun).map (fun s => reading (s.1.threads 0).phase) =
      some true := by decide +kernel
  obtain ⟨s, hs, hm⟩ := headAnswered_headRun
  rw [hs] at h
  refine ⟨s, hs, hm, ?_⟩
  rintro ⟨c, r, -, hp | hp⟩
  · rw [Option.map_some, hp] at h
    cases h
  · rw [Option.map_some, hp] at h
    cases h

end Client

end Fizzpy
