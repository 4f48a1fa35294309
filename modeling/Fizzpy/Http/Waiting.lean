import Fizzpy.Http.Completion

/-!
# What a parser waits for

A parser that has used all it can of its buffer waits for one of seven things (`Awaits`), and this
alone decides what the end of the stream does to it: it raises, it finishes the response with what
it has, or it stays without a response (`feedEof_awaits`).
-/

namespace Fizzpy

open Foundation

namespace ResponseParser

inductive Awaits (p : ResponseParser) : Prop
  | statusLine (hs : p.state = .status) (hb : find CRLF p.buf = none)
  | headers (hs : p.state = .headers) (hb : headerBlock p.buf = none)
  | length {n : ℤ} (hs : p.state = .body) (hc : p.chunked = false) (hn : p.contentLength = some n)
      (hb : p.buf = [])
  | close (hs : p.state = .body) (hc : p.chunked = false) (hn : p.contentLength = none)
      (hb : p.buf = [])
  | size (hs : p.state = .body) (hc : p.chunked = true) (ht : p.inTrailers = false)
      (ha : p.awaitingChunkSize = true) (hb : find CRLF p.buf = none)
  /-- Data of a chunk, or the CRLF behind it. -/
  | data (hs : p.state = .body) (hc : p.chunked = true) (ht : p.inTrailers = false)
      (ha : p.awaitingChunkSize = false) (hd : takeChunk p = p)
      (hb : 0 < p.chunkRemaining ∨ p.buf.length < 2)
  | trailers (hs : p.state = .body) (hc : p.chunked = true) (ht : p.inTrailers = true)
      (hb : ¬ CRLF <+: p.buf) (hf : find CRLFCRLF p.buf = none)

theorem Awaits.state_ne {p : ResponseParser} (h : Awaits p) : p.state ≠ .done := by
  cases h <;> simp_all

/-- A parser of which more is to come: no end of stream yet, no response, and one framing. -/
structure Live (p : ResponseParser) : Prop where
  eof : p.eof = false
  response : p.response = none
  unframed : p.state ≠ .body → p.chunked = false ∧ p.contentLength = none ∧ p.readUntilClose = false
  framed : p.readUntilClose = true → p.chunked = false ∧ p.contentLength = none
  delimited : p.state = .body → p.chunked = false → p.contentLength = none → p.readUntilClose = true
  plain : p.chunked = false → p.inTrailers = false

theorem live_fresh : Live fresh := ⟨rfl, rfl, fun _ => ⟨rfl, rfl, rfl⟩, nofun, nofun, fun _ => rfl⟩

theorem finalize_of_decompress {codec : Codec} {p : ResponseParser} {content : Bytes}
    (h : decompress codec p.headers p.body = .ok content) : finalize codec p = .ok { p with
      response := some ⟨p.statusCode, p.reason, p.httpVersion, p.headers, content⟩
      state := .done } := by
  unfold finalize
  rw [h]

theorem finalize_ok {codec : Codec} {p q : ResponseParser} (h : finalize codec p = .ok q) :
    ∃ content, decompress codec p.headers p.body = .ok content ∧ q = { p with
      response := some ⟨p.statusCode, p.reason, p.httpVersion, p.headers, content⟩
      state := .done } := by
  unfold finalize at h
  split at h
  · rename_i content hd
    cases h
    exact ⟨content, hd, rfl⟩
  · cases h

/-! ## Reading on -/

/-- What reading on in a body leaves as it is. -/
structure Onward (p q : ResponseParser) : Prop where
  state : q.state = p.state
  eof : q.eof = p.eof
  response : q.response = p.response
  version : q.httpVersion = p.httpVersion
  status : q.statusCode = p.statusCode
  reason : q.reason = p.reason
  headers : q.headers = p.headers
  chunked : q.chunked = p.chunked
  length : q.contentLength = p.contentLength
  close : q.readUntilClose = p.readUntilClose
  body : p.body <+: q.body
  trailers : p.inTrailers = true → q.inTrailers = true ∧ q.body = p.body
  plain : p.chunked = false → q.inTrailers = p.inTrailers

theorem Onward.refl (p : ResponseParser) : Onward p p :=
  ⟨rfl, rfl, rfl, rfl, rfl, rfl, rfl, rfl, rfl, rfl, List.prefix_rfl, fun h => ⟨h, rfl⟩, fun _ => rfl⟩

theorem Onward.trans {p q r : ResponseParser} (h : Onward p q) (h' : Onward q r) : Onward p r where
  state := h'.state.trans h.state
  eof := h'.eof.trans h.eof
  response := h'.response.trans h.response
  version := h'.version.trans h.version
  status := h'.status.trans h.status
  reason := h'.reason.trans h.reason
  headers := h'.headers.trans h.headers
  chunked := h'.chunked.trans h.chunked
  length := h'.length.trans h.length
  close := h'.close.trans h.close
  body := h.body.trans h'.body
  trailers := fun ht => by
    obtain ⟨hq, hb⟩ := h.trailers ht
    obtain ⟨hr, hb'⟩ := h'.trailers hq
    exact ⟨hr, hb'.trans hb⟩
  plain := fun hc => (h'.plain (h.chunked.trans hc)).trans (h.plain hc)

theorem Live.onward {p q : ResponseParser} (h : Live p) (ho : Onward p q) : Live q where
  eof := ho.eof.trans h.eof
  response := ho.response.trans h.response
  unframed := fun hs => by
    rw [ho.chunked, ho.length, ho.close]
    exact h.unframed (ho.state ▸ hs)
  framed := fun hc => by
    rw [ho.chunked, ho.length]
    exact h.framed (ho.close ▸ hc)
  delimited := fun hs hc hn => by
    rw [ho.close]
    exact h.delimited (ho.state.symm.trans hs) (ho.chunked.symm.trans hc) (ho.length.symm.trans hn)
  plain := fun hc => by
    have hc := ho.chunked.symm.trans hc
    exact (ho.plain hc).trans (h.plain hc)

/-- How a method of the body, begun in `p`, ends while input may still come. -/
inductive Exit (codec : Codec) (p : ResponseParser) : Parse → Prop
  | raised (e : ParseExn × ResponseParser) : Exit codec p (.error e)
  | waits {q : ResponseParser} (ho : Onward p q) (ha : Awaits q) : Exit codec p (.ok q)
  | finished {q : ResponseParser} (ho : Onward p q) : Exit codec p (finalize codec q)

theorem Exit.trans {codec : Codec} {p q : ResponseParser} {x : Parse} (h : Onward p q)
    (hx : Exit codec q x) : Exit codec p x := by
  cases hx with
  | raised e => exact .raised e
  | waits ho ha => exact .waits (h.trans ho) ha
  | finished ho => exact .finished (h.trans ho)

theorem parseFixedLength_exit (codec : Codec) {n : ℤ} {p : ResponseParser} (hl : Live p)
    (hs : p.state = .body) (hc : p.chunked = false) (hn : p.contentLength = some n) :
    Exit codec p (parseFixedLength codec n p) := by
  have ht : p.inTrailers = false := hl.plain hc
  have ho : Onward p (fillBody n p) :=
    ⟨rfl, rfl, rfl, rfl, rfl, rfl, rfl, rfl, rfl, rfl, List.prefix_append _ _,
      fun h => absurd (ht.symm.trans h) Bool.false_ne_true, fun _ => rfl⟩
  have he : (fillBody n p).eof = false := hl.eof
  by_cases hlen : n ≤ (fillBody n p).body.length
  · unfold parseFixedLength
    rw [if_pos (Or.inl hlen)]
    exact .finished ho
  · unfold parseFixedLength
    rw [if_neg (by rw [he]; simpa using hlen)]
    refine .waits ho (.length hs hc hn (List.drop_eq_nil_of_le ?_))
    unfold fillBody at hlen
    rw [List.length_append, List.length_take] at hlen
    omega

theorem parseUntilClose_exit (codec : Codec) {p : ResponseParser} (hl : Live p)
    (hs : p.state = .body) (hc : p.chunked = false) (hn : p.contentLength = none) :
    Exit codec p (parseUntilClose codec p) := by
  have ht : p.inTrailers = false := hl.plain hc
  have he : p.eof = false := hl.eof
  have ho : Onward p { p with body := p.body ++ p.buf, buf := [] } :=
    ⟨rfl, rfl, rfl, rfl, rfl, rfl, rfl, rfl, rfl, rfl, List.prefix_append _ _,
      fun h => absurd (ht.symm.trans h) Bool.false_ne_true, fun _ => rfl⟩
  unfold parseUntilClose
  dsimp only
  rw [if_neg (by rw [he]; exact Bool.false_ne_true)]
  exact .waits ho (.close hs hc hn rfl)

/-- Only the buffer changes in the trailers. -/
theorem onward_buf (p : ResponseParser) (buf : Bytes) : Onward p { p with buf } :=
  ⟨rfl, rfl, rfl, rfl, rfl, rfl, rfl, rfl, rfl, rfl, List.prefix_rfl, fun h => ⟨h, rfl⟩, fun _ => rfl⟩

theorem parseTrailers_exit (codec : Codec) {p : ResponseParser} (he : p.eof = false)
    (hs : p.state = .body) (hc : p.chunked = true) (ht : p.inTrailers = true) :
    Exit codec p (parseTrailers codec p) := by
  by_cases hb : CRLF <+: p.buf
  · rw [parseTrailers_crlf codec hb]
    exact .finished (onward_buf p _)
  · cases hf : find CRLFCRLF p.buf with
    | none =>
      rw [parseTrailers_none codec hb hf, he]
      exact .waits (.refl p) (.trailers hs hc ht hb hf)
    | some e =>
      rw [parseTrailers_some codec hb hf]
      exact .finished (onward_buf p _)

/-- How a round of the chunk loop ends. -/
def RoundExit (codec : Codec) (p : ResponseParser) : Iter ResponseParser Parse → Prop
  | .again q => Onward p q
  | .leave x => Exit codec p x

/-- Taking once takes all there is. -/
theorem takeChunk_idem (p : ResponseParser) : takeChunk (takeChunk p) = takeChunk p := by
  have h := takeChunk_takeChunk p []
  rwa [extend_nil, extend_nil] at h

theorem onward_takeChunk {p : ResponseParser} (ht : p.inTrailers = false) :
    Onward p (takeChunk p) :=
  ⟨rfl, rfl, rfl, rfl, rfl, rfl, rfl, rfl, rfl, rfl, List.prefix_append _ _,
    fun h => absurd (ht.symm.trans h) Bool.false_ne_true, fun _ => rfl⟩

theorem chunkData_exit (codec : Codec) {p : ResponseParser} (he : p.eof = false)
    (hs : p.state = .body) (hc : p.chunked = true) (ht : p.inTrailers = false)
    (ha : p.awaitingChunkSize = false) : RoundExit codec p (chunkData p) := by
  have ho := onward_takeChunk ht
  have he : (takeChunk p).eof = false := he
  have hwait : (0 < (takeChunk p).chunkRemaining ∨ (takeChunk p).buf.length < 2) →
      Exit codec p (.ok (takeChunk p)) := fun h =>
    .waits ho (.data hs hc ht ha (takeChunk_idem p) h)
  have hend : ∀ msg, (if (takeChunk p).eof then raise msg (takeChunk p) else .ok (takeChunk p)) =
      (.ok (takeChunk p) : Parse) := fun msg => if_neg (by rw [he]; exact Bool.false_ne_true)
  unfold chunkData
  dsimp only
  rw [hend, hend]
  split_ifs with h₁ h₂ h₃
  · exact hwait (.inl h₁)
  · exact hwait (.inr h₂)
  · exact ho.trans ⟨rfl, rfl, rfl, rfl, rfl, rfl, rfl, rfl, rfl, rfl, List.prefix_rfl,
      fun h => ⟨h, rfl⟩, fun _ => rfl⟩
  · exact Exit.raised _

theorem RoundExit.trans {codec : Codec} {p q : ResponseParser} {i : Iter ResponseParser Parse}
    (h : Onward p q) (hi : RoundExit codec q i) : RoundExit codec p i := by
  cases i with
  | again r => exact Onward.trans h hi
  | leave x => exact Exit.trans h hi

theorem chunkSize_exit (codec : Codec) {p : ResponseParser} (he : p.eof = false)
    (hs : p.state = .body) (hc : p.chunked = true) (ht : p.inTrailers = false)
    (ha : p.awaitingChunkSize = true) : RoundExit codec p (chunkSize p) := by
  have hread : ∀ (buf : Bytes) (size : ℤ), Onward p
      { p with buf, chunkRemaining := size, awaitingChunkSize := false } := fun buf size =>
    ⟨rfl, rfl, rfl, rfl, rfl, rfl, rfl, rfl, rfl, rfl, List.prefix_rfl, fun h => ⟨h, rfl⟩, fun _ => rfl⟩
  unfold chunkSize
  cases hf : find CRLF p.buf with
  | none =>
    dsimp only
    rw [he, if_neg (by simp)]
    exact Exit.waits (.refl p) (.size hs hc ht ha hf)
  | some idx =>
    dsimp only
    cases intOfBytes 16 (strip isSpaceByte ((p.buf.take idx).takeWhile (· ≠ SEMI))) with
    | none => exact Exit.raised _
    | some size =>
      dsimp only
      split_ifs
      · exact ⟨rfl, rfl, rfl, rfl, rfl, rfl, rfl, rfl, rfl, rfl, List.prefix_rfl,
          fun h => absurd (ht.symm.trans h) Bool.false_ne_true,
          fun h => absurd (h.symm.trans hc) Bool.false_ne_true⟩
      · refine RoundExit.trans (hread (p.buf.drop (idx + 2)) size) ?_
        exact chunkData_exit codec he hs hc ht rfl

theorem chunkRound_exit (codec : Codec) {p : ResponseParser} (he : p.eof = false)
    (hs : p.state = .body) (hc : p.chunked = true) : RoundExit codec p (chunkRound codec p) := by
  cases ht : p.inTrailers with
  | true =>
    rw [chunkRound_of_trailers ht]
    exact parseTrailers_exit codec he hs hc ht
  | false =>
    cases ha : p.awaitingChunkSize with
    | true => rw [chunkRound_of_size ht ha]; exact chunkSize_exit codec he hs hc ht ha
    | false => rw [chunkRound_of_data ht ha]; exact chunkData_exit codec he hs hc ht ha

/-- Along the rounds. -/
theorem parseChunked_exit (codec : Codec) {p : ResponseParser} (he : p.eof = false)
    (hs : p.state = .body) (hc : p.chunked = true) : Exit codec p (parseChunked codec p) := by
  induction p using chunkRound_induction codec with
  | h p ih =>
    have hround := chunkRound_exit codec he hs hc
    cases hr : chunkRound codec p with
    | again q =>
      rw [hr] at hround
      have ho : Onward p q := hround
      rw [parseChunked_again hr]
      exact Exit.trans ho (ih q hr (ho.eof.trans he) (ho.state.trans hs) (ho.chunked.trans hc))
    | leave x =>
      rw [hr] at hround
      rw [parseChunked_leave hr]
      exact hround

theorem parseBody_chunked (codec : Codec) {p : ResponseParser} (hc : p.chunked = true) :
    parseBody codec p = parseChunked codec p := if_pos hc

theorem parseBody_length (codec : Codec) {p : ResponseParser} {n : ℤ} (hc : p.chunked = false)
    (hn : p.contentLength = some n) : parseBody codec p = parseFixedLength codec n p := by
  unfold parseBody
  rw [hc, hn]
  rfl

theorem parseBody_close (codec : Codec) {p : ResponseParser} (hc : p.chunked = false)
    (hn : p.contentLength = none) : parseBody codec p = parseUntilClose codec p := by
  unfold parseBody
  rw [hc, hn]
  rfl

/-- **Exits of the body.** -/
theorem parseBody_exit (codec : Codec) {p : ResponseParser} (hl : Live p) (hs : p.state = .body) :
    Exit codec p (parseBody codec p) := by
  cases hc : p.chunked with
  | true =>
    rw [parseBody_chunked codec hc]
    exact parseChunked_exit codec hl.eof hs hc
  | false =>
    cases hn : p.contentLength with
    | some n =>
      rw [parseBody_length codec hc hn]
      exact parseFixedLength_exit codec hl hs hc hn
    | none =>
      rw [parseBody_close codec hc hn]
      exact parseUntilClose_exit codec hl hs hc hn

/-! ## The whole parser -/

/-- What a run of the parser comes to while input may still come. -/
inductive Rests (codec : Codec) : Parse → Prop
  | raised (e : ParseExn × ResponseParser) : Rests codec (.error e)
  | waits {q : ResponseParser} (hl : Live q) (ha : Awaits q) : Rests codec (.ok q)
  | finished {q : ResponseParser} (hl : Live q) (hs : q.state = .body) : Rests codec (finalize codec q)

theorem parse_body_rests (codec : Codec) {p : ResponseParser} (hl : Live p) (hs : p.state = .body) :
    Rests codec (parse codec p) := by
  rw [parse_body codec hs]
  have hexit := parseBody_exit codec hl hs
  generalize parseBody codec p = x at hexit ⊢
  cases hexit with
  | raised e => exact .raised e
  | waits ho ha => exact .waits (hl.onward ho) ha
  | finished ho => exact .finished (hl.onward ho) (ho.state.trans hs)

theorem readBlock_live {block : Bytes} {p q : ResponseParser} (hl : Live p) (hs : p.state ≠ .body)
    (h : readBlock block p = .ok q) : Live q := by
  obtain ⟨hc, hn, hr⟩ := hl.unframed hs
  have ht := hl.plain hc
  unfold readBlock at h
  cases hlines : parseHeaderLines (split CRLF block) p with
  | error e => rw [hlines] at h; cases h
  | ok p₁ =>
    rw [hlines] at h
    obtain ⟨headers, rfl⟩ := parseHeaderLines_ok hlines
    rw [ok_bind] at h
    cases hframing : resolveFraming { p with headers } with
    | error e => rw [hframing] at h; cases h
    | ok p₂ =>
      rw [hframing] at h
      cases h
      obtain rfl | ⟨n, rfl⟩ | rfl := resolveFraming_ok hframing
      · exact ⟨hl.eof, hl.response, fun h => absurd rfl h,
          fun h => absurd (hr.symm.trans h) Bool.false_ne_true,
          fun _ h => absurd h Bool.true_eq_false.mp, fun _ => ht⟩
      · exact ⟨hl.eof, hl.response, fun h => absurd rfl h,
          fun h => absurd (hr.symm.trans h) Bool.false_ne_true, (fun _ _ h => by cases h), fun _ => ht⟩
      · exact ⟨hl.eof, hl.response, fun h => absurd rfl h, fun _ => ⟨hc, hn⟩, fun _ _ _ => rfl,
          fun _ => ht⟩

theorem parse_headers_rests (codec : Codec) {p : ResponseParser} (hl : Live p)
    (hs : p.state = .headers) : Rests codec (parse codec p) := by
  have hl' : ∀ buf, Live { p with buf } := fun buf => hl.onward (onward_buf p buf)
  have hbody : p.state ≠ .body := by rw [hs]; nofun
  cases hb : headerBlock p.buf with
  | none =>
    rw [parse_headers_none codec hl.eof hs hb]
    exact .waits hl (.headers hs hb)
  | some br =>
    obtain ⟨block, rest⟩ := br
    rw [parse_headers_some codec hl.eof hs hb]
    cases hr : readBlock block { p with buf := rest } with
    | error e => exact .raised e
    | ok q => exact parse_body_rests codec (readBlock_live (hl' rest) hbody hr) (readBlock_ok hr).1

theorem readStatusLine_live {line : Bytes} {p q : ResponseParser} (hl : Live p)
    (hs : p.state ≠ .body) (h : readStatusLine line p = .ok q) : Live q := by
  unfold readStatusLine at h
  split at h
  · cases h
  · cases h
    exact ⟨hl.eof, hl.response, fun _ => hl.unframed hs, hl.framed, nofun, hl.plain⟩

theorem parse_rests (codec : Codec) {p : ResponseParser} (hl : Live p) (hs : p.state ≠ .done) :
    Rests codec (parse codec p) := by
  cases hst : p.state with
  | done => exact absurd hst hs
  | body => exact parse_body_rests codec hl hst
  | headers => exact parse_headers_rests codec hl hst
  | status =>
    have hbody : p.state ≠ .body := by rw [hst]; nofun
    cases hf : find CRLF p.buf with
    | none =>
      rw [parse_status_none codec hl.eof hst hf]
      exact .waits hl (.statusLine hst hf)
    | some idx =>
      rw [parse_status_some codec hst hf]
      cases hr : readStatusLine (p.buf.take idx) { p with buf := p.buf.drop (idx + 2) } with
      | error e => exact .raised e
      | ok q =>
        exact parse_headers_rests codec
          (readStatusLine_live (hl.onward (onward_buf p (p.buf.drop (idx + 2)))) hbody hr)
          (readStatusLine_ok hr).1

/-- Once the status line is read, it stays so. -/
theorem parse_started {codec : Codec} {p q : ResponseParser} (hl : Live p) (hs : p.state ≠ .status)
    (h : parse codec p = .ok q) : q.state ≠ .status := by
  have hbody : ∀ {p : ResponseParser}, Live p → p.state = .body → parse codec p = .ok q →
      q.state ≠ .status := by
    intro p hl hp h
    rw [parse_body codec hp] at h
    have hexit := parseBody_exit codec hl hp
    generalize parseBody codec p = x at h hexit
    cases hexit with
    | raised e => cases h
    | waits ho ha => cases h; rw [ho.state, hp]; nofun
    | finished ho => rw [finalize_settled codec _ q h]; nofun
  cases hst : p.state with
  | status => exact absurd hst hs
  | body => exact hbody hl hst h
  | done =>
    rw [parse_done codec hst, Except.ok.injEq] at h
    rwa [← h]
  | headers =>
    cases hb : headerBlock p.buf with
    | none =>
      rw [parse_headers_none codec hl.eof hst hb, Except.ok.injEq] at h
      rwa [← h]
    | some br =>
      obtain ⟨block, rest⟩ := br
      rw [parse_headers_some codec hl.eof hst hb] at h
      cases hr : readBlock block { p with buf := rest } with
      | error e => rw [hr] at h; cases h
      | ok q' =>
        rw [hr, ok_bind] at h
        refine hbody (readBlock_live (hl.onward (onward_buf p rest)) ?_ hr) (readBlock_ok hr).1 h
        rw [hst]
        nofun

/-- Before the status line all that was fed is in the buffer. -/
theorem feed_unstarted {codec : Codec} {data : Bytes} {q : ResponseParser}
    (h : feed codec fresh data = .ok q) (hs : q.state = .status) : q.buf = data := by
  have h : parse codec { fresh with buf := data } = .ok q := h
  cases hf : find CRLF data with
  | none =>
    rw [parse_status_none codec rfl rfl hf, Except.ok.injEq] at h
    rw [← h]
  | some idx =>
    rw [parse_status_some codec rfl hf] at h
    cases hr : readStatusLine (data.take idx) { fresh with buf := data.drop (idx + 2) } with
    | error e => rw [hr] at h; cases h
    | ok q' =>
      rw [hr, ok_bind] at h
      have hl : Live q' :=
        readStatusLine_live (live_fresh.onward (onward_buf fresh (data.drop (idx + 2)))) nofun hr
      refine absurd hs (parse_started hl ?_ h)
      rw [(readStatusLine_ok hr).1]
      nofun

theorem feedAll_of_complete (codec : Codec) (pieces : List Bytes) : ∀ {p : ResponseParser},
    p.isComplete → feedAll codec p pieces = .ok (p.extend pieces.flatten) := by
  induction pieces with
  | nil => intro p _; rw [List.flatten_nil, extend_nil]; rfl
  | cons d ds ih =>
    intro p h
    rw [feedAll, feed_of_complete codec h, ok_bind, ih (p := p.extend d) h, extend_extend,
      List.flatten_cons]

/-- **Feeding.** A parser fed in pieces waits, if it has neither raised nor finished. -/
theorem feedAll_awaits {codec : Codec} (pieces : List Bytes) : ∀ {p q : ResponseParser}, Live p →
    Awaits p → feedAll codec p pieces = .ok q → q.isComplete = false → Live q ∧ Awaits q := by
  induction pieces with
  | nil =>
    intro p q hl ha h _
    cases h
    exact ⟨hl, ha⟩
  | cons d ds ih =>
    intro p q hl ha h hq
    have hrests := parse_rests codec (hl.onward (onward_buf p (p.buf ++ d))) ha.state_ne
    unfold feedAll feed at h
    generalize parse codec { p with buf := p.buf ++ d } = x at h hrests
    cases hrests with
    | raised e => cases h
    | waits hl' ha' => exact ih hl' ha' h hq
    | finished hl' hs =>
      rename_i r
      cases hfin : finalize codec r with
      | error e => rw [hfin] at h; cases h
      | ok r' =>
        have hdone : r'.isComplete := decide_eq_true (finalize_settled codec r r' hfin)
        rw [hfin, ok_bind, feedAll_of_complete codec ds hdone] at h
        cases h
        exact absurd (hdone.symm.trans hq) Bool.true_eq_false.mp

theorem awaits_fresh : Awaits fresh := .statusLine rfl rfl

/-! ## The end of the stream -/

/-- What the end of the stream does to a waiting parser. -/
inductive Ending (codec : Codec) (p : ResponseParser) : Prop
  /-- Inside an element that has to be whole. -/
  | raises {msg : Str} (h : feedEof codec p = raise msg { p with eof := true })
      (hb : p.buf ≠ [] ∨ p.state = .body ∧ p.awaitingChunkSize = false)
  /-- Before an element of which nothing has come. -/
  | stays (h : feedEof codec p = .ok { p with eof := true }) (hb : p.buf = [])
      (hs : p.state ≠ .body ∨ p.chunked = true ∧ p.inTrailers = false ∧ p.awaitingChunkSize = true)
  /-- In a body that any length may end, or in the trailers. -/
  | finishes (h : feedEof codec p = finalize codec { p with eof := true }) (hs : p.state = .body)
      (ht : p.chunked = true → p.inTrailers = true)

theorem feedEof_status {codec : Codec} {p : ResponseParser} (hs : p.state = .status)
    (hb : find CRLF p.buf = none) : Ending codec p := by
  have hparse : feedEof codec p = parseStatusLine { p with eof := true } >>= fun q =>
      inState .headers (parseHeaders codec) q >>= inState .body (parseBody codec) :=
    parse_status codec (p := { p with eof := true }) hs
  have hline : parseStatusLine { p with eof := true } =
      if p.buf ≠ [] then raise (str "connection closed before status line") { p with eof := true }
      else .ok { p with eof := true } := by
    simp [parseStatusLine, hb]
  rw [hline] at hparse
  by_cases hbuf : p.buf = []
  · refine .stays ?_ hbuf (.inl (by rw [hs]; decide))
    rw [hparse, if_neg (not_not.mpr hbuf)]
    simp [inState, hs]
  · rw [if_pos hbuf] at hparse
    exact .raises hparse (.inl hbuf)

theorem feedEof_headers {codec : Codec} {p : ResponseParser} (hs : p.state = .headers)
    (hb : headerBlock p.buf = none) : Ending codec p := by
  have hparse : feedEof codec p =
      parseHeaders codec { p with eof := true } >>= inState .body (parseBody codec) :=
    parse_headers codec (p := { p with eof := true }) hs
  have hblock : parseHeaders codec { p with eof := true } =
      if p.buf ≠ [] then raise (str "connection closed inside headers") { p with eof := true }
      else .ok { p with eof := true } := by
    simp [parseHeaders, hb]
  rw [hblock] at hparse
  by_cases hbuf : p.buf = []
  · refine .stays ?_ hbuf (.inl (by rw [hs]; decide))
    rw [hparse, if_neg (not_not.mpr hbuf)]
    simp [inState, hs]
  · rw [if_pos hbuf] at hparse
    exact .raises hparse (.inl hbuf)

theorem feedEof_body (codec : Codec) {p : ResponseParser} (hs : p.state = .body) :
    feedEof codec p = parseBody codec { p with eof := true } :=
  parse_body codec (p := { p with eof := true }) hs

theorem feedEof_chunked (codec : Codec) {p : ResponseParser} (hs : p.state = .body)
    (hc : p.chunked = true) : feedEof codec p = parseChunked codec { p with eof := true } := by
  rw [feedEof_body codec hs]
  exact parseBody_chunked codec (p := { p with eof := true }) hc

theorem feedEof_size {codec : Codec} {p : ResponseParser} (hs : p.state = .body)
    (hc : p.chunked = true) (ht : p.inTrailers = false) (ha : p.awaitingChunkSize = true)
    (hb : find CRLF p.buf = none) : Ending codec p := by
  have hround : chunkRound codec { p with eof := true } = .leave
      (if p.buf ≠ [] then raise (str "EOF inside chunk size line") { p with eof := true }
        else .ok { p with eof := true }) := by
    rw [chunkRound_of_size (p := { p with eof := true }) ht ha]
    simp [chunkSize, hb]
  have hparse := (feedEof_chunked codec hs hc).trans (parseChunked_leave hround)
  by_cases hbuf : p.buf = []
  · exact .stays (hparse.trans (if_neg (not_not.mpr hbuf))) hbuf (.inr ⟨hc, ht, ha⟩)
  · exact .raises (hparse.trans (if_pos hbuf)) (.inl hbuf)

theorem feedEof_data {codec : Codec} {p : ResponseParser} (hs : p.state = .body)
    (hc : p.chunked = true) (ht : p.inTrailers = false) (ha : p.awaitingChunkSize = false)
    (hd : takeChunk p = p) (hb : 0 < p.chunkRemaining ∨ p.buf.length < 2) : Ending codec p := by
  have htake : takeChunk { p with eof := true } = { p with eof := true } :=
    congrArg (fun q : ResponseParser => { q with eof := true }) hd
  have hround : chunkRound codec { p with eof := true } = .leave
      (raise (if 0 < p.chunkRemaining then str "EOF inside chunk data"
        else str "EOF before chunk terminator") { p with eof := true }) := by
    rw [chunkRound_of_data (p := { p with eof := true }) ht ha]
    unfold chunkData
    rw [htake]
    dsimp only
    by_cases hrem : 0 < p.chunkRemaining
    · rw [if_pos hrem, if_pos hrem]
      rfl
    · rw [if_neg hrem, if_neg hrem, if_pos (hb.resolve_left hrem)]
      rfl
  exact .raises ((feedEof_chunked codec hs hc).trans (parseChunked_leave hround)) (.inr ⟨hs, ha⟩)

theorem feedEof_length (codec : Codec) {p : ResponseParser} {n : ℤ} (hs : p.state = .body)
    (hc : p.chunked = false) (hn : p.contentLength = some n) (hb : p.buf = []) :
    feedEof codec p = finalize codec { p with eof := true } := by
  have hfill : fillBody n { p with eof := true } = { p with eof := true } := by
    simp [fillBody, hb]
  rw [feedEof_body codec hs, parseBody_length codec (p := { p with eof := true }) hc hn]
  unfold parseFixedLength
  rw [hfill]
  exact if_pos (Or.inr rfl)

theorem feedEof_close (codec : Codec) {p : ResponseParser} (hs : p.state = .body)
    (hc : p.chunked = false) (hn : p.contentLength = none) (hb : p.buf = []) :
    feedEof codec p = finalize codec { p with eof := true } := by
  have hall : { p with body := p.body ++ p.buf, buf := [], eof := true } =
      { p with eof := true } := by
    simp [hb]
  rw [feedEof_body codec hs, parseBody_close codec (p := { p with eof := true }) hc hn]
  exact congrArg (finalize codec) hall

theorem feedEof_trailers (codec : Codec) {p : ResponseParser} (hs : p.state = .body)
    (hc : p.chunked = true) (ht : p.inTrailers = true) (hb : ¬ CRLF <+: p.buf)
    (hf : find CRLFCRLF p.buf = none) : feedEof codec p = finalize codec { p with eof := true } := by
  have hround : chunkRound codec { p with eof := true } =
      .leave (finalize codec { p with eof := true }) := by
    rw [chunkRound_of_trailers (p := { p with eof := true }) ht,
      parseTrailers_none codec (p := { p with eof := true }) hb hf]
    rfl
  exact (feedEof_chunked codec hs hc).trans (parseChunked_leave hround)

/-- A body of any length, and the trailers, end with the stream. -/
theorem feedEof_finishes (codec : Codec) {p : ResponseParser} (h : Awaits p) (hs : p.state = .body)
    (ht : p.chunked = true → p.inTrailers = true) :
    feedEof codec p = finalize codec { p with eof := true } := by
  cases h with
  | statusLine hs' hb => rw [hs'] at hs; cases hs
  | headers hs' hb => rw [hs'] at hs; cases hs
  | length hs hc hn hb => exact feedEof_length codec hs hc hn hb
  | close hs hc hn hb => exact feedEof_close codec hs hc hn hb
  | size hs hc ht' ha hb => exact absurd ((ht hc).symm.trans ht') Bool.true_eq_false.mp
  | data hs hc ht' ha hd hb => exact absurd ((ht hc).symm.trans ht') Bool.true_eq_false.mp
  | trailers hs hc ht hb hf => exact feedEof_trailers codec hs hc ht hb hf

/-- **The end of the stream**, for whatever the parser waits for. -/
theorem feedEof_awaits (codec : Codec) {p : ResponseParser} (h : Awaits p) : Ending codec p := by
  have hplain : p.chunked = false → p.chunked = true → p.inTrailers = true := fun hc h =>
    absurd (hc.symm.trans h) Bool.false_ne_true
  have hfinishes := feedEof_finishes codec h
  cases h with
  | statusLine hs hb => exact feedEof_status hs hb
  | headers hs hb => exact feedEof_headers hs hb
  | size hs hc ht ha hb => exact feedEof_size hs hc ht ha hb
  | data hs hc ht ha hd hb => exact feedEof_data hs hc ht ha hd hb
  | length hs hc hn hb => exact .finishes (hfinishes hs (hplain hc)) hs (hplain hc)
  | close hs hc hn hb => exact .finishes (hfinishes hs (hplain hc)) hs (hplain hc)
  | trailers hs hc ht hb hf => exact .finishes (hfinishes hs fun _ => ht) hs fun _ => ht

end ResponseParser

end Fizzpy
