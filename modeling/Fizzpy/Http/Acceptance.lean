import Fizzpy.Foundation.SelfDelimiting
import Fizzpy.Http.Completion
import Fizzpy.Http.Conservation

/-!
# What the parser accepts

The responses that `ResponseParser` takes, said without a parser: a status line, a section of header
lines, and a body as long as they say (`WireResponse`). What is fed, in whatever pieces, completes a
response exactly if it begins with the text of one (`reads_iff`). So responses are self-delimiting,
and what has once been refused would not have become a response.
-/

namespace Fizzpy

open Foundation

/-! ## Responses as texts -/

/-- Where the head says that the body ends. -/
inductive Delimiter
  | length (n : ℤ)
  | chunked
  | close
  deriving DecidableEq

/-- `none` where the length cannot be read. -/
def delimiter (status : ℕ) (headers : Headers) : Option Delimiter :=
  let te := (headers.get (str "Transfer-Encoding")).getD []
  if te ≠ [] ∧ contains (str "chunked") (lower te) then some .chunked
  else if status < 200 ∨ status = 204 ∨ status = 304 then some (.length 0)
  else
    match headers.get (str "Content-Length") with
    | some cl => (intOfStr 10 (strip isSpace cl)).map .length
    | none => some .close

/-- A section without its blank line. -/
def ResponseParser.TrailerSection.block (s : ResponseParser.TrailerSection) : Bytes :=
  s.text.take (s.text.length - 4)

open ResponseParser

/-- Whole chunks, the last size line and the trailer section. -/
structure ChunkedText where
  chunks : List WholeChunk
  last : SizeLine
  zero : last.size = 0
  trailers : TrailerSection

/-- A body that ends before the connection does. -/
inductive BodyText
  | length (n : ℤ) (data : Bytes) (length_eq : (data.length : ℤ) = max n 0)
  | chunked (text : ChunkedText)

namespace BodyText

def wire : BodyText → Bytes
  | length _ data _ => data
  | chunked t => t.chunks.flatMap WholeChunk.wire ++ t.last.wire ++ t.trailers.text

def data : BodyText → Bytes
  | length _ data _ => data
  | chunked t => t.chunks.flatMap WholeChunk.data

def delimiter : BodyText → Delimiter
  | length n _ _ => .length n
  | chunked _ => .chunked

end BodyText

/-- The text of a head: each part is what the source reads it as. -/
structure WireHead where
  line : Bytes
  lineFree : CrlfFree line
  start : StatusLine
  start_eq : matchStatusLine line = some start
  fields : TrailerSection
  headers : Headers
  headers_eq : (split CRLF fields.block).foldlM parseHeaderLine .empty = .ok headers

namespace WireHead

def status (h : WireHead) : ℕ := ofDigits 10 (h.start.code.map fun b => b.toNat - 48)

def wire (h : WireHead) : Bytes := h.line ++ CRLF ++ h.fields.text

/-- The response that is meant with this body, which is decoded. -/
def meaning (codec : Codec) (h : WireHead) (data : Bytes) : Response where
  statusCode := h.status
  reason := latin1 (h.start.reason.getD [])
  httpVersion := latin1 h.start.version
  headers := h.headers
  content := delivered codec h.headers data

/-- The body is one that the head asks for, and does not end within a compressed stream. -/
structure Takes (codec : Codec) (h : WireHead) (d : Delimiter) (data : Bytes) : Prop where
  framed : delimiter h.status h.headers = some d
  whole : ¬ EndsEarly codec h.headers data

end WireHead

/-- The text of a response. -/
structure WireResponse extends WireHead where
  body : BodyText

namespace WireResponse

def wire (m : WireResponse) : Bytes := m.toWireHead.wire ++ m.body.wire

def response (codec : Codec) (m : WireResponse) : Response := m.meaning codec m.body.data

def Sound (codec : Codec) (m : WireResponse) : Prop := m.Takes codec m.body.delimiter m.body.data

/-- The texts of responses, with their meaning. -/
def Language (codec : Codec) (wire : Bytes) (r : Response) : Prop :=
  ∃ m : WireResponse, m.Sound codec ∧ m.wire = wire ∧ m.response codec = r

end WireResponse

namespace ResponseParser

/-! ## Coming to an end -/

/-- The method completes the response `r` and leaves `rest` in the buffer. -/
def Ends (x : Parse) (r : Response) (rest : Bytes) : Prop :=
  ∃ p, x = .ok p ∧ p.isComplete ∧ p.response = some r ∧ p.buf = rest

variable {codec : Codec} {r : Response} {rest : Bytes}

theorem not_ends_ok {p : ResponseParser} (hs : p.state ≠ .done) : ¬ Ends (.ok p) r rest := by
  rintro ⟨q, hq, hc, -, -⟩
  cases hq
  exact hs (of_decide_eq_true hc)

theorem not_ends_error (e : ParseExn × ResponseParser) : ¬ Ends (.error e) r rest := by
  rintro ⟨q, hq, -⟩
  cases hq

theorem ends_bind_iff {x : Parse} {f : ResponseParser → Parse} :
    Ends (x >>= f) r rest ↔ ∃ q, x = .ok q ∧ Ends (f q) r rest := by
  cases x with
  | error e => exact iff_of_false (not_ends_error e) fun ⟨q, hq, _⟩ => by cases hq
  | ok q => exact ⟨fun h => ⟨q, rfl, h⟩, fun ⟨q', hq', h⟩ => by cases hq'; exact h⟩

/-- What the parser makes of a body. -/
def Finishes (codec : Codec) (p : ResponseParser) (data : Bytes) (r : Response) : Prop :=
  ¬ EndsEarly codec p.headers data ∧
    r = ⟨p.statusCode, p.reason, p.httpVersion, p.headers, delivered codec p.headers data⟩

theorem ends_finalize_iff {p : ResponseParser} :
    Ends (finalize codec p) r rest ↔ Finishes codec p p.body r ∧ p.buf = rest := by
  obtain ⟨hcut, hfin⟩ | ⟨hcut, hfin⟩ := finalize_eq codec p
  · rw [hfin]
    exact iff_of_false (not_ends_error _) fun h => h.1.1 hcut
  · rw [hfin]
    constructor
    · rintro ⟨q, hq, -, hr, hbuf⟩
      cases hq
      exact ⟨⟨hcut, (Option.some.inj hr).symm⟩, hbuf⟩
    · rintro ⟨⟨-, rfl⟩, rfl⟩
      exact ⟨_, rfl, rfl, rfl, rfl⟩

/-! ## Sections -/

theorem headerBlock_section (s : TrailerSection) (rest : Bytes) :
    headerBlock (s.text ++ rest) = some (s.block, rest) := by
  have hends := s.ends
  have hblock : headerBlock s.text = some (s.block, []) := by
    unfold headerBlock TrailerSection.block
    obtain htext | ⟨hcr, hfind⟩ := hends
    · rw [htext]
      rfl
    · have hlen := find_add_length_le (by decide) hfind
      rw [show CRLFCRLF.length = 4 from rfl] at hlen
      rw [if_neg hcr, hfind, Option.map_some, List.drop_eq_nil_of_le (by omega)]
  exact headerBlock_append hblock rest

theorem section_of_headerBlock {buf block rest : Bytes} (h : headerBlock buf = some (block, rest)) :
    ∃ s : TrailerSection, s.block = block ∧ buf = s.text ++ rest := by
  unfold headerBlock at h
  by_cases hc : CRLF <+: buf
  · rw [if_pos hc, Option.some.injEq, Prod.mk.injEq] at h
    obtain ⟨rfl, rfl⟩ := h
    obtain ⟨t, rfl⟩ := hc
    exact ⟨⟨CRLF, .inl rfl⟩, rfl, rfl⟩
  · rw [if_neg hc] at h
    obtain ⟨e, hf, he⟩ := Option.map_eq_some_iff.mp h
    rw [Prod.mk.injEq] at he
    obtain ⟨rfl, rfl⟩ := he
    have hlen := find_add_length_le (by decide) hf
    rw [show CRLFCRLF.length = 4 from rfl] at hlen
    have hsame : (buf.take (e + 4)).length - 4 = e := by
      rw [List.length_take]
      omega
    have hthrough : find CRLFCRLF (buf.take (e + 4)) = some e := find_take_through (by decide) hf
    refine ⟨⟨buf.take (e + 4), .inr ⟨fun h => hc (h.trans (List.take_prefix _ _)), ?_⟩⟩, ?_,
      (List.take_append_drop _ _).symm⟩
    · rw [hsame, hthrough]
    · show (buf.take (e + 4)).take ((buf.take (e + 4)).length - 4) = buf.take e
      rw [hsame, List.take_take, min_eq_left (by omega)]

theorem parseTrailers_eq {p : ResponseParser} (he : p.eof = false) : parseTrailers codec p =
    match headerBlock p.buf with
    | some (_, rest) => finalize codec { p with buf := rest }
    | none => .ok p := by
  unfold parseTrailers headerBlock
  by_cases hc : CRLF <+: p.buf
  · rw [if_pos hc, if_pos hc]
  · rw [if_neg hc, if_neg hc]
    cases find CRLFCRLF p.buf with
    | none => exact if_neg (by rw [he]; exact Bool.false_ne_true)
    | some e => rfl

/-! ## The head -/

/-- The parser with the framing resolved. -/
def framedBy (p : ResponseParser) : Delimiter → ResponseParser
  | .length n => { p with contentLength := some n }
  | .chunked => { p with chunked := true }
  | .close => { p with readUntilClose := true }

theorem resolveFraming_eq_ok_iff {p q : ResponseParser} : resolveFraming p = .ok q ↔
    ∃ d, delimiter p.statusCode p.headers = some d ∧ q = framedBy p d := by
  have hok : ∀ d, (.ok (framedBy p d) : Parse) = .ok q ↔ ∃ d', some d = some d' ∧ q = framedBy p d' := by
    intro d
    rw [Except.ok.injEq]
    exact ⟨fun h => ⟨d, rfl, h.symm⟩, fun ⟨d', hd, hq⟩ => by cases hd; exact hq.symm⟩
  unfold resolveFraming delimiter
  dsimp only
  split_ifs
  · exact hok .chunked
  · exact hok (.length 0)
  · cases p.headers.get (str "Content-Length") with
    | none => exact hok .close
    | some cl =>
      cases hn : intOfStr 10 (strip isSpace cl) with
      | some n =>
        simp only [hn, Option.map_some]
        exact hok (.length n)
      | none =>
        simp only [hn, Option.map_none]
        exact iff_of_false (fun h => by cases h) fun ⟨d, hd, _⟩ => by cases hd

theorem parseHeaderLines_eq_ok_iff {lines : List Bytes} : ∀ {p q : ResponseParser},
    parseHeaderLines lines p = .ok q ↔
      ∃ h, lines.foldlM parseHeaderLine p.headers = .ok h ∧ q = { p with headers := h } := by
  induction lines with
  | nil =>
    intro p q
    rw [List.foldlM_nil]
    constructor
    · intro h
      exact ⟨p.headers, rfl, (Except.ok.inj h).symm⟩
    · rintro ⟨h, hh, rfl⟩
      rw [← Except.ok.inj hh]
      rfl
  | cons raw lines ih =>
    intro p q
    unfold parseHeaderLines
    rw [List.foldlM_cons]
    cases hl : parseHeaderLine p.headers raw with
    | ok h => exact ih
    | error msg =>
      refine iff_of_false (fun h => by cases h) ?_
      rintro ⟨h, hh, -⟩
      cases hh

theorem readBlock_eq_ok_iff {block : Bytes} {p q : ResponseParser} : readBlock block p = .ok q ↔
    ∃ h d, (split CRLF block).foldlM parseHeaderLine p.headers = .ok h ∧
      delimiter p.statusCode h = some d ∧
      q = framedBy { p with headers := h, state := .body } d := by
  have hstate : ∀ (p : ResponseParser) (d : Delimiter),
      { framedBy p d with state := .body } = framedBy { p with state := .body } d := by
    intro p d
    cases d <;> rfl
  unfold readBlock
  constructor
  · intro h
    obtain ⟨p₁, hp₁, h⟩ := bind_eq_ok.mp h
    obtain ⟨p₂, hp₂, h⟩ := bind_eq_ok.mp h
    obtain ⟨hs, hlines, rfl⟩ := parseHeaderLines_eq_ok_iff.mp hp₁
    obtain ⟨d, hd, rfl⟩ := resolveFraming_eq_ok_iff.mp hp₂
    exact ⟨hs, d, hlines, hd, (Except.ok.inj h).symm.trans (hstate _ d)⟩
  · rintro ⟨hs, d, hlines, hd, rfl⟩
    refine bind_eq_ok.mpr ⟨_, parseHeaderLines_eq_ok_iff.mpr ⟨hs, hlines, rfl⟩, ?_⟩
    refine bind_eq_ok.mpr ⟨_, resolveFraming_eq_ok_iff.mpr ⟨d, hd, rfl⟩, ?_⟩
    exact congrArg Except.ok (hstate _ d)

/-! ## The body -/

theorem ends_parseFixedLength_iff {p : ResponseParser} {n : ℤ} (he : p.eof = false)
    (hs : p.state = .body) (hb : p.body = []) : Ends (parseFixedLength codec n p) r rest ↔
      ∃ data : Bytes, (data.length : ℤ) = max n 0 ∧ p.buf = data ++ rest ∧ Finishes codec p data r := by
  have hfill : fillBody n p = { p with body := p.buf.take n.toNat, buf := p.buf.drop n.toNat } := by
    unfold fillBody
    rw [hb]
    simp
  unfold parseFixedLength
  rw [hfill]
  dsimp only
  rw [he]
  by_cases hn : n ≤ (p.buf.take n.toNat).length
  · rw [if_pos (.inl hn), ends_finalize_iff]
    rw [List.length_take] at hn
    constructor
    · rintro ⟨hfin, rfl⟩
      refine ⟨p.buf.take n.toNat, ?_, (List.take_append_drop _ _).symm, hfin⟩
      rw [List.length_take]
      omega
    · rintro ⟨data, hlen, hbuf, hfin⟩
      have hdata : n.toNat = data.length := by omega
      dsimp only
      rw [hbuf, hdata, List.take_left, List.drop_left]
      exact ⟨hfin, rfl⟩
  · rw [if_neg (by simpa using hn)]
    refine iff_of_false (not_ends_ok (by simp [hs])) ?_
    rintro ⟨data, hlen, hbuf, -⟩
    refine hn ?_
    rw [List.length_take, hbuf, List.length_append]
    omega

theorem not_ends_parseUntilClose {p : ResponseParser} (he : p.eof = false) (hs : p.state = .body) :
    ¬ Ends (parseUntilClose codec p) r rest := by
  unfold parseUntilClose
  dsimp only
  rw [he, if_neg Bool.false_ne_true]
  exact not_ends_ok (by simp [hs])

/-- The data of a chunk, all there with its CRLF, also where the size is negative. -/
theorem chunkData_terminated {p : ResponseParser} {data rest : Bytes}
    (hlen : (data.length : ℤ) = max p.chunkRemaining 0) (hbuf : p.buf = data ++ CRLF ++ rest) :
    chunkData p = .again { p with
      body := p.body ++ data, buf := rest, chunkRemaining := min p.chunkRemaining 0,
      awaitingChunkSize := true } := by
  have hneed : p.chunkRemaining.toNat = data.length := by omega
  have hleft : p.chunkRemaining - (data.length : ℤ) = min p.chunkRemaining 0 := by omega
  have htake : takeChunk p = { p with
      body := p.body ++ data, buf := CRLF ++ rest, chunkRemaining := min p.chunkRemaining 0 } := by
    unfold takeChunk
    rw [hneed, hbuf, List.append_assoc]
    dsimp only
    rw [List.take_left, List.drop_left, List.length_append, min_eq_left (by omega), hleft]
  have hlen : ¬ (CRLF ++ rest).length < 2 := by simp [CRLF]
  have hcr : CRLF <+: CRLF ++ rest := List.prefix_append CRLF rest
  unfold chunkData
  rw [htake]
  dsimp only
  rw [if_neg (by omega), if_neg hlen, if_neg (not_not.mpr hcr)]
  rfl

/-- What there is does not end, nor would the end of the connection end it. -/
def Stuck (codec : Codec) (x : Parse) : Prop :=
  ∀ r rest, ¬ Ends x r rest ∧ ¬ Ends (x >>= feedEof codec) r rest

theorem stuck_error (e : ParseExn × ResponseParser) : Stuck codec (.error e) :=
  fun _ _ => ⟨not_ends_error e, not_ends_error e⟩

theorem stuck_ok {p : ResponseParser} (hs : p.state = .body) (hc : p.chunked = true) {x : Parse}
    (hr : chunkRound codec { p with eof := true } = .leave x) (hx : ∀ r rest, ¬ Ends x r rest) :
    Stuck codec (.ok p) := by
  refine fun r rest => ⟨not_ends_ok (by simp [hs]), ?_⟩
  rw [ok_bind, feedEof_body codec hs, parseBody_chunked codec (p := { p with eof := true }) hc,
    parseChunked_leave hr]
  exact hx r rest

/-- Where data is missing, or the two bytes behind it, the end of the connection is an error. -/
theorem stuck_data {p : ResponseParser} (hs : p.state = .body) (hc : p.chunked = true)
    (ht : p.inTrailers = false) (ha : p.awaitingChunkSize = false)
    (h : 0 < (takeChunk p).chunkRemaining ∨ (takeChunk p).buf.length < 2) :
    Stuck codec (.ok (takeChunk p)) := by
  have htake : takeChunk { takeChunk p with eof := true } = { takeChunk p with eof := true } :=
    congrArg (fun q : ResponseParser => { q with eof := true }) (takeChunk_idem p)
  have hround : ∃ msg, chunkRound codec { takeChunk p with eof := true } =
      .leave (raise msg { takeChunk p with eof := true }) := by
    rw [chunkRound_of_data (p := { takeChunk p with eof := true }) ht ha]
    unfold chunkData
    rw [htake]
    dsimp only
    rw [if_pos rfl, if_pos rfl]
    by_cases hmore : 0 < (takeChunk p).chunkRemaining
    · exact ⟨_, if_pos hmore⟩
    · rw [if_neg hmore, if_pos (h.resolve_left hmore)]
      exact ⟨_, rfl⟩
  obtain ⟨msg, hround⟩ := hround
  exact stuck_ok (p := takeChunk p) hs hc hround fun r rest => not_ends_error _

/-- Otherwise the round is left, and nothing has come to an end. -/
theorem chunkData_cases {p : ResponseParser} (he : p.eof = false) (hs : p.state = .body)
    (hc : p.chunked = true) (ht : p.inTrailers = false) (ha : p.awaitingChunkSize = false) :
    (∃ data rest : Bytes, (data.length : ℤ) = max p.chunkRemaining 0 ∧
      p.buf = data ++ CRLF ++ rest) ∨
    ∃ x, chunkData p = .leave x ∧ Stuck codec x := by
  have he' : (takeChunk p).eof = false := he
  have hrem : (takeChunk p).chunkRemaining =
      p.chunkRemaining - (min p.chunkRemaining.toNat p.buf.length : ℕ) := rfl
  unfold chunkData
  dsimp only
  rw [he', if_neg Bool.false_ne_true, if_neg Bool.false_ne_true]
  by_cases hmore : 0 < (takeChunk p).chunkRemaining
  · exact .inr ⟨_, if_pos hmore, stuck_data hs hc ht ha (.inl hmore)⟩
  rw [if_neg hmore]
  by_cases hshort : (takeChunk p).buf.length < 2
  · exact .inr ⟨_, if_pos hshort, stuck_data hs hc ht ha (.inr hshort)⟩
  rw [if_neg hshort]
  by_cases hcr : CRLF <+: (takeChunk p).buf
  · obtain ⟨rest, hrest⟩ := hcr
    have hdrop : p.buf.drop p.chunkRemaining.toNat = CRLF ++ rest := hrest.symm
    refine .inl ⟨p.buf.take p.chunkRemaining.toNat, rest, ?_, ?_⟩
    · rw [List.length_take]
      omega
    · rw [List.append_assoc, ← hdrop, List.take_append_drop]
  · exact .inr ⟨_, if_pos hcr, stuck_error _⟩

/-- Between two chunks of a body, with input to come. -/
structure Between (p : ResponseParser) : Prop where
  eof : p.eof = false
  state : p.state = .body
  trailers : p.inTrailers = false
  awaiting : p.awaitingChunkSize = true

theorem chunkRound_whole {p : ResponseParser} (hp : Between p) (c : WholeChunk) {rest : Bytes}
    (hbuf : p.buf = c.wire ++ rest) : chunkRound codec p = .again { p with
      body := p.body ++ c.data, buf := rest, chunkRemaining := min c.head.size 0,
      awaitingChunkSize := true } := by
  have hline : p.buf = c.head.line ++ CRLF ++ (c.data ++ CRLF ++ rest) := by
    rw [hbuf, WholeChunk.wire, SizeLine.wire]
    simp only [List.append_assoc]
  rw [chunkRound_of_size hp.trailers hp.awaiting, chunkSize_line hline c.head.crlfFree,
    c.head.size_eq]
  dsimp only
  rw [if_neg c.nonzero]
  exact chunkData_terminated c.length_eq rfl

theorem chunkRound_last {p : ResponseParser} (hp : Between p) (l : SizeLine) (hzero : l.size = 0)
    {buf : Bytes} (hbuf : p.buf = l.wire ++ buf) :
    chunkRound codec p = .again { p with buf, inTrailers := true } := by
  rw [chunkRound_of_size hp.trailers hp.awaiting, chunkSize_line hbuf l.crlfFree, l.size_eq]
  exact if_pos hzero

/-- Behind the last size line it takes a trailer section. -/
theorem ends_lastLine_iff {p : ResponseParser} (hp : Between p) (l : SizeLine) (hzero : l.size = 0)
    {buf : Bytes} (hbuf : p.buf = l.wire ++ buf) : Ends (parseChunked codec p) r rest ↔
      ∃ s : TrailerSection, buf = s.text ++ rest ∧ Finishes codec p p.body r := by
  rw [parseChunked_again (chunkRound_last hp l hzero hbuf), parseChunked_leave (chunkRound_of_trailers rfl),
    parseTrailers_eq (p := { p with buf, inTrailers := true }) hp.eof]
  dsimp only
  cases hblock : headerBlock buf with
  | none =>
    refine iff_of_false (not_ends_ok (by simp [hp.state])) ?_
    rintro ⟨s, rfl, -⟩
    rw [headerBlock_section] at hblock
    cases hblock
  | some br =>
    obtain ⟨block, behind⟩ := br
    dsimp only
    rw [ends_finalize_iff]
    constructor
    · rintro ⟨hfin, rfl⟩
      obtain ⟨s, -, hs⟩ := section_of_headerBlock hblock
      exact ⟨s, hs, hfin⟩
    · rintro ⟨s, rfl, hfin⟩
      rw [headerBlock_section, Option.some.injEq, Prod.mk.injEq] at hblock
      exact ⟨hfin, hblock.2.symm⟩

/-- A round reads a whole chunk or the last size line, or the loop is left with the body open. -/
theorem chunkRound_cases {p : ResponseParser} (hp : Between p) (hc : p.chunked = true) :
    (∃ (c : WholeChunk) (buf : Bytes), p.buf = c.wire ++ buf) ∨
    (∃ (l : SizeLine) (buf : Bytes), l.size = 0 ∧ p.buf = l.wire ++ buf) ∨
    ∃ x, chunkRound codec p = .leave x ∧ Stuck codec x := by
  cases hf : find CRLF p.buf with
  | none =>
    have hround : ∀ q : ResponseParser, q.inTrailers = false → q.awaitingChunkSize = true →
        q.buf = p.buf → chunkRound codec q = .leave (if q.eof ∧ q.buf ≠ [] then
          raise (str "EOF inside chunk size line") q else .ok q) := by
      intro q ht ha hbuf
      rw [chunkRound_of_size ht ha]
      unfold chunkSize
      rw [hbuf, hf]
    have hopen : ¬ (p.eof ∧ p.buf ≠ []) := by simp [hp.eof]
    refine .inr (.inr ⟨.ok p, ?_, ?_⟩)
    · rw [hround p hp.trailers hp.awaiting rfl, if_neg hopen]
    · refine stuck_ok hp.state hc (hround { p with eof := true } hp.trailers hp.awaiting rfl) ?_
      intro r rest
      split_ifs
      · exact not_ends_error _
      · exact not_ends_ok (by simp [hp.state])
  | some idx =>
    obtain ⟨hfree, hbuf⟩ := line_of_find hf
    rw [chunkRound_of_size hp.trailers hp.awaiting, chunkSize_line hbuf hfree]
    cases hn : intOfBytes 16 (sizeToken (p.buf.take idx)) with
    | none => exact .inr (.inr ⟨_, rfl, stuck_error _⟩)
    | some size =>
      dsimp only
      by_cases hzero : size = 0
      · exact .inr (.inl ⟨⟨_, size, hfree, hn⟩, _, hzero, hbuf⟩)
      · rw [if_neg hzero]
        obtain ⟨data, buf, hlen, hdata⟩ | hleave := @chunkData_cases codec { p with
            buf := p.buf.drop (idx + 2), chunkRemaining := size, awaitingChunkSize := false }
            hp.eof hp.state hc hp.trailers rfl
        · refine .inl ⟨⟨⟨_, size, hfree, hn⟩, data, hzero, hlen⟩, buf, ?_⟩
          have hdata : p.buf.drop (idx + 2) = data ++ CRLF ++ buf := hdata
          rw [WholeChunk.wire, SizeLine.wire, List.append_assoc, List.append_assoc,
            ← List.append_assoc data, ← hdata]
          exact hbuf
        · exact .inr (.inr hleave)

theorem ends_of_chunkedText (t : ChunkedText) : ∀ {p : ResponseParser}, Between p →
    p.buf = (BodyText.chunked t).wire ++ rest →
    Finishes codec p (p.body ++ (BodyText.chunked t).data) r → Ends (parseChunked codec p) r rest := by
  obtain ⟨chunks, last, zero, trailers⟩ := t
  induction chunks with
  | nil =>
    intro p hp hbuf hfin
    have hbuf : p.buf = last.wire ++ (trailers.text ++ rest) :=
      hbuf.trans (List.append_assoc _ _ _)
    have hfin : Finishes codec p (p.body ++ []) r := hfin
    rw [List.append_nil] at hfin
    exact (ends_lastLine_iff hp last zero hbuf).mpr ⟨trailers, rfl, hfin⟩
  | cons c chunks ih =>
    intro p hp hbuf hfin
    have hsplit : p.buf = c.wire ++ ((BodyText.chunked ⟨chunks, last, zero, trailers⟩).wire ++ rest) := by
      rw [hbuf]
      simp only [BodyText.wire, List.flatMap_cons, List.append_assoc]
    rw [parseChunked_again (chunkRound_whole hp c hsplit)]
    refine ih (p := { p with
      body := p.body ++ c.data, buf := _, chunkRemaining := min c.head.size 0,
      awaitingChunkSize := true }) ⟨hp.eof, hp.state, hp.trailers, rfl⟩ rfl ?_
    have hdata : p.body ++ (BodyText.chunked ⟨c :: chunks, last, zero, trailers⟩).data =
        p.body ++ c.data ++ (BodyText.chunked ⟨chunks, last, zero, trailers⟩).data := by
      simp only [BodyText.data, List.flatMap_cons, List.append_assoc]
    rw [hdata] at hfin
    exact hfin

theorem chunkedText_of_ends {p : ResponseParser} (hp : Between p) (hc : p.chunked = true)
    (h : Ends (parseChunked codec p) r rest) : ∃ t : ChunkedText,
      p.buf = (BodyText.chunked t).wire ++ rest ∧
        Finishes codec p (p.body ++ (BodyText.chunked t).data) r := by
  induction p using chunkRound_induction codec with
  | h p ih =>
    obtain ⟨c, buf, hbuf⟩ | ⟨l, buf, hzero, hbuf⟩ | ⟨x, hx, hno⟩ :=
      @chunkRound_cases codec p hp hc
    · have hround := @chunkRound_whole codec p hp c buf hbuf
      rw [parseChunked_again hround] at h
      obtain ⟨t, ht, hfin⟩ := ih _ hround ⟨hp.eof, hp.state, hp.trailers, rfl⟩ hc h
      refine ⟨{ t with chunks := c :: t.chunks }, ?_, ?_⟩
      · have ht : buf = (BodyText.chunked t).wire ++ rest := ht
        rw [hbuf, ht]
        simp only [BodyText.wire, List.flatMap_cons, List.append_assoc]
      · have hdata : p.body ++ (BodyText.chunked { t with chunks := c :: t.chunks }).data =
            p.body ++ c.data ++ (BodyText.chunked t).data := by
          simp only [BodyText.data, List.flatMap_cons, List.append_assoc]
        rw [hdata]
        exact hfin
    · obtain ⟨s, hs, hfin⟩ := (ends_lastLine_iff hp l hzero hbuf).mp h
      refine ⟨⟨[], l, hzero, s⟩, ?_, ?_⟩
      · rw [hbuf, hs]
        exact (List.append_assoc _ _ _).symm
      · have hdata : p.body ++ (BodyText.chunked ⟨[], l, hzero, s⟩).data = p.body :=
          List.append_nil _
        rwa [hdata]
    · rw [parseChunked_leave hx] at h
      exact absurd h (hno r rest).1

/-- **The body** comes to its end exactly where the text of one does. -/
theorem ends_parseBody_iff {p : ResponseParser} (hp : Between p) (hc : p.chunked = false)
    (hn : p.contentLength = none) (hb : p.body = []) (d : Delimiter) :
    Ends (parseBody codec (framedBy p d)) r rest ↔
      ∃ b : BodyText, b.delimiter = d ∧ p.buf = b.wire ++ rest ∧ Finishes codec p b.data r := by
  cases d with
  | length n =>
    rw [parseBody_length codec (p := framedBy p (.length n)) (n := n) hc rfl,
      ends_parseFixedLength_iff (p := framedBy p (.length n)) hp.eof hp.state hb]
    constructor
    · rintro ⟨data, hlen, hbuf, hfin⟩
      exact ⟨.length n data hlen, rfl, hbuf, hfin⟩
    · rintro ⟨b, hd, hbuf, hfin⟩
      cases b with
      | length n' data hlen =>
        cases hd
        exact ⟨data, hlen, hbuf, hfin⟩
      | chunked t => cases hd
  | chunked =>
    have hq : Between (framedBy p .chunked) := ⟨hp.eof, hp.state, hp.trailers, hp.awaiting⟩
    rw [parseBody_chunked codec (p := framedBy p .chunked) rfl]
    constructor
    · intro h
      obtain ⟨t, hbuf, hfin⟩ := chunkedText_of_ends hq rfl h
      rw [show (framedBy p .chunked).body = [] from hb, List.nil_append] at hfin
      exact ⟨.chunked t, rfl, hbuf, hfin⟩
    · rintro ⟨b, hd, hbuf, hfin⟩
      cases b with
      | length n data hlen => cases hd
      | chunked t =>
        refine ends_of_chunkedText t hq hbuf ?_
        rwa [show (framedBy p .chunked).body = [] from hb, List.nil_append]
  | close =>
    rw [parseBody_close codec (p := framedBy p .close) hc hn]
    refine iff_of_false (not_ends_parseUntilClose (p := framedBy p .close) hp.eof hp.state) ?_
    rintro ⟨b, hd, -⟩
    cases b <;> cases hd

/-! ## The head and the whole -/

/-- The parser behind the status line, and behind the head. -/
def started (start : StatusLine) (buf : Bytes) : ResponseParser :=
  { fresh with
    buf
    httpVersion := latin1 start.version
    statusCode := ofDigits 10 (start.code.map fun b => b.toNat - 48)
    reason := latin1 (start.reason.getD [])
    state := .headers }

def headed (h : WireHead) (buf : Bytes) : ResponseParser :=
  { started h.start buf with headers := h.headers, state := .body }

/-- The parser waits for the end of the status line, or of the header block. -/
def WaitsInHead (p : ResponseParser) : Prop :=
  (p.state = .status ∧ find CRLF p.buf = none) ∨ (p.state = .headers ∧ headerBlock p.buf = none)

/-- What is done when the input has been fed: nothing, or `feed_eof`. -/
def EndsLate (κ : ResponseParser → Parse) : Prop :=
  ∀ p, WaitsInHead p → ∀ r rest, ¬ Ends (κ p) r rest

variable {κ : ResponseParser → Parse}

/-- A status line that is one leads to the headers. -/
theorem ends_line_iff {line buf : Bytes} (hfree : CrlfFree line) :
    Ends (feed codec fresh (line ++ CRLF ++ buf) >>= κ) r rest ↔ ∃ start,
      matchStatusLine line = some start ∧ Ends (parse codec (started start buf) >>= κ) r rest := by
  have htake : (line ++ CRLF ++ buf).take line.length = line := by
    rw [List.append_assoc, List.take_left]
  have hdrop : (line ++ CRLF ++ buf).drop (line.length + 2) = buf := by
    rw [List.append_assoc, ← List.drop_drop, List.drop_left]
    rfl
  have hfeed : feed codec fresh (line ++ CRLF ++ buf) =
      readStatusLine line { fresh with buf } >>= parse codec := by
    have hstep := parse_status_some codec (p := { fresh with buf := line ++ CRLF ++ buf }) rfl
      (find_crlf hfree buf)
    rw [htake, hdrop] at hstep
    exact hstep
  rw [hfeed, bind_assoc, ends_bind_iff]
  unfold readStatusLine
  cases matchStatusLine line with
  | none => exact iff_of_false (fun ⟨q, hq, _⟩ => by cases hq) fun ⟨start, h, _⟩ => by cases h
  | some start =>
    exact ⟨fun ⟨q, hq, h⟩ => ⟨start, rfl, by cases hq; exact h⟩,
      fun ⟨start', h, hends⟩ => ⟨_, rfl, by cases h; exact hends⟩⟩

/-- A header block that is one leads to the body that its fields ask for. -/
theorem ends_fields_iff (hκ : EndsLate κ) {start : StatusLine} {buf : Bytes} :
    Ends (parse codec (started start buf) >>= κ) r rest ↔
      ∃ (fields : TrailerSection) (headers : Headers) (d : Delimiter) (behind : Bytes),
        buf = fields.text ++ behind ∧
        (split CRLF fields.block).foldlM parseHeaderLine .empty = .ok headers ∧
        delimiter (started start buf).statusCode headers = some d ∧
        Ends (parseBody codec (framedBy { started start behind with headers, state := .body } d) >>= κ)
          r rest := by
  cases hblock : headerBlock buf with
  | none =>
    rw [parse_headers_none codec (p := started start buf) rfl rfl hblock]
    refine iff_of_false (hκ _ (.inr ⟨rfl, hblock⟩) r rest) ?_
    rintro ⟨fields, headers, d, behind, rfl, -⟩
    rw [headerBlock_section] at hblock
    cases hblock
  | some br =>
    obtain ⟨block, behind⟩ := br
    have hbody : ∀ (headers : Headers) (d : Delimiter),
        parse codec (framedBy { started start behind with headers, state := .body } d) =
          parseBody codec (framedBy { started start behind with headers, state := .body } d) :=
      fun headers d => parse_body codec (by cases d <;> rfl)
    rw [parse_headers_some codec (p := started start buf) rfl rfl hblock, bind_assoc, ends_bind_iff]
    constructor
    · rintro ⟨q, hq, hends⟩
      obtain ⟨headers, d, hlines, hd, rfl⟩ := readBlock_eq_ok_iff.mp hq
      obtain ⟨fields, rfl, hfields⟩ := section_of_headerBlock hblock
      refine ⟨fields, headers, d, behind, hfields, hlines, hd, ?_⟩
      rw [← hbody]
      exact hends
    · rintro ⟨fields, headers, d, behind, rfl, hlines, hd, hends⟩
      rw [headerBlock_section, Option.some.injEq, Prod.mk.injEq] at hblock
      obtain ⟨rfl, rfl⟩ := hblock
      rw [← hbody] at hends
      exact ⟨_, readBlock_eq_ok_iff.mpr ⟨headers, d, hlines, hd, rfl⟩, hends⟩

/-- **The head.** What ends has a head, and then the body ends that the head asks for. -/
theorem ends_head_iff (hκ : EndsLate κ) {stream : Bytes} :
    Ends (feed codec fresh stream >>= κ) r rest ↔ ∃ (h : WireHead) (d : Delimiter) (buf : Bytes),
      stream = h.wire ++ buf ∧ delimiter h.status h.headers = some d ∧
        Ends (parseBody codec (framedBy (headed h buf) d) >>= κ) r rest := by
  constructor
  · intro hends
    cases hf : find CRLF stream with
    | none =>
      have hstep : feed codec fresh stream = .ok { fresh with buf := stream } :=
        parse_status_none codec (p := { fresh with buf := stream }) rfl rfl hf
      rw [hstep] at hends
      exact absurd hends (hκ _ (.inl ⟨rfl, hf⟩) r rest)
    | some idx =>
      obtain ⟨hfree, hstream⟩ := line_of_find hf
      rw [hstream] at hends ⊢
      obtain ⟨start, hline, hends⟩ := (ends_line_iff hfree).mp hends
      obtain ⟨fields, headers, d, behind, hbuf, hlines, hd, hends⟩ := (ends_fields_iff hκ).mp hends
      refine ⟨⟨_, hfree, start, hline, fields, headers, hlines⟩, d, behind, ?_, hd, hends⟩
      rw [WireHead.wire, List.append_assoc _ fields.text, ← hbuf]
  · rintro ⟨⟨line, lineFree, start, hline, fields, headers, hlines⟩, d, buf, rfl, hd, hends⟩
    rw [WireHead.wire, List.append_assoc (line ++ CRLF)]
    refine (ends_line_iff lineFree).mpr ⟨start, hline, ?_⟩
    exact (ends_fields_iff hκ).mpr ⟨fields, headers, d, buf, rfl, hlines, hd, hends⟩

theorem endsLate_ok : EndsLate .ok := by
  rintro p (⟨hs, -⟩ | ⟨hs, -⟩) r rest <;> exact not_ends_ok (by simp [hs])

theorem ends_feed_iff {stream : Bytes} : Ends (feed codec fresh stream) r rest ↔
    ∃ m : WireResponse, m.Sound codec ∧ stream = m.wire ++ rest ∧ m.response codec = r := by
  have hbody : ∀ (h : WireHead) (d : Delimiter) (buf : Bytes),
      Ends (parseBody codec (framedBy (headed h buf) d)) r rest ↔ ∃ b : BodyText, b.delimiter = d ∧
        buf = b.wire ++ rest ∧ Finishes codec (headed h buf) b.data r :=
    fun h d buf => ends_parseBody_iff ⟨rfl, rfl, rfl, rfl⟩ rfl rfl rfl d
  have hhead : Ends (feed codec fresh stream >>= .ok) r rest ↔ _ := ends_head_iff endsLate_ok
  rw [show feed codec fresh stream >>= .ok = feed codec fresh stream from bind_pure _] at hhead
  rw [hhead]
  constructor
  · rintro ⟨h, d, buf, rfl, hd, hends⟩
    rw [show parseBody codec (framedBy (headed h buf) d) >>= .ok = _ from bind_pure _] at hends
    obtain ⟨b, rfl, rfl, hwhole, rfl⟩ := (hbody h d buf).mp hends
    exact ⟨⟨h, b⟩, ⟨hd, hwhole⟩, (List.append_assoc _ _ _).symm, rfl⟩
  · rintro ⟨⟨h, b⟩, ⟨hd, hwhole⟩, rfl, rfl⟩
    refine ⟨h, b.delimiter, b.wire ++ rest, List.append_assoc _ _ _, hd, ?_⟩
    rw [show parseBody codec (framedBy (headed h _) _) >>= .ok = _ from bind_pure _]
    exact (hbody h b.delimiter _).mpr ⟨b, rfl, rfl, hwhole, rfl⟩

/-- Whether a response ends does not depend on the cuts. -/
theorem ends_feedAll_iff (codec : Codec) (pieces : List Bytes) (r : Response) (rest : Bytes) :
    Ends (feedAll codec fresh pieces) r rest ↔ Ends (feed codec fresh pieces.flatten) r rest := by
  have hsame := outcome_feedAll codec pieces
  have hok : ∀ p, feedAll codec fresh pieces = .ok p ↔ feed codec fresh pieces.flatten = .ok p := by
    intro p
    rw [← outcome_eq_ok_iff, hsame, outcome_eq_ok_iff]
  exact exists_congr fun p => and_congr_left fun _ => hok p

/-- **Acceptance.** What has been fed completes the response `r` and leaves `rest` in the buffer exactly
if it is the text of a response that means `r`, with `rest` behind it. -/
theorem reads_iff (codec : Codec) (pieces : List Bytes) (r : Response) (rest : Bytes) :
    Ends (feedAll codec fresh pieces) r rest ↔
      ∃ m : WireResponse, m.Sound codec ∧ pieces.flatten = m.wire ++ rest ∧ m.response codec = r :=
  (ends_feedAll_iff codec pieces r rest).trans ends_feed_iff

theorem Ends.unique {x : Parse} {r' : Response} {rest' : Bytes} (h : Ends x r rest)
    (h' : Ends x r' rest') : r = r' ∧ rest = rest' := by
  obtain ⟨p, hp, -, hr, hbuf⟩ := h
  obtain ⟨q, hq, -, hr', hbuf'⟩ := h'
  rw [hp, Except.ok.injEq] at hq
  subst hq
  exact ⟨Option.some.inj (hr.symm.trans hr'), hbuf.symm.trans hbuf'⟩

/-- The parser is a decoder of the language, so it is self-delimiting. -/
theorem selfDelimiting_language (codec : Codec) : SelfDelimiting (WireResponse.Language codec) := by
  refine @selfDelimiting_of_decoder _ _ _ (fun s r rest => Ends (feed codec fresh s) r rest)
    Ends.unique ?_ ?_
  · rintro w r ⟨m, -, rfl, -⟩ hnil
    rw [WireResponse.wire, WireHead.wire, List.append_eq_nil_iff, List.append_eq_nil_iff,
      List.append_eq_nil_iff] at hnil
    cases hnil.1.1.2
  · rintro w r ⟨m, hm, rfl, hr⟩ rest
    exact ends_feed_iff.mpr ⟨m, hm, rfl, hr⟩

/-- **Unique decoding.** Responses that are sent one after the other can be told apart in one way only:
of two sequences with the same bytes, even with other bytes behind them, one is the other as far as it
goes, and without these they are the same. -/
theorem responses_unique (codec : Codec) (ms ms' : List WireResponse) (rest rest' : Bytes)
    (h : ∀ m ∈ ms, m.Sound codec) (h' : ∀ m ∈ ms', m.Sound codec)
    (heq : ms.flatMap WireResponse.wire ++ rest = ms'.flatMap WireResponse.wire ++ rest') :
    (ms.length ≤ ms'.length → ms.map (fun m => (m.wire, m.response codec)) <+:
        ms'.map fun m => (m.wire, m.response codec)) ∧
      (rest = [] → rest' = [] → ms.map (fun m => (m.wire, m.response codec)) =
        ms'.map fun m => (m.wire, m.response codec)) := by
  have hL := selfDelimiting_language codec
  let read : WireResponse → Bytes × Response := fun m => (m.wire, m.response codec)
  have htext : ∀ ms : List WireResponse, textOf (ms.map read) = ms.flatMap WireResponse.wire :=
    fun ms => List.flatMap_map ..
  have hmem : ∀ ms : List WireResponse, (∀ m ∈ ms, m.Sound codec) →
      ∀ x ∈ ms.map read, WireResponse.Language codec x.1 x.2 := by
    intro ms hms x hx
    obtain ⟨m, hm, rfl⟩ := List.mem_map.mp hx
    exact ⟨m, hms m hm, rfl, rfl⟩
  rw [← htext, ← htext] at heq
  constructor
  · intro hlen
    refine hL.stream_prefix (hmem ms h) (hmem ms' h') heq ?_
    rwa [List.length_map, List.length_map]
  · rintro rfl rfl
    rw [List.append_nil, List.append_nil] at heq
    exact hL.stream_unique (hmem ms h) (hmem ms' h') heq

/-- Two bytes of text. -/
def greeting : WireResponse where
  line := ascii "HTTP/1.1 200 OK"
  lineFree := rfl
  start := ⟨ascii "HTTP/1.1", ascii "200", some (ascii "OK")⟩
  start_eq := rfl
  fields := ⟨ascii "Content-Length: 2" ++ CRLFCRLF, .inr (by decide)⟩
  headers := Headers.empty.add (str "Content-Length") (str "2")
  headers_eq := rfl
  body := .length 2 (ascii "hi") rfl

theorem greeting_sound : greeting.Sound noCodec where
  framed := rfl
  whole := fun h => absurd h.2.1 (by decide)

theorem responses_unique_greetings :
    [greeting.wire] <+: [greeting.wire, greeting.wire] := by
  have h := (responses_unique noCodec [greeting] [greeting, greeting] greeting.wire []
    (by simpa using greeting_sound) (by simpa using greeting_sound) (by simp)).1 (by decide)
  exact h.map Prod.fst

/-- The bytes begin with a response. -/
def Begins (codec : Codec) (stream : Bytes) : Prop :=
  ∃ m : WireResponse, m.Sound codec ∧ m.wire <+: stream

theorem begins_iff {stream : Bytes} : Begins codec stream ↔
    ∃ r rest, Ends (feed codec fresh stream) r rest := by
  constructor
  · rintro ⟨m, hm, rest, rfl⟩
    exact ⟨m.response codec, rest, ends_feed_iff.mpr ⟨m, hm, rfl, rfl⟩⟩
  · rintro ⟨r, rest, h⟩
    obtain ⟨m, hm, rfl, -⟩ := ends_feed_iff.mp h
    exact ⟨m, hm, List.prefix_append _ _⟩

theorem feedAll_append (codec : Codec) (pieces more : List Bytes) : ∀ p : ResponseParser,
    feedAll codec p (pieces ++ more) = feedAll codec p pieces >>= fun q => feedAll codec q more := by
  induction pieces with
  | nil => exact fun p => rfl
  | cons d ds ih =>
    intro p
    show feed codec p d >>= _ = (feed codec p d >>= _) >>= _
    rw [bind_assoc]
    exact congrArg (feed codec p d >>= ·) (funext ih)

/-- The parser is complete exactly if what it was fed begins with a response. -/
theorem isComplete_iff_begins {pieces : List Bytes} {p : ResponseParser}
    (hp : feedAll codec fresh pieces = .ok p) : p.isComplete ↔ Begins codec pieces.flatten := by
  rw [begins_iff]
  simp only [← ends_feedAll_iff codec pieces, hp]
  constructor
  · intro hc
    obtain ⟨r, hr⟩ := Option.ne_none_iff_exists'.mp
      (answers_feedAll codec pieces (answers_waiting (by decide)) p hp (of_decide_eq_true hc))
    exact ⟨r, p.buf, p, rfl, hc, hr, rfl⟩
  · rintro ⟨r, rest, q, hq, hc, -⟩
    cases hq
    exact hc

/-- What might follow an error does not matter any more. -/
theorem not_begins_of_error {pieces : List Bytes} {e : ParseExn × ResponseParser}
    (he : feedAll codec fresh pieces = .error e) (more : Bytes) :
    ¬ Begins codec (pieces.flatten ++ more) := by
  intro hmore
  obtain ⟨r, rest, h⟩ := begins_iff.mp hmore
  have hflat : pieces.flatten ++ more = (pieces ++ [more]).flatten := by simp
  rw [hflat, ← ends_feedAll_iff, feedAll_append, he] at h
  exact not_ends_error e h

/-- **The verdict holds.** The parser is complete exactly if what it was fed begins with a response,
and once it has raised nothing that might follow would have made it one. -/
theorem verdict_holds (codec : Codec) (pieces : List Bytes) :
    (∀ p, feedAll codec fresh pieces = .ok p → (p.isComplete ↔ Begins codec pieces.flatten)) ∧
      ∀ e, feedAll codec fresh pieces = .error e → ∀ more, ¬ Begins codec (pieces.flatten ++ more) :=
  ⟨fun _ => isComplete_iff_begins, fun _ => not_begins_of_error⟩

/-- A message without its last byte, and the whole of it. -/
theorem verdict_holds_greeting :
    ¬ Begins noCodec greeting.wire.dropLast ∧ Begins noCodec greeting.wire := by
  have hverdict (data : Bytes) (b : Bool)
      (h : (feedAll noCodec fresh [data]).toOption.map isComplete = some b) : b = true ↔ Begins noCodec data := by
    cases hp : feedAll noCodec fresh [data] with
    | error e => rw [hp] at h; cases h
    | ok p =>
      rw [hp] at h
      have hbegins := (verdict_holds noCodec [data]).1 p hp
      rwa [Option.some.inj h, List.flatten_singleton] at hbegins
  constructor
  · exact mt (hverdict _ false (by decide +kernel)).mpr Bool.false_ne_true
  · exact (hverdict _ true (by decide +kernel)).mp rfl

end ResponseParser

end Fizzpy
