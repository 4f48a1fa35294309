import Fizzpy.Http.Lengths

/-!
# Where the bytes of a body go

Whatever is fed behind the header block, well-formed or not, is in order what has been consumed and
then the buffer. Where the body is not chunked, it is what has been consumed. A chunked body has been
read as whole chunks and what stands behind the last of them (`Reading`), and is their data. Each
method of the body reads on (`Advances`), so this holds at every point of every run
(`BodyPoint.conserved`).
-/

namespace Fizzpy

open Foundation

namespace ResponseParser

/-! ## What has been read of a chunked body -/

/-- A size line as it was read, with the size that `int` made of it. -/
structure SizeLine where
  line : Bytes
  size : ℤ
  crlfFree : CrlfFree line
  size_eq : intOfBytes 16 (sizeToken line) = some size

def SizeLine.wire (l : SizeLine) : Bytes := l.line ++ CRLF

/-- A chunk with its terminator. A negative size stands for no data. -/
structure WholeChunk where
  head : SizeLine
  data : Bytes
  nonzero : head.size ≠ 0
  length_eq : (data.length : ℤ) = max head.size 0

def WholeChunk.wire (c : WholeChunk) : Bytes := c.head.wire ++ c.data ++ CRLF

/-- A trailer section: a lone CRLF, or what ends with the first blank line. -/
structure TrailerSection where
  text : Bytes
  ends : text = CRLF ∨ ¬ CRLF <+: text ∧ find CRLFCRLF text = some (text.length - 4)

/-- What has been read behind the last whole chunk. -/
inductive Behind
  | nothing
  | chunk (head : SizeLine) (data : Bytes) (nonzero : head.size ≠ 0)
      (fits : (data.length : ℤ) ≤ max head.size 0)
  | last (head : SizeLine) (zero : head.size = 0) (trailers : List TrailerSection)

namespace Behind

def wire : Behind → Bytes
  | nothing => []
  | chunk head data _ _ => head.wire ++ data
  | last head _ trailers => head.wire ++ trailers.flatMap TrailerSection.text

def data : Behind → Bytes
  | nothing => []
  | chunk _ data _ _ => data
  | last _ _ _ => []

/-- The parser stands there. There is one trailer section at most, except that a call which raises
the `EOFError` of a gzip stream cut short leaves the parser in the trailers. -/
def At (codec : Codec) (p : ResponseParser) : Behind → Prop
  | nothing => p.inTrailers = false ∧ p.awaitingChunkSize = true
  | chunk head data _ _ => p.inTrailers = false ∧ p.awaitingChunkSize = false ∧
      p.chunkRemaining = head.size - data.length
  | last _ _ trailers => p.inTrailers = true ∧
      (trailers.length ≤ 1 ∨ EndsEarly codec p.headers p.body) ∧
      (trailers = [] ∨ p.state = .done ∨ EndsEarly codec p.headers p.body)

end Behind

structure Reading where
  chunks : List WholeChunk
  behind : Behind

def Reading.wire (r : Reading) : Bytes := r.chunks.flatMap WholeChunk.wire ++ r.behind.wire

def Reading.data (r : Reading) : Bytes := r.chunks.flatMap WholeChunk.data ++ r.behind.data

/-- The bytes consumed of the body have become `_body` as the framing has it. -/
def Framed (codec : Codec) (p : ResponseParser) (consumed : Bytes) : Prop :=
  if p.chunked = true then
    ∃ r : Reading, r.wire = consumed ∧ r.data = p.body ∧ r.behind.At codec p
  else p.body = consumed

theorem Framed.of_same {codec : Codec} {p q : ResponseParser} {consumed : Bytes}
    (h : Framed codec p consumed) (hc : q.chunked = p.chunked) (hb : q.body = p.body)
    (hat : ∀ behind : Behind, behind.At codec p → behind.At codec q) : Framed codec q consumed := by
  unfold Framed at h ⊢
  rw [hc, hb]
  split_ifs at h ⊢
  · obtain ⟨r, hwire, hdata, hr⟩ := h
    exact ⟨r, hwire, hdata, hat r.behind hr⟩
  · exact h

/-- Of the bytes behind the head, some have been consumed and the rest is the buffer. -/
def Conserved (codec : Codec) (stream : Bytes) (p : ResponseParser) : Prop :=
  ∃ consumed, stream = consumed ++ p.buf ∧ Framed codec p consumed

/-- `q` has read on from `p`. -/
structure Advances (codec : Codec) (p q : ResponseParser) : Prop where
  chunked : q.chunked = p.chunked
  state : q.state = p.state ∨ q.state = .done
  body : p.body <+: q.body
  frames : ∀ consumed, Framed codec p consumed →
    ∃ more, p.buf = more ++ q.buf ∧ Framed codec q (consumed ++ more)

variable {codec : Codec}

theorem Advances.refl (p : ResponseParser) : Advances codec p p :=
  ⟨rfl, .inl rfl, List.prefix_rfl, fun consumed h => ⟨[], rfl, by rwa [List.append_nil]⟩⟩

theorem Advances.trans {p q r : ResponseParser} (h : Advances codec p q) (h' : Advances codec q r) :
    Advances codec p r where
  chunked := h'.chunked.trans h.chunked
  state := h'.state.elim (fun hr => h.state.imp hr.trans hr.trans) .inr
  body := h.body.trans h'.body
  frames := by
    intro consumed hp
    obtain ⟨more, hbuf, hq⟩ := h.frames consumed hp
    obtain ⟨more', hbuf', hr⟩ := h'.frames _ hq
    rw [List.append_assoc] at hr
    exact ⟨more ++ more', by rw [hbuf, hbuf', List.append_assoc], hr⟩

theorem Conserved.advances {stream : Bytes} {p q : ResponseParser} (h : Conserved codec stream p)
    (hq : Advances codec p q) : Conserved codec stream q := by
  obtain ⟨consumed, hstream, hp⟩ := h
  obtain ⟨more, hbuf, hq⟩ := hq.frames consumed hp
  exact ⟨consumed ++ more, by rw [hstream, hbuf, List.append_assoc], hq⟩

/-- Reading on in a chunked body. -/
theorem Advances.of_reading {p q : ResponseParser} (hc : p.chunked = true) (hq : q.chunked = true)
    (hs : q.state = p.state ∨ q.state = .done) (hb : p.body <+: q.body)
    (h : ∀ r : Reading, r.data = p.body → r.behind.At codec p → ∃ more, p.buf = more ++ q.buf ∧
      ∃ r' : Reading, r'.wire = r.wire ++ more ∧ r'.data = q.body ∧ r'.behind.At codec q) :
    Advances codec p q := by
  refine ⟨hq.trans hc.symm, hs, hb, fun consumed hp => ?_⟩
  unfold Framed at hp ⊢
  rw [if_pos hc] at hp
  obtain ⟨r, rfl, hdata, hat⟩ := hp
  obtain ⟨more, hbuf, hr⟩ := h r hdata hat
  exact ⟨more, hbuf, by rwa [if_pos hq]⟩

/-! ## A round -/

variable {p : ResponseParser}

theorem Behind.At.in_chunk {behind : Behind} (h : behind.At codec p) (ht : p.inTrailers = false)
    (ha : p.awaitingChunkSize = false) : ∃ head data nonzero fits,
      behind = .chunk head data nonzero fits ∧ p.chunkRemaining = head.size - data.length := by
  cases behind with
  | nothing => exact absurd (ha.symm.trans h.2) Bool.false_ne_true
  | chunk head data nonzero fits => exact ⟨head, data, nonzero, fits, rfl, h.2.2⟩
  | last head zero trailers => exact absurd (ht.symm.trans h.1) Bool.false_ne_true

theorem Behind.At.between {behind : Behind} (h : behind.At codec p) (ht : p.inTrailers = false)
    (ha : p.awaitingChunkSize = true) : behind = .nothing := by
  cases behind with
  | nothing => rfl
  | chunk head data nonzero fits => exact absurd (h.2.1.symm.trans ha) Bool.false_ne_true
  | last head zero trailers => exact absurd (ht.symm.trans h.1) Bool.false_ne_true

theorem advances_takeChunk (hc : p.chunked = true) (ht : p.inTrailers = false)
    (ha : p.awaitingChunkSize = false) : Advances codec p (takeChunk p) := by
  refine .of_reading hc hc (.inl rfl) (List.prefix_append _ _) ?_
  rintro ⟨chunks, behind⟩ hdata hat
  obtain ⟨head, data, nonzero, fits, rfl, hrem⟩ := hat.in_chunk ht ha
  let more := p.buf.take p.chunkRemaining.toNat
  have hlen : more.length = min p.chunkRemaining.toNat p.buf.length := List.length_take
  have hfits : ((data ++ more).length : ℤ) ≤ max head.size 0 := by
    rw [List.length_append, hlen]
    omega
  refine ⟨more, (List.take_append_drop _ _).symm,
    ⟨chunks, .chunk head (data ++ more) nonzero hfits⟩, ?_, ?_, ht, ha, ?_⟩
  · simp only [Reading.wire, Behind.wire, List.append_assoc]
  · show chunks.flatMap WholeChunk.data ++ (data ++ more) = p.body ++ more
    rw [← hdata, Reading.data, Behind.data, List.append_assoc]
  · show p.chunkRemaining - (min p.chunkRemaining.toNat p.buf.length : ℕ) = _
    rw [List.length_append, hlen, hrem]
    push_cast
    omega

/-- Behind its data, the CRLF makes the chunk whole. -/
theorem advances_terminator (hc : p.chunked = true) (ht : p.inTrailers = false)
    (ha : p.awaitingChunkSize = false) (hrem : ¬ 0 < p.chunkRemaining) (hcrlf : CRLF <+: p.buf) :
    Advances codec p { p with buf := p.buf.drop 2, awaitingChunkSize := true } := by
  refine .of_reading hc hc (.inl rfl) List.prefix_rfl ?_
  rintro ⟨chunks, behind⟩ hdata hat
  obtain ⟨head, data, nonzero, fits, rfl, hleft⟩ := hat.in_chunk ht ha
  obtain ⟨rest, hrest⟩ := hcrlf
  have hlen : (data.length : ℤ) = max head.size 0 := by omega
  refine ⟨CRLF, ?_, ⟨chunks ++ [⟨head, data, nonzero, hlen⟩], .nothing⟩, ?_, ?_, ht, rfl⟩
  · rw [← hrest]
    rfl
  · simp only [Reading.wire, Behind.wire, WholeChunk.wire, List.flatMap_append,
      List.flatMap_singleton, List.append_assoc, List.append_nil]
  · show _ = p.body
    rw [← hdata]
    simp only [Reading.data, Behind.data, List.flatMap_append, List.flatMap_singleton,
      List.append_nil]

section SizeLines

variable {line rest : Bytes} {size : ℤ}

theorem advances_sizeLine (hc : p.chunked = true) (ht : p.inTrailers = false)
    (ha : p.awaitingChunkSize = true) (hbuf : p.buf = line ++ CRLF ++ rest) (hfree : CrlfFree line)
    (hn : intOfBytes 16 (sizeToken line) = some size) (hsize : size ≠ 0) :
    Advances codec p { p with buf := rest, chunkRemaining := size, awaitingChunkSize := false } := by
  refine .of_reading hc hc (.inl rfl) List.prefix_rfl ?_
  rintro ⟨chunks, behind⟩ hdata hat
  obtain rfl := hat.between ht ha
  refine ⟨line ++ CRLF, hbuf, ⟨chunks, .chunk ⟨line, size, hfree, hn⟩ [] hsize (by simp)⟩, ?_, ?_,
    ht, rfl, ?_⟩
  · simp only [Reading.wire, Behind.wire, SizeLine.wire, List.append_nil]
  · exact hdata
  · simp

theorem advances_lastLine (hc : p.chunked = true) (ht : p.inTrailers = false)
    (ha : p.awaitingChunkSize = true) (hbuf : p.buf = line ++ CRLF ++ rest) (hfree : CrlfFree line)
    (hn : intOfBytes 16 (sizeToken line) = some size) (hsize : size = 0) :
    Advances codec p { p with buf := rest, inTrailers := true } := by
  refine .of_reading hc hc (.inl rfl) List.prefix_rfl ?_
  rintro ⟨chunks, behind⟩ hdata hat
  obtain rfl := hat.between ht ha
  refine ⟨line ++ CRLF, hbuf, ⟨chunks, .last ⟨line, size, hfree, hn⟩ hsize []⟩, ?_, ?_, rfl, ?_, ?_⟩
  · simp only [Reading.wire, Behind.wire, SizeLine.wire, List.flatMap_nil, List.append_nil]
  · exact hdata
  · exact .inl (Nat.zero_le 1)
  · exact .inl rfl

end SizeLines

/-- A round goes on, or ends, with what was there read on. -/
def RoundAdvances (codec : Codec) (p : ResponseParser) : Iter ResponseParser Parse → Prop
  | .again q => Advances codec p q
  | .leave x => Advances codec p (left x)

theorem RoundAdvances.after {q : ResponseParser} (h : Advances codec p q)
    {i : Iter ResponseParser Parse} (hi : RoundAdvances codec q i) : RoundAdvances codec p i := by
  cases i with
  | again r => exact Advances.trans h hi
  | leave x => exact Advances.trans h hi

theorem roundAdvances_chunkData (hc : p.chunked = true) (ht : p.inTrailers = false)
    (ha : p.awaitingChunkSize = false) : RoundAdvances codec p (chunkData p) := by
  have htake : Advances codec p (takeChunk p) := advances_takeChunk hc ht ha
  unfold chunkData
  dsimp only
  split_ifs with hmore _ hshort _ hcrlf
  · exact htake
  · exact htake
  · exact htake
  · exact htake
  · exact htake.trans (advances_terminator (p := takeChunk p) hc ht ha hmore hcrlf)
  · exact htake

theorem roundAdvances_chunkSize (hc : p.chunked = true) (ht : p.inTrailers = false)
    (ha : p.awaitingChunkSize = true) : RoundAdvances codec p (chunkSize p) := by
  cases hf : find CRLF p.buf with
  | none =>
    unfold chunkSize
    rw [hf]
    dsimp only
    split_ifs <;> exact Advances.refl p
  | some idx =>
    obtain ⟨hfree, hbuf⟩ := line_of_find hf
    rw [chunkSize_line hbuf hfree]
    cases hn : intOfBytes 16 (sizeToken (p.buf.take idx)) with
    | none => exact Advances.refl p
    | some size =>
      dsimp only
      split_ifs with hsize
      · exact advances_lastLine hc ht ha hbuf hfree hn hsize
      · refine .after (advances_sizeLine hc ht ha hbuf hfree hn hsize) ?_
        exact roundAdvances_chunkData hc ht rfl

/-! ## The trailers -/

theorem left_finalize (codec : Codec) (p : ResponseParser) : ∃ response state,
    left (finalize codec p) = { p with response, state } ∧
      (state = .done ∨ state = p.state ∧ EndsEarly codec p.headers p.body) := by
  obtain ⟨hcut, hfin⟩ | ⟨-, hfin⟩ := finalize_eq codec p
  · exact ⟨p.response, p.state, by rw [hfin]; rfl, .inr ⟨rfl, hcut⟩⟩
  · exact ⟨_, .done, by rw [hfin]; rfl, .inl rfl⟩

theorem advances_finalize (codec : Codec) (p : ResponseParser) :
    Advances codec p (left (finalize codec p)) := by
  obtain ⟨response, state, hleft, hstate⟩ := left_finalize codec p
  rw [hleft]
  refine ⟨rfl, hstate.symm.imp And.left id, List.prefix_rfl, fun consumed h => ⟨[], rfl, ?_⟩⟩
  rw [List.append_nil]
  refine h.of_same rfl rfl fun behind hat => ?_
  cases behind with
  | nothing => exact hat
  | chunk head data nonzero fits => exact hat
  | last head zero trailers => exact ⟨hat.1, hat.2.1, .inr (hstate.imp id And.right)⟩

/-- A trailer section ends the response. -/
theorem advances_section (hs : p.state ≠ .done) (hc : p.chunked = true) (ht : p.inTrailers = true)
    (trailer : TrailerSection) {rest : Bytes} (hbuf : p.buf = trailer.text ++ rest) :
    Advances codec p (left (finalize codec { p with buf := rest })) := by
  obtain ⟨response, state, hleft, hstate⟩ := left_finalize codec { p with buf := rest }
  rw [hleft]
  refine .of_reading hc hc (hstate.symm.imp And.left id) List.prefix_rfl ?_
  rintro ⟨chunks, behind⟩ hdata hat
  cases behind with
  | nothing => exact absurd (hat.1.symm.trans ht) Bool.false_ne_true
  | chunk head data nonzero fits => exact absurd (hat.1.symm.trans ht) Bool.false_ne_true
  | last head zero trailers =>
    obtain ⟨-, -, honce⟩ := hat
    refine ⟨trailer.text, hbuf, ⟨chunks, .last head zero (trailers ++ [trailer])⟩, ?_, hdata, ht,
      ?_, .inr (hstate.imp id And.right)⟩
    · simp only [Reading.wire, Behind.wire, List.flatMap_append, List.flatMap_singleton,
        List.append_assoc]
    · obtain rfl | hdone | hcut := honce
      · exact .inl le_rfl
      · exact absurd hdone hs
      · exact .inr hcut

theorem advances_parseTrailers (hs : p.state ≠ .done) (hc : p.chunked = true)
    (ht : p.inTrailers = true) : Advances codec p (left (parseTrailers codec p)) := by
  by_cases hb : CRLF <+: p.buf
  · rw [parseTrailers_crlf codec hb]
    obtain ⟨rest, hrest⟩ := hb
    refine advances_section hs hc ht ⟨CRLF, .inl rfl⟩ ?_
    rw [← hrest]
    rfl
  · cases hf : find CRLFCRLF p.buf with
    | none =>
      rw [parseTrailers_none codec hb hf]
      split_ifs
      · exact advances_finalize codec p
      · exact .refl p
    | some e =>
      rw [parseTrailers_some codec hb hf]
      have hlen := find_add_length_le (by decide) hf
      rw [show CRLFCRLF.length = 4 from rfl] at hlen
      have hsame : (p.buf.take (e + 4)).length - 4 = e := by
        rw [List.length_take]
        omega
      have hthrough : find CRLFCRLF (p.buf.take (e + 4)) = some e := find_take_through (by decide) hf
      refine advances_section hs hc ht ⟨p.buf.take (e + 4), .inr ⟨fun h => ?_, ?_⟩⟩
        (List.take_append_drop _ _).symm
      · exact hb (h.trans (List.take_prefix _ _))
      · rw [hsame, hthrough]

/-! ## The body -/

theorem ne_done_of_body (hs : p.state = .body) : p.state ≠ .done :=
  fun hd => absurd (hs.symm.trans hd) (by decide)

theorem roundAdvances_chunkRound (hs : p.state ≠ .done) (hc : p.chunked = true) :
    RoundAdvances codec p (chunkRound codec p) := by
  cases ht : p.inTrailers with
  | true =>
    rw [chunkRound_of_trailers ht]
    exact advances_parseTrailers hs hc ht
  | false =>
    cases ha : p.awaitingChunkSize with
    | true =>
      rw [chunkRound_of_size ht ha]
      exact roundAdvances_chunkSize hc ht ha
    | false =>
      rw [chunkRound_of_data ht ha]
      exact roundAdvances_chunkData hc ht ha

theorem advances_round {q : ResponseParser} (hs : p.state ≠ .done) (hc : p.chunked = true)
    (h : chunkRound codec p = .again q) : Advances codec p q := by
  have hround := @roundAdvances_chunkRound codec p hs hc
  rwa [h] at hround

/-- A round that goes on does not end the response. -/
theorem state_ne_round {q : ResponseParser} (hs : p.state ≠ .done)
    (h : chunkRound codec p = .again q) : q.state ≠ .done := by
  cases ht : p.inTrailers with
  | true =>
    rw [chunkRound_of_trailers ht] at h
    cases h
  | false =>
    cases ha : p.awaitingChunkSize with
    | true =>
      have hround := roundApart_chunkSize hs
      rw [← @chunkRound_of_size codec p ht ha, h] at hround
      exact hround
    | false =>
      have hround := roundApart_chunkData hs
      rw [← @chunkRound_of_data codec p ht ha, h] at hround
      exact hround

theorem advances_parseChunked (hs : p.state ≠ .done) (hc : p.chunked = true) :
    Advances codec p (left (parseChunked codec p)) := by
  induction p using chunkRound_induction codec with
  | h p ih =>
    cases hr : chunkRound codec p with
    | again q =>
      have hq := advances_round hs hc hr
      rw [parseChunked_again hr]
      exact hq.trans (ih q hr (state_ne_round hs hr) (hq.chunked.trans hc))
    | leave x =>
      have hround := @roundAdvances_chunkRound codec p hs hc
      rw [hr] at hround
      rw [parseChunked_leave hr]
      exact hround

/-- Without chunks, what leaves the buffer becomes the body. -/
theorem advances_plain {q : ResponseParser} (hc : p.chunked = false) (hq : q.chunked = false)
    (hs : q.state = p.state) {more : Bytes} (hbuf : p.buf = more ++ q.buf)
    (hbody : q.body = p.body ++ more) : Advances codec p q := by
  refine ⟨hq.trans hc.symm, .inl hs, ⟨more, hbody.symm⟩, fun consumed h => ⟨more, hbuf, ?_⟩⟩
  unfold Framed at h ⊢
  rw [if_neg (by simp [hc])] at h
  rw [if_neg (by simp [hq]), hbody, h]

theorem advances_fillBody (n : ℤ) (hc : p.chunked = false) : Advances codec p (fillBody n p) :=
  advances_plain hc hc rfl (List.take_append_drop _ _).symm rfl

theorem advances_parseBody (hs : p.state ≠ .done) : Advances codec p (left (parseBody codec p)) := by
  cases hc : p.chunked with
  | true =>
    rw [parseBody_chunked codec hc]
    exact advances_parseChunked hs hc
  | false =>
    cases hn : p.contentLength with
    | some n =>
      have hfill : Advances codec p (fillBody n p) := advances_fillBody n hc
      rw [parseBody_length codec hc hn]
      unfold parseFixedLength
      dsimp only
      split_ifs
      · exact hfill.trans (advances_finalize codec _)
      · exact hfill
    | none =>
      have hall : Advances codec p { p with body := p.body ++ p.buf, buf := [] } :=
        advances_plain hc hc rfl (List.append_nil _).symm rfl
      rw [parseBody_close codec hc hn]
      unfold parseUntilClose
      dsimp only
      split_ifs
      · exact hall.trans (advances_finalize codec _)
      · exact hall

/-! ## The head -/

/-- `_parse_headers` without the body. -/
def readHeaders (p : ResponseParser) : Parse :=
  match headerBlock p.buf with
  | none => if p.eof ∧ p.buf ≠ [] then raise (str "connection closed inside headers") p else .ok p
  | some (block, rest) => readBlock block { p with buf := rest }

/-- `_parse` without the body. -/
def readHead (p : ResponseParser) : Parse :=
  inState .status parseStatusLine p >>= inState .headers readHeaders

/-- The head is not yet read. -/
def InHead (p : ResponseParser) : Prop := p.state = .status ∨ p.state = .headers

theorem InHead.ne_body (h : InHead p) : p.state ≠ .body := by
  rcases h with h | h
  · rw [h]; decide
  · rw [h]; decide

/-- A method of the head, begun in `p`: it only takes from the buffer, and leaves the head only by
coming to the body. -/
structure ReadsHead (p : ResponseParser) (x : Parse) : Prop where
  buf : (left x).buf <:+ p.buf
  body : (left x).body = p.body
  trailers : (left x).inTrailers = p.inTrailers
  awaiting : (left x).awaitingChunkSize = p.awaitingChunkSize
  state : InHead (left x) ∨ ∃ q, x = .ok q ∧ q.state = .body

theorem ReadsHead.bind {x : Parse} {f : ResponseParser → Parse} (hx : ReadsHead p x)
    (hbody : ∀ q : ResponseParser, q.state = .body → f q = .ok q)
    (hf : ∀ q : ResponseParser, InHead q → ReadsHead q (f q)) : ReadsHead p (x >>= f) := by
  cases x with
  | error e => exact hx
  | ok q =>
    rw [ok_bind]
    obtain hq | ⟨q', hq', hq⟩ := hx.state
    · have h := hf q hq
      exact ⟨h.buf.trans hx.buf, h.body.trans hx.body, h.trailers.trans hx.trailers,
        h.awaiting.trans hx.awaiting, h.state⟩
    · rw [Except.ok.injEq] at hq'
      subst hq'
      rw [hbody q hq]
      exact hx

theorem readsHead_raise (msg : Str) (h : InHead p) : ReadsHead p (raise msg p) :=
  ⟨List.suffix_rfl, rfl, rfl, rfl, .inl h⟩

theorem readsHead_ok (h : InHead p) : ReadsHead p (.ok p) := ⟨List.suffix_rfl, rfl, rfl, rfl, .inl h⟩

theorem readsHead_parseStatusLine (h : InHead p) : ReadsHead p (parseStatusLine p) := by
  unfold parseStatusLine
  cases find CRLF p.buf with
  | none =>
    dsimp only
    split_ifs
    · exact readsHead_raise _ h
    · exact readsHead_ok h
  | some idx =>
    dsimp only
    unfold readStatusLine
    split
    · exact ⟨List.drop_suffix _ _, rfl, rfl, rfl, .inl h⟩
    · exact ⟨List.drop_suffix _ _, rfl, rfl, rfl, .inl (.inr rfl)⟩

/-- Whatever the lines are, only the headers change. -/
theorem left_parseHeaderLines (lines : List Bytes) : ∀ p : ResponseParser,
    ∃ headers, left (parseHeaderLines lines p) = { p with headers } := by
  induction lines with
  | nil => exact fun p => ⟨p.headers, rfl⟩
  | cons raw rest ih =>
    intro p
    unfold parseHeaderLines
    cases parseHeaderLine p.headers raw with
    | ok h => exact ih { p with headers := h }
    | error msg => exact ⟨p.headers, rfl⟩

theorem readsHead_readBlock (block : Bytes) (h : InHead p) : ReadsHead p (readBlock block p) := by
  obtain ⟨headers, hlines⟩ := left_parseHeaderLines (split CRLF block) p
  unfold readBlock
  cases hl : parseHeaderLines (split CRLF block) p with
  | error e =>
    rw [hl] at hlines
    have hleft : ∀ x : Parse, x = .error e → ReadsHead p x := by
      rintro x rfl
      rw [show e = (e.1, e.2) from rfl] at hlines ⊢
      have he : e.2 = { p with headers } := hlines
      exact ⟨by rw [he]; exact List.suffix_rfl, by rw [he]; rfl, by rw [he]; rfl, by rw [he]; rfl,
        .inl (by rw [he]; exact h)⟩
    exact hleft _ rfl
  | ok q =>
    rw [hl] at hlines
    obtain rfl : q = { p with headers } := hlines
    rw [ok_bind]
    cases hr : resolveFraming { p with headers } with
    | error e =>
      obtain ⟨e, r⟩ := e
      obtain rfl := resolveFraming_error hr
      exact ⟨List.suffix_rfl, rfl, rfl, rfl, .inl h⟩
    | ok r =>
      rw [ok_bind]
      obtain rfl | ⟨n, rfl⟩ | rfl := resolveFraming_ok hr <;>
        exact ⟨List.suffix_rfl, rfl, rfl, rfl, .inr ⟨_, rfl, rfl⟩⟩

/-- What is behind the block is the end of the buffer. -/
theorem headerBlock_suffix {buf block rest : Bytes} (h : headerBlock buf = some (block, rest)) :
    rest <:+ buf := by
  unfold headerBlock at h
  split_ifs at h
  · rw [Option.some.injEq, Prod.mk.injEq] at h
    exact h.2 ▸ List.drop_suffix _ _
  · obtain ⟨e, -, he⟩ := Option.map_eq_some_iff.mp h
    rw [Prod.mk.injEq] at he
    exact he.2 ▸ List.drop_suffix _ _

theorem readsHead_readHeaders (h : InHead p) : ReadsHead p (readHeaders p) := by
  unfold readHeaders
  cases hb : headerBlock p.buf with
  | none =>
    dsimp only
    split_ifs
    · exact readsHead_raise _ h
    · exact readsHead_ok h
  | some br =>
    have hread := readsHead_readBlock br.1 (p := { p with buf := br.2 }) h
    exact ⟨hread.buf.trans (headerBlock_suffix hb), hread.body, hread.trailers, hread.awaiting,
      hread.state⟩

theorem readsHead_inState {s : ParserState} {f : ResponseParser → Parse}
    (h : InHead p) (hf : ReadsHead p (f p)) : ReadsHead p (inState s f p) := by
  unfold inState
  split_ifs
  · exact hf
  · exact readsHead_ok h

theorem readsHead_readHead (h : InHead p) : ReadsHead p (readHead p) :=
  (readsHead_inState h (readsHead_parseStatusLine h)).bind
    (fun _ hq => inState_other (by rw [hq]; decide))
    fun _ hq => readsHead_inState hq (readsHead_readHeaders hq)

/-- The status line leads no further than to the headers. -/
theorem inHead_status (h : InHead p) : InHead (left (inState .status parseStatusLine p)) := by
  by_cases hs : p.state = .status
  · rw [inState_same hs]
    unfold parseStatusLine
    cases find CRLF p.buf with
    | none =>
      dsimp only
      by_cases hclosed : p.eof = true ∧ p.buf ≠ []
      · rw [if_pos hclosed]
        exact h
      · rw [if_neg hclosed]
        exact h
    | some idx =>
      dsimp only
      unfold readStatusLine
      split
      · exact h
      · exact .inr rfl
  · rw [inState_other hs]
    exact h

/-- The body is tried as soon as the head is read, and once more at the end of `_parse`. -/
theorem parse_readHead (codec : Codec) (h : InHead p) : parse codec p =
    readHead p >>= inState .body (parseBody codec) >>= inState .body (parseBody codec) := by
  have hheaders : ∀ q : ResponseParser, InHead q →
      inState .headers (parseHeaders codec) q >>= inState .body (parseBody codec) =
        inState .headers readHeaders q >>= inState .body (parseBody codec) >>=
          inState .body (parseBody codec) := by
    intro q hq
    by_cases hs : q.state = .headers
    · rw [inState_same hs, inState_same hs]
      congr 1
      unfold parseHeaders readHeaders
      cases headerBlock q.buf with
      | none =>
        dsimp only
        split_ifs
        · rfl
        · rw [ok_bind, inState_other (by rw [hs]; decide)]
      | some br =>
        dsimp only
        cases hr : readBlock br.1 { q with buf := br.2 } with
        | error e => rfl
        | ok r => rw [ok_bind, ok_bind, inState_same (readBlock_ok hr).1]
    · rw [inState_other hs, inState_other hs, ok_bind, inState_other hq.ne_body, ok_bind,
        inState_other hq.ne_body]
  have hstatus := inHead_status h
  unfold parse readHead
  cases hx : inState .status parseStatusLine p with
  | error e => rfl
  | ok q =>
    rw [hx] at hstatus
    exact hheaders q hstatus

/-! ## Runs -/

/-- The bytes of a call. -/
def Call.bytes : Call → Bytes
  | .feed data => data
  | .feedEof => []

/-- The parser a call starts `_parse` in. -/
def given : Call → ResponseParser → ResponseParser
  | .feed data, p => { p with buf := p.buf ++ data }
  | .feedEof, p => { p with eof := true }

theorem call_eq (codec : Codec) (c : Call) (p : ResponseParser) :
    call codec c p = parse codec (given c p) := by
  cases c <;> rfl

theorem given_buf (c : Call) (p : ResponseParser) : (given c p).buf = p.buf ++ c.bytes := by
  cases c with
  | feed data => rfl
  | feedEof => exact (List.append_nil _).symm

theorem InHead.given (h : InHead p) (c : Call) : InHead (given c p) := by
  cases c <;> exact h

/-- What calls leave behind, the later ones made whatever the earlier ones raised. -/
def after (codec : Codec) (calls : List Call) (p : ResponseParser) : ResponseParser :=
  calls.foldl (fun p c => left (call codec c p)) p

def fed (calls : List Call) : Bytes := calls.flatMap Call.bytes

/-- In this call the head ends, with the parser in `q`. -/
def EndsHead (p : ResponseParser) (c : Call) (q : ResponseParser) : Prop :=
  InHead p ∧ readHead (given c p) = .ok q ∧ q.state = .body

/-- What the parser passes through from the end of the head in `q`, between its methods, their rounds
and the calls, with the bytes that have been fed behind the head. -/
inductive BodyPoint (codec : Codec) (q : ResponseParser) : Bytes → ResponseParser → Prop
  | start : BodyPoint codec q q.buf q
  | fed {stream : Bytes} {p : ResponseParser} (h : BodyPoint codec q stream p) (c : Call) :
      BodyPoint codec q (stream ++ c.bytes) (given c p)
  | round {stream : Bytes} {p r : ResponseParser} (h : BodyPoint codec q stream p)
      (hs : p.state = .body) (hc : p.chunked = true) (hr : chunkRound codec p = .again r) :
      BodyPoint codec q stream r
  | parsed {stream : Bytes} {p : ResponseParser} (h : BodyPoint codec q stream p)
      (hs : p.state = .body) : BodyPoint codec q stream (left (parseBody codec p))

/-- Nothing of a body has been read. -/
structure Unread (p : ResponseParser) : Prop where
  body : p.body = []
  trailers : p.inTrailers = false
  awaiting : p.awaitingChunkSize = true

theorem Unread.conserved (h : Unread p) : Conserved codec p.buf p := by
  refine ⟨[], rfl, ?_⟩
  unfold Framed
  split_ifs
  · exact ⟨⟨[], .nothing⟩, rfl, h.body.symm, h.trailers, h.awaiting⟩
  · exact h.body

theorem Unread.readsHead (h : Unread p) {x : Parse} (hx : ReadsHead p x) : Unread (left x) :=
  ⟨hx.body.trans h.body, hx.trailers.trans h.trailers, hx.awaiting.trans h.awaiting⟩

theorem Unread.given (h : Unread p) (c : Call) : Unread (given c p) := by
  cases c <;> exact ⟨h.body, h.trailers, h.awaiting⟩

theorem Framed.given {consumed : Bytes} (h : Framed codec p consumed) (c : Call) :
    Framed codec (given c p) consumed := by
  cases c with
  | feed data => exact h.of_same rfl rfl fun behind hat => by cases behind <;> exact hat
  | feedEof => exact h.of_same rfl rfl fun behind hat => by cases behind <;> exact hat

theorem Conserved.given {stream : Bytes} (h : Conserved codec stream p) (c : Call) :
    Conserved codec (stream ++ c.bytes) (given c p) := by
  obtain ⟨consumed, rfl, hp⟩ := h
  exact ⟨consumed, by rw [given_buf, List.append_assoc], hp.given c⟩

/-- **Conservation.** At every point behind the head. -/
theorem BodyPoint.conserved {q : ResponseParser} (hq : Unread q) {stream : Bytes}
    (h : BodyPoint codec q stream p) : Conserved codec stream p := by
  induction h with
  | start => exact hq.conserved
  | fed h c ih => exact ih.given c
  | round h hs hc hr ih => exact ih.advances (advances_round (ne_done_of_body hs) hc hr)
  | parsed h hs ih => exact ih.advances (advances_parseBody (ne_done_of_body hs))

theorem BodyPoint.state {q : ResponseParser} (hq : q.state = .body) {stream : Bytes}
    (h : BodyPoint codec q stream p) : p.state = .body ∨ p.state = .done := by
  have hon : ∀ {p r : ResponseParser}, p.state = .body → Advances codec p r →
      r.state = .body ∨ r.state = .done := fun hs hr => hr.state.imp (·.trans hs) id
  induction h with
  | start => exact .inl hq
  | fed h c ih => cases c <;> exact ih
  | round h hs hc hr ih => exact hon hs (advances_round (ne_done_of_body hs) hc hr)
  | parsed h hs ih => exact hon hs (advances_parseBody (ne_done_of_body hs))

theorem BodyPoint.inState {q : ResponseParser} {stream : Bytes} (h : BodyPoint codec q stream p) :
    BodyPoint codec q stream (left (inState .body (parseBody codec) p)) := by
  by_cases hs : p.state = .body
  · rw [inState_same hs]
    exact h.parsed hs
  · rw [inState_other hs]
    exact h

/-- The call in which the head ends leaves the parser at such a point. -/
theorem EndsHead.point {c : Call} {q : ResponseParser} (h : EndsHead p c q) :
    BodyPoint codec q q.buf (left (call codec c p)) := by
  obtain ⟨hp, hread, hq⟩ := h
  have hbody : BodyPoint codec q q.buf (left (inState .body (parseBody codec) q)) :=
    BodyPoint.start.inState
  rw [call_eq, parse_readHead codec (hp.given c), hread, ok_bind]
  cases hx : inState .body (parseBody codec) q with
  | error e =>
    rw [hx] at hbody
    exact hbody
  | ok r =>
    rw [hx] at hbody
    exact hbody.inState

/-- A later call goes on from there. -/
theorem BodyPoint.call {q : ResponseParser} (hq : q.state = .body) {stream : Bytes}
    (h : BodyPoint codec q stream p) (c : Call) :
    BodyPoint codec q (stream ++ c.bytes) (left (call codec c p)) := by
  have hgiven := h.fed c
  rw [call_eq]
  obtain hs | hs := hgiven.state hq
  · rw [parse_body codec hs]
    exact hgiven.parsed hs
  · rw [parse_done codec hs]
    exact hgiven

theorem after_concat (codec : Codec) (calls : List Call) (c : Call) (p : ResponseParser) :
    after codec (calls ++ [c]) p = left (call codec c (after codec calls p)) :=
  List.foldl_append

theorem fed_concat (calls : List Call) (c : Call) : fed (calls ++ [c]) = fed calls ++ c.bytes := by
  unfold fed
  rw [List.flatMap_append, List.flatMap_singleton]

/-- From the end of the head on, a run stays at such points. -/
theorem EndsHead.run {earlier : List Call} {c : Call} {q : ResponseParser}
    (h : EndsHead (after codec earlier fresh) c q) (later : List Call) :
    BodyPoint codec q (q.buf ++ fed later) (after codec (earlier ++ c :: later) fresh) := by
  induction later using List.reverseRecOn with
  | nil =>
    rw [after_concat]
    have hpoint : BodyPoint codec q q.buf _ := h.point
    rwa [show fed [] = [] from rfl, List.append_nil]
  | append_singleton later c' ih =>
    have hsplit : earlier ++ c :: (later ++ [c']) = (earlier ++ c :: later) ++ [c'] := by simp
    rw [hsplit, after_concat, fed_concat, ← List.append_assoc]
    exact ih.call h.2.2 c'

/-- A call that does not end the head has taken from the buffer only. -/
theorem head_call (c : Call) (hp : InHead p) (hu : Unread p) :
    (InHead (left (call codec c p)) ∧ Unread (left (call codec c p)) ∧
      (left (call codec c p)).buf <:+ p.buf ++ c.bytes) ∨ ∃ q, EndsHead p c q := by
  have hgiven : InHead (given c p) := hp.given c
  have hreads := readsHead_readHead hgiven
  obtain hstay | ⟨q, hq, hs⟩ := hreads.state
  · have hleft : left (call codec c p) = left (readHead (given c p)) := by
      rw [call_eq, parse_readHead codec hgiven]
      cases hx : readHead (given c p) with
      | error e => rfl
      | ok r =>
        rw [hx] at hstay
        have hr : InHead r := hstay
        rw [ok_bind, inState_other hr.ne_body, ok_bind, inState_other hr.ne_body]
    rw [hleft]
    exact .inl ⟨hstay, (hu.given c).readsHead hreads, given_buf c p ▸ hreads.buf⟩
  · exact .inr ⟨q, hp, hq, hs⟩

/-- A run is still in the head, or one of its calls has ended it. -/
theorem head_run (codec : Codec) (calls : List Call) :
    (InHead (after codec calls fresh) ∧ Unread (after codec calls fresh) ∧
      (after codec calls fresh).buf <:+ fed calls) ∨
    ∃ earlier c later q, calls = earlier ++ c :: later ∧ EndsHead (after codec earlier fresh) c q := by
  induction calls using List.reverseRecOn with
  | nil => exact .inl ⟨.inl rfl, ⟨rfl, rfl, rfl⟩, List.suffix_rfl⟩
  | append_singleton calls c ih =>
    obtain ⟨hp, hu, hbuf⟩ | ⟨earlier, c', later, q, rfl, hq⟩ := ih
    · obtain ⟨hp', hu', hbuf'⟩ | ⟨q, hq⟩ := @head_call codec _ c hp hu
      · rw [after_concat, fed_concat]
        obtain ⟨front, hfront⟩ := hbuf
        refine .inl ⟨hp', hu', hbuf'.trans ⟨front, ?_⟩⟩
        rw [← List.append_assoc, hfront]
      · exact .inr ⟨calls, c, [], q, rfl, hq⟩
    · exact .inr ⟨earlier, c', later ++ [c], q, by simp, hq⟩

/-- The end of the head is found in what has been fed, before anything of a body is read. -/
theorem EndsHead.unread {earlier : List Call} {c : Call} {q : ResponseParser}
    (h : EndsHead (after codec earlier fresh) c q) :
    Unread q ∧ q.buf <:+ fed (earlier ++ [c]) := by
  obtain ⟨hp, hread, hq⟩ := h
  obtain ⟨-, hu, hbuf⟩ | ⟨earlier', c', later, q', rfl, hq'⟩ := head_run codec earlier
  · have hreads := readsHead_readHead (hp.given c)
    rw [hread] at hreads
    refine ⟨(hu.given c).readsHead hreads, hreads.buf.trans ?_⟩
    obtain ⟨front, hfront⟩ := hbuf
    exact ⟨front, by rw [fed_concat, given_buf, ← hfront, List.append_assoc]⟩
  · have hstate := (hq'.run later).state hq'.2.2
    rcases hp with hp | hp <;> rw [hp] at hstate <;> exact absurd hstate (by decide)

/-- A call adds to the body at its end. -/
theorem body_call (codec : Codec) (c : Call) (p : ResponseParser) :
    p.body <+: (left (call codec c p)).body := by
  have hgiven : (given c p).body = p.body := by cases c <;> rfl
  have hin : ∀ q : ResponseParser, q.body <+: (left (inState .body (parseBody codec) q)).body := by
    intro q
    by_cases hs : q.state = .body
    · rw [inState_same hs]
      exact (advances_parseBody (ne_done_of_body hs)).body
    · rw [inState_other hs]
      exact List.prefix_rfl
  have hbind : ∀ x : Parse, p.body <+: (left x).body →
      p.body <+: (left (x >>= inState .body (parseBody codec))).body := by
    intro x hx
    cases x with
    | error e => exact hx
    | ok q => exact hx.trans (hin q)
  rw [call_eq]
  cases hs : (given c p).state with
  | status =>
    have hreads := readsHead_readHead (.inl hs)
    rw [parse_readHead codec (.inl hs)]
    exact hbind _ (hbind _ (by rw [hreads.body, hgiven]))
  | headers =>
    have hreads := readsHead_readHead (.inr hs)
    rw [parse_readHead codec (.inr hs)]
    exact hbind _ (hbind _ (by rw [hreads.body, hgiven]))
  | body =>
    have hbody := (@advances_parseBody codec (given c p) (ne_done_of_body hs)).body
    rwa [parse_body codec hs, ← hgiven]
  | done =>
    rw [parse_done codec hs]
    exact hgiven ▸ List.prefix_rfl

theorem rounds_parseChunked (codec : Codec) (p : ResponseParser) :
    rounds (chunkRound codec) (p.buf.length + 1) p = some (parseChunked codec p) := by
  unfold parseChunked
  exact @rounds_eq_loop _ _ (chunkRound codec) (fun p => p.buf.length) _ p

/-- **The body loop** ends, each round that goes on has consumed input, and the body grows at its end
only. Until the head has ended there is no body. From then on, in the middle of a call as between
the calls, what has been fed behind the head is what was consumed and then the buffer: consumed as
the body itself, or as chunks. -/
theorem body_conserved (codec : Codec) :
    (∀ p q, chunkRound codec p = .again q → q.buf.length < p.buf.length) ∧
      (∀ p, rounds (chunkRound codec) (p.buf.length + 1) p = some (parseChunked codec p)) ∧
      (∀ p q, p.state = .body → p.chunked = true → chunkRound codec p = .again q → p.body <+: q.body) ∧
      (∀ p c, p.body <+: (left (call codec c p)).body) ∧
      (∀ calls, (∀ earlier c later q, calls = earlier ++ c :: later →
        ¬ EndsHead (after codec earlier fresh) c q) → (after codec calls fresh).body = []) ∧
      ∀ earlier c q, EndsHead (after codec earlier fresh) c q →
        q.buf <:+ fed (earlier ++ [c]) ∧
        (∀ stream p, BodyPoint codec q stream p → Conserved codec stream p) ∧
        ∀ later, BodyPoint codec q (q.buf ++ fed later) (after codec (earlier ++ c :: later) fresh) := by
  refine ⟨fun p q => chunkRound_shortens, rounds_parseChunked codec, fun p q hs hc hr => ?_,
    fun p c => body_call codec c p, fun calls hno => ?_, fun earlier c q h => ?_⟩
  · exact (advances_round (ne_done_of_body hs) hc hr).body
  · obtain ⟨-, hu, -⟩ | ⟨earlier, c, later, q, hcalls, hq⟩ := head_run codec calls
    · exact hu.body
    · exact absurd hq (hno earlier c later q hcalls)
  · exact ⟨h.unread.2, fun stream p hp => hp.conserved h.unread.1, h.run⟩

/-- The head of a chunked message, and its body. -/
theorem body_conserved_greeting : ∃ q,
    EndsHead fresh (.feed greeting.head.encode) q ∧
    Conserved noCodec (q.buf ++ fed [.feed greeting.framing.encode])
      (after noCodec [.feed greeting.head.encode, .feed greeting.framing.encode] fresh) := by
  have hhead : (readHead (given (.feed greeting.head.encode) fresh)).toOption.map state = some .body := by
    decide +kernel
  have hends : ∃ q, EndsHead fresh (.feed greeting.head.encode) q := by
    cases hq : readHead (given (.feed greeting.head.encode) fresh) with
    | error e => rw [hq] at hhead; cases hhead
    | ok q => rw [hq] at hhead; exact ⟨q, .inl rfl, hq, Option.some.inj hhead⟩
  obtain ⟨q, hends⟩ := hends
  obtain ⟨-, hconserved, hpoint⟩ := (body_conserved noCodec).2.2.2.2.2 [] (.feed greeting.head.encode) q hends
  exact ⟨q, hends, hconserved _ _ (hpoint [.feed greeting.framing.encode])⟩

end ResponseParser

end Fizzpy
