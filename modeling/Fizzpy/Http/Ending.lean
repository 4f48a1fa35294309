import Fizzpy.Http.Acceptance

/-!
# What the end of the connection ends

A response may also be ended by the end of the connection: a body that is delimited so, but likewise
one that is shorter than its length, and trailers without their blank line. Nothing else is accepted
then (`reads_eof_iff`); a chunked body, a header block or a status line cut short is not.
-/

namespace Fizzpy

open Foundation ResponseParser

/-! ## Responses as texts -/

/-- What there may be of a body when the connection ends before it. -/
inductive CutText
  | length (n : ℤ) (data : Bytes) (short : (data.length : ℤ) < n)
  | chunked (chunks : List WholeChunk) (last : SizeLine) (zero : last.size = 0) (trailers : Bytes)
      (noEnd : headerBlock trailers = none)
  | close (data : Bytes)

namespace CutText

def wire : CutText → Bytes
  | length _ data _ | close data => data
  | chunked chunks last _ trailers _ => chunks.flatMap WholeChunk.wire ++ last.wire ++ trailers

def data : CutText → Bytes
  | length _ data _ | close data => data
  | chunked chunks _ _ _ _ => chunks.flatMap WholeChunk.data

def delimiter : CutText → Delimiter
  | length n _ _ => .length n
  | chunked _ _ _ _ _ => .chunked
  | close _ => .close

/-- Trailers without their end are not taken off the buffer. -/
def unread : CutText → Bytes
  | length _ _ _ | close _ => []
  | chunked _ _ _ trailers _ => trailers

end CutText

/-- The text of a response that the end of the connection ends. -/
structure CutResponse extends WireHead where
  body : CutText

namespace CutResponse

def wire (m : CutResponse) : Bytes := m.toWireHead.wire ++ m.body.wire

def response (codec : Codec) (m : CutResponse) : Response := m.meaning codec m.body.data

def Sound (codec : Codec) (m : CutResponse) : Prop := m.Takes codec m.body.delimiter m.body.data

end CutResponse

namespace ResponseParser

variable {codec : Codec} {r : Response} {rest : Bytes}

/-! ## The end of the connection -/

theorem Ends.feedEof {x : Parse} (h : Ends x r rest) : Ends (x >>= feedEof codec) r rest := by
  obtain ⟨p, rfl, hc, hr, hbuf⟩ := h
  rw [ok_bind, feedEof_of_complete codec hc]
  exact ⟨_, rfl, hc, hr, hbuf⟩

theorem ends_finalize_feedEof {p : ResponseParser} :
    Ends (finalize codec p >>= feedEof codec) r rest ↔ Ends (finalize codec p) r rest := by
  refine ⟨fun h => ?_, Ends.feedEof⟩
  obtain ⟨q, hq, hends⟩ := ends_bind_iff.mp h
  rw [hq]
  obtain ⟨-, hfin⟩ | ⟨-, hfin⟩ := finalize_eq codec p
  · rw [hfin] at hq
    cases hq
  · rw [hfin, Except.ok.injEq] at hq
    subst hq
    rw [feedEof_of_complete codec rfl] at hends
    obtain ⟨q, hq, hc, hr, hbuf⟩ := hends
    cases hq
    exact ⟨_, rfl, rfl, hr, hbuf⟩

theorem endsLate_feedEof : EndsLate (feedEof codec) := by
  rintro p (⟨hs, hf⟩ | ⟨hs, hb⟩) r rest
  · have heq : feedEof codec p =
        (parseStatusLine { p with eof := true } >>= inState .headers (parseHeaders codec)) >>=
          inState .body (parseBody codec) := by
      rw [bind_assoc]
      exact parse_status codec (p := { p with eof := true }) hs
    rw [heq]
    unfold parseStatusLine
    simp only [hf]
    split_ifs
    · exact not_ends_error _
    · rw [ok_bind, inState_other (by simp [hs]), ok_bind, inState_other (by simp [hs])]
      exact not_ends_ok (by simp [hs])
  · have heq : feedEof codec p =
        parseHeaders codec { p with eof := true } >>= inState .body (parseBody codec) :=
      parse_headers codec (p := { p with eof := true }) hs
    rw [heq]
    unfold parseHeaders
    simp only [hb]
    split_ifs
    · exact not_ends_error _
    · rw [ok_bind, inState_other (by simp [hs])]
      exact not_ends_ok (by simp [hs])

/-- A body of a given length ends with the connection. -/
theorem ends_length_feedEof_iff {p : ResponseParser} {n : ℤ} (he : p.eof = false)
    (hs : p.state = .body) (hc : p.chunked = false) (hn : p.contentLength = some n) (hb : p.body = []) :
    Ends (parseFixedLength codec n p >>= feedEof codec) r rest ↔
      (∃ data : Bytes, (data.length : ℤ) = max n 0 ∧ p.buf = data ++ rest ∧ Finishes codec p data r) ∨
        ((p.buf.length : ℤ) < n ∧ rest = [] ∧ Finishes codec p p.buf r) := by
  by_cases hlong : n ≤ p.buf.length
  · have hfull : parseFixedLength codec n p = finalize codec (fillBody n p) := by
      unfold parseFixedLength
      refine if_pos (.inl ?_)
      show n ≤ ((p.body ++ p.buf.take (n - p.body.length).toNat).length : ℕ)
      rw [hb, List.nil_append, List.length_take]
      simp only [List.length_nil, Nat.cast_zero, sub_zero]
      omega
    rw [hfull, ends_finalize_feedEof, ← hfull, ends_parseFixedLength_iff he hs hb]
    exact (or_iff_left fun h => absurd hlong (not_le.mpr h.1)).symm
  · have hshort : (p.buf.length : ℤ) < n := not_le.mp hlong
    have htake : p.buf.take n.toNat = p.buf := List.take_of_length_le (by omega)
    have hdrop : p.buf.drop n.toNat = [] := List.drop_eq_nil_of_le (by omega)
    have hfill : fillBody n p = { p with body := p.buf, buf := [] } := by
      unfold fillBody
      rw [hb]
      simp [htake, hdrop]
    have hwait : parseFixedLength codec n p = .ok { p with body := p.buf, buf := [] } := by
      unfold parseFixedLength
      rw [hfill]
      exact if_neg (by simp [he, hshort])
    have hlast : fillBody n { p with body := p.buf, buf := [], eof := true } =
        { p with body := p.buf, buf := [], eof := true } := by
      unfold fillBody
      simp
    rw [hwait, ok_bind, feedEof_body codec (p := { p with body := p.buf, buf := [] }) hs,
      parseBody_length codec (p := { p with body := p.buf, buf := [], eof := true }) (n := n) hc hn]
    unfold parseFixedLength
    rw [hlast]
    dsimp only
    rw [if_pos (.inr rfl), ends_finalize_iff]
    constructor
    · rintro ⟨hfin, rfl⟩
      exact .inr ⟨hshort, rfl, hfin⟩
    · rintro (⟨data, hlen, hbuf, -⟩ | ⟨-, rfl, hfin⟩)
      · have hle := congrArg List.length hbuf
        rw [List.length_append] at hle
        omega
      · exact ⟨hfin, rfl⟩

/-- A body without a length is what comes before the end. -/
theorem ends_close_feedEof_iff {p : ResponseParser} (he : p.eof = false) (hs : p.state = .body)
    (hc : p.chunked = false) (hn : p.contentLength = none) (hb : p.body = []) :
    Ends (parseUntilClose codec p >>= feedEof codec) r rest ↔
      rest = [] ∧ Finishes codec p p.buf r := by
  have hwait : parseUntilClose codec p = .ok { p with body := p.buf, buf := [] } := by
    unfold parseUntilClose
    rw [hb]
    exact if_neg (by simp [he])
  have hend : parseUntilClose codec { p with body := p.buf, buf := [], eof := true } =
      finalize codec { p with body := p.buf, buf := [], eof := true } := by
    unfold parseUntilClose
    dsimp only
    rw [if_pos rfl, List.append_nil]
  rw [hwait, ok_bind, feedEof_body codec (p := { p with body := p.buf, buf := [] }) hs,
    parseBody_close codec (p := { p with body := p.buf, buf := [], eof := true }) hc hn, hend, ends_finalize_iff]
  exact ⟨fun ⟨hfin, hrest⟩ => ⟨hrest.symm, hfin⟩, fun ⟨hrest, hfin⟩ => ⟨hfin, hrest.symm⟩⟩

/-- Behind trailers without an end. -/
theorem ends_trailers_feedEof_iff {p : ResponseParser} (hs : p.state = .body) (hc : p.chunked = true)
    (ht : p.inTrailers = true) (hblock : headerBlock p.buf = none) :
    Ends (feedEof codec p) r rest ↔ Finishes codec p p.body r ∧ p.buf = rest := by
  have hcrlf : ¬ CRLF <+: p.buf := by
    intro h
    unfold headerBlock at hblock
    rw [if_pos h] at hblock
    cases hblock
  have hnone : find CRLFCRLF p.buf = none := by
    unfold headerBlock at hblock
    rw [if_neg hcrlf, Option.map_eq_none_iff] at hblock
    exact hblock
  rw [feedEof_body codec hs, parseBody_chunked codec (p := { p with eof := true }) hc,
    parseChunked_leave (chunkRound_of_trailers (p := { p with eof := true }) ht),
    parseTrailers_none codec (p := { p with eof := true }) hcrlf hnone, if_pos rfl, ends_finalize_iff]
  exact Iff.rfl

/-- **The chunks** end as such, or the connection ends behind the last size line. -/
theorem chunks_of_ends_feedEof {p : ResponseParser} (hp : Between p) (hc : p.chunked = true)
    (h : Ends (parseChunked codec p >>= feedEof codec) r rest) :
    (∃ t : ChunkedText, p.buf = (BodyText.chunked t).wire ++ rest ∧
      Finishes codec p (p.body ++ (BodyText.chunked t).data) r) ∨
    ∃ (chunks : List WholeChunk) (last : SizeLine) (zero : last.size = 0)
      (noEnd : headerBlock rest = none),
      p.buf = (CutText.chunked chunks last zero rest noEnd).wire ∧
        Finishes codec p (p.body ++ (CutText.chunked chunks last zero rest noEnd).data) r := by
  induction p using chunkRound_induction codec with
  | h p ih =>
    obtain ⟨c, buf, hbuf⟩ | ⟨l, buf, hzero, hbuf⟩ | ⟨x, hx, hno⟩ := @chunkRound_cases codec p hp hc
    · have hround := @chunkRound_whole codec p hp c buf hbuf
      rw [parseChunked_again hround] at h
      obtain ⟨t, ht, hfin⟩ | ⟨chunks, last, zero, noEnd, ht, hfin⟩ :=
        ih _ hround ⟨hp.eof, hp.state, hp.trailers, rfl⟩ hc h
      · have ht : buf = (BodyText.chunked t).wire ++ rest := ht
        have hdata : p.body ++ (BodyText.chunked { t with chunks := c :: t.chunks }).data =
            p.body ++ c.data ++ (BodyText.chunked t).data := by
          simp only [BodyText.data, List.flatMap_cons, List.append_assoc]
        refine .inl ⟨{ t with chunks := c :: t.chunks }, ?_, ?_⟩
        · rw [hbuf, ht]
          simp only [BodyText.wire, List.flatMap_cons, List.append_assoc]
        · rw [hdata]
          exact hfin
      · have ht : buf = (CutText.chunked chunks last zero rest noEnd).wire := ht
        have hdata : p.body ++ (CutText.chunked (c :: chunks) last zero rest noEnd).data =
            p.body ++ c.data ++ (CutText.chunked chunks last zero rest noEnd).data := by
          simp only [CutText.data, List.flatMap_cons, List.append_assoc]
        refine .inr ⟨c :: chunks, last, zero, noEnd, ?_, ?_⟩
        · rw [hbuf, ht]
          simp only [CutText.wire, List.flatMap_cons, List.append_assoc]
        · rw [hdata]
          exact hfin
    · have hround := @chunkRound_last codec p hp l hzero buf hbuf
      cases hblock : headerBlock buf with
      | some br =>
        have hends : parseChunked codec p = finalize codec { p with buf := br.2, inTrailers := true } := by
          rw [parseChunked_again hround, parseChunked_leave (chunkRound_of_trailers rfl),
            parseTrailers_eq (p := { p with buf, inTrailers := true }) hp.eof]
          simp only [hblock]
        rw [hends, ends_finalize_feedEof, ← hends] at h
        obtain ⟨s, hs, hfin⟩ := (ends_lastLine_iff hp l hzero hbuf).mp h
        refine .inl ⟨⟨[], l, hzero, s⟩, ?_, ?_⟩
        · rw [hbuf, hs]
          exact (List.append_assoc _ _ _).symm
        · have hdata : p.body ++ (BodyText.chunked ⟨[], l, hzero, s⟩).data = p.body :=
            List.append_nil _
          rwa [hdata]
      | none =>
        rw [parseChunked_again hround, parseChunked_leave (chunkRound_of_trailers rfl),
          parseTrailers_eq (p := { p with buf, inTrailers := true }) hp.eof] at h
        simp only [hblock, ok_bind] at h
        obtain ⟨hfin, rfl⟩ := (ends_trailers_feedEof_iff (p := { p with buf, inTrailers := true })
          hp.state hc rfl hblock).mp h
        refine .inr ⟨[], l, hzero, hblock, hbuf, ?_⟩
        have hdata : p.body ++ (CutText.chunked [] l hzero buf hblock).data = p.body :=
          List.append_nil _
        rw [hdata]
        exact hfin
    · rw [parseChunked_leave hx] at h
      exact absurd h (hno r rest).2

theorem ends_of_cut_chunks {last : SizeLine} {zero : last.size = 0} {noEnd : headerBlock rest = none}
    (chunks : List WholeChunk) : ∀ {p : ResponseParser}, Between p → p.chunked = true →
    p.buf = (CutText.chunked chunks last zero rest noEnd).wire →
    Finishes codec p (p.body ++ (CutText.chunked chunks last zero rest noEnd).data) r →
    Ends (parseChunked codec p >>= feedEof codec) r rest := by
  induction chunks with
  | nil =>
    intro p hp hc hbuf hfin
    have hbuf : p.buf = last.wire ++ rest := hbuf
    have hfin : Finishes codec p (p.body ++ []) r := hfin
    rw [List.append_nil] at hfin
    rw [parseChunked_again (chunkRound_last hp last zero hbuf),
      parseChunked_leave (chunkRound_of_trailers rfl),
      parseTrailers_eq (p := { p with buf := rest, inTrailers := true }) hp.eof]
    simp only [noEnd, ok_bind]
    exact (ends_trailers_feedEof_iff (p := { p with buf := rest, inTrailers := true })
      hp.state hc rfl noEnd).mpr ⟨hfin, rfl⟩
  | cons c chunks ih =>
    intro p hp hc hbuf hfin
    have hsplit : p.buf = c.wire ++ (CutText.chunked chunks last zero rest noEnd).wire := by
      rw [hbuf]
      simp only [CutText.wire, List.flatMap_cons, List.append_assoc]
    rw [parseChunked_again (chunkRound_whole hp c hsplit)]
    refine ih (p := { p with
      body := p.body ++ c.data, buf := _, chunkRemaining := min c.head.size 0,
      awaitingChunkSize := true }) ⟨hp.eof, hp.state, hp.trailers, rfl⟩ hc rfl ?_
    have hdata : p.body ++ (CutText.chunked (c :: chunks) last zero rest noEnd).data =
        p.body ++ c.data ++ (CutText.chunked chunks last zero rest noEnd).data := by
      simp only [CutText.data, List.flatMap_cons, List.append_assoc]
    rw [hdata] at hfin
    exact hfin

/-- **The body**, at the end of the connection. -/
theorem ends_body_feedEof_iff {p : ResponseParser} (hp : Between p) (hc : p.chunked = false)
    (hn : p.contentLength = none) (hb : p.body = []) (d : Delimiter) :
    Ends (parseBody codec (framedBy p d) >>= feedEof codec) r rest ↔
      (∃ b : BodyText, b.delimiter = d ∧ p.buf = b.wire ++ rest ∧ Finishes codec p b.data r) ∨
        ∃ b : CutText, b.delimiter = d ∧ p.buf = b.wire ∧ b.unread = rest ∧
          Finishes codec p b.data r := by
  have hwhole := @ends_parseBody_iff codec r rest p hp hc hn hb d
  constructor
  · intro h
    cases d with
    | length n =>
      rw [parseBody_length codec (p := framedBy p (.length n)) (n := n) hc rfl] at h
      obtain ⟨data, hlen, hbuf, hfin⟩ | ⟨hshort, rfl, hfin⟩ :=
        (ends_length_feedEof_iff (p := framedBy p (.length n)) hp.eof hp.state hc rfl hb).mp h
      · exact .inl ⟨.length n data hlen, rfl, hbuf, hfin⟩
      · exact .inr ⟨.length n p.buf hshort, rfl, rfl, rfl, hfin⟩
    | chunked =>
      rw [parseBody_chunked codec (p := framedBy p .chunked) rfl] at h
      have hnil : (framedBy p .chunked).body = [] := hb
      obtain ⟨t, hbuf, hfin⟩ | ⟨chunks, last, zero, noEnd, hbuf, hfin⟩ :=
        chunks_of_ends_feedEof (p := framedBy p .chunked) ⟨hp.eof, hp.state, hp.trailers, hp.awaiting⟩
          rfl h
      · rw [hnil, List.nil_append] at hfin
        exact .inl ⟨.chunked t, rfl, hbuf, hfin⟩
      · rw [hnil, List.nil_append] at hfin
        exact .inr ⟨.chunked chunks last zero rest noEnd, rfl, hbuf, rfl, hfin⟩
    | close =>
      rw [parseBody_close codec (p := framedBy p .close) hc hn] at h
      obtain ⟨rfl, hfin⟩ :=
        (ends_close_feedEof_iff (p := framedBy p .close) hp.eof hp.state hc hn hb).mp h
      exact .inr ⟨.close p.buf, rfl, rfl, rfl, hfin⟩
  · rintro (hbody | ⟨b, rfl, hbuf, rfl, hfin⟩)
    · exact (hwhole.mpr hbody).feedEof
    · cases b with
      | length n data hshort =>
        have hbuf : p.buf = data := hbuf
        subst hbuf
        rw [show (CutText.length n p.buf hshort).delimiter = .length n from rfl,
          parseBody_length codec (p := framedBy p (.length n)) (n := n) hc rfl]
        exact (ends_length_feedEof_iff (p := framedBy p (.length n)) hp.eof hp.state hc rfl hb).mpr
          (.inr ⟨hshort, rfl, hfin⟩)
      | chunked chunks last zero trailers noEnd =>
        rw [show (CutText.chunked chunks last zero trailers noEnd).delimiter = .chunked from rfl,
          parseBody_chunked codec (p := framedBy p .chunked) rfl]
        refine ends_of_cut_chunks (p := framedBy p .chunked) chunks
          ⟨hp.eof, hp.state, hp.trailers, hp.awaiting⟩ rfl hbuf ?_
        rw [show (framedBy p .chunked).body = [] from hb, List.nil_append]
        exact hfin
      | close data =>
        have hbuf : p.buf = data := hbuf
        subst hbuf
        rw [show (CutText.close p.buf).delimiter = .close from rfl,
          parseBody_close codec (p := framedBy p .close) hc hn]
        exact (ends_close_feedEof_iff (p := framedBy p .close) hp.eof hp.state hc hn hb).mpr ⟨rfl, hfin⟩

/-- Nor does it depend on the cuts what the end of the connection ends. -/
theorem ends_feedAll_feedEof_iff {pieces : List Bytes} :
    Ends (feedAll codec fresh pieces >>= feedEof codec) r rest ↔
      Ends (feed codec fresh pieces.flatten >>= feedEof codec) r rest := by
  have hsame : outcome (feedAll codec fresh pieces >>= feedEof codec) =
      outcome (feed codec fresh pieces.flatten >>= feedEof codec) :=
    outcome_bind_congr (outcome_feedAll codec pieces) fun _ _ => rfl
  refine exists_congr fun p => and_congr_left fun _ => ?_
  rw [← outcome_eq_ok_iff, hsame, outcome_eq_ok_iff]

theorem ends_feed_feedEof_iff {stream : Bytes} :
    Ends (feed codec fresh stream >>= feedEof codec) r rest ↔
      (∃ m : WireResponse, m.Sound codec ∧ stream = m.wire ++ rest ∧ m.response codec = r) ∨
        ∃ m : CutResponse, m.Sound codec ∧ stream = m.wire ∧ m.body.unread = rest ∧
          m.response codec = r := by
  have hbody : ∀ (h : WireHead) (d : Delimiter) (buf : Bytes),
      Ends (parseBody codec (framedBy (headed h buf) d) >>= feedEof codec) r rest ↔ _ :=
    fun h d buf => ends_body_feedEof_iff (p := headed h buf) ⟨rfl, rfl, rfl, rfl⟩ rfl rfl rfl d
  rw [ends_head_iff endsLate_feedEof]
  constructor
  · rintro ⟨h, d, buf, rfl, hd, hends⟩
    obtain ⟨b, rfl, rfl, hwhole, rfl⟩ | ⟨b, rfl, rfl, rfl, hwhole, rfl⟩ := (hbody h d buf).mp hends
    · exact .inl ⟨⟨h, b⟩, ⟨hd, hwhole⟩, (List.append_assoc _ _ _).symm, rfl⟩
    · exact .inr ⟨⟨h, b⟩, ⟨hd, hwhole⟩, rfl, rfl, rfl⟩
  · rintro (⟨⟨h, b⟩, ⟨hd, hwhole⟩, rfl, rfl⟩ | ⟨⟨h, b⟩, ⟨hd, hwhole⟩, rfl, rfl, rfl⟩)
    · refine ⟨h, b.delimiter, b.wire ++ rest, List.append_assoc _ _ _, hd, ?_⟩
      exact (hbody h _ _).mpr (.inl ⟨b, rfl, rfl, hwhole, rfl⟩)
    · exact ⟨h, b.delimiter, b.wire, rfl, hd, (hbody h _ _).mpr (.inr ⟨b, rfl, rfl, rfl, hwhole, rfl⟩)⟩

/-- **Acceptance at the end of the connection.** What has been fed, followed by `feed_eof`, completes
`r` exactly if it begins with the text of a response that means `r`, or is as a whole that of one which
the end of the connection ends: a body without a length, one shorter than its length, or chunks with the
end of the trailers missing. -/
theorem reads_eof_iff (codec : Codec) (pieces : List Bytes) (r : Response) (rest : Bytes) :
    Ends (feedAll codec fresh pieces >>= feedEof codec) r rest ↔
      (∃ m : WireResponse, m.Sound codec ∧ pieces.flatten = m.wire ++ rest ∧ m.response codec = r) ∨
        ∃ m : CutResponse, m.Sound codec ∧ pieces.flatten = m.wire ∧ m.body.unread = rest ∧
          m.response codec = r :=
  ends_feedAll_feedEof_iff.trans ends_feed_feedEof_iff

end ResponseParser

end Fizzpy
