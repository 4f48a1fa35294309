import Fizzpy.Http.Decode
import Fizzpy.Http.Waiting

/-!
# Responses cut short

The stream may end anywhere. A chunked body is then whole or not delivered at all; of a body with a
length, what has come is delivered, up to the length.
-/

namespace Fizzpy

open Foundation

namespace ResponseParser

/-! ## Chunked bodies -/

/-- A chunked message is read as one. -/
theorem feed_chunked (codec : Codec) {m : FinalResponse} {field : ChunkedField} {body : ChunkedBody}
    (hm : m.framing = .chunked field body) :
    ∃ p, HasRead m [] p ∧ p.chunked = true ∧ feed codec fresh m.encode = finalize codec p := by
  have hframed : framed m body.encode = { afterHead m.head body.encode with chunked := true } := by
    unfold framed
    rw [hm]
  refine ⟨{ afterHead m.head [] with
    chunked := true, body := body.data, state := .body, inTrailers := true }, ?_, rfl, ?_⟩
  · exact ⟨rfl, by rw [hm]; rfl, rfl, rfl, rfl, rfl, by rw [hm]; rfl⟩
  · have hbody := parseChunked_encode codec
      { afterHead m.head [] with chunked := true, state := .body } body []
    rw [List.append_nil] at hbody
    rw [FinalResponse.encode, show m.framing.encode = body.encode by rw [hm]; rfl, parse_framed, hframed]
    exact hbody

/-- The rest of the message, fed to a parser that waits in its body. -/
theorem feed_rest {codec : Codec} {p q : ResponseParser} {rest : Bytes} (hl : Live p)
    (hs : p.state = .body) (h : feed codec p rest = .ok q) (hq : q.isComplete) :
    ∃ r, Onward p r ∧ finalize codec r = .ok q := by
  have hexit := parseBody_exit codec (hl.onward (onward_buf p (p.buf ++ rest))) hs
  have hfeed : feed codec p rest = parseBody codec { p with buf := p.buf ++ rest } :=
    parse_body codec (p := { p with buf := p.buf ++ rest }) hs
  rw [← hfeed] at hexit
  generalize feed codec p rest = x at h hexit
  cases hexit with
  | raised e => cases h
  | waits ho ha =>
    cases h
    exact absurd (of_decide_eq_true hq) ha.state_ne
  | finished ho => exact ⟨_, (onward_buf p _).trans ho, h⟩

/-- The response is delivered with the content `b`, or it is not delivered: the parser stays without
one, or raises its own exception. -/
def AllOrNothing (b : Bytes) : Parse → Prop
  | .ok q => if q.isComplete then ∃ r, q.response = some r ∧ r.content = b else q.response = none
  | .error e => ∃ msg, e.1 = .httpParseError msg

/-- The end of the stream, when the rest of the message would have finished it. -/
theorem allOrNothing_feedEof {codec : Codec} {p q : ResponseParser} {rest b : Bytes} {r : Response}
    (hl : Live p) (ha : Awaits p) (h : feed codec p rest = .ok q) (hq : q.isComplete)
    (hchunked : q.chunked = true) (hr : q.response = some r) (hb : r.content = b) :
    AllOrNothing b (feedEof codec p) := by
  cases feedEof_awaits codec ha with
  | raises h => rw [h]; exact ⟨_, rfl⟩
  | stays h hbuf hs =>
    rw [h]
    have hstate : ¬ ({ p with eof := true } : ResponseParser).isComplete := fun hd =>
      ha.state_ne (of_decide_eq_true hd)
    show if _ then _ else _
    rw [if_neg hstate]
    exact hl.response
  | finishes hfin hs ht =>
    obtain ⟨p', ho, hp'⟩ := feed_rest hl hs h hq
    obtain ⟨content, hd, rfl⟩ := finalize_ok hp'
    -- in the trailers the body is whole
    have hbody : p'.body = p.body := (ho.trailers (ht (ho.chunked.symm.trans hchunked))).2
    rw [ho.headers, hbody] at hd
    cases hr
    rw [hfin, finalize_of_decompress (p := { p with eof := true }) hd]
    exact ⟨_, rfl, hb⟩

theorem allOrNothing_prefix {codec : Codec} {m : FinalResponse} {field : ChunkedField}
    {body : ChunkedBody} (hm : m.framing = .chunked field body)
    (henc : ∀ f ∈ m.head.fields, f.key ≠ str "content-encoding") {pieces : List Bytes} {rest : Bytes}
    (hne : rest ≠ []) (h : pieces.flatten ++ rest = m.encode) :
    AllOrNothing body.data (feedAll codec fresh pieces >>= feedEof codec) := by
  obtain ⟨p₀, hread, hchunked, hwhole⟩ := feed_chunked codec hm
  have hplain := decompress_plain codec henc
  have hout := outcome_feedAll codec (pieces ++ [rest])
  rw [show (pieces ++ [rest]).flatten = m.encode by simpa using h, hwhole,
    finalize_hasRead hread hplain, outcome_ok, outcome_eq_ok_iff, feedAll_concat] at hout
  cases hp : feedAll codec fresh pieces with
  | error e => rw [hp] at hout; cases hout
  | ok p =>
    rw [hp, ok_bind] at hout
    rw [ok_bind]
    cases hc : p.isComplete with
    | true =>
      -- the message has no bytes behind its end
      rw [feed_of_complete codec hc, Except.ok.injEq] at hout
      have hbuf : p.buf ++ rest = [] :=
        (congrArg ResponseParser.buf hout).trans hread.buf
      exact absurd (List.append_eq_nil_iff.mp hbuf).2 hne
    | false =>
      obtain ⟨hl, ha⟩ := feedAll_awaits pieces live_fresh awaits_fresh hp hc
      refine allOrNothing_feedEof hl ha hout rfl hchunked rfl ?_
      show m.framing.data = body.data
      rw [hm]
      rfl

/-! ## Bodies with a length -/

theorem get_announced_length {m : FinalHead} {f : LengthField} (hm : m.announced = .length f) :
    m.head.headers.get (str "Transfer-Encoding") = none ∧
      m.head.headers.get (str "Content-Length") = some (latin1 (padded f.zeros f.length)) := by
  constructor
  · refine get_framing_absent m.plain (by decide) m.fields_eq fun g hg => ?_
    rw [hm] at hg
    rw [List.mem_singleton.mp hg, f.key_eq]
    decide
  · rw [get_framing_only m.plain (by decide) m.fields_eq (by rw [hm]; rfl)
      (f.key_eq.trans lower_contentLength.symm), f.value_eq]

theorem length_field_strip (f : LengthField) :
    strip isSpace (latin1 (padded f.zeros f.length)) = latin1 (padded f.zeros f.length) := by
  rw [← f.value_eq]
  exact strip_field_value f.field

/-- The head of a response with a length, and what comes of it. -/
theorem resolveFraming_announced_length {m : FinalHead} {f : LengthField}
    (hm : m.announced = .length f) (hs : ¬ m.Bodyless) (rest : Bytes) :
    resolveFraming (afterHead m.head rest) = if intMaxStrDigits < f.digits
      then raise (str "invalid Content-Length: " ++ reprStr (latin1 (padded f.zeros f.length)))
        (afterHead m.head rest)
      else .ok { afterHead m.head rest with contentLength := some f.length } := by
  obtain ⟨hte, hcl⟩ := get_announced_length hm
  have hstatus : ¬ (m.head.status < 200 ∨ m.head.status = 204 ∨ m.head.status = 304) := by
    rintro (h | h)
    · exact absurd m.final (Nat.not_le.mpr h)
    · exact hs h
  have hint := intOfStr_numeral f.zeros f.length
  rw [← length_field_strip f] at hint
  by_cases hlong : intMaxStrDigits < f.digits
  · rw [if_pos hlong]
    exact resolveFraming_badLength hte hstatus hcl (hint.trans (if_pos hlong))
  · rw [if_neg hlong]
    exact resolveFraming_length hte hstatus hcl (hint.trans (if_neg hlong))

/-- What a whole head with a length, `data` and the end of the stream come to. -/
theorem feedEof_announced_length (codec : Codec) {m : FinalHead} {f : LengthField}
    (hm : m.announced = .length f) (hs : ¬ m.Bodyless) (hlen : f.digits ≤ intMaxStrDigits)
    (henc : ∀ g ∈ m.head.fields, g.key ≠ str "content-encoding") (data : Bytes) :
    ∃ q r, (feed codec fresh (m.head.encode ++ data) >>= feedEof codec) = .ok q ∧ q.isComplete ∧
      q.response = some r ∧ r.content = data.take f.length := by
  let p : ResponseParser := { afterHead m.head (data.drop f.length) with
    contentLength := some f.length, state := .body, body := data.take f.length }
  have hd : decompress codec p.headers p.body = .ok (data.take f.length) :=
    decompress_absent codec henc _
  have hfill : fillBody f.length
      { afterHead m.head data with contentLength := some f.length, state := .body } = p := by
    simp [fillBody, afterHead, p]
  have hparse : feed codec fresh (m.head.encode ++ data) =
      if f.length ≤ data.length then finalize codec p else .ok p := by
    rw [feed_head, resolveFraming_announced_length hm hs, if_neg (Nat.not_lt.mpr hlen), ok_bind,
      parse_body codec rfl]
    show parseFixedLength codec f.length _ = _
    unfold parseFixedLength
    rw [hfill]
    simp [p, afterHead]
  rw [hparse]
  split_ifs with hle
  · rw [finalize_of_decompress hd, ok_bind, feedEof_of_complete codec rfl]
    exact ⟨_, _, rfl, rfl, rfl, rfl⟩
  · have hbuf : p.buf = [] := List.drop_eq_nil_of_le (Nat.le_of_not_le hle)
    rw [ok_bind, feedEof_length codec rfl rfl rfl hbuf,
      finalize_of_decompress (p := { p with eof := true }) hd]
    exact ⟨_, _, rfl, rfl, rfl, rfl⟩

/-- **No short body.** A chunked message without a content encoding, cut anywhere before its end and
fed in any pieces, is delivered with its whole body or not at all. Behind a whole head with a length,
exactly as much of what comes is delivered as the length says, or all there is; only a numeral that
`int` refuses raises. -/
theorem truncated_never_short (codec : Codec) :
    (∀ (m : FinalResponse) (field : ChunkedField) (body : ChunkedBody),
      m.framing = .chunked field body → (∀ f ∈ m.head.fields, f.key ≠ str "content-encoding") →
      ∀ (pieces : List Bytes) (rest : Bytes), rest ≠ [] → pieces.flatten ++ rest = m.encode →
      AllOrNothing body.data (feedAll codec fresh pieces >>= feedEof codec)) ∧
    ∀ (m : FinalHead) (f : LengthField), m.announced = .length f → ¬ m.Bodyless →
      (∀ g ∈ m.head.fields, g.key ≠ str "content-encoding") →
      ∀ (pieces : List Bytes) (data : Bytes), pieces.flatten = m.head.encode ++ data →
      match feedAll codec fresh pieces >>= feedEof codec with
      | .ok q => q.isComplete ∧
          ∃ r, q.response = some r ∧ r.content = data.take (min f.length data.length)
      | .error e => intMaxStrDigits < f.digits ∧ ∃ msg, e.1 = .httpParseError msg := by
  refine ⟨fun m field body hm henc pieces rest hne h => allOrNothing_prefix hm henc hne h,
    fun m f hm hs henc pieces data h => ?_⟩
  have hout := outcome_bind_congr (outcome_feedAll codec pieces)
    (f := feedEof codec) (g := feedEof codec) fun _ _ => rfl
  rw [h] at hout
  by_cases hlong : intMaxStrDigits < f.digits
  · rw [feed_head, resolveFraming_announced_length hm hs, if_pos hlong] at hout
    have hout : outcome _ = Except.error (ParseExn.httpParseError
      (str "invalid Content-Length: " ++ reprStr (latin1 (padded f.zeros f.length)))) := hout
    cases hx : feedAll codec fresh pieces >>= feedEof codec with
    | ok q => rw [hx] at hout; cases hout
    | error e =>
      rw [hx, outcome] at hout
      exact ⟨hlong, _, Except.error.inj hout⟩
  · obtain ⟨q, r, hq, hc, hr, hcontent⟩ :=
      feedEof_announced_length codec hm hs (Nat.le_of_not_lt hlong) henc data
    rw [hq, outcome_ok, outcome_eq_ok_iff] at hout
    rw [hout]
    refine ⟨hc, r, hr, hcontent.trans ?_⟩
    rw [List.take_eq_take_iff]
    omega

/-- A message without its last byte, and a head without its body. -/
theorem truncated_never_short_greeting :
    AllOrNothing (ascii "hello")
      (feedAll noCodec fresh [Fizzpy.greeting.encode.dropLast] >>= feedEof noCodec) ∧
    ∃ q r, (feedAll noCodec fresh [letterHead.head.encode] >>= feedEof noCodec) = .ok q ∧
      q.response = some r ∧ r.content = [] := by
  obtain ⟨hchunked, hlength⟩ := truncated_never_short noCodec
  refine ⟨hchunked Fizzpy.greeting greetingField greetingBody rfl (by decide)
    [Fizzpy.greeting.encode.dropLast] [LF] (List.cons_ne_nil _ _) (by decide +kernel), ?_⟩
  have h := hlength letterHead _ rfl (by unfold FinalHead.Bodyless; decide) (by decide)
    [letterHead.head.encode] [] (by simp)
  cases hx : feedAll noCodec fresh [letterHead.head.encode] >>= feedEof noCodec with
  | ok q =>
    rw [hx] at h
    obtain ⟨-, r, hr, hcontent⟩ := h
    exact ⟨q, r, rfl, hr, hcontent⟩
  | error e =>
    rw [hx] at h
    exact absurd h.1 (by decide)

end ResponseParser

end Fizzpy
