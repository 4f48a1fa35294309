import Fizzpy.Foundation.Incremental
import Fizzpy.Http.ResponseParser

/-!
# The parser does not see how its input is cut

Every method, run as far as the buffer allows, either has settled the response, and more input only
lengthens the buffer, or waits in a state from which the rest of the input leads where the whole
input leads (`Resumes`). From the body methods this lifts to `_parse`, which makes the parser a
`Reader`.
-/

namespace Fizzpy

open Foundation

namespace ResponseParser

/-- More bytes behind the buffer. -/
def extend (p : ResponseParser) (b : Bytes) : ResponseParser := { p with buf := p.buf ++ b }

/-- The same outcome with more bytes left in the buffer. -/
def lengthen (b : Bytes) : Parse → Parse
  | .ok p => .ok (p.extend b)
  | .error (e, p) => .error (e, p.extend b)

@[simp] theorem lengthen_ok (b : Bytes) (p : ResponseParser) : lengthen b (.ok p) = .ok (p.extend b) :=
  rfl

theorem lengthen_bind (b : Bytes) (x : Parse) {f : ResponseParser → Parse}
    (hf : ∀ p, f (p.extend b) = lengthen b (f p)) :
    (lengthen b x >>= f) = lengthen b (x >>= f) := by
  cases x with
  | ok p => exact hf p
  | error q => rfl

@[simp] theorem extend_nil (p : ResponseParser) : p.extend [] = p := by
  unfold extend; rw [List.append_nil]

theorem extend_extend (p : ResponseParser) (a b : Bytes) :
    (p.extend a).extend b = p.extend (a ++ b) := by
  unfold extend; rw [List.append_assoc]

@[simp] theorem extend_buf (p : ResponseParser) (b : Bytes) : (p.extend b).buf = p.buf ++ b := rfl

/-- No response is still awaited: an exception, or a finished response. -/
def Settled (x : Parse) : Prop := ∀ q, x = .ok q → q.state = .done

theorem settled_error (e : ParseExn × ResponseParser) : Settled (.error e) := fun _ h => by cases h

theorem settled_raise (msg : Str) (p : ResponseParser) : Settled (raise msg p) := settled_error _

/-- What waiting for input leaves alone. -/
structure SamePhase (p q : ResponseParser) : Prop where
  state : q.state = p.state
  eof : q.eof = p.eof
  chunked : q.chunked = p.chunked
  contentLength : q.contentLength = p.contentLength

theorem SamePhase.refl (p : ResponseParser) : SamePhase p p := ⟨rfl, rfl, rfl, rfl⟩

theorem SamePhase.trans {p q r : ResponseParser} (h : SamePhase p q) (h' : SamePhase q r) :
    SamePhase p r :=
  ⟨h'.state.trans h.state, h'.eof.trans h.eof, h'.chunked.trans h.chunked,
    h'.contentLength.trans h.contentLength⟩

/-- `f` settles the response, and more input only stays in the buffer. -/
def Settles (f : ResponseParser → Parse) (b : Bytes) (p : ResponseParser) : Prop :=
  Settled (f p) ∧ f (p.extend b) = lengthen b (f p)

/-- Either `f` settles the response, or it waits in a state from which the rest of the input leads
where the whole input leads. -/
def Resumes (f : ResponseParser → Parse) (b : Bytes) (p : ResponseParser) : Prop :=
  Settles f b p ∨ ∃ q, f p = .ok q ∧ SamePhase p q ∧ f (q.extend b) = f (p.extend b)

theorem finalize_settled (codec : Codec) (p : ResponseParser) : Settled (finalize codec p) := by
  intro q h
  unfold finalize at h
  split at h
  · rw [Except.ok.injEq] at h; rw [← h]
  · cases h

theorem finalize_extend (codec : Codec) (p : ResponseParser) (b : Bytes) :
    finalize codec (p.extend b) = lengthen b (finalize codec p) := by
  unfold finalize
  rw [show (p.extend b).headers = p.headers from rfl, show (p.extend b).body = p.body from rfl]
  cases decompress codec p.headers p.body <;> rfl

theorem settles_of_finalize (codec : Codec) {f : ResponseParser → Parse} {p q : ResponseParser}
    {b : Bytes} (h : f p = finalize codec q) (h' : f (p.extend b) = finalize codec (q.extend b)) :
    Settles f b p := by
  refine ⟨h ▸ finalize_settled codec q, ?_⟩
  rw [h', h, finalize_extend]

/-! ## Bodies with a length, and up to the close -/

/-- Moving up to `n` elements in two steps, the second after more have arrived. -/
theorem take_append_two {α : Type*} (l m : List α) (n : ℕ) :
    l.take n ++ (l.drop n ++ m).take (n - l.length) = (l ++ m).take n ∧
      (l.drop n ++ m).drop (n - l.length) = (l ++ m).drop n := by
  by_cases h : n ≤ l.length
  · rw [Nat.sub_eq_zero_of_le h, List.take_append_of_le_length h, List.drop_append_of_le_length h]
    simp
  · have hl : l.drop n = [] := List.drop_eq_nil_of_le (by omega)
    rw [List.take_append, List.drop_append, List.take_append, List.drop_append, hl]
    simp

theorem fillBody_fillBody (n : ℤ) (p : ResponseParser) (b : Bytes) :
    fillBody n ((fillBody n p).extend b) = fillBody n (p.extend b) := by
  obtain ⟨ht, hd⟩ := take_append_two p.buf b (n - p.body.length).toNat
  have hneed : (n - ((p.body ++ p.buf.take (n - p.body.length).toNat).length : ℕ)).toNat =
      (n - p.body.length).toNat - p.buf.length := by
    rw [List.length_append, List.length_take]; omega
  unfold fillBody extend
  simp only [hneed, List.append_assoc, ht, hd]

theorem fillBody_extend {n : ℤ} {p : ResponseParser} (h : (n - p.body.length).toNat ≤ p.buf.length)
    (b : Bytes) : fillBody n (p.extend b) = (fillBody n p).extend b := by
  unfold fillBody extend
  simp only [List.take_append_of_le_length h, List.drop_append_of_le_length h]

theorem parseFixedLength_resumes (codec : Codec) (n : ℤ) (b : Bytes) {p : ResponseParser}
    (he : p.eof = false) : Resumes (parseFixedLength codec n) b p := by
  by_cases hn : n ≤ (fillBody n p).body.length
  · have hlen : (n - p.body.length).toNat ≤ p.buf.length := by
      unfold fillBody at hn
      rw [List.length_append, List.length_take] at hn
      omega
    refine Or.inl (settles_of_finalize codec (q := fillBody n p) ?_ ?_)
    · unfold parseFixedLength
      rw [if_pos (Or.inl hn)]
    · unfold parseFixedLength
      rw [fillBody_extend hlen]
      exact if_pos (Or.inl hn)
  · refine Or.inr ⟨fillBody n p, ?_, ⟨rfl, rfl, rfl, rfl⟩, ?_⟩
    · unfold parseFixedLength
      refine if_neg ?_
      rintro (h | h)
      · exact hn h
      · exact Bool.false_ne_true (he.symm.trans h)
    · unfold parseFixedLength
      rw [fillBody_fillBody]

theorem parseUntilClose_resumes (codec : Codec) (b : Bytes) {p : ResponseParser} (he : p.eof = false) :
    Resumes (parseUntilClose codec) b p := by
  refine Or.inr ⟨{ p with body := p.body ++ p.buf, buf := [] }, ?_, ⟨rfl, rfl, rfl, rfl⟩, ?_⟩
  · simp [parseUntilClose, he]
  · unfold parseUntilClose extend
    simp only [List.nil_append, List.append_assoc]

/-! ## Chunked bodies -/

theorem prefix_append_iff {pat l : Bytes} (h : pat.length ≤ l.length) (b : Bytes) :
    pat <+: l ++ b ↔ pat <+: l :=
  ⟨fun hp => List.prefix_of_prefix_length_le hp (List.prefix_append l b) h,
    fun hp => hp.trans (List.prefix_append l b)⟩

theorem parseTrailers_settles (codec : Codec) (b : Bytes) {p : ResponseParser} (he : p.eof = false) :
    parseTrailers codec p = .ok p ∨ Settles (parseTrailers codec) b p := by
  by_cases hc : CRLF <+: p.buf
  · have hlen := hc.length_le
    rw [show CRLF.length = 2 from rfl] at hlen
    refine Or.inr (settles_of_finalize codec (parseTrailers_crlf codec hc) ?_)
    rw [parseTrailers_crlf codec (hc.trans (List.prefix_append _ b)), extend_buf,
      List.drop_append_of_le_length hlen]
    rfl
  · cases hf : find CRLFCRLF p.buf with
    | none =>
      refine Or.inl ?_
      rw [parseTrailers_none codec hc hf, he]
      rfl
    | some e =>
      have hlen := find_add_length_le (by decide) hf
      rw [show CRLFCRLF.length = 4 from rfl] at hlen
      have hc' : ¬ CRLF <+: (p.extend b).buf := by
        rw [extend_buf, prefix_append_iff (by rw [show CRLF.length = 2 from rfl]; omega)]
        exact hc
      refine Or.inr (settles_of_finalize codec (parseTrailers_some codec hc hf) ?_)
      rw [parseTrailers_some codec hc' (find_append_of_some (by decide) b hf), extend_buf,
        List.drop_append_of_le_length hlen]
      rfl

/-- `Resumes` for a part `f` of a round of the loop: a round that goes on does so with the longer
buffer, and a round that waits is taken up by the next one. -/
def RoundResumes (codec : Codec) (f : ResponseParser → Iter ResponseParser Parse) (b : Bytes)
    (p : ResponseParser) : Prop :=
  match f p with
  | .again q => SamePhase p q ∧ f (p.extend b) = .again (q.extend b)
  | .leave x =>
    (Settled x ∧ f (p.extend b) = .leave (lengthen b x)) ∨
      ∃ q, x = .ok q ∧ SamePhase p q ∧ chunkRound codec (q.extend b) = f (p.extend b)

theorem takeChunk_takeChunk (p : ResponseParser) (b : Bytes) :
    takeChunk ((takeChunk p).extend b) = takeChunk (p.extend b) := by
  obtain ⟨ht, hd⟩ := take_append_two p.buf b p.chunkRemaining.toNat
  have hneed : (p.chunkRemaining - (min p.chunkRemaining.toNat p.buf.length : ℕ)).toNat =
      p.chunkRemaining.toNat - p.buf.length := by omega
  unfold takeChunk extend
  simp only [hneed, List.append_assoc, ht, hd, ResponseParser.mk.injEq, true_and, and_true]
  rw [List.length_append, List.length_append, List.length_drop]
  omega

theorem chunkRound_of_data {codec : Codec} {p : ResponseParser} (ht : p.inTrailers = false)
    (ha : p.awaitingChunkSize = false) : chunkRound codec p = chunkData p := by
  simp [chunkRound, ht, ha]

theorem chunkRound_of_size {codec : Codec} {p : ResponseParser} (ht : p.inTrailers = false)
    (ha : p.awaitingChunkSize = true) : chunkRound codec p = chunkSize p := by
  simp [chunkRound, ht, ha]

theorem chunkRound_of_trailers {codec : Codec} {p : ResponseParser} (ht : p.inTrailers = true) :
    chunkRound codec p = .leave (parseTrailers codec p) := by
  simp [chunkRound, ht]

/-- While data is missing, or the two bytes behind it, the round waits; more input is taken up where
it stands. -/
theorem chunkData_waits (codec : Codec) (b : Bytes) {p : ResponseParser} (ht : p.inTrailers = false)
    (ha : p.awaitingChunkSize = false) (h : chunkData p = .leave (.ok (takeChunk p))) :
    RoundResumes codec chunkData b p := by
  unfold RoundResumes
  rw [h]
  refine Or.inr ⟨takeChunk p, rfl, ⟨rfl, rfl, rfl, rfl⟩, ?_⟩
  rw [chunkRound_of_data (p := (takeChunk p).extend b) ht ha]
  unfold chunkData
  rw [takeChunk_takeChunk]

theorem takeChunk_extend {p : ResponseParser} (h : (takeChunk p).chunkRemaining ≤ 0) (b : Bytes) :
    takeChunk (p.extend b) = (takeChunk p).extend b := by
  have hlen : p.chunkRemaining.toNat ≤ p.buf.length := by
    unfold takeChunk at h
    dsimp only at h
    omega
  unfold takeChunk extend
  simp only [List.take_append_of_le_length hlen, List.drop_append_of_le_length hlen,
    List.length_append, ResponseParser.mk.injEq, true_and, and_true]
  omega

theorem chunkData_resumes (codec : Codec) (b : Bytes) {p : ResponseParser} (he : p.eof = false)
    (ht : p.inTrailers = false) (ha : p.awaitingChunkSize = false) :
    RoundResumes codec chunkData b p := by
  have he' : (takeChunk p).eof = false := he
  by_cases hrem : 0 < (takeChunk p).chunkRemaining
  · exact chunkData_waits codec b ht ha (by simp [chunkData, hrem, he'])
  by_cases hshort : (takeChunk p).buf.length < 2
  · exact chunkData_waits codec b ht ha (by simp [chunkData, hrem, hshort, he'])
  have hext := takeChunk_extend (not_lt.mp hrem) b
  have hrem' : ¬ 0 < (takeChunk (p.extend b)).chunkRemaining := by rw [hext]; exact hrem
  have hshort' : ¬ (takeChunk (p.extend b)).buf.length < 2 := by
    rw [hext, extend_buf, List.length_append]; omega
  have hpre : CRLF <+: (takeChunk (p.extend b)).buf ↔ CRLF <+: (takeChunk p).buf := by
    rw [hext, extend_buf]
    exact prefix_append_iff (not_lt.mp hshort) b
  unfold RoundResumes chunkData
  dsimp only
  rw [if_neg hrem, if_neg hrem', if_neg hshort, if_neg hshort']
  by_cases hc : CRLF <+: (takeChunk p).buf
  · rw [if_neg (not_not.mpr hc), if_neg (not_not.mpr (hpre.mpr hc)), hext, extend_buf,
      List.drop_append_of_le_length (not_lt.mp hshort)]
    exact ⟨⟨rfl, rfl, rfl, rfl⟩, rfl⟩
  · rw [if_pos hc, if_pos (fun h => hc (hpre.mp h)), hext]
    exact Or.inl ⟨settled_raise _ _, rfl⟩

theorem chunkSize_resumes (codec : Codec) (b : Bytes) {p : ResponseParser} (he : p.eof = false)
    (ht : p.inTrailers = false) (ha : p.awaitingChunkSize = true) :
    RoundResumes codec chunkSize b p := by
  cases hf : find CRLF p.buf with
  | none =>
    have hwait : chunkSize p = .leave (.ok p) := by simp [chunkSize, hf, he]
    unfold RoundResumes
    rw [hwait]
    exact Or.inr ⟨p, rfl, .refl p, chunkRound_of_size ht ha⟩
  | some idx =>
    have hlen := find_add_length_le (by decide) hf
    rw [show CRLF.length = 2 from rfl] at hlen
    have hf' : find CRLF (p.extend b).buf = some idx := find_append_of_some (by decide) b hf
    have htake : (p.extend b).buf.take idx = p.buf.take idx :=
      List.take_append_of_le_length (by omega)
    have hdrop : (p.extend b).buf.drop (idx + 2) = p.buf.drop (idx + 2) ++ b :=
      List.drop_append_of_le_length hlen
    unfold RoundResumes chunkSize
    rw [hf, hf']
    dsimp only
    rw [htake, hdrop]
    cases intOfBytes 16 (strip isSpaceByte ((p.buf.take idx).takeWhile (· ≠ SEMI))) with
    | none => exact Or.inl ⟨settled_raise _ _, rfl⟩
    | some size =>
      by_cases hz : size = 0
      · dsimp only
        rw [if_pos hz, if_pos hz]
        exact ⟨⟨rfl, rfl, rfl, rfl⟩, rfl⟩
      · dsimp only
        rw [if_neg hz, if_neg hz]
        have hp : SamePhase p { p with
            buf := p.buf.drop (idx + 2), chunkRemaining := size, awaitingChunkSize := false } :=
          ⟨rfl, rfl, rfl, rfl⟩
        have h := chunkData_resumes codec b (p := { p with
          buf := p.buf.drop (idx + 2), chunkRemaining := size, awaitingChunkSize := false }) he ht rfl
        unfold RoundResumes at h
        split at h
        · exact ⟨hp.trans h.1, h.2⟩
        · obtain hs | ⟨q, hx, hpq, hext⟩ := h
          · exact Or.inl hs
          · exact Or.inr ⟨q, hx, hp.trans hpq, hext⟩

theorem chunkRound_resumes (codec : Codec) (b : Bytes) {p : ResponseParser} (he : p.eof = false) :
    RoundResumes codec (chunkRound codec) b p := by
  cases ht : p.inTrailers with
  | true =>
    unfold RoundResumes
    rw [chunkRound_of_trailers ht, chunkRound_of_trailers (p := p.extend b) ht]
    obtain h | ⟨hs, h⟩ := parseTrailers_settles codec b he
    · exact Or.inr ⟨p, h, .refl p, chunkRound_of_trailers ht⟩
    · exact Or.inl ⟨hs, congrArg _ h⟩
  | false =>
    cases ha : p.awaitingChunkSize with
    | true =>
      have h := chunkSize_resumes codec b he ht ha
      unfold RoundResumes at h ⊢
      rwa [chunkRound_of_size ht ha, chunkRound_of_size (p := p.extend b) ht ha]
    | false =>
      have h := chunkData_resumes codec b he ht ha
      unfold RoundResumes at h ⊢
      rwa [chunkRound_of_data ht ha, chunkRound_of_data (p := p.extend b) ht ha]

/-- Induction along the rounds. -/
theorem chunkRound_induction (codec : Codec) {motive : ResponseParser → Prop}
    (h : ∀ p, (∀ q, chunkRound codec p = .again q → motive q) → motive p) (p : ResponseParser) :
    motive p :=
  loop_induction (fun _ _ hr => chunkRound_shortens hr) h p

theorem parseChunked_again {codec : Codec} {p q : ResponseParser} (h : chunkRound codec p = .again q) :
    parseChunked codec p = parseChunked codec q := loop_again _ h

theorem parseChunked_leave {codec : Codec} {p : ResponseParser} {x : Parse}
    (h : chunkRound codec p = .leave x) : parseChunked codec p = x := loop_leave _ h

theorem parseChunked_congr {codec : Codec} {p q : ResponseParser}
    (h : chunkRound codec p = chunkRound codec q) : parseChunked codec p = parseChunked codec q := by
  unfold parseChunked
  rw [loop_eq, loop_eq, h]

/-- Along the rounds: a round that goes on hands its claim to the next one. -/
theorem parseChunked_resumes (codec : Codec) (b : Bytes) {p : ResponseParser} (he : p.eof = false) :
    Resumes (parseChunked codec) b p := by
  induction p using chunkRound_induction codec with
  | h p ih =>
    have hround := chunkRound_resumes codec b he
    unfold RoundResumes at hround
    cases hr : chunkRound codec p with
    | again q =>
      rw [hr] at hround
      obtain ⟨hpq, hext⟩ := hround
      have hq := ih q hr (hpq.eof.trans he)
      unfold Resumes Settles at hq ⊢
      rw [parseChunked_again hr, parseChunked_again hext]
      obtain hs | ⟨r, hr', hqr, h⟩ := hq
      · exact Or.inl hs
      · exact Or.inr ⟨r, hr', hpq.trans hqr, h⟩
    | leave x =>
      rw [hr] at hround
      unfold Resumes Settles
      rw [parseChunked_leave hr]
      obtain ⟨hs, hext⟩ | ⟨q, hx, hpq, hext⟩ := hround
      · exact Or.inl ⟨hs, parseChunked_leave hext⟩
      · exact Or.inr ⟨q, hx, hpq, parseChunked_congr hext⟩

/-! ## The whole parser -/

theorem parseBody_resumes (codec : Codec) (b : Bytes) {p : ResponseParser} (he : p.eof = false) :
    Resumes (parseBody codec) b p := by
  have lift : ∀ f : ResponseParser → Parse,
      (∀ q, q.chunked = p.chunked → q.contentLength = p.contentLength → parseBody codec q = f q) →
        Resumes f b p → Resumes (parseBody codec) b p := by
    rintro f hf (⟨hs, h⟩ | ⟨q, hq, hpq, h⟩)
    · refine Or.inl ⟨?_, ?_⟩
      · rwa [hf p rfl rfl]
      · rwa [hf p rfl rfl, hf (p.extend b) rfl rfl]
    · refine Or.inr ⟨q, ?_, hpq, ?_⟩
      · rwa [hf p rfl rfl]
      · rwa [hf (q.extend b) hpq.chunked hpq.contentLength, hf (p.extend b) rfl rfl]
  cases hc : p.chunked with
  | true =>
    exact lift _ (fun q h _ => by simp [parseBody, h, hc]) (parseChunked_resumes codec b he)
  | false =>
    cases hn : p.contentLength with
    | some n =>
      exact lift _ (fun q h h' => by simp [parseBody, h, hc, h', hn])
        (parseFixedLength_resumes codec n b he)
    | none =>
      exact lift _ (fun q h h' => by simp [parseBody, h, hc, h', hn])
        (parseUntilClose_resumes codec b he)

theorem parseHeaderLines_extend (b : Bytes) : ∀ (lines : List Bytes) (p : ResponseParser),
    parseHeaderLines lines (p.extend b) = lengthen b (parseHeaderLines lines p) := by
  intro lines
  induction lines with
  | nil => intro p; rfl
  | cons raw lines ih =>
    intro p
    unfold parseHeaderLines
    rw [show (p.extend b).headers = p.headers from rfl]
    cases parseHeaderLine p.headers raw with
    | ok h => exact ih { p with headers := h }
    | error msg => rfl

theorem resolveFraming_extend (b : Bytes) (p : ResponseParser) :
    resolveFraming (p.extend b) = lengthen b (resolveFraming p) := by
  unfold resolveFraming
  rw [show (p.extend b).headers = p.headers from rfl,
    show (p.extend b).statusCode = p.statusCode from rfl]
  dsimp only
  split_ifs
  · rfl
  · rfl
  · cases p.headers.get (str "Content-Length") with
    | none => rfl
    | some cl =>
      dsimp only
      cases intOfStr 10 (strip isSpace cl) <;> rfl

theorem readBlock_extend (b block : Bytes) (p : ResponseParser) :
    readBlock block (p.extend b) = lengthen b (readBlock block p) := by
  unfold readBlock
  rw [parseHeaderLines_extend, lengthen_bind]
  intro q
  rw [resolveFraming_extend, lengthen_bind]
  intro r
  rfl

theorem parseHeaderLines_ok {lines : List Bytes} : ∀ {p q : ResponseParser},
    parseHeaderLines lines p = .ok q → ∃ headers, q = { p with headers } := by
  induction lines with
  | nil => rintro p q ⟨⟩; exact ⟨p.headers, rfl⟩
  | cons raw lines ih =>
    intro p q h
    unfold parseHeaderLines at h
    split at h
    · rename_i h' _
      exact ih (p := { p with headers := h' }) h
    · cases h

/-- The framing is one of three. -/
theorem resolveFraming_ok {p q : ResponseParser} (h : resolveFraming p = .ok q) :
    q = { p with chunked := true } ∨ (∃ n, q = { p with contentLength := some n }) ∨
      q = { p with readUntilClose := true } := by
  unfold resolveFraming at h
  dsimp only at h
  split_ifs at h
  · cases h; exact .inl rfl
  · cases h; exact .inr (.inl ⟨0, rfl⟩)
  · split at h
    · split at h
      · cases h; exact .inr (.inl ⟨_, rfl⟩)
      · cases h
    · cases h; exact .inr (.inr rfl)

theorem readBlock_ok {block : Bytes} {p q : ResponseParser} (h : readBlock block p = .ok q) :
    q.state = .body ∧ q.eof = p.eof := by
  unfold readBlock at h
  cases hl : parseHeaderLines (split CRLF block) p with
  | error e => rw [hl] at h; cases h
  | ok p₁ =>
    rw [hl] at h
    cases hr : resolveFraming p₁ with
    | error e => change (resolveFraming p₁ >>= _) = _ at h; rw [hr] at h; cases h
    | ok p₂ =>
      change (resolveFraming p₁ >>= _) = _ at h
      rw [hr] at h
      cases h
      obtain ⟨headers, rfl⟩ := parseHeaderLines_ok hl
      obtain rfl | ⟨n, rfl⟩ | rfl := resolveFraming_ok hr <;> exact ⟨rfl, rfl⟩

/-- The block found in a buffer is found in a longer one. -/
theorem headerBlock_append {buf block rest : Bytes} (h : headerBlock buf = some (block, rest))
    (b : Bytes) : headerBlock (buf ++ b) = some (block, rest ++ b) := by
  unfold headerBlock at h ⊢
  by_cases hc : CRLF <+: buf
  · have hlen := hc.length_le
    rw [show CRLF.length = 2 from rfl] at hlen
    rw [if_pos hc, Option.some.injEq, Prod.mk.injEq] at h
    obtain ⟨rfl, rfl⟩ := h
    rw [if_pos (hc.trans (List.prefix_append _ b)), List.drop_append_of_le_length hlen]
  · rw [if_neg hc, Option.map_eq_some_iff] at h
    obtain ⟨e, he, hbr⟩ := h
    rw [Prod.mk.injEq] at hbr
    obtain ⟨rfl, rfl⟩ := hbr
    have hlen := find_add_length_le (by decide) he
    rw [show CRLFCRLF.length = 4 from rfl] at hlen
    have hc' : ¬ CRLF <+: buf ++ b := by
      rw [prefix_append_iff (by rw [show CRLF.length = 2 from rfl]; omega)]
      exact hc
    rw [if_neg hc', find_append_of_some (by decide) b he, Option.map_some,
      List.take_append_of_le_length (by omega), List.drop_append_of_le_length hlen]

/-! ### `_parse`, state by state -/

theorem inState_same {s : ParserState} {f : ResponseParser → Parse} {p : ResponseParser}
    (h : p.state = s) : inState s f p = f p := if_pos h

theorem inState_other {s : ParserState} {f : ResponseParser → Parse} {p : ResponseParser}
    (h : p.state ≠ s) : inState s f p = .ok p := if_neg h

theorem parse_done (codec : Codec) {p : ResponseParser} (h : p.state = .done) :
    parse codec p = .ok p := by
  simp [parse, inState, h]

theorem parse_body (codec : Codec) {p : ResponseParser} (h : p.state = .body) :
    parse codec p = parseBody codec p := by
  simp [parse, inState, h]

theorem parse_headers (codec : Codec) {p : ResponseParser} (h : p.state = .headers) :
    parse codec p = parseHeaders codec p >>= inState .body (parseBody codec) := by
  simp only [parse, ok_bind, inState_other (s := .status) (by rw [h]; decide), inState_same h]

theorem parse_status (codec : Codec) {p : ResponseParser} (h : p.state = .status) :
    parse codec p = parseStatusLine p >>= fun q =>
      inState .headers (parseHeaders codec) q >>= inState .body (parseBody codec) := by
  simp only [parse, inState_same h]

/-- While input may still come, a second run of the body method changes nothing. -/
theorem parseBody_again (codec : Codec) {p : ResponseParser} (he : p.eof = false) (hs : p.state = .body) :
    parseBody codec p >>= inState .body (parseBody codec) = parseBody codec p := by
  cases hp : parseBody codec p with
  | error e => rfl
  | ok q =>
    rw [ok_bind]
    obtain ⟨hset, -⟩ | ⟨r, hr, hpr, h⟩ := parseBody_resumes codec [] he
    · exact inState_other (by rw [hset q hp]; decide)
    · rw [hp, Except.ok.injEq] at hr
      subst hr
      rw [extend_nil, extend_nil, hp] at h
      rw [inState_same (hpr.state.trans hs), h]

theorem parse_headers_none (codec : Codec) {p : ResponseParser} (he : p.eof = false)
    (hs : p.state = .headers) (hb : headerBlock p.buf = none) : parse codec p = .ok p := by
  have hp : parseHeaders codec p = .ok p := by simp [parseHeaders, hb, he]
  rw [parse_headers codec hs, hp, ok_bind, inState_other (by rw [hs]; decide)]

/-- A whole header block is read at once, and the parser goes on with the body. -/
theorem parse_headers_some (codec : Codec) {p : ResponseParser} {block rest : Bytes}
    (he : p.eof = false) (hs : p.state = .headers) (hb : headerBlock p.buf = some (block, rest)) :
    parse codec p = readBlock block { p with buf := rest } >>= parse codec := by
  have hp : parseHeaders codec p = readBlock block { p with buf := rest } >>= parseBody codec := by
    simp only [parseHeaders, hb]
  rw [parse_headers codec hs, hp, bind_assoc]
  cases hr : readBlock block { p with buf := rest } with
  | error e => rfl
  | ok q =>
    obtain ⟨hqs, hqe⟩ := readBlock_ok hr
    rw [ok_bind, ok_bind, parseBody_again codec (hqe.trans he) hqs, parse_body codec hqs]

theorem parse_status_none (codec : Codec) {p : ResponseParser} (he : p.eof = false)
    (hs : p.state = .status) (hf : find CRLF p.buf = none) : parse codec p = .ok p := by
  have hp : parseStatusLine p = .ok p := by simp [parseStatusLine, hf, he]
  simp [parse_status codec hs, hp, inState, hs]

theorem readStatusLine_ok {line : Bytes} {p q : ResponseParser} (h : readStatusLine line p = .ok q) :
    q.state = .headers ∧ q.eof = p.eof := by
  unfold readStatusLine at h
  split at h
  · cases h
  · cases h; exact ⟨rfl, rfl⟩

theorem readStatusLine_extend (b line : Bytes) (p : ResponseParser) :
    readStatusLine line (p.extend b) = lengthen b (readStatusLine line p) := by
  unfold readStatusLine
  cases matchStatusLine line <;> rfl

/-- A whole status line is read at once, and the parser goes on with the header block. -/
theorem parse_status_some (codec : Codec) {p : ResponseParser} {idx : ℕ} (hs : p.state = .status)
    (hf : find CRLF p.buf = some idx) : parse codec p =
      readStatusLine (p.buf.take idx) { p with buf := p.buf.drop (idx + 2) } >>= parse codec := by
  have hp : parseStatusLine p =
      readStatusLine (p.buf.take idx) { p with buf := p.buf.drop (idx + 2) } := by
    simp only [parseStatusLine, hf]
  rw [parse_status codec hs, hp]
  cases hr : readStatusLine (p.buf.take idx) { p with buf := p.buf.drop (idx + 2) } with
  | error e => rfl
  | ok q =>
    have hq := (readStatusLine_ok hr).1
    rw [ok_bind, ok_bind, inState_same hq, parse_headers codec hq]

/-! ### Resuming `_parse` -/

/-- `_parse` on a longer buffer has the outcome of `_parse` resumed when the rest has arrived. -/
def ParseResumes (codec : Codec) (b : Bytes) (p : ResponseParser) : Prop :=
  outcome (parse codec (p.extend b)) = outcome (parse codec p >>= fun q => parse codec (q.extend b))

theorem parseResumes_of_wait {codec : Codec} {p : ResponseParser} (h : parse codec p = .ok p)
    (b : Bytes) : ParseResumes codec b p := by
  unfold ParseResumes
  rw [h, ok_bind]

theorem parseResumes_body (codec : Codec) (b : Bytes) {p : ResponseParser} (he : p.eof = false)
    (hs : p.state = .body) : ParseResumes codec b p := by
  unfold ParseResumes
  rw [parse_body codec hs, parse_body codec (p := p.extend b) hs]
  obtain ⟨hset, h⟩ | ⟨q, hq, hpq, h⟩ := parseBody_resumes codec b he
  · rw [h]
    cases hp : parseBody codec p with
    | error e => rfl
    | ok q =>
      rw [ok_bind, lengthen_ok, parse_done codec (p := q.extend b) (hset q hp)]
  · rw [hq, ok_bind, parse_body codec (p := q.extend b) (hpq.state.trans hs), h]

/-- A step that reads a whole element commutes with more input. -/
theorem parseResumes_of_step {codec : Codec} {b : Bytes} {p : ResponseParser} {x : Parse}
    (h : parse codec p = x >>= parse codec)
    (h' : parse codec (p.extend b) = lengthen b x >>= parse codec)
    (hx : ∀ q, x = .ok q → ParseResumes codec b q) : ParseResumes codec b p := by
  unfold ParseResumes
  rw [h, h']
  cases x with
  | error e => rfl
  | ok q => exact hx q rfl

theorem parseResumes_headers (codec : Codec) (b : Bytes) {p : ResponseParser} (he : p.eof = false)
    (hs : p.state = .headers) : ParseResumes codec b p := by
  cases hb : headerBlock p.buf with
  | none => exact parseResumes_of_wait (parse_headers_none codec he hs hb) b
  | some br =>
    obtain ⟨block, rest⟩ := br
    refine parseResumes_of_step (parse_headers_some codec he hs hb) ?_ fun q hq => ?_
    · rw [parse_headers_some codec (p := p.extend b) he hs (headerBlock_append hb b)]
      exact congrArg (· >>= parse codec) (readBlock_extend b block { p with buf := rest })
    · obtain ⟨hqs, hqe⟩ := readBlock_ok hq
      exact parseResumes_body codec b (hqe.trans he) hqs

theorem parseResumes_status (codec : Codec) (b : Bytes) {p : ResponseParser} (he : p.eof = false)
    (hs : p.state = .status) : ParseResumes codec b p := by
  cases hf : find CRLF p.buf with
  | none => exact parseResumes_of_wait (parse_status_none codec he hs hf) b
  | some idx =>
    have hlen := find_add_length_le (by decide) hf
    rw [show CRLF.length = 2 from rfl] at hlen
    refine parseResumes_of_step (parse_status_some codec hs hf) ?_ fun q hq => ?_
    · rw [parse_status_some codec (p := p.extend b) hs (find_append_of_some (by decide) b hf),
        extend_buf, List.take_append_of_le_length (by omega), List.drop_append_of_le_length hlen,
        ← readStatusLine_extend]
      rfl
    · obtain ⟨hqs, hqe⟩ := readStatusLine_ok hq
      exact parseResumes_headers codec b (hqe.trans he) hqs

theorem parse_resumes (codec : Codec) (b : Bytes) {p : ResponseParser} (he : p.eof = false) :
    ParseResumes codec b p := by
  cases hs : p.state with
  | status => exact parseResumes_status codec b he hs
  | headers => exact parseResumes_headers codec b he hs
  | body => exact parseResumes_body codec b he hs
  | done => exact parseResumes_of_wait (parse_done codec hs) b

/-! ## Feeding in pieces -/

/-- The parser as a reader of bytes; input may come until `feed_eof`. -/
def reader (codec : Codec) : Reader ParseExn ResponseParser UInt8 where
  extend := extend
  run := parse codec
  ready := fun p => p.eof = false
  extend_nil := extend_nil
  extend_append := extend_extend
  ready_extend := fun _ _ h => h
  resume := fun _ b he => parse_resumes codec b he

theorem feedAll_eq (codec : Codec) (pieces : List Bytes) : ∀ p : ResponseParser,
    feedAll codec p pieces = (reader codec).feedAll p pieces := by
  induction pieces with
  | nil => intro p; rfl
  | cons d ds ih => intro p; exact congrArg (feed codec p d >>= ·) (funext ih)

/-- A fresh parser, fed in pieces, ends as one fed at once. -/
theorem outcome_feedAll (codec : Codec) (pieces : List Bytes) :
    outcome (feedAll codec fresh pieces) = outcome (feed codec fresh pieces.flatten) := by
  rw [feedAll_eq]
  have hrest : parse codec fresh = .ok fresh := parse_status_none codec rfl rfl rfl
  exact (reader codec).feedAll_agree (s := fresh) rfl hrest pieces

theorem feed_of_complete (codec : Codec) {p : ResponseParser} (h : p.isComplete) (d : Bytes) :
    feed codec p d = .ok (p.extend d) :=
  parse_done codec (p := p.extend d) (of_decide_eq_true h)

/-- What comes behind a finished response stays in the buffer. -/
theorem feed_append_of_complete {codec : Codec} {p q : ResponseParser} {a : Bytes} (he : p.eof = false)
    (h : feed codec p a = .ok q) (hc : q.isComplete) (b : Bytes) :
    feed codec p (a ++ b) = .ok (q.extend b) := by
  have hparse : parse codec (p.extend a) = .ok q := h
  have hresume : outcome (parse codec ((p.extend a).extend b)) = _ :=
    parse_resumes codec b (p := p.extend a) he
  rw [hparse, ok_bind, parse_done codec (p := q.extend b) (of_decide_eq_true hc), extend_extend,
    outcome_ok, outcome_eq_ok_iff] at hresume
  exact hresume

theorem feedEof_of_complete (codec : Codec) {p : ResponseParser} (h : p.isComplete) :
    feedEof codec p = .ok { p with eof := true } :=
  parse_done codec (p := { p with eof := true }) (of_decide_eq_true h)

/-- **Chunking independence.** Pieces and their concatenation have the same outcome on a fresh
parser: the same error, or the same object with all its fields; also when the end of the stream
follows. A complete parser keeps its response whatever comes. -/
theorem chunking_independence (codec : Codec) :
    (∀ pieces : List Bytes,
      outcome (feedAll codec fresh pieces) = outcome (feed codec fresh pieces.flatten) ∧
      outcome (feedAll codec fresh pieces >>= feedEof codec) =
        outcome (feed codec fresh pieces.flatten >>= feedEof codec)) ∧
    ∀ (p : ResponseParser) (d : Bytes), p.isComplete →
      (∃ q, feed codec p d = .ok q ∧ q.isComplete ∧ q.response = p.response) ∧
      ∃ q, feedEof codec p = .ok q ∧ q.isComplete ∧ q.response = p.response := by
  refine ⟨fun pieces => ⟨outcome_feedAll codec pieces, ?_⟩, fun p d h => ⟨?_, ?_⟩⟩
  · exact outcome_bind_congr (outcome_feedAll codec pieces) fun _ _ => rfl
  · exact ⟨p.extend d, feed_of_complete codec h d, h, rfl⟩
  · exact ⟨{ p with eof := true }, feedEof_of_complete codec h, h, rfl⟩

end ResponseParser

end Fizzpy
