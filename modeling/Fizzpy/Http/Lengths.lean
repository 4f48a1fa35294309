import Fizzpy.Http.Bodyless
import Fizzpy.Http.Raising

/-!
# Lengths and their grammar

The protocol writes a length in digits and ends the transfer codings with `chunked`. The parser asks
`int`, and looks for `chunked` anywhere. `inGrammar_iff` says what a response must not hold for the
two to come to the same.
-/

namespace Fizzpy

open Foundation ResponseParser

/-- The last of the transfer codings is `chunked`. -/
def LastChunked (h : Headers) : Prop :=
  lower (strip isSpace ((split [','] ((h.get (str "Transfer-Encoding")).getD [])).getLastD [])) =
    str "chunked"

/-- A chunk whose size is written as the protocol has it, in any line. -/
structure SizedChunk where
  line : Bytes
  data : Bytes
  crlfFree : CrlfFree line
  hex : IsHex (sizeToken line)
  size_eq : intOfBytes 16 (sizeToken line) = some (data.length : ℤ)
  data_ne : data ≠ []

def SizedChunk.encode (c : SizedChunk) : Bytes := c.line ++ CRLF ++ (c.data ++ CRLF)

/-- The bytes of these chunks and one more size line. -/
def upToSize (chunks : List SizedChunk) (line : Bytes) : Bytes :=
  chunks.flatMap SizedChunk.encode ++ (line ++ CRLF)

namespace ResponseParser

/-! ## What is claimed -/

def Raises (x : Parse) : Prop := ∃ msg p, x = .error (.httpParseError msg, p)

/-- Only values of the grammar say where the body ends, and a length is never negative. -/
structure InGrammar (codec : Codec) (l : StartLine) (fields : List FoldedField) (body : Bytes) :
    Prop where
  codings : (left (feed codec fresh (headBytes l ⟨[], fields⟩ ++ body))).chunked = true →
    LastChunked (readFields fields)
  length : ∀ cl, (readFields fields).get (str "Content-Length") = some cl → ¬ Bodyless l.status →
    (left (feed codec fresh (headBytes l ⟨[], fields⟩ ++ body))).chunked = false →
    IsDecimal (strip isSpace cl) ∨ Raises (feed codec fresh (headBytes l ⟨[], fields⟩ ++ body))
  sizes : (left (feed codec fresh (headBytes l ⟨[], fields⟩ ++ body))).chunked = true →
    ∀ chunks line, CrlfFree line → upToSize chunks line <+: body → IsHex (sizeToken line) ∨
      Raises (feed codec fresh (headBytes l ⟨[], fields⟩ ++ upToSize chunks line))
  length_nonneg : ∀ n, (left (feed codec fresh (headBytes l ⟨[], fields⟩ ++ body))).contentLength =
    some n → 0 ≤ n
  size_nonneg : 0 ≤ (left (feed codec fresh (headBytes l ⟨[], fields⟩ ++ body))).chunkRemaining

/-- The response holds nothing that the parser takes and the grammar does not. -/
structure Strict (l : StartLine) (fields : List FoldedField) (body : Bytes) : Prop where
  codings : SaysChunked (readFields fields) → LastChunked (readFields fields)
  length : ¬ SaysChunked (readFields fields) → ¬ Bodyless l.status →
    ∀ cl, (readFields fields).get (str "Content-Length") = some cl → ¬ LenientDecimal (strip isSpace cl)
  sizes : SaysChunked (readFields fields) → ∀ chunks line, CrlfFree line →
    upToSize chunks line <+: body → ¬ LenientHex (sizeToken line)

/-! ## The framing -/

theorem chunked_resolveFraming {p : ResponseParser} (h : ¬ SaysChunked p.headers) :
    (left (resolveFraming p)).chunked = p.chunked := by
  unfold resolveFraming
  dsimp only
  rw [if_neg fun hc => h hc.2]
  split_ifs
  · rfl
  · split
    · split <;> rfl
    · rfl

/-- The framing is settled by the head alone. -/
theorem keepsHead_feed_block (codec : Codec) (l : StartLine) (fields : List FoldedField) (rest : Bytes) :
    SameHead (left (resolveFraming (afterBlock l ⟨[], fields⟩ rest)))
      (left (feed codec fresh (headBytes l ⟨[], fields⟩ ++ rest))) := by
  rw [feed_block codec l rfl]
  cases resolveFraming (afterBlock l ⟨[], fields⟩ rest) with
  | error e => exact .refl _
  | ok p =>
    rw [ok_bind, parse_body codec rfl]
    exact SameHead.trans (q := { p with state := .body }) ⟨rfl, rfl, rfl, rfl⟩
      (keepsHead_parseBody codec { p with state := .body })

variable (codec : Codec) {l : StartLine} {fields : List FoldedField}

theorem chunked_feed_iff (rest : Bytes) :
    (left (feed codec fresh (headBytes l ⟨[], fields⟩ ++ rest))).chunked = true ↔
      SaysChunked (readFields fields) := by
  rw [(keepsHead_feed_block codec l fields rest).chunked]
  by_cases h : SaysChunked (readFields fields)
  · rw [resolveFraming_saysChunked (p := afterBlock l ⟨[], fields⟩ rest) h]
    exact iff_of_true rfl h
  · rw [chunked_resolveFraming (p := afterBlock l ⟨[], fields⟩ rest) h]
    exact iff_of_false Bool.false_ne_true h

theorem resolveFraming_used {p : ResponseParser} {cl : Str} (h : ¬ SaysChunked p.headers)
    (hs : ¬ Bodyless p.statusCode) (hcl : p.headers.get (str "Content-Length") = some cl) :
    resolveFraming p = match intOfStr 10 (strip isSpace cl) with
      | some n => .ok { p with contentLength := some n }
      | none => raise (str "invalid Content-Length: " ++ reprStr cl) p := by
  have hs : ¬ (p.statusCode < 200 ∨ p.statusCode = 204 ∨ p.statusCode = 304) := hs
  unfold resolveFraming
  dsimp only
  rw [if_neg fun hc => h hc.2, if_neg hs]
  cases hn : intOfStr 10 (strip isSpace cl) <;> simp only [hcl, hn]

theorem resolveFraming_close {p : ResponseParser} (h : ¬ SaysChunked p.headers)
    (hs : ¬ Bodyless p.statusCode) (hcl : p.headers.get (str "Content-Length") = none) :
    resolveFraming p = .ok { p with readUntilClose := true } := by
  have hs : ¬ (p.statusCode < 200 ∨ p.statusCode = 204 ∨ p.statusCode = 304) := hs
  unfold resolveFraming
  dsimp only
  rw [if_neg fun hc => h hc.2, if_neg hs, hcl]

theorem not_raises_finalize (p : ResponseParser) : ¬ Raises (finalize codec p) := by
  rintro ⟨msg, q, h⟩
  obtain ⟨-, hf⟩ | ⟨-, hf⟩ := finalize_eq codec p <;> rw [hf] at h <;> cases h

theorem not_raises_parseFixedLength (n : ℤ) (p : ResponseParser) :
    ¬ Raises (parseFixedLength codec n p) := by
  unfold parseFixedLength
  dsimp only
  split_ifs
  · exact not_raises_finalize codec _
  · rintro ⟨msg, q, h⟩
    cases h

/-- A length that is used is refused exactly when `int` refuses it. -/
theorem raises_used_iff {cl : Str} (h : ¬ SaysChunked (readFields fields)) (hs : ¬ Bodyless l.status)
    (hcl : (readFields fields).get (str "Content-Length") = some cl) (rest : Bytes) :
    Raises (feed codec fresh (headBytes l ⟨[], fields⟩ ++ rest)) ↔
      intOfStr 10 (strip isSpace cl) = none := by
  rw [feed_block codec l rfl,
    resolveFraming_used (p := afterBlock l ⟨[], fields⟩ rest) h hs hcl]
  cases intOfStr 10 (strip isSpace cl) with
  | none => exact iff_of_true ⟨_, _, rfl⟩ rfl
  | some n =>
    refine iff_of_false ?_ nofun
    dsimp only
    rw [ok_bind, parse_body codec rfl, parseBody_length codec (n := n) rfl rfl]
    exact not_raises_parseFixedLength codec n _

theorem used_iff {cl : Str} (h : ¬ SaysChunked (readFields fields)) (hs : ¬ Bodyless l.status)
    (hcl : (readFields fields).get (str "Content-Length") = some cl) (rest : Bytes) :
    (IsDecimal (strip isSpace cl) ∨ Raises (feed codec fresh (headBytes l ⟨[], fields⟩ ++ rest))) ↔
      ¬ LenientDecimal (strip isSpace cl) := by
  rw [raises_used_iff codec h hs hcl]
  cases hn : intOfStr 10 (strip isSpace cl) with
  | none =>
    refine iff_of_true (.inr rfl) fun hl => ?_
    rw [LenientDecimal, hn] at hl
    cases hl.1
  | some n =>
    rw [← (isDecimal_iff hn (strip_strip _ _)).1]
    exact or_iff_left nofun

/-! ## The chunks -/

theorem parseChunked_sized (p : ResponseParser) (chunks : List SizedChunk) (rest : Bytes) :
    ∀ body : Bytes, parseChunked codec
        (betweenChunks p body (chunks.flatMap SizedChunk.encode ++ rest)) =
      parseChunked codec (betweenChunks p (body ++ chunks.flatMap SizedChunk.data) rest) := by
  induction chunks with
  | nil => intro body; simp
  | cons c chunks ih =>
    intro body
    have hchunk := parseChunked_data codec p body c.crlfFree c.size_eq c.data_ne
      (chunks.flatMap SizedChunk.encode ++ rest)
    rw [List.flatMap_cons, List.flatMap_cons, ← List.append_assoc body, ← ih, ← hchunk]
    simp only [SizedChunk.encode, List.append_assoc]

/-- Behind its size line a chunk is waited for. -/
theorem chunkData_waiting {p : ResponseParser} (hb : p.buf = []) (he : p.eof = false) :
    ∃ q, chunkData p = .leave (.ok q) := by
  have he : (takeChunk p).eof = false := he
  have hbuf : (takeChunk p).buf = [] := by
    show p.buf.drop p.chunkRemaining.toNat = []
    rw [hb, List.drop_nil]
  have hshort : (takeChunk p).buf.length < 2 := by
    rw [hbuf]
    decide
  unfold chunkData
  dsimp only
  rw [he, if_pos hshort, if_neg Bool.false_ne_true, if_neg Bool.false_ne_true, ite_self]
  exact ⟨takeChunk p, rfl⟩

theorem parseTrailers_waiting {p : ResponseParser} (hb : p.buf = []) (he : p.eof = false) :
    parseTrailers codec p = .ok p := by
  rw [parseTrailers_none codec (by rw [hb]; decide) (by rw [hb]; rfl), he]
  rfl

theorem not_raises_ok (q : ResponseParser) : ¬ Raises (.ok q) := by
  rintro ⟨msg, r, h⟩
  cases h

/-- A size line that has just come is refused exactly when `int` refuses its size. -/
theorem raises_size_iff (h : SaysChunked (readFields fields)) (chunks : List SizedChunk) {line : Bytes}
    (hfree : CrlfFree line) :
    Raises (feed codec fresh (headBytes l ⟨[], fields⟩ ++ upToSize chunks line)) ↔
      intOfBytes 16 (sizeToken line) = none := by
  let p : ResponseParser :=
    { afterBlock l ⟨[], fields⟩ [] with chunked := true, state := .body }
  let q : ResponseParser := betweenChunks p (chunks.flatMap SizedChunk.data) (line ++ CRLF ++ [])
  have hfeed : feed codec fresh (headBytes l ⟨[], fields⟩ ++ upToSize chunks line) =
      parseChunked codec q := by
    rw [feed_block codec l rfl,
      resolveFraming_saysChunked (p := afterBlock l ⟨[], fields⟩ (upToSize chunks line)) h, ok_bind,
      parse_body codec rfl, parseBody_chunked codec rfl]
    show parseChunked codec (betweenChunks p [] (upToSize chunks line)) = parseChunked codec q
    rw [upToSize, ← List.append_nil (line ++ CRLF)]
    exact parseChunked_sized codec p chunks (line ++ CRLF ++ []) []
  have hround : chunkRound codec q = _ :=
    (chunkRound_of_size rfl rfl).trans (chunkSize_line (p := q) rfl hfree)
  rw [hfeed]
  cases hn : intOfBytes 16 (sizeToken line) with
  | none =>
    rw [hn] at hround
    rw [parseChunked_leave hround]
    exact iff_of_true ⟨_, _, rfl⟩ rfl
  | some size =>
    rw [hn] at hround
    dsimp only at hround
    refine iff_of_false ?_ nofun
    by_cases hzero : size = 0
    · rw [if_pos hzero] at hround
      rw [parseChunked_again hround, parseChunked_leave (chunkRound_of_trailers rfl),
        parseTrailers_waiting codec rfl rfl]
      exact not_raises_ok _
    · rw [if_neg hzero] at hround
      obtain ⟨r, hr⟩ := chunkData_waiting (p := { q with
        buf := [], chunkRemaining := size, awaitingChunkSize := false }) rfl rfl
      rw [parseChunked_leave (hround.trans hr)]
      exact not_raises_ok r

theorem size_iff (h : SaysChunked (readFields fields)) (chunks : List SizedChunk) {line : Bytes}
    (hfree : CrlfFree line) :
    (IsHex (sizeToken line) ∨
        Raises (feed codec fresh (headBytes l ⟨[], fields⟩ ++ upToSize chunks line))) ↔
      ¬ LenientHex (sizeToken line) := by
  rw [raises_size_iff codec h chunks hfree]
  cases hn : intOfBytes 16 (sizeToken line) with
  | none =>
    refine iff_of_true (.inr rfl) fun hl => ?_
    rw [LenientHex, hn] at hl
    cases hl.1
  | some n =>
    rw [← (isHex_iff hn (strip_strip _ _)).1]
    exact or_iff_left nofun

/-! ## No length is negative -/

theorem chunkRemaining_finalize (p : ResponseParser) :
    (left (finalize codec p)).chunkRemaining = p.chunkRemaining := by
  unfold finalize
  split <;> rfl

theorem chunkRemaining_parseTrailers (p : ResponseParser) :
    (left (parseTrailers codec p)).chunkRemaining = p.chunkRemaining := by
  by_cases hb : CRLF <+: p.buf
  · rw [parseTrailers_crlf codec hb, chunkRemaining_finalize]
  · cases hf : find CRLFCRLF p.buf with
    | none =>
      rw [parseTrailers_none codec hb hf]
      split_ifs
      · exact chunkRemaining_finalize codec p
      · rfl
    | some e => rw [parseTrailers_some codec hb hf, chunkRemaining_finalize]

/-- The data of a chunk: it is still waited for, or it was all there with its CRLF. -/
inductive TakesChunk (p : ResponseParser) : Iter ResponseParser Parse → Prop
  | waits {x : Parse} (h : 0 ≤ (left x).chunkRemaining) : TakesChunk p (.leave x)
  | whole {q : ResponseParser} (data : Bytes) (hlen : (data.length : ℤ) = p.chunkRemaining)
      (hbuf : p.buf = data ++ CRLF ++ q.buf) (hrem : q.chunkRemaining = 0)
      (ha : q.awaitingChunkSize = true) (ht : q.inTrailers = p.inTrailers) : TakesChunk p (.again q)

theorem chunkData_takes {p : ResponseParser} (h : 0 ≤ p.chunkRemaining) :
    TakesChunk p (chunkData p) := by
  have hrem : (takeChunk p).chunkRemaining =
      p.chunkRemaining - (min p.chunkRemaining.toNat p.buf.length : ℕ) := rfl
  have hnonneg : 0 ≤ (takeChunk p).chunkRemaining := by omega
  unfold chunkData
  dsimp only
  by_cases hmore : 0 < (takeChunk p).chunkRemaining
  · rw [if_pos hmore]
    refine .waits ?_
    split_ifs <;> exact hnonneg
  rw [if_neg hmore]
  by_cases hshort : (takeChunk p).buf.length < 2
  · rw [if_pos hshort]
    refine .waits ?_
    split_ifs <;> exact hnonneg
  rw [if_neg hshort]
  by_cases hcr : CRLF <+: (takeChunk p).buf
  · rw [if_neg (not_not.mpr hcr)]
    obtain ⟨rest, hrest⟩ := hcr
    refine .whole (p.buf.take p.chunkRemaining.toNat) ?_ ?_ ?_ rfl rfl
    · rw [List.length_take]
      omega
    · have hdrop : p.buf.drop p.chunkRemaining.toNat = CRLF ++ rest := hrest.symm
      have hbuf : (takeChunk p).buf.drop 2 = rest := by
        rw [← hrest]
        rfl
      show p.buf = _ ++ CRLF ++ (takeChunk p).buf.drop 2
      rw [hbuf, List.append_assoc, ← hdrop, List.take_append_drop]
    · show (takeChunk p).chunkRemaining = 0
      omega
  · rw [if_pos hcr]
    exact .waits hnonneg

/-- While the size lines hold nothing lenient, the data of a chunk is never negative. `body` is what
stands behind the head, and the whole chunks at its front have been read. -/
theorem size_nonneg {body : Bytes}
    (hstrict : ∀ chunks line, CrlfFree line → upToSize chunks line <+: body →
      ¬ LenientHex (sizeToken line)) (p : ResponseParser) (hrem : p.chunkRemaining = 0)
    (hread : p.inTrailers = false → p.awaitingChunkSize = true ∧
      ∃ chunks : List SizedChunk, body = chunks.flatMap SizedChunk.encode ++ p.buf) :
    0 ≤ (left (parseChunked codec p)).chunkRemaining := by
  induction p using chunkRound_induction codec with
  | h p ih =>
    cases ht : p.inTrailers with
    | true =>
      rw [parseChunked_leave (chunkRound_of_trailers ht), chunkRemaining_parseTrailers, hrem]
    | false =>
      obtain ⟨ha, chunks, hchunks⟩ := hread ht
      have hround : chunkRound codec p = chunkSize p := chunkRound_of_size ht ha
      cases hf : find CRLF p.buf with
      | none =>
        have hwait : ∃ x, chunkSize p = .leave x ∧ left x = p := by
          unfold chunkSize
          rw [hf]
          dsimp only
          split_ifs <;> exact ⟨_, rfl, rfl⟩
        obtain ⟨x, hx, hleft⟩ := hwait
        rw [parseChunked_leave (hround.trans hx), hleft, hrem]
      | some idx =>
        obtain ⟨hfree, hbuf⟩ := line_of_find hf
        rw [chunkSize_line hbuf hfree] at hround
        cases hn : intOfBytes 16 (sizeToken (p.buf.take idx)) with
        | none =>
          rw [hn] at hround
          rw [parseChunked_leave hround]
          exact hrem.ge
        | some size =>
          rw [hn] at hround
          dsimp only at hround
          have hprefix : upToSize chunks (p.buf.take idx) <+: body := by
            refine ⟨p.buf.drop (idx + 2), ?_⟩
            rw [hchunks, upToSize, List.append_assoc, ← hbuf]
          obtain ⟨hhex, hsize⟩ := isHex_iff hn (strip_strip _ _)
          have hhex := hhex.mpr (hstrict chunks _ hfree hprefix)
          by_cases hzero : size = 0
          · rw [if_pos hzero] at hround
            rw [parseChunked_again hround]
            exact ih _ hround hrem nofun
          · rw [if_neg hzero] at hround
            have htakes := chunkData_takes (p := { p with
              buf := p.buf.drop (idx + 2), chunkRemaining := size, awaitingChunkSize := false })
              (hsize hhex)
            generalize hi : chunkData _ = i at htakes
            rw [hi] at hround
            cases htakes with
            | waits h =>
              rw [parseChunked_leave hround]
              exact h
            | whole data hlen hdata hrem' ha' ht' =>
              rename_i q
              rw [parseChunked_again hround]
              have hdata : p.buf.drop (idx + 2) = data ++ CRLF ++ q.buf := hdata
              have hlen : (data.length : ℤ) = size := hlen
              let c : SizedChunk := ⟨p.buf.take idx, data, hfree, hhex, by rw [hn, hlen], by
                rintro rfl
                exact hzero hlen.symm⟩
              refine ih q hround hrem' fun _ => ⟨ha', chunks ++ [c], ?_⟩
              rw [hchunks, List.flatMap_append, List.flatMap_singleton, List.append_assoc]
              refine congrArg (_ ++ ·) (hbuf.trans ?_)
              rw [hdata]
              simp only [c, SizedChunk.encode, List.append_assoc]

theorem chunkRemaining_plain (p : ResponseParser) (hc : p.chunked = false) :
    (left (parseBody codec p)).chunkRemaining = p.chunkRemaining := by
  cases hn : p.contentLength with
  | some n =>
    rw [parseBody_length codec hc hn]
    unfold parseFixedLength
    dsimp only
    split_ifs
    · exact chunkRemaining_finalize codec _
    · rfl
  | none =>
    rw [parseBody_close codec hc hn]
    unfold parseUntilClose
    dsimp only
    split_ifs
    · exact chunkRemaining_finalize codec _
    · rfl

theorem size_nonneg_feed {body : Bytes} (h : Strict l fields body) :
    0 ≤ (left (feed codec fresh (headBytes l ⟨[], fields⟩ ++ body))).chunkRemaining := by
  rw [feed_block codec l rfl]
  by_cases hc : SaysChunked (readFields fields)
  · rw [resolveFraming_saysChunked (p := afterBlock l ⟨[], fields⟩ body) hc, ok_bind,
      parse_body codec rfl, parseBody_chunked codec rfl]
    exact size_nonneg codec (h.sizes hc) _ rfl fun _ => ⟨rfl, [], rfl⟩
  · have hchunked := chunked_resolveFraming (p := afterBlock l ⟨[], fields⟩ body) hc
    cases hr : resolveFraming (afterBlock l ⟨[], fields⟩ body) with
    | error e =>
      have hleft : left (.error e) = afterBlock l ⟨[], fields⟩ body := resolveFraming_error hr
      show 0 ≤ (left (.error e)).chunkRemaining
      rw [hleft]
      exact le_rfl
    | ok p =>
      rw [hr] at hchunked
      rw [ok_bind, parse_body codec rfl,
        chunkRemaining_plain codec { p with state := .body } hchunked]
      obtain rfl | ⟨n, rfl⟩ | rfl := resolveFraming_ok hr <;> exact le_rfl

theorem length_nonneg {body : Bytes} (h : Strict l fields body) {n : ℤ}
    (hn : (left (feed codec fresh (headBytes l ⟨[], fields⟩ ++ body))).contentLength = some n) :
    0 ≤ n := by
  rw [(keepsHead_feed_block codec l fields body).length] at hn
  by_cases hc : SaysChunked (readFields fields)
  · rw [resolveFraming_saysChunked (p := afterBlock l ⟨[], fields⟩ body) hc] at hn
    cases hn
  by_cases hs : Bodyless l.status
  · rw [resolveFraming_noBody (p := afterBlock l ⟨[], fields⟩ body) hc hs] at hn
    exact (Option.some.inj hn).le
  cases hcl : (readFields fields).get (str "Content-Length") with
  | none =>
    rw [resolveFraming_close (p := afterBlock l ⟨[], fields⟩ body) hc hs hcl] at hn
    cases hn
  | some cl =>
    rw [resolveFraming_used (p := afterBlock l ⟨[], fields⟩ body) hc hs hcl] at hn
    cases hint : intOfStr 10 (strip isSpace cl) with
    | none => rw [hint] at hn; cases hn
    | some m =>
      rw [hint] at hn
      obtain ⟨hiff, hnonneg⟩ := isDecimal_iff hint (strip_strip _ _)
      rw [← Option.some.inj hn]
      exact hnonneg (hiff.mpr (h.length hc hs cl hcl))

theorem inGrammar_iff_strict (l : StartLine) (fields : List FoldedField) (body : Bytes) :
    InGrammar codec l fields body ↔ Strict l fields body := by
  have hplain (h : ¬ SaysChunked (readFields fields)) :
      (left (feed codec fresh (headBytes l ⟨[], fields⟩ ++ body))).chunked = false :=
    Bool.eq_false_of_not_eq_true fun hc => h ((chunked_feed_iff codec body).mp hc)
  constructor
  · intro h
    refine ⟨fun hc => h.codings ((chunked_feed_iff codec body).mpr hc), fun hc hs cl hcl => ?_,
      fun hc chunks line hfree hp => ?_⟩
    · exact (used_iff codec hc hs hcl body).mp (h.length cl hcl hs (hplain hc))
    · exact (size_iff codec hc chunks hfree).mp
        (h.sizes ((chunked_feed_iff codec body).mpr hc) chunks line hfree hp)
  · intro h
    refine ⟨fun hc => h.codings ((chunked_feed_iff codec body).mp hc), fun cl hcl hs hc => ?_,
      fun hc chunks line hfree hp => ?_, fun n => length_nonneg codec h, size_nonneg_feed codec h⟩
    · have hc : ¬ SaysChunked (readFields fields) := fun hsays => by
        rw [(chunked_feed_iff codec body).mpr hsays] at hc
        cases hc
      exact (used_iff codec hc hs hcl body).mpr (h.length hc hs cl hcl)
    · have hc := (chunked_feed_iff codec body).mp hc
      exact (size_iff codec hc chunks hfree).mpr (h.sizes hc chunks line hfree hp)

/-- **Lengths.** The parser delimits a body by values of the grammar only, exactly when the response
holds nothing that just the parser takes. Bytes that do not begin with such a head come to no body:
the parser refuses them or waits for the rest of the head. -/
theorem inGrammar_iff :
    (∀ (l : StartLine) (fields : List FoldedField) (body : Bytes),
      InGrammar codec l fields body ↔ Strict l fields body) ∧
    ∀ data, (∃ l fields body, data = headBytes l ⟨[], fields⟩ ++ body) ∨
      Raises (feed codec fresh data) ∨
      ∃ p, feed codec fresh data = .ok p ∧ (p.state = .status ∨ p.state = .headers) :=
  ⟨inGrammar_iff_strict codec, feed_cases codec⟩

def minusFive : FoldedField := lengthOne.saying (ascii " -5") (by decide +kernel)

/-- `200` with `Content-Length: -5` is taken to end with its head. -/
theorem minusFive_taken : ¬ InGrammar noCodec okLine [minusFive] [] := by
  intro h
  obtain ⟨q, hq, hn⟩ : ∃ q, feed noCodec fresh (headBytes okLine ⟨[], [minusFive]⟩ ++ []) = .ok q ∧
      q.contentLength = some (-5) := ⟨_, rfl, rfl⟩
  have hneg := h.length_nonneg (-5) (by rw [hq]; exact hn)
  exact absurd hneg (by decide)

end ResponseParser

end Fizzpy
