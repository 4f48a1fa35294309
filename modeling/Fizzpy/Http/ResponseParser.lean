import Fizzpy.Foundation.Loop
import Fizzpy.Foundation.Search
import Fizzpy.Http.Headers

/-!
# The incremental response parser

`ResponseParser` of the HTTP module, method by method. A method takes the parser's state and returns
the new one, or the exception it raises together with the state the object is left in. The
decompressors of the standard library are the parameter `codec`.
-/

namespace Fizzpy

open Foundation

/-- What `gzip.decompress` may raise. -/
inductive CodecError
  | osError
  | zlibError
  | eofError
  deriving DecidableEq

/-- `gzip.decompress`, `zlib.decompress` and `zlib.decompress` of a raw stream; the latter two can
only raise `zlib.error`, which is `none`. -/
structure Codec where
  gzip : Bytes → Except CodecError Bytes
  zlib : Bytes → Option Bytes
  rawDeflate : Bytes → Option Bytes

/-- A codec for bodies that no standard decompressor takes. -/
def noCodec : Codec := ⟨fun _ => .error .osError, fun _ => none, fun _ => none⟩

/-- The exceptions that leave the parser. -/
inductive ParseExn
  | httpParseError (msg : Str)
  | eofError
  deriving DecidableEq

structure Response where
  statusCode : ℕ
  reason : Str
  httpVersion : Str
  headers : Headers
  content : Bytes
  deriving DecidableEq

inductive ParserState
  | status
  | headers
  | body
  | done
  deriving DecidableEq

structure ResponseParser where
  buf : Bytes := []
  state : ParserState := .status
  eof : Bool := false
  httpVersion : Str := []
  statusCode : ℕ := 0
  reason : Str := []
  headers : Headers := .empty
  chunked : Bool := false
  contentLength : Option ℤ := none
  readUntilClose : Bool := false
  body : Bytes := []
  chunkRemaining : ℤ := 0
  awaitingChunkSize : Bool := true
  inTrailers : Bool := false
  response : Option Response := none
  deriving DecidableEq

/-- The outcome of a method. -/
abbrev Parse := Except (ParseExn × ResponseParser) ResponseParser

/-- The object a method leaves behind, whether it returns or raises. -/
def ResponseParser.left : Parse → ResponseParser
  | .ok p => p
  | .error (_, p) => p

namespace ResponseParser

/-- `ResponseParser()`. -/
def fresh : ResponseParser := {}

def isComplete (p : ResponseParser) : Bool := p.state = .done

def usedCloseFraming (p : ResponseParser) : Bool := p.readUntilClose

def raise (msg : Str) (p : ResponseParser) : Parse := .error (.httpParseError msg, p)

/-! ## The end of a response -/

/-- `_decompress`: a body that does not decompress is left as it is, except that the `EOFError` of
a gzip stream cut short is not caught. -/
def decompress (codec : Codec) (headers : Headers) (data : Bytes) : Except ParseExn Bytes :=
  let encoding := (headers.get (str "Content-Encoding")).getD []
  if encoding = [] ∨ data = [] then .ok data
  else
    let encoding := strip isSpace (lower encoding)
    if encoding = str "gzip" then
      match codec.gzip data with
      | .ok out => .ok out
      | .error .eofError => .error .eofError
      | .error _ => .ok data
    else if encoding = str "deflate" then
      match codec.zlib data with
      | some out => .ok out
      | none => .ok ((codec.rawDeflate data).getD data)
    else .ok data

def finalize (codec : Codec) (p : ResponseParser) : Parse :=
  match decompress codec p.headers p.body with
  | .ok content =>
    .ok { p with
      response := some ⟨p.statusCode, p.reason, p.httpVersion, p.headers, content⟩
      state := .done }
  | .error e => .error (e, p)

/-! ## The status line -/

def isDigit (b : UInt8) : Bool := 48 ≤ b && b ≤ 57

/-- `$`: the end of the line, or a newline right before it. -/
def atEnd (rest : Bytes) : Bool := rest = [] || rest = [LF]

/-- `(?: (.*))?$`, where the dot matches everything but a newline. -/
def matchReason : Bytes → Option (Option Bytes)
  | 32 :: rest =>
    let reason := rest.takeWhile (· ≠ LF)
    if atEnd (rest.drop reason.length) then some (some reason) else none
  | rest => if atEnd rest then some none else none

/-- The groups of `_STATUS_LINE_RE`. -/
structure StatusLine where
  version : Bytes
  code : Bytes
  reason : Option Bytes
  deriving DecidableEq

/-- `^(HTTP/\d\.\d) (\d{3})(?: (.*))?$`. -/
def matchStatusLine : Bytes → Option StatusLine
  | h :: t :: t' :: p :: s :: d :: dot :: d' :: sp :: a :: b :: c :: rest =>
    if [h, t, t', p, s] = ascii "HTTP/" ∧ isDigit d ∧ dot = 46 ∧ isDigit d' ∧ sp = SP ∧
        isDigit a ∧ isDigit b ∧ isDigit c then
      (matchReason rest).map fun r => ⟨[h, t, t', p, s, d, dot, d'], [a, b, c], r⟩
    else none
  | _ => none

/-- The fields of a status line that has been taken off the buffer. -/
def readStatusLine (line : Bytes) (p : ResponseParser) : Parse :=
  match matchStatusLine line with
  | none => raise (str "malformed status line: " ++ reprBytes line) p
  | some m =>
    .ok { p with
      httpVersion := latin1 m.version
      statusCode := ofDigits 10 (m.code.map fun b => b.toNat - 48)
      reason := latin1 (m.reason.getD [])
      state := .headers }

def parseStatusLine (p : ResponseParser) : Parse :=
  match find CRLF p.buf with
  | none =>
    if p.eof ∧ p.buf ≠ [] then raise (str "connection closed before status line") p else .ok p
  | some idx => readStatusLine (p.buf.take idx) { p with buf := p.buf.drop (idx + 2) }

/-! ## The header block -/

/-- One line of the block, added to the headers; the error is its message. -/
def parseHeaderLine (h : Headers) (raw : Bytes) : Except Str Headers :=
  if raw = [] then .ok h
  else if raw.head? = some SP ∨ raw.head? = some HTAB then
    if h.items = [] then .error (str "header continuation with no prior header")
    -- there is a header, so `append_to_last` does not raise
    else .ok ((h.appendToLast (latin1 (strip isSpaceByte raw))).getD h)
  else
    match find [COLON] raw with
    | none | some 0 => .error (str "malformed header line: " ++ reprBytes raw)
    | some colon =>
      .ok (h.add (strip isSpace (latin1 (raw.take colon)))
        (strip isSpace (latin1 (raw.drop (colon + 1)))))

/-- The loop over the lines. The headers read before a bad line stay in the parser. -/
def parseHeaderLines : List Bytes → ResponseParser → Parse
  | [], p => .ok p
  | raw :: rest, p =>
    match parseHeaderLine p.headers raw with
    | .ok h => parseHeaderLines rest { p with headers := h }
    | .error msg => raise msg p

def resolveFraming (p : ResponseParser) : Parse :=
  let te := (p.headers.get (str "Transfer-Encoding")).getD []
  if te ≠ [] ∧ contains (str "chunked") (lower te) then .ok { p with chunked := true }
  else if p.statusCode < 200 ∨ p.statusCode = 204 ∨ p.statusCode = 304 then
    .ok { p with contentLength := some 0 }
  else
    match p.headers.get (str "Content-Length") with
    | some cl =>
      match intOfStr 10 (strip isSpace cl) with
      | some n => .ok { p with contentLength := some n }
      | none => raise (str "invalid Content-Length: " ++ reprStr cl) p
    | none => .ok { p with readUntilClose := true }

/-! ## The body -/

/-- At most `n` bytes in all move from the buffer to the body. -/
def fillBody (n : ℤ) (p : ResponseParser) : ResponseParser :=
  let need := (n - p.body.length).toNat
  { p with body := p.body ++ p.buf.take need, buf := p.buf.drop need }

def parseFixedLength (codec : Codec) (n : ℤ) (p : ResponseParser) : Parse :=
  let p := fillBody n p
  if n ≤ p.body.length ∨ p.eof then finalize codec p else .ok p

def parseUntilClose (codec : Codec) (p : ResponseParser) : Parse :=
  let p := { p with body := p.body ++ p.buf, buf := [] }
  if p.eof then finalize codec p else .ok p

/-- The trailer section: a lone CRLF, or lines up to the first blank one. -/
def parseTrailers (codec : Codec) (p : ResponseParser) : Parse :=
  if CRLF <+: p.buf then finalize codec { p with buf := p.buf.drop 2 }
  else
    match find CRLFCRLF p.buf with
    | none => if p.eof then finalize codec p else .ok p
    | some e => finalize codec { p with buf := p.buf.drop (e + 4) }

theorem parseTrailers_crlf (codec : Codec) {p : ResponseParser} (h : CRLF <+: p.buf) :
    parseTrailers codec p = finalize codec { p with buf := p.buf.drop 2 } := if_pos h

theorem parseTrailers_some (codec : Codec) {p : ResponseParser} {e : ℕ} (h : ¬ CRLF <+: p.buf)
    (he : find CRLFCRLF p.buf = some e) :
    parseTrailers codec p = finalize codec { p with buf := p.buf.drop (e + 4) } := by
  unfold parseTrailers
  rw [if_neg h, he]

theorem parseTrailers_none (codec : Codec) {p : ResponseParser} (h : ¬ CRLF <+: p.buf)
    (he : find CRLFCRLF p.buf = none) :
    parseTrailers codec p = if p.eof then finalize codec p else .ok p := by
  unfold parseTrailers
  rw [if_neg h, he]

/-- The buffered part of the current chunk's data moves to the body. -/
def takeChunk (p : ResponseParser) : ResponseParser :=
  let need := p.chunkRemaining.toNat
  { p with
    body := p.body ++ p.buf.take need
    buf := p.buf.drop need
    chunkRemaining := p.chunkRemaining - (min need p.buf.length : ℕ) }

/-- A chunk's data and the CRLF behind it. -/
def chunkData (p : ResponseParser) : Iter ResponseParser Parse :=
  let p := takeChunk p
  if 0 < p.chunkRemaining then
    .leave (if p.eof then raise (str "EOF inside chunk data") p else .ok p)
  else if p.buf.length < 2 then
    .leave (if p.eof then raise (str "EOF before chunk terminator") p else .ok p)
  else if ¬ CRLF <+: p.buf then .leave (raise (str "missing CRLF after chunk data") p)
  else .again { p with buf := p.buf.drop 2, awaitingChunkSize := true }

/-- A chunk's size line; its extensions, behind a semicolon, are ignored. A size other than 0 goes
on to the data in the same round. -/
def chunkSize (p : ResponseParser) : Iter ResponseParser Parse :=
  match find CRLF p.buf with
  | none =>
    .leave (if p.eof ∧ p.buf ≠ [] then raise (str "EOF inside chunk size line") p else .ok p)
  | some idx =>
    let sizeLine := p.buf.take idx
    match intOfBytes 16 (strip isSpaceByte (sizeLine.takeWhile (· ≠ SEMI))) with
    | none => .leave (raise (str "invalid chunk size: " ++ reprBytes sizeLine) p)
    | some size =>
      let p := { p with buf := p.buf.drop (idx + 2) }
      if size = 0 then .again { p with inTrailers := true }
      else chunkData { p with chunkRemaining := size, awaitingChunkSize := false }

/-- One round of the loop of `_parse_chunked`. -/
def chunkRound (codec : Codec) (p : ResponseParser) : Iter ResponseParser Parse :=
  if p.inTrailers then .leave (parseTrailers codec p)
  else if p.awaitingChunkSize then chunkSize p
  else chunkData p

theorem chunkData_shortens {p p' : ResponseParser} (h : chunkData p = .again p') :
    p'.buf.length < p.buf.length := by
  unfold chunkData at h
  dsimp only at h
  split_ifs at h with h1 h2 h3
  rw [Iter.again.injEq] at h
  subst h
  simp only [takeChunk, List.length_drop] at h2 ⊢
  omega

theorem chunkSize_shortens {p p' : ResponseParser} (h : chunkSize p = .again p') :
    p'.buf.length < p.buf.length := by
  unfold chunkSize at h
  cases hidx : find CRLF p.buf with
  | none => simp only [hidx] at h; cases h
  | some idx =>
    have hlen := find_add_length_le (by decide) hidx
    rw [show CRLF.length = 2 from rfl] at hlen
    simp only [hidx] at h
    split at h
    · cases h
    · split_ifs at h
      · rw [Iter.again.injEq] at h
        subst h
        simp only [List.length_drop]
        omega
      · have := chunkData_shortens h
        simp only [List.length_drop] at this
        omega

/-- A round that goes on has consumed input. -/
theorem chunkRound_shortens {codec : Codec} {p p' : ResponseParser}
    (h : chunkRound codec p = .again p') : p'.buf.length < p.buf.length := by
  unfold chunkRound at h
  split_ifs at h
  · exact chunkSize_shortens h
  · exact chunkData_shortens h

def parseChunked (codec : Codec) (p : ResponseParser) : Parse :=
  loop (chunkRound codec) (fun p => p.buf.length) (fun _ _ h => chunkRound_shortens h) p

def parseBody (codec : Codec) (p : ResponseParser) : Parse :=
  if p.chunked then parseChunked codec p
  else
    match p.contentLength with
    | some n => parseFixedLength codec n p
    | none => parseUntilClose codec p

/-! ## The state machine -/

/-- The block at the front of the buffer and what is behind its end. -/
def headerBlock (buf : Bytes) : Option (Bytes × Bytes) :=
  if CRLF <+: buf then some ([], buf.drop 2)
  else (find CRLFCRLF buf).map fun e => (buf.take e, buf.drop (e + 4))

/-- The lines of a block, the framing they ask for, and the step to the body. -/
def readBlock (block : Bytes) (p : ResponseParser) : Parse := do
  let p ← parseHeaderLines (split CRLF block) p
  let p ← resolveFraming p
  .ok { p with state := .body }

def parseHeaders (codec : Codec) (p : ResponseParser) : Parse :=
  match headerBlock p.buf with
  | none => if p.eof ∧ p.buf ≠ [] then raise (str "connection closed inside headers") p else .ok p
  | some (block, rest) => readBlock block { p with buf := rest } >>= parseBody codec

/-- A method called only in the state it is for. -/
def inState (s : ParserState) (method : ResponseParser → Parse) (p : ResponseParser) : Parse :=
  if p.state = s then method p else .ok p

def parse (codec : Codec) (p : ResponseParser) : Parse := do
  let p ← inState .status parseStatusLine p
  let p ← inState .headers (parseHeaders codec) p
  inState .body (parseBody codec) p

def feed (codec : Codec) (p : ResponseParser) (data : Bytes) : Parse :=
  parse codec { p with buf := p.buf ++ data }

def feedEof (codec : Codec) (p : ResponseParser) : Parse := parse codec { p with eof := true }

/-- `feed` on one piece after the other, up to the first exception. -/
def feedAll (codec : Codec) : ResponseParser → List Bytes → Parse
  | p, [] => .ok p
  | p, d :: ds => feed codec p d >>= fun p => feedAll codec p ds

end ResponseParser

end Fizzpy
