import Fizzpy.Foundation.Transition
import Fizzpy.Http.Folding
import Fizzpy.Http.Waiting

/-!
# What leaves the parser

A call of `feed` or `feed_eof` returns, raises an `HttpParseError`, or comes to the end of a response
and hands its body to a decompressor (`call_apart`). Only the last can raise something else: the
`EOFError` of a gzip stream cut short is not caught.
-/

namespace Fizzpy

open Foundation

namespace ResponseParser

inductive Call
  | feed (data : Bytes)
  | feedEof
  deriving DecidableEq

def call (codec : Codec) : Call → ResponseParser → Parse
  | .feed data, p => feed codec p data
  | .feedEof, p => feedEof codec p

/-- What a method that never sees a decompressor comes to before the response is finished. -/
inductive Plain : Parse → Prop
  | returns {q : ResponseParser} (hs : q.state ≠ .done) : Plain (.ok q)
  | raises (msg : Str) (q : ResponseParser) : Plain (raise msg q)

theorem Plain.ite {c : Prop} [Decidable c] {x y : Parse} (hx : Plain x) (hy : Plain y) :
    Plain (if c then x else y) := by
  split_ifs
  · exact hx
  · exact hy

theorem Plain.bind {x : Parse} {f : ResponseParser → Parse} (hx : Plain x)
    (hf : ∀ q : ResponseParser, q.state ≠ .done → Plain (f q)) : Plain (x >>= f) := by
  cases hx with
  | returns hs => exact hf _ hs
  | raises msg q => exact .raises msg q

/-- What any method comes to, the decompressor set apart. -/
inductive Apart (f : Codec → Parse) : Prop
  | plain {x : Parse} (h : ∀ codec, f codec = x) (hx : Plain x)
  | finishes {q : ResponseParser} (h : ∀ codec, f codec = finalize codec q)

theorem Plain.apart {x : Parse} (hx : Plain x) : Apart fun _ => x := .plain (fun _ => rfl) hx

theorem Apart.ite {c : Prop} [Decidable c] {f g : Codec → Parse} (hf : Apart f) (hg : Apart g) :
    Apart fun codec => if c then f codec else g codec := by
  split_ifs
  · exact hf
  · exact hg

theorem apart_finalize (q : ResponseParser) : Apart fun codec => finalize codec q :=
  .finishes fun _ => rfl

theorem Plain.then {x : Parse} {g : Codec → ResponseParser → Parse} (hx : Plain x)
    (hg : ∀ q : ResponseParser, q.state ≠ .done → Apart fun codec => g codec q) :
    Apart fun codec => x >>= g codec := by
  cases hx with
  | returns hs => exact hg _ hs
  | raises msg q => exact (Plain.raises msg q).apart

/-- One method after the other, when the second does nothing to a finished response. -/
theorem Apart.bind {f : Codec → Parse} {g : Codec → ResponseParser → Parse} (hf : Apart f)
    (hg : ∀ q : ResponseParser, q.state ≠ .done → Apart fun codec => g codec q)
    (hdone : ∀ codec q, q.state = .done → g codec q = .ok q) :
    Apart fun codec => f codec >>= g codec := by
  cases hf with
  | plain h hx =>
    simp only [h]
    exact hx.then hg
  | finishes h =>
    rename_i q
    refine .finishes (q := q) fun codec => ?_
    rw [h]
    cases hq : finalize codec q with
    | error e => rfl
    | ok r => rw [ok_bind, hdone codec r (finalize_settled codec q r hq)]

/-! ## The body -/

theorem apart_parseFixedLength (n : ℤ) {p : ResponseParser} (hp : p.state ≠ .done) :
    Apart fun codec => parseFixedLength codec n p :=
  .ite (apart_finalize (fillBody n p)) (Plain.returns (q := fillBody n p) hp).apart

theorem apart_parseUntilClose {p : ResponseParser} (hp : p.state ≠ .done) :
    Apart fun codec => parseUntilClose codec p :=
  .ite (apart_finalize _) (Plain.returns (q := { p with body := p.body ++ p.buf, buf := [] }) hp).apart

theorem apart_parseTrailers {p : ResponseParser} (hp : p.state ≠ .done) :
    Apart fun codec => parseTrailers codec p := by
  refine .ite (apart_finalize _) ?_
  cases find CRLFCRLF p.buf with
  | none => exact .ite (apart_finalize p) (Plain.returns hp).apart
  | some e => exact apart_finalize _

/-- A round goes on, or ends apart from the decompressor. -/
def RoundApart : Iter ResponseParser Parse → Prop
  | .again q => q.state ≠ .done
  | .leave x => Plain x

theorem roundApart_chunkData {p : ResponseParser} (hp : p.state ≠ .done) :
    RoundApart (chunkData p) := by
  unfold chunkData
  dsimp only
  split_ifs
  · exact .raises _ _
  · exact .returns hp
  · exact .raises _ _
  · exact .returns hp
  · exact hp
  · exact .raises _ _

theorem roundApart_chunkSize {p : ResponseParser} (hp : p.state ≠ .done) :
    RoundApart (chunkSize p) := by
  unfold chunkSize
  cases find CRLF p.buf with
  | none =>
    dsimp only
    split_ifs
    · exact .raises _ _
    · exact .returns hp
  | some idx =>
    dsimp only
    split
    · exact .raises _ _
    · split_ifs
      · exact hp
      · exact roundApart_chunkData hp

theorem apart_parseChunked {p : ResponseParser} (hp : p.state ≠ .done) :
    Apart fun codec => parseChunked codec p := by
  induction p using chunkRound_induction noCodec with
  | h p ih =>
    cases ht : p.inTrailers with
    | true =>
      simp only [fun codec => parseChunked_leave (@chunkRound_of_trailers codec p ht)]
      exact apart_parseTrailers hp
    | false =>
      have hround : ∃ i, (∀ codec, chunkRound codec p = i) ∧ RoundApart i := by
        cases ha : p.awaitingChunkSize with
        | true => exact ⟨_, fun codec => chunkRound_of_size ht ha, roundApart_chunkSize hp⟩
        | false => exact ⟨_, fun codec => chunkRound_of_data ht ha, roundApart_chunkData hp⟩
      obtain ⟨i, hi, hround⟩ := hround
      cases i with
      | again q =>
        simp only [fun codec => parseChunked_again (hi codec)]
        exact ih q (hi noCodec) hround
      | leave x =>
        exact .plain (fun codec => parseChunked_leave (hi codec)) hround

theorem apart_parseBody {p : ResponseParser} (hp : p.state ≠ .done) :
    Apart fun codec => parseBody codec p := by
  refine .ite (apart_parseChunked hp) ?_
  cases p.contentLength with
  | some n => exact apart_parseFixedLength n hp
  | none => exact apart_parseUntilClose hp

/-! ## The whole parser -/

theorem parseHeaderLines_plain (lines : List Bytes) : ∀ {p : ResponseParser}, p.state ≠ .done →
    Plain (parseHeaderLines lines p) := by
  induction lines with
  | nil => exact fun hp => .returns hp
  | cons raw rest ih =>
    intro p hp
    unfold parseHeaderLines
    cases parseHeaderLine p.headers raw with
    | ok h => exact ih (p := { p with headers := h }) hp
    | error msg => exact .raises msg p

theorem resolveFraming_plain {p : ResponseParser} (hp : p.state ≠ .done) :
    Plain (resolveFraming p) := by
  unfold resolveFraming
  dsimp only
  refine .ite (.returns hp) (.ite (.returns hp) ?_)
  split
  · split
    · exact .returns hp
    · exact .raises _ _
  · exact .returns hp

theorem readBlock_plain (block : Bytes) {p : ResponseParser} (hp : p.state ≠ .done) :
    Plain (readBlock block p) := by
  refine (parseHeaderLines_plain _ hp).bind fun q hq => ?_
  exact (resolveFraming_plain hq).bind fun r _ => .returns nofun

theorem parseStatusLine_plain {p : ResponseParser} (hp : p.state ≠ .done) :
    Plain (parseStatusLine p) := by
  unfold parseStatusLine
  split
  · exact .ite (.raises _ _) (.returns hp)
  · unfold readStatusLine
    split
    · exact .raises _ _
    · exact .returns nofun

theorem apart_parseHeaders {p : ResponseParser} (hp : p.state ≠ .done) :
    Apart fun codec => parseHeaders codec p := by
  unfold parseHeaders
  cases headerBlock p.buf with
  | none => exact (Plain.ite (.raises _ _) (.returns hp)).apart
  | some br => exact (readBlock_plain br.1 (p := { p with buf := br.2 }) hp).then fun _ => apart_parseBody

theorem apart_inState (s : ParserState) {f : Codec → ResponseParser → Parse} {p : ResponseParser}
    (hp : p.state ≠ .done) (hf : Apart fun codec => f codec p) :
    Apart fun codec => inState s (f codec) p :=
  .ite hf (Plain.returns hp).apart

theorem apart_parse {p : ResponseParser} (hp : p.state ≠ .done) : Apart fun codec => parse codec p := by
  have hstatus : Plain (inState .status parseStatusLine p) :=
    .ite (parseStatusLine_plain hp) (.returns hp)
  refine hstatus.then fun q hq => ?_
  refine Apart.bind (apart_inState .headers hq (apart_parseHeaders hq)) (fun r hr => ?_) ?_
  · exact apart_inState .body hr (apart_parseBody hr)
  · exact fun codec r hr => inState_other (by rw [hr]; decide)

theorem apart_call (c : Call) {p : ResponseParser} (hp : p.state ≠ .done) :
    Apart fun codec => call codec c p := by
  cases c with
  | feed data => exact apart_parse (p := { p with buf := p.buf ++ data }) hp
  | feedEof => exact apart_parse (p := { p with eof := true }) hp

theorem call_done (codec : Codec) (c : Call) {p : ResponseParser} (hp : p.state = .done) :
    ∃ q, call codec c p = .ok q := by
  cases c with
  | feed data => exact ⟨_, parse_done codec (p := { p with buf := p.buf ++ data }) hp⟩
  | feedEof => exact ⟨_, parse_done codec (p := { p with eof := true }) hp⟩

/-! ## The decompressor -/

/-- The `Content-Encoding`, as the parser compares it. -/
def contentCoding (h : Headers) : Str :=
  strip isSpace (lower ((h.get (str "Content-Encoding")).getD []))

/-- What the decompressor for the coding makes of a body, if there is one and it succeeds. -/
def decoded (codec : Codec) (h : Headers) (body : Bytes) : Option Bytes :=
  if contentCoding h = str "gzip" then (codec.gzip body).toOption
  else if contentCoding h = str "deflate" then codec.zlib body <|> codec.rawDeflate body
  else none

/-- The content to be delivered: decoded, or else as it is. -/
def delivered (codec : Codec) (h : Headers) (body : Bytes) : Bytes :=
  if body = [] then [] else (decoded codec h body).getD body

/-- The body is a gzip stream that ends too early. -/
def EndsEarly (codec : Codec) (h : Headers) (body : Bytes) : Prop :=
  body ≠ [] ∧ contentCoding h = str "gzip" ∧ codec.gzip body = .error .eofError

/-- **The decompressor** raises for a gzip stream cut short, and else gives what is to be delivered. -/
theorem decompress_eq (codec : Codec) (h : Headers) (body : Bytes) :
    (EndsEarly codec h body ∧ decompress codec h body = .error .eofError) ∨
      (¬ EndsEarly codec h body ∧ decompress codec h body = .ok (delivered codec h body)) := by
  unfold EndsEarly decompress delivered decoded contentCoding
  by_cases hb : body = []
  · exact .inr ⟨fun hc => hc.1 hb, by rw [if_pos (.inr hb), if_pos hb, hb]⟩
  by_cases henc : (h.get (str "Content-Encoding")).getD [] = []
  · refine .inr ⟨fun hc => ?_, ?_⟩
    · rw [henc] at hc
      exact absurd hc.2.1 (by decide)
    · dsimp only
      rw [if_pos (.inl henc), if_neg hb, henc]
      rfl
  dsimp only
  rw [if_neg (not_or.mpr ⟨henc, hb⟩), if_neg hb]
  by_cases hg : strip isSpace (lower ((h.get (str "Content-Encoding")).getD [])) = str "gzip"
  · rw [if_pos hg, if_pos hg]
    cases hz : codec.gzip body with
    | ok out => exact .inr ⟨(fun hc => by cases hc.2.2), rfl⟩
    | error e =>
      cases e with
      | eofError => exact .inl ⟨⟨hb, hg, rfl⟩, rfl⟩
      | osError => exact .inr ⟨(fun hc => by cases hc.2.2), rfl⟩
      | zlibError => exact .inr ⟨(fun hc => by cases hc.2.2), rfl⟩
  · refine .inr ⟨fun hc => hg hc.2.1, ?_⟩
    rw [if_neg hg, if_neg hg]
    split_ifs
    · cases codec.zlib body <;> rfl
    · rfl

theorem finalize_eq (codec : Codec) (q : ResponseParser) :
    (EndsEarly codec q.headers q.body ∧ finalize codec q = .error (.eofError, q)) ∨
      (¬ EndsEarly codec q.headers q.body ∧ finalize codec q = .ok { q with
        response := some ⟨q.statusCode, q.reason, q.httpVersion, q.headers,
          delivered codec q.headers q.body⟩
        state := .done }) := by
  obtain ⟨hc, hd⟩ | ⟨hc, hd⟩ := decompress_eq codec q.headers q.body
  · refine .inl ⟨hc, ?_⟩
    unfold finalize
    rw [hd]
  · exact .inr ⟨hc, finalize_of_decompress hd⟩

/-! ## Calls -/

/-- A call raises nothing but `HttpParseError`, and a response it completes has its body decoded, or
as it is if that fails. -/
structure CallOk (codec : Codec) (p : ResponseParser) (c : Call) : Prop where
  raises : ∀ e q, call codec c p = .error (e, q) → ∃ msg, e = .httpParseError msg
  delivers : ∀ q, call codec c p = .ok q → q.isComplete → ¬ p.isComplete →
    ∃ r, q.response = some r ∧ r.content = delivered codec q.headers q.body

/-- Decompression left out, the call completes a response whose body is a gzip stream cut short. -/
def CutsShort (codec : Codec) (p : ResponseParser) (c : Call) : Prop :=
  ¬ p.isComplete ∧
    ∃ q, call noCodec c p = .ok q ∧ q.isComplete ∧ EndsEarly codec q.headers q.body

theorem isComplete_iff {p : ResponseParser} : p.isComplete ↔ p.state = .done := decide_eq_true_iff

/-- **One call**, from whatever the parser has come to. -/
theorem callOk_iff (codec : Codec) (p : ResponseParser) (c : Call) :
    CallOk codec p c ↔ ¬ CutsShort codec p c := by
  by_cases hp : p.state = .done
  · have hcomplete : p.isComplete := isComplete_iff.mpr hp
    obtain ⟨q, hq⟩ := call_done codec c hp
    refine ⟨fun _ hcut => hcut.1 hcomplete, fun _ => ⟨fun e q' h => ?_, fun _ _ _ hn => ?_⟩⟩
    · rw [hq] at h
      cases h
    · exact absurd hcomplete hn
  have hopen : ¬ p.isComplete := fun h => hp (isComplete_iff.mp h)
  cases apart_call c hp with
  | plain h hx =>
    refine ⟨fun _ hcut => ?_, fun _ => ⟨fun e q hq => ?_, fun q hq hdone _ => ?_⟩⟩
    · obtain ⟨-, q, hq, hdone, -⟩ := hcut
      rw [h] at hq
      rw [hq] at hx
      cases hx with
      | returns hs => exact hs (isComplete_iff.mp hdone)
    · rw [h] at hq
      rw [hq] at hx
      cases hx with
      | raises msg q => exact ⟨msg, rfl⟩
    · rw [h] at hq
      rw [hq] at hx
      cases hx with
      | returns hs => exact absurd (isComplete_iff.mp hdone) hs
  | finishes h =>
    rename_i q
    have hno : ¬ EndsEarly noCodec q.headers q.body := fun hc => by cases hc.2.2
    have hplain := (finalize_eq noCodec q).resolve_left fun hc => hno hc.1
    have hcuts : CutsShort codec p c ↔ EndsEarly codec q.headers q.body := by
      constructor
      · rintro ⟨-, q', hq', -, hcut⟩
        rw [h, hplain.2, Except.ok.injEq] at hq'
        rwa [← hq'] at hcut
      · intro hcut
        exact ⟨hopen, _, (h noCodec).trans hplain.2, rfl, hcut⟩
    rw [hcuts]
    obtain ⟨hcut, hfin⟩ | ⟨hcut, hfin⟩ := finalize_eq codec q
    · refine ⟨fun hok => ?_, fun hn => absurd hcut hn⟩
      obtain ⟨msg, hmsg⟩ := hok.raises _ _ ((h codec).trans hfin)
      cases hmsg
    · refine ⟨fun _ => hcut, fun _ => ⟨fun e q' hq' => ?_, fun q' hq' _ _ => ?_⟩⟩
      · rw [h, hfin] at hq'
        cases hq'
      · rw [h, hfin, Except.ok.injEq] at hq'
        subst hq'
        exact ⟨_, rfl, rfl⟩

/-- A call, also behind one that has raised. -/
def afterCall (codec : Codec) (p : ResponseParser) (c : Call) : Option ResponseParser :=
  some (left (call codec c p))

/-- **What leaves the parser.** Along any calls, whatever they raise, nothing but `HttpParseError`
leaves it, and bodies that do not decompress are delivered as they are, exactly when no call comes
to the end of a gzip stream cut short. -/
theorem calls_ok_iff (codec : Codec) (calls : List Call) :
    Along (afterCall codec) (CallOk codec) fresh calls ↔
      Along (afterCall codec) (fun p c => ¬ CutsShort codec p c) fresh calls :=
  along_congr (callOk_iff codec) fresh calls

/-- The decompressor for a stream of which there are just the first two bytes. -/
def gzipMagic : Bytes := [0x1f, 0x8b]

def magicCodec : Codec :=
  { noCodec with gzip := fun data => if data = gzipMagic then .error .eofError else .error .osError }

/-- A body that is the start of a gzip stream. -/
def magicResponse : Bytes :=
  ascii "HTTP/1.1 200 OK" ++ CRLF ++ ascii "Content-Encoding: gzip" ++ CRLF ++
    ascii "Content-Length: 2" ++ CRLFCRLF ++ gzipMagic

/-- It makes `feed` raise `EOFError`. -/
theorem magicResponse_raises :
    ¬ Along (afterCall magicCodec) (CallOk magicCodec) fresh [.feed magicResponse] := by
  intro h
  obtain ⟨q, hq⟩ : ∃ q, call magicCodec (.feed magicResponse) fresh = .error (.eofError, q) :=
    ⟨_, rfl⟩
  obtain ⟨msg, hmsg⟩ := (h _ rfl).1.raises _ _ hq
  cases hmsg

end ResponseParser

end Fizzpy
