import Fizzpy.Http.Folding
import Fizzpy.Http.Waiting

/-!
# Responses without a body

A status below 200, 204 or 304 ends the response with its head, whatever its fields say, unless the
parser takes it to be chunked: that is looked at first.
-/

namespace Fizzpy

open Foundation

namespace ResponseParser

/-- The statuses that are defined to carry no body. -/
def Bodyless (status : ℕ) : Prop := status < 200 ∨ status = 204 ∨ status = 304

instance (status : ℕ) : Decidable (Bodyless status) :=
  inferInstanceAs (Decidable (status < 200 ∨ status = 204 ∨ status = 304))

/-- `chunked` occurs in the transfer codings, in any casing. -/
def SaysChunked (h : Headers) : Prop :=
  contains (str "chunked") (lower ((h.get (str "Transfer-Encoding")).getD [])) = true

instance (h : Headers) : Decidable (SaysChunked h) := inferInstanceAs (Decidable (_ = true))

/-- Then the status is not looked at. -/
theorem resolveFraming_saysChunked {p : ResponseParser} (h : SaysChunked p.headers) :
    resolveFraming p = .ok { p with chunked := true } := by
  have hne : (p.headers.get (str "Transfer-Encoding")).getD [] ≠ [] := by
    intro hnil
    unfold SaysChunked at h
    rw [hnil] at h
    exact absurd h (by decide)
  unfold resolveFraming
  exact if_pos ⟨hne, h⟩

theorem resolveFraming_noBody {p : ResponseParser} (h : ¬ SaysChunked p.headers)
    (hs : Bodyless p.statusCode) : resolveFraming p = .ok { p with contentLength := some 0 } := by
  unfold resolveFraming
  dsimp only
  rw [if_neg fun hc => h hc.2]
  exact if_pos hs

/-- Without data there is nothing to decompress. -/
theorem decompress_nil (codec : Codec) (h : Headers) : decompress codec h [] = .ok [] :=
  if_pos (Or.inr rfl)

/-- The response is complete at the end of its head, it is empty, and what comes behind stays in the
buffer, whether it comes later or at once. -/
def EndsAtHead (codec : Codec) (l : StartLine) (b : HeaderBlock) (suffix : Bytes) : Prop :=
  ∃ p r, feed codec fresh (headBytes l b) = .ok p ∧ p.isComplete ∧ p.buf = [] ∧
    p.response = some r ∧ r.statusCode = l.status ∧ r.content = [] ∧
    feed codec p suffix = .ok { p with buf := suffix } ∧
    feed codec fresh (headBytes l b ++ suffix) = .ok { p with buf := suffix }

/-- The head alone is all that is fed. -/
theorem feed_headBytes_alone (codec : Codec) (l : StartLine) {b : HeaderBlock} (h : b.orphans = []) :
    feed codec fresh (headBytes l b) =
      resolveFraming (afterBlock l b []) >>= fun p => parse codec { p with state := .body } := by
  have hfeed := feed_block codec l h []
  rwa [List.append_nil] at hfeed

theorem endsAtHead_of_bodyless (codec : Codec) {l : StartLine} {b : HeaderBlock}
    (h : b.orphans = []) (hs : Bodyless l.status) (hc : ¬ SaysChunked (readFields b.fields))
    (suffix : Bytes) : EndsAtHead codec l b suffix := by
  let p : ResponseParser := { afterBlock l b [] with contentLength := some 0, state := .body }
  have hfixed : parseFixedLength codec 0 p = finalize codec p :=
    parseFixedLength_whole codec [] rfl rfl
  have hfeed : feed codec fresh (headBytes l b) = finalize codec p := by
    rw [feed_headBytes_alone codec l h, resolveFraming_noBody (p := afterBlock l b []) hc hs,
      ok_bind, parse_body codec rfl]
    exact hfixed
  have hdone := hfeed.trans (finalize_of_decompress (decompress_nil codec p.headers))
  exact ⟨_, _, hdone, rfl, rfl, rfl, rfl, rfl, feed_of_complete codec rfl suffix,
    feed_append_of_complete rfl hdone rfl suffix⟩

/-- A chunked body is waited for. -/
theorem not_endsAtHead_of_chunked (codec : Codec) (l : StartLine) {b : HeaderBlock}
    (h : b.orphans = []) (hc : SaysChunked (readFields b.fields)) (suffix : Bytes) :
    ¬ EndsAtHead codec l b suffix := by
  rintro ⟨q, r, hfeed, hdone, -⟩
  let p : ResponseParser := { afterBlock l b [] with chunked := true, state := .body }
  have hround : chunkRound codec p = .leave (.ok p) := by
    rw [chunkRound_of_size rfl rfl]
    rfl
  rw [feed_headBytes_alone codec l h, resolveFraming_saysChunked (p := afterBlock l b []) hc,
    ok_bind, parse_body codec rfl, parseBody_chunked codec rfl, parseChunked_leave hround,
    Except.ok.injEq] at hfeed
  rw [← hfeed] at hdone
  cases hdone

/-- **Bodyless statuses.** The fields of such a response say nothing about its end exactly when
`chunked` does not occur in its transfer codings. -/
theorem endsAtHead_iff (codec : Codec) (l : StartLine) (hs : Bodyless l.status)
    (fields : List FoldedField) (suffix : Bytes) :
    EndsAtHead codec l ⟨[], fields⟩ suffix ↔ ¬ SaysChunked (readFields fields) :=
  ⟨fun hends hc => not_endsAtHead_of_chunked codec l rfl hc suffix hends,
    fun hc => endsAtHead_of_bodyless codec rfl hs hc suffix⟩

def noContentLine : StartLine where
  line := ascii "HTTP/1.1 204 No Content"
  groups := ⟨ascii "HTTP/1.1", ascii "204", some (ascii "No Content")⟩
  matched := by decide +kernel
  crlfFree := by decide +kernel

def lengthFive : FoldedField := lengthOne.saying (ascii " 5") (by decide +kernel)

def chunkedField : FoldedField := greetingField.field.saying (ascii " chunked") (by decide +kernel)

/-- A length alone is ignored. -/
theorem endsAtHead_iff_length : EndsAtHead noCodec noContentLine ⟨[], [lengthFive]⟩ (ascii "HTTP") ↔
    ¬ SaysChunked (readFields [lengthFive]) :=
  endsAtHead_iff noCodec noContentLine (by decide +kernel) [lengthFive] (ascii "HTTP")

/-- `204` with `Transfer-Encoding: chunked` does not end with its head. -/
theorem noContent_waits : ¬ EndsAtHead noCodec noContentLine ⟨[], [chunkedField]⟩ [] :=
  not_endsAtHead_of_chunked noCodec noContentLine rfl (by decide +kernel) []

end ResponseParser

end Fizzpy
