import Fizzpy.Numerals
import Fizzpy.Http.Lines

/-!
# Responses on the wire

The messages a server may send, as values that are well formed by construction, and how they are
written. This is what the parser is for; nothing here is taken from its code.
-/

namespace Fizzpy

/-- A header field: a name and a value, with optional white space around the value. -/
structure HeaderField where
  name : Bytes
  value : Bytes
  leading : Bytes
  trailing : Bytes
  name_ne : name ≠ []
  name_ok : ∀ b ∈ name, b ≠ COLON ∧ isSpace (chr b) = false
  value_line : ∀ b ∈ value, b ≠ CR ∧ b ≠ LF
  value_front : ∀ b ∈ value.head?, isSpace (chr b) = false
  value_back : ∀ b ∈ value.getLast?, isSpace (chr b) = false
  blank : ∀ b ∈ leading ++ trailing, b = SP ∨ b = HTAB

namespace HeaderField

/-- The case-insensitive name. -/
def key (f : HeaderField) : Str := lower (latin1 f.name)

def item (f : HeaderField) : Str × Str := (latin1 f.name, latin1 f.value)

def line (f : HeaderField) : Bytes := f.name ++ COLON :: (f.leading ++ f.value ++ f.trailing)

end HeaderField

/-- The names of the fields that say where a body ends. -/
def framingKeys : List Str := [str "content-length", str "transfer-encoding"]

def digitByte (d : ℕ) : UInt8 := (48 + d).toUInt8

/-- The status line and the header fields. -/
structure Head where
  major : ℕ
  minor : ℕ
  status : ℕ
  reason : Bytes
  fields : List HeaderField
  major_lt : major < 10
  minor_lt : minor < 10
  status_lt : status < 1000
  reason_line : ∀ b ∈ reason, b ≠ CR ∧ b ≠ LF

namespace Head

def version (h : Head) : Bytes := ascii "HTTP/" ++ [digitByte h.major, 46, digitByte h.minor]

def code (h : Head) : Bytes :=
  [digitByte (h.status / 100), digitByte (h.status / 10 % 10), digitByte (h.status % 10)]

def statusLine (h : Head) : Bytes := h.version ++ SP :: (h.code ++ SP :: h.reason)

def lines (h : Head) : List Bytes := h.fields.map HeaderField.line

def encode (h : Head) : Bytes := h.statusLine ++ CRLF ++ (writeLines h.lines ++ CRLF)

def headers (h : Head) : Headers := .ofItems (h.fields.map HeaderField.item)

end Head

/-! ## Bodies -/

/-- The extensions of a chunk, from their first semicolon on; blanks may stand before it. -/
structure ChunkExt where
  text : Bytes
  semi : ∀ b ∈ text.takeWhile (· ≠ SEMI), b = SP ∨ b = HTAB
  line : CrlfFree text

structure Chunk where
  data : Bytes
  size : List (Fin 16 × Bool)
  ext : ChunkExt
  data_ne : data ≠ []
  size_eq : hexValue size = data.length

def sizeLine (size : List (Fin 16 × Bool)) (ext : ChunkExt) : Bytes := size.map hexDigit ++ ext.text

def Chunk.encode (c : Chunk) : Bytes := sizeLine c.size c.ext ++ CRLF ++ (c.data ++ CRLF)

/-- The chunks, the last chunk with its `zeros + 1` zeros, and the trailer lines. -/
structure ChunkedBody where
  chunks : List Chunk
  zeros : ℕ
  ext : ChunkExt
  trailers : List Bytes
  trailers_ok : ∀ l ∈ trailers, CrlfFree l ∧ l ≠ []

namespace ChunkedBody

def data (b : ChunkedBody) : Bytes := b.chunks.flatMap Chunk.data

def lastSize (b : ChunkedBody) : List (Fin 16 × Bool) := List.replicate (b.zeros + 1) (0, false)

/-- The last chunk and the trailer section. -/
def encodeEnd (b : ChunkedBody) : Bytes :=
  sizeLine b.lastSize b.ext ++ CRLF ++ (writeLines b.trailers ++ CRLF)

def encode (b : ChunkedBody) : Bytes := b.chunks.flatMap Chunk.encode ++ b.encodeEnd

end ChunkedBody

/-- A body whose length is announced, in decimal; zeros may stand in front, up to what `int` reads.
It is a `bytes`, so its length is bounded. -/
structure LengthBody where
  field : HeaderField
  data : Bytes
  zeros : ℕ
  key_eq : field.key = str "content-length"
  value_eq : field.value = padded zeros data.length
  zeros_le : zeros + 19 ≤ intMaxStrDigits
  length_le : data.length ≤ maxSize

/-- The field that announces a chunked body. -/
structure ChunkedField where
  field : HeaderField
  key_eq : field.key = str "transfer-encoding"
  value_eq : lower (latin1 field.value) = str "chunked"

/-- Where the body ends. A bodiless response may still announce the length of what it leaves out. -/
inductive Framing
  | length (body : LengthBody)
  | chunked (field : ChunkedField) (body : ChunkedBody)
  | untilClose (data : Bytes)
  | bodiless (fields : List HeaderField) (keys : ∀ f ∈ fields, f.key = str "content-length")

namespace Framing

def fields : Framing → List HeaderField
  | length body => [body.field]
  | chunked field _ => [field.field]
  | untilClose _ => []
  | bodiless fields _ => fields

def data : Framing → Bytes
  | length body => body.data
  | chunked _ body => body.data
  | untilClose data => data
  | bodiless _ _ => []

def encode : Framing → Bytes
  | length body => body.data
  | chunked _ body => body.encode
  | untilClose data => data
  | bodiless _ _ => []

def isUntilClose : Framing → Bool
  | untilClose _ => true
  | _ => false

def isBodiless : Framing → Bool
  | bodiless _ _ => true
  | _ => false

end Framing

/-- A final response. Only 204 and 304 have no body. -/
structure FinalResponse where
  head : Head
  before : List HeaderField
  framing : Framing
  after : List HeaderField
  final : 200 ≤ head.status
  fields_eq : head.fields = before ++ framing.fields ++ after
  plain : ∀ f ∈ before ++ after, f.key ∉ framingKeys
  bodiless_iff : framing.isBodiless ↔ head.status = 204 ∨ head.status = 304

namespace FinalResponse

def encode (m : FinalResponse) : Bytes := m.head.encode ++ m.framing.encode

end FinalResponse

/-- An interim response ends with its head. -/
structure InterimResponse where
  head : Head
  interim : 100 ≤ head.status ∧ head.status < 200
  plain : ∀ f ∈ head.fields, f.key ∉ framingKeys

/-- The field that announces a length, in decimal; zeros may stand in front. -/
structure LengthField where
  field : HeaderField
  zeros : ℕ
  length : ℕ
  key_eq : field.key = str "content-length"
  value_eq : field.value = padded zeros length

namespace LengthField

/-- The digits of the length. -/
def digits (f : LengthField) : ℕ := f.zeros + (Nat.toDigits 10 f.length).length

end LengthField

/-- What a head says about the body behind it. -/
inductive Announcement
  | length (field : LengthField)
  | chunked (field : ChunkedField)
  | silent

def Announcement.fields : Announcement → List HeaderField
  | length f => [f.field]
  | chunked f => [f.field]
  | silent => []

/-- The head of a final response, whatever comes behind it. -/
structure FinalHead where
  head : Head
  before : List HeaderField
  announced : Announcement
  after : List HeaderField
  final : 200 ≤ head.status
  fields_eq : head.fields = before ++ announced.fields ++ after
  plain : ∀ f ∈ before ++ after, f.key ∉ framingKeys

/-- The statuses that are never followed by a body. -/
def FinalHead.Bodyless (m : FinalHead) : Prop := m.head.status = 204 ∨ m.head.status = 304

/-! ## Some messages -/

def greetingField : ChunkedField where
  field := {
    name := ascii "Transfer-Encoding", value := ascii "chunked", leading := [SP], trailing := []
    name_ne := by decide, name_ok := by decide +kernel, value_line := by decide +kernel
    value_front := by decide +kernel, value_back := by decide +kernel, blank := by decide +kernel }
  key_eq := by decide
  value_eq := by decide

def greetingBody : ChunkedBody where
  chunks := [{
    data := ascii "hello", size := [(5, false)], ext := ⟨[], by decide +kernel, by decide +kernel⟩
    data_ne := by decide, size_eq := by decide }]
  zeros := 0
  ext := ⟨[], by decide +kernel, by decide +kernel⟩
  trailers := []
  trailers_ok := by decide

/-- `200 OK` with the chunked body `hello`. -/
def greeting : FinalResponse where
  head := {
    major := 1, minor := 1, status := 200, reason := ascii "OK"
    fields := [greetingField.field]
    major_lt := by decide, minor_lt := by decide, status_lt := by decide
    reason_line := by decide +kernel }
  before := []
  framing := .chunked greetingField greetingBody
  after := []
  final := by decide
  fields_eq := rfl
  plain := by decide
  bodiless_iff := by decide

def lengthOne : HeaderField where
  name := ascii "Content-Length"
  value := ascii "1"
  leading := [SP]
  trailing := []
  name_ne := by decide
  name_ok := by decide +kernel
  value_line := by decide +kernel
  value_front := by decide +kernel
  value_back := by decide +kernel
  blank := by decide +kernel

/-- `200 OK` with a body of one byte. -/
def letter (b : UInt8) : FinalResponse where
  head := {
    major := 1, minor := 1, status := 200, reason := ascii "OK", fields := [lengthOne]
    major_lt := by decide, minor_lt := by decide, status_lt := by decide
    reason_line := by decide +kernel }
  before := []
  framing := .length {
    field := lengthOne, data := [b], zeros := 0
    key_eq := by decide
    value_eq := show ascii "1" = padded 0 1 by decide
    zeros_le := by decide
    length_le := show 1 ≤ maxSize by decide }
  after := []
  final := by decide
  fields_eq := rfl
  plain := by decide
  bodiless_iff := show false = true ↔ 200 = 204 ∨ 200 = 304 by decide

/-- The head of `letter`, as it answers a request whose response has no body. -/
def letterHead : FinalHead where
  head := (letter 97).head
  before := []
  announced := .length {
    field := lengthOne, zeros := 0, length := 1
    key_eq := by decide
    value_eq := show ascii "1" = padded 0 1 by decide }
  after := []
  final := by decide
  fields_eq := rfl
  plain := by decide

def earlyHints : InterimResponse where
  head := {
    major := 1, minor := 1, status := 103, reason := ascii "Early Hints", fields := []
    major_lt := by decide, minor_lt := by decide, status_lt := by decide
    reason_line := by decide +kernel }
  interim := by decide
  plain := by decide

end Fizzpy
