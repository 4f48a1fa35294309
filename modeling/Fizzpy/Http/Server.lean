import Fizzpy.Foundation.Sequence
import Fizzpy.Http.Lines
import Fizzpy.Http.Request
import Fizzpy.Numerals

/-!
# Requests, as a server reads them

`readRequests` reads a stream of requests the way an HTTP/1.1 server does. It is the meaning of what
`build_request` writes, and not taken from its code. `requests_decode` says that the requests of any
calls are read back, one behind the other, as they were asked for.
-/

namespace Fizzpy

open Foundation

structure ServerRequest where
  method : Str
  path : Str
  fields : List (Str × Str)
  body : Option Bytes
  deriving DecidableEq

/-! ## Reading -/

/-- White space around a field value. -/
def isBlank (b : UInt8) : Bool := b = SP || b = HTAB

/-- Method, path and version, each separated by one space. -/
def readRequestLine (line : Bytes) : Option (Str × Str) :=
  match split [SP] line with
  | [method, path, version] =>
    if method ≠ [] ∧ path ≠ [] ∧ version = ascii "HTTP/1.1" then some (latin1 method, latin1 path)
    else none
  | _ => none

/-- A name without blanks, a colon, and the value in blanks. -/
def readField (line : Bytes) : Option (Str × Str) :=
  match find [COLON] line with
  | none | some 0 => none
  | some colon =>
    let name := line.take colon
    if name.any isBlank then none
    else some (latin1 name, latin1 (strip isBlank (line.drop (colon + 1))))

def fieldValues (name : Str) (fields : List (Str × Str)) : List Str :=
  (fields.filter fun p => lower p.1 = name).map Prod.snd

def readLength (value : Str) : Option ℕ :=
  if value ≠ [] ∧ value.all Char.isDigit then some (ofDigits 10 (value.map fun c => c.toNat - 48))
  else none

/-- The length of the body, `some none` for a request without one. A second length, and a transfer
encoding, is refused. -/
def bodyLength (fields : List (Str × Str)) : Option (Option ℕ) :=
  if fieldValues (str "transfer-encoding") fields ≠ [] then none
  else
    match fieldValues (str "content-length") fields with
    | [] => some none
    | [value] => (readLength value).map some
    | _ => none

/-- As many octets as the length says. -/
def readBody (length : Option ℕ) (rest : Bytes) : Option (Option Bytes × Bytes) :=
  match length with
  | none => some (none, rest)
  | some n => if n ≤ rest.length then some (some (rest.take n), rest.drop n) else none

/-- The request line, the field lines up to the blank line, and the body. -/
def readRequest (buf : Bytes) : Option (ServerRequest × Bytes) := do
  let e ← find CRLFCRLF buf
  match split CRLF (buf.take e) with
  | [] => none
  | line :: lines =>
    let (method, path) ← readRequestLine line
    let fields ← lines.mapM readField
    let length ← bodyLength fields
    let (body, rest) ← readBody length (buf.drop (e + 4))
    some (⟨method, path, fields, body⟩, rest)

theorem readBody_le {length : Option ℕ} {rest rest' : Bytes} {body : Option Bytes}
    (h : readBody length rest = some (body, rest')) : rest'.length ≤ rest.length := by
  unfold readBody at h
  split at h
  · cases h; exact le_rfl
  · split_ifs at h
    cases h
    rw [List.length_drop]
    omega

theorem readRequest_consumes : Consumes readRequest := by
  intro buf r rest h
  unfold readRequest at h
  obtain ⟨e, he, h⟩ := Option.bind_eq_some_iff.mp h
  have hlen := find_add_length_le (by decide) he
  split at h
  · cases h
  · obtain ⟨first, -, h⟩ := Option.bind_eq_some_iff.mp h
    obtain ⟨fields, -, h⟩ := Option.bind_eq_some_iff.mp h
    obtain ⟨length, -, h⟩ := Option.bind_eq_some_iff.mp h
    obtain ⟨⟨body, rest'⟩, hbody, h⟩ := Option.bind_eq_some_iff.mp h
    cases h
    have hle := readBody_le hbody
    rw [List.length_drop] at hle
    have : CRLFCRLF.length = 4 := rfl
    omega

def readRequests (stream : Bytes) : Option (List ServerRequest) :=
  readAll readRequest readRequest_consumes stream

/-! ## Writing -/

/-- The arguments of a `build_request`. -/
structure RequestCall where
  method : Str
  path : Str
  host : Str
  headers : List (Str × Str)
  body : Option Bytes

/-- No line break inside and no white space at the edges. -/
structure FieldText (s : Str) : Prop where
  line : ∀ c ∈ s, c ≠ chr CR ∧ c ≠ chr LF
  front : ∀ c ∈ s.head?, isSpace c = false
  back : ∀ c ∈ s.getLast?, isSpace c = false

/-- A part of the request line. -/
structure RequestToken (s : Str) : Prop where
  nonempty : s ≠ []
  plain : ∀ c ∈ s, c ≠ chr SP ∧ c ≠ chr CR ∧ c ≠ chr LF

/-- A field name. -/
structure FieldName (s : Str) : Prop where
  nonempty : s ≠ []
  plain : ∀ c ∈ s, c ≠ chr COLON ∧ isSpace c = false

/-- Arguments that a request line and field lines can say. -/
structure RequestCall.Sayable (call : RequestCall) : Prop where
  latin1 : Latin1 call.method ∧ Latin1 call.path ∧ Latin1 call.host ∧
    ∀ p ∈ call.headers, Latin1 p.1 ∧ Latin1 p.2
  method : RequestToken call.method
  path : RequestToken call.path
  host : FieldText call.host
  names : ∀ p ∈ call.headers, FieldName p.1
  values : ∀ p ∈ call.headers, FieldText p.2
  distinct : (call.headers.map fun p => lower p.1).Nodup
  unframed : ∀ p ∈ call.headers,
    lower p.1 ≠ str "content-length" ∧ lower p.1 ≠ str "transfer-encoding"

namespace RequestCall

def build (call : RequestCall) : Option Bytes :=
  buildRequest call.method call.path call.host call.headers call.body

def fields (call : RequestCall) : List (Str × Str) :=
  defaultFields call.host call.headers call.body ++ call.headers

/-- What a server should make of the request. -/
def request (call : RequestCall) : ServerRequest := ⟨call.method, call.path, call.fields, call.body⟩

/-- The caller's own `Host`, or the default. -/
def hostField (call : RequestCall) : Str × Str :=
  (call.headers.find? fun p => lower p.1 = str "host").getD (str "Host", call.host)

end RequestCall

/-! ## Field lines -/

/-- A field as it is written. -/
structure GoodField (p : Str × Str) : Prop where
  latin1 : Latin1 p.1 ∧ Latin1 p.2
  name : FieldName p.1
  value : FieldText p.2

theorem forall_of_all {P : Char → Prop} [DecidablePred P] {s : Str}
    (h : s.all (fun c => decide (P c)) = true) : ∀ c ∈ s, P c :=
  fun c hc => of_decide_eq_true (List.all_eq_true.mp h c hc)

theorem isSpace_of_isBlank {b : UInt8} (h : isBlank b = true) : isSpace (chr b) = true :=
  isSpace_chr_of_blank (by simpa [isBlank] using h)

theorem not_isBlank {s : Str} (hs : Latin1 s) {c : Char} (hc : c ∈ s) (h : isSpace c = false) :
    isBlank c.toNat.toUInt8 = false := by
  cases hb : isBlank c.toNat.toUInt8 with
  | false => rfl
  | true =>
    have hsp := isSpace_of_isBlank hb
    rw [chr_code (hs c hc), h] at hsp
    cases hsp

theorem strip_codes {s : Str} (hs : Latin1 s) (h : FieldText s) :
    strip isBlank (SP :: codes s) = codes s := by
  rw [show SP :: codes s = [SP] ++ codes s from rfl,
    strip_append_left (by simp [isBlank]) (codes s)]
  refine strip_eq_self (fun b hb => ?_) (fun b hb => ?_)
  · unfold codes at hb
    rw [List.head?_map] at hb
    obtain ⟨c, hc, rfl⟩ := Option.map_eq_some_iff.mp hb
    exact not_isBlank hs (List.mem_of_mem_head? hc) (h.front c hc)
  · unfold codes at hb
    rw [List.getLast?_map] at hb
    obtain ⟨c, hc, rfl⟩ := Option.map_eq_some_iff.mp hb
    exact not_isBlank hs (List.mem_of_mem_getLast? hc) (h.back c hc)

theorem codes_field (p : Str × Str) :
    codes (p.1 ++ str ": " ++ p.2) = codes p.1 ++ COLON :: SP :: codes p.2 := by
  rw [codes_append, codes_append, List.append_assoc]
  rfl

/-- A field is read back. -/
theorem readField_field {p : Str × Str} (h : GoodField p) :
    readField (codes (p.1 ++ str ": " ++ p.2)) = some p := by
  have hfind : find [COLON] (codes p.1 ++ COLON :: SP :: codes p.2) = some (codes p.1).length :=
    find_singleton (codes_ne h.latin1.1 fun c hc => (h.name.plain c hc).1) _
  have hpos : (codes p.1).length ≠ 0 := by
    unfold codes
    rw [List.length_map]
    exact mt List.eq_nil_of_length_eq_zero h.name.nonempty
  have hdrop : (codes p.1 ++ COLON :: SP :: codes p.2).drop ((codes p.1).length + 1) =
      SP :: codes p.2 := by
    rw [← List.drop_drop, List.drop_left]
    rfl
  have hblank : (codes p.1).any isBlank = false := by
    rw [List.any_eq_false]
    intro b hb hblank
    have hsp := isSpace_of_isBlank hblank
    rw [(h.name.plain _ (chr_mem h.latin1.1 hb)).2] at hsp
    cases hsp
  rw [codes_field]
  unfold readField
  rw [hfind]
  split
  · rename_i hnone; cases hnone
  · rename_i hzero; exact absurd (Option.some.inj hzero) hpos
  · rename_i colon _ hcolon
    obtain rfl := Option.some.inj hcolon
    rw [List.take_left, hdrop, strip_codes h.latin1.2 h.value]
    dsimp only
    rw [hblank, if_neg Bool.false_ne_true, latin1_codes h.latin1.1, latin1_codes h.latin1.2]

theorem mapM_some {α β : Type} {f : α → Option β} {g : α → β} {xs : List α}
    (h : ∀ x ∈ xs, f x = some (g x)) : xs.mapM f = some (xs.map g) := by
  induction xs with
  | nil => rfl
  | cons x xs ih =>
    rw [List.mapM_cons, h x List.mem_cons_self, ih fun y hy => h y (List.mem_cons_of_mem x hy)]
    rfl

theorem crlfFree_codes {s : Str} (hs : Latin1 s) (h : ∀ c ∈ s, c ≠ chr CR) : CrlfFree (codes s) :=
  crlfFree_of_forall (codes_ne hs h)

theorem isSpace_cr : isSpace (chr CR) = true := by decide

theorem field_line_ok {p : Str × Str} (h : GoodField p) :
    CrlfFree (codes (p.1 ++ str ": " ++ p.2)) ∧ codes (p.1 ++ str ": " ++ p.2) ≠ [] := by
  refine ⟨crlfFree_codes ?_ fun c hc => ?_, by rw [codes_field]; simp⟩
  · rw [latin1_append_iff, latin1_append_iff]
    exact ⟨⟨h.latin1.1, by decide⟩, h.latin1.2⟩
  · rw [List.mem_append, List.mem_append] at hc
    obtain (hc | hc) | hc := hc
    · intro hcr
      have := (h.name.plain c hc).2
      rw [hcr, isSpace_cr] at this
      cases this
    · exact forall_of_all (P := fun c => c ≠ chr CR) (by decide) c hc
    · exact (h.value.line c hc).1

/-! ## The request line -/

def requestLine (call : RequestCall) : Str := call.method ++ str " " ++ call.path ++ str " HTTP/1.1"

theorem codes_requestLine (call : RequestCall) : codes (requestLine call) =
    codes call.method ++ SP :: (codes call.path ++ SP :: ascii "HTTP/1.1") := by
  unfold requestLine
  rw [codes_append, codes_append, codes_append, List.append_assoc, List.append_assoc]
  rfl

theorem readRequestLine_requestLine {call : RequestCall} (h : call.Sayable) :
    readRequestLine (codes (requestLine call)) = some (call.method, call.path) := by
  have hsplit : split [SP] (codes (requestLine call)) =
      [codes call.method, codes call.path, ascii "HTTP/1.1"] := by
    rw [codes_requestLine,
      split_singleton_cons (codes_ne h.latin1.1 fun c hc => (h.method.plain c hc).1),
      split_singleton_cons (codes_ne h.latin1.2.1 fun c hc => (h.path.plain c hc).1)]
    rfl
  have hne : ∀ {s : Str}, RequestToken s → codes s ≠ [] := fun hs =>
    mt List.map_eq_nil_iff.mp hs.nonempty
  unfold readRequestLine
  rw [hsplit]
  dsimp only
  rw [if_pos ⟨hne h.method, hne h.path, rfl⟩, latin1_codes h.latin1.1, latin1_codes h.latin1.2.1]

theorem requestLine_ok {call : RequestCall} (h : call.Sayable) :
    CrlfFree (codes (requestLine call)) ∧ codes (requestLine call) ≠ [] := by
  refine ⟨crlfFree_codes ?_ fun c hc => ?_, by rw [codes_requestLine]; simp⟩
  · unfold requestLine
    rw [latin1_append_iff, latin1_append_iff, latin1_append_iff]
    exact ⟨⟨⟨h.latin1.1, by decide⟩, h.latin1.2.1⟩, by decide⟩
  · unfold requestLine at hc
    rw [List.mem_append, List.mem_append, List.mem_append] at hc
    obtain ((hc | hc) | hc) | hc := hc
    · exact (h.method.plain c hc).2.1
    · exact forall_of_all (P := fun c => c ≠ chr CR) (by decide) c hc
    · exact (h.path.plain c hc).2.1
    · exact forall_of_all (P := fun c => c ≠ chr CR) (by decide) c hc

/-! ## The fields -/

theorem isSpace_digit {c : Char} (h : c.isDigit) : isSpace c = false := by
  obtain ⟨h₁, h₂⟩ := isDigit_toNat h
  unfold isSpace
  rw [Bool.or_eq_false_iff]
  constructor
  · rw [decide_eq_false_iff_not]
    simp only [List.mem_cons, List.not_mem_nil, or_false]
    omega
  · rw [Bool.and_eq_false_iff]
    left
    rw [decide_eq_false_iff_not]
    omega

theorem isDigit_decimal {n : ℕ} {c : Char} (h : c ∈ Nat.toDigits 10 n) : c.isDigit :=
  Nat.isDigit_of_mem_toDigits (by decide) (by decide) h

theorem host_ok : Latin1 (str "Host") ∧ FieldName (str "Host") :=
  ⟨by decide, by decide, forall_of_all (by decide)⟩

theorem contentLength_ok : Latin1 (str "Content-Length") ∧ FieldName (str "Content-Length") :=
  ⟨by decide, by decide, forall_of_all (by decide)⟩

theorem goodField_length (n : ℕ) : GoodField (str "Content-Length", Nat.toDigits 10 n) where
  latin1 := ⟨contentLength_ok.1, fun c hc => by
    have := isDigit_toNat (isDigit_decimal hc)
    omega⟩
  name := contentLength_ok.2
  value := {
    line := fun c hc => by
      have hd := isDigit_toNat (isDigit_decimal hc)
      constructor
      · rintro rfl; exact absurd hd (by decide)
      · rintro rfl; exact absurd hd (by decide)
    front := fun c hc => isSpace_digit (isDigit_decimal (List.mem_of_mem_head? hc))
    back := fun c hc => isSpace_digit (isDigit_decimal (List.mem_of_mem_getLast? hc)) }

theorem not_supplied {headers : List (Str × Str)} {name : Str}
    (h : ∀ p ∈ headers, lower p.1 ≠ name) : name ∉ headers.map fun p => lower p.1 := by
  intro hmem
  obtain ⟨p, hp, heq⟩ := List.mem_map.mp hmem
  exact h p hp heq

/-- The defaults, when the caller gives no length. -/
theorem defaultFields_eq {call : RequestCall} (h : call.Sayable) :
    defaultFields call.host call.headers call.body =
      (if str "host" ∈ call.headers.map (fun p => lower p.1) then []
        else [(str "Host", call.host)]) ++
      ((call.body.map List.length).toList.map fun n =>
        (str "Content-Length", Nat.toDigits 10 n)) := by
  have hlength := not_supplied fun p hp => (h.unframed p hp).1
  unfold defaultFields
  cases call.body with
  | none => rfl
  | some body =>
    simp only [if_neg hlength, Option.map_some, Option.toList_some, List.map_cons, List.map_nil]

theorem goodField_fields {call : RequestCall} (h : call.Sayable) : ∀ p ∈ call.fields, GoodField p := by
  intro p hp
  unfold RequestCall.fields at hp
  rw [defaultFields_eq h, List.mem_append, List.mem_append] at hp
  obtain (hp | hp) | hp := hp
  · split_ifs at hp
    · cases hp
    · rw [List.mem_singleton.mp hp]
      exact ⟨⟨host_ok.1, h.latin1.2.2.1⟩, host_ok.2, h.host⟩
  · obtain ⟨n, -, rfl⟩ := List.mem_map.mp hp
    exact goodField_length n
  · exact ⟨h.latin1.2.2.2 p hp, h.names p hp, h.values p hp⟩

/-! ## The body -/

theorem fieldValues_append (name : Str) (a b : List (Str × Str)) :
    fieldValues name (a ++ b) = fieldValues name a ++ fieldValues name b := by
  unfold fieldValues
  rw [List.filter_append, List.map_append]

theorem fieldValues_absent {name : Str} {fields : List (Str × Str)}
    (h : ∀ p ∈ fields, lower p.1 ≠ name) : fieldValues name fields = [] := by
  unfold fieldValues
  rw [List.map_eq_nil_iff, List.filter_eq_nil_iff]
  intro p hp heq
  exact h p hp (of_decide_eq_true heq)

/-- The values of a framing name are those of the default. -/
theorem fieldValues_fields {call : RequestCall} (h : call.Sayable) {name : Str}
    (hhost : lower (str "Host") ≠ name) (hown : ∀ p ∈ call.headers, lower p.1 ≠ name) :
    fieldValues name call.fields = fieldValues name
      ((call.body.map List.length).toList.map fun n =>
        (str "Content-Length", Nat.toDigits 10 n)) := by
  unfold RequestCall.fields
  rw [defaultFields_eq h, fieldValues_append, fieldValues_append, fieldValues_absent hown,
    List.append_nil]
  split_ifs
  · rfl
  · rw [fieldValues_absent (by simpa using hhost), List.nil_append]

theorem readLength_decimal (n : ℕ) : readLength (Nat.toDigits 10 n) = some n := by
  unfold readLength
  rw [if_pos ⟨Nat.toDigits_ne_nil, List.all_eq_true.mpr fun c hc => isDigit_decimal hc⟩,
    ofDigits_toDigits]

theorem fieldValues_lengths (lengths : List ℕ) :
    fieldValues (str "content-length")
        (lengths.map fun n => (str "Content-Length", Nat.toDigits 10 n)) =
      lengths.map (Nat.toDigits 10) ∧
    fieldValues (str "transfer-encoding")
        (lengths.map fun n => (str "Content-Length", Nat.toDigits 10 n)) = [] := by
  constructor
  · unfold fieldValues
    rw [List.filter_eq_self.mpr, List.map_map]
    · rfl
    · intro p hp
      obtain ⟨n, -, rfl⟩ := List.mem_map.mp hp
      exact decide_eq_true (show lower (str "Content-Length") = str "content-length" by decide)
  · refine fieldValues_absent fun p hp => ?_
    obtain ⟨n, -, rfl⟩ := List.mem_map.mp hp
    exact show lower (str "Content-Length") ≠ str "transfer-encoding" by decide

theorem bodyLength_fields {call : RequestCall} (h : call.Sayable) :
    bodyLength call.fields = some (call.body.map List.length) := by
  unfold bodyLength
  rw [fieldValues_fields h (by decide) fun p hp => (h.unframed p hp).1,
    fieldValues_fields h (by decide) fun p hp => (h.unframed p hp).2,
    (fieldValues_lengths _).1, (fieldValues_lengths _).2, if_neg (not_not.mpr rfl)]
  cases call.body with
  | none => rfl
  | some body => exact congrArg (Option.map some) (readLength_decimal body.length)

theorem readBody_body (body : Option Bytes) (rest : Bytes) :
    readBody (body.map List.length) (body.getD [] ++ rest) = some (body, rest) := by
  cases body with
  | none => rfl
  | some body =>
    show (if body.length ≤ (body ++ rest).length then _ else _) = _
    rw [if_pos (by simp)]
    show some (some ((body ++ rest).take body.length), (body ++ rest).drop body.length) = _
    rw [List.take_left, List.drop_left]

/-! ## Requests -/

namespace RequestCall

def lines (call : RequestCall) : List Str :=
  requestLine call :: call.fields.map fun p => p.1 ++ str ": " ++ p.2

/-- The bytes of a request. -/
def encode (call : RequestCall) : Bytes :=
  writeLines (call.lines.map codes) ++ CRLF ++ call.body.getD []

variable {call : RequestCall}

theorem lines_latin1 (h : call.Sayable) : ∀ line ∈ call.lines, Latin1 line := by
  unfold lines requestLine
  rw [List.forall_mem_cons, List.forall_mem_map]
  refine ⟨?_, fun p hp => ?_⟩
  · rw [latin1_append_iff, latin1_append_iff, latin1_append_iff]
    exact ⟨⟨⟨h.latin1.1, by decide⟩, h.latin1.2.1⟩, by decide⟩
  · rw [latin1_append_iff, latin1_append_iff]
    exact ⟨⟨(goodField_fields h p hp).latin1.1, by decide⟩, (goodField_fields h p hp).latin1.2⟩

theorem lines_ok (h : call.Sayable) : ∀ l ∈ call.lines.map codes, CrlfFree l ∧ l ≠ [] := by
  rw [List.forall_mem_map]
  unfold lines
  rw [List.forall_mem_cons, List.forall_mem_map]
  exact ⟨requestLine_ok h, fun p hp => field_line_ok (goodField_fields h p hp)⟩

theorem lines_ne (call : RequestCall) : call.lines.map codes ≠ [] := nofun

theorem build_eq (h : call.Sayable) : call.build = some call.encode := by
  have hlines : requestLines call.method call.path call.host call.headers call.body = call.lines := rfl
  unfold build encode
  rw [buildRequest_eq, hlines, if_pos (lines_latin1 h), codes_append, codes_join,
    writeLines_eq_join call.lines_ne, List.append_assoc (join CRLF _) CRLF CRLF]
  rfl

/-- A request is read back, whatever follows it. -/
theorem readRequest_encode (h : call.Sayable) (rest : Bytes) :
    readRequest (call.encode ++ rest) = some (call.request, rest) := by
  have hbuf : call.encode ++ rest =
      writeLines (call.lines.map codes) ++ CRLF ++ (call.body.getD [] ++ rest) :=
    List.append_assoc ..
  have hfind := find_crlfcrlf (lines_ok h) call.lines_ne (call.body.getD [] ++ rest)
  have hdrop := drop_block call.lines_ne (call.body.getD [] ++ rest)
  have htake : (writeLines (call.lines.map codes) ++ CRLF ++ (call.body.getD [] ++ rest)).take
      (join CRLF (call.lines.map codes)).length = join CRLF (call.lines.map codes) := by
    rw [writeLines_eq_join call.lines_ne, List.append_assoc, List.append_assoc, List.take_left]
  have hfields : (call.fields.map fun p => codes (p.1 ++ str ": " ++ p.2)).mapM readField =
      some call.fields := by
    rw [List.mapM_map]
    exact (mapM_some (g := id) fun p hp => readField_field (goodField_fields h p hp)).trans
      (congrArg some (List.map_id _))
  have hlines : call.lines.map codes =
      codes (requestLine call) :: call.fields.map fun p => codes (p.1 ++ str ": " ++ p.2) := by
    unfold lines
    rw [List.map_cons, List.map_map]
    rfl
  unfold readRequest
  rw [hbuf, hfind]
  show (match split CRLF (List.take _ _) with | [] => none | line :: lines => _ :
    Option (ServerRequest × Bytes)) = _
  rw [htake, hdrop, split_join (fun l hl => (lines_ok h l hl).1) call.lines_ne, hlines]
  dsimp only
  rw [readRequestLine_requestLine h, hfields]
  show (bodyLength call.fields >>= _) = _
  rw [bodyLength_fields h]
  show (readBody (call.body.map List.length) (call.body.getD [] ++ rest) >>= _) = _
  rw [readBody_body]
  rfl

/-! ## The Host field -/

theorem filter_of_nodup {α β : Type} [DecidableEq β] {key : α → β} {k : β} {xs : List α}
    (h : (xs.map key).Nodup) :
    (xs.filter fun x => key x = k) = (xs.find? fun x => key x = k).toList := by
  induction xs with
  | nil => rfl
  | cons x xs ih =>
    rw [List.map_cons, List.nodup_cons] at h
    by_cases hx : key x = k
    · have hrest : (xs.filter fun y => key y = k) = [] := by
        rw [List.filter_eq_nil_iff]
        intro y hy hk
        rw [hx] at h
        exact h.1 (List.mem_map.mpr ⟨y, hy, of_decide_eq_true hk⟩)
      rw [List.filter_cons_of_pos (by simpa using hx), List.find?_cons_of_pos (by simpa using hx),
        hrest]
      rfl
    · rw [List.filter_cons_of_neg (by simpa using hx), List.find?_cons_of_neg (by simpa using hx),
        ih h.2]

/-- One `Host` field is written. -/
theorem host_fields (h : call.Sayable) :
    (call.fields.filter fun p => lower p.1 = str "host") = [call.hostField] := by
  have hlength : ((call.body.map List.length).toList.map fun n =>
      (str "Content-Length", Nat.toDigits 10 n)).filter (fun p => lower p.1 = str "host") = [] := by
    rw [List.filter_eq_nil_iff]
    intro p hp
    obtain ⟨n, -, rfl⟩ := List.mem_map.mp hp
    exact of_decide_eq_true (show decide (¬ (decide (lower (str "Content-Length") = str "host") = true)) =
      true by decide)
  unfold fields hostField
  rw [defaultFields_eq h, List.filter_append, List.filter_append, hlength, List.append_nil,
    filter_of_nodup h.distinct]
  cases hfind : call.headers.find? fun p => lower p.1 = str "host" with
  | none =>
    rw [if_neg]
    · rfl
    · refine not_supplied fun p hp heq => ?_
      exact List.find?_eq_none.mp hfind p hp (decide_eq_true heq)
  | some p =>
    rw [if_pos]
    · rfl
    · have hp : decide (lower p.1 = str "host") = true :=
        List.find?_some (p := fun q : Str × Str => decide (lower q.1 = str "host")) hfind
      exact List.mem_map.mpr ⟨p, List.mem_of_find?_eq_some hfind, of_decide_eq_true hp⟩

end RequestCall

/-- **Requests decode.** The requests of any calls whose arguments can be said are built, and a server
reads them back from their concatenation as they were asked for: with one `Host` field each, the
caller's own if there is one, and the caller's fields behind the defaults. -/
theorem requests_decode {calls : List RequestCall} (h : ∀ call ∈ calls, call.Sayable) :
    ∃ raws, calls.mapM RequestCall.build = some raws ∧
      readRequests raws.flatten = some (calls.map RequestCall.request) ∧
      ∀ call ∈ calls, (call.fields.filter fun p => lower p.1 = str "host") = [call.hostField] ∧
        call.headers <:+ call.fields := by
  refine ⟨calls.map RequestCall.encode, mapM_some fun call hc => RequestCall.build_eq (h call hc), ?_,
    fun call hc => ⟨RequestCall.host_fields (h call hc), List.suffix_append _ _⟩⟩
  exact readAll_flatMap readRequest_consumes fun call hc => RequestCall.readRequest_encode (h call hc)

/-- A request with the caller's own `Host`, whose body looks like another request. -/
def nested : RequestCall :=
  ⟨str "POST", str "/a", str "a.b", [(str "hOST", str "c.d")],
    some (ascii "GET /b HTTP/1.1\r\nHost: a.b\r\n\r\n")⟩

theorem fieldText_of_all {s : Str} (hline : s.all (fun c => decide (c ≠ chr CR ∧ c ≠ chr LF)) = true)
    (hfront : s.head?.all (fun c => !isSpace c) = true)
    (hback : s.getLast?.all (fun c => !isSpace c) = true) : FieldText s := by
  refine ⟨forall_of_all hline, fun c hc => ?_, fun c hc => ?_⟩
  · rw [hc] at hfront
    simpa using hfront
  · rw [hc] at hback
    simpa using hback

theorem nested_sayable : nested.Sayable where
  latin1 := ⟨by decide, by decide, by decide, List.forall_mem_singleton.mpr ⟨by decide, by decide⟩⟩
  method := ⟨by decide, forall_of_all (by decide)⟩
  path := ⟨by decide, forall_of_all (by decide)⟩
  host := fieldText_of_all (by decide) (by decide) (by decide)
  names := List.forall_mem_singleton.mpr ⟨by decide, forall_of_all (by decide)⟩
  values := List.forall_mem_singleton.mpr (fieldText_of_all (by decide) (by decide) (by decide))
  distinct := by decide
  unframed := List.forall_mem_singleton.mpr ⟨by decide, by decide⟩

theorem requests_decode_nested : ∃ raws, [nested, nested].mapM RequestCall.build = some raws ∧
    readRequests raws.flatten = some ([nested, nested].map RequestCall.request) ∧
    ∀ call ∈ [nested, nested],
      (call.fields.filter fun p => lower p.1 = str "host") = [call.hostField] ∧
        call.headers <:+ call.fields :=
  requests_decode (by simpa using nested_sayable)

end Fizzpy
