import Fizzpy.Http.Chunking
import Fizzpy.Http.Message

/-!
# Decoding what was encoded

The parser reads a written response back, element by element: the status line, the field lines, the
framing they announce, the chunks, the trailers. It stops exactly behind the message.
-/

namespace Fizzpy

open Foundation

namespace ResponseParser

/-! ## Field lines -/

theorem strip_name {name : Bytes} (h : ∀ b ∈ name, isSpace (chr b) = false) :
    strip isSpace (latin1 name) = latin1 name := by
  have hc : ∀ c ∈ latin1 name, isSpace c = false := fun c hc => by
    obtain ⟨b, hb, rfl⟩ := List.mem_map.mp hc
    exact h b hb
  exact strip_eq_self (fun c h => hc c (List.mem_of_mem_head? h))
    (fun c h => hc c (List.mem_of_mem_getLast? h))

theorem strip_value (f : HeaderField) :
    strip isSpace (latin1 (f.leading ++ f.value ++ f.trailing)) = latin1 f.value := by
  have hblank : ∀ b ∈ f.leading ++ f.trailing, isSpace (chr b) = true := fun b hb =>
    isSpace_chr_of_blank (f.blank b hb)
  rw [latin1_append, latin1_append]
  refine strip_padded ?_ ?_ ?_ ?_
  · intro c hc
    obtain ⟨b, hb, rfl⟩ := List.mem_map.mp hc
    exact hblank b (by simp [hb])
  · intro c hc
    obtain ⟨b, hb, rfl⟩ := List.mem_map.mp hc
    exact hblank b (by simp [hb])
  · intro c hc
    rw [latin1, List.head?_map] at hc
    obtain ⟨b, hb, rfl⟩ := Option.map_eq_some_iff.mp hc
    exact f.value_front b hb
  · intro c hc
    rw [latin1, List.getLast?_map] at hc
    obtain ⟨b, hb, rfl⟩ := Option.map_eq_some_iff.mp hc
    exact f.value_back b hb

/-- A field line is read at its first colon. -/
theorem parseHeaderLine_field (h : Headers) {name : Bytes} (hne : name ≠ [])
    (hok : ∀ b ∈ name, b ≠ COLON) (hblank : name.head? ≠ some SP ∧ name.head? ≠ some HTAB)
    (text : Bytes) : parseHeaderLine h (name ++ COLON :: text) =
      .ok (h.add (strip isSpace (latin1 name)) (strip isSpace (latin1 text))) := by
  have hline : name ++ COLON :: text ≠ [] := by simp
  have hfront : ¬ ((name ++ COLON :: text).head? = some SP ∨
      (name ++ COLON :: text).head? = some HTAB) := by
    rw [List.head?_append_of_ne_nil _ hne, not_or]
    exact hblank
  have hcolon : find [COLON] (name ++ COLON :: text) = some name.length := find_singleton hok _
  have hlen : name.length ≠ 0 := by simp [hne]
  unfold parseHeaderLine
  rw [if_neg hline, if_neg hfront, hcolon]
  split
  · rename_i h0; cases h0
  · rename_i h0; exact absurd (Option.some.inj h0) hlen
  · rename_i h0
    cases h0
    have htake : (name ++ COLON :: text).take name.length = name := List.take_left
    have hdrop : (name ++ COLON :: text).drop (name.length + 1) = text := by
      rw [← List.drop_drop, List.drop_left]
      rfl
    rw [htake, hdrop]

/-- A name without white space does not begin with a blank. -/
theorem head_name {name : Bytes} (h : ∀ b ∈ name, isSpace (chr b) = false) :
    name.head? ≠ some SP ∧ name.head? ≠ some HTAB := by
  have hblank : ∀ b, b = SP ∨ b = HTAB → name.head? ≠ some b := by
    intro b hb hhead
    have hspace := h b (List.mem_of_mem_head? hhead)
    rw [isSpace_chr_of_blank hb] at hspace
    cases hspace
  exact ⟨hblank SP (.inl rfl), hblank HTAB (.inr rfl)⟩

theorem parseHeaderLine_line (h : Headers) (f : HeaderField) :
    parseHeaderLine h f.line = .ok (h.add f.item.1 f.item.2) := by
  unfold HeaderField.line
  have hspace : ∀ b ∈ f.name, isSpace (chr b) = false := fun b hb => (f.name_ok b hb).2
  rw [parseHeaderLine_field h f.name_ne (fun b hb => (f.name_ok b hb).1) (head_name hspace),
    strip_name hspace, strip_value]
  rfl

theorem parseHeaderLines_lines (fields : List HeaderField) : ∀ p : ResponseParser,
    parseHeaderLines (fields.map HeaderField.line) p =
      .ok { p with
        headers := (fields.map HeaderField.item).foldl (fun h i => h.add i.1 i.2) p.headers } := by
  induction fields with
  | nil => intro p; rfl
  | cons f fields ih =>
    intro p
    rw [List.map_cons, parseHeaderLines, parseHeaderLine_line]
    exact ih _

/-! ## The head -/

theorem digitByte_spec : ∀ d < 10, isDigit (digitByte d) = true ∧ (digitByte d).toNat - 48 = d := by
  decide

theorem statusLine_eq (h : Head) : h.statusLine =
    72 :: 84 :: 84 :: 80 :: 47 :: digitByte h.major :: 46 :: digitByte h.minor :: 32 ::
      digitByte (h.status / 100) :: digitByte (h.status / 10 % 10) :: digitByte (h.status % 10) ::
        32 :: h.reason := rfl

theorem matchReason_space {reason : Bytes} (h : ∀ b ∈ reason, b ≠ LF) :
    matchReason (32 :: reason) = some (some reason) := by
  have ht : reason.takeWhile (· ≠ LF) = reason := by
    rw [List.takeWhile_eq_self_iff]
    simpa using h
  unfold matchReason
  simp only [ht, List.drop_length]
  rfl

theorem matchStatusLine_statusLine (h : Head) :
    matchStatusLine h.statusLine = some ⟨h.version, h.code, some h.reason⟩ := by
  have hs := h.status_lt
  have hd (d : ℕ) (hd : d < 10) : isDigit (digitByte d) = true := (digitByte_spec d hd).1
  rw [statusLine_eq]
  unfold matchStatusLine
  dsimp only
  rw [if_pos ⟨by decide, hd _ h.major_lt, rfl, hd _ h.minor_lt, rfl, hd _ (by omega),
    hd _ (by omega), hd _ (by omega)⟩, matchReason_space fun b hb => (h.reason_line b hb).2]
  rfl

theorem ofDigits_code (h : Head) : ofDigits 10 (h.code.map fun b => b.toNat - 48) = h.status := by
  have hs := h.status_lt
  have hd (d : ℕ) (hd : d < 10) : (digitByte d).toNat - 48 = d := (digitByte_spec d hd).2
  simp only [Head.code, List.map_cons, List.map_nil, hd _ (show h.status / 100 < 10 by omega),
    hd _ (show h.status / 10 % 10 < 10 by omega), hd _ (show h.status % 10 < 10 by omega), ofDigits,
    List.foldl_cons, List.foldl_nil]
  omega

theorem crlfFree_statusLine (h : Head) : CrlfFree h.statusLine := by
  have hs := h.status_lt
  have hd : ∀ d < 10, digitByte d ≠ CR := by decide
  refine crlfFree_of_forall fun b hb => ?_
  simp only [statusLine_eq, List.mem_cons] at hb
  obtain rfl | rfl | rfl | rfl | rfl | rfl | rfl | rfl | rfl | rfl | rfl | rfl | rfl | hb := hb
  case inl | inr.inl | inr.inr.inl => decide
  all_goals first
    | decide
    | exact hd _ h.major_lt
    | exact hd _ h.minor_lt
    | exact hd _ (by omega)
    | exact (h.reason_line b hb).1

theorem line_ok (f : HeaderField) : CrlfFree f.line ∧ f.line ≠ [] := by
  refine ⟨crlfFree_of_forall fun b hb => ?_, by simp [HeaderField.line]⟩
  simp only [HeaderField.line, List.mem_append, List.mem_cons] at hb
  have hblank : ∀ b ∈ f.leading ++ f.trailing, b ≠ CR := fun b hb => by
    obtain rfl | rfl := f.blank b hb <;> decide
  obtain hb | rfl | (hb | hb) | hb := hb
  · rintro rfl
    exact absurd (f.name_ok CR hb).2 (by decide)
  · decide
  · exact hblank b (by simp [hb])
  · exact (f.value_line b hb).1
  · exact hblank b (by simp [hb])

theorem lines_ok (h : Head) : ∀ l ∈ h.lines, CrlfFree l ∧ l ≠ [] := by
  intro l hl
  obtain ⟨f, -, rfl⟩ := List.mem_map.mp hl
  exact line_ok f

theorem headerBlock_lines {ls : List Bytes} (h : ∀ l ∈ ls, CrlfFree l ∧ l ≠ []) (rest : Bytes) :
    headerBlock (writeLines ls ++ CRLF ++ rest) = some (join CRLF ls, rest) := by
  unfold headerBlock
  by_cases hne : ls = []
  · subst hne
    exact if_pos (List.prefix_append CRLF rest)
  · have hpre := not_crlf_prefix_lines h hne (CRLF ++ rest)
    rw [← List.append_assoc] at hpre
    rw [if_neg hpre, find_crlfcrlf h hne, Option.map_some, drop_block hne, writeLines_eq_join hne,
      List.append_assoc, List.append_assoc, List.take_left]

/-- The parser when it has read a head. -/
def afterHead (h : Head) (rest : Bytes) : ResponseParser where
  buf := rest
  state := .headers
  httpVersion := latin1 h.version
  statusCode := h.status
  reason := latin1 h.reason
  headers := h.headers

/-- The parser when it has read a status line. -/
def afterStatusLine (m : StatusLine) (buf : Bytes) : ResponseParser where
  buf := buf
  state := .headers
  httpVersion := latin1 m.version
  statusCode := ofDigits 10 (m.code.map fun b => b.toNat - 48)
  reason := latin1 (m.reason.getD [])

/-- The pieces of a block are its lines; of an empty block, one blank line, which is passed over. -/
theorem parseHeaderLines_split {ls : List Bytes} (h : ∀ l ∈ ls, CrlfFree l ∧ l ≠ [])
    (p : ResponseParser) :
    parseHeaderLines (split CRLF (join CRLF ls)) p = parseHeaderLines ls p := by
  by_cases hne : ls = []
  · subst hne
    rfl
  · rw [split_join (fun l hl => (h l hl).1) hne]

/-- A status line and the lines of a block are read off the front; what comes next depends on the
framing. -/
theorem feed_lines (codec : Codec) {line : Bytes} {m : StatusLine}
    (hm : matchStatusLine line = some m) (hline : CrlfFree line) {ls : List Bytes}
    (h : ∀ l ∈ ls, CrlfFree l ∧ l ≠ []) (rest : Bytes) :
    feed codec fresh (line ++ CRLF ++ (writeLines ls ++ CRLF ++ rest)) =
      (parseHeaderLines ls (afterStatusLine m rest) >>= resolveFraming) >>=
        fun p => parse codec { p with state := .body } := by
  have htake : (line ++ CRLF ++ (writeLines ls ++ CRLF ++ rest)).take line.length = line := by
    rw [List.append_assoc, List.take_left]
  have hdrop : (line ++ CRLF ++ (writeLines ls ++ CRLF ++ rest)).drop (line.length + 2) =
      writeLines ls ++ CRLF ++ rest := by
    rw [List.append_assoc, ← List.drop_drop, List.drop_left]
    rfl
  have hstart : feed codec fresh (line ++ CRLF ++ (writeLines ls ++ CRLF ++ rest)) =
      parse codec { fresh with buf := line ++ CRLF ++ (writeLines ls ++ CRLF ++ rest) } := rfl
  have hread (buf : Bytes) : readStatusLine line { fresh with buf } = .ok (afterStatusLine m buf) := by
    unfold readStatusLine
    rw [hm]
    rfl
  rw [hstart, parse_status_some codec rfl (find_crlf hline _)]
  dsimp only
  rw [htake, hdrop, hread, ok_bind, parse_headers_some codec rfl rfl (headerBlock_lines h rest)]
  unfold readBlock
  rw [parseHeaderLines_split h]
  show (parseHeaderLines ls (afterStatusLine m rest) >>= fun p => resolveFraming p >>= fun p =>
    .ok { p with state := .body }) >>= parse codec = _
  simp only [bind_assoc, ok_bind]

/-- A head is read off the front; what comes next depends on its framing. -/
theorem feed_head (codec : Codec) (h : Head) (rest : Bytes) : feed codec fresh (h.encode ++ rest) =
    resolveFraming (afterHead h rest) >>= fun p => parse codec { p with state := .body } := by
  have hbuf : h.encode ++ rest =
      h.statusLine ++ CRLF ++ (writeLines h.lines ++ CRLF ++ rest) := by
    simp only [Head.encode, List.append_assoc]
  have hlines : parseHeaderLines h.lines (afterStatusLine ⟨h.version, h.code, some h.reason⟩ rest) =
      .ok (afterHead h rest) := by
    unfold Head.lines
    rw [parseHeaderLines_lines]
    unfold afterStatusLine
    rw [ofDigits_code]
    rfl
  rw [hbuf, feed_lines codec (matchStatusLine_statusLine h) (crlfFree_statusLine h) (lines_ok h),
    hlines, ok_bind]

/-! ## The framing -/

theorem strip_field_value (f : HeaderField) : strip isSpace (latin1 f.value) = latin1 f.value := by
  refine strip_eq_self (fun c hc => ?_) (fun c hc => ?_)
  · rw [latin1, List.head?_map] at hc
    obtain ⟨b, hb, rfl⟩ := Option.map_eq_some_iff.mp hc
    exact f.value_front b hb
  · rw [latin1, List.getLast?_map] at hc
    obtain ⟨b, hb, rfl⟩ := Option.map_eq_some_iff.mp hc
    exact f.value_back b hb

theorem getList_headers (h : Head) (k : Str) : h.headers.getList k =
    (h.fields.filter fun f => f.key = lower k).map fun f => latin1 f.value := by
  unfold Head.headers
  rw [Headers.getList_ofItems, List.filter_map, List.map_map]
  rfl

theorem get_absent {h : Head} {k : Str} (hk : ∀ f ∈ h.fields, f.key ≠ lower k) :
    h.headers.get k = none := by
  rw [Headers.get_eq, getList_headers, if_pos]
  rw [List.map_eq_nil_iff, List.filter_eq_nil_iff]
  intro f hf hkey
  exact hk f hf (of_decide_eq_true hkey)

theorem get_only {h : Head} {before after : List HeaderField} {f : HeaderField} {k : Str}
    (hfields : h.fields = before ++ [f] ++ after) (hf : f.key = lower k)
    (hothers : ∀ g ∈ before ++ after, g.key ≠ lower k) :
    h.headers.get k = some (latin1 f.value) := by
  have hnil : ∀ {fs : List HeaderField}, (∀ g ∈ fs, g.key ≠ lower k) →
      fs.filter (fun g => g.key = lower k) = [] := fun hfs => by
    rw [List.filter_eq_nil_iff]
    intro g hg hkey
    exact hfs g hg (of_decide_eq_true hkey)
  rw [Headers.get_eq, getList_headers, hfields, List.filter_append, List.filter_append,
    hnil fun g hg => hothers g (List.mem_append_left _ hg),
    hnil fun g hg => hothers g (List.mem_append_right _ hg), List.filter_singleton]
  simp [hf, join]

section

variable {h : Head} {before fields after : List HeaderField} {k : Str}
  (hplain : ∀ f ∈ before ++ after, f.key ∉ framingKeys) (hk : lower k ∈ framingKeys)
include hplain hk

theorem key_ne {f : HeaderField} (hf : f ∈ before ++ after) : f.key ≠ lower k :=
  fun hkey => hplain f hf (hkey ▸ hk)

/-- Only the framing's own fields have a framing name. -/
theorem get_framing_absent (hfields : h.fields = before ++ fields ++ after)
    (hnone : ∀ f ∈ fields, f.key ≠ lower k) : h.headers.get k = none := by
  refine get_absent fun f hf => ?_
  rw [hfields, List.append_assoc, List.mem_append, List.mem_append] at hf
  obtain hf | hf | hf := hf
  · exact key_ne hplain hk (List.mem_append_left _ hf)
  · exact hnone f hf
  · exact key_ne hplain hk (List.mem_append_right _ hf)

theorem get_framing_only {f : HeaderField} (hfields : h.fields = before ++ fields ++ after)
    (hone : fields = [f]) (hf : f.key = lower k) : h.headers.get k = some (latin1 f.value) := by
  subst hone
  exact get_only hfields hf fun _ hg => key_ne hplain hk hg

end

/-- The parser when it has settled the framing. -/
def framed (m : FinalResponse) (rest : Bytes) : ResponseParser :=
  let p := afterHead m.head rest
  match m.framing with
  | .length body => { p with contentLength := some body.data.length }
  | .chunked _ _ => { p with chunked := true }
  | .untilClose _ => { p with readUntilClose := true }
  | .bodiless _ _ => { p with contentLength := some 0 }

theorem lower_contentLength : lower (str "Content-Length") = str "content-length" := by decide

theorem lower_transferEncoding : lower (str "Transfer-Encoding") = str "transfer-encoding" := by
  decide

theorem get_transferEncoding_of_length {m : FinalResponse}
    (h : ∀ f ∈ m.framing.fields, f.key = str "content-length") :
    m.head.headers.get (str "Transfer-Encoding") = none := by
  refine get_framing_absent m.plain (by decide) m.fields_eq fun f hf hkey => ?_
  rw [h f hf] at hkey
  exact absurd hkey (by decide)

theorem resolveFraming_bodiless {p : ResponseParser}
    (hte : p.headers.get (str "Transfer-Encoding") = none)
    (hs : p.statusCode < 200 ∨ p.statusCode = 204 ∨ p.statusCode = 304) :
    resolveFraming p = .ok { p with contentLength := some 0 } := by
  simp [resolveFraming, hte, hs]

theorem resolveFraming_length {p : ResponseParser} {cl : Str} {n : ℤ}
    (hte : p.headers.get (str "Transfer-Encoding") = none)
    (hs : ¬ (p.statusCode < 200 ∨ p.statusCode = 204 ∨ p.statusCode = 304))
    (hcl : p.headers.get (str "Content-Length") = some cl) (hn : intOfStr 10 (strip isSpace cl) = some n) :
    resolveFraming p = .ok { p with contentLength := some n } := by
  simp [resolveFraming, hte, hs, hcl, hn]

theorem resolveFraming_badLength {p : ResponseParser} {cl : Str}
    (hte : p.headers.get (str "Transfer-Encoding") = none)
    (hs : ¬ (p.statusCode < 200 ∨ p.statusCode = 204 ∨ p.statusCode = 304))
    (hcl : p.headers.get (str "Content-Length") = some cl) (hn : intOfStr 10 (strip isSpace cl) = none) :
    resolveFraming p = raise (str "invalid Content-Length: " ++ reprStr cl) p := by
  simp [resolveFraming, hte, hs, hcl, hn]

theorem resolveFraming_chunked {p : ResponseParser} {te : Str}
    (hte : p.headers.get (str "Transfer-Encoding") = some te) (hne : te ≠ [])
    (hc : contains (str "chunked") (lower te) = true) :
    resolveFraming p = .ok { p with chunked := true } := by
  simp [resolveFraming, hte, hne, hc]

theorem resolveFraming_untilClose {p : ResponseParser}
    (hte : p.headers.get (str "Transfer-Encoding") = none)
    (hs : ¬ (p.statusCode < 200 ∨ p.statusCode = 204 ∨ p.statusCode = 304))
    (hcl : p.headers.get (str "Content-Length") = none) :
    resolveFraming p = .ok { p with readUntilClose := true } := by
  simp [resolveFraming, hte, hs, hcl]

theorem status_of_body {m : FinalResponse} (h : m.framing.isBodiless = false) :
    ¬ (m.head.status < 200 ∨ m.head.status = 204 ∨ m.head.status = 304) := by
  have hfinal := m.final
  have hiff := m.bodiless_iff
  rw [h] at hiff
  rintro (hs | hs)
  · omega
  · exact absurd (hiff.mpr hs) (by decide)

/-- The framing is what the message says. -/
theorem resolveFraming_final (m : FinalResponse) (rest : Bytes) :
    resolveFraming (afterHead m.head rest) = .ok (framed m rest) := by
  unfold framed
  cases hm : m.framing with
  | length body =>
    refine resolveFraming_length ?_ (status_of_body (by rw [hm]; rfl))
      (get_framing_only m.plain (by decide) m.fields_eq (by rw [hm]; rfl)
        (body.key_eq.trans lower_contentLength.symm)) ?_
    · refine get_transferEncoding_of_length fun f hf => ?_
      rw [hm] at hf
      rw [List.mem_singleton.mp hf, body.key_eq]
    · rw [strip_field_value, body.value_eq, intOfStr_padded body.zeros_le body.length_le]
  | chunked field body =>
    refine resolveFraming_chunked
      (get_framing_only m.plain (by decide) m.fields_eq (by rw [hm]; rfl)
        (field.key_eq.trans lower_transferEncoding.symm)) ?_ ?_
    · intro h
      have := field.value_eq
      rw [h] at this
      exact absurd this (by decide)
    · rw [field.value_eq]; decide
  | untilClose data =>
    have hnone (k : Str) (hk : lower k ∈ framingKeys) : m.head.headers.get k = none := by
      refine get_framing_absent m.plain hk m.fields_eq fun f hf => ?_
      rw [hm] at hf
      cases hf
    exact resolveFraming_untilClose (hnone _ (by decide)) (status_of_body (by rw [hm]; rfl))
      (hnone _ (by decide))
  | bodiless fields keys =>
    refine resolveFraming_bodiless ?_ (.inr (m.bodiless_iff.mp (by rw [hm]; rfl)))
    refine get_transferEncoding_of_length fun f hf => ?_
    rw [hm] at hf
    exact keys f hf

/-! ## The chunks -/

theorem crlfFree_append {a b : Bytes} (ha : ∀ x ∈ a, x ≠ CR) (hb : CrlfFree b) : CrlfFree (a ++ b) := by
  induction a with
  | nil => exact hb
  | cons x a ih =>
    have hx : ¬ CRLF <+: x :: (a ++ b) := fun hp => ha x (by simp) (crlf_prefix_cons_iff.mp hp).1
    unfold CrlfFree
    rw [List.cons_append, find_cons_miss hx, ih fun y hy => ha y (List.mem_cons_of_mem x hy)]
    rfl

theorem crlfFree_sizeLine (size : List (Fin 16 × Bool)) (ext : ChunkExt) :
    CrlfFree (sizeLine size ext) := by
  refine crlfFree_append (fun x hx => ?_) ext.line
  obtain ⟨d, -, rfl⟩ := List.mem_map.mp hx
  exact hexDigit_ne_cr d

/-- The size is read off its line, whatever extensions follow. -/
theorem size_of_sizeLine {size : List (Fin 16 × Bool)} (ext : ChunkExt) (hne : size ≠ []) :
    intOfBytes 16 (strip isSpaceByte ((sizeLine size ext).takeWhile (· ≠ SEMI))) =
      some (hexValue size : ℤ) := by
  have hsemi : ∀ x ∈ size.map hexDigit, decide (x ≠ SEMI) = true := fun x hx => by
    obtain ⟨d, -, rfl⟩ := List.mem_map.mp hx
    exact decide_eq_true (hexDigit_ne_semi d)
  have hdigit : ∀ x ∈ size.map hexDigit, isSpaceByte x = false := fun x hx => by
    obtain ⟨d, -, rfl⟩ := List.mem_map.mp hx
    exact isSpaceByte_hexDigit d
  have hpad : ∀ x ∈ ext.text.takeWhile (· ≠ SEMI), isSpaceByte x = true := fun x hx => by
    obtain rfl | rfl := ext.semi x hx <;> decide
  unfold sizeLine
  rw [List.takeWhile_append_of_pos hsemi, ← List.nil_append (size.map hexDigit),
    strip_padded (by simp) hpad (fun x hx => hdigit x (List.mem_of_mem_head? hx))
      (fun x hx => hdigit x (List.mem_of_mem_getLast? hx)),
    intOfBytes_hex hne]

/-- The part of a size line that is read as the size. -/
def sizeToken (line : Bytes) : Bytes := strip isSpaceByte (line.takeWhile (· ≠ SEMI))

theorem chunkSize_line {p : ResponseParser} {line rest : Bytes} (hbuf : p.buf = line ++ CRLF ++ rest)
    (hfree : CrlfFree line) : chunkSize p =
      match intOfBytes 16 (sizeToken line) with
      | none => .leave (raise (str "invalid chunk size: " ++ reprBytes line) p)
      | some size =>
        if size = 0 then .again { p with buf := rest, inTrailers := true }
        else chunkData { p with buf := rest, chunkRemaining := size, awaitingChunkSize := false } := by
  have hdrop : (line ++ CRLF ++ rest).drop (line.length + 2) = rest := by
    rw [List.append_assoc, ← List.drop_drop, List.drop_left]
    rfl
  have htake : (line ++ CRLF ++ rest).take line.length = line := by
    rw [List.append_assoc, List.take_left]
  unfold chunkSize
  rw [hbuf, find_crlf hfree]
  cases hn : intOfBytes 16 (sizeToken line) <;>
    (unfold sizeToken at hn; simp only [htake, hdrop, hn])

theorem chunkData_whole {p : ResponseParser} (data rest : Bytes) (hbuf : p.buf = data ++ CRLF ++ rest)
    (hrem : p.chunkRemaining = data.length) :
    chunkData p = .again { p with
      body := p.body ++ data, buf := rest, chunkRemaining := 0, awaitingChunkSize := true } := by
  have htake : takeChunk p =
      { p with body := p.body ++ data, buf := CRLF ++ rest, chunkRemaining := 0 } := by
    unfold takeChunk
    rw [hbuf, hrem, Int.toNat_natCast, List.append_assoc]
    dsimp only
    rw [List.take_left, List.drop_left]
    simp
  have hlen : ¬ (CRLF ++ rest).length < 2 := by simp [CRLF]
  have hcr : CRLF <+: CRLF ++ rest := List.prefix_append CRLF rest
  unfold chunkData
  rw [htake]
  dsimp only
  rw [if_neg (lt_irrefl 0), if_neg hlen, if_neg (not_not.mpr hcr)]
  rfl

/-- The parser between two chunks. -/
def betweenChunks (p : ResponseParser) (body buf : Bytes) : ResponseParser :=
  { p with body, buf, chunkRemaining := 0, awaitingChunkSize := true, inTrailers := false }

/-- A size line and as much data as it says. -/
theorem parseChunked_data (codec : Codec) (p : ResponseParser) (body : Bytes) {line data : Bytes}
    (hfree : CrlfFree line) (hsize : intOfBytes 16 (sizeToken line) = some (data.length : ℤ))
    (hne : data ≠ []) (rest : Bytes) :
    parseChunked codec (betweenChunks p body (line ++ CRLF ++ (data ++ CRLF ++ rest))) =
      parseChunked codec (betweenChunks p (body ++ data) rest) := by
  have hpos : (data.length : ℤ) ≠ 0 := by simpa using hne
  refine parseChunked_again ?_
  rw [chunkRound_of_size rfl rfl, chunkSize_line rfl hfree, hsize]
  dsimp only
  rw [if_neg hpos]
  exact chunkData_whole data rest rfl rfl

theorem parseChunked_chunk (codec : Codec) (p : ResponseParser) (body : Bytes) (c : Chunk)
    (rest : Bytes) : parseChunked codec (betweenChunks p body (c.encode ++ rest)) =
      parseChunked codec (betweenChunks p (body ++ c.data) rest) := by
  have hne : c.size ≠ [] := by
    intro h
    have hzero := c.size_eq
    rw [h] at hzero
    exact c.data_ne (List.length_eq_zero_iff.mp hzero.symm)
  have hsize := size_of_sizeLine c.ext hne
  rw [c.size_eq] at hsize
  rw [← parseChunked_data codec p body (crlfFree_sizeLine c.size c.ext) hsize c.data_ne rest]
  simp only [Chunk.encode, List.append_assoc]

theorem parseChunked_chunks (codec : Codec) (p : ResponseParser) (chunks : List Chunk) (rest : Bytes) :
    ∀ body : Bytes, parseChunked codec (betweenChunks p body (chunks.flatMap Chunk.encode ++ rest)) =
      parseChunked codec (betweenChunks p (body ++ chunks.flatMap Chunk.data) rest) := by
  induction chunks with
  | nil => intro body; simp
  | cons c chunks ih =>
    intro body
    rw [List.flatMap_cons, List.append_assoc, parseChunked_chunk, ih, List.flatMap_cons,
      List.append_assoc]

theorem parseTrailers_lines (codec : Codec) {p : ResponseParser} {ls : List Bytes} {s : Bytes}
    (h : ∀ l ∈ ls, CrlfFree l ∧ l ≠ []) (hbuf : p.buf = writeLines ls ++ CRLF ++ s) :
    parseTrailers codec p = finalize codec { p with buf := s } := by
  by_cases hne : ls = []
  · subst hne
    have hbuf : p.buf = CRLF ++ s := hbuf
    rw [parseTrailers_crlf codec (by rw [hbuf]; exact List.prefix_append CRLF s), hbuf]
    rfl
  · have hpre := not_crlf_prefix_lines h hne (CRLF ++ s)
    rw [← List.append_assoc, ← hbuf] at hpre
    have hfind := find_crlfcrlf h hne s
    rw [← hbuf] at hfind
    rw [parseTrailers_some codec hpre hfind, hbuf, drop_block hne]

/-- The last chunk, the trailers and the blank line end the body. -/
theorem parseChunked_end (codec : Codec) (p : ResponseParser) (body : Bytes) (b : ChunkedBody)
    (s : Bytes) : parseChunked codec (betweenChunks p body (b.encodeEnd ++ s)) =
      finalize codec { betweenChunks p body s with inTrailers := true } := by
  have hzero : hexValue b.lastSize = 0 := by
    have hz (n : ℕ) : hexValue (List.replicate n (0, false)) = 0 := by
      unfold hexValue ofDigits
      induction n with
      | zero => rfl
      | succ n ih => rw [List.replicate_succ]; exact ih
    exact hz _
  have hbuf : (betweenChunks p body (b.encodeEnd ++ s)).buf =
      sizeLine b.lastSize b.ext ++ CRLF ++ (writeLines b.trailers ++ CRLF ++ s) := by
    simp [betweenChunks, ChunkedBody.encodeEnd]
  have hround : chunkRound codec (betweenChunks p body (b.encodeEnd ++ s)) =
      .again { betweenChunks p body (writeLines b.trailers ++ CRLF ++ s) with inTrailers := true } := by
    have hsize := @size_of_sizeLine b.lastSize b.ext (by simp [ChunkedBody.lastSize])
    rw [hzero] at hsize
    rw [chunkRound_of_size rfl rfl, chunkSize_line hbuf (crlfFree_sizeLine b.lastSize b.ext)]
    unfold sizeToken
    rw [hsize]
    rfl
  rw [parseChunked_again hround, parseChunked_leave (chunkRound_of_trailers rfl),
    parseTrailers_lines codec b.trailers_ok rfl]
  rfl

theorem parseChunked_encode (codec : Codec) (p : ResponseParser) (b : ChunkedBody) (s : Bytes) :
    parseChunked codec (betweenChunks p [] (b.encode ++ s)) =
      finalize codec { betweenChunks p b.data s with inTrailers := true } := by
  rw [ChunkedBody.encode, List.append_assoc, parseChunked_chunks, parseChunked_end]
  rfl

/-! ## The whole message -/

/-- The parser has read the message and nothing behind it. -/
structure HasRead (m : FinalResponse) (s : Bytes) (p : ResponseParser) : Prop where
  buf : p.buf = s
  body : p.body = m.framing.data
  status : p.statusCode = m.head.status
  reason : p.reason = latin1 m.head.reason
  version : p.httpVersion = latin1 m.head.version
  headers : p.headers = m.head.headers
  close : p.readUntilClose = m.framing.isUntilClose

theorem parseFixedLength_whole (codec : Codec) {p : ResponseParser} (data : Bytes) {s : Bytes}
    (hbody : p.body = []) (hbuf : p.buf = data ++ s) :
    parseFixedLength codec data.length p = finalize codec { p with body := data, buf := s } := by
  have hfill : fillBody data.length p = { p with body := data, buf := s } := by
    simp [fillBody, hbody, hbuf]
  unfold parseFixedLength
  rw [hfill]
  exact if_pos (Or.inl le_rfl)

theorem parse_framed (codec : Codec) (m : FinalResponse) (rest : Bytes) :
    feed codec fresh (m.head.encode ++ rest) =
      parseBody codec { framed m rest with state := .body } := by
  rw [feed_head, resolveFraming_final, ok_bind, parse_body codec rfl]

/-- A message that says where it ends is read to its end and no further. -/
theorem feed_encode (codec : Codec) (m : FinalResponse) (h : m.framing.isUntilClose = false) (s : Bytes) :
    ∃ p, HasRead m s p ∧ feed codec fresh (m.encode ++ s) = finalize codec p := by
  rw [FinalResponse.encode, List.append_assoc, parse_framed]
  unfold framed
  cases hm : m.framing with
  | length body =>
    refine ⟨{ afterHead m.head s with
      contentLength := some body.data.length, body := body.data, state := .body }, ?_, ?_⟩
    · exact ⟨rfl, by rw [hm]; rfl, rfl, rfl, rfl, rfl, by rw [hm]; rfl⟩
    · exact parseFixedLength_whole codec body.data rfl rfl
  | chunked field body =>
    refine ⟨{ afterHead m.head s with
      chunked := true, body := body.data, state := .body, inTrailers := true }, ?_, ?_⟩
    · exact ⟨rfl, by rw [hm]; rfl, rfl, rfl, rfl, rfl, by rw [hm]; rfl⟩
    · exact parseChunked_encode codec { afterHead m.head s with chunked := true, state := .body } body s
  | untilClose data => rw [hm] at h; cases h
  | bodiless fields keys =>
    refine ⟨{ afterHead m.head s with contentLength := some 0, state := .body }, ?_, ?_⟩
    · exact ⟨rfl, by rw [hm]; rfl, rfl, rfl, rfl, rfl, by rw [hm]; rfl⟩
    · exact parseFixedLength_whole codec [] rfl rfl

/-- A message without an end of its own is read when the stream ends. -/
theorem feedEof_encode (codec : Codec) (m : FinalResponse) (h : m.framing.isUntilClose = true) :
    ∃ p, HasRead m [] p ∧ (feed codec fresh m.encode >>= feedEof codec) = finalize codec p := by
  rw [FinalResponse.encode, parse_framed]
  unfold framed
  cases hm : m.framing with
  | length body => rw [hm] at h; cases h
  | chunked field body => rw [hm] at h; cases h
  | bodiless fields keys => rw [hm] at h; cases h
  | untilClose data =>
    refine ⟨{ afterHead m.head [] with
      readUntilClose := true, body := data, state := .body, eof := true }, ?_, ?_⟩
    · exact ⟨rfl, by rw [hm]; rfl, rfl, rfl, rfl, rfl, by rw [hm]; rfl⟩
    · show feedEof codec { afterHead m.head [] with
        readUntilClose := true, body := data, state := .body } = _
      unfold feedEof
      rw [parse_body codec rfl]
      show finalize codec { afterHead m.head [] with
        readUntilClose := true, body := data ++ [], state := .body, eof := true } = _
      rw [List.append_nil]

/-- An interim response is read to the end of its head, as one without a body. -/
theorem feed_interim (codec : Codec) (m : InterimResponse) (s : Bytes) :
    ∃ p, p.statusCode = m.head.status ∧ p.buf = s ∧
      feed codec fresh (m.head.encode ++ s) = finalize codec p := by
  have hte : m.head.headers.get (str "Transfer-Encoding") = none := by
    refine get_absent fun f hf hkey => m.plain f hf ?_
    rw [hkey]
    decide
  refine ⟨{ afterHead m.head s with contentLength := some 0, body := [], state := .body }, rfl, rfl, ?_⟩
  rw [feed_head, resolveFraming_bodiless hte (.inl m.interim.2), ok_bind, parse_body codec rfl]
  exact parseFixedLength_whole codec [] rfl rfl

/-- The response a client should get, once its content is decompressed. -/
def responseOf (m : FinalResponse) (content : Bytes) : Response :=
  ⟨m.head.status, latin1 m.head.reason, latin1 m.head.version, m.head.headers, content⟩

theorem finalize_hasRead {codec : Codec} {m : FinalResponse} {s content : Bytes} {p : ResponseParser}
    (h : HasRead m s p) (hc : decompress codec m.head.headers m.framing.data = .ok content) :
    finalize codec p = .ok { p with response := some (responseOf m content), state := .done } := by
  unfold finalize
  rw [h.headers, h.body, hc]
  dsimp only
  rw [responseOf, h.status, h.reason, h.version]

/-- Without a content encoding the content is the body. -/
theorem decompress_absent (codec : Codec) {h : Head}
    (henc : ∀ f ∈ h.fields, f.key ≠ str "content-encoding") (data : Bytes) :
    decompress codec h.headers data = .ok data := by
  have hkey : lower (str "Content-Encoding") = str "content-encoding" := by decide
  have hget : h.headers.get (str "Content-Encoding") = none :=
    get_absent fun f hf => by rw [hkey]; exact henc f hf
  unfold decompress
  rw [hget]
  exact if_pos (Or.inl rfl)

theorem decompress_plain (codec : Codec) {m : FinalResponse}
    (h : ∀ f ∈ m.head.fields, f.key ≠ str "content-encoding") :
    decompress codec m.head.headers m.framing.data = .ok m.framing.data :=
  decompress_absent codec h _

/-- What a complete parser holds of a message. -/
structure Decoded (m : FinalResponse) (s : Bytes) (p : ResponseParser) : Prop where
  complete : p.isComplete
  buf : p.buf = s
  response : ∃ r, p.response = some r ∧ r.httpVersion = latin1 m.head.version ∧
    r.statusCode = m.head.status ∧ r.reason = latin1 m.head.reason ∧
    (∀ k, r.headers.getList k =
      (m.head.fields.filter fun f => f.key = lower k).map fun f => latin1 f.value) ∧
    r.content = m.framing.data

theorem decoded_finalize {codec : Codec} {m : FinalResponse} {s : Bytes} {p : ResponseParser}
    (h : HasRead m s p) (henc : ∀ f ∈ m.head.fields, f.key ≠ str "content-encoding") :
    ∃ q, finalize codec p = .ok q ∧ Decoded m s q := by
  refine ⟨_, finalize_hasRead h (decompress_plain codec henc), rfl, h.buf, _, rfl, rfl, rfl, rfl, ?_, rfl⟩
  exact fun k => getList_headers m.head k

/-- **Decode undoes encode.** A message without a content encoding is read back with all it holds.
A message that says where it ends leaves in the buffer just what was written behind it. -/
theorem decode_encode (codec : Codec) (m : FinalResponse)
    (henc : ∀ f ∈ m.head.fields, f.key ≠ str "content-encoding") :
    (m.framing.isUntilClose = false →
      ∀ s, ∃ p, feed codec fresh (m.encode ++ s) = .ok p ∧ Decoded m s p) ∧
    (m.framing.isUntilClose = true →
      ∃ p, (feed codec fresh m.encode >>= feedEof codec) = .ok p ∧ Decoded m [] p) := by
  constructor
  · intro h s
    obtain ⟨p, hp, hfeed⟩ := feed_encode codec m h s
    rw [hfeed]
    exact decoded_finalize hp henc
  · intro h
    obtain ⟨p, hp, hfeed⟩ := feedEof_encode codec m h
    rw [hfeed]
    exact decoded_finalize hp henc

/-- The bytes of the next message stay in the buffer. -/
theorem decode_encode_greeting :
    ∃ p, feed noCodec fresh (greeting.encode ++ ascii "HTTP/1.1 2") = .ok p ∧
      Decoded greeting (ascii "HTTP/1.1 2") p :=
  (decode_encode noCodec greeting (by decide)).1 rfl _

end ResponseParser

end Fizzpy
