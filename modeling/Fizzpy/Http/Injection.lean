import Fizzpy.Http.Lines
import Fizzpy.Http.Request

/-!
# What can be put into a request

`build_request` writes its arguments into the lines of the head as they come; it refuses what
latin-1 cannot encode, and nothing else. So the head reads back, line by line, as what was asked for
when no argument ends a line and neither the method nor the path has a space, and only then
(`oneLineEach_iff`).
-/

namespace Fizzpy

open Foundation

/-- What a server takes for the head: what stands before the first blank line. -/
def headOf (raw : Bytes) : Bytes := raw.take ((find CRLFCRLF raw).getD raw.length)

/-- The fields that are written, the defaults first. -/
def emitted (host : Str) (headers : List (Str × Str)) (body : Option Bytes) : List (Str × Str) :=
  defaultFields host headers body ++ headers

/-- The head, cut at CRLF, is one request line of three parts, and one line for each field. -/
def OneLineEach (method path host : Str) (headers : List (Str × Str)) (body : Option Bytes)
    (raw : Bytes) : Prop :=
  ∃ first, (split CRLF (headOf raw)).map latin1 =
      first :: (emitted host headers body).map (fun p => p.1 ++ str ": " ++ p.2) ∧
    split (str " ") first = [method, path, str "HTTP/1.1"]

/-- No line ends inside. -/
def OnOneLine (s : Str) : Prop := ¬ str "\r\n" <:+: s

/-- No argument ends a line, and the parts of the request line have no space. -/
structure Separable (method path host : Str) (headers : List (Str × Str)) (body : Option Bytes) :
    Prop where
  method : OnOneLine method ∧ ' ' ∉ method
  path : OnOneLine path ∧ ' ' ∉ path
  fields : ∀ p ∈ emitted host headers body, OnOneLine p.1 ∧ OnOneLine p.2

/-- Every argument has a latin-1 encoding. -/
structure Encodable (method path host : Str) (headers : List (Str × Str)) (body : Option Bytes) :
    Prop where
  method : Latin1 method
  path : Latin1 path
  fields : ∀ p ∈ emitted host headers body, Latin1 p.1 ∧ Latin1 p.2

/-! ## Characters and octets -/

theorem codes_latin1 (b : Bytes) : codes (latin1 b) = b := by
  unfold codes latin1
  rw [List.map_map]
  refine (List.map_congr_left fun x _ => ?_).trans (List.map_id b)
  have hx : x.toNat < 256 := x.toNat_lt
  have hvalid : x.toNat.isValidChar := Or.inl (by omega)
  have hchr : (chr x).toNat = x.toNat := by
    unfold chr Char.ofNat
    rw [dif_pos hvalid]
    unfold Char.ofNatAux Char.toNat
    simp
  simp [hchr]

theorem onOneLine_latin1 {b : Bytes} (h : CrlfFree b) : OnOneLine (latin1 b) := by
  intro hs
  refine find_eq_none_iff.mp h ?_
  have hcodes := hs.map fun c => c.toNat.toUInt8
  rwa [show (latin1 b).map (fun c => c.toNat.toUInt8) = b from codes_latin1 b] at hcodes

theorem crlfFree_codes_of_onOneLine {s : Str} (hs : Latin1 s) (h : OnOneLine s) :
    CrlfFree (codes s) := by
  refine find_eq_none_iff.mpr fun hp => h ?_
  have hlatin := hp.map chr
  rwa [show (codes s).map chr = s from latin1_codes hs] at hlatin

/-! ## Lines and their parts -/

theorem crlfFree_cons {x : UInt8} {l : Bytes} (hx : x ≠ CR) (h : CrlfFree l) : CrlfFree (x :: l) := by
  unfold CrlfFree
  rw [find_cons_miss fun hp => hx (crlf_prefix_cons_iff.mp hp).1, h]
  rfl

/-- What is put behind a line that does not begin with LF completes no CRLF. -/
theorem CrlfFree.append {a b : Bytes} (ha : CrlfFree a) (hb : CrlfFree b) (hlf : b.head? ≠ some LF) :
    CrlfFree (a ++ b) := by
  induction a with
  | nil => exact hb
  | cons x a ih =>
    have hx : ¬ CRLF <+: x :: (a ++ b) := ha.not_prefix_append (by simp) hlf
    unfold CrlfFree
    rw [List.cons_append, find_cons_miss hx, ih ha.tail]
    rfl

theorem crlfFree_field {p : Str × Str} (h : CrlfFree (codes p.1) ∧ CrlfFree (codes p.2)) :
    CrlfFree (codes (p.1 ++ str ": " ++ p.2)) := by
  have hvalue : CrlfFree (COLON :: SP :: codes p.2) :=
    crlfFree_cons (by decide) (crlfFree_cons (by decide) h.2)
  have heq : codes (p.1 ++ str ": " ++ p.2) = codes p.1 ++ COLON :: SP :: codes p.2 := by
    rw [codes_append, codes_append, List.append_assoc]
    rfl
  rw [heq]
  exact h.1.append hvalue (by simp [COLON, LF])

theorem crlfFree_requestLine {method path : Str} (hm : CrlfFree (codes method))
    (hp : CrlfFree (codes path)) : CrlfFree (codes (method ++ str " " ++ path ++ str " HTTP/1.1")) := by
  have hpath : CrlfFree (SP :: (codes path ++ ascii " HTTP/1.1")) :=
    crlfFree_cons (by decide) (hp.append (by decide) (by decide))
  have heq : codes (method ++ str " " ++ path ++ str " HTTP/1.1") =
      codes method ++ SP :: (codes path ++ ascii " HTTP/1.1") := by
    rw [codes_append, codes_append, codes_append, List.append_assoc, List.append_assoc]
    rfl
  rw [heq]
  exact hm.append hpath (by simp [SP, LF])

theorem split_requestLine {method path : Str} (hm : ' ' ∉ method) (hp : ' ' ∉ path) :
    split (str " ") (method ++ str " " ++ path ++ str " HTTP/1.1") =
      [method, path, str "HTTP/1.1"] := by
  have hne {s : Str} (h : ' ' ∉ s) : ∀ c ∈ s, c ≠ ' ' := fun c hc he => h (he ▸ hc)
  have heq : method ++ str " " ++ path ++ str " HTTP/1.1" =
      method ++ ' ' :: (path ++ ' ' :: str "HTTP/1.1") := by
    simp only [List.append_assoc]
    rfl
  rw [heq, show str " " = [' '] from rfl, split_singleton_cons (hne hm),
    split_singleton_cons (hne hp)]
  rfl

/-! ## Reading the head -/

theorem headOf_lines {ls : List Bytes} (h : ∀ l ∈ ls, CrlfFree l ∧ l ≠ []) (hne : ls ≠ [])
    (rest : Bytes) : headOf (join CRLF ls ++ CRLFCRLF ++ rest) = join CRLF ls := by
  have hraw : join CRLF ls ++ CRLFCRLF ++ rest = writeLines ls ++ CRLF ++ rest := by
    rw [writeLines_eq_join hne]
    simp [CRLF, CRLFCRLF]
  unfold headOf
  rw [hraw, find_crlfcrlf h hne, ← hraw, Option.getD_some, List.append_assoc, List.take_left]

theorem latin1_requestLines_iff {method path host : Str} {headers : List (Str × Str)}
    {body : Option Bytes} : (∀ line ∈ requestLines method path host headers body, Latin1 line) ↔
      Encodable method path host headers body := by
  unfold requestLines
  rw [List.forall_mem_cons, List.forall_mem_map, latin1_append_iff, latin1_append_iff,
    latin1_append_iff]
  have hspace : Latin1 (str " ") := by decide
  have hversion : Latin1 (str " HTTP/1.1") := by decide
  have hcolon : Latin1 (str ": ") := by decide
  have hfield (p : Str × Str) : Latin1 (p.1 ++ str ": " ++ p.2) ↔ Latin1 p.1 ∧ Latin1 p.2 := by
    rw [latin1_append_iff, latin1_append_iff]
    exact ⟨fun h => ⟨h.1.1, h.2⟩, fun h => ⟨⟨h.1, hcolon⟩, h.2⟩⟩
  simp only [hfield]
  exact ⟨fun h => ⟨h.1.1.1.1, h.1.1.2, h.2⟩,
    fun h => ⟨⟨⟨⟨h.method, hspace⟩, h.path⟩, hversion⟩, h.fields⟩⟩

section

variable {method path host : Str} {headers : List (Str × Str)} {body : Option Bytes} {raw : Bytes}

theorem oneLineEach_of_separable (hbuild : buildRequest method path host headers body = some raw)
    (h : Separable method path host headers body) : OneLineEach method path host headers body raw := by
  have hlatin := latin1_of_buildRequest hbuild
  have hencode := latin1_requestLines_iff.mp hlatin
  have hfree : ∀ l ∈ (requestLines method path host headers body).map codes, CrlfFree l ∧ l ≠ [] := by
    unfold requestLines
    rw [List.forall_mem_map, List.forall_mem_cons, List.forall_mem_map]
    refine ⟨⟨crlfFree_requestLine (crlfFree_codes_of_onOneLine hencode.method h.method.1)
      (crlfFree_codes_of_onOneLine hencode.path h.path.1), by simp [codes, str]⟩, fun p hp => ?_⟩
    obtain ⟨hname, hvalue⟩ := hencode.fields p hp
    obtain ⟨hname', hvalue'⟩ := h.fields p hp
    exact ⟨crlfFree_field ⟨crlfFree_codes_of_onOneLine hname hname',
      crlfFree_codes_of_onOneLine hvalue hvalue'⟩, by simp [codes, str]⟩
  have hne : (requestLines method path host headers body).map codes ≠ [] := nofun
  rw [buildRequest_eq, if_pos hlatin, Option.some.injEq] at hbuild
  subst hbuild
  refine ⟨method ++ str " " ++ path ++ str " HTTP/1.1", ?_, split_requestLine h.method.2 h.path.2⟩
  rw [codes_append, codes_join, show codes (str "\r\n\r\n") = CRLFCRLF from rfl,
    headOf_lines hfree hne, split_join (fun l hl => (hfree l hl).1) hne, List.map_map]
  exact (List.map_congr_left fun line hline => latin1_codes (hlatin line hline)).trans (List.map_id _)

/-- What reads back line by line had no line end, and no space where it separates. -/
theorem separable_of_oneLineEach (h : OneLineEach method path host headers body raw) :
    Separable method path host headers body := by
  obtain ⟨first, hlines, hparts⟩ := h
  have hone : ∀ line ∈ first :: (emitted host headers body).map (fun p => p.1 ++ str ": " ++ p.2),
      OnOneLine line := by
    rw [← hlines, List.forall_mem_map]
    exact fun b hb => onOneLine_latin1 (find_of_mem_split (by decide) hb)
  rw [List.forall_mem_cons, List.forall_mem_map] at hone
  obtain ⟨hfirst, hfields⟩ := hone
  have hjoin : first = method ++ (str " " ++ (path ++ str " HTTP/1.1")) := by
    have hback := @intercalate_split _ _ (str " ") (by decide) first
    rw [hparts] at hback
    rw [← hback]
    simp [List.intercalate, List.intersperse, str]
  have hspace {s : Str} (hs : s ∈ [method, path, str "HTTP/1.1"]) : ' ' ∉ s := by
    rw [← hparts] at hs
    have hfree := find_eq_none_iff.mp (@find_of_mem_split _ _ (str " ") _ _ (by decide) hs)
    rwa [show str " " = [' '] from rfl, List.singleton_infix_iff] at hfree
  have hpath : path <:+: first := by
    rw [hjoin]
    exact ⟨method ++ str " ", str " HTTP/1.1", by simp⟩
  have hmethod : method <:+: first := ⟨[], _, hjoin.symm⟩
  refine ⟨⟨fun hs => hfirst (hs.trans hmethod), hspace (by simp)⟩,
    ⟨fun hs => hfirst (hs.trans hpath), hspace (by simp)⟩, fun p hp => ?_⟩
  have hname : p.1 <:+: p.1 ++ str ": " ++ p.2 := ⟨[], str ": " ++ p.2, by simp⟩
  have hvalue : p.2 <:+: p.1 ++ str ": " ++ p.2 := (List.suffix_append _ _).isInfix
  exact ⟨fun hs => hfields p hp (hs.trans hname), fun hs => hfields p hp (hs.trans hvalue)⟩

end

/-- **What a request reads back as.** `build_request` refuses exactly what latin-1 cannot encode; what
it returns reads back as one line for each argument just when the arguments keep to their lines. -/
theorem oneLineEach_iff (method path host : Str) (headers : List (Str × Str)) (body : Option Bytes) :
    (buildRequest method path host headers body = none ↔
      ¬ Encodable method path host headers body) ∧
    ∀ raw, buildRequest method path host headers body = some raw →
      (OneLineEach method path host headers body raw ↔ Separable method path host headers body) := by
  refine ⟨?_, fun raw hraw => ⟨separable_of_oneLineEach, oneLineEach_of_separable hraw⟩⟩
  rw [buildRequest_eq, ← latin1_requestLines_iff]
  split_ifs with h
  · exact iff_of_false nofun (not_not_intro h)
  · exact iff_of_true rfl h

/-- A line end in the value of a header makes a second one. -/
theorem header_injected : ∃ raw,
    buildRequest (str "GET") (str "/") (str "a.b") [(str "X", str "1\r\nY: 2")] none = some raw ∧
    ¬ OneLineEach (str "GET") (str "/") (str "a.b") [(str "X", str "1\r\nY: 2")] none raw := by
  refine ⟨_, rfl, fun h => ?_⟩
  have hvalue := ((separable_of_oneLineEach h).fields (str "X", str "1\r\nY: 2") (by decide)).2
  exact hvalue ⟨str "1", str "Y: 2", rfl⟩

end Fizzpy
