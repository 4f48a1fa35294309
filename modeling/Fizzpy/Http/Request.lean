import Fizzpy.Text

/-!
# Requests

`build_request`: the bytes of a request. The header mapping is the list of its items.
-/

namespace Fizzpy

/-- `encode("latin-1")`; `none` is the `UnicodeEncodeError`. -/
def encodeLatin1 (s : Str) : Option Bytes :=
  s.mapM fun c => if c.toNat < 256 then some c.toNat.toUInt8 else none

/-- The fields the caller did not supply. -/
def defaultFields (host : Str) (headers : List (Str × Str)) (body : Option Bytes) :
    List (Str × Str) :=
  let supplied := headers.map fun p => lower p.1
  (if str "host" ∈ supplied then [] else [(str "Host", host)]) ++
    match body with
    | some body =>
      if str "content-length" ∈ supplied then []
      else [(str "Content-Length", Nat.toDigits 10 body.length)]
    | none => []

def buildRequest (method path host : Str) (headers : List (Str × Str)) (body : Option Bytes) :
    Option Bytes := do
  let fields := defaultFields host headers body ++ headers
  let lines := (method ++ str " " ++ path ++ str " HTTP/1.1") ::
    fields.map fun p => p.1 ++ str ": " ++ p.2
  let head ← encodeLatin1 (join (str "\r\n") lines ++ str "\r\n\r\n")
  some (head ++ body.getD [])

example : buildRequest (str "POST") (str "/") (str "a.b") [(str "X", str "y")] (some (ascii "hi")) =
    some (ascii "POST / HTTP/1.1\r\nHost: a.b\r\nContent-Length: 2\r\nX: y\r\n\r\nhi") := by
  decide +kernel

/-! ## Encoding -/

/-- Every character has a latin-1 code. -/
def Latin1 (s : Str) : Prop := ∀ c ∈ s, c.toNat < 256

instance (s : Str) : Decidable (Latin1 s) := List.decidableBAll _ s

/-- The codes of the characters. -/
def codes (s : Str) : Bytes := s.map fun c => c.toNat.toUInt8

theorem codes_append (a b : Str) : codes (a ++ b) = codes a ++ codes b := List.map_append

theorem chr_code {c : Char} (h : c.toNat < 256) : chr c.toNat.toUInt8 = c := by
  unfold chr
  rw [show c.toNat.toUInt8.toNat = c.toNat by simpa using h, Char.ofNat_toNat]

/-- `decode("latin-1")` undoes `encode("latin-1")`. -/
theorem latin1_codes {s : Str} (h : Latin1 s) : latin1 (codes s) = s := by
  unfold latin1 codes
  rw [List.map_map]
  exact (List.map_congr_left fun c hc => chr_code (h c hc)).trans (List.map_id s)

theorem chr_mem {s : Str} (h : Latin1 s) {b : UInt8} (hb : b ∈ codes s) : chr b ∈ s := by
  obtain ⟨c, hc, rfl⟩ := List.mem_map.mp hb
  rwa [chr_code (h c hc)]

theorem codes_ne {s : Str} (h : Latin1 s) {x : UInt8} (hx : ∀ c ∈ s, c ≠ chr x) :
    ∀ b ∈ codes s, b ≠ x := fun _ hb hbx => hx _ (chr_mem h hb) (congrArg chr hbx)

theorem latin1_cons_iff {c : Char} {s : Str} : Latin1 (c :: s) ↔ c.toNat < 256 ∧ Latin1 s :=
  List.forall_mem_cons

theorem encodeLatin1_eq (s : Str) : encodeLatin1 s = if Latin1 s then some (codes s) else none := by
  induction s with
  | nil => rfl
  | cons c s ih =>
    unfold encodeLatin1 at ih ⊢
    rw [List.mapM_cons, ih]
    by_cases hc : c.toNat < 256
    · by_cases hs : Latin1 s
      · rw [if_pos hc, if_pos hs, if_pos (latin1_cons_iff.mpr ⟨hc, hs⟩)]
        rfl
      · rw [if_pos hc, if_neg hs, if_neg fun h => hs (latin1_cons_iff.mp h).2]
        rfl
    · rw [if_neg hc, if_neg fun h => hc (latin1_cons_iff.mp h).1]
      rfl

theorem latin1_append_iff {a b : Str} : Latin1 (a ++ b) ↔ Latin1 a ∧ Latin1 b := List.forall_mem_append

theorem latin1_join_iff {sep : Str} (hsep : Latin1 sep) (parts : List Str) :
    Latin1 (join sep parts) ↔ ∀ part ∈ parts, Latin1 part := by
  induction parts with
  | nil => exact iff_of_true nofun nofun
  | cons part parts ih =>
    rw [List.forall_mem_cons, ← ih]
    cases parts with
    | nil => simp [join, Latin1]
    | cons next parts =>
      rw [show join sep (part :: next :: parts) = part ++ sep ++ join sep (next :: parts) from
        List.intercalate_cons_cons, latin1_append_iff, latin1_append_iff]
      exact ⟨fun h => ⟨h.1.1, h.2⟩, fun h => ⟨⟨h.1, hsep⟩, h.2⟩⟩

theorem codes_join (parts : List Str) :
    codes (join (str "\r\n") parts) = join CRLF (parts.map codes) := by
  induction parts with
  | nil => rfl
  | cons part parts ih =>
    cases parts with
    | nil => simp [join]
    | cons next parts =>
      rw [show join (str "\r\n") (part :: next :: parts) =
          part ++ str "\r\n" ++ join (str "\r\n") (next :: parts) from List.intercalate_cons_cons,
        codes_append, codes_append, ih]
      exact List.intercalate_cons_cons.symm

/-- The request line and the field lines. -/
def requestLines (method path host : Str) (headers : List (Str × Str)) (body : Option Bytes) :
    List Str :=
  (method ++ str " " ++ path ++ str " HTTP/1.1") ::
    (defaultFields host headers body ++ headers).map fun p => p.1 ++ str ": " ++ p.2

theorem buildRequest_eq (method path host : Str) (headers : List (Str × Str)) (body : Option Bytes) :
    buildRequest method path host headers body =
      if ∀ line ∈ requestLines method path host headers body, Latin1 line then
        some (codes (join (str "\r\n") (requestLines method path host headers body) ++ str "\r\n\r\n") ++
          body.getD [])
      else none := by
  have hiff : Latin1 (join (str "\r\n") (requestLines method path host headers body) ++ str "\r\n\r\n") ↔
      ∀ line ∈ requestLines method path host headers body, Latin1 line := by
    rw [latin1_append_iff, latin1_join_iff (by decide)]
    exact and_iff_left (by decide)
  have hbuild : buildRequest method path host headers body =
      encodeLatin1 (join (str "\r\n") (requestLines method path host headers body) ++ str "\r\n\r\n") >>=
        fun head => some (head ++ body.getD []) := rfl
  rw [hbuild, encodeLatin1_eq]
  split_ifs with h h'
  · rfl
  · exact absurd (hiff.mp h) h'
  · exact absurd (hiff.mpr (by assumption)) h
  · rfl

theorem latin1_of_buildRequest {method path host : Str} {headers : List (Str × Str)}
    {body : Option Bytes} {raw : Bytes}
    (h : buildRequest method path host headers body = some raw) :
    ∀ line ∈ requestLines method path host headers body, Latin1 line := by
  rw [buildRequest_eq] at h
  by_contra hne
  rw [if_neg hne] at h
  cases h

end Fizzpy
