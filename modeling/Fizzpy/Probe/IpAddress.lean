import Fizzpy.Text
import Fizzpy.Foundation.Search

/-!
# IP literals

What `ipaddress.ip_address` takes: dotted quads, and hextets between colons, of which one run of
zeros may be left out, with a zone behind a percent sign. Of a literal it is used here which
characters it has, so that no other spelling of a target is taken for one.
-/

namespace Fizzpy

namespace Probe

open Foundation

/-! ## The grammar -/

/-- A decimal octet, without leading zeros. -/
def isOctet (s : Str) : Bool :=
  s ≠ [] && s.all Char.isDigit && s.length ≤ 3 && (s = ['0'] || s.head? ≠ some '0') &&
    ofDigits 10 (s.map fun c => c.toNat - 48) ≤ 255

/-- `IPv4Address` takes the text. -/
def isIPv4 (s : Str) : Bool :=
  let octets := split ['.'] s
  octets.length = 4 && octets.all isOctet

def isHexDigit (c : Char) : Bool := c.isDigit || ('a' ≤ c && c ≤ 'f') || ('A' ≤ c && c ≤ 'F')

def isHextet (s : Str) : Bool := s ≠ [] && s.all isHexDigit && s.length ≤ 4

/-- The parts between the colons. A dotted quad at the end makes two hextets, here two zeros: which
ones does not matter to whether the address is taken. -/
def hextets (addr : Str) : Option (List Str) :=
  let parts := split [':'] addr
  let last := parts.getLastD []
  if parts.length < 3 then none
  else if '.' ∈ last then
    if isIPv4 last then some (parts.dropLast ++ [['0'], ['0']]) else none
  else some parts

/-- Eight hextets, or fewer around one `::`. The first or the last part is empty only where the `::`
is at that end. -/
def placed (parts : List Str) : Bool :=
  let inner := parts.tail.dropLast
  let first := parts.head? = some []
  let last := parts.getLast? = some []
  parts.length ≤ 9 && parts.all (fun part => part = [] || isHextet part) &&
    match inner.count [] with
    | 0 => parts.length = 8 && !first && !last
    | 1 =>
      let skip := inner.idxOf [] + 1
      let given := parts.length - 1 - (if first then 1 else 0) - (if last then 1 else 0)
      (!first || skip = 1) && (!last || skip = parts.length - 2) && given < 8
    | _ => false

/-- What is before the zone. -/
def address (s : Str) : Str := s.takeWhile (· ≠ '%')

/-- `IPv6Address` takes the text. -/
def isIPv6 (s : Str) : Bool :=
  let zone := s.drop (address s).length
  '/' ∉ s && (zone = [] || (zone.tail ≠ [] && '%' ∉ zone.tail)) &&
    match hextets (address s) with
    | none => false
    | some parts => placed parts

/-- `ipaddress.ip_address` takes the text. -/
def isIpAddress (s : Str) : Bool := isIPv4 s || isIPv6 s

/-! ## The characters of a literal -/

/-- What is put together ends with the last part. -/
theorem intercalate_concat (sep : Str) (parts : List Str) (part : Str) : ∃ front,
    List.intercalate sep (parts ++ [part]) = front ++ part ∧ (parts ≠ [] → sep <:+ front) := by
  induction parts with
  | nil => exact ⟨[], by simp, fun h => absurd rfl h⟩
  | cons p parts ih =>
    obtain ⟨front, hfront, hsep⟩ := ih
    cases parts with
    | nil =>
      refine ⟨p ++ sep, ?_, fun _ => List.suffix_append p sep⟩
      simp [List.intercalate_cons_cons]
    | cons q parts =>
      refine ⟨p ++ sep ++ front, ?_, fun _ => (hsep (by simp)).trans (List.suffix_append _ _)⟩
      rw [List.cons_append, List.cons_append, List.intercalate_cons_cons, ← List.cons_append, hfront]
      simp only [List.append_assoc]

theorem mem_intercalate {sep : Str} {c : Char} : ∀ {parts : List Str},
    c ∈ List.intercalate sep parts → c ∈ sep ∨ ∃ part ∈ parts, c ∈ part := by
  intro parts
  induction parts with
  | nil => intro h; cases h
  | cons p parts ih =>
    cases parts with
    | nil => exact fun h => .inr ⟨p, by simp, by simpa using h⟩
    | cons q parts =>
      intro h
      rw [List.intercalate_cons_cons, List.mem_append, List.mem_append] at h
      obtain (h | h) | h := h
      · exact .inr ⟨p, by simp, h⟩
      · exact .inl h
      · obtain h | ⟨part, hpart, h⟩ := ih h
        · exact .inl h
        · exact .inr ⟨part, List.mem_cons_of_mem _ hpart, h⟩

/-- A character of a text is in one of its pieces, or between two. -/
theorem mem_split {sep s : Str} (hs : sep ≠ []) {c : Char} (h : c ∈ s) :
    c ∈ sep ∨ ∃ piece ∈ split sep s, c ∈ piece :=
  mem_intercalate (by rwa [intercalate_split hs])

/-- The last piece, and what is before it. -/
theorem split_last {sep : Str} (hs : sep ≠ []) (s : Str) : ∃ pieces last front,
    split sep s = pieces ++ [last] ∧ s = front ++ last ∧ (pieces ≠ [] → sep <:+ front) := by
  have hjoin := intercalate_split hs s
  obtain hnil | ⟨pieces, last, hsplit⟩ := List.eq_nil_or_concat' (split sep s)
  · rw [hnil] at hjoin
    have hempty : s = [] := hjoin.symm
    rw [hempty, split_of_find_none (find_nil hs)] at hnil
    cases hnil
  · rw [hsplit] at hjoin
    obtain ⟨front, hfront, hsep⟩ := intercalate_concat sep pieces last
    exact ⟨pieces, last, front, hsplit, hjoin.symm.trans hfront, hsep⟩

theorem isDigit_of_isOctet {s : Str} (h : isOctet s = true) : s ≠ [] ∧ ∀ c ∈ s, c.isDigit = true := by
  unfold isOctet at h
  simp only [Bool.and_eq_true, decide_eq_true_eq, List.all_eq_true] at h
  exact ⟨h.1.1.1.1, h.1.1.1.2⟩

theorem isIPv4_octets {s : Str} (h : isIPv4 s = true) :
    (split ['.'] s).length = 4 ∧ ∀ octet ∈ split ['.'] s, isOctet octet = true := by
  unfold isIPv4 at h
  simpa only [Bool.and_eq_true, decide_eq_true_eq, List.all_eq_true] using h

theorem isIPv4_chars {s : Str} (h : isIPv4 s = true) : ∀ c ∈ s, c = '.' ∨ c.isDigit = true := by
  intro c hc
  obtain hc | ⟨octet, hoctet, hc⟩ := mem_split (List.cons_ne_nil '.' []) hc
  · exact .inl (List.mem_singleton.mp hc)
  · exact .inr ((isDigit_of_isOctet ((isIPv4_octets h).2 octet hoctet)).2 c hc)

/-- A dotted quad ends in a digit. -/
theorem isIPv4_last {s : Str} (h : isIPv4 s = true) : ∃ front c, s = front ++ [c] ∧ c.isDigit = true := by
  obtain ⟨pieces, last, front, hsplit, hs, -⟩ := split_last (List.cons_ne_nil '.' []) s
  obtain ⟨hne, hdigits⟩ := isDigit_of_isOctet ((isIPv4_octets h).2 last (by rw [hsplit]; simp))
  refine ⟨front ++ last.dropLast, last.getLast hne, ?_, hdigits _ (List.getLast_mem hne)⟩
  rw [List.append_assoc, List.dropLast_append_getLast]
  exact hs

/-- A character of an address in front of its zone. -/
def IsAddressChar (c : Char) : Prop := c = ':' ∨ c = '.' ∨ isHexDigit c = true

theorem isAddressChar_of_digit {c : Char} (h : c.isDigit = true) : IsAddressChar c := by
  refine .inr (.inr ?_)
  unfold isHexDigit
  rw [h]
  rfl

/-- What is known of the parts of an address that is taken. -/
structure Parted (addr : Str) (pieces : List Str) (last : Str) : Prop where
  split_eq : split [':'] addr = pieces ++ [last]
  colons : 2 ≤ pieces.length
  pieces_ok : ∀ piece ∈ pieces, piece = [] ∨ isHextet piece = true
  last_ok : last = [] ∨ isHextet last = true ∨ isIPv4 last = true

theorem isHexDigit_of_isHextet {s : Str} (h : isHextet s = true) :
    s ≠ [] ∧ ∀ c ∈ s, isHexDigit c = true := by
  unfold isHextet at h
  simp only [Bool.and_eq_true, List.all_eq_true, decide_eq_true_eq] at h
  exact h.1

theorem isIPv6_parts {s : Str} (h : isIPv6 s = true) :
    '/' ∉ s ∧ ∃ parts, hextets (address s) = some parts ∧ placed parts = true := by
  unfold isIPv6 at h
  cases hp : hextets (address s) with
  | none => simp [hp] at h
  | some parts =>
    simp only [hp, Bool.and_eq_true, decide_eq_true_eq] at h
    exact ⟨h.1.1, parts, rfl, h.2⟩

theorem placed_parts {parts : List Str} (h : placed parts = true) :
    ∀ part ∈ parts, part = [] ∨ isHextet part = true := by
  unfold placed at h
  simp only [Bool.and_eq_true, List.all_eq_true, Bool.or_eq_true, decide_eq_true_eq] at h
  exact h.1.2

theorem parted {s : Str} (h : isIPv6 s = true) : ∃ pieces last, Parted (address s) pieces last := by
  obtain ⟨-, parts, hparts, hplaced⟩ := isIPv6_parts h
  obtain ⟨pieces, last, -, hsplit, -, -⟩ := split_last (List.cons_ne_nil ':' []) (address s)
  have hok := placed_parts hplaced
  unfold hextets at hparts
  dsimp only at hparts
  rw [hsplit, List.length_append, List.length_singleton, List.getLastD_concat,
    List.dropLast_concat] at hparts
  split_ifs at hparts with hfew hdot hquad
  · rw [Option.some.injEq] at hparts
    subst hparts
    exact ⟨pieces, last, hsplit, by omega, fun piece hp => hok piece (by simp [hp]),
      .inr (.inr hquad)⟩
  · rw [Option.some.injEq] at hparts
    subst hparts
    exact ⟨pieces, last, hsplit, by omega, fun piece hp => hok piece (by simp [hp]),
      (hok last (by simp)).imp id .inl⟩

theorem address_chars {s : Str} (h : isIPv6 s = true) : ∀ c ∈ address s, IsAddressChar c := by
  intro c hc
  obtain ⟨pieces, last, hparted⟩ := parted h
  have hhextet : ∀ {part : Str}, part = [] ∨ isHextet part = true → c ∈ part → IsAddressChar c := by
    rintro part (rfl | hpart) hc
    · cases hc
    · exact .inr (.inr ((isHexDigit_of_isHextet hpart).2 c hc))
  obtain hc | ⟨piece, hpiece, hc⟩ := mem_split (List.cons_ne_nil ':' []) hc
  · exact .inl (List.mem_singleton.mp hc)
  · rw [hparted.split_eq, List.mem_append, List.mem_singleton] at hpiece
    obtain hpiece | rfl := hpiece
    · exact hhextet (hparted.pieces_ok piece hpiece) hc
    · obtain hlast | hlast | hlast := hparted.last_ok
      · exact hhextet (.inl hlast) hc
      · exact hhextet (.inr hlast) hc
      · exact (isIPv4_chars hlast c hc).elim (fun hdot => .inr (.inl hdot)) isAddressChar_of_digit

theorem isIpAddress_cases {s : Str} (h : isIpAddress s = true) : isIPv4 s = true ∨ isIPv6 s = true := by
  unfold isIpAddress at h
  rwa [Bool.or_eq_true] at h

theorem slash_of_isIpAddress {s : Str} (h : isIpAddress s = true) : '/' ∉ s := by
  obtain h | h := isIpAddress_cases h
  · intro hc
    exact absurd (isIPv4_chars h '/' hc) (by decide)
  · exact (isIPv6_parts h).1

/-- A host in brackets is no literal. -/
theorem not_isIpAddress_bracket (s : Str) : isIpAddress ('[' :: s) = false := by
  rw [Bool.eq_false_iff]
  intro h
  obtain h | h := isIpAddress_cases h
  · exact absurd (isIPv4_chars h '[' (List.mem_cons_self ..)) (by decide)
  · have hmem : '[' ∈ address ('[' :: s) := by
      unfold address
      rw [List.takeWhile_cons_of_pos (by decide)]
      exact List.mem_cons_self ..
    have hchar := address_chars h '[' hmem
    unfold IsAddressChar at hchar
    exact absurd hchar (by decide)

theorem split_of_not_mem {c : Char} {t : Str} (h : c ∉ t) : split [c] t = [t] :=
  split_of_find_none (find_eq_none_iff.mpr fun hin => h (hin.subset (List.mem_singleton.mpr rfl)))

theorem address_of_not_mem {s : Str} (h : '%' ∉ s) : address s = s := by
  unfold address
  rw [List.takeWhile_eq_self_iff]
  exact fun c hc => decide_eq_true fun heq => h (heq ▸ hc)

/-- The address of a text with a zone is what is in front of the first percent sign. -/
theorem address_zone {front : Str} (h : '%' ∉ front) (rest : Str) :
    address (front ++ '%' :: rest) = front := by
  have hfront : ∀ c ∈ front, decide (c ≠ '%') = true := fun c hc =>
    decide_eq_true fun heq => h (heq ▸ hc)
  unfold address
  rw [List.takeWhile_append_of_pos hfront, List.takeWhile_cons_of_neg (by decide), List.append_nil]

/-- Nor is one with a port, where the host itself has no colon. -/
theorem not_isIpAddress_port {host digits : Str} (hhost : ':' ∉ host)
    (hdigits : ∀ c ∈ digits, c.isDigit = true) : isIpAddress (host ++ ':' :: digits) = false := by
  rw [Bool.eq_false_iff]
  intro h
  obtain h | h := isIpAddress_cases h
  · exact absurd (isIPv4_chars h ':' (by simp)) (by decide)
  · obtain ⟨pieces, last, hparted⟩ := parted h
    -- an address has two colons at least
    have hfew : (split [':'] (address (host ++ ':' :: digits))).length ≤ 2 := by
      by_cases hzone : '%' ∈ host
      · obtain ⟨front, rest, rfl, hfront⟩ := List.eq_append_cons_of_mem hzone
        have haddr : address (front ++ '%' :: rest ++ ':' :: digits) = front := by
          rw [List.append_assoc, List.cons_append]
          exact address_zone hfront _
        have hcolon : ':' ∉ front := fun hc => hhost (List.mem_append_left _ hc)
        rw [haddr, split_of_not_mem hcolon]
        exact Nat.le_succ 1
      · have hdigit : ∀ c : Char, c.isDigit = false → c ∉ digits := fun c hc hmem =>
          Bool.false_ne_true (hc.symm.trans (hdigits c hmem))
        have haddr : address (host ++ ':' :: digits) = host ++ ':' :: digits := by
          refine address_of_not_mem fun hc => ?_
          rw [List.mem_append, List.mem_cons] at hc
          obtain hc | hc | hc := hc
          · exact hzone hc
          · exact absurd hc (by decide)
          · exact hdigit '%' (by decide) hc
        have hcolon : ∀ c ∈ host, c ≠ ':' := fun c hc heq => hhost (heq ▸ hc)
        rw [haddr, split_singleton_cons hcolon, split_of_not_mem (hdigit ':' (by decide))]
        exact le_rfl
    have hcolons := hparted.colons
    rw [hparted.split_eq, List.length_append, List.length_singleton] at hfew
    omega

/-- Without a zone a literal has no brackets, and does not end in a dot. -/
theorem zoneless_chars {s : Str} (h : isIpAddress s = true) (hzone : '%' ∉ s) :
    '[' ∉ s ∧ ']' ∉ s ∧ s.getLast? ≠ some '.' := by
  obtain h | h := isIpAddress_cases h
  · refine ⟨fun hc => absurd (isIPv4_chars h '[' hc) (by decide),
      fun hc => absurd (isIPv4_chars h ']' hc) (by decide), ?_⟩
    obtain ⟨front, c, rfl, hc⟩ := isIPv4_last h
    rw [List.getLast?_concat]
    rintro ⟨rfl⟩
    exact absurd hc (by decide)
  · have hchars := address_chars h
    rw [address_of_not_mem hzone] at hchars
    have hbracket : ∀ c : Char, c = '[' ∨ c = ']' → ¬ IsAddressChar c := by
      unfold IsAddressChar
      rintro c (rfl | rfl) <;> decide
    refine ⟨fun hc => hbracket _ (.inl rfl) (hchars _ hc), fun hc => hbracket _ (.inr rfl) (hchars _ hc),
      ?_⟩
    obtain ⟨pieces, last, hparted⟩ := parted h
    obtain ⟨pieces', last', front, hsplit, hs, hsep⟩ := split_last (List.cons_ne_nil ':' []) s
    have hsame := hparted.split_eq
    rw [address_of_not_mem hzone, hsplit] at hsame
    obtain ⟨rfl, rfl⟩ := List.append_singleton_inj.mp hsame
    have hlast := hparted.last_ok
    obtain rfl | hlast | hlast := hlast
    · obtain ⟨before, rfl⟩ := hsep (List.ne_nil_of_length_pos (by have := hparted.colons; omega))
      rw [hs, List.append_nil, List.getLast?_concat]
      decide
    · obtain ⟨hne, hhex⟩ := isHexDigit_of_isHextet hlast
      rw [hs, List.getLast?_append_of_ne_nil _ hne, List.getLast?_eq_some_getLast hne]
      intro hdot
      rw [Option.some.injEq] at hdot
      have hc := hhex _ (List.getLast_mem hne)
      rw [hdot] at hc
      exact absurd hc (by decide)
    · obtain ⟨front', c, rfl, hc⟩ := isIPv4_last hlast
      rw [hs, ← List.append_assoc, List.getLast?_concat]
      rintro ⟨rfl⟩
      exact absurd hc (by decide)

end Probe

end Fizzpy
