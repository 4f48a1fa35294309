import Mathlib.Tactic
import Mathlib.Data.List.DropRight

/-!
# Bytes and text

The built-in operations of `bytes`, `str` and `int` that the package uses. Text read off the wire
is latin-1: byte `b` is the character with code `b`.
-/

namespace Fizzpy

abbrev Bytes := List UInt8

abbrev Str := List Char

instance lawfulBEqStr : LawfulBEq Str := inferInstance

/-- A `bytes` literal. -/
def ascii (s : String) : Bytes := s.toList.map fun c => c.toNat.toUInt8

/-- A `str` literal. -/
def str (s : String) : Str := s.toList

def CR : UInt8 := 13
def LF : UInt8 := 10
def COLON : UInt8 := 58
def SEMI : UInt8 := 59
def SP : UInt8 := 32
def HTAB : UInt8 := 9

def CRLF : Bytes := [CR, LF]
def CRLFCRLF : Bytes := [CR, LF, CR, LF]

/-- The character of a byte. -/
def chr (b : UInt8) : Char := Char.ofNat b.toNat

/-- `decode("latin-1")`. -/
def latin1 (b : Bytes) : Str := b.map chr

/-- Whether `bytes.strip` takes the byte off. -/
def isSpaceByte (b : UInt8) : Bool := b == 32 || (9 ≤ b && b ≤ 13)

/-- `str.isspace` of one character. -/
def isSpace (c : Char) : Bool :=
  c.toNat ∈ [9, 10, 11, 12, 13, 28, 29, 30, 31, 32, 133, 160, 0x1680, 0x2028, 0x2029, 0x202f, 0x205f,
    0x3000] || (0x2000 ≤ c.toNat && c.toNat ≤ 0x200a)

/-- `strip`: both ends are cleared of what satisfies `p`. -/
def strip {α : Type*} (p : α → Bool) (l : List α) : List α := (l.dropWhile p).rdropWhile p

/-- `str.lower` of one character. Outside latin-1, which never reaches a comparison here, a
character is its own lower case. -/
def lowerChar (c : Char) : Char :=
  if (65 ≤ c.toNat ∧ c.toNat ≤ 90) ∨ (192 ≤ c.toNat ∧ c.toNat ≤ 222 ∧ c.toNat ≠ 215) then
    Char.ofNat (c.toNat + 32)
  else c

/-- `str.lower`. -/
def lower (s : Str) : Str := s.map lowerChar

/-- `str.upper` of one character. Where it leads out of latin-1, another character beyond latin-1
stands for the result: no such text is ever sent. -/
def upperChar (c : Char) : Str :=
  let n := c.toNat
  if (97 ≤ n ∧ n ≤ 122) ∨ (224 ≤ n ∧ n ≤ 254 ∧ n ≠ 247) then [Char.ofNat (n - 32)]
  else if n = 181 ∨ n = 255 then [Char.ofNat (n + 256)]
  else if n = 223 then str "SS"
  else if n = 305 then str "I"
  else if n = 383 then str "S"
  else if n = 0xfb00 then str "FF"
  else if n = 0xfb01 then str "FI"
  else if n = 0xfb02 then str "FL"
  else if n = 0xfb03 then str "FFI"
  else if n = 0xfb04 then str "FFL"
  else if n = 0xfb05 ∨ n = 0xfb06 then str "ST"
  else [c]

/-- `str.upper`. -/
def upper (s : Str) : Str := s.flatMap upperChar

/-- `sub in s`. -/
def contains (sub s : Str) : Bool := decide (sub <:+: s)

/-- `sep.join(parts)`. -/
def join {α : Type*} (sep : List α) (parts : List (List α)) : List α := sep.intercalate parts

/-! ## `repr` -/

def hexChar (n : ℕ) : Char := (str "0123456789abcdef").getD n '0'

/-- The last `width` hexadecimal digits of a number. -/
def hexDigits (width n : ℕ) : Str := (List.range width).reverse.map fun i => hexChar (n / 16 ^ i % 16)

def backslash : Char := Char.ofNat 92

/-- The escape of one character in a `repr` quoted by `quote`. -/
def reprChar (quote : Char) (printable : ℕ → Bool) (c : Char) : Str :=
  if c = quote ∨ c = backslash then [backslash, c]
  else if c.toNat = 9 then [backslash, 't']
  else if c.toNat = 10 then [backslash, 'n']
  else if c.toNat = 13 then [backslash, 'r']
  else if printable c.toNat then [c]
  else if c.toNat < 0x100 then backslash :: 'x' :: hexDigits 2 c.toNat
  else if c.toNat < 0x10000 then backslash :: 'u' :: hexDigits 4 c.toNat
  else backslash :: 'U' :: hexDigits 8 c.toNat

/-- Quoted by an apostrophe, or by a double quote when only the apostrophe occurs inside. -/
def reprWith (printable : ℕ → Bool) (s : Str) : Str :=
  let quote := if Char.ofNat 39 ∈ s ∧ Char.ofNat 34 ∉ s then Char.ofNat 34 else Char.ofNat 39
  [quote] ++ s.flatMap (reprChar quote printable) ++ [quote]

/-- `repr` of a `bytes`. -/
def reprBytes (b : Bytes) : Str := 'b' :: reprWith (fun n => 32 ≤ n && n < 127) (latin1 b)

/-- `repr` of a `str` read off the wire, which is latin-1. -/
def reprStr (s : Str) : Str :=
  reprWith (fun n => (32 ≤ n && n < 127) || (161 ≤ n && n ≠ 173)) s

/-! ## `int` -/

/-- The digit a character code stands for: decimal digits, then the letters in either case. -/
def digitVal (c : ℕ) : Option ℕ :=
  if 48 ≤ c ∧ c ≤ 57 then some (c - 48)
  else if 97 ≤ c ∧ c ≤ 122 then some (c - 87)
  else if 65 ≤ c ∧ c ≤ 90 then some (c - 55)
  else none

/-- The digits of a literal. An underscore stands only between two digits: `sep` says that the
character before was not a digit. -/
def intDigits (base : ℕ) : Bool → List ℕ → Option (List ℕ)
  | sep, [] => if sep then none else some []
  | sep, c :: cs =>
    if c = 95 then if sep then none else intDigits base true cs
    else
      match digitVal c with
      | some d => if d < base then (intDigits base false cs).map (d :: ·) else none
      | none => none

/-- The number with these digits, most significant first. -/
def ofDigits (base : ℕ) (ds : List ℕ) : ℕ := ds.foldl (fun acc d => acc * base + d) 0

/-- `sys.int_info.default_max_str_digits`: `int` refuses longer decimal strings. -/
def intMaxStrDigits : ℕ := 4300

/-- The `0x` that base 16 allows in front, with one underscore behind it. -/
def dropHexPrefix : List ℕ → List ℕ
  | 48 :: x :: cs =>
    if x = 120 ∨ x = 88 then
      match cs with
      | 95 :: cs' => cs'
      | cs => cs
    else 48 :: x :: cs
  | cs => cs

/-- An unsigned literal. The limit on the number of digits is for bases that are no power of two. -/
def intMagnitude (base : ℕ) (cs : List ℕ) : Option ℕ :=
  match intDigits base true (if base = 16 then dropHexPrefix cs else cs) with
  | some ds => if base = 10 ∧ intMaxStrDigits < ds.length then none else some (ofDigits base ds)
  | none => none

/-- `int(text, base)` on character codes, for base 10 or 16; `none` is the `ValueError`. -/
def intOfCodes (base : ℕ) (cs : List ℕ) : Option ℤ :=
  match strip (fun c => c == 32 || (9 ≤ c && c ≤ 13)) cs with
  | 45 :: cs => (intMagnitude base cs).map fun n => -(n : ℤ)
  | 43 :: cs => (intMagnitude base cs).map fun n => (n : ℤ)
  | cs => (intMagnitude base cs).map fun n => (n : ℤ)

def intOfBytes (base : ℕ) (b : Bytes) : Option ℤ := intOfCodes base (b.map UInt8.toNat)

/-- `int` of a `str` first turns white space beyond ASCII into blanks. -/
def intOfStr (base : ℕ) (s : Str) : Option ℤ :=
  intOfCodes base (s.map fun c => if 127 ≤ c.toNat ∧ isSpace c then 32 else c.toNat)

example : intOfStr 10 (str " +1_0 ") = some 10 := by decide
example : intOfBytes 16 (ascii "-0x_fF") = some (-255) := by decide
example : intOfBytes 16 (ascii "1__0") = none := by decide

/-- `str(n)`. -/
def decimal (n : ℕ) : Bytes := (Nat.toDigits 10 n).map fun c => c.toNat.toUInt8

/-! ## Upper case -/

theorem upper_append (a b : Str) : upper (a ++ b) = upper a ++ upper b := List.flatMap_append

theorem upper_upperChar (c : Char) : upper (upperChar c) = upperChar c := by
  have hlow : ∀ n < 512, upper (upperChar (Char.ofNat n)) = upperChar (Char.ofNat n) := by
    decide +kernel
  have hligature : ∀ k < 7, upper (upperChar (Char.ofNat (0xfb00 + k))) =
      upperChar (Char.ofNat (0xfb00 + k)) := by decide +kernel
  by_cases h : c.toNat < 512
  · rw [← Char.ofNat_toNat c]
    exact hlow _ h
  by_cases hl : 0xfb00 ≤ c.toNat ∧ c.toNat < 0xfb07
  · obtain ⟨k, hk⟩ := Nat.exists_eq_add_of_le hl.1
    rw [← Char.ofNat_toNat c, hk]
    exact hligature k (by omega)
  have hself : upperChar c = [c] := by
    unfold upperChar
    dsimp only
    rw [if_neg (by omega), if_neg (by omega), if_neg (by omega), if_neg (by omega),
      if_neg (by omega), if_neg (by omega), if_neg (by omega), if_neg (by omega),
      if_neg (by omega), if_neg (by omega), if_neg (by omega)]
  rw [hself]
  exact (List.flatMap_singleton _ _).trans hself

/-- Upper case stays as it is. -/
theorem upper_upper (s : Str) : upper (upper s) = upper s := by
  induction s with
  | nil => rfl
  | cons c s ih =>
    show upper (upperChar c ++ upper s) = upperChar c ++ upper s
    rw [upper_append, upper_upperChar, ih]

/-! ## Stripping -/

theorem strip_eq_self {α : Type*} {p : α → Bool} {l : List α} (hh : ∀ x ∈ l.head?, p x = false)
    (hl : ∀ x ∈ l.getLast?, p x = false) : strip p l = l := by
  have hd : l.dropWhile p = l := by
    cases l with
    | nil => rfl
    | cons x xs => rw [List.dropWhile_cons_of_neg]; simpa using hh x (by simp)
  unfold strip
  rw [hd, List.rdropWhile_eq_self_iff]
  intro hne
  simpa using hl (l.getLast hne) (List.getLast?_eq_some_getLast hne ▸ rfl)

/-- What satisfies `p` at the front does not matter. -/
theorem strip_append_left {α : Type*} {p : α → Bool} {pre : List α} (h : ∀ x ∈ pre, p x = true)
    (l : List α) : strip p (pre ++ l) = strip p l := by
  unfold strip
  rw [List.dropWhile_append_of_pos h]

/-- `strip` gives a text back that was padded on both sides. -/
theorem strip_padded {α : Type*} {p : α → Bool} {pre l post : List α} (hpre : ∀ x ∈ pre, p x = true)
    (hpost : ∀ x ∈ post, p x = true) (hh : ∀ x ∈ l.head?, p x = false)
    (hl : ∀ x ∈ l.getLast?, p x = false) : strip p (pre ++ l ++ post) = l := by
  rw [List.append_assoc, strip_append_left hpre]
  cases l with
  | nil =>
    unfold strip
    rw [List.nil_append, List.dropWhile_eq_nil_iff.mpr hpost]
    rfl
  | cons x xs =>
    have hx : p x = false := hh x rfl
    have hd : (x :: xs ++ post).dropWhile p = x :: xs ++ post :=
      List.dropWhile_cons_of_neg (by simpa using hx)
    have hself := strip_eq_self hh hl
    unfold strip at hself ⊢
    rw [List.dropWhile_cons_of_neg (by simpa using hx)] at hself
    unfold List.rdropWhile at hself ⊢
    rw [hd, List.reverse_append, List.dropWhile_append_of_pos (by simpa using hpost)]
    exact hself

/-- The ends of a stripped text do not satisfy `p`. -/
theorem ends_strip {α : Type*} (p : α → Bool) (l : List α) :
    (∀ x ∈ (strip p l).head?, p x = false) ∧ ∀ x ∈ (strip p l).getLast?, p x = false := by
  have hpre : strip p l <+: l.dropWhile p := List.rdropWhile_prefix p _
  constructor
  · intro x hx
    have hhead := List.head?_dropWhile_not p l
    obtain ⟨t, ht⟩ := hpre
    rw [← ht, List.head?_append_of_ne_nil _ fun hnil => by rw [hnil] at hx; cases hx] at hhead
    rw [Option.mem_def] at hx
    rwa [hx] at hhead
  · intro x hx
    obtain ⟨hne, rfl⟩ := List.mem_getLast?_eq_getLast hx
    exact Bool.eq_false_of_not_eq_true (List.rdropWhile_last_not p (l.dropWhile p) hne)

theorem strip_strip {α : Type*} (p : α → Bool) (l : List α) : strip p (strip p l) = strip p l :=
  strip_eq_self (ends_strip p l).1 (ends_strip p l).2

theorem isSpace_chr_of_blank {b : UInt8} (h : b = SP ∨ b = HTAB) : isSpace (chr b) = true := by
  obtain rfl | rfl := h <;> decide

theorem latin1_append (a b : Bytes) : latin1 (a ++ b) = latin1 a ++ latin1 b := List.map_append

end Fizzpy
