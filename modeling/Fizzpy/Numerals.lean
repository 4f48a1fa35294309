import Fizzpy.Text

/-!
# Reading numbers back

`int` applied to a numeral gives the number it was written for: in base 16 for digits of either
case with any number of leading zeros (`intOfBytes_hex`), in base 10 for what `str` writes with
zeros in front (`intOfStr_padded`).
-/

namespace Fizzpy

/-- The code `c` stands for the digit `d` of the base. -/
def Stands (base c d : ℕ) : Prop := digitVal c = some d ∧ d < base

theorem Stands.ne {base c d k : ℕ} (h : Stands base c d) (hk : digitVal k = none) : c ≠ k := by
  rintro rfl
  rw [h.1] at hk
  cases hk

theorem intDigits_of_stands {base : ℕ} {cs ds : List ℕ} (h : List.Forall₂ (Stands base) cs ds) :
    ∀ sep : Bool, (sep = true → cs ≠ []) → intDigits base sep cs = some ds := by
  induction h with
  | nil =>
    intro sep hne
    cases sep with
    | false => rfl
    | true => exact absurd rfl (hne rfl)
  | cons hd _ ih =>
    intro sep _
    unfold intDigits
    rw [if_neg (hd.ne (by decide)), hd.1]
    simp only [if_pos hd.2, ih false (fun h => by cases h), Option.map_some]

theorem dropHexPrefix_of_stands {cs ds : List ℕ} (h : List.Forall₂ (Stands 16) cs ds) :
    dropHexPrefix cs = cs := by
  unfold dropHexPrefix
  split
  · rename_i x cs
    obtain _ | ⟨-, h⟩ := h
    obtain _ | ⟨⟨hx, hlt⟩, -⟩ := h
    refine if_neg ?_
    rintro (rfl | rfl) <;> (simp [digitVal] at hx; omega)
  · rfl

/-- The limit is on the digits of a decimal literal. -/
theorem intMagnitude_stands {base : ℕ} {cs ds : List ℕ} (h : List.Forall₂ (Stands base) cs ds)
    (hne : cs ≠ []) : intMagnitude base cs =
      if base = 10 ∧ intMaxStrDigits < ds.length then none else some (ofDigits base ds) := by
  have hcs : (if base = 16 then dropHexPrefix cs else cs) = cs := by
    split_ifs with hb
    · subst hb; exact dropHexPrefix_of_stands h
    · rfl
  unfold intMagnitude
  rw [hcs, intDigits_of_stands h true fun _ => hne]

/-- Digits alone make an unsigned literal. -/
theorem intOfCodes_stands {base : ℕ} {cs ds : List ℕ} (h : List.Forall₂ (Stands base) cs ds) :
    intOfCodes base cs = (intMagnitude base cs).map fun n => (n : ℤ) := by
  have hmem : ∀ c ∈ cs, ∃ d, Stands base c d := fun c hc => by
    obtain ⟨i, hi, rfl⟩ := List.getElem_of_mem hc
    exact ⟨_, h.get hi (by rw [← h.length_eq]; exact hi)⟩
  have hspace : ∀ c ∈ cs, (c == 32 || (9 ≤ c && c ≤ 13)) = false := fun c hc => by
    obtain ⟨d, hd, -⟩ := hmem c hc
    by_contra hs
    have : c = 32 ∨ (9 ≤ c ∧ c ≤ 13) := by simpa [or_iff_not_imp_left] using hs
    have : digitVal c = none := by simp only [digitVal]; split_ifs <;> first | rfl | omega
    rw [hd] at this
    cases this
  unfold intOfCodes
  rw [strip_eq_self (fun c hc => hspace c (List.mem_of_mem_head? hc))
    (fun c hc => hspace c (List.mem_of_mem_getLast? hc))]
  split
  · exact absurd rfl ((hmem 45 (by simp)).choose_spec.ne (by decide))
  · exact absurd rfl ((hmem 43 (by simp)).choose_spec.ne (by decide))
  · rfl

/-! ## Hexadecimal -/

instance neZeroSixteen : NeZero 16 := ⟨by decide⟩

/-- A hexadecimal digit in one of its two cases. -/
def hexDigit (d : Fin 16 × Bool) : UInt8 :=
  (if d.1.val < 10 then 48 + d.1.val else if d.2 then 55 + d.1.val else 87 + d.1.val).toUInt8

/-- The number a list of hexadecimal digits stands for. -/
def hexValue (ds : List (Fin 16 × Bool)) : ℕ := ofDigits 16 (ds.map fun d => d.1.val)

theorem stands_hexDigit : ∀ d : Fin 16 × Bool, Stands 16 (hexDigit d).toNat d.1.val := by
  unfold Stands
  decide

theorem hexDigit_ne_semi : ∀ d : Fin 16 × Bool, hexDigit d ≠ SEMI := by decide

theorem hexDigit_ne_cr : ∀ d : Fin 16 × Bool, hexDigit d ≠ CR := by decide

theorem isSpaceByte_hexDigit : ∀ d : Fin 16 × Bool, isSpaceByte (hexDigit d) = false := by decide

theorem intOfBytes_hex {ds : List (Fin 16 × Bool)} (hne : ds ≠ []) :
    intOfBytes 16 (ds.map hexDigit) = some (hexValue ds : ℤ) := by
  have hstands : List.Forall₂ (Stands 16) ((ds.map hexDigit).map UInt8.toNat)
      (ds.map fun d => d.1.val) := by
    rw [List.forall₂_map_left_iff, List.forall₂_map_left_iff, List.forall₂_map_right_iff,
      List.forall₂_same]
    exact fun d _ => stands_hexDigit d
  unfold intOfBytes
  rw [intOfCodes_stands hstands, intMagnitude_stands hstands (by simpa using hne), if_neg (by omega)]
  rfl

/-! ## Decimal -/

/-- The largest length of a `bytes`. -/
def maxSize : ℕ := 2 ^ 63 - 1

theorem isDigit_toNat {c : Char} (h : c.isDigit) : 48 ≤ c.toNat ∧ c.toNat ≤ 57 := by
  simp only [Char.isDigit, ge_iff_le, Bool.and_eq_true, decide_eq_true_eq, UInt32.le_iff_toNat_le] at h
  exact h

theorem toNat_toUInt8_digit {c : Char} (h : c.isDigit) : c.toNat.toUInt8.toNat = c.toNat := by
  obtain ⟨-, h⟩ := isDigit_toNat h
  simp only [Nat.toUInt8_eq, UInt8.toNat_ofNat']
  omega

theorem latin1_decimal (n : ℕ) : latin1 (decimal n) = Nat.toDigits 10 n := by
  unfold latin1 decimal
  rw [List.map_map]
  refine (List.map_congr_left fun c hc => ?_).trans (List.map_id _)
  have hd := Nat.isDigit_of_mem_toDigits (by decide) (by decide) hc
  show Char.ofNat c.toNat.toUInt8.toNat = c
  rw [toNat_toUInt8_digit hd, Char.ofNat_toNat]

theorem stands_digit {c : ℕ} (h : 48 ≤ c ∧ c ≤ 57) : Stands 10 c (c - 48) := by
  unfold Stands digitVal
  rw [if_pos h]
  exact ⟨rfl, by omega⟩

theorem ofDigits_toDigits (n : ℕ) :
    ofDigits 10 ((Nat.toDigits 10 n).map fun c => c.toNat - 48) = n := by
  conv_rhs => rw [← Nat.ofDigitChars_ten_toDigits (n := n)]
  rw [Nat.ofDigitChars_eq_foldl]
  unfold ofDigits
  rw [List.foldl_map]
  congr 1
  funext acc c
  rw [Nat.mul_comm]
  rfl

theorem length_toDigits_le {n : ℕ} (h : n ≤ maxSize) : (Nat.toDigits 10 n).length ≤ 19 :=
  (Nat.length_toDigits_le_iff (by decide) (by decide)).mpr
    (lt_of_le_of_lt h (show maxSize < 10 ^ 19 by decide))

theorem intOfStr_digits {cs : Str} (hne : cs ≠ []) (hdig : ∀ c ∈ cs, 48 ≤ c.toNat ∧ c.toNat ≤ 57) :
    intOfStr 10 cs = if intMaxStrDigits < cs.length then none
      else some (ofDigits 10 (cs.map fun c => c.toNat - 48) : ℤ) := by
  have hcodes : cs.map (fun c => if 127 ≤ c.toNat ∧ isSpace c then 32 else c.toNat) =
      cs.map Char.toNat := by
    refine List.map_congr_left fun c hc => if_neg ?_
    have := hdig c hc
    omega
  have hstands : List.Forall₂ (Stands 10) (cs.map Char.toNat) (cs.map fun c => c.toNat - 48) := by
    rw [List.forall₂_map_left_iff, List.forall₂_map_right_iff, List.forall₂_same]
    exact fun c hc => stands_digit (hdig c hc)
  unfold intOfStr
  rw [hcodes, intOfCodes_stands hstands, intMagnitude_stands hstands (by simpa using hne),
    List.length_map]
  split_ifs with h h' h'
  · rfl
  · exact absurd h.2 h'
  · exact absurd ⟨rfl, h'⟩ h
  · rfl

/-- Decimal digits with zeros in front. -/
def padded (zeros n : ℕ) : Bytes := List.replicate zeros 48 ++ decimal n

theorem latin1_padded (zeros n : ℕ) :
    latin1 (padded zeros n) = List.replicate zeros '0' ++ Nat.toDigits 10 n := by
  rw [← latin1_decimal n]
  unfold padded latin1
  rw [List.map_append, List.map_replicate]
  rfl

theorem ofDigits_zeros (base zeros : ℕ) (ds : List ℕ) :
    ofDigits base (List.replicate zeros 0 ++ ds) = ofDigits base ds := by
  induction zeros with
  | zero => rfl
  | succ n ih =>
    rw [List.replicate_succ, List.cons_append, ← ih]
    simp [ofDigits]

/-- `int` takes a decimal numeral up to its limit of digits. -/
theorem intOfStr_numeral (zeros n : ℕ) : intOfStr 10 (latin1 (padded zeros n)) =
    if intMaxStrDigits < zeros + (Nat.toDigits 10 n).length then none else some (n : ℤ) := by
  rw [latin1_padded, intOfStr_digits]
  · rw [List.map_append, List.map_replicate, List.length_append, List.length_replicate]
    show (if _ then none else some ((ofDigits 10 (List.replicate zeros 0 ++ _) : ℕ) : ℤ)) = _
    rw [ofDigits_zeros, ofDigits_toDigits]
  · simp
  · intro c hc
    rcases List.mem_append.mp hc with hc | hc
    · rw [List.eq_of_mem_replicate hc]; decide
    · exact isDigit_toNat (Nat.isDigit_of_mem_toDigits (by decide) (by decide) hc)

/-- A length with zeros in front. -/
theorem intOfStr_padded {zeros n : ℕ} (hz : zeros + 19 ≤ intMaxStrDigits) (h : n ≤ maxSize) :
    intOfStr 10 (latin1 (padded zeros n)) = some (n : ℤ) := by
  have := length_toDigits_le h
  rw [intOfStr_numeral, if_neg (by omega)]

/-! ## What else `int` takes -/

/-- A decimal numeral of the protocol. -/
def IsDecimal (s : Str) : Prop := s ≠ [] ∧ ∀ c ∈ s, 48 ≤ c.toNat ∧ c.toNat ≤ 57

/-- A hexadecimal numeral of the protocol. -/
def IsHex (b : Bytes) : Prop := b ≠ [] ∧ ∀ x ∈ b, ∃ d, Stands 16 x.toNat d

/-- The signs and the underscore, which `int` allows, and the two letters of a hexadecimal prefix. -/
def lenientCodes (base : ℕ) : List ℕ := [43, 45, 95] ++ if base = 16 then [120, 88] else []

theorem stands_of_intDigits {base : ℕ} {cs : List ℕ} (hsep : 95 ∉ cs) : ∀ {ds : List ℕ} {sep : Bool},
    intDigits base sep cs = some ds → (sep = true → cs ≠ []) ∧ ∀ c ∈ cs, ∃ d, Stands base c d := by
  induction cs with
  | nil =>
    intro ds sep h
    cases sep with
    | false => exact ⟨nofun, by simp⟩
    | true => cases h
  | cons c cs ih =>
    intro ds sep h
    have hc : c ≠ 95 := fun he => hsep (he ▸ List.mem_cons_self)
    unfold intDigits at h
    rw [if_neg hc] at h
    split at h
    · rename_i d hd
      split_ifs at h with hlt
      obtain ⟨rest, hrest, -⟩ := Option.map_eq_some_iff.mp h
      obtain ⟨-, hall⟩ := ih (fun hm => hsep (List.mem_cons_of_mem c hm)) hrest
      exact ⟨fun _ => List.cons_ne_nil c cs, List.forall_mem_cons.mpr ⟨⟨d, hd, hlt⟩, hall⟩⟩
    · cases h

theorem dropHexPrefix_of_plain {cs : List ℕ} (h : ∀ c ∈ cs, c ≠ 120 ∧ c ≠ 88) :
    dropHexPrefix cs = cs := by
  unfold dropHexPrefix
  split
  · rename_i x cs
    have hx := h x (by simp)
    exact if_neg fun he => he.elim hx.1 hx.2
  · rfl

/-- Without these characters `int` takes digits only. -/
theorem stands_of_intOfCodes {base : ℕ} {cs : List ℕ} {n : ℤ} (h : intOfCodes base cs = some n)
    (hstrip : strip (fun c => c == 32 || (9 ≤ c && c ≤ 13)) cs = cs)
    (hplain : ∀ c ∈ cs, c ∉ lenientCodes base) :
    cs ≠ [] ∧ (∀ c ∈ cs, ∃ d, Stands base c d) ∧ 0 ≤ n := by
  have hmem : ∀ k ∈ lenientCodes base, k ∉ cs := fun k hk hc => hplain k hc hk
  have hcs : (if base = 16 then dropHexPrefix cs else cs) = cs := by
    split_ifs with hb
    · refine dropHexPrefix_of_plain fun c hc => ⟨?_, ?_⟩
      · rintro rfl
        exact hplain 120 hc (by simp [lenientCodes, hb])
      · rintro rfl
        exact hplain 88 hc (by simp [lenientCodes, hb])
    · rfl
  unfold intOfCodes at h
  rw [hstrip] at h
  split at h
  · exact absurd List.mem_cons_self (hmem 45 (by simp [lenientCodes]))
  · exact absurd List.mem_cons_self (hmem 43 (by simp [lenientCodes]))
  · obtain ⟨m, hm, rfl⟩ := Option.map_eq_some_iff.mp h
    obtain ⟨k, hk, hm⟩ := Option.bind_eq_some_iff.mp hm
    unfold intMagnitude at hk
    rw [hcs] at hk
    cases hd : intDigits base true cs with
    | none => rw [hd] at hk; cases hk
    | some ds =>
      obtain ⟨hne, hall⟩ := stands_of_intDigits (hmem 95 (by simp [lenientCodes])) hd
      refine ⟨hne rfl, hall, ?_⟩
      rw [← Option.some.inj hm]
      exact Int.natCast_nonneg k

theorem stands_ten {c d : ℕ} (h : Stands 10 c d) : 48 ≤ c ∧ c ≤ 57 := by
  obtain ⟨hd, hlt⟩ := h
  unfold digitVal at hd
  split_ifs at hd with h₁ h₂ h₃
  · exact h₁
  · rw [Option.some.injEq] at hd
    omega
  · rw [Option.some.injEq] at hd
    omega

theorem stands_not_lenient {base c d : ℕ} (h : Stands base c d) (hb : base ≤ 16) :
    c ∉ lenientCodes base := by
  obtain ⟨hd, hlt⟩ := h
  intro hc
  have hc : c ∈ [43, 45, 95, 120, 88] := by
    unfold lenientCodes at hc
    split_ifs at hc
    · exact hc
    · rw [List.append_nil] at hc
      exact List.mem_append_left [120, 88] hc
  simp only [List.mem_cons, List.not_mem_nil, or_false] at hc
  obtain rfl | rfl | rfl | rfl | rfl := hc <;> simp [digitVal] at hd <;> omega

/-- What `int` takes for a length, and the protocol does not. -/
def LenientDecimal (s : Str) : Prop :=
  (intOfStr 10 s).isSome ∧ ∃ c ∈ s, c.toNat ∈ lenientCodes 10

def LenientHex (b : Bytes) : Prop :=
  (intOfBytes 16 b).isSome ∧ ∃ x ∈ b, x.toNat ∈ lenientCodes 16

/-- The character of a code, as `int` sees it. -/
theorem intCode_of_stands {c : Char} {d : ℕ}
    (h : Stands 10 (if 127 ≤ c.toNat ∧ isSpace c then 32 else c.toNat) d) :
    48 ≤ c.toNat ∧ c.toNat ≤ 57 := by
  split_ifs at h
  · exact absurd (stands_ten h) (by decide)
  · exact stands_ten h

theorem isSpace_of_ascii {c : Char} (h : c.toNat = 32 ∨ 9 ≤ c.toNat ∧ c.toNat ≤ 13) :
    isSpace c = true := by
  have hmem : c.toNat ∈ [9, 10, 11, 12, 13, 28, 29, 30, 31, 32, 133, 160, 0x1680, 0x2028, 0x2029,
      0x202f, 0x205f, 0x3000] := by
    simp only [List.mem_cons, List.not_mem_nil, or_false]
    omega
  unfold isSpace
  rw [decide_eq_true hmem]
  rfl

/-- **Decimal.** Of what `int` takes, exactly the numerals without sign and underscore are the
protocol's. They are not negative. -/
theorem isDecimal_iff {s : Str} {n : ℤ} (h : intOfStr 10 s = some n) (hs : strip isSpace s = s) :
    (IsDecimal s ↔ ¬ LenientDecimal s) ∧ (IsDecimal s → 0 ≤ n) := by
  have hforward : IsDecimal s → ∀ c ∈ s, c.toNat ∉ lenientCodes 10 := fun hd c hc =>
    stands_not_lenient (stands_digit (hd.2 c hc)) (by decide)
  have hback : (∀ c ∈ s, c.toNat ∉ lenientCodes 10) → IsDecimal s ∧ 0 ≤ n := by
    intro hplain
    have hcode : ∀ c ∈ s, (if 127 ≤ c.toNat ∧ isSpace c then 32 else c.toNat) ∉ lenientCodes 10 := by
      intro c hc
      split_ifs
      · decide
      · exact hplain c hc
    have hspace : ∀ c : Char, isSpace c = false →
        ((fun c => c == 32 || (9 ≤ c && c ≤ 13)) (if 127 ≤ c.toNat ∧ isSpace c then 32 else c.toNat)) =
          false := by
      intro c hc
      rw [hc, if_neg fun hand => by cases hand.2]
      by_contra hne
      have hor : c.toNat = 32 ∨ 9 ≤ c.toNat ∧ c.toNat ≤ 13 := by
        simpa [or_iff_not_imp_left] using hne
      rw [isSpace_of_ascii hor] at hc
      cases hc
    have hends := ends_strip isSpace s
    rw [hs] at hends
    have hstrip : strip (fun c => c == 32 || (9 ≤ c && c ≤ 13))
        (s.map fun c => if 127 ≤ c.toNat ∧ isSpace c then 32 else c.toNat) =
          s.map fun c => if 127 ≤ c.toNat ∧ isSpace c then 32 else c.toNat := by
      refine strip_eq_self (fun k hk => ?_) (fun k hk => ?_)
      · rw [List.head?_map] at hk
        obtain ⟨c, hc, rfl⟩ := Option.map_eq_some_iff.mp hk
        exact hspace c (hends.1 c hc)
      · rw [List.getLast?_map] at hk
        obtain ⟨c, hc, rfl⟩ := Option.map_eq_some_iff.mp hk
        exact hspace c (hends.2 c hc)
    obtain ⟨hne, hall, hn⟩ := stands_of_intOfCodes h hstrip fun k hk => by
      obtain ⟨c, hc, rfl⟩ := List.mem_map.mp hk
      exact hcode c hc
    refine ⟨⟨fun he => hne (by rw [he]; rfl), fun c hc => ?_⟩, hn⟩
    obtain ⟨d, hd⟩ := hall _ (List.mem_map_of_mem hc)
    exact intCode_of_stands hd
  have hnot : ¬ LenientDecimal s ↔ ∀ c ∈ s, c.toNat ∉ lenientCodes 10 := by
    unfold LenientDecimal
    rw [h]
    simp
  rw [hnot]
  exact ⟨⟨hforward, fun hp => (hback hp).1⟩, fun hd => (hback (hforward hd)).2⟩

/-- **Hexadecimal.** -/
theorem isHex_iff {b : Bytes} {n : ℤ} (h : intOfBytes 16 b = some n) (hs : strip isSpaceByte b = b) :
    (IsHex b ↔ ¬ LenientHex b) ∧ (IsHex b → 0 ≤ n) := by
  have hforward : IsHex b → ∀ x ∈ b, x.toNat ∉ lenientCodes 16 := fun hd x hx => by
    obtain ⟨d, hd⟩ := hd.2 x hx
    exact stands_not_lenient hd le_rfl
  have hback : (∀ x ∈ b, x.toNat ∉ lenientCodes 16) → IsHex b ∧ 0 ≤ n := by
    intro hplain
    have hspace : ∀ x : UInt8, isSpaceByte x = false →
        (x.toNat == 32 || (9 ≤ x.toNat && x.toNat ≤ 13)) = false := fun x hx => by
      simpa [isSpaceByte, UInt8.le_iff_toNat_le, ← UInt8.toNat_inj] using hx
    have hends := ends_strip isSpaceByte b
    rw [hs] at hends
    have hstrip : strip (fun c => c == 32 || (9 ≤ c && c ≤ 13)) (b.map UInt8.toNat) =
        b.map UInt8.toNat := by
      refine strip_eq_self (fun k hk => ?_) (fun k hk => ?_)
      · rw [List.head?_map] at hk
        obtain ⟨x, hx, rfl⟩ := Option.map_eq_some_iff.mp hk
        exact hspace x (hends.1 x hx)
      · rw [List.getLast?_map] at hk
        obtain ⟨x, hx, rfl⟩ := Option.map_eq_some_iff.mp hk
        exact hspace x (hends.2 x hx)
    obtain ⟨hne, hall, hn⟩ := stands_of_intOfCodes h hstrip fun k hk => by
      obtain ⟨x, hx, rfl⟩ := List.mem_map.mp hk
      exact hplain x hx
    exact ⟨⟨fun he => hne (by rw [he]; rfl), fun x hx => hall _ (List.mem_map_of_mem hx)⟩, hn⟩
  have hnot : ¬ LenientHex b ↔ ∀ x ∈ b, x.toNat ∉ lenientCodes 16 := by
    unfold LenientHex
    rw [h]
    simp
  rw [hnot]
  exact ⟨⟨hforward, fun hp => (hback hp).1⟩, fun hd => (hback (hforward hd)).2⟩

end Fizzpy
