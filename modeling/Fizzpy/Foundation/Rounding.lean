import Mathlib.Algebra.Order.Field.Power
import Mathlib.Data.Int.Log
import Mathlib.Data.Rat.Floor
import Mathlib.Tactic.FieldSimp
import Mathlib.Tactic.Linarith

/-!
# Rounding

Binary floating-point formats: the numbers of a format, and the rounding of a rational to the nearest of
them, of two to the one whose last place is even. Whether a rounded number is at most `x` is decided on
the grid of `x` (`Format.round_le_iff`), hence by half a unit in the last place of `x`
(`Format.round_le_natCast_iff`, `Format.round_le_largest_iff`).
-/

namespace Foundation

/-! ## To an integer -/

/-- The nearest integer, of two the even one. -/
def roundEven (q : ℚ) : ℤ :=
  if q - ⌊q⌋ < 1 / 2 ∨ q - ⌊q⌋ = 1 / 2 ∧ Even ⌊q⌋ then ⌊q⌋ else ⌊q⌋ + 1

theorem floor_le_roundEven (q : ℚ) : ⌊q⌋ ≤ roundEven q := by
  unfold roundEven
  split_ifs <;> omega

theorem roundEven_le_iff {q : ℚ} {n : ℤ} : roundEven q ≤ n ↔ q < n + 1 / 2 ∨ q = n + 1 / 2 ∧ Even n := by
  have hlow := Int.floor_le q
  have hhigh := Int.lt_floor_add_one q
  rcases lt_trichotomy ⌊q⌋ n with hn | rfl | hn
  · have hcast : (⌊q⌋ : ℚ) + 1 ≤ n := by exact_mod_cast hn
    refine iff_of_true ?_ (.inl (by linarith))
    unfold roundEven
    split_ifs <;> omega
  · unfold roundEven
    split_ifs with h
    · refine iff_of_true le_rfl (h.imp (fun h => by linarith) fun h => ⟨by linarith, h.2⟩)
    · refine iff_of_false (by omega) fun hq => h (hq.imp (fun h => by linarith) fun h => ⟨by linarith, h.2⟩)
  · have hcast : (n : ℚ) + 1 ≤ ⌊q⌋ := by exact_mod_cast hn
    refine iff_of_false (fun h => ?_) fun h => ?_
    · exact absurd ((floor_le_roundEven q).trans h) (by omega)
    · rcases h with h | ⟨h, -⟩ <;> linarith

theorem roundEven_le {q : ℚ} {n : ℤ} (h : q ≤ n) : roundEven q ≤ n :=
  roundEven_le_iff.mpr (.inl (by linarith))

theorem le_roundEven {q : ℚ} {n : ℤ} (h : n ≤ q) : n ≤ roundEven q :=
  (Int.le_floor.mpr h).trans (floor_le_roundEven q)

/-! ## Formats -/

/-- The numbers `m * 2 ^ e` with `|m| < 2 ^ precision` and `least ≤ e`, below `2 ^ most`. -/
structure Format where
  precision : ℕ
  least : ℤ
  most : ℤ
  precision_pos : 0 < precision
  least_neg : least < 0
  least_le : least + precision ≤ most

/-- Double precision. -/
def binary64 : Format where
  precision := 53
  least := -1074
  most := 1024
  precision_pos := by decide
  least_neg := by decide
  least_le := by decide

namespace Format

variable (f : Format)

def Representable (q : ℚ) : Prop :=
  ∃ m e : ℤ, |m| < 2 ^ f.precision ∧ f.least ≤ e ∧ q = m * 2 ^ e

/-- The exponent of the last place of a number as large as `q`. -/
def exponent (q : ℚ) : ℤ := max (Int.log 2 |q| - (f.precision - 1)) f.least

/-- The unit in the last place. -/
def ulp (q : ℚ) : ℚ := 2 ^ f.exponent q

def round (q : ℚ) : ℚ := roundEven (q / f.ulp q) * f.ulp q

/-- The largest number. -/
def largest : ℚ := (2 ^ f.precision - 1) * 2 ^ (f.most - f.precision)

variable {f} {q x : ℚ}

theorem ulp_pos : 0 < f.ulp q := zpow_pos two_pos _

theorem le_exponent : f.least ≤ f.exponent q := le_max_right _ _

theorem abs_lt_ulp : |q| < 2 ^ f.precision * f.ulp q := by
  have hlog : Int.log 2 |q| + 1 ≤ f.precision + f.exponent q := by
    unfold exponent
    omega
  calc |q| < 2 ^ (Int.log 2 |q| + 1) := by exact_mod_cast Int.lt_zpow_succ_log_self one_lt_two |q|
    _ ≤ 2 ^ (f.precision + f.exponent q) := zpow_le_zpow_right₀ one_le_two hlog
    _ = 2 ^ f.precision * f.ulp q := by rw [zpow_add₀ two_ne_zero, zpow_natCast]; rfl

/-- A rounded number is one of the format. -/
theorem representable_round : f.Representable (f.round q) := by
  have hq : |q / f.ulp q| < 2 ^ f.precision := by
    rw [abs_div, abs_of_pos ulp_pos, div_lt_iff₀ ulp_pos]
    exact abs_lt_ulp
  obtain ⟨hlow, hhigh⟩ := abs_lt.mp hq
  have hm : |roundEven (q / f.ulp q)| ≤ 2 ^ f.precision :=
    abs_le.mpr ⟨le_roundEven (by push_cast; exact hlow.le), roundEven_le (by push_cast; exact hhigh.le)⟩
  rcases hm.lt_or_eq with hm | hm
  · exact ⟨_, f.exponent q, hm, le_exponent, rfl⟩
  · -- rounded up to a power of two, which has a larger exponent
    have hone : |(1 : ℤ)| < 2 ^ f.precision := by
      rw [abs_one]
      exact one_lt_pow₀ one_lt_two f.precision_pos.ne'
    have hexp : f.least ≤ f.precision + f.exponent q := by
      have := f.le_exponent (q := q)
      omega
    have hpow : (2 : ℚ) ^ f.precision * f.ulp q = 2 ^ (f.precision + f.exponent q) := by
      rw [zpow_add₀ two_ne_zero, zpow_natCast]
      rfl
    rcases eq_or_eq_neg_of_abs_eq hm with hm | hm
    · refine ⟨1, _, hone, hexp, ?_⟩
      rw [round, hm]
      push_cast
      rw [hpow, one_mul]
    · refine ⟨-1, _, by rwa [abs_neg], hexp, ?_⟩
      rw [round, hm]
      push_cast
      rw [neg_mul, hpow, neg_one_mul]

/-! ## The grid of a number -/

theorem zpow_on_grid {k : ℤ} (h : f.exponent q ≤ k) : ∃ n : ℤ, (2 : ℚ) ^ k = n * f.ulp q := by
  obtain ⟨n, hn⟩ := Int.eq_ofNat_of_zero_le (sub_nonneg.mpr h)
  refine ⟨2 ^ n, ?_⟩
  unfold ulp
  push_cast
  rw [← zpow_natCast, ← hn, ← zpow_add₀ two_ne_zero, sub_add_cancel]

theorem round_le {n : ℤ} (h : q ≤ n * f.ulp q) : f.round q ≤ n * f.ulp q :=
  mul_le_mul_of_nonneg_right (by exact_mod_cast roundEven_le ((div_le_iff₀ ulp_pos).mpr h)) ulp_pos.le

theorem le_round {n : ℤ} (h : n * f.ulp q ≤ q) : n * f.ulp q ≤ f.round q :=
  mul_le_mul_of_nonneg_right (by exact_mod_cast le_roundEven ((le_div_iff₀ ulp_pos).mpr h)) ulp_pos.le

theorem round_nonneg (h : 0 ≤ q) : 0 ≤ f.round q := by
  simpa using le_round (n := 0) (by simpa using h)

theorem log_of_exponent_lt (hx : 0 < x) (hq : 0 < q) (h : f.exponent x < f.exponent q) :
    Int.log 2 x < Int.log 2 q ∧ f.exponent q ≤ Int.log 2 q := by
  unfold exponent at *
  rw [abs_of_pos hx, abs_of_pos hq] at *
  have := f.precision_pos
  omega

/-- A number is rounded to `x` or less if it is so on the grid of `x`. -/
theorem round_le_iff {m : ℤ} (hx : 0 < x) (hm : x = m * f.ulp x) (hq : 0 < q) :
    f.round q ≤ x ↔ roundEven (q / f.ulp x) ≤ m := by
  have hlog {y : ℚ} (hy : 0 < y) : (2 : ℚ) ^ Int.log 2 y ≤ y := by
    exact_mod_cast Int.zpow_log_le_self one_lt_two hy
  have hsucc (y : ℚ) : y < (2 : ℚ) ^ (Int.log 2 y + 1) := by
    exact_mod_cast Int.lt_zpow_succ_log_self one_lt_two y
  have hgrid : x / f.ulp x = m := (div_eq_iff ulp_pos.ne').mpr hm
  rcases lt_trichotomy (f.exponent q) (f.exponent x) with h | h | h
  · -- `q` is below the power of two at `x`, which both grids have
    obtain ⟨hlt, hexp⟩ := log_of_exponent_lt hq hx h
    have hqk : q ≤ 2 ^ Int.log 2 x := (hsucc q).le.trans (zpow_le_zpow_right₀ one_le_two hlt)
    refine iff_of_true ?_ (roundEven_le ?_)
    · obtain ⟨n, hn⟩ := zpow_on_grid (h.le.trans hexp)
      refine le_trans ?_ (hlog hx)
      rw [hn] at hqk ⊢
      exact round_le hqk
    · rw [div_le_iff₀ ulp_pos, ← hm]
      exact hqk.trans (hlog hx)
  · have hulp : f.ulp q = f.ulp x := by rw [ulp, ulp, h]
    rw [round, hulp, ← le_div_iff₀ ulp_pos, hgrid]
    exact Int.cast_le
  · -- the power of two at `q` is above `x`, and both grids have it
    obtain ⟨hlt, hexp⟩ := log_of_exponent_lt hx hq h
    have hxk : x < 2 ^ Int.log 2 q := (hsucc x).trans_le (zpow_le_zpow_right₀ one_le_two hlt)
    refine iff_of_false (not_le.mpr ?_) (not_le.mpr ?_)
    · obtain ⟨n, hn⟩ := zpow_on_grid hexp
      refine hxk.trans_le ?_
      have hkq := hlog hq
      rw [hn] at hkq ⊢
      exact le_round hkq
    · obtain ⟨n, hn⟩ := zpow_on_grid (h.le.trans hexp)
      have hmn : m < n := by
        rw [hn, ← div_lt_iff₀ ulp_pos, hgrid] at hxk
        exact_mod_cast hxk
      refine hmn.trans_le (le_roundEven ?_)
      rw [le_div_iff₀ ulp_pos, ← hn]
      exact hlog hq

/-- An integer below the precision is rounded to by what is half a unit above it, since it is even
there. -/
theorem round_le_natCast_iff {n : ℕ} (hn : 0 < n) (hp : Nat.log 2 n + 1 < f.precision) (hq : 0 < q) :
    f.round q ≤ n ↔ q ≤ n + f.ulp n / 2 := by
  have hx : (0 : ℚ) < n := by exact_mod_cast hn
  have hexp : f.exponent n < 0 := by
    have := f.least_neg
    unfold exponent
    rw [abs_of_pos hx, Int.log_natCast]
    omega
  obtain ⟨k, hk⟩ := Int.eq_ofNat_of_zero_le (show 0 ≤ -f.exponent n - 1 by omega)
  -- on its grid it is a multiple of two
  have hgrid : (n : ℚ) = ((n * (2 * 2 ^ k) : ℤ) : ℚ) * f.ulp n := by
    have hexp : f.exponent n = -(1 + k : ℤ) := by omega
    unfold ulp
    rw [hexp, zpow_neg, zpow_one_add₀ two_ne_zero, zpow_natCast]
    push_cast
    field_simp
  have heven : Even (n * (2 * 2 ^ k) : ℤ) := (even_two_mul _).mul_left _
  rw [round_le_iff hx hgrid hq, roundEven_le_iff, and_iff_left heven, ← le_iff_lt_or_eq,
    div_le_iff₀ ulp_pos, add_mul, ← hgrid]
  ring_nf

/-! ## The largest number -/

theorem two_pow_precision_mul : (2 : ℚ) ^ f.precision * 2 ^ (f.most - f.precision) = 2 ^ f.most := by
  rw [← zpow_natCast, ← zpow_add₀ two_ne_zero, add_sub_cancel]

theorem largest_pos : 0 < f.largest :=
  mul_pos (sub_pos.mpr (one_lt_pow₀ one_lt_two f.precision_pos.ne')) (zpow_pos two_pos _)

theorem exponent_largest : f.exponent f.largest = f.most - f.precision := by
  have hulp : (0 : ℚ) < 2 ^ (f.most - f.precision) := zpow_pos two_pos _
  obtain ⟨p, hp⟩ := Nat.exists_eq_succ_of_ne_zero f.precision_pos.ne'
  have hone : (1 : ℚ) ≤ 2 ^ p := one_le_pow₀ one_le_two
  have hhalf : (2 : ℚ) ^ (f.most - 1) = 2 ^ p * 2 ^ (f.most - f.precision) := by
    rw [← zpow_natCast, ← zpow_add₀ two_ne_zero, hp]
    congr 1
    push_cast
    ring
  have hlow : (2 : ℚ) ^ (f.most - 1) ≤ f.largest := by
    rw [hhalf, largest, mul_le_mul_iff_left₀ hulp, hp, pow_succ]
    linarith
  have hhigh : f.largest < 2 ^ f.most := by
    rw [largest, sub_one_mul, two_pow_precision_mul]
    linarith
  have hlog : Int.log 2 f.largest = f.most - 1 := by
    have hle := (Int.zpow_le_iff_le_log one_lt_two largest_pos).mp (by exact_mod_cast hlow)
    have hlt := (Int.lt_zpow_iff_log_lt one_lt_two largest_pos).mp (by exact_mod_cast hhigh)
    omega
  have := f.least_le
  rw [exponent, abs_of_pos largest_pos, hlog]
  omega

/-- What is half a unit above the largest number is rounded to more. -/
theorem round_le_largest_iff (hq : 0 < q) :
    f.round q ≤ f.largest ↔ q < 2 ^ f.most - 2 ^ (f.most - f.precision - 1) := by
  have hulp : f.ulp f.largest = 2 ^ (f.most - f.precision) := by rw [ulp, exponent_largest]
  have hgrid : f.largest = ((2 ^ f.precision - 1 : ℤ) : ℚ) * f.ulp f.largest := by
    rw [hulp, largest]
    push_cast
    rfl
  have hodd : ¬ Even (2 ^ f.precision - 1 : ℤ) := by
    rw [Int.not_even_iff_odd]
    exact (even_two.pow_of_ne_zero f.precision_pos.ne').sub_odd odd_one
  have hhalf : (2 : ℚ) ^ (f.most - f.precision) = 2 * 2 ^ (f.most - f.precision - 1) := by
    rw [← zpow_one_add₀ two_ne_zero, add_sub_cancel]
  rw [round_le_iff largest_pos hgrid hq, roundEven_le_iff, hulp, div_lt_iff₀ (zpow_pos two_pos _)]
  simp only [hodd, and_false, or_false]
  push_cast
  rw [add_mul, sub_one_mul, two_pow_precision_mul, hhalf]
  ring_nf

end Format

/-! ## Floating-point numbers -/

/-- A number of a format or an infinite one. -/
inductive Floating (f : Format)
  | finite (q : ℚ) (representable : f.Representable q) (bounded : |q| ≤ f.largest)
  | infinity (negative : Bool)

namespace Floating

variable {f : Format}

/-- What a result is rounded to. -/
def nearest (q : ℚ) : Floating f :=
  if h : |f.round q| ≤ f.largest then .finite (f.round q) Format.representable_round h
  else .infinity (q < 0)

/-- The product with a positive number of the format. -/
def scale (k : ℚ) : Floating f → Floating f
  | .finite q _ _ => nearest (q * k)
  | .infinity negative => .infinity negative

theorem nearest_eq {q : ℚ} (hq : 0 < q) : nearest (f := f) q =
    if h : f.round q ≤ f.largest then
      .finite (f.round q) Format.representable_round ((abs_of_nonneg (Format.round_nonneg hq.le)).trans_le h)
    else .infinity false := by
  have habs : |f.round q| = f.round q := abs_of_nonneg (Format.round_nonneg hq.le)
  unfold nearest
  simp only [habs, hq.not_gt, decide_false]

end Floating

end Foundation
