import Fizzpy.Tls.Config
import Fizzpy.Tls.TlsSocket
import Mathlib.Order.WithBotTop

/-!
# Timeouts and deadlines

`timeout_to_ms` over `None` and all numbers, those that are exact and the floats, whose product with 1000
is rounded. Zero stands for no deadline on the native side, so a number must not come to it, and the
deadline that a number comes to must be armed for every read that is parked with it.
-/

namespace Fizzpy

open Foundation

namespace Tls

/-- A number: an `int` or a `Fraction`, or a `float`. -/
inductive Number
  | exact (q : ℚ)
  | float (x : Floating binary64)

def Number.value : Number → WithBotTop ℚ
  | .exact q => (q : WithBotTop ℚ)
  | .float (.finite q _ _) => (q : WithBotTop ℚ)
  | .float (.infinity negative) => if negative then ⊥ else ⊤

/-- A timeout that is `None` or a number. -/
def given : Option Number → Timeout
  | none => .none
  | some (.exact q) => .exact q
  | some (.float x) => .float x

/-- What is asked of the conversion of one timeout: that it returns, no deadline for `None` only, and
otherwise one that is long enough, or the longest there is, and in order with those of the numbers
below and above. -/
structure Converts (t : Option Number) (ms : ℕ) : Prop where
  returns : timeoutToMs (given t) = .ok ms
  zero_iff : ms = 0 ↔ t = none
  bounded : ms < 2 ^ 32
  enough : ∀ (x : Number) (q : ℚ), t = some x → x.value = q →
    q * 1000 ≤ ms ∨ 2 ^ 32 - 1 < q * 1000 ∧ ms = 2 ^ 32 - 1
  endless : ∀ x : Number, t = some x → x.value = ⊤ → ms = 2 ^ 32 - 1
  below : ∀ (x y : Number) (ms' : ℕ), t = some x → y.value ≤ x.value →
    timeoutToMs (given (some y)) = .ok ms' → ms' ≤ ms
  above : ∀ (x y : Number) (ms' : ℕ), t = some x → x.value ≤ y.value →
    timeoutToMs (given (some y)) = .ok ms' → ms ≤ ms'

/-- Some float not below `q` has its product with 1000 rounded down to a whole number of milliseconds
that `q` is above: the product is half a unit in the last place of that number above it at most. -/
def Cut (q : ℚ) : Prop :=
  ∃ (n : ℕ) (x : ℚ), 0 < n ∧ n < 2 ^ 32 - 1 ∧ n < q * 1000 ∧ binary64.Representable x ∧ q ≤ x ∧
    x * 1000 ≤ n + 2 ^ ((Nat.log 2 n : ℤ) - 53)

namespace Number

/-- The product with 1000 is finite. -/
def Multiplies : Number → Prop
  | .exact _ => True
  | .float (.finite q _ _) => q * 1000 < 2 ^ 1024 - 2 ^ 970
  | .float (.infinity negative) => negative = true

/-- The product is finite and loses no millisecond. -/
def Kept (x : Number) : Prop := x.Multiplies ∧ ∀ q : ℚ, x.value = q → ¬ Cut q

end Number

/-! ## The conversion -/

/-- What a product with 1000 comes to. -/
def clampMs (c : ℚ) : ℕ := (min maxTimeoutMs (max 1 ⌈c⌉)).toNat

theorem clampMs_le_iff {c : ℚ} {n : ℕ} : clampMs c ≤ n ↔ 0 < n ∧ (c ≤ n ∨ 2 ^ 32 - 1 ≤ n) := by
  have hceil : c ≤ n ↔ ⌈c⌉ ≤ n := by
    rw [Int.ceil_le]
    norm_cast
  rw [hceil]
  unfold clampMs maxTimeoutMs
  omega

theorem clampMs_pos (c : ℚ) : 0 < clampMs c := (clampMs_le_iff.mp le_rfl).1

theorem clampMs_le (c : ℚ) : clampMs c ≤ 2 ^ 32 - 1 := clampMs_le_iff.mpr ⟨by norm_num, .inr le_rfl⟩

theorem clampMs_mono {c d : ℚ} (h : c ≤ d) : clampMs c ≤ clampMs d := by
  obtain ⟨hpos, hd⟩ := clampMs_le_iff.mp (le_refl (clampMs d))
  exact clampMs_le_iff.mpr ⟨hpos, hd.imp_left h.trans⟩

theorem clampMs_of_nonpos {c : ℚ} (h : c ≤ 0) : clampMs c = 1 :=
  le_antisymm (clampMs_le_iff.mpr ⟨one_pos, .inl (h.trans (by norm_num))⟩) (clampMs_pos c)

theorem clampMs_enough (c : ℚ) : c ≤ clampMs c ∨ 2 ^ 32 - 1 < c ∧ clampMs c = 2 ^ 32 - 1 := by
  rcases le_or_gt c (clampMs c) with h | h
  · exact .inl h
  · obtain ⟨-, hc | hmax⟩ := clampMs_le_iff.mp (le_refl (clampMs c))
    · exact absurd hc h.not_ge
    · have heq := le_antisymm (clampMs_le c) hmax
      rw [heq] at h
      norm_num at h
      exact .inr ⟨by norm_num; exact h, heq⟩

/-- A product that is rounded is converted to less only if it is cut. -/
theorem clampMs_round_le_iff {c : ℚ} {n : ℕ} : clampMs (binary64.round c) ≤ n ↔
    0 < n ∧ (c ≤ n + 2 ^ ((Nat.log 2 n : ℤ) - 53) ∨ 2 ^ 32 - 1 ≤ n) := by
  rw [clampMs_le_iff]
  refine and_congr_right fun hn => ?_
  rcases le_or_gt (2 ^ 32 - 1) n with hmax | hmax
  · simp only [hmax, or_true]
  refine or_congr_left' fun _ => ?_
  rcases le_or_gt c 0 with hc | hc
  · have hround : binary64.round c ≤ 0 := by
      simpa using Format.round_le (f := binary64) (n := 0) (by simpa using hc)
    have hhalf : (0 : ℚ) < 2 ^ ((Nat.log 2 n : ℤ) - 53) := zpow_pos two_pos _
    have hcast : (0 : ℚ) ≤ n := n.cast_nonneg
    exact iff_of_true (hround.trans hcast) (by linarith)
  · have hlog : Nat.log 2 n < 32 := Nat.log_lt_of_lt_pow hn.ne' (by omega)
    have hulp : binary64.ulp n = 2 ^ ((Nat.log 2 n : ℤ) - 53) * 2 := by
      have hexp : binary64.exponent n = Nat.log 2 n - 53 + 1 := by
        unfold Format.exponent
        rw [abs_of_pos (by exact_mod_cast hn), Int.log_natCast]
        simp only [binary64]
        omega
      rw [Format.ulp, hexp, zpow_add_one₀ two_ne_zero]
    rw [Format.round_le_natCast_iff hn (by simp only [binary64]; omega) hc, hulp,
      mul_div_cancel_right₀ _ two_ne_zero]

theorem clampMs_round_of_nonpos {c : ℚ} (h : c ≤ 0) : clampMs (binary64.round c) = 1 :=
  le_antisymm (clampMs_round_le_iff.mpr ⟨one_pos, .inl (h.trans (by positivity))⟩) (clampMs_pos _)

theorem lt_threshold {c : ℚ} (h : c < 2 ^ 32) : c < 2 ^ 1024 - 2 ^ 970 := by
  have hsplit : (2 : ℚ) ^ 1024 = 2 ^ 970 * 2 ^ 54 := by rw [← pow_add]
  have hone : (1 : ℚ) ≤ 2 ^ 970 := one_le_pow₀ one_le_two
  calc c < 1 * (2 ^ 54 - 1) := h.trans (by norm_num)
    _ ≤ 2 ^ 970 * (2 ^ 54 - 1) := mul_le_mul_of_nonneg_right hone (by norm_num)
    _ = 2 ^ 1024 - 2 ^ 970 := by rw [hsplit, mul_sub_one]

theorem le_largest {q : ℚ} (h : q ≤ 2 ^ 53 - 1) : q ≤ binary64.largest := by
  have hone : (1 : ℚ) ≤ 2 ^ (1024 - 53 : ℤ) := one_le_zpow₀ one_le_two (by norm_num)
  calc q ≤ (2 ^ 53 - 1) * 1 := by linarith
    _ ≤ (2 ^ 53 - 1) * 2 ^ (1024 - 53 : ℤ) := mul_le_mul_of_nonneg_left hone (by norm_num)

/-! ### Each number -/

namespace Number

/-- The deadline of a number whose product is finite. -/
def deadlineMs : Number → ℕ
  | .exact q => clampMs (q * 1000)
  | .float (.finite q _ _) => clampMs (binary64.round (q * 1000))
  | .float (.infinity _) => 1

theorem deadlineMs_pos (x : Number) : 0 < x.deadlineMs := by
  unfold deadlineMs
  split
  · exact clampMs_pos _
  · exact clampMs_pos _
  · exact one_pos

theorem timeoutToMs_nonpositive (ceilMs : Except PyExn ℤ) :
    timeoutToMs (.number (.ok true) ceilMs) = .ok 1 := rfl

theorem timeoutToMs_positive (c : ℚ) :
    timeoutToMs (.number (.ok false) (.ok ⌈c⌉)) = .ok (clampMs c) := rfl

theorem ceil_scale {q : ℚ} (hr : binary64.Representable q) (hb : |q| ≤ binary64.largest) (hq : 0 < q) :
    Timeout.ceil ((Floating.finite q hr hb).scale 1000) = if q * 1000 < 2 ^ 1024 - 2 ^ 970
      then .ok ⌈binary64.round (q * 1000)⌉
      else .error (.overflowError (str "cannot convert float infinity to integer")) := by
  have hc : 0 < q * 1000 := by linarith
  have hlargest : binary64.round (q * 1000) ≤ binary64.largest ↔ q * 1000 < 2 ^ 1024 - 2 ^ 970 := by
    rw [Format.round_le_largest_iff hc]
    norm_num [binary64]
  rw [Floating.scale, Floating.nearest_eq hc]
  by_cases h : q * 1000 < 2 ^ 1024 - 2 ^ 970
  · rw [dif_pos (hlargest.mpr h), if_pos h]
    rfl
  · rw [dif_neg (mt hlargest.mp h), if_neg h]
    rfl

theorem timeoutToMs_multiplies {x : Number} (h : x.Multiplies) :
    timeoutToMs (given (some x)) = .ok x.deadlineMs := by
  cases x with
  | exact q =>
    rcases le_or_gt q 0 with hq | hq
    · rw [given, Timeout.exact, decide_eq_true hq, timeoutToMs_nonpositive, deadlineMs,
        clampMs_of_nonpos (by linarith)]
    · rw [given, Timeout.exact, decide_eq_false hq.not_ge, timeoutToMs_positive, deadlineMs]
  | float x =>
    cases x with
    | infinity negative => cases h; rfl
    | finite q hr hb =>
      rcases le_or_gt q 0 with hq | hq
      · rw [given, Timeout.float, Timeout.nonpositive, decide_eq_true hq, timeoutToMs_nonpositive,
          deadlineMs, clampMs_round_of_nonpos (by linarith)]
      · rw [given, Timeout.float, Timeout.nonpositive, decide_eq_false hq.not_ge, ceil_scale hr hb hq,
          if_pos (by exact h), timeoutToMs_positive, deadlineMs]

theorem timeoutToMs_not_multiplies {x : Number} (h : ¬ x.Multiplies) :
    ∃ e, timeoutToMs (given (some x)) = .error e := by
  cases x with
  | exact q => exact absurd trivial h
  | float x =>
    cases x with
    | infinity negative =>
      cases negative with
      | false => exact ⟨_, rfl⟩
      | true => exact absurd rfl h
    | finite q hr hb =>
      have hq : 0 < q := by
        by_contra hq
        exact h (lt_threshold (by linarith))
      refine ⟨.overflowError (str "cannot convert float infinity to integer"), ?_⟩
      rw [given, Timeout.float, Timeout.nonpositive, decide_eq_false hq.not_ge, ceil_scale hr hb hq,
        if_neg (by exact h)]
      rfl

theorem timeoutToMs_iff {x : Number} {ms : ℕ} :
    timeoutToMs (given (some x)) = .ok ms ↔ x.Multiplies ∧ ms = x.deadlineMs := by
  by_cases h : x.Multiplies
  · rw [timeoutToMs_multiplies h, Except.ok.injEq, and_iff_right h, eq_comm]
  · obtain ⟨e, he⟩ := timeoutToMs_not_multiplies h
    rw [he]
    exact iff_of_false nofun fun h' => h h'.1

theorem value_eq_coe {x : Number} {q : ℚ} (h : x.value = q) :
    x = .exact q ∨ ∃ hr hb, x = .float (.finite q hr hb) := by
  cases x with
  | exact r => exact .inl (congrArg exact (WithBotTop.coe_injective h))
  | float x =>
    cases x with
    | finite r hr hb =>
      cases WithBotTop.coe_injective h
      exact .inr ⟨hr, hb, rfl⟩
    | infinity negative => cases negative <;> cases h

/-- No number is converted to more than an exact one of its value. -/
theorem deadlineMs_le {x : Number} {q : ℚ} (h : x.value = q) : x.deadlineMs ≤ clampMs (q * 1000) := by
  obtain rfl | ⟨hr, hb, rfl⟩ := value_eq_coe h
  · exact le_rfl
  · obtain ⟨hpos, hq⟩ := clampMs_le_iff.mp (le_refl (clampMs (q * 1000)))
    exact clampMs_round_le_iff.mpr ⟨hpos, hq.imp_left fun hq => hq.trans (by simp; positivity)⟩

/-- A number is converted to no less than the exact ones below it that are not cut. -/
theorem le_deadlineMs {x : Number} {q r : ℚ} (hx : x.value = r) (hq : q ≤ r) (hcut : ¬ Cut q) :
    clampMs (q * 1000) ≤ x.deadlineMs := by
  obtain rfl | ⟨hr, hb, rfl⟩ := value_eq_coe hx
  · exact clampMs_mono (by linarith)
  · by_contra hlt
    obtain ⟨hpos, hround⟩ := clampMs_round_le_iff.mp (le_refl (clampMs (binary64.round (r * 1000))))
    have hmax : clampMs (binary64.round (r * 1000)) < 2 ^ 32 - 1 :=
      (not_le.mp hlt).trans_le (clampMs_le _)
    have habove : (clampMs (binary64.round (r * 1000)) : ℚ) < q * 1000 := by
      by_contra h
      exact hlt (clampMs_le_iff.mpr ⟨hpos, .inl (not_lt.mp h)⟩)
    exact hcut ⟨_, r, hpos, hmax, habove, hr, hq, hround.resolve_right hmax.not_ge⟩

/-- A cut number is above the deadline of some float that is not below it. -/
theorem exists_of_cut {q : ℚ} (h : Cut q) :
    ∃ (x : Number) (r : ℚ), x.value = r ∧ q ≤ r ∧ x.Multiplies ∧ x.deadlineMs < 2 ^ 32 - 1 ∧
      x.deadlineMs < q * 1000 := by
  obtain ⟨n, r, hpos, hmax, hq, hr, hle, hround⟩ := h
  have hms : clampMs (binary64.round (r * 1000)) ≤ n := clampMs_round_le_iff.mpr ⟨hpos, .inl hround⟩
  have hcast : (n : ℚ) < 2 ^ 32 - 1 := by
    have := Nat.cast_lt (α := ℚ).mpr hmax
    norm_num at this ⊢
    exact this
  have hlog : (2 : ℚ) ^ ((Nat.log 2 n : ℤ) - 53) ≤ 1 := by
    have : Nat.log 2 n < 32 := Nat.log_lt_of_lt_pow hpos.ne' (by omega)
    exact zpow_le_one_of_nonpos₀ one_le_two (by omega)
  have hrange : r * 1000 < 2 ^ 32 := by linarith
  have hbound : |r| ≤ binary64.largest := by
    have hn : (0 : ℚ) ≤ n := n.cast_nonneg
    rw [abs_of_nonneg (by linarith)]
    exact le_largest (by norm_num at hrange ⊢; linarith)
  refine ⟨.float (.finite r hr hbound), r, rfl, hle, ?_, hms.trans_lt hmax, ?_⟩
  · exact lt_threshold hrange
  · exact lt_of_le_of_lt (by exact_mod_cast hms) hq

theorem value_of_multiplies {x : Number} (h : x.Multiplies) :
    x.value = ⊥ ∧ x.deadlineMs = 1 ∨ ∃ q : ℚ, x.value = q := by
  cases x with
  | exact q => exact .inr ⟨q, rfl⟩
  | float x =>
    cases x with
    | finite q hr hb => exact .inr ⟨q, rfl⟩
    | infinity negative => cases h; exact .inl ⟨rfl, rfl⟩

/-- Two numbers of which one is not cut are in order. -/
theorem deadlineMs_mono {x y : Number} (hx : x.Multiplies) (hy : y.Multiplies) (h : x.value ≤ y.value)
    (hcut : (∀ q : ℚ, x.value = q → ¬ Cut q) ∨ ∀ r : ℚ, y.value = r → ¬ Cut r) :
    x.deadlineMs ≤ y.deadlineMs := by
  obtain ⟨-, hone⟩ | ⟨q, hq⟩ := value_of_multiplies hx
  · rw [hone]
    exact y.deadlineMs_pos
  · obtain ⟨hbot, -⟩ | ⟨r, hr⟩ := value_of_multiplies hy
    · rw [hq, hbot] at h
      exact absurd h (WithBot.bot_lt_coe _).not_ge
    · have hqr : q ≤ r := by
        rw [hq, hr] at h
        exact WithBotTop.coe_le_coe.mp h
      refine (deadlineMs_le hq).trans ?_
      rcases hcut with hcut | hcut
      · exact le_deadlineMs hr hqr (hcut q hq)
      · exact (clampMs_mono (by linarith)).trans (le_deadlineMs hr le_rfl (hcut r hr))

end Number

theorem converts_none : Converts none 0 where
  returns := rfl
  zero_iff := iff_of_true rfl rfl
  bounded := by decide
  enough x q h := by cases h
  endless x h := by cases h
  below x y ms' h := by cases h
  above x y ms' h := by cases h

theorem converts_number {x : Number} (h : x.Kept) : Converts (some x) x.deadlineMs where
  returns := Number.timeoutToMs_multiplies h.1
  zero_iff := iff_of_false x.deadlineMs_pos.ne' (Option.some_ne_none x)
  bounded := timeoutToMs_lt (Number.timeoutToMs_multiplies h.1)
  enough x' q hx hq := by
    cases hx
    rw [le_antisymm (Number.deadlineMs_le hq) (Number.le_deadlineMs hq le_rfl (h.2 q hq))]
    exact clampMs_enough _
  endless x' hx htop := by
    cases hx
    obtain ⟨hbot, -⟩ | ⟨q, hq⟩ := Number.value_of_multiplies h.1
    · cases hbot.symm.trans htop
    · cases hq.symm.trans htop
  below x' y ms' hx hy hms' := by
    cases hx
    obtain ⟨hy', rfl⟩ := Number.timeoutToMs_iff.mp hms'
    exact Number.deadlineMs_mono hy' h.1 hy (.inr h.2)
  above x' y ms' hx hy hms' := by
    cases hx
    obtain ⟨hy', rfl⟩ := Number.timeoutToMs_iff.mp hms'
    exact Number.deadlineMs_mono h.1 hy' hy (.inl h.2)

/-- Only an endless product and a cut one are refused or too short. -/
theorem converts_iff (t : Option Number) : (∃ ms, Converts t ms) ↔ ∀ x, t = some x → x.Kept := by
  cases t with
  | none => exact iff_of_true ⟨0, converts_none⟩ (by simp)
  | some x =>
    constructor
    · rintro ⟨ms, h⟩ x hsome
      cases hsome
      obtain ⟨hx, rfl⟩ := Number.timeoutToMs_iff.mp h.returns
      refine ⟨hx, fun q hq hcut => ?_⟩
      obtain ⟨y, r, hy, hqr, hret, hmax, hlt⟩ := Number.exists_of_cut hcut
      have hle := h.above x y _ rfl (by rw [hq, hy]; exact WithBotTop.coe_le_coe.mpr hqr)
        (Number.timeoutToMs_multiplies hret)
      rcases h.enough x q rfl hq with henough | ⟨-, hms⟩
      · have hcast : (x.deadlineMs : ℚ) ≤ y.deadlineMs := by exact_mod_cast hle
        linarith
      · omega
    · exact fun h => ⟨_, converts_number (h x rfl)⟩

end Tls

/-! ## The deadline of a parked read -/

namespace TlsConnection

/-- Every read asks for a deadline, and the parked one has its own. -/
structure Armed (c : TlsConnection) : Prop where
  queued : ∀ p ms, .read p ms ∈ c.tasks → 0 < ms
  parked : ∀ p, c.pendingRead = some p → ∃ ms, 0 < ms ∧ c.deadline = some ⟨ms, some p⟩

theorem Armed.submit {c : TlsConnection} (h : c.Armed) {t : Task} (ht : ∀ p ms, t = .read p ms → 0 < ms) :
    (c.submit t).Armed where
  queued p ms hmem := by
    obtain hmem | hmem := List.mem_append.mp hmem
    · exact h.queued p ms hmem
    · exact ht p ms (List.mem_singleton.mp hmem).symm
  parked := h.parked

/-- Nothing is parked any more. -/
theorem Armed.unparked {c c' : TlsConnection} (h : c.Armed) (ht : c'.tasks = c.tasks)
    (hp : c'.pendingRead = none) : c'.Armed where
  queued p ms hmem := h.queued p ms (ht ▸ hmem)
  parked p hpending := by rw [hp] at hpending; cases hpending

theorem Armed.same {c c' : TlsConnection} (h : c.Armed) (ht : c'.tasks = c.tasks)
    (hp : c'.pendingRead = c.pendingRead) (hd : c'.readTimeout = c.readTimeout) : c'.Armed where
  queued p ms hmem := h.queued p ms (ht ▸ hmem)
  parked p hpending := by
    obtain ⟨ms, hms, hdeadline⟩ := h.parked p (hp ▸ hpending)
    refine ⟨ms, hms, ?_⟩
    unfold deadline at hdeadline ⊢
    rw [hd, hdeadline]

theorem Armed.runRead {c : TlsConnection} (h : c.Armed) (p : ℕ) {ms : ℕ} (hms : 0 < ms) :
    (runRead p ms c).Armed := by
  by_cases hun : c.Unanswered
  · obtain ⟨hbuf, heof, herr⟩ := hun
    have hrun : TlsConnection.runRead p ms c = armReadTimeout ms { c with pendingRead := some p } := by
      unfold TlsConnection.runRead
      simp [hbuf, heof, herr, hms]
    rw [hrun]
    exact ⟨h.queued, fun q hq => ⟨ms, hms, by cases hq; rfl⟩⟩
  · rw [runRead_answered hun]
    exact h.same rfl rfl rfl

theorem Armed.step {c c' : TlsConnection} (hi : c.ReadInv) (h : c.Armed) {e : Event}
    (he : ∀ ms, e = .read ms → 0 < ms) (hs : TlsConnection.step c e = some c') : c'.Armed := by
  cases ha : e.answer with
  | some a =>
    cases hp : c.pendingRead with
    | some p =>
      rw [step_answer hi hp ha hs]
      exact h.unparked rfl rfl
    | none =>
      rw [step_keep hi hp ha hs]
      exact h.unparked rfl hp
  | none =>
    cases e with
    | readBufferAvailable | readEOF | readErr | readTimeout => cases ha
    | connect => cases hs; exact h.submit fun _ _ ht => by cases ht
    | close => cases hs; exact h.submit fun _ _ ht => by cases ht
    | read ms =>
      obtain ⟨-, rfl, -⟩ := step_read hs
      exact Armed.submit (c := { c with reads := c.reads + 1 }) ⟨h.queued, h.parked⟩
        fun _ _ ht => by cases ht; exact he ms rfl
    | connectSuccess =>
      simp only [TlsConnection.step, Option.ite_none_right_eq_some, Option.some.injEq] at hs
      obtain ⟨-, rfl⟩ := hs
      exact h.same rfl rfl rfl
    | runTask =>
      simp only [TlsConnection.step] at hs
      split at hs
      · rename_i t ts ht
        cases hs
        have hrest : ({ c with tasks := ts } : TlsConnection).Armed :=
          ⟨fun p ms hmem => h.queued p ms (ht ▸ List.mem_cons_of_mem t hmem), h.parked⟩
        cases t with
        | connect => exact hrest.same rfl rfl rfl
        | close => exact hrest.same rfl rfl rfl
        | read p ms => exact hrest.runRead p (h.queued p ms (ht ▸ List.mem_cons_self))
      · cases hs

end TlsConnection

namespace TlsSocket

/-- Every call asks for a deadline. -/
def Event.Timed : Event → Prop
  | .call _ ms => 0 < ms
  | _ => True

theorem armed_step {s s' : TlsSocket} {e : Event} (hsync : Synced s) (h : s.conn.Armed) (he : e.Timed)
    (hs : s.step e = some s') : s'.conn.Armed := by
  cases e with
  | call c ms =>
    simp only [step] at hs
    split_ifs at hs
    unfold call at hs
    split_ifs at hs
    · cases hs; exact h
    · cases hs; exact h
    · obtain ⟨conn, hconn, rfl⟩ := Option.map_eq_some_iff.mp hs
      exact h.step hsync.inv (fun ms' hms => by cases hms; exact he) hconn
  | resume =>
    obtain ⟨c, p, a, -, -, rfl, -⟩ := resume_cases hsync hs
    unfold resume
    split
    · split_ifs <;> exact h
    · exact h
  | close =>
    cases hs
    unfold close
    split_ifs
    · exact h
    · exact h.submit fun _ _ ht => by cases ht
  | loop e =>
    simp only [step] at hs
    split_ifs at hs with hloop
    obtain ⟨conn, hconn, rfl⟩ := Option.map_eq_some_iff.mp hs
    exact h.step hsync.inv (fun ms hms => by subst hms; cases hloop) hconn

/-- When every call has a deadline, so has every parked read. -/
theorem armed_run {s : TlsSocket} {es : List Event} (hes : ∀ e ∈ es, e.Timed)
    (hr : run TlsSocket.step wrapped es = some s) : s.conn.Armed := by
  have hstart : TlsConnection.Armed wrapped.conn :=
    ⟨fun p ms hmem => (by cases hmem), fun p hp => by cases hp⟩
  exact (run_history (I := fun _ s => Synced s ∧ s.conn.Armed) (V := Event.Timed)
    (fun _ s e s' hi he hs => ⟨synced_step hi.1 hs, armed_step hi.1 hi.2 he hs⟩) hes []
    ⟨synced_wrapped, hstart⟩ hr).2

end TlsSocket

namespace Tls

/-- **Timeouts.** The conversion is what it should be exactly for `None` and the numbers that are kept:
their product with 1000 is finite, and no float not below them loses a millisecond to the rounding. And
reads whose timeouts are numbers are parked with a deadline of their own. -/
theorem deadlines_iff (t : Option Number) :
    ((∃ ms, Converts t ms) ↔ ∀ x, t = some x → x.Kept) ∧
    ∀ (es : List TlsSocket.Event) (s : TlsSocket), run TlsSocket.step .wrapped es = some s →
      (∀ c ms, .call c ms ∈ es → ∃ x : Number, timeoutToMs (given (some x)) = .ok ms) →
      ∀ p, s.conn.pendingRead = some p → ∃ ms, 0 < ms ∧ s.conn.deadline = some ⟨ms, some p⟩ := by
  refine ⟨converts_iff t, fun es s hr hcalls => (TlsSocket.armed_run (fun e he => ?_) hr).parked⟩
  cases e with
  | call c ms =>
    obtain ⟨x, hx⟩ := hcalls c ms he
    obtain ⟨-, rfl⟩ := Number.timeoutToMs_iff.mp hx
    exact x.deadlineMs_pos
  | resume => trivial
  | close => trivial
  | loop e => trivial

theorem not_cut_half : ¬ Cut (1 / 2) := by
  rintro ⟨n, x, hpos, -, hn, -, hx, hround⟩
  have hn : n < 500 := by
    norm_num at hn
    exact_mod_cast hn
  have hlog : Nat.log 2 n < 9 := Nat.log_lt_of_lt_pow hpos.ne' (by omega)
  have hulp : (2 : ℚ) ^ ((Nat.log 2 n : ℤ) - 53) ≤ 2 ^ (-1 : ℤ) := zpow_le_zpow_right₀ one_le_two (by omega)
  have hcast : (n : ℚ) ≤ 499 := by exact_mod_cast Nat.le_of_lt_succ hn
  norm_num at hulp
  linarith

theorem deadlines_iff_half :
    (∃ ms, Converts (some (.exact (1 / 2))) ms) ∧
    ∃ s, run TlsSocket.step .wrapped [.call (.recv 10) 500, .loop .runTask] = some s ∧
      s.conn.pendingRead = some 0 ∧ ∃ ms, 0 < ms ∧ s.conn.deadline = some ⟨ms, some 0⟩ := by
  have hhalf : timeoutToMs (given (some (.exact (1 / 2)))) = .ok 500 := by
    rw [Number.timeoutToMs_multiplies (x := .exact (1 / 2)) trivial]
    norm_num [Number.deadlineMs, clampMs, maxTimeoutMs]
    rfl
  obtain ⟨s, hs, hp⟩ : ∃ s, run TlsSocket.step .wrapped [.call (.recv 10) 500, .loop .runTask] = some s ∧
      s.conn.pendingRead = some 0 := ⟨_, rfl, rfl⟩
  refine ⟨(deadlines_iff _).1.mpr ?_, s, hs, hp, (deadlines_iff none).2 _ s hs ?_ 0 hp⟩
  · rintro x ⟨⟩
    refine ⟨trivial, fun q hq => ?_⟩
    cases WithBotTop.coe_injective hq
    exact not_cut_half
  · intro c ms hcall
    simp only [List.mem_cons, TlsSocket.Event.call.injEq, List.not_mem_nil, or_false,
      reduceCtorEq] at hcall
    obtain ⟨-, rfl⟩ := hcall
    exact ⟨_, hhalf⟩

/-- `0.07`, whose product with 1000 is rounded down to 70. -/
def sevenHundredths : Floating binary64 :=
  .finite (5044031582654956 * 2 ^ (-56 : ℤ)) ⟨5044031582654956, -56, by decide, by decide, by norm_num⟩
    (le_largest (by norm_num))

/-- An endless timeout is refused, where the longest deadline should be given, and one of `0.07` comes
to less than itself. -/
theorem infinity_refused :
    timeoutToMs (given (some (.float (.infinity false)))) =
      .error (.overflowError (str "cannot convert float infinity to integer")) ∧
    (¬ ∃ ms, Converts (some (.float (.infinity false))) ms) ∧
    timeoutToMs (given (some (.float sevenHundredths))) = .ok 70 ∧
    ¬ ∃ ms, Converts (some (.float sevenHundredths)) ms := by
  have hms : timeoutToMs (given (some (.float sevenHundredths))) = .ok 70 := by
    have hmult : (Number.float sevenHundredths).Multiplies := by
      exact lt_threshold (by norm_num)
    rw [Number.timeoutToMs_multiplies hmult]
    refine congrArg Except.ok (le_antisymm (clampMs_round_le_iff.mpr ⟨by norm_num, .inl ?_⟩) ?_)
    · norm_num
    · by_contra hlt
      obtain ⟨-, h | h⟩ := clampMs_round_le_iff.mp (Nat.le_of_lt_succ (not_le.mp hlt))
      · norm_num at h
      · norm_num at h
  refine ⟨rfl, ?_, hms, ?_⟩
  · rintro ⟨ms, h⟩
    cases h.returns
  · rintro ⟨ms, h⟩
    cases hms.symm.trans h.returns
    obtain h | ⟨-, h⟩ := h.enough _ _ rfl rfl
    · norm_num at h
    · cases h

end Tls

end Fizzpy
