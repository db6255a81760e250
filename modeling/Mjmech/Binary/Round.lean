import Mathlib.Data.Int.Log
import Mathlib.Data.Rat.Floor
import Mathlib.Tactic.Linarith
import Mathlib.Tactic.Positivity
import Mathlib.Tactic.Ring

/-! The rounding of IEEE 754 binary arithmetic, as the `float` and `double` operations of
`tplot2.cc` and `gimbal_stabilizer.cc` perform it: each operation's exact result is rounded to
the nearest value of the format, a tie to the one whose last significand bit is even.
`Binary.round` rounds with the exponent unbounded above; overflow to infinity is `ofRat`'s, with
the values it yields, in `Mjmech.Binary.Value`. Rounding is monotone (`Binary.round_mono`),
leaves the format's own values alone (`Binary.round_of_grid`, `Binary.round_round`), and every
`float` is a `double` (`Binary.round_float64_float32`). -/
namespace Mjmech

/-- An IEEE 754 binary interchange format: `precision` significand bits, the hidden one
included, and `emin` the least normal exponent; the greatest is `1 - emin`. -/
structure Binary where
  precision : ℕ
  emin : ℤ
  precision_pos : 0 < precision

namespace Binary

/-- `float`. -/
def float32 : Binary := ⟨24, -126, by decide⟩

/-- `double`. -/
def float64 : Binary := ⟨53, -1022, by decide⟩

/-- The greatest normal exponent. -/
def emax (fmt : Binary) : ℤ := 1 - fmt.emin

/-- `x` rounded to the nearest integer, a tie to the even one. -/
def roundEven (x : ℚ) : ℤ :=
  if x - ⌊x⌋ < 1 / 2 then ⌊x⌋
  else if 1 / 2 < x - ⌊x⌋ then ⌊x⌋ + 1
  else if ⌊x⌋ % 2 = 0 then ⌊x⌋ else ⌊x⌋ + 1

/-- The weight of the last significand bit of the format's values around a positive `x`: `x` is
in `[2^e, 2^(e+1))`, and the subnormals below `2^emin` share that binade's spacing. -/
def ulp (fmt : Binary) (x : ℚ) : ℚ :=
  2 ^ (max (Int.log 2 x) fmt.emin - fmt.precision + 1)

/-- A positive `x` rounded to the format's grid around it. -/
def roundPos (fmt : Binary) (x : ℚ) : ℚ := roundEven (x / fmt.ulp x) * fmt.ulp x

/-- `x` rounded to nearest, ties to even, with the exponent unbounded above. -/
def round (fmt : Binary) (x : ℚ) : ℚ :=
  if 0 < x then fmt.roundPos x else if x < 0 then -fmt.roundPos (-x) else 0

section RoundEven

theorem roundEven_intCast (n : ℤ) : roundEven n = n := by
  simp [roundEven]

theorem roundEven_zero : roundEven 0 = 0 := by
  simpa using roundEven_intCast 0

/-- Rounding to an integer takes the floor from the lower half of the unit and the next integer
from the upper half, ties going either way. -/
theorem roundEven_cases (x : ℚ) : (roundEven x = ⌊x⌋ ∧ x - ⌊x⌋ ≤ 1 / 2) ∨
    (roundEven x = ⌊x⌋ + 1 ∧ 1 / 2 ≤ x - ⌊x⌋) := by
  unfold roundEven
  split_ifs with below above
  · exact .inl ⟨rfl, below.le⟩
  · exact .inr ⟨rfl, above.le⟩
  · exact .inl ⟨rfl, le_of_not_lt above⟩
  · exact .inr ⟨rfl, le_of_not_lt below⟩

/-- Rounding to an integer moves a value by at most a half. -/
theorem abs_roundEven_sub_le (x : ℚ) : |(roundEven x : ℚ) - x| ≤ 1 / 2 := by
  have low := Int.floor_le x
  have high := Int.lt_floor_add_one x
  rw [abs_le]
  rcases roundEven_cases x with ⟨rounded, lower⟩ | ⟨rounded, upper⟩ <;> rw [rounded] <;> push_cast <;>
    constructor <;> linarith

/-- Rounding to an integer is monotone: two roundings a unit or more apart would put `x` past
`y`. -/
theorem roundEven_mono {x y : ℚ} (le : x ≤ y) : roundEven x ≤ roundEven y := by
  by_contra above
  have apart : (roundEven y : ℚ) + 1 ≤ roundEven x := by
    exact_mod_cast Int.add_one_le_iff.mpr (lt_of_not_le above)
  have ex := abs_le.mp (abs_roundEven_sub_le x)
  have ey := abs_le.mp (abs_roundEven_sub_le y)
  obtain rfl : x = y := le_antisymm le (by linarith [ex.2, ey.1])
  exact above le_rfl

/-- An integer less than a half away is the rounding. -/
theorem roundEven_eq {x : ℚ} {n : ℤ} (near : |x - n| < 1 / 2) : roundEven x = n := by
  have err := abs_le.mp (abs_roundEven_sub_le x)
  obtain ⟨low, high⟩ := abs_lt.mp near
  have lower : ((n - 1 : ℤ) : ℚ) < roundEven x := by push_cast; linarith
  have upper : (roundEven x : ℚ) < ((n + 1 : ℤ) : ℚ) := by push_cast; linarith
  have lower' : n - 1 < roundEven x := by exact_mod_cast lower
  have upper' : roundEven x < n + 1 := by exact_mod_cast upper
  omega

end RoundEven

section Log

variable {x : ℚ}

theorem zpow_log_le (pos : 0 < x) : (2 : ℚ) ^ Int.log 2 x ≤ x := by
  simpa using Int.zpow_log_le_self (one_lt_two : 1 < (2 : ℕ)) pos

theorem lt_zpow_log_succ : x < (2 : ℚ) ^ (Int.log 2 x + 1) := by
  simpa using Int.lt_zpow_succ_log_self (one_lt_two : 1 < (2 : ℕ)) x

theorem log_lt_of_lt_zpow {e : ℤ} (pos : 0 < x) (high : x < 2 ^ e) : Int.log 2 x < e :=
  (Int.lt_zpow_iff_log_lt (one_lt_two : 1 < (2 : ℕ)) pos).mp (by simpa using high)

/-- The binade of a positive `x` is the one its bounds name. -/
theorem log_eq_of_bounds {e : ℤ} (low : (2 : ℚ) ^ e ≤ x) (high : x < 2 ^ (e + 1)) :
    Int.log 2 x = e := by
  have pos : 0 < x := lt_of_lt_of_le (zpow_pos two_pos e) low
  have above := (Int.zpow_le_iff_le_log (one_lt_two : 1 < (2 : ℕ)) pos).mp (by simpa using low)
  have below := log_lt_of_lt_zpow pos high
  omega

end Log

section Grid

variable {fmt : Binary} {x y : ℚ}

theorem ulp_pos : 0 < fmt.ulp x := zpow_pos two_pos _

/-- The grid's step is `2^precision` times smaller than the top of the binade. -/
theorem zpow_precision_mul_ulp (e : ℤ) :
    ((2 ^ fmt.precision : ℤ) : ℚ) * 2 ^ (e - fmt.precision + 1) = 2 ^ (e + 1) := by
  rw [Int.cast_pow, Int.cast_ofNat, ← zpow_natCast, ← zpow_add₀ two_ne_zero]
  ring_nf

/-- A grid point below `x` stays below its rounding. -/
theorem le_roundPos {n : ℤ} (below : n * fmt.ulp x ≤ x) : n * fmt.ulp x ≤ fmt.roundPos x := by
  have scaled : (n : ℚ) ≤ x / fmt.ulp x := (le_div_iff₀ ulp_pos).mpr below
  have rounded : n ≤ roundEven (x / fmt.ulp x) :=
    (roundEven_intCast n).symm.trans_le (roundEven_mono scaled)
  exact mul_le_mul_of_nonneg_right (by exact_mod_cast rounded) ulp_pos.le

theorem roundPos_nonneg (pos : 0 < x) : 0 ≤ fmt.roundPos x := by
  simpa using @le_roundPos fmt x 0 (by simpa using pos.le)

/-- The rounded significand is at most `2^precision`: `x` is below the top of its binade. -/
theorem roundEven_le_top : roundEven (x / fmt.ulp x) ≤ 2 ^ fmt.precision := by
  have top : x / fmt.ulp x ≤ ((2 ^ fmt.precision : ℤ) : ℚ) := by
    rw [div_le_iff₀ ulp_pos, ulp, zpow_precision_mul_ulp]
    exact lt_zpow_log_succ.le.trans (zpow_le_zpow_right₀ one_le_two (by omega))
  exact (roundEven_mono top).trans_eq (roundEven_intCast _)

/-- Rounding never passes the top of the binade, clamped below at `emin`. -/
theorem roundPos_le_top :
    fmt.roundPos x ≤ 2 ^ (max (Int.log 2 x) fmt.emin + 1) := by
  have significand : (roundEven (x / fmt.ulp x) : ℚ) ≤ ((2 ^ fmt.precision : ℤ) : ℚ) := by
    exact_mod_cast roundEven_le_top
  rw [roundPos, ← zpow_precision_mul_ulp]
  exact mul_le_mul_of_nonneg_right significand ulp_pos.le

/-- Rounding an `x` above `2^emin` never drops below its binade. -/
theorem bottom_le_roundPos (pos : 0 < x) (normal : fmt.emin ≤ Int.log 2 x) :
    (2 : ℚ) ^ Int.log 2 x ≤ fmt.roundPos x := by
  obtain ⟨q, hq⟩ : ∃ q, fmt.precision = q + 1 :=
    ⟨_, (Nat.succ_pred_eq_of_pos fmt.precision_pos).symm⟩
  have bottom : ((2 ^ q : ℤ) : ℚ) * fmt.ulp x = 2 ^ Int.log 2 x := by
    rw [ulp, max_eq_left normal, Int.cast_pow, Int.cast_ofNat, ← zpow_natCast,
      ← zpow_add₀ two_ne_zero, hq]
    congr 1
    push_cast
    ring
  rw [← bottom]
  exact le_roundPos (bottom ▸ zpow_log_le pos)

theorem roundPos_mono (pos : 0 < x) (le : x ≤ y) : fmt.roundPos x ≤ fmt.roundPos y := by
  have logs : Int.log 2 x ≤ Int.log 2 y := Int.log_mono_right pos le
  by_cases same : max (Int.log 2 x) fmt.emin = max (Int.log 2 y) fmt.emin
  · have ulps : fmt.ulp x = fmt.ulp y := by rw [ulp, ulp, same]
    have scaled : roundEven (x / fmt.ulp x) ≤ roundEven (y / fmt.ulp x) :=
      roundEven_mono (div_le_div_of_nonneg_right le ulp_pos.le)
    rw [roundPos, roundPos, ← ulps]
    exact mul_le_mul_of_nonneg_right (by exact_mod_cast scaled) ulp_pos.le
  · have normal : fmt.emin ≤ Int.log 2 y := by omega
    calc fmt.roundPos x ≤ 2 ^ (max (Int.log 2 x) fmt.emin + 1) := roundPos_le_top
      _ ≤ 2 ^ Int.log 2 y := zpow_le_zpow_right₀ one_le_two (by omega)
      _ ≤ fmt.roundPos y := bottom_le_roundPos (pos.trans_le le) normal

/-- Rounding moves a value by at most half the grid's step. -/
theorem abs_roundPos_sub_le (x : ℚ) : |fmt.roundPos x - x| ≤ fmt.ulp x / 2 := by
  have scaled : fmt.roundPos x - x = (roundEven (x / fmt.ulp x) - x / fmt.ulp x) * fmt.ulp x := by
    rw [roundPos, sub_mul, div_mul_cancel₀ _ ulp_pos.ne']
  rw [scaled, abs_mul, abs_of_pos ulp_pos]
  linarith [mul_le_mul_of_nonneg_right (abs_roundEven_sub_le (x / fmt.ulp x)) (@ulp_pos fmt x).le]

/-- Below `2^precision` the grid's step is at most 1. -/
theorem ulp_le_one (pos : 0 < x) (small : x < 2 ^ fmt.precision) (low : fmt.emin < fmt.precision) :
    fmt.ulp x ≤ 1 := by
  have binade := log_lt_of_lt_zpow pos (by rwa [zpow_natCast])
  rw [ulp, ← zpow_zero (2 : ℚ)]
  exact zpow_le_zpow_right₀ one_le_two (by omega)

/-- A positive `x` on the grid around it is left alone. -/
theorem roundPos_of_grid (n : ℤ) (onGrid : x = n * fmt.ulp x) : fmt.roundPos x = x := by
  have quotient : x / fmt.ulp x = n := by rw [div_eq_iff ulp_pos.ne']; exact onGrid
  rw [roundPos, quotient, roundEven_intCast, ← onGrid]

end Grid

section Round

variable {fmt : Binary} {x y : ℚ}

@[simp] theorem round_zero : fmt.round 0 = 0 := by simp [round]

theorem round_neg (x : ℚ) : fmt.round (-x) = -fmt.round x := by
  rcases lt_trichotomy x 0 with negative | zero | positive
  · simp [round, negative, not_lt.mpr negative.le]
  · simp [zero]
  · simp [round, positive, not_lt.mpr positive.le]

theorem round_nonneg (nonneg : 0 ≤ x) : 0 ≤ fmt.round x := by
  rcases nonneg.lt_or_eq with positive | rfl
  · simpa [round, positive] using roundPos_nonneg positive
  · simp

/-- Rounding is monotone. -/
theorem round_mono (le : x ≤ y) : fmt.round x ≤ fmt.round y := by
  rcases lt_or_le 0 x with positive | nonpos
  · simpa [round, positive, positive.trans_le le] using roundPos_mono positive le
  rcases lt_or_le y 0 with negative | nonneg
  · have flipped : fmt.roundPos (-y) ≤ fmt.roundPos (-x) :=
      roundPos_mono (neg_pos.mpr negative) (neg_le_neg le)
    simpa [round, not_lt.mpr negative.le, negative, le.trans_lt negative,
      not_lt.mpr (le.trans negative.le)] using flipped
  · have flipped : 0 ≤ fmt.round (-x) := round_nonneg (neg_nonneg.mpr nonpos)
    rw [round_neg] at flipped
    exact (neg_nonneg.mp flipped).trans (round_nonneg nonneg)

/-- The format's values are left alone: `m · 2^j` with `|m|` below `2^precision` and `j` no
lower than the subnormals' exponent. -/
theorem round_of_grid {m j : ℤ} (small : |m| < 2 ^ fmt.precision)
    (low : fmt.emin - fmt.precision + 1 ≤ j) : fmt.round (m * 2 ^ j) = m * 2 ^ j := by
  have positive : ∀ {n : ℤ}, 0 < n → n < 2 ^ fmt.precision →
      fmt.roundPos (n * 2 ^ j) = n * 2 ^ j := by
    intro n pos below
    have xPos : (0 : ℚ) < n * 2 ^ j := mul_pos (by exact_mod_cast pos) (zpow_pos two_pos j)
    have top : (n : ℚ) * 2 ^ j < 2 ^ (fmt.precision + j) := by
      rw [zpow_add₀ two_ne_zero, zpow_natCast]
      exact mul_lt_mul_of_pos_right (by exact_mod_cast below) (zpow_pos two_pos j)
    have logBelow := log_lt_of_lt_zpow xPos top
    obtain ⟨e, he⟩ : ∃ e, e = max (Int.log 2 ((n : ℚ) * 2 ^ j)) fmt.emin - fmt.precision + 1 :=
      ⟨_, rfl⟩
    refine roundPos_of_grid (n * 2 ^ (j - e).toNat) ?_
    rw [ulp, ← he, Int.cast_mul, Int.cast_pow, Int.cast_ofNat, mul_assoc, ← zpow_natCast,
      ← zpow_add₀ two_ne_zero, Int.toNat_of_nonneg (by omega)]
    congr 2
    ring
  rcases lt_trichotomy m 0 with negative | rfl | pos
  · have flipped := positive (neg_pos.mpr negative) (by rwa [abs_of_neg negative] at small)
    have xNeg : (m : ℚ) * 2 ^ j < 0 :=
      mul_neg_of_neg_of_pos (by exact_mod_cast negative) (zpow_pos two_pos j)
    simp only [round, not_lt.mpr xNeg.le, xNeg, if_true, if_false]
    push_cast at flipped
    rw [← neg_mul, flipped, neg_mul, neg_neg]
  · simp
  · have xPos : (0 : ℚ) < m * 2 ^ j := mul_pos (by exact_mod_cast pos) (zpow_pos two_pos j)
    rw [round, if_pos xPos, positive pos (by rwa [abs_of_pos pos] at small)]

/-- An integer below `2^precision` is a value of the format. -/
theorem round_intCast {n : ℤ} (small : |n| < 2 ^ fmt.precision) (low : fmt.emin < fmt.precision) :
    fmt.round n = n := by
  simpa using @round_of_grid fmt n 0 small (by omega)

/-- Every positive rounding is a value of the format, with a significand below
`2^precision`. -/
theorem roundPos_grid (pos : 0 < x) : ∃ m j : ℤ, fmt.roundPos x = m * 2 ^ j ∧ 0 ≤ m ∧
    m < 2 ^ fmt.precision ∧ fmt.emin - fmt.precision + 1 ≤ j := by
  have nonneg : 0 ≤ roundEven (x / fmt.ulp x) := by
    simpa [roundEven_zero] using roundEven_mono (div_nonneg pos.le ulp_pos.le)
  rcases roundEven_le_top.lt_or_eq with below | top
  · exact ⟨_, _, rfl, nonneg, below, by omega⟩
  · obtain ⟨q, hq⟩ : ∃ q, fmt.precision = q + 1 :=
      ⟨_, (Nat.succ_pred_eq_of_pos fmt.precision_pos).symm⟩
    have grows : (2 : ℤ) ^ q < 2 ^ fmt.precision := by
      have := pow_pos (two_pos : (0 : ℤ) < 2) q
      rw [hq, pow_succ]
      omega
    refine ⟨2 ^ q, max (Int.log 2 x) fmt.emin - fmt.precision + 2, ?_, by positivity, grows,
      by omega⟩
    rw [roundPos, top, ulp, zpow_precision_mul_ulp, Int.cast_pow, Int.cast_ofNat, ← zpow_natCast,
      ← zpow_add₀ two_ne_zero]
    congr 1
    rw [hq]
    push_cast
    ring

/-- Every rounding is a value of the format. -/
theorem round_grid (x : ℚ) : ∃ m j : ℤ, fmt.round x = m * 2 ^ j ∧ |m| < 2 ^ fmt.precision ∧
    fmt.emin - fmt.precision + 1 ≤ j := by
  rcases lt_trichotomy x 0 with negative | rfl | pos
  · obtain ⟨m, j, eq, nonneg, below, low⟩ := @roundPos_grid fmt (-x) (neg_pos.mpr negative)
    refine ⟨-m, j, ?_, by rwa [abs_neg, abs_of_nonneg nonneg], low⟩
    simp [round, negative, not_lt.mpr negative.le, eq]
  · exact ⟨0, fmt.emin - fmt.precision + 1, by simp, by simp, le_rfl⟩
  · obtain ⟨m, j, eq, nonneg, below, low⟩ := @roundPos_grid fmt x pos
    exact ⟨m, j, by rw [round, if_pos pos, eq], by rwa [abs_of_nonneg nonneg], low⟩

/-- Below `2^precision` rounding moves a value by at most a half. -/
theorem abs_round_sub_le_half (small : |x| < 2 ^ fmt.precision) (low : fmt.emin < fmt.precision) :
    |fmt.round x - x| ≤ 1 / 2 := by
  have positive : ∀ {y : ℚ}, 0 < y → y < 2 ^ fmt.precision → |fmt.roundPos y - y| ≤ 1 / 2 :=
    fun pos below => (abs_roundPos_sub_le _).trans (by linarith [ulp_le_one pos below low])
  rcases lt_trichotomy x 0 with negative | rfl | pos
  · have flipped := positive (neg_pos.mpr negative) (by rwa [abs_of_neg negative] at small)
    rw [round, if_neg (not_lt.mpr negative.le), if_pos negative]
    rwa [show -fmt.roundPos (-x) - x = -(fmt.roundPos (-x) - -x) by ring, abs_neg]
  · simp
  · rw [round, if_pos pos]
    exact positive pos (by rwa [abs_of_pos pos] at small)

/-- A value no larger than a power of two in the format's range rounds to no more than it. -/
theorem abs_round_le {k : ℤ} (bound : |x| ≤ 2 ^ k) (normal : fmt.emin - fmt.precision + 1 ≤ k) :
    |fmt.round x| ≤ 2 ^ k := by
  have power : fmt.round (2 ^ k) = 2 ^ k := by
    simpa using @round_of_grid fmt 1 k (by simpa using one_lt_pow₀ one_lt_two fmt.precision_pos.ne') normal
  rcases le_or_lt 0 x with nonneg | negative
  · rw [abs_of_nonneg (round_nonneg nonneg), ← power]
    exact round_mono ((le_abs_self x).trans bound)
  · rw [abs_of_nonpos (round_mono negative.le |>.trans_eq round_zero), ← round_neg, ← power]
    exact round_mono ((neg_le_abs x).trans bound)

/-- Rounding twice is rounding once. -/
theorem round_round (x : ℚ) : fmt.round (fmt.round x) = fmt.round x := by
  obtain ⟨m, j, eq, small, low⟩ := @round_grid fmt x
  rw [eq, round_of_grid small low]

/-- Every `float` is a `double`. -/
theorem round_float64_float32 (x : ℚ) : float64.round (float32.round x) = float32.round x := by
  obtain ⟨m, j, eq, small, low⟩ := @round_grid float32 x
  have wider : (2 : ℤ) ^ float32.precision ≤ 2 ^ float64.precision :=
    pow_le_pow_right₀ one_le_two (by decide)
  rw [eq]
  exact round_of_grid (small.trans_le wider) (le_trans (by decide) low)

/-- The rounding of a positive `x` in the binade of `2^(precision - 1 + j)`, no lower than the
normal range, is `m · 2^j` for the `m` less than a half from `x / 2^j`. -/
theorem round_eq_of_near {m j : ℤ} (low : (2 : ℚ) ^ (fmt.precision - 1 + j) ≤ x)
    (high : x < 2 ^ (fmt.precision + j)) (normal : fmt.emin - fmt.precision + 1 ≤ j)
    (near : |x / 2 ^ j - m| < 1 / 2) : fmt.round x = m * 2 ^ j := by
  have pos : 0 < x := lt_of_lt_of_le (zpow_pos two_pos _) low
  have binade : Int.log 2 x = fmt.precision - 1 + j :=
    log_eq_of_bounds low (by rwa [show (fmt.precision : ℤ) - 1 + j + 1 = fmt.precision + j by ring])
  have grid : fmt.ulp x = 2 ^ j := by
    rw [ulp, binade, max_eq_left (by omega)]
    congr 1
    ring
  rw [round, if_pos pos, roundPos, grid, roundEven_eq near]

end Round

end Binary

end Mjmech
