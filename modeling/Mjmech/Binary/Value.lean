import Mjmech.Binary.Round
import Mathlib.Order.WithBot

/-! The values of `float` and `double` and the operations `tplot2.cc` applies to them: NaN, the
two infinities and the finite values, the IEEE comparisons, under which NaN is unordered, and the
conversion of an exact result to the format, which rounds it (`Binary.round`) and overflows to
an infinity past the greatest finite value. Every operation yields a value of its format
(`Binary.ofRat_inFormat`), so `Flt` carries that fact with the value. Conversion is monotone
(`Binary.ofRat_mono`, `Binary.narrow_mono`), a value of the format converts to itself
(`Binary.narrow_of_inFormat`), and every `float` is a `double` (`Val.InFormat.float64`); from
these, adding a non-negative finite amount never moves a value down (`Binary.le_add_fin`). -/
namespace Mjmech

/-- A value of an IEEE 754 binary format: NaN, an infinity, or a finite value. The sign of zero
is not kept: none of the operations modelled tells `-0` from `+0`. -/
inductive Val
  | nan
  | inf (negative : Bool)
  | fin (value : ℚ)
  deriving DecidableEq, Repr

namespace Val

/-- Where a value sits on the extended line; NaN sits nowhere. -/
def key : Val → Option (WithBot (WithTop ℚ))
  | nan => none
  | inf true => some ⊥
  | inf false => some ((⊤ : WithTop ℚ) : WithBot (WithTop ℚ))
  | fin x => some ((x : WithTop ℚ) : WithBot (WithTop ℚ))

/-- IEEE `<=`: false whenever NaN is involved. -/
protected def Le (a b : Val) : Prop :=
  match a.key, b.key with
  | some x, some y => x ≤ y
  | _, _ => False

/-- IEEE `<`: false whenever NaN is involved. -/
protected def Lt (a b : Val) : Prop :=
  match a.key, b.key with
  | some x, some y => x < y
  | _, _ => False

instance : LE Val := ⟨Val.Le⟩

instance : LT Val := ⟨Val.Lt⟩

instance (a b : Val) : Decidable (a ≤ b) := by
  show Decidable (Val.Le a b)
  unfold Val.Le
  split <;> infer_instance

instance (a b : Val) : Decidable (a < b) := by
  show Decidable (Val.Lt a b)
  unfold Val.Lt
  split <;> infer_instance

/-- `-x`. -/
def neg : Val → Val
  | nan => nan
  | inf negative => inf !negative
  | fin x => fin (-x)

/-- The values of a format: a finite value is on its grid and below the overflow threshold. -/
def InFormat (fmt : Binary) : Val → Prop
  | fin x => fmt.round x = x ∧ |x| < 2 ^ (fmt.emax + 1)
  | _ => True

section Order

variable {a b c : Val}

theorem key_injective (same : a.key = b.key) : a = b := by
  rcases a with _ | ⟨_ | _⟩ | x <;> rcases b with _ | ⟨_ | _⟩ | y <;> simp_all [key]

theorem le_iff : a ≤ b ↔ ∃ x y, a.key = some x ∧ b.key = some y ∧ x ≤ y := by
  show Val.Le a b ↔ _
  unfold Val.Le
  split <;> simp_all

theorem lt_iff : a < b ↔ ∃ x y, a.key = some x ∧ b.key = some y ∧ x < y := by
  show Val.Lt a b ↔ _
  unfold Val.Lt
  split <;> simp_all

theorem exists_key (number : a ≠ nan) : ∃ x, a.key = some x := by
  rcases a with _ | ⟨_ | _⟩ | x
  · exact absurd rfl number
  all_goals exact ⟨_, rfl⟩

@[simp] theorem fin_le_fin {x y : ℚ} : fin x ≤ fin y ↔ x ≤ y := by
  simp [le_iff, key]

@[simp] theorem fin_lt_fin {x y : ℚ} : fin x < fin y ↔ x < y := by
  simp [lt_iff, key]

@[simp] theorem not_nan_le : ¬ nan ≤ a := by simp [le_iff, key]

@[simp] theorem not_le_nan : ¬ a ≤ nan := by simp [le_iff, key]

@[simp] theorem not_nan_lt : ¬ nan < a := by simp [lt_iff, key]

@[simp] theorem not_lt_nan : ¬ a < nan := by simp [lt_iff, key]

theorem le_refl_of_ne (number : a ≠ nan) : a ≤ a := by
  obtain ⟨x, hx⟩ := exists_key number
  exact le_iff.mpr ⟨x, x, hx, hx, le_rfl⟩

theorem neg_inf_le (number : a ≠ nan) : inf true ≤ a := by
  obtain ⟨x, hx⟩ := exists_key number
  exact le_iff.mpr ⟨⊥, x, rfl, hx, bot_le⟩

theorem le_pos_inf (number : a ≠ nan) : a ≤ inf false := by
  obtain ⟨x, hx⟩ := exists_key number
  refine le_iff.mpr ⟨x, _, hx, rfl, ?_⟩
  rcases x with _ | x
  · exact bot_le
  · exact WithBot.coe_le_coe.mpr le_top

theorem le_trans (first : a ≤ b) (second : b ≤ c) : a ≤ c := by
  obtain ⟨x, y, hx, hy, xy⟩ := le_iff.mp first
  obtain ⟨y', z, hy', hz, yz⟩ := le_iff.mp second
  obtain rfl : y = y' := Option.some.inj (hy.symm.trans hy')
  exact le_iff.mpr ⟨x, z, hx, hz, xy.trans yz⟩

theorem le_of_lt (less : a < b) : a ≤ b := by
  obtain ⟨x, y, hx, hy, xy⟩ := lt_iff.mp less
  exact le_iff.mpr ⟨x, y, hx, hy, xy.le⟩

theorem eq_of_le_of_le (first : a ≤ b) (second : b ≤ a) : a = b := by
  obtain ⟨x, y, hx, hy, xy⟩ := le_iff.mp first
  obtain ⟨y', x', hy', hx', yx⟩ := le_iff.mp second
  obtain rfl : y = y' := Option.some.inj (hy.symm.trans hy')
  obtain rfl : x = x' := Option.some.inj (hx.symm.trans hx')
  exact key_injective (by rw [hx, hy, le_antisymm xy yx])

/-- Two numbers that are not in `<` are in `<=` the other way. -/
theorem le_of_not_lt (number : a ≠ nan) (other : b ≠ nan) (notLess : ¬ a < b) : b ≤ a := by
  obtain ⟨x, hx⟩ := exists_key number
  obtain ⟨y, hy⟩ := exists_key other
  exact le_iff.mpr ⟨y, x, hy, hx, not_lt.mp fun less => notLess (lt_iff.mpr ⟨x, y, hx, hy, less⟩)⟩

/-- Two numbers that are not in `<=` are in `<` the other way. -/
theorem lt_of_not_le (number : a ≠ nan) (other : b ≠ nan) (notLe : ¬ a ≤ b) : b < a := by
  obtain ⟨x, hx⟩ := exists_key number
  obtain ⟨y, hy⟩ := exists_key other
  exact lt_iff.mpr ⟨y, x, hy, hx, not_le.mp fun le => notLe (le_iff.mpr ⟨x, y, hx, hy, le⟩)⟩

theorem ne_nan_of_le (le : a ≤ b) : a ≠ nan ∧ b ≠ nan := by
  obtain ⟨x, y, hx, hy, -⟩ := le_iff.mp le
  exact ⟨fun isNan => by simp [isNan, key] at hx, fun isNan => by simp [isNan, key] at hy⟩

end Order

end Val

namespace Binary

variable (fmt : Binary)

/-- An exact result converted to the format: rounded to nearest, ties to even, and an infinity
of its sign once the rounding reaches `2^(emax + 1)`, past the greatest finite value. -/
def ofRat (x : ℚ) : Val :=
  if (2 : ℚ) ^ (fmt.emax + 1) ≤ |fmt.round x| then .inf (decide (x < 0)) else .fin (fmt.round x)

/-- `a + b`. -/
def add : Val → Val → Val
  | .nan, _ | _, .nan => .nan
  | .inf a, .inf b => if a = b then .inf a else .nan
  | .inf a, .fin _ | .fin _, .inf a => .inf a
  | .fin x, .fin y => fmt.ofRat (x + y)

/-- `a - b`. -/
def sub (a b : Val) : Val := fmt.add a b.neg

/-- `a * b`. -/
def mul : Val → Val → Val
  | .nan, _ | _, .nan => .nan
  | .inf a, .inf b => .inf (a != b)
  | .inf a, .fin y | .fin y, .inf a => if y = 0 then .nan else .inf (a != decide (y < 0))
  | .fin x, .fin y => fmt.ofRat (x * y)

/-- A value converted to the format, as a `double` becomes a `float`. -/
def narrow : Val → Val
  | .fin x => fmt.ofRat x
  | other => other

end Binary

namespace Binary

variable {fmt : Binary}

/-- Every conversion yields a value of the format. -/
theorem ofRat_inFormat (x : ℚ) : (fmt.ofRat x).InFormat fmt := by
  unfold ofRat
  split_ifs with overflow
  · trivial
  · exact ⟨round_round x, lt_of_not_le overflow⟩

theorem add_inFormat (a b : Val) : (fmt.add a b).InFormat fmt := by
  unfold add
  split <;> (try split) <;> first | trivial | exact ofRat_inFormat _

theorem narrow_inFormat (a : Val) : (fmt.narrow a).InFormat fmt := by
  cases a
  · trivial
  · trivial
  · exact ofRat_inFormat _

/-- A value of the format converts to itself. -/
theorem ofRat_of_inFormat {x : ℚ} (inFormat : (Val.fin x).InFormat fmt) : fmt.ofRat x = .fin x := by
  obtain ⟨rounded, fits⟩ := inFormat
  rw [ofRat, rounded, if_neg (not_le.mpr fits)]

theorem narrow_of_inFormat {a : Val} (inFormat : a.InFormat fmt) : fmt.narrow a = a := by
  cases a with
  | fin x => exact ofRat_of_inFormat inFormat
  | _ => rfl

/-- A result no larger than a power of two below the overflow threshold stays finite. -/
theorem ofRat_of_le {x : ℚ} {k : ℤ} (bound : |x| ≤ 2 ^ k) (normal : fmt.emin - fmt.precision + 1 ≤ k)
    (fits : k ≤ fmt.emax) : fmt.ofRat x = .fin (fmt.round x) := by
  have below : |fmt.round x| < 2 ^ (fmt.emax + 1) :=
    (abs_round_le bound normal).trans_lt (zpow_lt_zpow_right₀ one_lt_two (by omega))
  rw [ofRat, if_neg (not_le.mpr below)]

theorem ofRat_ne_nan (x : ℚ) : fmt.ofRat x ≠ .nan := by
  unfold ofRat
  split_ifs <;> simp

theorem narrow_ne_nan {a : Val} (number : a ≠ .nan) : fmt.narrow a ≠ .nan := by
  cases a with
  | nan => exact number
  | inf => simp [narrow]
  | fin x => exact ofRat_ne_nan x

/-- Conversion is monotone, the infinities included. -/
theorem ofRat_mono {x y : ℚ} (le : x ≤ y) : fmt.ofRat x ≤ fmt.ofRat y := by
  have rounded := @round_mono fmt x y le
  unfold ofRat
  split_ifs with overX overY overY
  · rcases lt_or_le x 0 with xNeg | xNonneg
    · simpa [xNeg] using Val.neg_inf_le (by simp)
    · simpa [not_lt.mpr xNonneg, not_lt.mpr (xNonneg.trans le)] using
        Val.le_refl_of_ne (a := .inf false) (by simp)
  · rcases lt_or_le x 0 with xNeg | xNonneg
    · simpa [xNeg] using Val.neg_inf_le (by simp)
    · rw [abs_of_nonneg (round_nonneg xNonneg)] at overX
      exact absurd (overX.trans (rounded.trans (le_abs_self _))) overY
  · rcases lt_or_le y 0 with yNeg | yNonneg
    · have nonpos : fmt.round y ≤ 0 := (round_mono yNeg.le).trans_eq round_zero
      rw [abs_of_nonpos nonpos] at overY
      exact absurd (overY.trans ((neg_le_neg rounded).trans (neg_le_abs _))) overX
    · simpa [not_lt.mpr yNonneg] using Val.le_pos_inf (by simp)
  · exact Val.fin_le_fin.mpr rounded

/-- Narrowing is monotone. -/
theorem narrow_mono {a b : Val} (le : a ≤ b) : fmt.narrow a ≤ fmt.narrow b := by
  obtain ⟨number, other⟩ := Val.ne_nan_of_le le
  rcases a with _ | ⟨_ | _⟩ | x
  · exact absurd rfl number
  · rcases b with _ | ⟨_ | _⟩ | y
    · exact absurd rfl other
    · exact le
    · simp [Val.le_iff, Val.key] at le
    · simp [Val.le_iff, Val.key] at le
  · exact Val.neg_inf_le (narrow_ne_nan other)
  · rcases b with _ | ⟨_ | _⟩ | y
    · exact absurd rfl other
    · exact Val.le_pos_inf (ofRat_ne_nan x)
    · simp [Val.le_iff, Val.key] at le
    · exact ofRat_mono (Val.fin_le_fin.mp le)

/-- Adding a non-negative finite amount to a value of the format never moves it down. -/
theorem le_add_fin {a : Val} (number : a ≠ .nan) (inFormat : a.InFormat fmt) {p : ℚ}
    (nonneg : 0 ≤ p) : a ≤ fmt.add a (.fin p) := by
  rcases a with _ | negative | x
  · exact absurd rfl number
  · exact Val.le_refl_of_ne (by simp)
  · calc Val.fin x = fmt.ofRat x := (ofRat_of_inFormat inFormat).symm
      _ ≤ fmt.ofRat (x + p) := ofRat_mono (by linarith)

/-- Subtracting a non-negative finite amount from a value of the format never moves it up. -/
theorem sub_fin_le {a : Val} (number : a ≠ .nan) (inFormat : a.InFormat fmt) {p : ℚ}
    (nonneg : 0 ≤ p) : fmt.sub a (.fin p) ≤ a := by
  rcases a with _ | negative | x
  · exact absurd rfl number
  · exact Val.le_refl_of_ne (a := .inf negative) (by simp)
  · calc fmt.sub (.fin x) (.fin p) = fmt.ofRat (x + -p) := rfl
      _ ≤ fmt.ofRat x := ofRat_mono (by linarith)
      _ = Val.fin x := ofRat_of_inFormat inFormat

end Binary

/-- Every `float` is a `double`. -/
theorem Val.InFormat.float64 {a : Val} (inFormat : a.InFormat .float32) : a.InFormat .float64 := by
  rcases a with _ | negative | x
  · trivial
  · trivial
  · obtain ⟨rounded, fits⟩ := inFormat
    refine ⟨by rw [← rounded, Binary.round_float64_float32], fits.trans_le ?_⟩
    have wider : Binary.float32.emax + 1 ≤ Binary.float64.emax + 1 := by
      norm_num [Binary.emax, Binary.float32, Binary.float64]
    exact zpow_le_zpow_right₀ (one_le_two : (1 : ℚ) ≤ 2) wider

/-- A value of the format `fmt`. -/
structure Flt (fmt : Binary) where
  val : Val
  inFormat : val.InFormat fmt

namespace Flt

variable {fmt : Binary}

/-- An exact value converted to the format, as a literal or an integer becomes a `float`. -/
def ofRat (x : ℚ) : Flt fmt := ⟨fmt.ofRat x, Binary.ofRat_inFormat x⟩

/-- A value converted to the format. -/
def narrow (a : Val) : Flt fmt := ⟨fmt.narrow a, Binary.narrow_inFormat a⟩

/-- `a + b` in the format. -/
def add (a b : Flt fmt) : Flt fmt := ⟨fmt.add a.val b.val, Binary.add_inFormat _ _⟩

/-- `a - b` in the format. -/
def sub (a b : Flt fmt) : Flt fmt := ⟨fmt.sub a.val b.val, Binary.add_inFormat _ _⟩

/-- The quiet NaN. -/
def nan : Flt fmt := ⟨.nan, trivial⟩

instance : LE (Flt fmt) := ⟨fun a b => a.val ≤ b.val⟩

instance : LT (Flt fmt) := ⟨fun a b => a.val < b.val⟩

instance (a b : Flt fmt) : Decidable (a ≤ b) := inferInstanceAs (Decidable (a.val ≤ b.val))

instance (a b : Flt fmt) : Decidable (a < b) := inferInstanceAs (Decidable (a.val < b.val))

@[ext] theorem ext {a b : Flt fmt} (same : a.val = b.val) : a = b := by
  cases a; cases b; cases same; rfl

end Flt

/-- mjlib's `ConvertDurationToSeconds`, which is not under `src/`, for a duration of `micros`
microseconds, a whole number: the count as a `double`, divided by `1e6` in `double`. -/
def convertDurationToSeconds (micros : ℚ) : Val :=
  Binary.float64.ofRat (Binary.float64.round micros / 1000000)

/-- A duration that is neither negative nor beyond boost's 64-bit tick count is a finite, non-negative
number of seconds below 2^44. -/
theorem convertDurationToSeconds_of_nonneg {micros : ℤ} (nonneg : 0 ≤ micros) (small : micros < 2 ^ 63) :
    ∃ r, convertDurationToSeconds (micros : ℚ) = .fin r ∧ 0 ≤ r ∧ r ≤ 2 ^ (44 : ℤ) := by
  have count : |Binary.float64.round micros| ≤ 2 ^ (63 : ℤ) := by
    refine Binary.abs_round_le ?_ (by norm_num [Binary.float64])
    rw [abs_of_nonneg (by exact_mod_cast nonneg)]
    exact_mod_cast small.le
  have countNonneg := @Binary.round_nonneg Binary.float64 micros (by exact_mod_cast nonneg)
  have seconds : |Binary.float64.round micros / 1000000| ≤ 2 ^ (44 : ℤ) := by
    rw [abs_of_nonneg (by positivity), div_le_iff₀ (by norm_num)]
    rw [abs_of_nonneg countNonneg] at count
    linarith [show (2 : ℚ) ^ (63 : ℤ) ≤ 2 ^ (44 : ℤ) * 1000000 by norm_num]
  refine ⟨_, Binary.ofRat_of_le seconds (by norm_num [Binary.float64])
    (by norm_num [Binary.emax, Binary.float64]), Binary.round_nonneg (by positivity), ?_⟩
  exact (le_abs_self _).trans (Binary.abs_round_le seconds (by norm_num [Binary.float64]))

end Mjmech
