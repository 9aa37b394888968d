import Mathlib.Algebra.Order.Field.Power
import Mathlib.Data.Int.Log
import Mathlib.Data.Rat.Floor
import Mathlib.Tactic.Positivity

/-!
# Binary floating point

The values of a binary format are the numbers `n * 2 ^ place` with `n` of at most
`precision` bits and a place that is not too low.  An exact number is rounded to
the nearest one, a tie to the even `n`; what reaches the top is infinite.  Zero
has no sign here.
-/

namespace Rfsoc.BinaryFloat

structure Format where
  precision : ℕ
  lowestPlace : ℤ
  top : ℤ

/-- C's `float` and `double`. -/
def binary32 : Format := ⟨24, -149, 128⟩

def binary64 : Format := ⟨53, -1074, 1024⟩

inductive Number where
  | nan
  | infinite (negative : Bool)
  | finite (value : ℚ)

/-- The nearest integer, of two the even one. -/
def roundEven (value : ℚ) : ℤ :=
  if value - ⌊value⌋ < 1 / 2 then ⌊value⌋
  else if 1 / 2 < value - ⌊value⌋ then ⌊value⌋ + 1
  else if ⌊value⌋ % 2 = 0 then ⌊value⌋
  else ⌊value⌋ + 1

namespace Format

variable (format : Format)

/-- The place of the last bit of the format's numbers next to a value. -/
def place (value : ℚ) : ℤ :=
  max format.lowestPlace (Int.log 2 |value| + 1 - format.precision)

def nearest (value : ℚ) : ℚ :=
  roundEven (value / 2 ^ format.place value) * 2 ^ format.place value

/-- An exact value in the format. -/
def round (value : ℚ) : Number :=
  if |format.nearest value| < 2 ^ format.top then .finite (format.nearest value)
  else .infinite (decide (value < 0))

/-- A number of another format. -/
def convert : Number → Number
  | .finite value => format.round value
  | other => other

/-- The product with a power of two. -/
def scale (exponent : ℕ) : Number → Number
  | .finite value => format.round (value * 2 ^ exponent)
  | other => other

end Format

namespace Number

/-- `>` against an integer. -/
def exceeds (bound : ℤ) : Number → Bool
  | .nan => false
  | .infinite negative => !negative
  | .finite value => decide ((bound : ℚ) < value)

/-- The conversion to an integer type: the fraction is dropped, and what the type
cannot hold is not converted. -/
def toInteger (low high : ℤ) : Number → Option ℤ
  | .finite value =>
      let whole := if 0 ≤ value then ⌊value⌋ else ⌈value⌉
      if low ≤ whole ∧ whole ≤ high then some whole else none
  | _ => none

theorem exceeds_intCast (bound value : ℤ) :
    (finite value).exceeds bound = decide (bound < value) := by
  rw [exceeds, decide_eq_decide, Int.cast_lt]

theorem toInteger_intCast {low high value : ℤ} (hlow : low ≤ value)
    (hhigh : value ≤ high) :
    (finite value).toInteger low high = some value := by
  have hwhole : (if (0 : ℚ) ≤ value then ⌊(value : ℚ)⌋ else ⌈(value : ℚ)⌉) =
      value := by
    split
    case isTrue => exact Int.floor_intCast value
    case isFalse => exact Int.ceil_intCast value
  rw [toInteger, hwhole]
  exact if_pos ⟨hlow, hhigh⟩

end Number

theorem roundEven_intCast (value : ℤ) : roundEven value = value := by
  rw [roundEven, Int.floor_intCast, sub_self, if_pos (by norm_num)]

section Exact

variable {format : Format} {significand exponent : ℤ}

theorem place_le (hne : significand ≠ 0)
    (hbits : |significand| < 2 ^ format.precision)
    (hlowest : format.lowestPlace ≤ exponent) :
    format.place (significand * 2 ^ exponent) ≤ exponent := by
  have hpower : (0 : ℚ) < 2 ^ exponent := zpow_pos two_pos _
  have hpos : (0 : ℚ) < |(significand : ℚ) * 2 ^ exponent| :=
    abs_pos.mpr (mul_ne_zero (Int.cast_ne_zero.mpr hne) hpower.ne')
  have hsmall : |(significand : ℚ) * 2 ^ exponent| <
      ((2 : ℕ) : ℚ) ^ ((format.precision : ℤ) + exponent) := by
    have hcast : |(significand : ℚ)| < 2 ^ format.precision := by
      exact_mod_cast hbits
    rw [abs_mul, abs_of_pos hpower, Nat.cast_ofNat,
      zpow_add₀ (two_ne_zero' ℚ), zpow_natCast]
    exact mul_lt_mul_of_pos_right hcast hpower
  have hlog := (Int.lt_zpow_iff_log_lt one_lt_two hpos).mp hsmall
  rw [Format.place]
  exact max_le hlowest (by omega)

/-- A number of the format is its own nearest one. -/
theorem nearest_eq (hbits : |significand| < 2 ^ format.precision)
    (hlowest : format.lowestPlace ≤ exponent) :
    format.nearest (significand * 2 ^ exponent) =
      significand * 2 ^ exponent := by
  by_cases hzero : significand = 0
  · have hround : roundEven 0 = 0 := roundEven_intCast 0
    rw [hzero, Int.cast_zero, zero_mul, Format.nearest, zero_div, hround,
      Int.cast_zero, zero_mul]
  · obtain ⟨shift, hshift⟩ := Int.le.dest (place_le hzero hbits hlowest)
    rw [Format.nearest]
    generalize format.place (significand * 2 ^ exponent) = place at hshift
    have hplace : (2 : ℚ) ^ place ≠ 0 := zpow_ne_zero _ two_ne_zero
    have hvalue : (significand : ℚ) * 2 ^ exponent =
        ((significand * 2 ^ shift : ℤ) : ℚ) * 2 ^ place := by
      rw [← hshift, zpow_add₀ two_ne_zero, zpow_natCast, Int.cast_mul,
        Int.cast_pow, Int.cast_ofNat]
      ring
    rw [hvalue, mul_div_cancel_right₀ _ hplace, roundEven_intCast]

theorem round_eq (hbits : |significand| < 2 ^ format.precision)
    (hlowest : format.lowestPlace ≤ exponent)
    (htop : |(significand : ℚ) * 2 ^ exponent| < 2 ^ format.top) :
    format.round (significand * 2 ^ exponent) =
      .finite (significand * 2 ^ exponent) := by
  rw [Format.round, nearest_eq hbits hlowest, if_pos htop]

/-- Integers of the format's precision are in the format, and so are their
products with powers of two. -/
theorem round_intCast_mul {value : ℤ} (shift : ℕ)
    (hlowest : format.lowestPlace ≤ 0)
    (htop : (format.precision : ℤ) + shift ≤ format.top)
    (hbits : |value| < 2 ^ format.precision) :
    format.round ((value * 2 ^ shift : ℤ) : ℚ) =
      .finite ((value * 2 ^ shift : ℤ) : ℚ) := by
  have hcast : ((value * 2 ^ shift : ℤ) : ℚ) = value * 2 ^ (shift : ℤ) := by
    rw [Int.cast_mul, Int.cast_pow, Int.cast_ofNat, zpow_natCast]
  rw [hcast]
  apply round_eq hbits (by omega)
  have hpower : (0 : ℚ) < 2 ^ (shift : ℤ) := zpow_pos two_pos _
  have hvalue : |(value : ℚ)| < 2 ^ format.precision := by exact_mod_cast hbits
  calc |(value : ℚ) * 2 ^ (shift : ℤ)| = |(value : ℚ)| * 2 ^ (shift : ℤ) := by
        rw [abs_mul, abs_of_pos hpower]
    _ < 2 ^ format.precision * 2 ^ (shift : ℤ) :=
        mul_lt_mul_of_pos_right hvalue hpower
    _ = 2 ^ ((format.precision : ℤ) + shift) := by
        rw [zpow_add₀ two_ne_zero, zpow_natCast, zpow_natCast]
    _ ≤ 2 ^ format.top := zpow_le_zpow_right₀ one_le_two htop

theorem round_intCast {value : ℤ} (hlowest : format.lowestPlace ≤ 0)
    (htop : format.precision ≤ format.top)
    (hbits : |value| < 2 ^ format.precision) :
    format.round value = .finite value := by
  have hround := round_intCast_mul 0 hlowest
    (by rwa [Nat.cast_zero, add_zero]) hbits
  rwa [pow_zero, mul_one] at hround

theorem scale_intCast {value : ℤ} {shift : ℕ}
    (hlowest : format.lowestPlace ≤ 0)
    (htop : (format.precision : ℤ) + shift ≤ format.top)
    (hbits : |value| < 2 ^ format.precision) :
    format.scale shift (.finite value) =
      .finite ((value * 2 ^ shift : ℤ) : ℚ) := by
  rw [Format.scale, ← round_intCast_mul shift hlowest htop hbits, Int.cast_mul,
    Int.cast_pow, Int.cast_ofNat]

end Exact

end Rfsoc.BinaryFloat
