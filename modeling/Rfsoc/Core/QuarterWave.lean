import Mathlib.Algebra.Group.Basic

/-!
# Waves from a quarter

A wave of period `4 * quarterTurn` that is given by its first quarter, both ends
included: the second quarter runs back, and the second half is the first with
the other sign.  The values are in any additive group.
-/

namespace Rfsoc.QuarterWave

variable {Value : Type*} [AddGroup Value]

section Definitions

variable (quarterTurn : ℕ) (quarter : ℕ → Value)

/-- The first half of the wave, for phases up to half a turn. -/
def half (phase : ℕ) : Value :=
  if phase < quarterTurn then quarter phase
  else quarter (2 * quarterTurn - phase)

/-- The wave, for phases below a turn. -/
def wave (phase : ℕ) : Value :=
  if phase < 2 * quarterTurn then half quarterTurn quarter phase
  else -half quarterTurn quarter (phase - 2 * quarterTurn)

/-- The wave a quarter of a turn ahead. -/
def cowave (phase : ℕ) : Value :=
  wave quarterTurn quarter ((phase + quarterTurn) % (4 * quarterTurn))

end Definitions

variable {quarterTurn : ℕ} {quarter : ℕ → Value} {phase : ℕ}

section Quadrants

variable {offset : ℕ} (hoffset : offset < quarterTurn)
include hoffset

theorem wave_first (hphase : phase = offset) :
    wave quarterTurn quarter phase = quarter offset := by
  rw [hphase, wave, if_pos (by omega), half, if_pos hoffset]

theorem wave_second (hphase : phase = quarterTurn + offset) :
    wave quarterTurn quarter phase = quarter (quarterTurn - offset) := by
  have hplace : 2 * quarterTurn - phase = quarterTurn - offset := by omega
  rw [wave, if_pos (by omega), half, if_neg (by omega), hplace]

theorem wave_third (hphase : phase = 2 * quarterTurn + offset) :
    wave quarterTurn quarter phase = -quarter offset := by
  have hplace : phase - 2 * quarterTurn = offset := by omega
  rw [wave, if_neg (by omega), hplace, half, if_pos hoffset]

theorem wave_fourth (hphase : phase = 3 * quarterTurn + offset) :
    wave quarterTurn quarter phase = -quarter (quarterTurn - offset) := by
  have hplace : 2 * quarterTurn - (phase - 2 * quarterTurn) =
      quarterTurn - offset := by omega
  rw [wave, if_neg (by omega), half, if_neg (by omega), hplace]

end Quadrants

theorem half_zero (hzero : quarter 0 = 0) : half quarterTurn quarter 0 = 0 := by
  rw [half]
  split
  case isTrue => exact hzero
  case isFalse hempty =>
    obtain rfl : quarterTurn = 0 := by omega
    exact hzero

omit [AddGroup Value] in
/-- The first half is its own mirror image. -/
theorem half_reflect (hphase : phase ≤ 2 * quarterTurn) :
    half quarterTurn quarter (2 * quarterTurn - phase) =
      half quarterTurn quarter phase := by
  rw [half, half]
  obtain hlt | rfl | hgt := Nat.lt_trichotomy phase quarterTurn
  · rw [if_pos hlt, if_neg (by omega)]
    congr 1
    omega
  · have hmiddle : 2 * phase - phase = phase := by omega
    rw [hmiddle, hmiddle]
  · rw [if_pos (by omega), if_neg (by omega)]

/-- Half a turn on, the wave has the other sign. -/
theorem wave_add_half (hphase : phase < 4 * quarterTurn) :
    wave quarterTurn quarter ((phase + 2 * quarterTurn) % (4 * quarterTurn)) =
      -wave quarterTurn quarter phase := by
  by_cases hfirst : phase < 2 * quarterTurn
  · have hmod : (phase + 2 * quarterTurn) % (4 * quarterTurn) =
        phase + 2 * quarterTurn := Nat.mod_eq_of_lt (by omega)
    rw [hmod, wave, if_neg (by omega), Nat.add_sub_cancel, wave, if_pos hfirst]
  · have hmod : (phase + 2 * quarterTurn) % (4 * quarterTurn) =
        phase - 2 * quarterTurn := by
      rw [Nat.mod_eq_sub_mod (by omega), Nat.mod_eq_of_lt (by omega)]
      omega
    rw [hmod, wave, if_pos (by omega), wave, if_neg hfirst, neg_neg]

/-- The wave is the same at phases that add up to half a turn. -/
theorem wave_reflect (hzero : quarter 0 = 0) (hphase : phase < 4 * quarterTurn) :
    wave quarterTurn quarter
        ((6 * quarterTurn - phase) % (4 * quarterTurn)) =
      wave quarterTurn quarter phase := by
  obtain rfl | hpos := Nat.eq_zero_or_pos phase
  · have hmod : (6 * quarterTurn - 0) % (4 * quarterTurn) =
        2 * quarterTurn := by
      rw [Nat.mod_eq_sub_mod (by omega), Nat.mod_eq_of_lt (by omega)]
      omega
    rw [hmod, wave, if_neg (Nat.lt_irrefl _), Nat.sub_self, wave,
      if_pos (by omega), half_zero hzero, neg_zero]
  · by_cases hfirst : phase ≤ 2 * quarterTurn
    · have hmod : (6 * quarterTurn - phase) % (4 * quarterTurn) =
          2 * quarterTurn - phase := by
        rw [Nat.mod_eq_sub_mod (by omega), Nat.mod_eq_of_lt (by omega)]
        omega
      rw [hmod, wave, if_pos (by omega), half_reflect hfirst, wave]
      split
      case isTrue => rfl
      case isFalse hlast =>
        obtain rfl : phase = 2 * quarterTurn := by omega
        rw [← half_reflect (Nat.le_refl _), Nat.sub_self, half_zero hzero,
          neg_zero]
    · have hmod : (6 * quarterTurn - phase) % (4 * quarterTurn) =
          6 * quarterTurn - phase := Nat.mod_eq_of_lt (by omega)
      have hmirror : 6 * quarterTurn - phase - 2 * quarterTurn =
          2 * quarterTurn - (phase - 2 * quarterTurn) := by omega
      rw [hmod, wave, if_neg (by omega), hmirror, half_reflect (by omega), wave,
        if_neg (by omega)]

/-- What holds of the quarter and of negatives holds of the wave. -/
theorem wave_mem (Allowed : Value → Prop)
    (hneg : ∀ value, Allowed value → Allowed (-value))
    (hquarter : ∀ place ≤ quarterTurn, Allowed (quarter place))
    (hphase : phase < 4 * quarterTurn) :
    Allowed (wave quarterTurn quarter phase) := by
  have hhalf : ∀ place ≤ 2 * quarterTurn,
      Allowed (half quarterTurn quarter place) := by
    intro place hplace
    rw [half]
    split
    case isTrue hlt => exact hquarter place (Nat.le_of_lt hlt)
    case isFalse => exact hquarter _ (by omega)
  rw [wave]
  split
  case isTrue hfirst => exact hhalf phase (Nat.le_of_lt hfirst)
  case isFalse => exact hneg _ (hhalf _ (by omega))

end Rfsoc.QuarterWave
