import Rfsoc.Lago.Capture
import Mathlib.Algebra.BigOperators.Fin

/-!
# The charge registers

`charge_next` adds `adc_dat_reg'left` and subtracts `adc_dat_reg'right`.  These
attributes are the index bounds of the array, 11 and 0, and not the samples at
its two ends, so the charge counts cycles in steps of eleven whatever the
samples are.
-/

namespace Rfsoc.LagoTrigger

open Rfsoc.Clocked
open Rfsoc.Window

/-- The sum of all places of an array but the newest. -/
def windowSum (array : Fin dataArrayLength → Sample) : ℕ :=
  ∑ k : Fin (dataArrayLength - 1),
    (array ⟨k.val, Nat.lt_succ_of_lt k.isLt⟩).toNat

/-- A charge register follows the moving sum of its array up to a horizon. -/
def MovingSum (charge : State → BitVec 14)
    (array : State → Fin dataArrayLength → Sample) (input : ℕ → Input)
    (horizon : ℕ) : Prop :=
  ∀ cycle ≤ horizon, (charge (core.stateAt input cycle)).toNat =
    windowSum (array (core.stateAt input cycle)) % 2 ^ 14

section Run

variable {input : ℕ → Input} {horizon : ℕ}

/-- Both charges count the cycles since reset, eleven at a time. -/
theorem charge_eq (hrun : ∀ cycle < horizon, (input cycle).aresetn = true) :
    ∀ cycle ≤ horizon,
      (core.stateAt input cycle).charge1Reg = BitVec.ofNat 14 (11 * cycle) ∧
        (core.stateAt input cycle).charge2Reg =
          BitVec.ofNat 14 (11 * cycle) := by
  have hstep : ∀ cycle : ℕ, chargeNext (BitVec.ofNat 14 (11 * cycle)) =
      BitVec.ofNat 14 (11 * (cycle + 1)) := by
    intro cycle
    rw [chargeNext, BitVec.sub_zero, Nat.mul_succ, BitVec.ofNat_add]
  refine upTo_induction horizon ⟨rfl, rfl⟩ ?_
  rintro cycle hcycle ⟨hfirst, hsecond⟩
  rw [stateAt_succ_of_run (hrun cycle hcycle), hfirst, hsecond]
  exact ⟨hstep cycle, hstep cycle⟩

/-- After one cycle only the newest place of an array has been reached. -/
theorem windowSum_one (channel : Input → Sample) :
    windowSum (latest 0 (presented channel input 1)) = 0 := by
  apply Finset.sum_eq_zero
  intro k _
  rw [latest_of_length_le]
  · rfl
  · have := k.isLt
    simp only [presented, List.length_map, List.length_range, dataArrayLength]
      at this ⊢
    omega

end Run

/-- No run out of reset keeps either charge at the moving sum: the charges are
eleven after the first cycle, and the sums are still zero. -/
theorem lagoTrigger_not_movingSum (input : ℕ → Input) (horizon : ℕ)
    (hlong : 0 < horizon)
    (hrun : ∀ cycle < horizon, (input cycle).aresetn = true) :
    ¬ MovingSum State.charge1Reg State.adcDatAReg input horizon ∧
      ¬ MovingSum State.charge2Reg State.adcDatBReg input horizon := by
  obtain ⟨hfirst, hsecond⟩ := charge_eq hrun 1 hlong
  obtain ⟨hA, hB⟩ := adcDat_eq hrun 1 hlong
  constructor
  · intro hsum
    have hone := hsum 1 hlong
    rw [hfirst, hA, windowSum_one] at hone
    exact absurd hone (by decide)
  · intro hsum
    have hone := hsum 1 hlong
    rw [hsecond, hB, windowSum_one] at hone
    exact absurd hone (by decide)

/-- No pulse, no trigger, and samples that are all zero. -/
def quietRun (cycle : ℕ) : Input :=
  { patientRun cycle with ppsI := false, mAxisTready := true }

theorem lagoTrigger_not_movingSum_quietRun :
    ¬ MovingSum State.charge1Reg State.adcDatAReg quietRun 20 ∧
      ¬ MovingSum State.charge2Reg State.adcDatBReg quietRun 20 :=
  lagoTrigger_not_movingSum quietRun 20 (by decide) (by decide)

/-- With nothing but zero samples since reset the charge is not zero. -/
theorem lagoTrigger_charge_quietRun :
    (∀ cycle < 20, (quietRun cycle).sAxisTdata = 0) ∧
      (core.stateAt quietRun 20).charge1Reg = 220#14 ∧
      ¬ MovingSum State.charge1Reg State.adcDatAReg quietRun 20 := by
  refine ⟨by decide, by decide +kernel, ?_⟩
  intro hsum
  have hlast := hsum 20 le_rfl
  revert hlast
  decide +kernel

end Rfsoc.LagoTrigger
