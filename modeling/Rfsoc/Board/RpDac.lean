import Rfsoc.Core.Clocked
import Mathlib.Data.BitVec

/-!
# The DAC interface

`axis_rp_dac` codes the two channels of a word for the DAC and puts both at
mid-scale in a cycle without a locked clock or a sample.  Its third register,
`int_rst_reg`, is written in the other branch only, with what is 0 there: it keeps
its power-up value until the first sample and is 0 from then on.
-/

namespace Rfsoc.RpDac

open Rfsoc.Clocked

variable {axisTdataWidth : ℕ}

structure State where
  intDatAReg : BitVec 14
  intDatBReg : BitVec 14
  intRstReg : Bool

structure Input (axisTdataWidth : ℕ) where
  locked : Bool
  sAxisTvalid : Bool
  sAxisTdata : BitVec axisTdataWidth

def intDatAWire (i : Input axisTdataWidth) : BitVec 14 :=
  i.sAxisTdata.extractLsb' 0 14

def intDatBWire (i : Input axisTdataWidth) : BitVec 14 :=
  i.sAxisTdata.extractLsb' (axisTdataWidth / 2) 14

/-- The DAC's code of a sample: the top bit and the others inverted. -/
def dacCode (sample : BitVec 14) : BitVec 14 :=
  sample.extractLsb' 13 1 ++ ~~~sample.extractLsb' 0 13

def step (s : State) (i : Input axisTdataWidth) : State :=
  if !i.locked || !i.sAxisTvalid then
    { s with
      intDatAReg := 0b01111111111111#14
      intDatBReg := 0b01111111111111#14 }
  else
    { intDatAReg := dacCode (intDatAWire i)
      intDatBReg := dacCode (intDatBWire i)
      intRstReg := !i.locked || !i.sAxisTvalid }

/-- The registers have no reset; they power up with anything. -/
def core (start : State) : Machine State (Input axisTdataWidth) := ⟨start, step⟩

def sAxisTready : Bool := true

/-- A cycle without a locked clock or without a sample. -/
def Muted (i : Input axisTdataWidth) : Prop :=
  i.locked = false ∨ i.sAxisTvalid = false

section Run

variable (start : State) (input : ℕ → Input axisTdataWidth)

def stateAt (cycle : ℕ) : State := (core start).stateAt input cycle

/-- Each cycle sets the three registers, whatever they were. -/
structure MutesTogether (horizon : ℕ) : Prop where
  muted : ∀ cycle < horizon, Muted (input cycle) →
    stateAt start input (cycle + 1) = ⟨dacCode 0, dacCode 0, true⟩
  playing : ∀ cycle < horizon, ¬ Muted (input cycle) →
    stateAt start input (cycle + 1) =
      ⟨dacCode (intDatAWire (input cycle)), dacCode (intDatBWire (input cycle)),
        false⟩

end Run

section Step

variable {s : State} {i : Input axisTdataWidth}

theorem muted_iff : Muted i ↔ (!i.locked || !i.sAxisTvalid) = true := by
  rw [Muted, Bool.or_eq_true, Bool.not_eq_true', Bool.not_eq_true']

/-- A muted cycle leaves the reset register out. -/
theorem step_muted (hmuted : Muted i) :
    step s i = ⟨dacCode 0, dacCode 0, s.intRstReg⟩ := by
  rw [step, if_pos (muted_iff.mp hmuted)]
  rfl

theorem step_playing (hplaying : ¬ Muted i) :
    step s i = ⟨dacCode (intDatAWire i), dacCode (intDatBWire i), false⟩ := by
  rw [muted_iff] at hplaying
  rw [step, if_neg hplaying, Bool.eq_false_of_not_eq_true hplaying]

end Step

section Invariant

variable {start : State} {input : ℕ → Input axisTdataWidth}

theorem stateAt_succ (cycle : ℕ) : stateAt start input (cycle + 1) =
    step (stateAt start input cycle) (input cycle) := rfl

/-- The reset register is 1 only as it powered up, before the first sample. -/
theorem intRstReg_iff (cycle : ℕ) :
    (stateAt start input cycle).intRstReg = true ↔
      start.intRstReg = true ∧ ∀ earlier < cycle, Muted (input earlier) := by
  induction cycle with
  | zero => simp [stateAt, core]
  | succ cycle ih =>
      rw [stateAt_succ, Nat.forall_lt_succ_right, ← and_assoc, ← ih]
      by_cases hmuted : Muted (input cycle)
      · rw [step_muted hmuted]
        exact (and_iff_left hmuted).symm
      · rw [step_playing hmuted]
        exact iff_of_false Bool.false_ne_true fun hboth => hmuted hboth.2

end Invariant

/-- The three registers mute together exactly when no cycle is muted, or when
`int_rst_reg` powers up as 1 and the muted cycles all come before the first
sample. -/
theorem rpDac_mutesTogether_iff (start : State)
    (input : ℕ → Input axisTdataWidth) (horizon : ℕ) :
    MutesTogether start input horizon ↔
      ∀ cycle < horizon, Muted (input cycle) →
        start.intRstReg = true ∧ ∀ earlier < cycle, Muted (input earlier) := by
  constructor
  · intro htogether cycle hcycle hmuted
    have hregisters := htogether.muted cycle hcycle hmuted
    rw [stateAt_succ, step_muted hmuted] at hregisters
    exact (intRstReg_iff cycle).mp (congrArg State.intRstReg hregisters)
  · intro hbefore
    constructor
    · intro cycle hcycle hmuted
      have hreset := (intRstReg_iff cycle).mpr (hbefore cycle hcycle hmuted)
      rw [stateAt_succ, step_muted hmuted, hreset]
    · intro cycle _ hplaying
      rw [stateAt_succ, step_playing hplaying]

/-- One sample, and then a clock that is not locked. -/
def unlockedRun (cycle : ℕ) : Input 32 where
  locked := decide (cycle = 0)
  sAxisTvalid := true
  sAxisTdata := 0x12341234#32

/-- The channels are muted in cycle 2 and the reset is not given. -/
theorem rpDac_not_mutesTogether_unlockedRun :
    ¬ MutesTogether ⟨0, 0, true⟩ unlockedRun 2 := by
  intro htogether
  have hregisters := htogether.muted 1 (by decide) (Or.inl rfl)
  exact absurd (congrArg State.intRstReg hregisters) (by decide)

end Rfsoc.RpDac
