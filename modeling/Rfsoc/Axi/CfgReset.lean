import Rfsoc.Axi.CfgRegister

/-!
# Writes around reset

The handshake and `int_bvalid_reg` of the configuration register follow
`aresetn` itself; its flip-flops are cleared by `reset_s`, which follows one
cycle later, and in an `FDRE` the reset comes before the enable.  A write taken
in the first cycle after reset is therefore answered and dropped.
-/

namespace Rfsoc.CfgRegister

open Rfsoc.Clocked

variable {cfgSize axiAddrWidth : ℕ}

/-- Address and data of a write are both handed over. -/
def WriteAccepted (i : Input axiAddrWidth) : Prop :=
  i.sAxiAwvalid = true ∧ i.sAxiWvalid = true ∧ sAxiWready i = true

/-- The words after an edge are those before it with the strobed bytes of the
write put in. -/
structure Applied (before after : State cfgSize) (i : Input axiAddrWidth) :
    Prop where
  written : ∀ word < cfgSize, ∀ lane < 4, WritesLane cfgSize i word lane →
    byteLane (cfgWord after word) lane = byteLane i.sAxiWdata lane
  kept : ∀ word < cfgSize, ∀ lane < 4, ¬ WritesLane cfgSize i word lane →
    byteLane (cfgWord after word) lane = byteLane (cfgWord before word) lane

/-- `aresetn` is low for at least two cycles and then high up to a horizon. -/
structure ResetThenRun (input : ℕ → Input axiAddrWidth)
    (released horizon : ℕ) : Prop where
  long : 2 ≤ released
  held : ∀ cycle < released, (input cycle).aresetn = false
  run : ∀ cycle < horizon, released ≤ cycle → (input cycle).aresetn = true

/-- Every write accepted out of reset is applied in the next cycle and raises
`s_axi_bvalid`. -/
def WritesHonoured (initial : State cfgSize) (input : ℕ → Input axiAddrWidth)
    (released horizon : ℕ) : Prop :=
  ∀ cycle < horizon, released ≤ cycle → WriteAccepted (input cycle) →
    Applied ((core initial).stateAt input cycle)
        ((core initial).stateAt input (cycle + 1)) (input cycle) ∧
      sAxiBvalid ((core initial).stateAt input (cycle + 1)) = true

/-- A write that puts nothing but zero bytes into the existing words. -/
def WritesOnlyZeros (cfgSize : ℕ) (i : Input axiAddrWidth) : Prop :=
  ∀ word < cfgSize, ∀ lane < 4, WritesLane cfgSize i word lane →
    byteLane i.sAxiWdata lane = 0

section Step

variable {s : State cfgSize} {i : Input axiAddrWidth}

theorem step_of_resetS (hreset : s.resetS = true) :
    (step s i).intDataWire = 0 := by
  apply BitVec.eq_of_getLsbD_eq
  intro bit _
  change (intDataNext s i).getLsbD bit = _
  rw [intDataNext, Bits.getLsbD_generateBits, fdre, if_pos hreset]
  simp

theorem byteLane_of_cleared (hcleared : s.intDataWire = 0) (word lane : ℕ) :
    byteLane (cfgWord s word) lane = 0 := by
  simp [byteLane, cfgWord, cfgData, hcleared]

theorem applied_step (hreset : s.resetS = false) : Applied s (step s i) i where
  written := fun _ hword _ hlane hwrites =>
    byteLane_step_of_writes hreset hword hlane hwrites
  kept := fun _ hword _ hlane hkeeps =>
    byteLane_step_of_not_writes hreset hword hlane hkeeps

/-- In the cycle after reset only the bytes that are zero anyway arrive. -/
theorem applied_step_iff_of_resetS (hreset : s.resetS = true)
    (hcleared : s.intDataWire = 0) :
    Applied s (step s i) i ↔ WritesOnlyZeros cfgSize i := by
  have hafter := byteLane_of_cleared (step_of_resetS (i := i) hreset)
  constructor
  · intro happlied word hword lane hlane hwrites
    exact (happlied.written word hword lane hlane hwrites).symm.trans
      (hafter word lane)
  · intro hzeros
    constructor
    · intro word hword lane hlane hwrites
      rw [hafter, hzeros word hword lane hlane hwrites]
    · intro word _ lane _ _
      rw [hafter, byteLane_of_cleared hcleared]

theorem sAxiBvalid_step (hrun : i.aresetn = true)
    (haccepted : WriteAccepted i) : sAxiBvalid (step s i) = true := by
  simp [sAxiBvalid, step, hrun, intBvalidNext, intWvalidWire, haccepted.1,
    haccepted.2.1]

end Step

section Run

variable {initial : State cfgSize} {input : ℕ → Input axiAddrWidth}
  {released horizon : ℕ}

theorem resetS_succ (cycle : ℕ) :
    ((core initial).stateAt input (cycle + 1)).resetS =
      !(input cycle).aresetn := rfl

/-- From the second edge of the reset to the first after it `cfg_data` is
clear. -/
theorem cleared_stateAt (hreset : ResetThenRun input released horizon)
    {cycle : ℕ} (hlow : 2 ≤ cycle) (hhigh : cycle ≤ released + 1) :
    ((core initial).stateAt input cycle).intDataWire = 0 := by
  obtain ⟨before, rfl⟩ := Nat.exists_eq_add_of_le' hlow
  apply step_of_resetS
  rw [resetS_succ, hreset.held before (by omega)]
  rfl

end Run

/-- Writes accepted after reset are honoured exactly when none that carries a
nonzero byte for an existing word is accepted in the first cycle. -/
theorem cfgRegister_writesHonoured_iff (initial : State cfgSize)
    (input : ℕ → Input axiAddrWidth) (released horizon : ℕ)
    (hreset : ResetThenRun input released horizon) :
    WritesHonoured initial input released horizon ↔
      (released < horizon → WriteAccepted (input released) →
        WritesOnlyZeros cfgSize (input released)) := by
  have hlong := hreset.long
  have hfirst : Applied ((core initial).stateAt input released)
      ((core initial).stateAt input (released + 1)) (input released) ↔
        WritesOnlyZeros cfgSize (input released) := by
    apply applied_step_iff_of_resetS
    · obtain ⟨last, rfl⟩ := Nat.exists_eq_add_of_lt hlong
      exact (resetS_succ _).trans (by rw [hreset.held _ (by omega)]; rfl)
    · exact cleared_stateAt hreset hlong (by omega)
  constructor
  · intro hhonoured hlt haccepted
    exact hfirst.mp (hhonoured released hlt le_rfl haccepted).1
  · intro hzeros cycle hcycle hle haccepted
    refine ⟨?_, sAxiBvalid_step (hreset.run cycle hcycle hle) haccepted⟩
    cases hle.eq_or_lt with
    | inl heq =>
        subst heq
        exact hfirst.mpr (hzeros hcycle haccepted)
    | inr hlt =>
        -- the cycle before was already out of reset
        obtain ⟨before, rfl⟩ := Nat.exists_eq_add_of_lt hlt
        apply applied_step
        exact (resetS_succ _).trans
          (by rw [hreset.run _ (by omega) (by omega)]; rfl)

/-- One word of unknown contents. -/
def unknownWord : State 1 where
  resetS := false
  intBvalidReg := false
  intRvalidReg := false
  intRdataReg := 0
  intDataWire := 0xAAAAAAAA#32

/-- Two cycles of reset, and then the value 1 is written to word 0 in the
cycles given by `writing`. -/
def resetRun (writing : ℕ → Bool) (cycle : ℕ) : Input 32 where
  aresetn := decide (2 ≤ cycle)
  sAxiAwaddr := 0#32
  sAxiAwvalid := writing cycle
  sAxiWdata := 1#32
  sAxiWstrb := 0b1111#4
  sAxiWvalid := writing cycle
  sAxiBready := true
  sAxiAraddr := 0#32
  sAxiArvalid := false
  sAxiRready := true

theorem resetThenRun_resetRun (writing : ℕ → Bool) (horizon : ℕ) :
    ResetThenRun (resetRun writing) 2 horizon where
  long := le_rfl
  held := fun cycle hcycle => decide_eq_false (by omega)
  run := fun cycle _ hle => decide_eq_true hle

theorem cfgRegister_writesHonoured_iff_secondCycle :
    WritesHonoured unknownWord (resetRun fun cycle => decide (3 ≤ cycle)) 2 8 ↔
      (2 < 8 → WriteAccepted (resetRun (fun cycle => decide (3 ≤ cycle)) 2) →
        WritesOnlyZeros 1 (resetRun (fun cycle => decide (3 ≤ cycle)) 2)) :=
  cfgRegister_writesHonoured_iff unknownWord _ 2 8 (resetThenRun_resetRun _ 8)

/-- A write in the first cycle after reset is answered and has no effect. -/
theorem cfgRegister_writeDropped_firstCycle :
    WriteAccepted (resetRun (fun cycle => decide (2 ≤ cycle)) 2) ∧
      sAxiBvalid ((core unknownWord).stateAt
        (resetRun fun cycle => decide (2 ≤ cycle)) 3) = true ∧
      cfgData ((core unknownWord).stateAt
        (resetRun fun cycle => decide (2 ≤ cycle)) 3) = 0 ∧
      ¬ WritesHonoured unknownWord (resetRun fun cycle => decide (2 ≤ cycle))
        2 3 := by
  refine ⟨⟨rfl, rfl, rfl⟩, by decide, by decide +kernel, ?_⟩
  intro hhonoured
  have hwritten := (hhonoured 2 (by decide) le_rfl ⟨rfl, rfl, rfl⟩).1.written 0
    (by decide) 0 (by decide) ⟨⟨rfl, rfl⟩, by decide +kernel, by decide⟩
  revert hwritten
  decide +kernel

end Rfsoc.CfgRegister
