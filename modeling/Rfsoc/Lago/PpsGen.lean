import Rfsoc.Core.Bits
import Rfsoc.Core.Signals

/-!
# The PPS source

`pps_gen` selects the pulse of the GPS receiver or one of its own, which is up
for a fifth of a second, and turns each rising edge of it into a pulse of one
cycle.  A counter tells the cycles since that pulse.  The reset clears the
second counter, the edge detector and the time counter, but not `false_pps`.
-/

namespace Rfsoc.PpsGen

open Rfsoc.Bits
open Rfsoc.Clocked
open Rfsoc.Signals

/-- `CLK_FREQ`. -/
def clkFreq : ℕ := 125000000

/-- `pps_st_t`. -/
inductive PpsSt where
  | zero
  | edge
  | one
deriving DecidableEq

structure State where
  oneSecCnt : BitVec 27
  clkCntPps : BitVec 27
  falsePps : Bool
  ppsStReg : PpsSt

structure Input where
  aresetn : Bool
  ppsI : Bool
  gpsenI : Bool

def pps (s : State) (i : Input) : Bool :=
  if i.gpsenI then s.falsePps else i.ppsI

/-- `pps_st_next`. -/
def ppsStNext (ppsStReg : PpsSt) (pps : Bool) : PpsSt :=
  match ppsStReg with
  | .zero => if pps then .edge else .zero
  | .edge => if pps then .one else .zero
  | .one => if pps then .one else .zero

/-- `one_clk_pps`. -/
def oneClkPps (s : State) : Bool := decide (s.ppsStReg = .edge)

def oneSecCntNext (s : State) : BitVec 27 :=
  if s.oneSecCnt.toNat = clkFreq - 1 then 0 else s.oneSecCnt + 1

/-- Up for 200 ms. -/
def falsePpsNext (s : State) : Bool := decide (s.oneSecCnt.toNat < clkFreq / 5)

def clkCntPpsNext (s : State) : BitVec 27 :=
  if oneClkPps s then 0 else s.clkCntPps + 1

/-- The registers after a reset, which leaves `false_pps` as it is. -/
def afterReset (falsePps : Bool) : State where
  oneSecCnt := 0
  clkCntPps := 0
  falsePps := falsePps
  ppsStReg := .zero

def step (s : State) (i : Input) : State :=
  if i.aresetn then
    { oneSecCnt := oneSecCntNext s
      clkCntPps := clkCntPpsNext s
      falsePps := falsePpsNext s
      ppsStReg := ppsStNext s.ppsStReg (pps s i) }
  else afterReset s.falsePps

/-- The core as a reset leaves it; it powers up so with `false_pps` down. -/
def core (falsePps : Bool) : Machine State Input :=
  ⟨afterReset falsePps, step⟩

def ppsO (s : State) : Bool := oneClkPps s

def clkCntPpsO (s : State) : BitVec 27 := s.clkCntPps

section Run

variable (falsePps : Bool) (input : ℕ → Input)

def stateAt (cycle : ℕ) : State := (core falsePps).stateAt input cycle

/-- The selected signal. -/
def ppsAt (cycle : ℕ) : Bool := pps (stateAt falsePps input cycle) (input cycle)

def pulseAt (cycle : ℕ) : Bool := ppsO (stateAt falsePps input cycle)

/-- The selected signal comes up. -/
def risesAt (cycle : ℕ) : Bool :=
  ppsAt falsePps input cycle && !delayed (ppsAt falsePps input) cycle

/-- One pulse for each rising edge, and the time since the latest one. -/
structure Detects (horizon : ℕ) : Prop where
  pulse : ∀ cycle ≤ horizon,
    pulseAt falsePps input cycle =
      (delayed (ppsAt falsePps input) cycle &&
        !delayed (delayed (ppsAt falsePps input)) cycle)
  single : ∀ cycle < horizon, pulseAt falsePps input cycle = true →
    pulseAt falsePps input (cycle + 1) = false
  perEdge : ∀ cycle ≤ horizon,
    highCycles (pulseAt falsePps input) (cycle + 1) =
      highCycles (risesAt falsePps input) cycle
  count : ∀ cycle ≤ horizon, ∀ latest < cycle,
    pulseAt falsePps input latest = true →
    (∀ between, latest < between → between < cycle →
      pulseAt falsePps input between = false) →
    (clkCntPpsO (stateAt falsePps input cycle)).toNat =
      (cycle - latest - 1) % 2 ^ 27
  countNone : ∀ cycle ≤ horizon,
    (∀ earlier < cycle, pulseAt falsePps input earlier = false) →
    (clkCntPpsO (stateAt falsePps input cycle)).toNat = cycle % 2 ^ 27

end Run

/-- The detector's state for the selected signal now and a cycle before. -/
def detected : Bool → Bool → PpsSt
  | false, _ => .zero
  | true, false => .edge
  | true, true => .one

theorem ppsStNext_detected (now before next : Bool) :
    ppsStNext (detected now before) next = detected next now := by
  cases now with
  | false => cases next <;> rfl
  | true => cases before <;> cases next <;> rfl

theorem detected_eq_edge_iff (now before : Bool) :
    decide (detected now before = .edge) = (now && !before) := by
  cases now <;> cases before <;> rfl

section Invariant

variable {falsePps : Bool} {input : ℕ → Input} {horizon : ℕ}
  (hrun : ∀ cycle < horizon, (input cycle).aresetn = true)
include hrun

theorem ppsStReg_eq : ∀ cycle ≤ horizon,
    (stateAt falsePps input cycle).ppsStReg =
      detected (delayed (ppsAt falsePps input) cycle)
        (delayed (delayed (ppsAt falsePps input)) cycle) := by
  apply upTo_induction
  · rfl
  · intro cycle hcycle ih
    rw [stateAt, Machine.stateAt_succ]
    change (step (stateAt falsePps input cycle) (input cycle)).ppsStReg = _
    rw [step, if_pos (hrun cycle hcycle)]
    change ppsStNext _ (ppsAt falsePps input cycle) = _
    rw [ih, ppsStNext_detected]
    rfl

theorem pulseAt_eq (cycle : ℕ) (hcycle : cycle ≤ horizon) :
    pulseAt falsePps input cycle =
      (delayed (ppsAt falsePps input) cycle &&
        !delayed (delayed (ppsAt falsePps input)) cycle) := by
  rw [pulseAt, ppsO, oneClkPps, ppsStReg_eq hrun cycle hcycle,
    detected_eq_edge_iff]

/-- A pulse is the rising edge one cycle later. -/
theorem pulseAt_succ (cycle : ℕ) (hcycle : cycle < horizon) :
    pulseAt falsePps input (cycle + 1) = risesAt falsePps input cycle := by
  rw [pulseAt_eq hrun (cycle + 1) hcycle, risesAt, delayed, delayed]

theorem clkCntPps_eq : ∀ cycle ≤ horizon,
    (stateAt falsePps input cycle).clkCntPps.toNat =
      cyclesSince (pulseAt falsePps input) cycle % 2 ^ 27 := by
  apply upTo_induction
  · rfl
  · intro cycle hcycle ih
    rw [stateAt, Machine.stateAt_succ]
    change (step (stateAt falsePps input cycle) (input cycle)).clkCntPps.toNat = _
    rw [step, if_pos (hrun cycle hcycle)]
    change (if pulseAt falsePps input cycle = true then _ else _ : BitVec 27).toNat = _
    rw [cyclesSince]
    split
    case isTrue => rfl
    case isFalse => exact toNat_add_one ih

end Invariant

/-- From reset `pps_o` is high one cycle after each rising edge of the selected
signal and in no other cycle, and `clk_cnt_pps_o` counts the cycles since. -/
theorem ppsGen_detects (falsePps : Bool) (input : ℕ → Input) (horizon : ℕ)
    (hrun : ∀ cycle < horizon, (input cycle).aresetn = true) :
    Detects falsePps input horizon where
  pulse := pulseAt_eq hrun
  single := by
    intro cycle hcycle hpulse
    rw [pulseAt_eq hrun cycle hcycle.le, Bool.and_eq_true] at hpulse
    rw [pulseAt_succ hrun cycle hcycle, risesAt, hpulse.1]
    exact Bool.and_false _
  perEdge := by
    apply upTo_induction
    · rfl
    · intro cycle hcycle ih
      rw [highCycles_succ, ih, pulseAt_succ hrun cycle hcycle, highCycles_succ]
  count := by
    intro cycle hcycle latest hlatest hpulse hbetween
    rw [clkCntPpsO, clkCntPps_eq hrun cycle hcycle,
      cyclesSince_of_latest hpulse hlatest hbetween]
  countNone := by
    intro cycle hcycle hnone
    rw [clkCntPpsO, clkCntPps_eq hrun cycle hcycle, cyclesSince_of_none hnone]

/-- A GPS pulse of five cycles in every eleven, and the internal one in every
third cycle. -/
def switchingRun (cycle : ℕ) : Input where
  aresetn := true
  ppsI := decide (cycle % 11 < 5)
  gpsenI := decide (cycle % 3 = 0)

theorem ppsGen_detects_switchingRun : Detects true switchingRun 1000 :=
  ppsGen_detects true switchingRun 1000 fun _ _ => rfl

end Rfsoc.PpsGen
