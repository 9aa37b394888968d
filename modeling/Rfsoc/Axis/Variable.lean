import Rfsoc.Core.Clocked
import Mathlib.Data.BitVec

/-!
# The variable

`axis_variable` offers the value of `cfg_data` whenever it changes.  Its register
follows `cfg_data` in every cycle, also under an offer that waits, and the offer
goes on as long as values keep changing; what the consumer has when the channel
is quiet is the newest value.
-/

namespace Rfsoc.Variable

open Rfsoc.Clocked

variable {axisTdataWidth : ℕ}

structure State (axisTdataWidth : ℕ) where
  intTdataReg : BitVec axisTdataWidth
  intTvalidReg : Bool

structure Input (axisTdataWidth : ℕ) where
  aresetn : Bool
  cfgData : BitVec axisTdataWidth
  mAxisTready : Bool

def intTvalidNext (s : State axisTdataWidth) (i : Input axisTdataWidth) : Bool :=
  if s.intTdataReg ≠ i.cfgData then true
  else if i.mAxisTready && s.intTvalidReg then false
  else s.intTvalidReg

def resetState : State axisTdataWidth where
  intTdataReg := 0
  intTvalidReg := false

def step (s : State axisTdataWidth) (i : Input axisTdataWidth) :
    State axisTdataWidth :=
  if i.aresetn then
    { intTdataReg := i.cfgData
      intTvalidReg := intTvalidNext s i }
  else resetState

def core : Machine (State axisTdataWidth) (Input axisTdataWidth) :=
  ⟨resetState, step⟩

def mAxisTdata (s : State axisTdataWidth) : BitVec axisTdataWidth :=
  s.intTdataReg

def mAxisTvalid (s : State axisTdataWidth) : Bool := s.intTvalidReg

def transferredWord (s : State axisTdataWidth) (i : Input axisTdataWidth) :
    List (BitVec axisTdataWidth) :=
  if mAxisTvalid s && i.mAxisTready then [mAxisTdata s] else []

section Run

variable (input : ℕ → Input axisTdataWidth)

def stateAt (cycle : ℕ) : State axisTdataWidth := core.stateAt input cycle

/-- The word the consumer has got last, zero before the first. -/
def lastTransferred (cycle : ℕ) : BitVec axisTdataWidth :=
  (core.log input transferredWord cycle).getLastD 0

/-- A quiet channel has delivered the newest value. -/
structure Delivers (horizon : ℕ) : Prop where
  last : ∀ cycle ≤ horizon, mAxisTvalid (stateAt input cycle) = false →
    lastTransferred input cycle = mAxisTdata (stateAt input cycle)
  newest : ∀ cycle < horizon, mAxisTvalid (stateAt input (cycle + 1)) = false →
    mAxisTdata (stateAt input (cycle + 1)) = (input cycle).cfgData
  /-- Between a change and a quiet cycle the newest value is transferred. -/
  followed : ∀ quiet < horizon, ∀ change ≤ quiet,
    (input change).cfgData ≠ mAxisTdata (stateAt input change) →
    mAxisTvalid (stateAt input (quiet + 1)) = false →
    ∃ cycle, change < cycle ∧ cycle ≤ quiet ∧
      transferredWord (stateAt input cycle) (input cycle) =
        [(input quiet).cfgData]

end Run

section Step

variable {s : State axisTdataWidth} {i : Input axisTdataWidth}

/-- The channel is quiet in the next cycle when the value is the one that is
offered and taken, or when it was quiet before. -/
theorem quiet_step (hrun : i.aresetn = true)
    (hquiet : mAxisTvalid (step s i) = false) :
    i.cfgData = mAxisTdata s ∧
      (transferredWord s i = [mAxisTdata s] ∨
        mAxisTvalid s = false ∧ transferredWord s i = []) := by
  rw [mAxisTvalid, step, if_pos hrun] at hquiet
  change intTvalidNext s i = false at hquiet
  rw [intTvalidNext] at hquiet
  split at hquiet
  case isTrue => exact absurd hquiet.symm Bool.false_ne_true
  case isFalse hsame =>
    refine ⟨(not_not.mp hsame).symm, ?_⟩
    rw [transferredWord, Bool.and_comm]
    split at hquiet
    case isTrue htaken =>
      left
      exact if_pos htaken
    case isFalse hkept =>
      right
      exact ⟨hquiet, if_neg hkept⟩

theorem mAxisTdata_step (hrun : i.aresetn = true) :
    mAxisTdata (step s i) = i.cfgData := by
  rw [mAxisTdata, step, if_pos hrun]

/-- A change of the value is offered. -/
theorem mAxisTvalid_of_change (hrun : i.aresetn = true)
    (hchange : i.cfgData ≠ mAxisTdata s) : mAxisTvalid (step s i) = true := by
  by_contra hquiet
  exact hchange (quiet_step hrun (Bool.eq_false_iff.mpr hquiet)).1

end Step

section Invariant

variable {input : ℕ → Input axisTdataWidth} {horizon : ℕ}
  (hrun : ∀ cycle < horizon, (input cycle).aresetn = true)
include hrun

theorem lastTransferred_of_quiet : ∀ cycle ≤ horizon,
    mAxisTvalid (stateAt input cycle) = false →
      lastTransferred input cycle = mAxisTdata (stateAt input cycle) := by
  apply upTo_induction
  · exact fun _ => rfl
  · intro cycle hcycle ih hquiet
    obtain ⟨hsame, hcases⟩ := quiet_step (hrun cycle hcycle) hquiet
    rw [lastTransferred, Machine.log_succ]
    change _ = mAxisTdata (step (core.stateAt input cycle) (input cycle))
    rw [mAxisTdata_step (hrun cycle hcycle), hsame]
    obtain htaken | ⟨hbefore, hnone⟩ := hcases
    · rw [htaken, List.getLastD_concat]
    · rw [hnone, List.append_nil]
      exact ih hbefore

/-- From a change on, the channel offers a value or has handed over the one
that it holds. -/
theorem offered_or_taken {change : ℕ} (hhorizon : change < horizon)
    (hchange : (input change).cfgData ≠ mAxisTdata (stateAt input change)) :
    ∀ cycle, change + 1 ≤ cycle → cycle ≤ horizon →
      mAxisTvalid (stateAt input cycle) = true ∨
        ∃ earlier, change < earlier ∧ earlier < cycle ∧
          transferredWord (stateAt input earlier) (input earlier) =
            [mAxisTdata (stateAt input cycle)] := by
  intro cycle hfirst
  induction cycle, hfirst using Nat.le_induction with
  | base =>
      intro _
      left
      exact mAxisTvalid_of_change (hrun change hhorizon) hchange
  | succ cycle hfirst ih =>
      intro hcycle
      cases hquiet : mAxisTvalid (stateAt input (cycle + 1)) with
      | true => exact Or.inl rfl
      | false =>
          right
          obtain ⟨hsame, hcases⟩ := quiet_step (hrun cycle hcycle) hquiet
          have hdata : mAxisTdata (stateAt input (cycle + 1)) =
              mAxisTdata (stateAt input cycle) :=
            (mAxisTdata_step (hrun cycle hcycle)).trans hsame
          rw [hdata]
          obtain htaken | ⟨hbefore, -⟩ := hcases
          · exact ⟨cycle, hfirst, Nat.lt_succ_self cycle, htaken⟩
          · obtain hoffered | ⟨earlier, hafter, hlt, hword⟩ := ih (by omega)
            · exact absurd (hbefore.symm.trans hoffered) Bool.false_ne_true
            · exact ⟨earlier, hafter, Nat.lt_succ_of_lt hlt, hword⟩

end Invariant

/-- Whatever the values and the stalls, the consumer of a quiet channel has the
newest value, and every change is followed by a transfer of it. -/
theorem variable_delivers (input : ℕ → Input axisTdataWidth) (horizon : ℕ)
    (hrun : ∀ cycle < horizon, (input cycle).aresetn = true) :
    Delivers input horizon where
  last := lastTransferred_of_quiet hrun
  newest := fun cycle hcycle _ => mAxisTdata_step (hrun cycle hcycle)
  followed := by
    intro quiet hquiet change hchange hdiffers hvalid
    have hdata : mAxisTdata (stateAt input (quiet + 1)) =
        (input quiet).cfgData := mAxisTdata_step (hrun quiet hquiet)
    obtain hoffered | ⟨cycle, hafter, hlt, hword⟩ :=
      offered_or_taken hrun (by omega) hdiffers (quiet + 1) (by omega) hquiet
    · exact absurd (hvalid.symm.trans hoffered) Bool.false_ne_true
    · rw [hdata] at hword
      exact ⟨cycle, hafter, Nat.le_of_lt_succ hlt, hword⟩

/-- A value that changes in cycles 3 and 4 and goes back, and a consumer that
takes in every third cycle. -/
def returningRun (cycle : ℕ) : Input 8 where
  aresetn := true
  cfgData := if cycle = 3 then 7 else 5
  mAxisTready := decide (cycle % 3 = 0)

theorem variable_delivers_returningRun : Delivers returningRun 20 :=
  variable_delivers returningRun 20 fun _ _ => rfl

example : core.log returningRun transferredWord 20 = [5#8, 5#8] := by
  decide +kernel

end Rfsoc.Variable
