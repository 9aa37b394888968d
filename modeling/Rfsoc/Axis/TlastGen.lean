import Rfsoc.Core.Bits
import Rfsoc.Core.Framing
import Mathlib.Data.BitVec

/-!
# The last-flag generator

`axis_tlast_gen` wires its two streams together and counts the beats that pass.
The beat that finds the counter at `pkt_length - 1` carries `m_axis_tlast` and
clears the counter.
-/

namespace Rfsoc.TlastGen

open Rfsoc.Bits
open Rfsoc.Clocked
open Rfsoc.Framing

variable {pktCntrBits : ℕ} {Data : Type*}

structure State (pktCntrBits : ℕ) where
  cnt : BitVec pktCntrBits

structure Input (Data : Type*) where
  aresetn : Bool
  sAxisTdata : Data
  sAxisTvalid : Bool
  mAxisTready : Bool

def sAxisTready (i : Input Data) : Bool := i.mAxisTready

def mAxisTvalid (i : Input Data) : Bool := i.sAxisTvalid

def mAxisTdata (i : Input Data) : Data := i.sAxisTdata

def newSample (i : Input Data) : Bool := i.sAxisTvalid && i.mAxisTready

def axisTlast (pktLength : BitVec pktCntrBits) (s : State pktCntrBits) : Bool :=
  s.cnt == pktLength - 1

def mAxisTlast (pktLength : BitVec pktCntrBits) (s : State pktCntrBits) : Bool :=
  axisTlast pktLength s

def resetState : State pktCntrBits where
  cnt := 0

def step (pktLength : BitVec pktCntrBits) (s : State pktCntrBits)
    (i : Input Data) : State pktCntrBits :=
  if !i.aresetn || (axisTlast pktLength s && newSample i) then { cnt := 0 }
  else if newSample i then { cnt := s.cnt + 1 }
  else s

/-- The core with a constant `pkt_length`, from reset. -/
def core (pktLength : BitVec pktCntrBits) :
    Machine (State pktCntrBits) (Input Data) where
  start := resetState
  step := step pktLength

/-- The core between its two streams. -/
def stage (Data : Type*) (pktLength : BitVec pktCntrBits) :
    Stage (State pktCntrBits) (Input Data) Data where
  toMachine := core pktLength
  inData := fun i => i.sAxisTdata
  inValid := fun i => i.sAxisTvalid
  inReady := fun _ i => sAxisTready i
  outData := fun _ i => mAxisTdata i
  outValid := fun _ i => mAxisTvalid i
  outReady := fun i => i.mAxisTready
  outLast := mAxisTlast pktLength

/-- The counter shows the position of the next beat. -/
def CountsTo (packet : ℕ) (s : State pktCntrBits) (position : ℕ) : Prop :=
  s.cnt.toNat = position ∧ position < packet

section Step

variable {pktLength : BitVec pktCntrBits} {s : State pktCntrBits}
  {position : ℕ}

/-- Out of reset the counter moves on a beat. -/
theorem step_run {i : Input Data} (hrun : i.aresetn = true) :
    step pktLength s i =
      { cnt :=
          if newSample i then
            if axisTlast pktLength s then 0 else s.cnt + 1
          else s.cnt } := by
  rw [step, hrun]
  cases newSample i <;> cases axisTlast pktLength s <;> rfl

theorem toNat_pktLength_sub_one (hlength : 0 < pktLength.toNat) :
    (pktLength - 1).toNat = pktLength.toNat - 1 := by
  have hlt := pktLength.isLt
  have hone : (1 : BitVec pktCntrBits).toNat = 1 := by
    change (BitVec.ofNat pktCntrBits 1).toNat = 1
    rw [BitVec.toNat_ofNat, Nat.mod_eq_of_lt (by omega)]
  rw [BitVec.toNat_sub_of_le, hone]
  rw [BitVec.le_def, hone]
  exact hlength

theorem axisTlast_eq (hlength : 0 < pktLength.toNat)
    (hcounts : CountsTo pktLength.toNat s position) :
    axisTlast pktLength s = decide (position + 1 = pktLength.toNat) := by
  rw [axisTlast, Bool.eq_iff_iff, beq_iff_eq, decide_eq_true_iff,
    BitVec.toNat_eq, toNat_pktLength_sub_one hlength, hcounts.1]
  omega

theorem countsTo_step (hlength : 0 < pktLength.toNat) {i : Input Data}
    (hrun : i.aresetn = true) (hcounts : CountsTo pktLength.toNat s position) :
    CountsTo pktLength.toNat (step pktLength s i)
      (nextPosition pktLength.toNat (newSample i) position) := by
  obtain ⟨hcnt, hroom⟩ := hcounts
  rw [step_run hrun, axisTlast_eq hlength ⟨hcnt, hroom⟩, nextPosition]
  cases newSample i with
  | false => exact ⟨hcnt, hroom⟩
  | true =>
      by_cases hlast : position + 1 = pktLength.toNat
      · simpa [hlast, CountsTo] using hlength
      · have hmore : position + 1 < pktLength.toNat := by omega
        have hnext : (s.cnt + 1).toNat = position + 1 :=
          toNat_succ_of_lt hcnt (hmore.trans pktLength.isLt)
        simp only [hlast, CountsTo, hnext, decide_false, if_true,
          Bool.false_eq_true, if_false, true_and]
        exact hmore

end Step

theorem showsPosition (Data : Type*) (pktLength : BitVec pktCntrBits)
    (hlength : 0 < pktLength.toNat) :
    ShowsPosition (stage Data pktLength) pktLength.toNat
      (fun i => i.aresetn = true) (CountsTo pktLength.toNat) where
  start := ⟨BitVec.toNat_zero, hlength⟩
  slave := fun _ _ => rfl
  data := fun _ _ => rfl
  step := fun _ _ _ => countsTo_step hlength
  last := fun _ _ => axisTlast_eq hlength

end Rfsoc.TlastGen
