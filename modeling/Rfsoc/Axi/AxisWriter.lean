import Rfsoc.Core.Clocked
import Mathlib.Data.BitVec

/-!
# The stream writer

`axi_axis_writer` turns every AXI write into one stream word.  The address and
the data channel are always ready and independent of each other, the stream side
has no ready signal, and one flag announces write responses.
-/

namespace Rfsoc.AxisWriter

open Rfsoc.Clocked

variable {axiDataWidth axiAddrWidth : ℕ}

structure State where
  intValidReg : Bool

structure Input (axiDataWidth axiAddrWidth : ℕ) where
  aresetn : Bool
  sAxiAwaddr : BitVec axiAddrWidth
  sAxiAwvalid : Bool
  sAxiWdata : BitVec axiDataWidth
  sAxiWvalid : Bool
  sAxiBready : Bool

def intValidNext (s : State) (i : Input axiDataWidth axiAddrWidth) : Bool :=
  if i.sAxiWvalid then true
  else if i.sAxiBready && s.intValidReg then false
  else s.intValidReg

def step (s : State) (i : Input axiDataWidth axiAddrWidth) : State where
  intValidReg := if i.aresetn then intValidNext s i else false

def resetState : State where
  intValidReg := false

theorem step_of_reset (s : State) (i : Input axiDataWidth axiAddrWidth)
    (hreset : i.aresetn = false) : step s i = resetState := by
  simp [step, resetState, hreset]

def core (axiDataWidth axiAddrWidth : ℕ) :
    Machine State (Input axiDataWidth axiAddrWidth) :=
  ⟨resetState, step⟩

def sAxiAwready : Bool := true

def sAxiWready : Bool := true

def sAxiBvalid (s : State) : Bool := s.intValidReg

def mAxisTdata (i : Input axiDataWidth axiAddrWidth) : BitVec axiDataWidth :=
  i.sAxiWdata

def mAxisTvalid (i : Input axiDataWidth axiAddrWidth) : Bool := i.sAxiWvalid

end Rfsoc.AxisWriter
