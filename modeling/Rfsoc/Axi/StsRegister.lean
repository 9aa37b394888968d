import Rfsoc.Axi.CfgRegister

/-!
# The status register

`axi_sts_register` answers reads of `STS_DATA_WIDTH` status bits, a word of
`AXI_DATA_WIDTH` bits at a time.  The bits are an input that may change in every
cycle; a read returns the word as it stands in the cycle of its address.  The
width is 32 times the number of words, and an index past the last word, which
has no meaning in the source, reads zero.
-/

namespace Rfsoc.StsRegister

open Rfsoc.AddressWidth
open Rfsoc.CfgRegister (axiDataWidth addrLsb)
open Rfsoc.Clocked

/-- `STS_WIDTH`, the width of the address slice for `STS_SIZE` words. -/
def stsWidth (stsSize : ℕ) : ℕ :=
  if stsSize > 1 then clogb2 (stsSize - 1) else 1

variable {stsSize axiAddrWidth : ℕ}

structure State where
  intRvalidReg : Bool
  intRdataReg : BitVec axiDataWidth

structure Input (stsSize axiAddrWidth : ℕ) where
  aresetn : Bool
  stsData : BitVec (stsSize * axiDataWidth)
  sAxiAraddr : BitVec axiAddrWidth
  sAxiArvalid : Bool
  sAxiRready : Bool

def intDataMux (i : Input stsSize axiAddrWidth) (j : ℕ) :
    BitVec axiDataWidth :=
  i.stsData.extractLsb' (j * axiDataWidth) axiDataWidth

/-- The word that the address of this cycle selects. -/
def selected (i : Input stsSize axiAddrWidth) : BitVec axiDataWidth :=
  intDataMux i (i.sAxiAraddr.extractLsb' addrLsb (stsWidth stsSize)).toNat

def intRvalidNext (s : State) (i : Input stsSize axiAddrWidth) : Bool :=
  if i.sAxiArvalid then true
  else if i.sAxiRready && s.intRvalidReg then false
  else s.intRvalidReg

def intRdataNext (s : State) (i : Input stsSize axiAddrWidth) :
    BitVec axiDataWidth :=
  if i.sAxiArvalid then selected i else s.intRdataReg

def step (s : State) (i : Input stsSize axiAddrWidth) : State where
  intRvalidReg := if i.aresetn then intRvalidNext s i else false
  intRdataReg := if i.aresetn then intRdataNext s i else 0

def resetState : State where
  intRvalidReg := false
  intRdataReg := 0

theorem step_of_reset (s : State) (i : Input stsSize axiAddrWidth)
    (hreset : i.aresetn = false) : step s i = resetState := by
  simp [step, resetState, hreset]

def core (stsSize axiAddrWidth : ℕ) :
    Machine State (Input stsSize axiAddrWidth) :=
  ⟨resetState, step⟩

def sAxiArready : Bool := true

def sAxiRvalid (s : State) : Bool := s.intRvalidReg

def sAxiRdata (s : State) : BitVec axiDataWidth := s.intRdataReg

end Rfsoc.StsRegister
