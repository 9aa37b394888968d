import Mathlib.Data.BitVec

/-!
# The interpolator

`axis_interpolator` keeps a word and offers it `cfg_data + 1` times.  It takes
the next word only when it holds none, so a cycle without an offer lies between
the copies of two words.
-/

namespace Rfsoc.Interpolator

variable {axisTdataWidth cntrWidth : ℕ}

structure State (axisTdataWidth cntrWidth : ℕ) where
  intTdataReg : BitVec axisTdataWidth
  intCntrReg : BitVec cntrWidth
  intTvalidReg : Bool

structure Input (axisTdataWidth : ℕ) where
  aresetn : Bool
  sAxisTdata : BitVec axisTdataWidth
  sAxisTvalid : Bool
  mAxisTready : Bool

/-- `int_cntr_reg < unsigned(cfg_data)` -/
def moreCopies (cfgData : BitVec cntrWidth)
    (s : State axisTdataWidth cntrWidth) : Bool :=
  decide (s.intCntrReg < cfgData)

def intTdataNext (s : State axisTdataWidth cntrWidth)
    (i : Input axisTdataWidth) : BitVec axisTdataWidth :=
  if i.sAxisTvalid && !s.intTvalidReg then i.sAxisTdata else s.intTdataReg

def intCntrNext (cfgData : BitVec cntrWidth)
    (s : State axisTdataWidth cntrWidth) (i : Input axisTdataWidth) :
    BitVec cntrWidth :=
  if i.mAxisTready && s.intTvalidReg && moreCopies cfgData s then
    s.intCntrReg + 1
  else if i.mAxisTready && s.intTvalidReg && !moreCopies cfgData s then 0
  else s.intCntrReg

def intTvalidNext (cfgData : BitVec cntrWidth)
    (s : State axisTdataWidth cntrWidth) (i : Input axisTdataWidth) : Bool :=
  if i.sAxisTvalid && !s.intTvalidReg then true
  else if i.mAxisTready && s.intTvalidReg && !moreCopies cfgData s then false
  else s.intTvalidReg

def resetState : State axisTdataWidth cntrWidth where
  intTdataReg := 0
  intCntrReg := 0
  intTvalidReg := false

def step (cfgData : BitVec cntrWidth) (s : State axisTdataWidth cntrWidth)
    (i : Input axisTdataWidth) : State axisTdataWidth cntrWidth :=
  if i.aresetn then
    { intTdataReg := intTdataNext s i
      intCntrReg := intCntrNext cfgData s i
      intTvalidReg := intTvalidNext cfgData s i }
  else resetState

def sAxisTready (s : State axisTdataWidth cntrWidth) : Bool := !s.intTvalidReg

def mAxisTdata (s : State axisTdataWidth cntrWidth) : BitVec axisTdataWidth :=
  s.intTdataReg

def mAxisTvalid (s : State axisTdataWidth cntrWidth) : Bool := s.intTvalidReg

section Step

variable {cfgData : BitVec cntrWidth} {s : State axisTdataWidth cntrWidth}
  {i : Input axisTdataWidth}

/-- Without a word the core takes what is on offer. -/
theorem step_empty (hrun : i.aresetn = true) (hvalid : s.intTvalidReg = false) :
    step cfgData s i =
      { intTdataReg := if i.sAxisTvalid then i.sAxisTdata else s.intTdataReg
        intCntrReg := s.intCntrReg
        intTvalidReg := i.sAxisTvalid } := by
  rw [step, if_pos hrun, intTdataNext, intCntrNext, intTvalidNext, hvalid]
  cases i.sAxisTvalid <;> simp

/-- With a word it counts the copies that are taken. -/
theorem step_full (hrun : i.aresetn = true) (hvalid : s.intTvalidReg = true) :
    step cfgData s i =
      { intTdataReg := s.intTdataReg
        intCntrReg :=
          if i.mAxisTready then
            if moreCopies cfgData s then s.intCntrReg + 1 else 0
          else s.intCntrReg
        intTvalidReg := !i.mAxisTready || moreCopies cfgData s } := by
  rw [step, if_pos hrun, intTdataNext, intCntrNext, intTvalidNext, hvalid]
  cases i.mAxisTready <;> cases moreCopies cfgData s <;> simp

end Step

end Rfsoc.Interpolator
