import Mathlib.Data.BitVec

/-!
# The decimator

`axis_decimator` counts the words of its slave stream and keeps every
`cfg_data + 1`st for its master stream.  It opens its slave stream one cycle
after reset and leaves it open, whether or not the kept word has been taken.
-/

namespace Rfsoc.Decimator

variable {axisTdataWidth cntrWidth : ℕ}

structure State (axisTdataWidth cntrWidth : ℕ) where
  intTdataReg : BitVec axisTdataWidth
  intCntrReg : BitVec cntrWidth
  intTvalidReg : Bool
  intTreadyReg : Bool

structure Input (axisTdataWidth : ℕ) where
  aresetn : Bool
  sAxisTdata : BitVec axisTdataWidth
  sAxisTvalid : Bool
  mAxisTready : Bool

def intCompWire (cfgData : BitVec cntrWidth)
    (s : State axisTdataWidth cntrWidth) : Bool :=
  decide (s.intCntrReg < cfgData)

def intTvalidWire (s : State axisTdataWidth cntrWidth)
    (i : Input axisTdataWidth) : Bool :=
  s.intTreadyReg && i.sAxisTvalid

def intTreadyNext (cfgData : BitVec cntrWidth)
    (s : State axisTdataWidth cntrWidth) : Bool :=
  if !s.intTreadyReg && intCompWire cfgData s then true else s.intTreadyReg

def intCntrNext (cfgData : BitVec cntrWidth)
    (s : State axisTdataWidth cntrWidth) (i : Input axisTdataWidth) :
    BitVec cntrWidth :=
  if intTvalidWire s i && intCompWire cfgData s then s.intCntrReg + 1
  else if intTvalidWire s i && !intCompWire cfgData s then 0
  else s.intCntrReg

def intTdataNext (cfgData : BitVec cntrWidth)
    (s : State axisTdataWidth cntrWidth) (i : Input axisTdataWidth) :
    BitVec axisTdataWidth :=
  if intTvalidWire s i && !intCompWire cfgData s then i.sAxisTdata
  else s.intTdataReg

def intTvalidNext (cfgData : BitVec cntrWidth)
    (s : State axisTdataWidth cntrWidth) (i : Input axisTdataWidth) : Bool :=
  if intTvalidWire s i && !intCompWire cfgData s then true
  else if i.mAxisTready && s.intTvalidReg then false
  else s.intTvalidReg

def resetState : State axisTdataWidth cntrWidth where
  intTdataReg := 0
  intCntrReg := 0
  intTvalidReg := false
  intTreadyReg := false

def step (cfgData : BitVec cntrWidth) (s : State axisTdataWidth cntrWidth)
    (i : Input axisTdataWidth) : State axisTdataWidth cntrWidth :=
  if i.aresetn then
    { intTdataReg := intTdataNext cfgData s i
      intCntrReg := intCntrNext cfgData s i
      intTvalidReg := intTvalidNext cfgData s i
      intTreadyReg := intTreadyNext cfgData s }
  else resetState

def sAxisTready (s : State axisTdataWidth cntrWidth) : Bool := s.intTreadyReg

def mAxisTdata (s : State axisTdataWidth cntrWidth) : BitVec axisTdataWidth :=
  s.intTdataReg

def mAxisTvalid (s : State axisTdataWidth cntrWidth) : Bool := s.intTvalidReg

/-- A consumer that is ready takes the kept word after one cycle. -/
theorem step_taken {cfgData : BitVec cntrWidth}
    {s : State axisTdataWidth cntrWidth} {i : Input axisTdataWidth}
    (hrun : i.aresetn = true) (htaken : i.mAxisTready = true) :
    step cfgData s i =
      { intTdataReg :=
          if intTvalidWire s i && !intCompWire cfgData s then i.sAxisTdata
          else s.intTdataReg
        intCntrReg :=
          if intTvalidWire s i then
            if intCompWire cfgData s then s.intCntrReg + 1 else 0
          else s.intCntrReg
        intTvalidReg := intTvalidWire s i && !intCompWire cfgData s
        intTreadyReg := s.intTreadyReg || intCompWire cfgData s } := by
  rw [step, if_pos hrun, intTdataNext, intCntrNext, intTvalidNext,
    intTreadyNext, htaken]
  cases intTvalidWire s i <;> cases intCompWire cfgData s <;>
    cases s.intTvalidReg <;> cases s.intTreadyReg <;> rfl

end Rfsoc.Decimator
