import Rfsoc.Core.AddressWidth
import Rfsoc.Core.Clocked
import Mathlib.Data.BitVec
import Mathlib.Tactic.Ring

/-!
# The RAM writer

`axis_ram_writer` takes 64-bit stream words through a `FIFO36E1` and writes
them to memory in 16-beat AXI bursts.  Four registers carry the AXI side:
`int_awvalid_reg`, `int_wvalid_reg`, `int_addr_reg` (which counts accepted data
beats and is also what `m_axi_awaddr` is computed from) and `int_wid_reg`.

The FIFO primitive is a queue that shows its head on `DO` and pops it on
`RDEN`; its `ALMOSTEMPTY` and `FULL` flags are inputs of the model, so every
flag sequence is covered.  Its 64-bit data ports fix `AXI_DATA_WIDTH` and
`AXIS_TDATA_WIDTH`; `AXI_ADDR_WIDTH` is the 32 of every block design, and
`cfg_data` is constant along a run.
-/

namespace Rfsoc.RamWriter

open Rfsoc.AddressWidth
open Rfsoc.Clocked

def axiDataWidth : ℕ := 64

def addrSize : ℕ := clogb2 (axiDataWidth / 8 - 1)

abbrev Word := BitVec axiDataWidth
abbrev Address := BitVec 32

/-- The registers of the core, the FIFO contents (head first) and the two
registers of the power-up reset generator. -/
structure State (addrWidth axiIdWidth : ℕ) where
  resetShreg : BitVec 10
  resetS : Bool
  fifo : List Word
  intAwvalidReg : Bool
  intWvalidReg : Bool
  intAddrReg : BitVec addrWidth
  intWidReg : BitVec axiIdWidth

/-- What the outside drives in one cycle: the ports, and the two FIFO flags. -/
structure Input where
  aresetn : Bool
  intEmptyWire : Bool
  intFullWire : Bool
  mAxiAwready : Bool
  mAxiWready : Bool
  sAxisTdata : Word
  sAxisTvalid : Bool

variable {addrWidth axiIdWidth : ℕ}

def intTreadyWire (i : Input) : Bool := !i.intFullWire

def intWlastWire (s : State addrWidth axiIdWidth) : Bool :=
  s.intAddrReg.extractLsb' 0 4 == 0b1111#4

def intRdenWire (s : State addrWidth axiIdWidth) (i : Input) : Bool :=
  i.mAxiWready && s.intWvalidReg

/-- `tmp_s2`, the write enable of the FIFO. -/
def fifoWren (i : Input) : Bool := intTreadyWire i && i.sAxisTvalid

/-- `reset`, the reset of the FIFO. -/
def fifoReset (s : State addrWidth axiIdWidth) (i : Input) : Bool :=
  s.resetS || !i.aresetn

def intAwvalidNext (s : State addrWidth axiIdWidth) (i : Input) : Bool :=
  if (!i.intEmptyWire && !s.intAwvalidReg && !s.intWvalidReg) ||
      (i.mAxiWready && intWlastWire s && !i.intEmptyWire) then true
  else if i.mAxiAwready && s.intAwvalidReg then false
  else s.intAwvalidReg

def intWvalidNext (s : State addrWidth axiIdWidth) (i : Input) : Bool :=
  if !i.intEmptyWire && !s.intAwvalidReg && !s.intWvalidReg then true
  else if i.mAxiWready && intWlastWire s && i.intEmptyWire then false
  else s.intWvalidReg

def intAddrNext (s : State addrWidth axiIdWidth) (i : Input) :
    BitVec addrWidth :=
  if intRdenWire s i then s.intAddrReg + 1 else s.intAddrReg

def intWidNext (s : State addrWidth axiIdWidth) (i : Input) :
    BitVec axiIdWidth :=
  if i.mAxiWready && intWlastWire s then s.intWidReg + 1 else s.intWidReg

/-- `FIFO36E1` in first-word-fall-through mode: an in-order queue. -/
def fifo36e1 (rst rden wren : Bool) (di : Word) (contents : List Word) :
    List Word :=
  if rst then []
  else (if rden then contents.tail else contents) ++ (if wren then [di] else [])

def step (s : State addrWidth axiIdWidth) (i : Input) :
    State addrWidth axiIdWidth where
  resetShreg := s.resetShreg.extractLsb' 0 9 ++ 0#1
  resetS := s.resetShreg.getLsbD 9
  fifo := fifo36e1 (fifoReset s i) (intRdenWire s i) (fifoWren i) i.sAxisTdata
    s.fifo
  intAwvalidReg := if i.aresetn then intAwvalidNext s i else false
  intWvalidReg := if i.aresetn then intWvalidNext s i else false
  intAddrReg := if i.aresetn then intAddrNext s i else 0
  intWidReg := if i.aresetn then intWidNext s i else 0

/-- The registers once reset has been held long enough. -/
def resetState : State addrWidth axiIdWidth where
  resetShreg := 0
  resetS := false
  fifo := []
  intAwvalidReg := false
  intWvalidReg := false
  intAddrReg := 0
  intWidReg := 0

/-- Once ten shifts have emptied the reset generator, one edge with `aresetn`
low clears every register and the FIFO. -/
theorem step_of_drained (s : State addrWidth axiIdWidth) (i : Input)
    (hdrained : s.resetShreg = 0) (hreset : i.aresetn = false) :
    step s i = resetState := by
  simp [step, resetState, fifo36e1, fifoReset, hdrained, hreset]

/-- Holding `aresetn` low for eleven cycles reaches `resetState` from any
power-up contents, the reset generator's own ten stages included. -/
theorem reset_reached (power : State addrWidth axiIdWidth) (input : ℕ → Input)
    (hreset : ∀ cycle < 11, (input cycle).aresetn = false) :
    (Machine.mk power step).stateAt input 11 = resetState := by
  have hshift : ∀ cycle ≤ 10, ∀ bit < cycle,
      ((Machine.mk power step).stateAt input cycle).resetShreg.getLsbD bit =
        false := by
    refine upTo_induction 10 (by simp) ?_
    intro cycle _ ih bit hbit
    simp only [Machine.stateAt_succ, step, BitVec.getLsbD_append,
      BitVec.getLsbD_extractLsb']
    cases bit with
    | zero => simp
    | succ bit => simp [ih bit (by omega)]
  rw [Machine.stateAt_succ]
  refine step_of_drained _ _ ?_ (hreset 10 (by omega))
  apply BitVec.eq_of_getLsbD_eq
  intro bit hbit
  simpa using hshift 10 (by omega) bit hbit

section Ports

variable (cfgData : Address) (s : State addrWidth axiIdWidth)

def stsData : BitVec addrWidth := s.intAddrReg

def mAxiAwid : BitVec axiIdWidth := s.intWidReg

def mAxiAwaddr : Address :=
  cfgData + (s.intAddrReg ++ (0 : BitVec addrSize)).setWidth 32

def mAxiAwlen : BitVec 4 := 15#4

def mAxiAwsize : BitVec 3 := BitVec.ofNat 3 addrSize

def mAxiAwvalid : Bool := s.intAwvalidReg

def mAxiWid : BitVec axiIdWidth := s.intWidReg

/-- `int_wdata_wire`: the head of the FIFO. -/
def mAxiWdata : Word := s.fifo.headD 0

def mAxiWlast : Bool := intWlastWire s

def mAxiWvalid : Bool := s.intWvalidReg

end Ports

/-- What the slave sees of one address handshake. -/
structure AwBeat (axiIdWidth : ℕ) where
  addr : Address
  id : BitVec axiIdWidth
  deriving DecidableEq

/-- What the slave sees of one data handshake. -/
structure WBeat (axiIdWidth : ℕ) where
  id : BitVec axiIdWidth
  data : Word
  last : Bool
  deriving DecidableEq

def awHandshake (cfgData : Address) (s : State addrWidth axiIdWidth)
    (i : Input) : List (AwBeat axiIdWidth) :=
  if mAxiAwvalid s && i.mAxiAwready then
    [⟨mAxiAwaddr cfgData s, mAxiAwid s⟩]
  else []

def wHandshake (s : State addrWidth axiIdWidth) (i : Input) :
    List (WBeat axiIdWidth) :=
  if mAxiWvalid s && i.mAxiWready then
    [⟨mAxiWid s, mAxiWdata s, mAxiWlast s⟩]
  else []

def streamHandshake (_ : State addrWidth axiIdWidth) (i : Input) : List Word :=
  if intTreadyWire i && i.sAxisTvalid then [i.sAxisTdata] else []

/-- The core as it leaves reset. -/
def core (addrWidth axiIdWidth : ℕ) :
    Machine (State addrWidth axiIdWidth) Input :=
  ⟨resetState, step⟩

/-- Address handshakes before a cycle. -/
def awBeats (addrWidth axiIdWidth : ℕ) (cfgData : Address)
    (input : ℕ → Input) : ℕ → List (AwBeat axiIdWidth) :=
  (core addrWidth axiIdWidth).log input (awHandshake cfgData)

/-- Data handshakes before a cycle. -/
def wBeats (addrWidth axiIdWidth : ℕ) (input : ℕ → Input) :
    ℕ → List (WBeat axiIdWidth) :=
  (core addrWidth axiIdWidth).log input wHandshake

/-- Stream words taken before a cycle. -/
def streamWords (addrWidth axiIdWidth : ℕ) (input : ℕ → Input) :
    ℕ → List Word :=
  (core addrWidth axiIdWidth).log input streamHandshake

end Rfsoc.RamWriter
