import Rfsoc.Axi.AxisWriter
import Rfsoc.Axi.StsRegister
import Rfsoc.Core.ResponseSlot

/-!
# One response for each transaction

The AXI4-Lite slaves keep one response flag for each direction and accept
addresses without looking at it.  Every one of these flags is a one-place
response channel, so each core answers all its transactions exactly in the runs
in which no transaction is accepted on top of a refused response.
-/

namespace Rfsoc.Responses

open Rfsoc.Clocked
open Rfsoc.ResponseSlot
open Rfsoc.Signals

namespace CfgReads

open Rfsoc.CfgRegister

variable {cfgSize axiAddrWidth : ℕ} (initial : State cfgSize)
  (input : ℕ → Input axiAddrWidth)

def stateAt (cycle : ℕ) : State cfgSize :=
  (core initial).stateAt input cycle

/-- The AR handshakes. -/
def accepted (cycle : ℕ) : Bool := (input cycle).sAxiArvalid && sAxiArready

def ready (cycle : ℕ) : Bool := (input cycle).sAxiRready

def valid (cycle : ℕ) : Bool := sAxiRvalid (stateAt initial input cycle)

/-- The word that the address selects as it stands in the cycle. -/
def selected (cycle : ℕ) : BitVec axiDataWidth :=
  cfgWord (stateAt initial input cycle)
    (addressSlice cfgSize (input cycle).sAxiAraddr)

def data (cycle : ℕ) : BitVec axiDataWidth :=
  sAxiRdata (stateAt initial input cycle)

variable {initial input} {horizon : ℕ}

theorem slot (hvalid : initial.intRvalidReg = false)
    (hrun : ∀ cycle < horizon, (input cycle).aresetn = true) :
    Slot (accepted input) (ready input) (valid initial input)
      (selected initial input) (data initial input) horizon where
  start := hvalid
  next := by
    intro cycle hcycle
    simp [valid, stateAt, core, Machine.stateAt_succ, step, hrun cycle hcycle,
      intRvalidNext, accepted, ready, sAxiRvalid, sAxiArready]
  load := by
    apply Enabled.of_next
    intro cycle hcycle
    simp [data, stateAt, core, Machine.stateAt_succ, step, hrun cycle hcycle,
      intRdataNext, accepted, selected, cfgWord, cfgData, intDataMux, sAxiRdata,
      sAxiArready]

end CfgReads

namespace StsReads

open Rfsoc.CfgRegister (axiDataWidth)
open Rfsoc.StsRegister

variable {stsSize axiAddrWidth : ℕ} (input : ℕ → Input stsSize axiAddrWidth)

def stateAt (cycle : ℕ) : State :=
  (core stsSize axiAddrWidth).stateAt input cycle

/-- The AR handshakes. -/
def accepted (cycle : ℕ) : Bool := (input cycle).sAxiArvalid && sAxiArready

def ready (cycle : ℕ) : Bool := (input cycle).sAxiRready

def valid (cycle : ℕ) : Bool := sAxiRvalid (stateAt input cycle)

/-- The status word that the address selects in the cycle. -/
def word (cycle : ℕ) : BitVec axiDataWidth := selected (input cycle)

def data (cycle : ℕ) : BitVec axiDataWidth := sAxiRdata (stateAt input cycle)

variable {input} {horizon : ℕ}

theorem slot (hrun : ∀ cycle < horizon, (input cycle).aresetn = true) :
    Slot (accepted input) (ready input) (valid input) (word input) (data input)
      horizon where
  start := rfl
  next := by
    intro cycle hcycle
    simp [valid, stateAt, core, Machine.stateAt_succ, step, hrun cycle hcycle,
      intRvalidNext, accepted, ready, sAxiRvalid, sAxiArready]
  load := by
    apply Enabled.of_next
    intro cycle hcycle
    simp [data, stateAt, core, Machine.stateAt_succ, step, hrun cycle hcycle,
      intRdataNext, accepted, word, sAxiRdata, sAxiArready]

end StsReads

section Reads

variable {cfgSize stsSize cfgAddrWidth stsAddrWidth : ℕ}

/-- Both registers answer every read up to the horizon exactly when no read is
accepted while a response is being refused. -/
theorem reads_answered_iff_unblocked (initial : CfgRegister.State cfgSize)
    (cfgInput : ℕ → CfgRegister.Input cfgAddrWidth)
    (stsInput : ℕ → StsRegister.Input stsSize stsAddrWidth) (horizon : ℕ)
    (hvalid : initial.intRvalidReg = false)
    (hcfg : ∀ cycle < horizon, (cfgInput cycle).aresetn = true)
    (hsts : ∀ cycle < horizon, (stsInput cycle).aresetn = true) :
    (Answered (CfgReads.accepted cfgInput) (CfgReads.ready cfgInput)
        (CfgReads.valid initial cfgInput) (CfgReads.selected initial cfgInput)
        (CfgReads.data initial cfgInput) horizon ↔
      Unblocked (CfgReads.accepted cfgInput) (CfgReads.ready cfgInput)
        (CfgReads.valid initial cfgInput) horizon) ∧
    (Answered (StsReads.accepted stsInput) (StsReads.ready stsInput)
        (StsReads.valid stsInput) (StsReads.word stsInput)
        (StsReads.data stsInput) horizon ↔
      Unblocked (StsReads.accepted stsInput) (StsReads.ready stsInput)
        (StsReads.valid stsInput) horizon) := by
  constructor
  · exact (CfgReads.slot hvalid hcfg).answered_iff_unblocked
  · exact (StsReads.slot hsts).answered_iff_unblocked

/-- Two words out of reset. -/
def clearedCfg : CfgRegister.State 2 where
  resetS := false
  intBvalidReg := false
  intRvalidReg := false
  intRdataReg := 0
  intDataWire := 0x2222222211111111#64

/-- The configuration register is read in the first two cycles, word 0 and then
word 1, by a master that takes no response yet. -/
def pipelinedCfgReads (cycle : ℕ) : CfgRegister.Input 32 where
  aresetn := true
  sAxiAwaddr := 0
  sAxiAwvalid := false
  sAxiWdata := 0
  sAxiWstrb := 0
  sAxiWvalid := false
  sAxiBready := false
  sAxiAraddr := BitVec.ofNat 32 (4 * cycle)
  sAxiArvalid := decide (cycle < 2)
  sAxiRready := decide (2 ≤ cycle)

/-- The same reads of the status register. -/
def pipelinedStsReads (cycle : ℕ) : StsRegister.Input 2 32 where
  aresetn := true
  stsData := 0x2222222211111111#64
  sAxiAraddr := BitVec.ofNat 32 (4 * cycle)
  sAxiArvalid := decide (cycle < 2)
  sAxiRready := decide (2 ≤ cycle)

theorem reads_answered_iff_unblocked_pipelined :
    (Answered (CfgReads.accepted pipelinedCfgReads)
        (CfgReads.ready pipelinedCfgReads)
        (CfgReads.valid clearedCfg pipelinedCfgReads)
        (CfgReads.selected clearedCfg pipelinedCfgReads)
        (CfgReads.data clearedCfg pipelinedCfgReads) 4 ↔
      Unblocked (CfgReads.accepted pipelinedCfgReads)
        (CfgReads.ready pipelinedCfgReads)
        (CfgReads.valid clearedCfg pipelinedCfgReads) 4) ∧
    (Answered (StsReads.accepted pipelinedStsReads)
        (StsReads.ready pipelinedStsReads) (StsReads.valid pipelinedStsReads)
        (StsReads.word pipelinedStsReads) (StsReads.data pipelinedStsReads) 4 ↔
      Unblocked (StsReads.accepted pipelinedStsReads)
        (StsReads.ready pipelinedStsReads)
        (StsReads.valid pipelinedStsReads) 4) :=
  reads_answered_iff_unblocked clearedCfg pipelinedCfgReads pipelinedStsReads 4
    rfl (by decide) (by decide)

/-- The second of two pipelined reads takes the answer of the first. -/
theorem pipelined_reads_not_answered :
    (clearedCfg.intRvalidReg = false ∧
      (∀ cycle < 4, (pipelinedCfgReads cycle).aresetn = true) ∧
      ¬ Answered (CfgReads.accepted pipelinedCfgReads)
        (CfgReads.ready pipelinedCfgReads)
        (CfgReads.valid clearedCfg pipelinedCfgReads)
        (CfgReads.selected clearedCfg pipelinedCfgReads)
        (CfgReads.data clearedCfg pipelinedCfgReads) 4) ∧
    ((∀ cycle < 4, (pipelinedStsReads cycle).aresetn = true) ∧
      ¬ Answered (StsReads.accepted pipelinedStsReads)
        (StsReads.ready pipelinedStsReads) (StsReads.valid pipelinedStsReads)
        (StsReads.word pipelinedStsReads) (StsReads.data pipelinedStsReads)
        4) := by
  refine ⟨⟨rfl, by decide, ?_⟩, by decide, ?_⟩
  · intro hanswered
    have hcount := hanswered.balanced 2 (by decide)
    revert hcount
    decide
  · intro hanswered
    have hcount := hanswered.balanced 2 (by decide)
    revert hcount
    decide

end Reads

/-- Every write has a response of its own up to a horizon. -/
structure WritesAnswered (address word ready valid : ℕ → Bool)
    (horizon : ℕ) : Prop where
  /-- The responses make up for the data handshakes. -/
  balanced : Balanced word ready valid horizon
  /-- A response comes after the address and after the data of its write. -/
  ordered : ∀ cycle ≤ horizon,
    highCycles (answers ready valid) cycle + (valid cycle).toNat ≤
        highCycles address cycle ∧
      highCycles (answers ready valid) cycle + (valid cycle).toNat ≤
        highCycles word cycle

/-- The addresses are not behind the data. -/
def AddressFirst (address word : ℕ → Bool) (horizon : ℕ) : Prop :=
  ∀ cycle ≤ horizon, highCycles word cycle ≤ highCycles address cycle

theorem writesAnswered_iff {address word ready valid : ℕ → Bool} {horizon : ℕ}
    (hflag : Flag word ready valid horizon) :
    WritesAnswered address word ready valid horizon ↔
      Unblocked word ready valid horizon ∧
        AddressFirst address word horizon := by
  rw [← hflag.balanced_iff_unblocked]
  constructor
  · intro hanswered
    refine ⟨hanswered.balanced, ?_⟩
    intro cycle hcycle
    rw [hanswered.balanced cycle hcycle]
    exact (hanswered.ordered cycle hcycle).1
  · rintro ⟨hbalanced, hfirst⟩
    refine ⟨hbalanced, ?_⟩
    intro cycle hcycle
    rw [← hbalanced cycle hcycle]
    exact ⟨hfirst cycle hcycle, le_rfl⟩

namespace CfgWrites

open Rfsoc.CfgRegister

variable {cfgSize axiAddrWidth : ℕ} (initial : State cfgSize)
  (input : ℕ → Input axiAddrWidth)

/-- The AW handshakes. -/
def address (cycle : ℕ) : Bool :=
  (input cycle).sAxiAwvalid && sAxiWready (input cycle)

/-- The W handshakes. -/
def word (cycle : ℕ) : Bool :=
  (input cycle).sAxiWvalid && sAxiWready (input cycle)

def ready (cycle : ℕ) : Bool := (input cycle).sAxiBready

def valid (cycle : ℕ) : Bool :=
  sAxiBvalid ((core initial).stateAt input cycle)

variable {initial input} {horizon : ℕ}

theorem address_eq_word : address input = word input := by
  funext cycle
  simp only [address, word, sAxiWready, intWvalidWire]
  cases (input cycle).sAxiAwvalid <;> cases (input cycle).sAxiWvalid <;> rfl

theorem flag (hvalid : initial.intBvalidReg = false)
    (hrun : ∀ cycle < horizon, (input cycle).aresetn = true) :
    Flag (word input) (ready input) (valid initial input) horizon where
  start := hvalid
  next := by
    intro cycle hcycle
    rw [← address_eq_word]
    simp [valid, core, Machine.stateAt_succ, step, hrun cycle hcycle,
      intBvalidNext, address, ready, sAxiBvalid, sAxiWready, intWvalidWire]

end CfgWrites

namespace StreamWrites

open Rfsoc.AxisWriter

variable {axiDataWidth axiAddrWidth : ℕ}
  (input : ℕ → Input axiDataWidth axiAddrWidth)

/-- The AW handshakes. -/
def address (cycle : ℕ) : Bool := (input cycle).sAxiAwvalid && sAxiAwready

/-- The W handshakes. -/
def word (cycle : ℕ) : Bool := (input cycle).sAxiWvalid && sAxiWready

def ready (cycle : ℕ) : Bool := (input cycle).sAxiBready

def valid (cycle : ℕ) : Bool :=
  sAxiBvalid ((core axiDataWidth axiAddrWidth).stateAt input cycle)

variable {input} {horizon : ℕ}

theorem flag (hrun : ∀ cycle < horizon, (input cycle).aresetn = true) :
    Flag (word input) (ready input) (valid input) horizon where
  start := rfl
  next := by
    intro cycle hcycle
    simp [valid, core, Machine.stateAt_succ, step, hrun cycle hcycle,
      intValidNext, word, ready, sAxiBvalid, sAxiWready]

end StreamWrites

section Writes

variable {cfgSize cfgAddrWidth axiDataWidth axiAddrWidth : ℕ}

/-- The configuration register answers every write exactly when none is accepted
while a response is being refused; the stream writer needs besides that the
addresses keep up with the data. -/
theorem writes_answered_iff (initial : CfgRegister.State cfgSize)
    (cfgInput : ℕ → CfgRegister.Input cfgAddrWidth)
    (streamInput : ℕ → AxisWriter.Input axiDataWidth axiAddrWidth)
    (horizon : ℕ) (hvalid : initial.intBvalidReg = false)
    (hcfg : ∀ cycle < horizon, (cfgInput cycle).aresetn = true)
    (hstream : ∀ cycle < horizon, (streamInput cycle).aresetn = true) :
    (WritesAnswered (CfgWrites.address cfgInput) (CfgWrites.word cfgInput)
        (CfgWrites.ready cfgInput) (CfgWrites.valid initial cfgInput) horizon ↔
      Unblocked (CfgWrites.word cfgInput) (CfgWrites.ready cfgInput)
        (CfgWrites.valid initial cfgInput) horizon) ∧
    (WritesAnswered (StreamWrites.address streamInput)
        (StreamWrites.word streamInput) (StreamWrites.ready streamInput)
        (StreamWrites.valid streamInput) horizon ↔
      Unblocked (StreamWrites.word streamInput) (StreamWrites.ready streamInput)
          (StreamWrites.valid streamInput) horizon ∧
        AddressFirst (StreamWrites.address streamInput)
          (StreamWrites.word streamInput) horizon) := by
  constructor
  · rw [writesAnswered_iff (CfgWrites.flag hvalid hcfg),
      CfgWrites.address_eq_word]
    exact and_iff_left fun cycle _ => le_rfl
  · exact writesAnswered_iff (StreamWrites.flag hstream)

/-- Two writes of the configuration register before the first response is
taken. -/
def pipelinedCfgWrites (cycle : ℕ) : CfgRegister.Input 32 where
  aresetn := true
  sAxiAwaddr := 0
  sAxiAwvalid := decide (cycle < 2)
  sAxiWdata := BitVec.ofNat 32 cycle
  sAxiWstrb := 0b1111#4
  sAxiWvalid := decide (cycle < 2)
  sAxiBready := decide (2 ≤ cycle)
  sAxiAraddr := 0
  sAxiArvalid := false
  sAxiRready := false

/-- One write to the stream whose data comes a cycle before its address. -/
def dataFirstWrite (cycle : ℕ) : AxisWriter.Input 32 32 where
  aresetn := true
  sAxiAwaddr := 0
  sAxiAwvalid := decide (cycle = 1)
  sAxiWdata := 7#32
  sAxiWvalid := decide (cycle = 0)
  sAxiBready := true

theorem writes_answered_iff_pipelined :
    (WritesAnswered (CfgWrites.address pipelinedCfgWrites)
        (CfgWrites.word pipelinedCfgWrites) (CfgWrites.ready pipelinedCfgWrites)
        (CfgWrites.valid clearedCfg pipelinedCfgWrites) 4 ↔
      Unblocked (CfgWrites.word pipelinedCfgWrites)
        (CfgWrites.ready pipelinedCfgWrites)
        (CfgWrites.valid clearedCfg pipelinedCfgWrites) 4) ∧
    (WritesAnswered (StreamWrites.address dataFirstWrite)
        (StreamWrites.word dataFirstWrite) (StreamWrites.ready dataFirstWrite)
        (StreamWrites.valid dataFirstWrite) 4 ↔
      Unblocked (StreamWrites.word dataFirstWrite)
          (StreamWrites.ready dataFirstWrite)
          (StreamWrites.valid dataFirstWrite) 4 ∧
        AddressFirst (StreamWrites.address dataFirstWrite)
          (StreamWrites.word dataFirstWrite) 4) :=
  writes_answered_iff clearedCfg pipelinedCfgWrites dataFirstWrite 4 rfl
    (by decide) (by decide)

/-- Two writes share one response, and a response comes before the address. -/
theorem pipelined_writes_not_answered :
    (clearedCfg.intBvalidReg = false ∧
      (∀ cycle < 4, (pipelinedCfgWrites cycle).aresetn = true) ∧
      ¬ WritesAnswered (CfgWrites.address pipelinedCfgWrites)
        (CfgWrites.word pipelinedCfgWrites) (CfgWrites.ready pipelinedCfgWrites)
        (CfgWrites.valid clearedCfg pipelinedCfgWrites) 4) ∧
    ((∀ cycle < 4, (dataFirstWrite cycle).aresetn = true) ∧
      ¬ WritesAnswered (StreamWrites.address dataFirstWrite)
        (StreamWrites.word dataFirstWrite) (StreamWrites.ready dataFirstWrite)
        (StreamWrites.valid dataFirstWrite) 4) := by
  refine ⟨⟨rfl, by decide, ?_⟩, by decide, ?_⟩
  · intro hanswered
    have hcount := hanswered.balanced 2 (by decide)
    revert hcount
    decide
  · intro hanswered
    have horder := (hanswered.ordered 1 (by decide)).1
    revert horder
    decide

end Writes

end Rfsoc.Responses
