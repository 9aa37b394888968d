import Rfsoc.Core.AddressWidth
import Rfsoc.Core.Bits
import Rfsoc.Core.Clocked

/-!
# The configuration register

`axi_cfg_register` keeps `CFG_DATA_WIDTH` configuration bits in one `FDRE`
flip-flop each.  A write enables the flip-flops of the word that its address
slice selects, a byte strobe at a time; `reset_s`, a registered copy of the
reset, clears them.  `AXI_DATA_WIDTH` is 32 and `CFG_DATA_WIDTH` is 32 times the
number of words.  An index past the last word has no meaning in the source; here
it reads zero.
-/

namespace Rfsoc.CfgRegister

open Rfsoc.AddressWidth
open Rfsoc.Bits
open Rfsoc.Clocked

abbrev axiDataWidth : ℕ := 32

def addrLsb : ℕ := clogb2 (axiDataWidth / 8 - 1)

/-- `CFG_WIDTH`, the width of the address slice for `CFG_SIZE` words. -/
def cfgWidth (cfgSize : ℕ) : ℕ :=
  if cfgSize > 1 then clogb2 (cfgSize - 1) else 1

variable {cfgSize axiAddrWidth : ℕ}

/-- The registers of the core. -/
structure State (cfgSize : ℕ) where
  resetS : Bool
  intBvalidReg : Bool
  intRvalidReg : Bool
  intRdataReg : BitVec axiDataWidth
  intDataWire : BitVec (cfgSize * axiDataWidth)

/-- What the ports carry in one cycle. -/
structure Input (axiAddrWidth : ℕ) where
  aresetn : Bool
  sAxiAwaddr : BitVec axiAddrWidth
  sAxiAwvalid : Bool
  sAxiWdata : BitVec axiDataWidth
  sAxiWstrb : BitVec (axiDataWidth / 8)
  sAxiWvalid : Bool
  sAxiBready : Bool
  sAxiAraddr : BitVec axiAddrWidth
  sAxiArvalid : Bool
  sAxiRready : Bool

/-- `addr(ADDR_LSB+CFG_WIDTH-1 downto ADDR_LSB)` as a number. -/
def addressSlice (cfgSize : ℕ) (addr : BitVec axiAddrWidth) : ℕ :=
  (addr.extractLsb' addrLsb (cfgWidth cfgSize)).toNat

def intWvalidWire (i : Input axiAddrWidth) : Bool :=
  i.sAxiAwvalid && i.sAxiWvalid

def intCeWire (cfgSize : ℕ) (i : Input axiAddrWidth) (j : ℕ) : Bool :=
  intWvalidWire i && addressSlice cfgSize i.sAxiAwaddr == j

/-- The clock enable of bit `k` of word `j`. -/
def tmpS1 (cfgSize : ℕ) (i : Input axiAddrWidth) (j k : ℕ) : Bool :=
  intCeWire cfgSize i j && i.sAxiWstrb.getLsbD (k / 8)

/-- The flip-flop primitive: the synchronous reset comes before the enable. -/
def fdre (ce r d q : Bool) : Bool :=
  if r then false else if ce then d else q

/-- Bit `j * 32 + k` is the flip-flop of the `generate` loops for `j` and `k`. -/
def intDataNext (s : State cfgSize) (i : Input axiAddrWidth) :
    BitVec (cfgSize * axiDataWidth) :=
  generateBits (cfgSize * axiDataWidth) fun n =>
    fdre (tmpS1 cfgSize i (n / axiDataWidth) (n % axiDataWidth)) s.resetS
      (i.sAxiWdata.getLsbD (n % axiDataWidth)) (s.intDataWire.getLsbD n)

def intDataMux (s : State cfgSize) (j : ℕ) : BitVec axiDataWidth :=
  s.intDataWire.extractLsb' (j * axiDataWidth) axiDataWidth

def intBvalidNext (s : State cfgSize) (i : Input axiAddrWidth) : Bool :=
  if intWvalidWire i then true
  else if i.sAxiBready && s.intBvalidReg then false
  else s.intBvalidReg

def intRvalidNext (s : State cfgSize) (i : Input axiAddrWidth) : Bool :=
  if i.sAxiArvalid then true
  else if i.sAxiRready && s.intRvalidReg then false
  else s.intRvalidReg

def intRdataNext (s : State cfgSize) (i : Input axiAddrWidth) :
    BitVec axiDataWidth :=
  if i.sAxiArvalid then intDataMux s (addressSlice cfgSize i.sAxiAraddr)
  else s.intRdataReg

def step (s : State cfgSize) (i : Input axiAddrWidth) : State cfgSize where
  resetS := !i.aresetn
  intBvalidReg := if i.aresetn then intBvalidNext s i else false
  intRvalidReg := if i.aresetn then intRvalidNext s i else false
  intRdataReg := if i.aresetn then intRdataNext s i else 0
  intDataWire := intDataNext s i

/-- The core from any register contents. -/
def core (initial : State cfgSize) :
    Machine (State cfgSize) (Input axiAddrWidth) :=
  ⟨initial, step⟩

def cfgData (s : State cfgSize) : BitVec (cfgSize * axiDataWidth) :=
  s.intDataWire

def sAxiBvalid (s : State cfgSize) : Bool := s.intBvalidReg

def sAxiRvalid (s : State cfgSize) : Bool := s.intRvalidReg

def sAxiRdata (s : State cfgSize) : BitVec axiDataWidth := s.intRdataReg

/-- `s_axi_awready` and `s_axi_wready`. -/
def sAxiWready (i : Input axiAddrWidth) : Bool := intWvalidWire i

def sAxiArready : Bool := true

/-- Word `word` of `cfg_data`. -/
def cfgWord (s : State cfgSize) (word : ℕ) : BitVec axiDataWidth :=
  (cfgData s).extractLsb' (word * axiDataWidth) axiDataWidth

/-- Byte lane `lane` of a word. -/
def byteLane (word : BitVec axiDataWidth) (lane : ℕ) : BitVec 8 :=
  word.extractLsb' (lane * 8) 8

/-- A write is accepted, decodes to the word and strobes the lane. -/
def WritesLane (cfgSize : ℕ) (i : Input axiAddrWidth) (word lane : ℕ) : Prop :=
  (i.sAxiAwvalid = true ∧ i.sAxiWvalid = true) ∧
    addressSlice cfgSize i.sAxiAwaddr = word ∧
    i.sAxiWstrb.getLsbD lane = true

theorem tmpS1_eq_true_iff (i : Input axiAddrWidth) (word lane k : ℕ)
    (hk : k < 8) :
    tmpS1 cfgSize i word (lane * 8 + k) = true ↔
      WritesLane cfgSize i word lane := by
  have hlane : (lane * 8 + k) / 8 = lane := by omega
  simp [tmpS1, intCeWire, intWvalidWire, WritesLane, hlane, and_assoc]

theorem getLsbD_byteLane (s : State cfgSize) (word : ℕ) {lane k : ℕ}
    (hlane : lane < 4) (hk : k < 8) :
    (byteLane (cfgWord s word) lane).getLsbD k =
      s.intDataWire.getLsbD (word * axiDataWidth + (lane * 8 + k)) := by
  simp [byteLane, cfgWord, cfgData, hk, show lane * 8 + k < 32 by omega]

/-- The flip-flop of one bit: which generate indices it has. -/
theorem getLsbD_intDataNext (s : State cfgSize) (i : Input axiAddrWidth)
    {word lane k : ℕ} (hword : word < cfgSize) (hlane : lane < 4) (hk : k < 8) :
    (intDataNext s i).getLsbD (word * axiDataWidth + (lane * 8 + k)) =
      fdre (tmpS1 cfgSize i word (lane * 8 + k)) s.resetS
        (i.sAxiWdata.getLsbD (lane * 8 + k))
        (s.intDataWire.getLsbD (word * axiDataWidth + (lane * 8 + k))) := by
  have hrange : word * axiDataWidth + (lane * 8 + k) < cfgSize * axiDataWidth := by
    simp only [axiDataWidth]
    omega
  have hdiv : (word * axiDataWidth + (lane * 8 + k)) / axiDataWidth = word := by
    simp only [axiDataWidth]
    omega
  have hmod : (word * axiDataWidth + (lane * 8 + k)) % axiDataWidth =
      lane * 8 + k := by
    simp only [axiDataWidth]
    omega
  rw [intDataNext, getLsbD_generateBits, decide_eq_true hrange, Bool.true_and,
    hdiv, hmod]

section Lanes

variable {s : State cfgSize} {i : Input axiAddrWidth} {word lane : ℕ}

/-- A strobed write puts its byte into the lane. -/
theorem byteLane_step_of_writes (hreset : s.resetS = false)
    (hword : word < cfgSize) (hlane : lane < 4)
    (hwrites : WritesLane cfgSize i word lane) :
    byteLane (cfgWord (step s i) word) lane = byteLane i.sAxiWdata lane := by
  apply BitVec.eq_of_getLsbD_eq
  intro k hk
  rw [getLsbD_byteLane _ _ hlane hk]
  change (intDataNext s i).getLsbD _ = _
  rw [getLsbD_intDataNext s i hword hlane hk, fdre, hreset,
    if_neg Bool.false_ne_true,
    if_pos ((tmpS1_eq_true_iff i word lane k hk).mpr hwrites)]
  simp [byteLane, hk]

/-- Every other cycle keeps the lane. -/
theorem byteLane_step_of_not_writes (hreset : s.resetS = false)
    (hword : word < cfgSize) (hlane : lane < 4)
    (hwrites : ¬ WritesLane cfgSize i word lane) :
    byteLane (cfgWord (step s i) word) lane = byteLane (cfgWord s word) lane := by
  apply BitVec.eq_of_getLsbD_eq
  intro k hk
  rw [getLsbD_byteLane _ _ hlane hk, getLsbD_byteLane _ _ hlane hk]
  change (intDataNext s i).getLsbD _ = _
  rw [getLsbD_intDataNext s i hword hlane hk, fdre, hreset,
    if_neg Bool.false_ne_true,
    if_neg (mt (tmpS1_eq_true_iff i word lane k hk).mp hwrites)]

end Lanes

/-- A cycle that selects no existing word keeps every bit. -/
theorem cfgData_step_of_unmapped {s : State cfgSize} {i : Input axiAddrWidth}
    (hreset : s.resetS = false)
    (hunmapped : cfgSize ≤ addressSlice cfgSize i.sAxiAwaddr) :
    cfgData (step s i) = cfgData s := by
  apply BitVec.eq_of_getLsbD_eq
  intro n hn
  have hword : n / axiDataWidth < cfgSize :=
    Nat.div_lt_of_lt_mul (by rwa [Nat.mul_comm])
  have hce : tmpS1 cfgSize i (n / axiDataWidth) (n % axiDataWidth) = false := by
    have hne : addressSlice cfgSize i.sAxiAwaddr ≠ n / axiDataWidth := by omega
    simp [tmpS1, intCeWire, hne]
  change (intDataNext s i).getLsbD n = _
  rw [intDataNext, getLsbD_generateBits, decide_eq_true hn, hce, hreset]
  rfl

section Runs

variable {initial : State cfgSize} {input : ℕ → Input axiAddrWidth}
  {horizon : ℕ}

theorem resetS_stateAt (hreset : initial.resetS = false)
    (hrun : ∀ cycle < horizon, (input cycle).aresetn = true) :
    ∀ cycle ≤ horizon, ((core initial).stateAt input cycle).resetS = false := by
  refine upTo_induction horizon hreset ?_
  intro cycle hcycle _
  simp [core, Machine.stateAt, step, hrun cycle hcycle]

/-- A byte lane is a register that its writes enable. -/
theorem byteLane_enabled (hreset : initial.resetS = false)
    (hrun : ∀ cycle < horizon, (input cycle).aresetn = true)
    {word lane : ℕ} (hword : word < cfgSize) (hlane : lane < 4) :
    Enabled
      (fun cycle => byteLane (cfgWord ((core initial).stateAt input cycle) word)
        lane)
      (fun cycle => WritesLane cfgSize (input cycle) word lane)
      (fun cycle => byteLane (input cycle).sAxiWdata lane) horizon where
  load := fun cycle hcycle hwrites =>
    byteLane_step_of_writes (resetS_stateAt hreset hrun cycle hcycle.le) hword
      hlane hwrites
  hold := fun cycle hcycle hwrites =>
    byteLane_step_of_not_writes (resetS_stateAt hreset hrun cycle hcycle.le)
      hword hlane hwrites

end Runs

/-- A byte-writable register file up to a horizon. -/
structure RegisterFile (initial : State cfgSize)
    (input : ℕ → Input axiAddrWidth) (horizon : ℕ) : Prop where
  /-- A lane holds the byte of the latest earlier write to it. -/
  latest : ∀ cycle ≤ horizon, ∀ word < cfgSize, ∀ lane < 4, ∀ write < cycle,
    WritesLane cfgSize (input write) word lane →
      (∀ later, write < later → later < cycle →
        ¬ WritesLane cfgSize (input later) word lane) →
      byteLane (cfgWord ((core initial).stateAt input cycle) word) lane =
        byteLane (input write).sAxiWdata lane
  /-- A lane that has not been written holds its initial byte. -/
  untouched : ∀ cycle ≤ horizon, ∀ word < cfgSize, ∀ lane < 4,
    (∀ write < cycle, ¬ WritesLane cfgSize (input write) word lane) →
      byteLane (cfgWord ((core initial).stateAt input cycle) word) lane =
        byteLane (cfgWord initial word) lane
  /-- A write that decodes to no word changes nothing. -/
  unmapped : ∀ cycle < horizon,
    (input cycle).sAxiAwvalid = true → (input cycle).sAxiWvalid = true →
      cfgSize ≤ addressSlice cfgSize (input cycle).sAxiAwaddr →
        cfgData ((core initial).stateAt input (cycle + 1)) =
          cfgData ((core initial).stateAt input cycle)
  /-- A read answers with the word as it stands at the address handshake. -/
  read : ∀ cycle < horizon, (input cycle).sAxiArvalid = true →
    ∀ word < cfgSize, addressSlice cfgSize (input cycle).sAxiAraddr = word →
      sAxiRdata ((core initial).stateAt input (cycle + 1)) =
        cfgWord ((core initial).stateAt input cycle) word

/-- Out of reset the core is a byte-writable register file. -/
theorem cfgRegister_registerFile (initial : State cfgSize)
    (input : ℕ → Input axiAddrWidth) (horizon : ℕ)
    (hreset : initial.resetS = false)
    (hrun : ∀ cycle < horizon, (input cycle).aresetn = true) :
    RegisterFile initial input horizon where
  latest := by
    intro cycle hcycle word hword lane hlane write hwrite hwrites hlatest
    have hregister := byteLane_enabled hreset hrun hword hlane
    exact hregister.eq_of_latest hwrite hcycle hwrites hlatest
  untouched := by
    intro cycle hcycle word hword lane hlane hnone
    have hregister := byteLane_enabled hreset hrun hword hlane
    have hkept := hregister.eq_of_quiet (Nat.zero_le cycle) hcycle
      fun write _ hwrite => hnone write hwrite
    rwa [Machine.stateAt_zero] at hkept
  unmapped := fun cycle hcycle _ _ hunmapped =>
    cfgData_step_of_unmapped (resetS_stateAt hreset hrun cycle hcycle.le)
      hunmapped
  read := by
    rintro cycle hcycle harvalid word - rfl
    simp [core, Machine.stateAt, step, hrun cycle hcycle, sAxiRdata,
      intRdataNext, harvalid, intDataMux, cfgWord, cfgData]

/-- Two words with power-up contents. -/
def poweredUp : State 2 where
  resetS := false
  intBvalidReg := false
  intRvalidReg := false
  intRdataReg := 0
  intDataWire := 0xDDCCBBAA44332211#64

/-- A half-word write to word 1 in every cycle, read back at the same time. -/
def halfWordRun (cycle : ℕ) : Input 32 where
  aresetn := true
  sAxiAwaddr := 4#32
  sAxiAwvalid := true
  sAxiWdata := BitVec.ofNat 32 cycle
  sAxiWstrb := 0b0011#4
  sAxiWvalid := true
  sAxiBready := true
  sAxiAraddr := 4#32
  sAxiArvalid := true
  sAxiRready := true

theorem cfgRegister_registerFile_halfWordRun :
    RegisterFile poweredUp halfWordRun 8 :=
  cfgRegister_registerFile poweredUp halfWordRun 8 rfl (by decide)

end Rfsoc.CfgRegister
