import Rfsoc.Core.Bits
import Rfsoc.Core.Signals

/-!
# The DNA reader

`dna_reader` counts to 3649 after a reset and clocks the device's DNA port with
bit 5 of the count.  One period of the slow clock loads the port, each of the
next ones shifts it; the leading bit is captured in the last cycle of every
period.
-/

namespace Rfsoc.DnaReader

open Rfsoc.Clocked
open Rfsoc.Signals

/-- The registers of the core, and the shift register in the port. -/
structure State where
  intEnblReg : Bool
  intReadReg : Bool
  intShiftReg : Bool
  intCntrReg : BitVec 16
  intDataReg : BitVec 57
  port : BitVec 57

def intCompWire (s : State) : Bool := decide (s.intCntrReg.toNat < 64 * 57)

/-- `DOUT` of the port. -/
def intDataWire (s : State) : Bool := s.port.msb

/-- `int_cntr_reg(5 downto 0) = "111111"` -/
def lastOfPeriod (s : State) : Bool :=
  decide (s.intCntrReg.extractLsb' 0 6 = 0b111111#6)

def intEnblNext (s : State) : Bool :=
  if !s.intEnblReg && intCompWire s then true
  else if !intCompWire s then false
  else s.intEnblReg

def intReadNext (s : State) : Bool :=
  if !s.intEnblReg && intCompWire s then true
  else if lastOfPeriod s then false
  else s.intReadReg

def intDataNext (s : State) : BitVec 57 :=
  if lastOfPeriod s then
    s.intDataReg.extractLsb' 0 56 ++ BitVec.ofBool (intDataWire s)
  else s.intDataReg

def intCntrNext (s : State) : BitVec 16 :=
  if s.intEnblReg then s.intCntrReg + 1 else s.intCntrReg

def intShiftNext (s : State) : Bool :=
  if !intCompWire s then false
  else if lastOfPeriod s then true
  else s.intShiftReg

/-- `DNA_PORT`: on a rising edge of `CLK` it loads or shifts; `DIN` is 0. -/
def dnaPort (dna : BitVec 57) (before after read shift : Bool)
    (port : BitVec 57) : BitVec 57 :=
  if !before && after then
    if read then dna
    else if shift then port <<< 1
    else port
  else port

def resetState (port : BitVec 57) : State where
  intEnblReg := false
  intReadReg := false
  intShiftReg := false
  intCntrReg := 0
  intDataReg := 0
  port := port

section Dna

variable (dna : BitVec 57)

/-- The registers after a clock edge; the port is clocked by one of them and
sees the others as they are then. -/
def clockPort (before : State) (after : State) : State :=
  { after with
    port := dnaPort dna (before.intCntrReg.getLsbD 5)
      (after.intCntrReg.getLsbD 5) after.intReadReg after.intShiftReg
      before.port }

def step (s : State) (aresetn : Bool) : State :=
  clockPort dna s
    (if aresetn then
      { intEnblReg := intEnblNext s
        intReadReg := intReadNext s
        intShiftReg := intShiftNext s
        intCntrReg := intCntrNext s
        intDataReg := intDataNext s
        port := s.port }
    else resetState s.port)

/-- The reader from power-up, with anything in the port. -/
def core (port : BitVec 57) : Machine State Bool := ⟨resetState port, step dna⟩

def stateAt (port : BitVec 57) (aresetn : ℕ → Bool) (cycle : ℕ) : State :=
  (core dna port).stateAt aresetn cycle

def dnaData (s : State) : BitVec 57 := s.intDataReg

/-- The registers at a count.  Until the load the port keeps what it had. -/
def atCount (port : BitVec 57) (count : ℕ) : State where
  intEnblReg := decide (count ≤ 3648)
  intReadReg := decide (count < 64)
  intShiftReg := decide (64 ≤ count ∧ count ≤ 3648)
  intCntrReg := BitVec.ofNat 16 count
  intDataReg := dna >>> (57 - count / 64)
  port := if count < 32 then port else dna <<< ((count - 32) / 64)

/-- The registers at an age since a reset. -/
def atAge (port : BitVec 57) : ℕ → State
  | 0 => resetState port
  | age + 1 => atCount dna port (min age 3649)

end Dna

/-- Without a rising edge of the slow clock the port keeps its bits. -/
theorem clockPort_of_low (dna : BitVec 57) {before after : State}
    (hlow : (!before.intCntrReg.getLsbD 5 && after.intCntrReg.getLsbD 5) =
      false)
    (hport : after.port = before.port) : clockPort dna before after = after := by
  rw [clockPort, dnaPort, hlow, if_neg Bool.false_ne_true, ← hport]

section Count

variable {dna port : BitVec 57} {count : ℕ}

theorem toNat_intCntrReg (hcount : count ≤ 3649) :
    (atCount dna port count).intCntrReg.toNat = count := by
  change (BitVec.ofNat 16 count).toNat = count
  rw [BitVec.toNat_ofNat, Nat.mod_eq_of_lt (by omega)]

theorem intCompWire_atCount (hcount : count ≤ 3649) :
    intCompWire (atCount dna port count) = decide (count < 3648) := by
  rw [intCompWire, toNat_intCntrReg hcount]

theorem lastOfPeriod_atCount (hcount : count ≤ 3649) :
    lastOfPeriod (atCount dna port count) = decide (count % 64 = 63) := by
  rw [lastOfPeriod, decide_eq_decide, ← BitVec.toNat_inj,
    BitVec.extractLsb'_toNat, toNat_intCntrReg hcount]
  rfl

/-- The slow clock is high in the second half of every period. -/
theorem clk_atCount : (atCount dna port count).intCntrReg.getLsbD 5 =
    decide (32 ≤ count % 64) := by
  change (BitVec.ofNat 16 count).getLsbD 5 = _
  rw [BitVec.getLsbD_ofNat, Nat.testBit_eq_decide_div_mod_eq]
  simp
  omega

theorem intEnblNext_atCount (hcount : count ≤ 3649) :
    intEnblNext (atCount dna port count) = decide (count + 1 ≤ 3648) := by
  rw [intEnblNext, intCompWire_atCount hcount]
  change (if !decide (count ≤ 3648) && _ then true
    else if _ then false else decide (count ≤ 3648)) = _
  grind

theorem intReadNext_atCount (hcount : count ≤ 3649) :
    intReadNext (atCount dna port count) = decide (count + 1 < 64) := by
  rw [intReadNext, intCompWire_atCount hcount, lastOfPeriod_atCount hcount]
  change (if !decide (count ≤ 3648) && _ then true
    else if _ then false else decide (count < 64)) = _
  grind

theorem intShiftNext_atCount (hcount : count ≤ 3649) :
    intShiftNext (atCount dna port count) =
      decide (64 ≤ count + 1 ∧ count + 1 ≤ 3648) := by
  rw [intShiftNext, intCompWire_atCount hcount, lastOfPeriod_atCount hcount]
  change (if _ then false else if _ then true
    else decide (64 ≤ count ∧ count ≤ 3648)) = _
  split
  case isTrue hend =>
    have hlate : ¬ count < 3648 := by simpa using hend
    exact (decide_eq_false (by omega)).symm
  case isFalse hbefore =>
    have hearly : count < 3648 := by simpa using hbefore
    split
    case isTrue hlast =>
      have hperiod := of_decide_eq_true hlast
      exact (decide_eq_true (by omega)).symm
    case isFalse hwithin =>
      have hperiod : ¬ count % 64 = 63 := by simpa using hwithin
      exact decide_eq_decide.mpr (by omega)

theorem intDataNext_atCount (hcount : count ≤ 3649) :
    intDataNext (atCount dna port count) =
      dna >>> (57 - (count + 1) / 64) := by
  rw [intDataNext, lastOfPeriod_atCount hcount]
  split
  case isTrue hlast =>
    -- the leading bit of what the port has left is captured
    have hperiod := of_decide_eq_true hlast
    have htaken : count / 64 ≤ 56 := by omega
    have hport : (atCount dna port count).port = dna <<< (count / 64) := by
      change (if count < 32 then port else dna <<< ((count - 32) / 64)) = _
      have hshifts : (count - 32) / 64 = count / 64 := by omega
      rw [if_neg (by omega), hshifts]
    have hnext : (count + 1) / 64 = count / 64 + 1 := by omega
    rw [intDataWire, hport, hnext, Nat.add_sub_add_right 56 1]
    exact Bits.append_msb_shiftLeft dna htaken
  case isFalse hwithin =>
    have hperiod : ¬ count % 64 = 63 := by simpa using hwithin
    have hsame : (count + 1) / 64 = count / 64 := by omega
    rw [hsame]
    rfl

/-- The slow clock rises in the middle of a period: the first time it loads the
port, later it shifts it. -/
theorem dnaPort_atCount (hcount : count < 3649) :
    dnaPort dna ((atCount dna port count).intCntrReg.getLsbD 5)
        ((atCount dna port (count + 1)).intCntrReg.getLsbD 5)
        (atCount dna port (count + 1)).intReadReg
        (atCount dna port (count + 1)).intShiftReg (atCount dna port count).port =
      (atCount dna port (count + 1)).port := by
  rw [clk_atCount, clk_atCount]
  change dnaPort dna _ _ (decide (count + 1 < 64))
      (decide (64 ≤ count + 1 ∧ count + 1 ≤ 3648))
      (if count < 32 then port else dna <<< ((count - 32) / 64)) =
    if count + 1 < 32 then port else dna <<< ((count + 1 - 32) / 64)
  rw [dnaPort]
  by_cases hrises : count % 64 = 31
  · rw [if_pos (by simp; omega)]
    by_cases hfirst : count + 1 < 64
    · have hload : (count + 1 - 32) / 64 = 0 := by omega
      rw [if_pos (decide_eq_true hfirst), if_neg (by omega), hload,
        BitVec.shiftLeft_zero]
    · have hshifts : (count + 1 - 32) / 64 = (count - 32) / 64 + 1 := by omega
      rw [if_neg (by simpa using hfirst),
        if_pos (decide_eq_true (by omega)), if_neg (by omega),
        if_neg (by omega), hshifts, BitVec.shiftLeft_add]
  · rw [if_neg (by simp; omega)]
    by_cases hbefore : count < 32
    · rw [if_pos hbefore, if_pos (by omega)]
    · have hsame : (count + 1 - 32) / 64 = (count - 32) / 64 := by omega
      rw [if_neg hbefore, if_neg (by omega), hsame]

theorem step_atCount (hcount : count < 3649) :
    step dna (atCount dna port count) true = atCount dna port (count + 1) := by
  have hcntr : intCntrNext (atCount dna port count) =
      BitVec.ofNat 16 (count + 1) := by
    rw [intCntrNext]
    change (if decide (count ≤ 3648) then _ else _) = _
    rw [if_pos (decide_eq_true (by omega))]
    exact (BitVec.ofNat_add count 1).symm
  rw [step, if_pos rfl, intEnblNext_atCount hcount.le,
    intReadNext_atCount hcount.le, intShiftNext_atCount hcount.le, hcntr,
    intDataNext_atCount hcount.le]
  exact congrArg
    (fun shifted => { atCount dna port (count + 1) with port := shifted })
    (dnaPort_atCount hcount)

/-- The last count stays. -/
theorem step_last :
    step dna (atCount dna port 3649) true = atCount dna port 3649 := by
  have hcntr : intCntrNext (atCount dna port 3649) =
      (atCount dna port 3649).intCntrReg := if_neg Bool.false_ne_true
  rw [step, if_pos rfl, intEnblNext_atCount le_rfl, intReadNext_atCount le_rfl,
    intShiftNext_atCount le_rfl, intDataNext_atCount le_rfl, hcntr]
  exact clockPort_of_low dna (Bool.not_and_self _) rfl

end Count

section Run

variable {dna port : BitVec 57} {aresetn : ℕ → Bool}

theorem step_resetState :
    step dna (resetState port) true = atCount dna port 0 := by
  have hdata : (0 : BitVec 57) = dna >>> 57 :=
    (BitVec.ushiftRight_eq_zero le_rfl).symm
  rw [step, if_pos rfl]
  refine (clockPort_of_low dna (Bool.not_and_self _) rfl).trans ?_
  change State.mk true true false 0 0 port =
    State.mk true true false 0 (dna >>> 57) port
  rw [← hdata]

theorem step_atAge (age : ℕ) :
    step dna (atAge dna port age) true = atAge dna port (age + 1) := by
  cases age with
  | zero => exact step_resetState
  | succ age =>
      rw [atAge, atAge]
      by_cases hcounts : age < 3649
      · rw [min_eq_left hcounts.le, min_eq_left hcounts]
        exact step_atCount hcounts
      · rw [min_eq_right (by omega), min_eq_right (by omega)]
        exact step_last

/-- A reset leaves the port alone: the slow clock does not rise. -/
theorem step_reset (s : State) : step dna s false = resetState s.port := by
  have hlow : (resetState s.port).intCntrReg.getLsbD 5 = false :=
    BitVec.getLsbD_zero
  rw [step, if_neg Bool.false_ne_true]
  refine clockPort_of_low dna ?_ rfl
  rw [hlow, Bool.and_false]

/-- The registers are those of the age since the latest reset. -/
theorem stateAt_eq (dna port : BitVec 57) (aresetn : ℕ → Bool) (cycle : ℕ) :
    ∃ before, stateAt dna port aresetn cycle =
      atAge dna before (cyclesSince (fun earlier => !aresetn earlier) cycle) := by
  induction cycle with
  | zero => exact ⟨port, rfl⟩
  | succ cycle ih =>
      obtain ⟨before, hstate⟩ := ih
      rw [stateAt, Machine.stateAt_succ, cyclesSince]
      change ∃ before', step dna (stateAt dna port aresetn cycle)
        (aresetn cycle) = _
      cases hreset : aresetn cycle with
      | false => exact ⟨_, step_reset _⟩
      | true =>
          rw [hstate]
          exact ⟨before, step_atAge _⟩

end Run

/-- After 3650 cycles without a reset the output is the device's DNA, and stays
it as long as no reset comes. -/
theorem dnaReader_reads (dna port : BitVec 57) (aresetn : ℕ → Bool) {cycle : ℕ}
    (hcycle : 3650 ≤ cycle)
    (hrun : ∀ earlier < cycle, cycle ≤ earlier + 3650 →
      aresetn earlier = true) :
    dnaData (stateAt dna port aresetn cycle) = dna := by
  obtain ⟨before, hstate⟩ := stateAt_eq dna port aresetn cycle
  have hage : 3650 ≤ cyclesSince (fun earlier => !aresetn earlier) cycle := by
    apply le_cyclesSince hcycle
    intro earlier hearlier hnear
    rw [hrun earlier hearlier hnear]
    rfl
  obtain ⟨more, hmore⟩ := Nat.exists_eq_add_of_le' hage
  rw [hstate, hmore]
  change (atCount dna before (min (more + 3649) 3649)).intDataReg = dna
  rw [min_eq_right (Nat.le_add_left _ _)]
  change dna >>> 0 = dna
  rw [BitVec.ushiftRight_zero]

/-- A reset in the middle of the first reading. -/
def interruptedRun (cycle : ℕ) : Bool := decide (cycle ≠ 1000)

theorem dnaReader_reads_interruptedRun :
    dnaData (stateAt 0x123456789abcdef#57 0 interruptedRun 4651) =
      0x123456789abcdef#57 :=
  dnaReader_reads _ 0 interruptedRun (by decide) fun earlier _ hnear =>
    decide_eq_true (by omega)

end Rfsoc.DnaReader
