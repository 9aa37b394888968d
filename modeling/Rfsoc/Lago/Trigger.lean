import Rfsoc.Core.Clocked
import Rfsoc.Core.Window
import Mathlib.Data.BitVec

/-!
# The LAGO trigger

`axis_lago_trigger` watches two sample channels and sends records of 32-bit
words: a PPS record each second, a pulse record for each trigger, and a
sub-trigger record for each smaller peak.  The generics have their default
values: the word layouts `"11" & "000" & clk_cnt_pps_i` and
`"0000" & charge1 & charge2` only fit 32-bit words and 14-bit samples.

The next-state process is modelled as the combinational logic it synthesizes
to, reading every signal of its body.  `s_axis_tvalid` is a port that the body
never reads.  An array read past the end has no meaning in the source; here it
gives zero.
-/

namespace Rfsoc.LagoTrigger

open Rfsoc.Clocked
open Rfsoc.Window

abbrev Word := BitVec 32

/-- One channel's half of a stream word. -/
abbrev Sample := BitVec 16

abbrev dataArrayLength : ℕ := 12
abbrev metadataArrayLength : ℕ := 10
abbrev subtrigArrayLength : ℕ := 3

/-- `state_t`. -/
inductive Fsm where
  | stIdle
  | stAttTr
  | stSendTrStatus
  | stSendCntStatus
  | stAttSubtr
  | stAttPps
  deriving DecidableEq

/-- The registers of the state machine. -/
structure FsmRegs where
  stateReg : Fsm
  wrCountReg : BitVec 8
  dataToFifoReg : Word
  axisTvalidReg : Bool
  axisTreadyReg : Bool
  deriving DecidableEq

/-- All registers of the core. -/
structure State extends FsmRegs where
  arrayPpsReg : Fin metadataArrayLength → Word
  adcDatAReg : Fin dataArrayLength → Sample
  adcDatBReg : Fin dataArrayLength → Sample
  trStatusReg : Word
  cntStatusReg : Word
  trigCntReg : Word
  charge1Reg : BitVec 14
  charge2Reg : BitVec 14
  arrayScalersReg : Fin subtrigArrayLength → Word

/-- What the ports carry in one cycle. -/
structure Input where
  aresetn : Bool
  trigLvlI : Word
  subtrigLvlI : Word
  ppsI : Bool
  clkCntPpsI : BitVec 27
  sAxisTdata : Word
  sAxisTvalid : Bool
  mAxisTready : Bool

def trigLvlA (i : Input) : Sample := i.trigLvlI.extractLsb' 0 16

def trigLvlB (i : Input) : Sample := i.trigLvlI.extractLsb' 16 16

def subtrigLvlA (i : Input) : Sample := i.subtrigLvlI.extractLsb' 0 16

def subtrigLvlB (i : Input) : Sample := i.subtrigLvlI.extractLsb' 16 16

/-- The new sample of a channel enters at the top index of its array. -/
def adcDatANext (s : State) (i : Input) : Fin dataArrayLength → Sample :=
  shift s.adcDatAReg (i.sAxisTdata.extractLsb' 0 16)

def adcDatBNext (s : State) (i : Input) : Fin dataArrayLength → Sample :=
  shift s.adcDatBReg (i.sAxisTdata.extractLsb' 16 16)

/-- A channel's trigger: the array crosses the level upwards at index 3. -/
def crosses (array : Fin dataArrayLength → Sample) (level : Sample) : Bool :=
  level.sle (array 3) && (array 2).slt level && (array 1).slt level

def tr1S (s : State) (i : Input) : Bool := crosses s.adcDatAReg (trigLvlA i)

def tr2S (s : State) (i : Input) : Bool := crosses s.adcDatBReg (trigLvlB i)

def trS (s : State) (i : Input) : Bool := tr1S s i || tr2S s i

/-- A channel's sub-trigger: a peak at index 2 that reaches the sub-trigger
level while indices 2, 3 and 4 stay below the trigger level. -/
def peaks (array : Fin dataArrayLength → Sample)
    (sublevel level : Sample) : Bool :=
  sublevel.sle (array 2) && (array 1).slt (array 2) &&
    ((array 3).slt (array 2) ||
      (array 3 == array 2 && (array 4).slt (array 2))) &&
    (array 2).slt level && (array 3).slt level && (array 4).slt level

def subtr1S (s : State) (i : Input) : Bool :=
  peaks s.adcDatAReg (subtrigLvlA i) (trigLvlA i)

def subtr2S (s : State) (i : Input) : Bool :=
  peaks s.adcDatBReg (subtrigLvlB i) (trigLvlB i)

def subtrS (s : State) (i : Input) : Bool := subtr1S s i || subtr2S s i

/-- The ten words latched on a PPS pulse. -/
def ppsWord (i : Input) : Fin metadataArrayLength → Word
  | 0 => 0xFFFFFFFF#32
  | 1 => 0b11#2 ++ 0b000#3 ++ i.clkCntPpsI
  | 2 => 0b11#2 ++ 0b001#3 ++ 0#11 ++ trigLvlA i
  | 3 => 0b11#2 ++ 0b010#3 ++ 0#11 ++ trigLvlA i
  | 4 => 0b11#2 ++ 0b011#3 ++ 0#11 ++ trigLvlA i
  | 5 => 0b11#2 ++ 0b100#3 ++ 0#11 ++ trigLvlA i
  | 6 => 0b11#2 ++ 0b100#3 ++ 0b001#3 ++ 0#8 ++ trigLvlA i
  | 7 => 0b11#2 ++ 0b100#3 ++ 0b010#3 ++ 0#8 ++ trigLvlA i
  | 8 => 0b11#2 ++ 0b100#3 ++ 0b011#3 ++ 0#8 ++ trigLvlA i
  | 9 => 0b11#2 ++ 0b100#3 ++ 0b100#3 ++ 0#8 ++ trigLvlA i

def arrayPpsNext (s : State) (i : Input) : Fin metadataArrayLength → Word :=
  fun k => if i.ppsI then ppsWord i k else s.arrayPpsReg k

/-- A flag word: `"010"`, the two channel flags and the clock count. -/
def flagWord (flag2 flag1 : Bool) (clkCnt : BitVec 27) : Word :=
  0b010#3 ++ BitVec.ofBool flag2 ++ BitVec.ofBool flag1 ++ clkCnt

/-- A counter word: `"10"` and the low thirty bits of the trigger counter. -/
def counterWord (count : BitVec 30) : Word := 0b10#2 ++ count

def trStatusNext (s : State) (i : Input) : Word :=
  if trS s i then flagWord (tr2S s i) (tr1S s i) i.clkCntPpsI
  else s.trStatusReg

def cntStatusNext (s : State) (i : Input) : Word :=
  if trS s i then counterWord (s.trigCntReg.extractLsb' 0 30)
  else s.cntStatusReg

def trigCntNext (s : State) (i : Input) : Word :=
  if trS s i then s.trigCntReg + 1 else s.trigCntReg

/-- `charge_reg + adc_dat_reg'left - adc_dat_reg'right`: the attributes are the
array's index bounds. -/
def chargeNext (charge : BitVec 14) : BitVec 14 := charge + 11#14 - 0#14

/-- The three words of a sub-trigger: maxima, charges, flags and time. -/
def scalerWord (s : State) (i : Input) : Fin subtrigArrayLength → Word
  | 0 => 0b0000#4 ++ (s.adcDatAReg 2).extractLsb' 0 14 ++
      (s.adcDatBReg 2).extractLsb' 0 14
  | 1 => 0b0000#4 ++ s.charge1Reg ++ s.charge2Reg
  | 2 => flagWord (subtr2S s i) (subtr1S s i) i.clkCntPpsI

def arrayScalersNext (s : State) (i : Input) : Fin subtrigArrayLength → Word :=
  fun k => if subtrS s i then scalerWord s i k else s.arrayScalersReg k

/-- A sample word: `"00"` before each channel's low fourteen bits. -/
def pairWord (b a : BitVec 14) : Word := 0b00#2 ++ b ++ 0b00#2 ++ a

/-- The oldest sample pair, as a pulse record sends it. -/
def sampleWord (s : State) : Word :=
  pairWord ((s.adcDatBReg 0).extractLsb' 0 14)
    ((s.adcDatAReg 0).extractLsb' 0 14)

/-- `array_pps_reg(to_integer(index))`. -/
def arrayPpsAt (s : State) (index : ℕ) : Word :=
  if h : index < metadataArrayLength then s.arrayPpsReg ⟨index, h⟩ else 0

/-- `array_scalers_reg(to_integer(index))`. -/
def arrayScalersAt (s : State) (index : ℕ) : Word :=
  if h : index < subtrigArrayLength then s.arrayScalersReg ⟨index, h⟩ else 0

def fsmNext (s : State) (i : Input) : FsmRegs :=
  match s.stateReg with
  | .stIdle =>
      match trS s i, subtrS s i, i.ppsI with
      -- priority is for PPS data every second
      | _, _, true =>
          { s.toFsmRegs with
            dataToFifoReg := arrayPpsAt s s.wrCountReg.toNat
            stateReg := .stAttPps }
      | true, _, false => { s.toFsmRegs with stateReg := .stAttTr }
      | false, true, false =>
          { s.toFsmRegs with
            dataToFifoReg := arrayScalersAt s s.wrCountReg.toNat
            stateReg := .stAttSubtr }
      | false, false, false => { s.toFsmRegs with stateReg := .stIdle }
  | .stAttTr =>
      if s.wrCountReg.toNat = dataArrayLength then
        { stateReg := .stSendTrStatus
          wrCountReg := 0
          dataToFifoReg := s.trStatusReg
          axisTvalidReg := true
          axisTreadyReg := false }
      else if i.mAxisTready then
        { stateReg := .stAttTr
          wrCountReg := s.wrCountReg + 1#8
          dataToFifoReg := sampleWord s
          axisTvalidReg := true
          axisTreadyReg := true }
      else
        { s.toFsmRegs with axisTvalidReg := true, axisTreadyReg := true }
  | .stSendTrStatus =>
      if i.mAxisTready then
        { s.toFsmRegs with
          stateReg := .stSendCntStatus
          dataToFifoReg := s.cntStatusReg
          axisTvalidReg := true
          axisTreadyReg := false }
      else
        { s.toFsmRegs with axisTvalidReg := true, axisTreadyReg := false }
  | .stSendCntStatus =>
      if i.mAxisTready then
        { s.toFsmRegs with
          stateReg := .stIdle
          axisTvalidReg := false
          axisTreadyReg := true }
      else
        { s.toFsmRegs with axisTvalidReg := true, axisTreadyReg := false }
  | .stAttSubtr =>
      if s.wrCountReg.toNat = subtrigArrayLength then
        { s.toFsmRegs with
          stateReg := .stIdle
          wrCountReg := 0
          axisTvalidReg := false
          axisTreadyReg := true }
      else if i.mAxisTready then
        { stateReg := .stAttSubtr
          wrCountReg := s.wrCountReg + 1#8
          dataToFifoReg := arrayScalersAt s s.wrCountReg.toNat
          axisTvalidReg := true
          axisTreadyReg := false }
      else
        { s.toFsmRegs with axisTvalidReg := true, axisTreadyReg := false }
  | .stAttPps =>
      if s.wrCountReg.toNat = metadataArrayLength then
        { s.toFsmRegs with
          stateReg := .stIdle
          wrCountReg := 0
          axisTvalidReg := false
          axisTreadyReg := true }
      else if i.mAxisTready then
        { stateReg := .stAttPps
          wrCountReg := s.wrCountReg + 1#8
          dataToFifoReg := arrayPpsAt s s.wrCountReg.toNat
          axisTvalidReg := true
          axisTreadyReg := false }
      else
        { s.toFsmRegs with axisTvalidReg := true, axisTreadyReg := false }

def resetState : State where
  stateReg := .stIdle
  wrCountReg := 0
  dataToFifoReg := 0
  axisTvalidReg := false
  axisTreadyReg := false
  arrayPpsReg := fun _ => 0
  adcDatAReg := fun _ => 0
  adcDatBReg := fun _ => 0
  trStatusReg := 0
  cntStatusReg := 0
  trigCntReg := 0
  charge1Reg := 0
  charge2Reg := 0
  arrayScalersReg := fun _ => 0

def step (s : State) (i : Input) : State :=
  if i.aresetn then
    { toFsmRegs := fsmNext s i
      arrayPpsReg := arrayPpsNext s i
      adcDatAReg := adcDatANext s i
      adcDatBReg := adcDatBNext s i
      trStatusReg := trStatusNext s i
      cntStatusReg := cntStatusNext s i
      trigCntReg := trigCntNext s i
      charge1Reg := chargeNext s.charge1Reg
      charge2Reg := chargeNext s.charge2Reg
      arrayScalersReg := arrayScalersNext s i }
  else resetState

/-- The core as it leaves reset. -/
def core : Machine State Input := ⟨resetState, step⟩

def sAxisTready (s : State) : Bool := s.axisTreadyReg

def mAxisTdata (s : State) : Word := s.dataToFifoReg

def mAxisTvalid (s : State) : Bool := s.axisTvalidReg

def transfer (s : State) (i : Input) : List Word :=
  if mAxisTvalid s && i.mAxisTready then [mAxisTdata s] else []

/-- Words transferred on `m_axis` before a cycle. -/
def transferred (input : ℕ → Input) : ℕ → List Word := core.log input transfer

/-- The word on offer, if any. -/
def offered (s : State) : List Word :=
  if mAxisTvalid s then [mAxisTdata s] else []

end Rfsoc.LagoTrigger
