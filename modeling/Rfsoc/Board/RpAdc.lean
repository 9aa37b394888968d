import Rfsoc.Core.Bits
import Rfsoc.Core.Clocked

/-!
# The ADC interface

`axis_rp_adc` registers the codes of the two ADCs and puts them out as signed samples
of 16 bits.  The highest code is the lowest value.
-/

namespace Rfsoc.RpAdc

open Rfsoc.Bits
open Rfsoc.Clocked

structure State where
  intDatAReg : BitVec 14
  intDatBReg : BitVec 14

structure Input where
  adcDatA : BitVec 14
  adcDatB : BitVec 14

/-- `dat_tmp`: the top bit and the others inverted. -/
def datTmp (code : BitVec 14) : BitVec 14 :=
  code.extractLsb' 13 1 ++ ~~~code.extractLsb' 0 13

/-- A channel's half of the word: the top bit twice more. -/
def padded (dat : BitVec 14) : BitVec 16 :=
  BitVec.ofBool dat.msb ++ BitVec.ofBool dat.msb ++ dat

def step (_ : State) (i : Input) : State where
  intDatAReg := i.adcDatA
  intDatBReg := i.adcDatB

/-- The registers have no reset; they power up with anything. -/
def core (start : State) : Machine State Input := ⟨start, step⟩

def mAxisTvalid : Bool := true

def mAxisTdata (s : State) : BitVec 32 :=
  padded (datTmp s.intDatBReg) ++ padded (datTmp s.intDatAReg)

/-- The value of a code. -/
def height (code : BitVec 14) : ℤ := 8191 - code.toNat

theorem toInt_datTmp (code : BitVec 14) : (datTmp code).toInt = height code := by
  have hlt := code.isLt
  have hdat : (datTmp code).toNat =
      code.toNat / 8192 * 8192 + (8191 - code.toNat % 8192) := by
    rw [datTmp, toNat_append_eq, BitVec.toNat_not, BitVec.extractLsb'_toNat,
      BitVec.extractLsb'_toNat, Nat.shiftRight_eq_div_pow, Nat.shiftRight_zero]
    omega
  rw [height, BitVec.toInt_eq_toNat_cond, hdat]
  split_ifs <;> omega

theorem toInt_padded (dat : BitVec 14) : (padded dat).toInt = dat.toInt := by
  have hlt := dat.isLt
  have hpadded : (padded dat).toNat =
      (if 8192 ≤ dat.toNat then 49152 else 0) + dat.toNat := by
    rw [padded, toNat_append_eq, toNat_append_eq, BitVec.toNat_ofBool,
      BitVec.msb_eq_decide]
    by_cases htop : 8192 ≤ dat.toNat <;> simp [htop]
  rw [BitVec.toInt_eq_toNat_cond, BitVec.toInt_eq_toNat_cond, hpadded]
  split_ifs <;> omega

/-- A channel of the word has the value of its code. -/
theorem toInt_channel (code : BitVec 14) :
    (padded (datTmp code)).toInt = height code :=
  (toInt_padded _).trans (toInt_datTmp code)

end Rfsoc.RpAdc
