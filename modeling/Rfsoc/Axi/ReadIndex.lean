import Rfsoc.Axi.StsRegister

/-!
# Read indices of the register cores

Both register cores read `int_data_mux` at the number in a slice of
`s_axi_araddr`.  The slice is as wide as the last index, so it counts up to a
power of two, and the array has no words past its size.  The write path of the
configuration register compares the slice with the existing words instead and
is not affected.
-/

namespace Rfsoc.ReadIndex

open Rfsoc.AddressWidth
open Rfsoc.CfgRegister (axiDataWidth addrLsb cfgWidth)
open Rfsoc.StsRegister (stsWidth)

/-- Every address selects one of the `size` words of the configuration
register. -/
def CfgReadsInRange (cfgSize : ℕ) : Prop :=
  ∀ araddr : BitVec 32, CfgRegister.addressSlice cfgSize araddr < cfgSize

/-- `to_integer(unsigned(s_axi_araddr(ADDR_LSB+STS_WIDTH-1 downto ADDR_LSB)))` -/
def stsSlice (stsSize : ℕ) (araddr : BitVec 32) : ℕ :=
  (araddr.extractLsb' addrLsb (stsWidth stsSize)).toNat

theorem selected_eq {stsSize : ℕ} (i : StsRegister.Input stsSize 32) :
    StsRegister.selected i =
      StsRegister.intDataMux i (stsSlice stsSize i.sAxiAraddr) := rfl

/-- Every address selects one of the `size` words of the status register. -/
def StsReadsInRange (stsSize : ℕ) : Prop :=
  ∀ araddr : BitVec 32, stsSlice stsSize araddr < stsSize

/-- The widths of the source are VHDL naturals, so the slice of every size lies
inside a 32-bit address. -/
theorem slice_fits (size : ℕ) (hnatural : size * axiDataWidth < 2 ^ 31) :
    addrLsb + (if size > 1 then clogb2 (size - 1) else 1) ≤ 32 := by
  have hlsb : addrLsb = 2 := clogb2_eq 3
  rw [hlsb]
  split
  case isFalse => omega
  case isTrue hmany =>
    have hlog : Nat.log 2 (size - 1) < 26 := by
      apply Nat.log_lt_of_lt_pow (by omega)
      simp only [axiDataWidth] at hnatural
      omega
    rw [clogb2_eq]
    omega

/-- The read index stays inside the array exactly for the power-of-two sizes
from two words on, in both cores. -/
theorem registerReads_inRange_iff (size : ℕ) (hpos : 0 < size)
    (hnatural : size * axiDataWidth < 2 ^ 31) :
    (CfgReadsInRange size ↔ ∃ exponent, size = 2 ^ (exponent + 1)) ∧
      (StsReadsInRange size ↔ ∃ exponent, size = 2 ^ (exponent + 1)) := by
  have hfits := slice_fits size hnatural
  have hcovers := two_pow_width_le_iff size hpos
  constructor
  · calc
      CfgReadsInRange size ↔ 2 ^ cfgWidth size ≤ size :=
        forall_slice_lt_iff addrLsb (cfgWidth size) size hfits
      _ ↔ ∃ exponent, size = 2 ^ (exponent + 1) := hcovers
  · calc
      StsReadsInRange size ↔ 2 ^ stsWidth size ≤ size :=
        forall_slice_lt_iff addrLsb (stsWidth size) size hfits
      _ ↔ ∃ exponent, size = 2 ^ (exponent + 1) := hcovers

/-- A width of 128 bits is read in range. -/
theorem registerReads_inRange_fourWords :
    (CfgReadsInRange 4 ↔ ∃ exponent, 4 = 2 ^ (exponent + 1)) ∧
      (StsReadsInRange 4 ↔ ∃ exponent, 4 = 2 ^ (exponent + 1)) :=
  registerReads_inRange_iff 4 (by decide) (by decide)

/-- The widths 32 and 160 are not: address 4 reads word 1 of one word, and
address 20 reads word 5 of five. -/
theorem registerReads_outOfRange :
    (CfgRegister.addressSlice 1 4#32 = 1 ∧ stsSlice 1 4#32 = 1 ∧
        CfgRegister.addressSlice 5 20#32 = 5 ∧ stsSlice 5 20#32 = 5) ∧
      ¬ CfgReadsInRange 1 ∧ ¬ StsReadsInRange 1 ∧
        ¬ CfgReadsInRange 5 ∧ ¬ StsReadsInRange 5 := by
  have hcfgOne : CfgRegister.addressSlice 1 4#32 = 1 := by decide +kernel
  have hstsOne : stsSlice 1 4#32 = 1 := by decide +kernel
  have hcfgFive : CfgRegister.addressSlice 5 20#32 = 5 := by decide +kernel
  have hstsFive : stsSlice 5 20#32 = 5 := by decide +kernel
  refine ⟨⟨hcfgOne, hstsOne, hcfgFive, hstsFive⟩, ?_, ?_, ?_, ?_⟩
  · exact fun hrange => (hrange 4#32).ne hcfgOne
  · exact fun hrange => (hrange 4#32).ne hstsOne
  · exact fun hrange => (hrange 20#32).ne hcfgFive
  · exact fun hrange => (hrange 20#32).ne hstsFive

end Rfsoc.ReadIndex
