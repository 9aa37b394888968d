import Mathlib.Data.BitVec
import Mathlib.Data.Nat.Log

/-!
# Address-width helper

`clogb2` is the width function that the register cores and the RAM writer
declare in their own architecture bodies, each with the same loop.  It is the
number of bits of its argument, so that a slice of `clogb2 (size - 1)` bits
counts to the power of two that `size` is rounded up to.
-/

namespace Rfsoc.AddressWidth

/-- `while temp > 1 loop`: the halving loop over `temp` and `ret_val`. -/
def clogb2Loop (temp retVal : ℕ) : ℕ :=
  if temp > 1 then clogb2Loop (temp / 2) (retVal + 1) else retVal

def clogb2 (value : ℕ) : ℕ := clogb2Loop value 1

theorem clogb2Loop_eq (temp retVal : ℕ) :
    clogb2Loop temp retVal = Nat.log 2 temp + retVal := by
  induction temp, retVal using clogb2Loop.induct with
  | case1 temp retVal hmore ih =>
      calc
        clogb2Loop temp retVal = clogb2Loop (temp / 2) (retVal + 1) := by
          rw [clogb2Loop, if_pos hmore]
        _ = Nat.log 2 (temp / 2) + 1 + retVal := by
          rw [ih, add_assoc, Nat.add_comm retVal 1]
        _ = Nat.log 2 temp + retVal := by
          rw [Nat.log_of_one_lt_of_le Nat.one_lt_two hmore]
  | case2 temp retVal hdone =>
      rw [clogb2Loop, if_neg hdone, Nat.log_of_lt (by omega), Nat.zero_add]

theorem clogb2_eq (value : ℕ) : clogb2 value = Nat.log 2 value + 1 :=
  clogb2Loop_eq value 1

/-- A slice of an address reaches every number of its width. -/
theorem forall_slice_lt_iff {addressWidth : ℕ} (lsb width size : ℕ)
    (hfits : lsb + width ≤ addressWidth) :
    (∀ addr : BitVec addressWidth,
      (addr.extractLsb' lsb width).toNat < size) ↔ 2 ^ width ≤ size := by
  constructor
  · intro hbelow
    have hones := hbelow (BitVec.allOnes addressWidth)
    have hslice : (BitVec.allOnes addressWidth).extractLsb' lsb width =
        BitVec.allOnes width := by
      apply BitVec.eq_of_getLsbD_eq
      intro bit hbit
      simp [hbit, show lsb + bit < addressWidth by omega]
    rw [hslice, BitVec.toNat_allOnes] at hones
    have := Nat.two_pow_pos width
    omega
  · intro hcovers addr
    exact (BitVec.isLt _).trans_le hcovers

/-- A width of `clogb2 (size - 1)` bits, and one bit for a single word, counts
no further than `size` exactly if `size` is a power of two past the first. -/
theorem two_pow_width_le_iff (size : ℕ) (hpos : 0 < size) :
    2 ^ (if size > 1 then clogb2 (size - 1) else 1) ≤ size ↔
      ∃ exponent, size = 2 ^ (exponent + 1) := by
  split
  case isFalse hsingle =>
    have hone : size = 1 := by omega
    subst hone
    constructor
    · intro habsurd
      omega
    · rintro ⟨exponent, hpow⟩
      have := Nat.one_lt_two_pow (Nat.succ_ne_zero exponent)
      omega
  case isTrue hmany =>
    rw [clogb2_eq]
    have hlow : 2 ^ Nat.log 2 (size - 1) ≤ size - 1 :=
      Nat.pow_log_le_self 2 (by omega)
    have hhigh : size - 1 < 2 ^ (Nat.log 2 (size - 1) + 1) :=
      Nat.lt_pow_succ_log_self Nat.one_lt_two (size - 1)
    constructor
    · intro hcovers
      exact ⟨Nat.log 2 (size - 1), by omega⟩
    · rintro ⟨exponent, hpow⟩
      have hlt : Nat.log 2 (size - 1) < exponent + 1 := by
        apply (Nat.pow_lt_pow_iff_right Nat.one_lt_two).mp
        omega
      exact (Nat.pow_le_pow_right Nat.two_pos hlt).trans hpow.ge

end Rfsoc.AddressWidth
