import Mathlib.Algebra.BigOperators.Group.Finset.Basic
import Mathlib.Data.BitVec

/-!
# Bit vectors

Concatenations as the cores write them, and vectors that a `generate` loop
drives bit by bit.
-/

namespace Rfsoc.Bits

section Append

variable {high low : ℕ}

/-- A concatenation determines its two parts. -/
theorem append_inj {left left' : BitVec high} {right right' : BitVec low}
    (heq : left ++ right = left' ++ right') : left = left' ∧ right = right' := by
  have hleft := congrArg (BitVec.extractLsb' low high) heq
  have hright := congrArg (BitVec.extractLsb' 0 low) heq
  simp only [BitVec.extractLsb'_append_eq_left] at hleft
  simp only [BitVec.extractLsb'_append_eq_right] at hright
  exact ⟨hleft, hright⟩

theorem cast_injective {width width' : ℕ} (hsame : width = width') :
    Function.Injective (BitVec.cast hsame) := by
  subst hsame
  intro left right heq
  rwa [BitVec.cast_eq, BitVec.cast_eq] at heq

theorem toNat_append_eq (left : BitVec high) (right : BitVec low) :
    (left ++ right).toNat = left.toNat * 2 ^ low + right.toNat := by
  rw [BitVec.toNat_append, ← Nat.shiftLeft_add_eq_or_of_lt right.isLt,
    Nat.shiftLeft_eq]

end Append

/-- The vector whose bit `k` is `bit k`. -/
def generateBits : (width : ℕ) → (ℕ → Bool) → BitVec width
  | 0, _ => BitVec.nil
  | width + 1, bit => BitVec.cons (bit width) (generateBits width bit)

theorem getLsbD_generateBits (bit : ℕ → Bool) (width k : ℕ) :
    (generateBits width bit).getLsbD k = (decide (k < width) && bit k) := by
  induction width with
  | zero => simp
  | succ width ih =>
      rw [generateBits, BitVec.getLsbD_cons, ih]
      rcases Nat.lt_trichotomy k width with hlt | rfl | hgt
      · simp [hlt.ne, hlt, Nat.lt_succ_of_lt hlt]
      · simp
      · simp [hgt.ne', hgt.not_gt, show ¬ k < width + 1 by omega]

/-- A register that has taken the first bits of a value takes the next one from
a register that has let go of as many. -/
theorem append_msb_shiftLeft {width taken : ℕ} (value : BitVec (width + 1))
    (htaken : taken ≤ width) :
    (value >>> (width + 1 - taken)).extractLsb' 0 width ++
        BitVec.ofBool (value <<< taken).msb = value >>> (width - taken) := by
  apply BitVec.eq_of_getLsbD_eq
  intro k hk
  rw [BitVec.getLsbD_append, BitVec.getLsbD_ushiftRight]
  cases k with
  | zero =>
      rw [BitVec.msb_eq_getLsbD_last, BitVec.getLsbD_shiftLeft]
      simp [show ¬ width < taken by omega]
  | succ k =>
      have hplace : width + 1 - taken + k = width - taken + (k + 1) := by omega
      simp [show k < width by omega, hplace]

/-- A counter register that is one count behind. -/
theorem toNat_add_one {width : ℕ} {value : BitVec width} {count : ℕ}
    (hvalue : value.toNat = count % 2 ^ width) :
    (value + 1).toNat = (count + 1) % 2 ^ width := by
  change (value + BitVec.ofNat width 1).toNat = _
  rw [BitVec.toNat_add, hvalue, BitVec.toNat_ofNat, ← Nat.add_mod]

/-- A counter that has not reached its top does not wrap. -/
theorem toNat_succ_of_lt {width : ℕ} {value : BitVec width} {count : ℕ}
    (hvalue : value.toNat = count) (hroom : count + 1 < 2 ^ width) :
    (value + 1).toNat = count + 1 := by
  have hwrap : value.toNat = count % 2 ^ width := by
    rw [hvalue, Nat.mod_eq_of_lt (Nat.lt_of_succ_lt hroom)]
  rw [toNat_add_one hwrap, Nat.mod_eq_of_lt hroom]

/-- A register that adds a word in each cycle holds the sum of the words. -/
theorem toNat_accumulated {width : ℕ} (value word : ℕ → BitVec width)
    {horizon : ℕ} (hzero : value 0 = 0)
    (hnext : ∀ cycle < horizon, value (cycle + 1) = value cycle + word cycle) :
    (value horizon).toNat =
      (∑ cycle ∈ Finset.range horizon, (word cycle).toNat) % 2 ^ width := by
  induction horizon with
  | zero =>
      rw [hzero, Finset.range_zero, Finset.sum_empty, Nat.zero_mod]
      rfl
  | succ horizon ih =>
      have hbefore := ih fun cycle hcycle => hnext cycle (by omega)
      rw [hnext horizon (Nat.lt_succ_self horizon), BitVec.toNat_add, hbefore,
        Finset.sum_range_succ, Nat.mod_add_mod]

end Rfsoc.Bits
