import Rfsoc.Core.AddressWidth
import Mathlib.Data.PNat.Basic
import Mathlib.Order.Bounds.Basic

/-!
# The two width functions

The register cores and the RAM writer take their address widths from `clogb2`,
which halves its argument; `util_pkg` of the channelizer has `log2c`, which
doubles up to it.  Asked for the same number of places, `clogb2` with one less,
they agree wherever `log2c` stays within `integer`.
-/

namespace Rfsoc.WidthHelpers

open Rfsoc.AddressWidth

/-- `integer'high` -/
def integerHigh : ℕ := 2 ^ 31 - 1

/-- `while p < n loop`: nothing where `p * 2` is beyond `integer`. -/
def log2cLoop (n m : ℕ) (p : ℕ+) : Option ℕ :=
  if p < n then
    if integerHigh < p * 2 then none else log2cLoop n (m + 1) (p * 2)
  else some m
termination_by n - p
decreasing_by
  have hpos := p.pos
  rw [PNat.mul_coe]
  change n - (p : ℕ) * 2 < n - p
  omega

def log2c (n : ℕ) : Option ℕ := log2cLoop n 0 1

/-- The widths are the least ones, whichever function they come from. -/
structure WidthsAgree : Prop where
  same : ∀ n, 2 ≤ n → n ≤ 2 ^ 30 → log2c n = some (clogb2 (n - 1))
  /-- Past this limit `log2c` overflows. -/
  limit : ∀ n, 2 ^ 30 < n → log2c n = none
  least : ∀ n, 2 ≤ n → IsLeast {m | n ≤ 2 ^ m} (clogb2 (n - 1))
  bytes : ∀ axiDataWidth exponent, axiDataWidth = 8 * 2 ^ exponent →
    16 ≤ axiDataWidth →
    2 ^ clogb2 (axiDataWidth / 8 - 1) = axiDataWidth / 8 ∧
      clogb2 (axiDataWidth / 8 - 1) = exponent

/-- `clogb2` of one less is the least width. -/
theorem isLeast_clogb2 {n : ℕ} (hn : 2 ≤ n) :
    IsLeast {m | n ≤ 2 ^ m} (clogb2 (n - 1)) := by
  have hlow : 2 ^ Nat.log 2 (n - 1) ≤ n - 1 := Nat.pow_log_le_self 2 (by omega)
  have hhigh : n - 1 < 2 ^ (Nat.log 2 (n - 1) + 1) :=
    Nat.lt_pow_succ_log_self Nat.one_lt_two (n - 1)
  rw [clogb2_eq]
  constructor
  · change n ≤ 2 ^ (Nat.log 2 (n - 1) + 1)
    omega
  · intro m hm
    have hcovers : n ≤ 2 ^ m := hm
    apply Nat.succ_le_of_lt
    apply (Nat.pow_lt_pow_iff_right Nat.one_lt_two).mp
    omega

theorem isLeast_exponent (exponent : ℕ) :
    IsLeast {m | 2 ^ exponent ≤ 2 ^ m} exponent := by
  constructor
  · exact Nat.le_refl _
  · intro m hm
    exact (Nat.pow_le_pow_iff_right Nat.one_lt_two).mp hm

theorem coe_double {m : ℕ} {p : ℕ+} (hp : (p : ℕ) = 2 ^ m) :
    ((p * 2 : ℕ+) : ℕ) = 2 ^ (m + 1) := by
  rw [PNat.mul_coe, hp, pow_succ]
  rfl

section Loop

variable {n width : ℕ} (hleast : IsLeast {m | n ≤ 2 ^ m} width)
include hleast

theorem width_le_thirty (hn : n ≤ 2 ^ 30) : width ≤ 30 := hleast.2 hn

/-- The loop goes through the powers of two up to the first that is not below
`n`. -/
theorem log2cLoop_eq (hwidth : width ≤ 30) (m : ℕ) (p : ℕ+)
    (hp : (p : ℕ) = 2 ^ m) (hm : m ≤ width) :
    log2cLoop n m p = some width := by
  have hcovers : n ≤ 2 ^ width := hleast.1
  have hlater : (p : ℕ) < n → m < width := by
    intro hmore
    apply (Nat.pow_lt_pow_iff_right Nat.one_lt_two).mp
    omega
  fun_induction log2cLoop n m p with
  | case1 m p hmore hover =>
      have hroom : 2 ^ (m + 1) ≤ 2 ^ 30 :=
        Nat.pow_le_pow_right Nat.two_pos
          ((Nat.succ_le_of_lt (hlater hmore)).trans hwidth)
      rw [integerHigh] at hover
      omega
  | case2 m p hmore hroom ih =>
      refine ih (coe_double hp) (hlater hmore) fun hagain => ?_
      rw [coe_double hp] at hagain
      exact (Nat.pow_lt_pow_iff_right Nat.one_lt_two).mp
        (hagain.trans_le hcovers)
  | case3 m p hdone =>
      have hle : width ≤ m := hleast.2 (show n ≤ 2 ^ m by omega)
      rw [le_antisymm hm hle]

end Loop

/-- Past the limit the loop's product leaves `integer`. -/
theorem log2cLoop_eq_none {n : ℕ} (hn : 2 ^ 30 < n) (m : ℕ) (p : ℕ+)
    (hp : (p : ℕ) = 2 ^ m) (hm : m ≤ 30) : log2cLoop n m p = none := by
  fun_induction log2cLoop n m p with
  | case1 m p hmore hover => rfl
  | case2 m p hmore hroom ih =>
      have hlt : m + 1 < 31 := by
        apply (Nat.pow_lt_pow_iff_right Nat.one_lt_two).mp
        rw [integerHigh] at hroom
        omega
      exact ih (coe_double hp) (Nat.le_of_lt_succ hlt)
  | case3 m p hdone =>
      have hpower : 2 ^ m ≤ 2 ^ 30 := Nat.pow_le_pow_right Nat.two_pos hm
      omega

/-- Both functions give the least width, and the bytes of a word are counted
exactly. -/
theorem widthHelpers_agree : WidthsAgree where
  same := fun n hn hlimit =>
    log2cLoop_eq (isLeast_clogb2 hn)
      (width_le_thirty (isLeast_clogb2 hn) hlimit) 0 1 rfl (Nat.zero_le _)
  limit := fun _ hn => log2cLoop_eq_none hn 0 1 rfl (Nat.zero_le _)
  least := fun _ => isLeast_clogb2
  bytes := by
    rintro axiDataWidth exponent rfl hwidth
    have hbytes : 8 * 2 ^ exponent / 8 = 2 ^ exponent :=
      Nat.mul_div_cancel_left _ (by decide)
    have hsame : clogb2 (2 ^ exponent - 1) = exponent :=
      (isLeast_clogb2 (by omega)).unique (isLeast_exponent exponent)
    rw [hbytes, hsame]
    exact ⟨rfl, rfl⟩

end Rfsoc.WidthHelpers
