import Rfsoc.Host.ParseParam

/-!
# The values of the scaled registers

`lia_rp -s fv v` and `lia_rp -s xv v` write `v * 2^8` and `v * 2^31` to registers
of 32 bits.  `parse_param` lets through frequencies up to 8.4 MHz, among them
those that do not fit and all negative ones, and every `v` for `xv`, since no
`int` exceeds 2^31; and it keeps 15 characters of the value only.
-/

namespace Rfsoc.RegisterValue

open Rfsoc.BinaryFloat
open Rfsoc.Numerals
open Rfsoc.ParseParam

/-- A register's offset and the word that is written there. -/
abbrev Write := BitVec 32 × BitVec 32

def devWrite (offset : BitVec 32) (value : ℤ) : Write :=
  (offset, BitVec.ofInt 32 value)

/-- The argument of `dev_write` from a `float`; nothing where the conversion is
undefined. -/
def writeFloat (offset : BitVec 32) (fVal : Number) : Option Write :=
  (fVal.toInteger (-2 ^ 31) (2 ^ 31 - 1)).map (devWrite offset)

/-- `f_val = value * pow(2,exponent)`, the product of a `float` and a `double`. -/
def scaled (exponent : ℕ) (value : Number) : Number :=
  binary32.convert (binary64.scale exponent value)

def setFrequency (offset : BitVec 32) (value : Number) : Option Write :=
  writeFloat offset (scaled 8 value)

def setXvalue (offset : BitVec 32) (value : Number) : Option Write :=
  writeFloat offset (scaled 31 value)

/-- The branch of `fSetCfgReg` in `main`; the `float` parameter takes the
`double` of `atof`. -/
def setCfgReg (g : Globals) : Option Write :=
  if g.ffVal then
    setFrequency g.regOff (binary32.convert (atof g.charRegValue))
  else if g.fxVal then
    setXvalue g.regOff (binary32.convert (atof g.charRegValue))
  else some (devWrite g.regOff (atoi g.charRegValue))

inductive Register where
  | fv
  | xv
  deriving DecidableEq

namespace Register

def name : Register → Text
  | fv => ['f', 'v']
  | xv => ['x', 'v']

def offset : Register → BitVec 32
  | fv => cfgFValueOffset
  | xv => cfgXValueOffset

/-- The power of two in the register's scale. -/
def exponent : Register → ℕ
  | fv => 8
  | xv => 31

end Register

section CommandLine

variable (program : Text) (register : Register) (number : Decimal) (g : Globals)

/-- `program -s register number` -/
def commandLine : List Text :=
  [program, ['-', 's'], register.name, number.text]

/-- An accepted value is in the register as it was meant. -/
def Fits : Prop :=
  (parseParam (commandLine program register number) g).outcome = .returned 1 →
    0 ≤ number.value * 2 ^ register.exponent ∧
      number.value * 2 ^ register.exponent ≤ 2 ^ 31 - 1 ∧
      setCfgReg (parseParam (commandLine program register number) g).globals =
        some (register.offset,
          BitVec.ofInt 32 (number.value * 2 ^ register.exponent))

/-- The value that is left in the 15 characters of `charRegValue`. -/
def kept : ℤ := (number.short 15).value

end CommandLine

/-- The values with which the parser and the register agree: frequencies that
are refused, and those below 2^23 that fit `charRegValue`; for `xv` only 0. -/
def FitsWhen : Register → Decimal → Prop
  | .fv, number => 8400000 < kept number ∨
      0 ≤ number.value ∧ number.value ≤ 8388607 ∧ kept number = number.value
  | .xv, number => number.value = 0

section Parsed

variable (program : Text) (register : Register) (number : Decimal) (g : Globals)

/-- The globals before the value is tested. -/
def parsed : Globals :=
  { initialFlags g with
    fSetCfgReg := true
    charAction := ['-', 's']
    charReg := register.name
    regOff := register.offset
    charRegValue := number.text.take 15 }

theorem parseParam_commandLine :
    parseParam (commandLine program register number) g =
      { checkValue (parsed register number g) with
        reads := 1 :: 2 :: 3 :: (checkValue (parsed register number g)).reads } := by
  cases register <;> rfl

theorem checkValue_fv : checkValue (parsed .fv number g) =
    if (atof (number.text.take 15)).exceeds 8400000 then
      fails .maximumFrequency (.exited 1) (parsed .fv number g)
    else returned 1 { parsed .fv number g with ffVal := true } := rfl

theorem checkValue_xv : checkValue (parsed .xv number g) =
    if 2 ^ 31 < atoi (number.text.take 15) then
      fails .maximumValue (.exited 1) (parsed .xv number g)
    else returned 1 { parsed .xv number g with fxVal := true } := rfl

end Parsed

section Kept

variable {number : Decimal} {g : Globals}

theorem abs_kept_lt (number : Decimal) : |kept number| < 10 ^ 15 := by
  apply Decimal.abs_value_lt
  change (number.tail.take _).length < 15
  rw [List.length_take]
  omega

theorem atof_take (number : Decimal) :
    atof (number.text.take 15) = .finite (kept number) := by
  rw [← number.short_text (by decide), Decimal.atof_text]
  apply round_intCast (by decide) (by decide)
  exact (abs_kept_lt number).trans (by decide)

theorem exceeds_iff (number : Decimal) :
    (atof (number.text.take 15)).exceeds 8400000 = true ↔
      8400000 < kept number := by
  rw [atof_take, Number.exceeds_intCast, decide_eq_true_iff]

/-- No `int` exceeds 2^31. -/
theorem atoi_le (number : Decimal) :
    ¬ 2 ^ 31 < atoi (number.text.take 15) := by
  rw [← number.short_text (by decide), Decimal.atoi_text]
  omega

theorem checkValue_refused (hlarge : 8400000 < kept number) :
    checkValue (parsed .fv number g) =
      fails .maximumFrequency (.exited 1) (parsed .fv number g) := by
  rw [checkValue_fv, if_pos ((exceeds_iff number).mpr hlarge)]

theorem checkValue_frequency (hsmall : ¬ 8400000 < kept number) :
    checkValue (parsed .fv number g) =
      returned 1 { parsed .fv number g with ffVal := true } := by
  rw [checkValue_fv, if_neg ((exceeds_iff number).not.mpr hsmall)]

theorem checkValue_xValue : checkValue (parsed .xv number g) =
    returned 1 { parsed .xv number g with fxVal := true } := by
  rw [checkValue_xv, if_neg (atoi_le number)]

/-- A kept value of a `float`'s precision is scaled without rounding. -/
theorem writeFloat_kept {offset : BitVec 32} {exponent : ℕ}
    (hexponent : exponent ≤ 31) (hbits : |kept number| < 2 ^ 24)
    (hlow : 0 ≤ kept number * 2 ^ exponent)
    (hhigh : kept number * 2 ^ exponent ≤ 2 ^ 31 - 1) :
    writeFloat offset (scaled exponent
        (binary32.convert (atof (number.text.take 15)))) =
      some (devWrite offset (kept number * 2 ^ exponent)) := by
  have hparameter : binary32.convert (.finite (kept number)) =
      .finite (kept number) := round_intCast (by decide) (by decide) hbits
  have hproduct : binary64.scale exponent (.finite (kept number)) =
      .finite ((kept number * 2 ^ exponent : ℤ) : ℚ) := by
    apply scale_intCast (by decide)
    · change ((53 : ℕ) : ℤ) + exponent ≤ 1024
      omega
    · exact hbits.trans (by decide)
  have hfloat : binary32.convert
      (.finite ((kept number * 2 ^ exponent : ℤ) : ℚ)) =
        .finite ((kept number * 2 ^ exponent : ℤ) : ℚ) := by
    apply round_intCast_mul exponent (by decide) _ hbits
    change ((24 : ℕ) : ℤ) + exponent ≤ 128
    omega
  rw [atof_take, scaled, hparameter, hproduct, hfloat, writeFloat,
    Number.toInteger_intCast (by omega) hhigh]
  rfl

theorem devWrite_inj {offset : BitVec 32} {kept meant : ℤ} (hkept : 0 ≤ kept)
    (hkeptHigh : kept ≤ 2 ^ 31 - 1) (hmeant : 0 ≤ meant)
    (hmeantHigh : meant ≤ 2 ^ 31 - 1)
    (hsame : some (devWrite offset kept) =
      some (offset, BitVec.ofInt 32 meant)) : kept = meant := by
  have hword := congrArg BitVec.toInt
    (congrArg Prod.snd (Option.some.inj hsame))
  change (BitVec.ofInt 32 kept).toInt = (BitVec.ofInt 32 meant).toInt at hword
  rw [BitVec.toInt_ofInt, BitVec.toInt_ofInt,
    Int.bmod_eq_of_le_mul_two (by omega) (by omega),
    Int.bmod_eq_of_le_mul_two (by omega) (by omega)] at hword
  exact hword

/-- The register holds the scaled value that was meant exactly when nothing of
the value was cut off. -/
theorem writeFloat_eq_iff {offset : BitVec 32} {exponent : ℕ}
    (hexponent : exponent ≤ 31) (hbits : number.value < 2 ^ 24)
    (hpos : 0 ≤ number.value)
    (hhigh : number.value * 2 ^ exponent ≤ 2 ^ 31 - 1) :
    writeFloat offset (scaled exponent
        (binary32.convert (atof (number.text.take 15)))) =
      some (offset, BitVec.ofInt 32 (number.value * 2 ^ exponent)) ↔
        kept number = number.value := by
  obtain ⟨hkept, hkeptHigh⟩ : 0 ≤ kept number ∧ kept number ≤ number.value :=
    number.short_between 15 hpos
  have hpower : (0 : ℤ) < 2 ^ exponent := by positivity
  have hproduct : 0 ≤ kept number * 2 ^ exponent :=
    mul_nonneg hkept hpower.le
  have hproductHigh : kept number * 2 ^ exponent ≤ 2 ^ 31 - 1 :=
    (mul_le_mul_of_nonneg_right hkeptHigh hpower.le).trans hhigh
  have hsmall : |kept number| < 2 ^ 24 := by
    rw [abs_of_nonneg hkept]
    exact hkeptHigh.trans_lt hbits
  rw [writeFloat_kept hexponent hsmall hproduct hproductHigh]
  constructor
  · intro hsame
    exact mul_right_cancel₀ hpower.ne' (devWrite_inj hproduct hproductHigh
      (mul_nonneg hpos hpower.le) hhigh hsame)
  · intro hsame
    rw [hsame]
    rfl

end Kept

section Registers

variable (program : Text) (number : Decimal) (g : Globals)

theorem fits_fv_iff :
    Fits program .fv number g ↔ FitsWhen .fv number := by
  rw [Fits, parseParam_commandLine, FitsWhen]
  change ((checkValue _).outcome = _ → 0 ≤ number.value * 2 ^ 8 ∧
    number.value * 2 ^ 8 ≤ 2 ^ 31 - 1 ∧
    setCfgReg (checkValue _).globals = _) ↔ _
  by_cases hlarge : 8400000 < kept number
  · rw [checkValue_refused hlarge]
    exact iff_of_true (fun haccepted => nomatch haccepted) (Or.inl hlarge)
  · rw [checkValue_frequency hlarge]
    constructor
    · intro hfits
      obtain ⟨hlow, hhigh, hregister⟩ := hfits rfl
      have hpos : 0 ≤ number.value := by omega
      have hsame := (writeFloat_eq_iff (by decide) (by omega) hpos hhigh).mp
        hregister
      exact Or.inr ⟨hpos, by omega, hsame⟩
    · rintro (hlarger | ⟨hpos, hlimit, hsame⟩)
      · exact absurd hlarger hlarge
      · intro _
        have hhigh : number.value * 2 ^ 8 ≤ 2 ^ 31 - 1 := by omega
        exact ⟨by omega, hhigh,
          (writeFloat_eq_iff (by decide) (by omega) hpos hhigh).mpr hsame⟩

theorem fits_xv_iff :
    Fits program .xv number g ↔ FitsWhen .xv number := by
  rw [Fits, parseParam_commandLine, FitsWhen]
  change ((checkValue _).outcome = _ → 0 ≤ number.value * 2 ^ 31 ∧
    number.value * 2 ^ 31 ≤ 2 ^ 31 - 1 ∧
    setCfgReg (checkValue _).globals = _) ↔ _
  rw [checkValue_xValue]
  constructor
  · intro hfits
    obtain ⟨hlow, hhigh, -⟩ := hfits rfl
    omega
  · intro hzero _
    have hpos : 0 ≤ number.value := hzero.ge
    have hhigh : number.value * 2 ^ 31 ≤ 2 ^ 31 - 1 := by omega
    have hkept : kept number = number.value := by
      have hbetween := number.short_between 15 hpos
      rw [kept]
      omega
    exact ⟨by omega, hhigh,
      (writeFloat_eq_iff le_rfl (by omega) hpos hhigh).mpr hkept⟩

end Registers

/-- The accepted values fit their register exactly under `FitsWhen`. -/
theorem registerValue_fits_iff (program : Text) (register : Register)
    (number : Decimal) (g : Globals) :
    Fits program register number g ↔ FitsWhen register number := by
  cases register with
  | fv => exact fits_fv_iff program number g
  | xv => exact fits_xv_iff program number g

/-- `lia_rp -s fv 8388608` and `lia_rp -s xv 1`: both scaled values are 2^31. -/
theorem registerValue_not_fits :
    ¬ Fits ['l', 'i', 'a'] .fv ⟨.none, 8, [3, 8, 8, 6, 0, 8]⟩ blankGlobals ∧
      ¬ Fits ['l', 'i', 'a'] .xv ⟨.none, 1, []⟩ blankGlobals := by
  rw [fits_fv_iff, fits_xv_iff]
  unfold FitsWhen
  decide

end Rfsoc.RegisterValue
