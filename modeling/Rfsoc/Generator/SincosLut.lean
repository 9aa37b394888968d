import Rfsoc.Core.Bits
import Rfsoc.Core.Clocked
import Rfsoc.Core.QuarterWave

/-!
# The sine table

`sincos_lut_14` keeps the sine of a quarter turn and finds the other quadrants by
negating the table's index and its value.  The index wraps to 0 at two of the
four axis addresses for each output, and the peak value is put there by a
flag that travels beside the address.
-/

namespace Rfsoc.SincosLut

open Rfsoc.Clocked Rfsoc.QuarterWave

structure State where
  pdsAdd : Bool
  pdcAdd : Bool
  dsAdd : Bool
  dcAdd : Bool
  sAz : Bool
  cAz : Bool
  sAdd : BitVec 14
  cAdd : BitVec 14
  msin : BitVec 14
  mcos : BitVec 14
  sin : BitVec 14
  cos : BitVec 14

/-- `addr_i(13 downto 12)` -/
def quadrant (addrI : BitVec 14) : BitVec 2 := addrI.extractLsb' 12 2

/-- `addr_i(11 downto 0)` -/
def within (addrI : BitVec 14) : BitVec 12 := addrI.extractLsb' 0 12

/-- The sign of the sine, `pdsADD`. -/
def pdsAddNext (addrI : BitVec 14) : Bool :=
  if quadrant addrI = 0b00#2 then false
  else if quadrant addrI = 0b01#2 then false
  else if quadrant addrI = 0b10#2 then true
  else true

def pdcAddNext (addrI : BitVec 14) : Bool :=
  if quadrant addrI = 0b00#2 then false
  else if quadrant addrI = 0b01#2 then true
  else if quadrant addrI = 0b10#2 then true
  else false

def sAddNext (addrI : BitVec 14) : BitVec 14 :=
  if quadrant addrI = 0b00#2 then 0b00#2 ++ within addrI
  else if quadrant addrI = 0b01#2 then 0b01#2 ++ (0 - within addrI)
  else if quadrant addrI = 0b10#2 then 0b10#2 ++ within addrI
  else 0b11#2 ++ (0 - within addrI)

def cAddNext (addrI : BitVec 14) : BitVec 14 :=
  if quadrant addrI = 0b00#2 then 0b00#2 ++ (0 - within addrI)
  else if quadrant addrI = 0b01#2 then 0b01#2 ++ within addrI
  else if quadrant addrI = 0b10#2 then 0b10#2 ++ (0 - within addrI)
  else 0b11#2 ++ within addrI

/-- The addresses at which the sine is at its peaks. -/
def sAzNext (sAdd : BitVec 14) : Bool :=
  decide (sAdd = 0b01#2 ++ 0x000#12 ∨ sAdd = 0b11#2 ++ 0x000#12)

def cAzNext (cAdd : BitVec 14) : Bool :=
  decide (cAdd = 0b00#2 ++ 0x000#12 ∨ cAdd = 0b10#2 ++ 0x000#12)

/-- The last stage, the same for both outputs. -/
def output (negative peak : Bool) (magnitude : BitVec 14) : BitVec 14 :=
  if negative = false then
    if peak = false then magnitude else 0b01#2 ++ 0xfff#12
  else
    if peak = false then 0 - magnitude else 0b10#2 ++ 0x001#12

section Table

variable (isin : BitVec 12 → BitVec 16)

/-- The entry under the index of an address. -/
def entry (address : BitVec 14) : BitVec 14 :=
  (isin (address.extractLsb' 0 12)).extractLsb' 0 14

def step (s : State) (addrI : BitVec 14) : State where
  pdsAdd := pdsAddNext addrI
  pdcAdd := pdcAddNext addrI
  dsAdd := s.pdsAdd
  dcAdd := s.pdcAdd
  sAz := sAzNext s.sAdd
  cAz := cAzNext s.cAdd
  sAdd := sAddNext addrI
  cAdd := cAddNext addrI
  msin := entry isin s.sAdd
  mcos := entry isin s.cAdd
  sin := output s.dsAdd s.sAz s.msin
  cos := output s.dcAdd s.cAz s.mcos

/-- The pipeline from any registers; it has no reset. -/
def core (start : State) : Machine State (BitVec 14) := ⟨start, step isin⟩

def stateAt (start : State) (addrI : ℕ → BitVec 14) (cycle : ℕ) : State :=
  (core isin start).stateAt addrI cycle

/-- The signed sine of an address. -/
def sine (addrI : BitVec 14) : ℤ :=
  (output (pdsAddNext addrI) (sAzNext (sAddNext addrI))
    (entry isin (sAddNext addrI))).toInt

/-- The signed cosine of an address. -/
def cosine (addrI : BitVec 14) : ℤ :=
  (output (pdcAddNext addrI) (cAzNext (cAddNext addrI))
    (entry isin (cAddNext addrI))).toInt

/-- The outputs are functions of the address three clocks before, and these are
the sine and the cosine of one wave. -/
structure QuarterWaves : Prop where
  sin : ∀ start addrI cycle,
    (stateAt isin start addrI (cycle + 3)).sin.toInt = sine isin (addrI cycle)
  cos : ∀ start addrI cycle,
    (stateAt isin start addrI (cycle + 3)).cos.toInt = cosine isin (addrI cycle)
  shift : ∀ addrI, cosine isin addrI = sine isin (addrI + 4096)
  halfTurn : ∀ addrI, sine isin (addrI + 8192) = -sine isin addrI
  mirror : ∀ addrI, sine isin (8192 - addrI) = sine isin addrI
  sineRange : ∀ addrI, -8191 ≤ sine isin addrI ∧ sine isin addrI ≤ 8191
  cosineRange : ∀ addrI, -8191 ≤ cosine isin addrI ∧ cosine isin addrI ≤ 8191

/-- The quarter that the table and the peak value stand for. -/
def quarter (place : ℕ) : ℤ :=
  if place = 4096 then 8191 else (isin (BitVec.ofNat 12 place)).toNat

end Table

section Pipeline

variable (isin : BitVec 12 → BitVec 16) (start : State)
  (addrI : ℕ → BitVec 14) (cycle : ℕ)

theorem sin_add_three :
    (stateAt isin start addrI (cycle + 3)).sin =
      output (pdsAddNext (addrI cycle)) (sAzNext (sAddNext (addrI cycle)))
        (entry isin (sAddNext (addrI cycle))) := rfl

theorem cos_add_three :
    (stateAt isin start addrI (cycle + 3)).cos =
      output (pdcAddNext (addrI cycle)) (cAzNext (cAddNext (addrI cycle)))
        (entry isin (cAddNext (addrI cycle))) := rfl

end Pipeline

section Address

variable (addrI : BitVec 14)

theorem toNat_quadrant : (quadrant addrI).toNat = addrI.toNat / 4096 := by
  have hlt := addrI.isLt
  rw [quadrant, BitVec.extractLsb'_toNat, Nat.shiftRight_eq_div_pow]
  omega

theorem toNat_within : (within addrI).toNat = addrI.toNat % 4096 := by
  rw [within, BitVec.extractLsb'_toNat, Nat.shiftRight_zero]

/-- The quadrant and the phase within it. -/
theorem phase_cases :
    quadrant addrI = 0b00#2 ∧ addrI.toNat = addrI.toNat % 4096 ∨
      quadrant addrI = 0b01#2 ∧ addrI.toNat = 4096 + addrI.toNat % 4096 ∨
      quadrant addrI = 0b10#2 ∧ addrI.toNat = 2 * 4096 + addrI.toNat % 4096 ∨
      quadrant addrI = 0b11#2 ∧ addrI.toNat = 3 * 4096 + addrI.toNat % 4096 := by
  have hsides : ∀ side : BitVec 2, side = 0b00#2 ∧ side.toNat = 0 ∨
      side = 0b01#2 ∧ side.toNat = 1 ∨ side = 0b10#2 ∧ side.toNat = 2 ∨
      side = 0b11#2 ∧ side.toNat = 3 := by decide
  have hquadrant := toNat_quadrant addrI
  obtain ⟨hside, hturn⟩ | ⟨hside, hturn⟩ | ⟨hside, hturn⟩ |
    ⟨hside, hturn⟩ := hsides (quadrant addrI)
  · exact .inl ⟨hside, by omega⟩
  · exact .inr (.inl ⟨hside, by omega⟩)
  · exact .inr (.inr (.inl ⟨hside, by omega⟩))
  · exact .inr (.inr (.inr ⟨hside, by omega⟩))

end Address

theorem append_eq_append_iff (side side' : BitVec 2) (index index' : BitVec 12) :
    side ++ index = side' ++ index' ↔ side = side' ∧ index = index' := by
  constructor
  · exact Bits.append_inj
  · rintro ⟨rfl, rfl⟩
    rfl

theorem sAzNext_append (side : BitVec 2) (index : BitVec 12) :
    sAzNext (side ++ index) =
      (decide (side = 0b01#2 ∨ side = 0b11#2) && decide (index = 0)) := by
  rw [sAzNext, ← Bool.decide_and, decide_eq_decide, append_eq_append_iff,
    append_eq_append_iff, ← or_and_right]
  rfl

theorem cAzNext_append (side : BitVec 2) (index : BitVec 12) :
    cAzNext (side ++ index) =
      (decide (side = 0b00#2 ∨ side = 0b10#2) && decide (index = 0)) := by
  rw [cAzNext, ← Bool.decide_and, decide_eq_decide, append_eq_append_iff,
    append_eq_append_iff, ← or_and_right]
  rfl

/-- An index is 0 when its negative is. -/
theorem decide_negated (index : BitVec 12) :
    decide (0 - index = 0) = decide (index = 0) := by
  have hneg : (0 : BitVec 12) - index = -index := BitVec.zero_sub index
  rw [hneg, decide_eq_decide]
  exact neg_eq_zero

def signed (negative : Bool) (value : ℤ) : ℤ :=
  if negative then -value else value

/-- A magnitude below 8192 is negated as a number. -/
theorem toInt_output (negative peak : Bool) {magnitude : BitVec 14}
    (hmagnitude : magnitude.toNat ≤ 8191) :
    (output negative peak magnitude).toInt =
      signed negative (if peak then 8191 else magnitude.toNat) := by
  have hpos : magnitude.toInt = magnitude.toNat :=
    BitVec.toInt_eq_toNat_of_lt (by omega)
  cases negative with
  | false =>
      cases peak with
      | false => exact hpos
      | true => rfl
  | true =>
      cases peak with
      | false =>
          have hneg : output true false magnitude = -magnitude :=
            BitVec.zero_sub magnitude
          rw [hneg, BitVec.toInt_neg, hpos,
            Int.bmod_eq_of_le_mul_two (by omega) (by omega)]
          rfl
      | true => rfl

section Table

variable {isin : BitVec 12 → BitVec 16}
  (hentries : ∀ index, (isin index).toNat ≤ 8191)
include hentries

theorem toNat_entry (side : BitVec 2) (index : BitVec 12) :
    (entry isin (side ++ index)).toNat = (isin index).toNat := by
  have hentry := hentries index
  rw [entry, BitVec.extractLsb'_append_eq_right, BitVec.extractLsb'_toNat,
    Nat.shiftRight_zero, Nat.mod_eq_of_lt (by omega)]

/-- A quadrant in which the table is read forwards. -/
theorem toInt_forward (negative : Bool) (side : BitVec 2) (addrI : BitVec 14) :
    (output negative false (entry isin (side ++ within addrI))).toInt =
      signed negative (quarter isin (addrI.toNat % 4096)) := by
  have hentry := toNat_entry hentries side (within addrI)
  have hindex : BitVec.ofNat 12 (addrI.toNat % 4096) = within addrI := by
    rw [← toNat_within, BitVec.ofNat_toNat, BitVec.setWidth_eq]
  have hbelow : addrI.toNat % 4096 ≠ 4096 := by omega
  rw [toInt_output _ _ (by rw [hentry]; exact hentries _), hentry, quarter,
    if_neg hbelow, hindex, if_neg Bool.false_ne_true]

/-- A quadrant in which the table is read backwards, from the peak. -/
theorem toInt_backward (negative : Bool) (side : BitVec 2)
    (addrI : BitVec 14) :
    (output negative (decide (within addrI = 0))
        (entry isin (side ++ (0 - within addrI)))).toInt =
      signed negative (quarter isin (4096 - addrI.toNat % 4096)) := by
  have hentry := toNat_entry hentries side (0 - within addrI)
  have hwithin := toNat_within addrI
  rw [toInt_output _ _ (by rw [hentry]; exact hentries _), hentry, quarter]
  congr 1
  by_cases hpeak : within addrI = 0
  · have hzero : addrI.toNat % 4096 = 0 := by rw [← hwithin, hpeak]; rfl
    rw [if_pos (decide_eq_true hpeak), hzero, if_pos rfl]
  · have hpos : addrI.toNat % 4096 ≠ 0 := by
      rw [← hwithin]
      exact fun hzero => hpeak (BitVec.eq_of_toNat_eq hzero)
    have hindex : BitVec.ofNat 12 (4096 - addrI.toNat % 4096) =
        0 - within addrI := by
      apply BitVec.eq_of_toNat_eq
      rw [BitVec.toNat_ofNat, BitVec.toNat_sub, hwithin]
      simp
    rw [if_neg (by simpa using hpeak), if_neg (by omega), hindex]

/-- The sine is the wave of the quarter. -/
theorem sine_eq_wave (addrI : BitVec 14) :
    sine isin addrI = wave 4096 (quarter isin) addrI.toNat := by
  have hwithin : addrI.toNat % 4096 < 4096 := Nat.mod_lt _ (by decide)
  rw [sine, pdsAddNext, sAddNext]
  obtain ⟨hside, hphase⟩ | ⟨hside, hphase⟩ | ⟨hside, hphase⟩ |
    ⟨hside, hphase⟩ := phase_cases addrI
  · rw [wave_first hwithin hphase, hside]
    change (output false (sAzNext (0b00#2 ++ _)) (entry isin _)).toInt = _
    rw [sAzNext_append]
    exact toInt_forward hentries false _ addrI
  · rw [wave_second hwithin hphase, hside]
    change (output false (sAzNext (0b01#2 ++ _)) (entry isin _)).toInt = _
    rw [sAzNext_append, decide_negated]
    exact toInt_backward hentries false _ addrI
  · rw [wave_third hwithin hphase, hside]
    change (output true (sAzNext (0b10#2 ++ _)) (entry isin _)).toInt = _
    rw [sAzNext_append]
    exact toInt_forward hentries true _ addrI
  · rw [wave_fourth hwithin hphase, hside]
    change (output true (sAzNext (0b11#2 ++ _)) (entry isin _)).toInt = _
    rw [sAzNext_append, decide_negated]
    exact toInt_backward hentries true _ addrI

/-- The cosine is the wave a quadrant ahead. -/
theorem cosine_eq_cowave (addrI : BitVec 14) :
    cosine isin addrI = cowave 4096 (quarter isin) addrI.toNat := by
  have hwithin : addrI.toNat % 4096 < 4096 := Nat.mod_lt _ (by decide)
  rw [cosine, pdcAddNext, cAddNext, cowave]
  obtain ⟨hside, hphase⟩ | ⟨hside, hphase⟩ | ⟨hside, hphase⟩ |
    ⟨hside, hphase⟩ := phase_cases addrI
  · rw [wave_second hwithin (by omega), hside]
    change (output false (cAzNext (0b00#2 ++ _)) (entry isin _)).toInt = _
    rw [cAzNext_append, decide_negated]
    exact toInt_backward hentries false _ addrI
  · rw [wave_third hwithin (by omega), hside]
    change (output true (cAzNext (0b01#2 ++ _)) (entry isin _)).toInt = _
    rw [cAzNext_append]
    exact toInt_forward hentries true _ addrI
  · rw [wave_fourth hwithin (by omega), hside]
    change (output true (cAzNext (0b10#2 ++ _)) (entry isin _)).toInt = _
    rw [cAzNext_append, decide_negated]
    exact toInt_backward hentries true _ addrI
  · rw [wave_first hwithin (by omega), hside]
    change (output false (cAzNext (0b11#2 ++ _)) (entry isin _)).toInt = _
    rw [cAzNext_append]
    exact toInt_forward hentries false _ addrI

end Table

theorem quarter_range {isin : BitVec 12 → BitVec 16}
    (hentries : ∀ index, (isin index).toNat ≤ 8191) (place : ℕ) :
    -8191 ≤ quarter isin place ∧ quarter isin place ≤ 8191 := by
  rw [quarter]
  split
  case isTrue => decide
  case isFalse =>
    have hentry := hentries (BitVec.ofNat 12 place)
    omega

theorem wave_range {isin : BitVec 12 → BitVec 16}
    (hentries : ∀ index, (isin index).toNat ≤ 8191) {phase : ℕ}
    (hphase : phase < 4 * 4096) :
    -8191 ≤ wave 4096 (quarter isin) phase ∧
      wave 4096 (quarter isin) phase ≤ 8191 := by
  apply wave_mem (fun value => -8191 ≤ value ∧ value ≤ 8191) _
    (fun place _ => quarter_range hentries place) hphase
  rintro value ⟨hlow, hhigh⟩
  omega

/-- Whatever the quarter table and the addresses, the outputs are the two waves
of one quarter, three clocks late. -/
theorem sincosLut_quarterWaves (isin : BitVec 12 → BitVec 16)
    (hzero : isin 0 = 0) (hentries : ∀ index, (isin index).toNat ≤ 8191) :
    QuarterWaves isin where
  sin := fun start addrI cycle =>
    congrArg BitVec.toInt (sin_add_three isin start addrI cycle)
  cos := fun start addrI cycle =>
    congrArg BitVec.toInt (cos_add_three isin start addrI cycle)
  shift := by
    intro addrI
    rw [cosine_eq_cowave hentries, sine_eq_wave hentries, cowave,
      BitVec.toNat_add]
    rfl
  halfTurn := by
    intro addrI
    rw [sine_eq_wave hentries, sine_eq_wave hentries, BitVec.toNat_add]
    exact wave_add_half addrI.isLt
  mirror := by
    intro addrI
    have hlt := addrI.isLt
    have hquarter : quarter isin 0 = 0 := by
      rw [quarter, if_neg (by decide)]
      change ((isin 0).toNat : ℤ) = 0
      rw [hzero]
      rfl
    have hphase : (8192 - addrI).toNat = (6 * 4096 - addrI.toNat) % (4 * 4096) := by
      rw [BitVec.toNat_sub]
      change (2 ^ 14 - addrI.toNat + 8192) % 2 ^ 14 = _
      omega
    rw [sine_eq_wave hentries, sine_eq_wave hentries, hphase]
    exact wave_reflect hquarter hlt
  sineRange := by
    intro addrI
    rw [sine_eq_wave hentries]
    exact wave_range hentries addrI.isLt
  cosineRange := by
    intro addrI
    rw [cosine_eq_cowave hentries, cowave]
    exact wave_range hentries (Nat.mod_lt _ (by decide))

/-- A table that rises in twos. -/
def risingTable (index : BitVec 12) : BitVec 16 :=
  BitVec.ofNat 16 (2 * index.toNat)

theorem sincosLut_quarterWaves_risingTable : QuarterWaves risingTable := by
  refine sincosLut_quarterWaves risingTable rfl fun index => ?_
  have hlt := index.isLt
  rw [risingTable, BitVec.toNat_ofNat]
  omega

example : sine risingTable 4096 = 8191 ∧ sine risingTable 4097 = 8190 := by
  decide

end Rfsoc.SincosLut
