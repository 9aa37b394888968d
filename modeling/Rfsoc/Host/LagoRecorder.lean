import Rfsoc.Core.Bits
import Rfsoc.Lago.Trigger

/-!
# The host recorder

`adc-recorder.c` reads each 32-bit word back as two `int16_t` halves, builds a
signed 32-bit `wo` from them and prints a line for each of three values of
`wo >> 30`.  `int` arithmetic is two's complement of 32 bits and `>>` on it is
arithmetic, as the compiler for the board has it; the halves are little-endian.
-/

namespace Rfsoc.LagoRecorder

open Rfsoc.Bits
open Rfsoc.LagoTrigger

/-- A printed line, one constructor for each `printf` of the loop. -/
inductive Line where
  /-- `"%5d %5d %d\n"` -/
  | raw (value0 value1 wo : ℤ)
  /-- `"%5d %5d\n"` -/
  | pair (value0 value1 : ℤ)
  /-- `"# t %d %d\n"` -/
  | time (flags clkCnt : ℤ)
  /-- `"# c %d\n"` -/
  | count (trigCnt : ℤ)
  deriving DecidableEq

/-- `value[0]`. -/
def value0 (word : Word) : BitVec 16 := word.extractLsb' 0 16

/-- `value[1]`. -/
def value1 (word : Word) : BitVec 16 := word.extractLsb' 16 16

/-- `(value[1]<<16) + value[0]`. -/
def wo (word : Word) : BitVec 32 :=
  ((value1 word).signExtend 32 <<< 16) + (value0 word).signExtend 32

/-- The lines of the three tests on `wo >> 30`. -/
def classified (word : Word) : List Line :=
  (if (wo word).sshiftRight 30 = 0#32 then
    [.pair (value0 word).toInt (value1 word).toInt] else []) ++
  (if (wo word).sshiftRight 30 = 1#32 then
    [.time ((wo word).sshiftRight 27 &&& 0x7#32).toInt
      (wo word &&& 0x7FFFFFF#32).toInt] else []) ++
  (if (wo word).sshiftRight 30 = 2#32 then
    [.count (wo word &&& 0x3FFFFFFF#32).toInt] else [])

/-- The line that is printed for every word. -/
def rawLine (word : Word) : Line :=
  .raw (value0 word).toInt (value1 word).toInt (wo word).toInt

/-- One turn of the loop. -/
def decode (word : Word) : List Line := rawLine word :: classified word

theorem toNat_wo (word : Word) :
    (wo word).toNat =
      if word.getLsbD 15 then (word.toNat + 0xFFFF0000) % 2 ^ 32
      else word.toNat := by
  have hbit : word.getLsbD 15 = decide (word.toNat / 2 ^ 15 % 2 = 1) :=
    Nat.testBit_eq_decide_div_mod_eq
  have hword := word.isLt
  simp only [wo, value0, value1, hbit, BitVec.toNat_add, BitVec.toNat_shiftLeft,
    BitVec.toNat_signExtend, BitVec.toNat_setWidth, BitVec.extractLsb'_toNat,
    BitVec.msb_eq_decide, Nat.shiftRight_eq_div_pow, Nat.shiftLeft_eq,
    decide_eq_true_eq]
  split_ifs <;> omega

/-- The halves give the word back exactly when the low one is not negative. -/
theorem wo_eq_iff (word : Word) : wo word = word ↔ word.getLsbD 15 = false := by
  have hword := word.isLt
  rw [← BitVec.toNat_inj, toNat_wo]
  cases word.getLsbD 15 <;> simp
  omega

/-- `wo >> 30` is the sign extension of the two top bits. -/
theorem sshiftRight_thirty (word : Word) :
    word.sshiftRight 30 = (word.extractLsb' 30 2).signExtend 32 := by
  apply BitVec.eq_of_toInt_eq
  have hword := word.isLt
  rw [BitVec.toInt_sshiftRight, BitVec.toInt_signExtend_of_le (by decide),
    Int.shiftRight_eq_div_pow, BitVec.toInt_eq_toNat_cond,
    BitVec.toInt_eq_toNat_cond, BitVec.extractLsb'_toNat,
    Nat.shiftRight_eq_div_pow]
  split_ifs <;> omega

/-- The three tests look for two top bits `00`, `01` and, in vain, `10`. -/
theorem classified_eq (word : Word) :
    classified word =
      if (wo word).extractLsb' 30 2 = 0b00#2 then
        [.pair (value0 word).toInt (value1 word).toInt]
      else if (wo word).extractLsb' 30 2 = 0b01#2 then
        [.time ((wo word).sshiftRight 27 &&& 0x7#32).toInt
          (wo word &&& 0x7FFFFFF#32).toInt]
      else [] := by
  have htests : ∀ top : BitVec 2,
      (top.signExtend 32 = 0#32 ↔ top = 0b00#2) ∧
        (top.signExtend 32 = 1#32 ↔ top = 0b01#2) ∧
        top.signExtend 32 ≠ 2#32 := by
    decide
  obtain ⟨hzero, hone, htwo⟩ := htests ((wo word).extractLsb' 30 2)
  simp only [classified, sshiftRight_thirty, hzero, hone, if_neg htwo,
    List.append_nil]
  split_ifs with hpair htime
  · simp [hpair] at htime
  · rfl
  · rfl
  · rfl

/-- `wo & 0x7FFFFFF` is the low 27 bits. -/
theorem toInt_and_clkCnt (word : Word) :
    (word &&& 0x7FFFFFF#32).toInt = (word.extractLsb' 0 27).toNat := by
  have hmask : (word &&& 0x7FFFFFF#32).toNat = word.toNat % 2 ^ 27 :=
    Nat.and_two_pow_sub_one_eq_mod word.toNat 27
  rw [BitVec.toInt_eq_toNat_of_lt (by rw [hmask]; omega), hmask,
    BitVec.extractLsb'_toNat, Nat.shiftRight_zero]

/-- Without a sign bit `(wo >> 27) & 7` is not negative. -/
theorem toInt_and_flags {word : Word} (hsign : word.msb = false) :
    (word.sshiftRight 27 &&& 0x7#32).toInt = (word >>> 27 &&& 0x7#32).toNat := by
  have hmask : (word >>> 27 &&& 0x7#32).toNat = (word >>> 27).toNat % 2 ^ 3 :=
    Nat.and_two_pow_sub_one_eq_mod (word >>> 27).toNat 3
  rw [BitVec.sshiftRight_eq_of_msb_false hsign,
    BitVec.toInt_eq_toNat_of_lt (by rw [hmask]; omega)]

theorem toNat_pairWord (b a : BitVec 14) :
    (pairWord b a).toNat = b.toNat * 2 ^ 16 + a.toNat := by
  simp only [pairWord, toNat_append_eq, BitVec.toNat_ofNat]
  omega

theorem topBits_flagWord (tr2 tr1 : Bool) (clkCnt : BitVec 27) :
    (flagWord tr2 tr1 clkCnt).extractLsb' 30 2 = 0b01#2 := by
  simp (disch := omega) only [flagWord, BitVec.extractLsb'_append_eq_of_le]
  rfl

theorem topBits_counterWord (trigCnt : BitVec 30) :
    (counterWord trigCnt).extractLsb' 30 2 = 0b10#2 :=
  BitVec.extractLsb'_append_eq_left

theorem counterWord_of_topBits {word : Word}
    (htop : word.extractLsb' 30 2 = 0b10#2) :
    counterWord (word.extractLsb' 0 30) = word := by
  have hword := word.isLt
  have hnat := congrArg BitVec.toNat htop
  apply BitVec.eq_of_toNat_eq
  simp only [counterWord, toNat_append_eq, BitVec.extractLsb'_toNat,
    BitVec.toNat_ofNat, Nat.shiftRight_eq_div_pow] at hnat ⊢
  omega

/-- The recorder inverts the format at a word: the halves give the word back,
and a status, counter or sample word is printed as what it is. -/
structure Inverts (word : Word) : Prop where
  reconstructs : wo word = word
  status : ∀ tr2 tr1 clkCnt, word = flagWord tr2 tr1 clkCnt →
    decode word =
      [rawLine word, .time (word >>> 27 &&& 0x7#32).toNat clkCnt.toNat]
  counter : ∀ trigCnt, word = counterWord trigCnt →
    decode word = [rawLine word, .count trigCnt.toNat]
  sample : ∀ b a, word = pairWord b a →
    decode word = [rawLine word, .pair a.toNat b.toNat]

theorem classified_flagWord {tr2 tr1 : Bool} {clkCnt : BitVec 27}
    (hwo : wo (flagWord tr2 tr1 clkCnt) = flagWord tr2 tr1 clkCnt) :
    classified (flagWord tr2 tr1 clkCnt) =
      [.time (flagWord tr2 tr1 clkCnt >>> 27 &&& 0x7#32).toNat
        clkCnt.toNat] := by
  have htop := topBits_flagWord tr2 tr1 clkCnt
  have hsign : (flagWord tr2 tr1 clkCnt).msb = false := by
    have hnat := congrArg BitVec.toNat htop
    have hword := (flagWord tr2 tr1 clkCnt).isLt
    simp only [BitVec.extractLsb'_toNat, BitVec.toNat_ofNat,
      Nat.shiftRight_eq_div_pow] at hnat
    rw [BitVec.msb_eq_decide, decide_eq_false_iff_not]
    omega
  have hclk : (flagWord tr2 tr1 clkCnt).extractLsb' 0 27 = clkCnt :=
    BitVec.extractLsb'_append_eq_right
  rw [classified_eq, hwo, htop, if_neg (by decide), if_pos rfl,
    toInt_and_flags hsign, toInt_and_clkCnt, hclk]

theorem classified_pairWord {b a : BitVec 14}
    (hwo : wo (pairWord b a) = pairWord b a) :
    classified (pairWord b a) = [.pair a.toNat b.toNat] := by
  have hnat := toNat_pairWord b a
  have ha := a.isLt
  have hb := b.isLt
  have htop : (pairWord b a).extractLsb' 30 2 = 0b00#2 := by
    apply BitVec.eq_of_toNat_eq
    simp only [BitVec.extractLsb'_toNat, hnat, Nat.shiftRight_eq_div_pow,
      BitVec.toNat_ofNat]
    omega
  have hvalue0 : (value0 (pairWord b a)).toNat = a.toNat := by
    simp only [value0, BitVec.extractLsb'_toNat, hnat,
      Nat.shiftRight_eq_div_pow]
    omega
  have hvalue1 : (value1 (pairWord b a)).toNat = b.toNat := by
    simp only [value1, BitVec.extractLsb'_toNat, hnat,
      Nat.shiftRight_eq_div_pow]
    omega
  rw [classified_eq, hwo, htop, if_pos rfl,
    BitVec.toInt_eq_toNat_of_lt (by rw [hvalue0]; omega),
    BitVec.toInt_eq_toNat_of_lt (by rw [hvalue1]; omega), hvalue0, hvalue1]

/-- No word is printed as a counter. -/
theorem classified_ne_count (word : Word) (trigCnt : ℤ) :
    classified word ≠ [.count trigCnt] := by
  rw [classified_eq]
  split_ifs <;> simp

/-- The recorder inverts the format exactly at the words whose bit 15 is zero
and that are no counter words. -/
theorem lagoRecorder_inverts_iff (word : Word) :
    Inverts word ↔
      word.getLsbD 15 = false ∧ word.extractLsb' 30 2 ≠ 0b10#2 := by
  constructor
  · intro hinverts
    refine ⟨(wo_eq_iff word).mp hinverts.reconstructs, ?_⟩
    intro htop
    have hcounter := hinverts.counter _ (counterWord_of_topBits htop).symm
    exact classified_ne_count word _ (List.cons.inj hcounter).2
  · rintro ⟨hbit, htop⟩
    have hwo := (wo_eq_iff word).mpr hbit
    refine ⟨hwo, ?_, ?_, ?_⟩
    · rintro tr2 tr1 clkCnt rfl
      rw [decode, classified_flagWord hwo]
    · rintro trigCnt rfl
      exact absurd (topBits_counterWord trigCnt) htop
    · rintro b a rfl
      rw [decode, classified_pairWord hwo]

/-- The first trigger's counter word, and a status word with bit 15 set. -/
theorem lagoRecorder_inverts_firstTrigger :
    ¬ Inverts (counterWord 0#30) ∧ ¬ Inverts (flagWord false true 0x8000#27) := by
  refine ⟨fun hinverts => ?_, fun hinverts => ?_⟩
  · exact absurd (hinverts.counter _ rfl) (by decide)
  · exact absurd (hinverts.status _ _ _ rfl) (by decide)

end Rfsoc.LagoRecorder
