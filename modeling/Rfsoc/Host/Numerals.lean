import Rfsoc.Core.BinaryFloat
import Mathlib.Data.List.TakeWhile
import Mathlib.Data.Nat.Digits.Lemmas

/-!
# Numerals in C strings

The conversions of the C library that the host programs use, as its standard
describes them: the longest numeral at the start of a string, after white space,
is converted, and what follows it is ignored.  `long` has 32 bits on the board.
A decimal integer as the command line gives it is a type of its own, with its
text and its value.
-/

namespace Rfsoc.Numerals

open Rfsoc.BinaryFloat

/-- A C string, without its zero. -/
abbrev Text := List Char

def isSpace (c : Char) : Bool :=
  c = ' ' || (9 ≤ c.toNat && c.toNat ≤ 13)

def skipSpace (text : Text) : Text := text.dropWhile isSpace

/-- An optional sign, true for a minus, and the rest. -/
def takeSign : Text → Bool × Text
  | '-' :: rest => (true, rest)
  | '+' :: rest => (false, rest)
  | text => (false, text)

def applySign (negative : Bool) (value : ℤ) : ℤ :=
  if negative then -value else value

/-- The value of a digit, or 36. -/
def rawDigit (c : Char) : ℕ :=
  if '0' ≤ c ∧ c ≤ '9' then c.toNat - 48
  else if 'a' ≤ c ∧ c ≤ 'z' then c.toNat - 87
  else if 'A' ≤ c ∧ c ≤ 'Z' then c.toNat - 55
  else 36

/-- The digits at the start of a text, and the rest. -/
def digits (base : ℕ) (text : Text) : List ℕ × Text :=
  ((text.takeWhile fun c => rawDigit c < base).map rawDigit,
    text.dropWhile fun c => rawDigit c < base)

/-- The number with the given digits, the leading one first. -/
def ofDigits (base : ℕ) (values : List ℕ) : ℕ :=
  Nat.ofDigits base values.reverse

/-- `0x` before a hexadecimal digit. -/
def skipHex : Text → Text
  | '0' :: x :: c :: rest =>
      if (x = 'x' ∨ x = 'X') ∧ rawDigit c < 16 then c :: rest
      else '0' :: x :: c :: rest
  | text => text

/-- `strtoul(text, NULL, 16)` -/
def strtoul (text : Text) : BitVec 32 :=
  let (negative, rest) := takeSign (skipSpace text)
  let value := ofDigits 16 (digits 16 (skipHex rest)).1
  if 2 ^ 32 ≤ value then BitVec.allOnes 32
  else BitVec.ofInt 32 (applySign negative value)

/-- `atoi`, which is `strtol` with base 10. -/
def atoi (text : Text) : ℤ :=
  let (negative, rest) := takeSign (skipSpace text)
  let value := applySign negative (ofDigits 10 (digits 10 rest).1)
  max (-2 ^ 31) (min value (2 ^ 31 - 1))

/-- The digits before and after a point, how many are after it, and the rest. -/
def significand (base : ℕ) (text : Text) : List ℕ × ℕ × Text :=
  let (whole, rest) := digits base text
  match rest with
  | '.' :: more =>
      let (fraction, rest) := digits base more
      (whole ++ fraction, fraction.length, rest)
  | _ => (whole, 0, rest)

/-- The number behind an exponent mark, 0 where there is none. -/
def exponent (lower upper : Char) : Text → ℤ
  | [] => 0
  | mark :: text =>
      if mark = lower ∨ mark = upper then
        let (negative, rest) := takeSign text
        applySign negative (ofDigits 10 (digits 10 rest).1)
      else 0

/-- Whether a text starts with a word, in letters of either case. -/
def startsWith (word text : Text) : Bool :=
  word.isPrefixOf (text.map Char.toLower)

def hexFloat (text : Text) : Option ℚ :=
  match text with
  | '0' :: x :: rest =>
      let (values, places, rest) := significand 16 rest
      if (x = 'x' ∨ x = 'X') ∧ values ≠ [] then
        some (ofDigits 16 values * 2 ^ (exponent 'p' 'P' rest - 4 * places))
      else none
  | _ => none

def decimalFloat (text : Text) : ℚ :=
  let (values, places, rest) := significand 10 text
  if values = [] then 0
  else ofDigits 10 values * 10 ^ (exponent 'e' 'E' rest - places)

/-- `atof` -/
def atof (text : Text) : Number :=
  let (negative, rest) := takeSign (skipSpace text)
  if startsWith ['i', 'n', 'f'] rest then .infinite negative
  else if startsWith ['n', 'a', 'n'] rest then .nan
  else
    let magnitude := (hexFloat rest).getD (decimalFloat rest)
    binary64.round (if negative then -magnitude else magnitude)

/-- The sign of a decimal integer as it is written. -/
inductive Sign where
  | none
  | plus
  | minus
  deriving DecidableEq

namespace Sign

def text : Sign → Text
  | none => []
  | plus => ['+']
  | minus => ['-']

def negative (s : Sign) : Bool := decide (s = minus)

end Sign

/-- A decimal digit's character. -/
def digitChar (digit : Fin 10) : Char := Char.ofNat (48 + digit)

/-- A decimal integer: an optional sign and at least one digit. -/
structure Decimal where
  sign : Sign
  head : Fin 10
  tail : List (Fin 10)

namespace Decimal

variable (number : Decimal)

def text : Text :=
  number.sign.text ++ (number.head :: number.tail).map digitChar

def value : ℤ :=
  applySign number.sign.negative
    (ofDigits 10 ((number.head :: number.tail).map Fin.val))

/-- The decimal integer that is left of the first characters. -/
def short (length : ℕ) : Decimal :=
  { number with tail := number.tail.take (length - 1 - number.sign.text.length) }

end Decimal

theorem isSpace_digitChar (digit : Fin 10) :
    isSpace (digitChar digit) = false := by
  revert digit
  decide

theorem rawDigit_digitChar (digit : Fin 10) :
    rawDigit (digitChar digit) = digit := by
  revert digit
  decide

theorem toLower_digitChar (digit : Fin 10) :
    (digitChar digit).toLower = digitChar digit := by
  revert digit
  decide

/-- A digit's character is none of those that begin something else. -/
theorem digitChar_ne (digit : Fin 10) : digitChar digit ≠ '-' ∧
    digitChar digit ≠ '+' ∧ digitChar digit ≠ 'i' ∧ digitChar digit ≠ 'n' ∧
    digitChar digit ≠ 'x' ∧ digitChar digit ≠ 'X' := by
  revert digit
  decide

theorem digits_map_digitChar (list : List (Fin 10)) :
    digits 10 (list.map digitChar) = (list.map Fin.val, []) := by
  have hall : ∀ c ∈ list.map digitChar,
      decide (rawDigit c < 10) = true := by
    intro c hc
    obtain ⟨digit, -, rfl⟩ := List.mem_map.mp hc
    rw [rawDigit_digitChar]
    exact decide_eq_true digit.isLt
  rw [digits, List.takeWhile_eq_self_iff.mpr hall,
    List.dropWhile_eq_nil_iff.mpr hall, List.map_map]
  congr 2
  funext digit
  exact rawDigit_digitChar digit

/-- A text that begins with a digit has no sign to take. -/
theorem takeSign_map_digitChar (head : Fin 10) (tail : List (Fin 10)) :
    takeSign ((head :: tail).map digitChar) =
      (false, (head :: tail).map digitChar) := by
  obtain ⟨hminus, hplus, -⟩ := digitChar_ne head
  rw [List.map_cons, takeSign]
  · exact fun rest hcons => hminus (List.cons.inj hcons).1
  · exact fun rest hcons => hplus (List.cons.inj hcons).1

/-- Digits are no hexadecimal number: the second character is no `x`. -/
theorem hexFloat_map_digitChar (head : Fin 10) (tail : List (Fin 10)) :
    hexFloat ((head :: tail).map digitChar) = none := by
  rw [List.map_cons]
  cases tail with
  | nil =>
      rw [List.map_nil, hexFloat]
      intro x rest hcons
      simp at hcons
  | cons second tail =>
      obtain ⟨-, -, -, -, hlower, hupper⟩ := digitChar_ne second
      rw [List.map_cons]
      by_cases hzero : digitChar head = '0'
      · rw [hzero, hexFloat]
        exact if_neg fun hboth => hboth.1.elim hlower hupper
      · rw [hexFloat]
        intro x rest hcons
        exact hzero (List.cons.inj hcons).1

theorem startsWith_map_digitChar (first : Char) (word : Text) (head : Fin 10)
    (tail : List (Fin 10)) (hfirst : digitChar head ≠ first) :
    startsWith (first :: word) ((head :: tail).map digitChar) = false := by
  rw [startsWith, List.map_cons, List.map_cons, toLower_digitChar,
    List.isPrefixOf_cons_cons]
  simp [hfirst.symm]

theorem decimalFloat_map_digitChar (head : Fin 10) (tail : List (Fin 10)) :
    decimalFloat ((head :: tail).map digitChar) =
      ofDigits 10 ((head :: tail).map Fin.val) := by
  rw [decimalFloat, significand, digits_map_digitChar]
  change (if (head :: tail).map Fin.val = [] then (0 : ℚ) else
    (ofDigits 10 ((head :: tail).map Fin.val) : ℚ) * 10 ^ ((0 : ℤ) - 0)) = _
  rw [if_neg (by simp), sub_zero, zpow_zero, mul_one]

namespace Decimal

variable (number : Decimal)

theorem takeSign_text : takeSign (skipSpace number.text) =
    (number.sign.negative, (number.head :: number.tail).map digitChar) := by
  obtain ⟨sign, head, tail⟩ := number
  cases sign with
  | none =>
      have hskip : skipSpace ((head :: tail).map digitChar) =
          (head :: tail).map digitChar :=
        List.dropWhile_cons_of_neg (by simp [isSpace_digitChar])
      exact (congrArg takeSign hskip).trans (takeSign_map_digitChar head tail)
  | plus => rfl
  | minus => rfl

theorem atoi_text :
    atoi number.text = max (-2 ^ 31) (min number.value (2 ^ 31 - 1)) := by
  rw [atoi, takeSign_text]
  change max _ (min (applySign _ (ofDigits 10
    (digits 10 ((number.head :: number.tail).map digitChar)).1)) _) = _
  rw [digits_map_digitChar, value]

theorem atof_text :
    atof number.text = binary64.round number.value := by
  obtain ⟨-, -, hi, hn, -, -⟩ := digitChar_ne number.head
  have hvalue : (number.value : ℚ) =
      if number.sign.negative then
        -(ofDigits 10 ((number.head :: number.tail).map Fin.val) : ℚ)
      else ofDigits 10 ((number.head :: number.tail).map Fin.val) := by
    rw [value, applySign]
    split <;> simp
  rw [atof, takeSign_text]
  change (if startsWith _ ((number.head :: number.tail).map digitChar) then _
    else if startsWith _ ((number.head :: number.tail).map digitChar) then _
    else binary64.round (if number.sign.negative then
      -(hexFloat _).getD _ else (hexFloat _).getD _)) = _
  rw [startsWith_map_digitChar _ _ _ _ hi, startsWith_map_digitChar _ _ _ _ hn,
    hexFloat_map_digitChar, Option.getD_none, decimalFloat_map_digitChar, hvalue]
  rfl

/-- The first characters are a decimal integer too. -/
theorem short_text {length : ℕ} (hlength : 2 ≤ length) :
    (number.short length).text = number.text.take length := by
  obtain ⟨sign, head, tail⟩ := number
  obtain ⟨rest, rfl⟩ := Nat.exists_eq_add_of_le' hlength
  cases sign <;> simp [short, text, Sign.text, List.map_take]

/-- Dropping digits at the end of a number makes it no larger. -/
theorem ofDigits_take_le (values : List ℕ) (count : ℕ) :
    ofDigits 10 (values.take count) ≤ ofDigits 10 values := by
  have hsplit : ofDigits 10 values = ofDigits 10 (values.drop count) +
      10 ^ (values.drop count).length * ofDigits 10 (values.take count) := by
    rw [ofDigits, ofDigits, ofDigits, ← List.length_reverse,
      ← Nat.ofDigits_append, ← List.reverse_append, List.take_append_drop]
  rw [hsplit]
  exact (Nat.le_mul_of_pos_left _ (Nat.pow_pos (by decide))).trans
    (Nat.le_add_left _ _)

theorem short_between (length : ℕ) (hpos : 0 ≤ number.value) :
    0 ≤ (number.short length).value ∧
      (number.short length).value ≤ number.value := by
  have hle : ofDigits 10 (((number.short length).head ::
      (number.short length).tail).map Fin.val) ≤
        ofDigits 10 ((number.head :: number.tail).map Fin.val) := by
    have htake := ofDigits_take_le ((number.head :: number.tail).map Fin.val)
      (length - 1 - number.sign.text.length + 1)
    rwa [← List.map_take, List.take_succ_cons] at htake
  rw [value, applySign] at hpos ⊢
  rw [value, applySign]
  change 0 ≤ (if number.sign.negative then _ else _) ∧
    (if number.sign.negative then _ else _) ≤ _
  split at hpos
  case isTrue hnegative =>
    rw [if_pos hnegative, if_pos hnegative]
    omega
  case isFalse hpositive =>
    rw [if_neg hpositive, if_neg hpositive]
    omega

/-- A decimal integer with few digits is small. -/
theorem abs_value_lt {length : ℕ} (hlength : number.tail.length < length) :
    |number.value| < 10 ^ length := by
  have hdigits : ∀ digit ∈ ((number.head :: number.tail).map Fin.val).reverse,
      digit < 10 := by
    intro digit hdigit
    obtain ⟨original, -, rfl⟩ := List.mem_map.mp (List.mem_reverse.mp hdigit)
    exact original.isLt
  have hbound := Nat.ofDigits_lt_base_pow_length (by decide) hdigits
  rw [List.length_reverse, List.length_map, List.length_cons] at hbound
  have hpower : 10 ^ (number.tail.length + 1) ≤ 10 ^ length :=
    Nat.pow_le_pow_right (by decide) hlength
  have hsmall : ((ofDigits 10 ((number.head :: number.tail).map Fin.val) : ℕ) : ℤ)
      < 10 ^ length := by
    exact_mod_cast hbound.trans_le hpower
  rw [value, applySign]
  split
  case isTrue => rwa [abs_neg, Nat.abs_cast]
  case isFalse => rwa [Nat.abs_cast]

end Decimal

end Rfsoc.Numerals
