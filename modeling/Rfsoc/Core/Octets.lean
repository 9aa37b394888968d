import Mathlib.Tactic.Ring

/-!
# Numbers and fields in octets

A number is written most significant octet first in a fixed width, and a field is
a number, the field's length, followed by that many octets.
-/

namespace Rfsoc.Octets

abbrev Octet := BitVec 8

/-- The number that the octets stand for, the first one the most significant. -/
def number : List Octet → ℕ
  | [] => 0
  | octet :: octets => octet.toNat * 256 ^ octets.length + number octets

/-- The number in `width` octets. -/
def octets : ℕ → ℕ → List Octet
  | 0, _ => []
  | width + 1, value =>
      BitVec.ofNat 8 (value / 256 ^ width) :: octets width (value % 256 ^ width)

/-- A field after its length in `width` octets. -/
def lengthFirst (width : ℕ) (field : List Octet) : List Octet :=
  octets width field.length ++ field

@[simp]
theorem length_octets (width value : ℕ) : (octets width value).length = width := by
  induction width generalizing value with
  | zero => rfl
  | succ width ih => simp [octets, ih]

theorem number_lt (word : List Octet) : number word < 256 ^ word.length := by
  induction word with
  | nil => simp [number]
  | cons octet word ih =>
      have hoctet : octet.toNat + 1 ≤ 256 := octet.isLt
      calc octet.toNat * 256 ^ word.length + number word
          < (octet.toNat + 1) * 256 ^ word.length := by
            rw [Nat.add_one_mul]
            exact Nat.add_lt_add_left ih _
        _ ≤ 256 * 256 ^ word.length := Nat.mul_le_mul_right _ hoctet
        _ = 256 ^ (octet :: word).length := by
            rw [List.length_cons, Nat.pow_succ, Nat.mul_comm]

theorem number_octets {width value : ℕ} (hvalue : value < 256 ^ width) :
    number (octets width value) = value := by
  induction width generalizing value with
  | zero =>
      have hzero : value = 0 := by simpa using hvalue
      simp [octets, number, hzero]
  | succ width ih =>
      have hhead : value / 256 ^ width < 256 := by
        rw [Nat.div_lt_iff_lt_mul (Nat.pow_pos (by decide))]
        rwa [Nat.pow_succ, Nat.mul_comm] at hvalue
      have hrest : value % 256 ^ width < 256 ^ width :=
        Nat.mod_lt _ (Nat.pow_pos (by decide))
      rw [octets, number, ih hrest, length_octets, BitVec.toNat_ofNat,
        Nat.mod_eq_of_lt hhead, Nat.div_add_mod']

theorem octets_number (word : List Octet) :
    octets word.length (number word) = word := by
  induction word with
  | nil => rfl
  | cons octet word ih =>
      have hpos : 0 < 256 ^ word.length := Nat.pow_pos (by decide)
      have hhead :
          (octet.toNat * 256 ^ word.length + number word) / 256 ^ word.length =
            octet.toNat := by
        rw [Nat.mul_comm, Nat.mul_add_div hpos, Nat.div_eq_of_lt (number_lt word),
          Nat.add_zero]
      have hrest :
          (octet.toNat * 256 ^ word.length + number word) % 256 ^ word.length =
            number word := by
        rw [Nat.mul_comm, Nat.mul_add_mod, Nat.mod_eq_of_lt (number_lt word)]
      rw [List.length_cons, octets, number, hhead, hrest, ih, BitVec.ofNat_toNat,
        BitVec.setWidth_eq]

/-- A number and what follows it can be told apart. -/
theorem octets_append_inj {width left right : ℕ} {restL restR : List Octet}
    (hleft : left < 256 ^ width) (hright : right < 256 ^ width)
    (heq : octets width left ++ restL = octets width right ++ restR) :
    left = right ∧ restL = restR := by
  obtain ⟨hnumber, hrest⟩ := List.append_inj heq (by simp)
  have hvalue := congrArg number hnumber
  rw [number_octets hleft, number_octets hright] at hvalue
  exact ⟨hvalue, hrest⟩

/-- So can a field. -/
theorem lengthFirst_append_inj {width : ℕ} {left right restL restR : List Octet}
    (hleft : left.length < 256 ^ width) (hright : right.length < 256 ^ width)
    (heq : lengthFirst width left ++ restL = lengthFirst width right ++ restR) :
    left = right ∧ restL = restR := by
  simp only [lengthFirst, List.append_assoc] at heq
  obtain ⟨hlength, hrest⟩ := octets_append_inj hleft hright heq
  exact List.append_inj hrest hlength

end Rfsoc.Octets
