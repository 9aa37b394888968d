import Mathlib.InformationTheory.Coding.UniquelyDecodable

/-!
# Prefix codes

A code in which no codeword begins another one can be cut into codewords in at
most one way.
-/

namespace Rfsoc.PrefixCode

open InformationTheory

variable {Symbol : Type*}

/-- No codeword is empty and none begins another. -/
structure PrefixFree (code : Set (List Symbol)) : Prop where
  nonempty : ∀ word ∈ code, word ≠ []
  cancel : ∀ left ∈ code, ∀ right ∈ code, left <+: right → left = right

theorem PrefixFree.uniquelyDecodable {code : Set (List Symbol)}
    (hcode : PrefixFree code) : UniquelyDecodable code := by
  intro left
  induction left with
  | nil =>
      intro right _ hright hflat
      cases right with
      | nil => rfl
      | cons word right =>
          have hword : word = [] := by
            simp only [List.flatten_nil, List.flatten_cons] at hflat
            exact (List.append_eq_nil_iff.mp hflat.symm).1
          exact absurd hword (hcode.nonempty word (hright word (by simp)))
  | cons head left ih =>
      intro right hleft hright hflat
      have hhead := hleft head (by simp)
      cases right with
      | nil =>
          have hempty : head = [] := by
            simp only [List.flatten_nil, List.flatten_cons] at hflat
            exact (List.append_eq_nil_iff.mp hflat).1
          exact absurd hempty (hcode.nonempty head hhead)
      | cons word right =>
          have hword := hright word (by simp)
          simp only [List.flatten_cons] at hflat
          have heq : head = word := by
            rcases List.prefix_or_prefix_of_prefix
                (List.prefix_append head left.flatten)
                (hflat ▸ List.prefix_append word right.flatten) with h | h
            · exact hcode.cancel head hhead word hword h
            · exact (hcode.cancel word hword head hhead h).symm
          subst heq
          rw [ih right (fun w hw => hleft w (by simp [hw]))
            (fun w hw => hright w (by simp [hw]))
            (List.append_cancel_left hflat)]

end Rfsoc.PrefixCode
