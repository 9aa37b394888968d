import Mathlib.Data.List.GetD

/-!
# Sliding windows

A shift register of `depth` places takes a value in at its top index and drops
the one at index 0.  Started on a constant it shows the latest `depth` values
of what it has taken in, newest at the top, with the constant standing for the
missing ones.
-/

namespace Rfsoc.Window

variable {Value : Type*} {depth : ℕ}

/-- One shift: the new value enters at the top index. -/
def shift (array : Fin depth → Value) (value : Value) : Fin depth → Value :=
  fun k => if h : k.val + 1 < depth then array ⟨k.val + 1, h⟩ else value

/-- The latest values of a history that is given oldest first. -/
def latest (missing : Value) (history : List Value) : Fin depth → Value :=
  fun k => history.reverse.getD (depth - 1 - k.val) missing

@[simp]
theorem latest_nil (missing : Value) :
    (latest missing [] : Fin depth → Value) = fun _ => missing := by
  funext k
  rfl

theorem shift_latest (missing value : Value) (history : List Value) :
    shift (latest missing history : Fin depth → Value) value =
      latest missing (history ++ [value]) := by
  funext k
  rw [shift, latest, List.reverse_append]
  by_cases htop : k.val + 1 < depth
  · have hplace : depth - 1 - k.val = depth - 1 - (k.val + 1) + 1 := by omega
    rw [dif_pos htop, latest, hplace]
    rfl
  · have hplace : depth - 1 - k.val = 0 := by omega
    rw [dif_neg htop, hplace]
    rfl

/-- A place that has been reached shows the value taken in that many shifts
ago. -/
theorem latest_range_map (missing : Value) (value : ℕ → Value) {count : ℕ}
    {k : Fin depth} (hreached : depth ≤ count + k.val) :
    latest missing ((List.range count).map value) k =
      value (count + k.val - depth) := by
  have hplace : depth - 1 - k.val < count := by
    have := k.isLt
    omega
  rw [latest, List.getD_eq_getElem _ _ (by simpa using hplace),
    List.getElem_reverse, List.getElem_map, List.getElem_range]
  congr 1
  simp only [List.length_map, List.length_range]
  omega

/-- A place that has not been reached shows the missing value. -/
theorem latest_of_length_le (missing : Value) {history : List Value}
    {k : Fin depth} (hshort : history.length + k.val < depth) :
    latest missing history k = missing := by
  rw [latest, List.getD_eq_default]
  rw [List.length_reverse]
  omega

/-- A shift changes nothing exactly when every place holds the value taken
in. -/
theorem shift_eq_self_iff (array : Fin depth → Value) (value : Value) :
    shift array value = array ↔ ∀ k, array k = value := by
  constructor
  · intro hsame
    have hdown : ∀ back, ∀ k : Fin depth, k.val + 1 + back = depth →
        array k = value := by
      intro back
      induction back with
      | zero =>
          intro k hk
          rw [← congrFun hsame k, shift, dif_neg (by omega)]
      | succ back ih =>
          intro k hk
          rw [← congrFun hsame k, shift, dif_pos (by omega)]
          apply ih
          change k.val + 1 + 1 + back = depth
          omega
    intro k
    apply hdown (depth - (k.val + 1)) k
    have := k.isLt
    omega
  · intro hall
    funext k
    rw [shift, hall k]
    split
    · exact hall _
    · rfl

end Rfsoc.Window
