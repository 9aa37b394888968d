import Mathlib.Data.Nat.Count

/-!
# Rotations

A phase that grows by the same increment in every step, modulo a full turn.  The
unwrapped phase is a line; the phase is its remainder and the turns that have been
completed are its quotient.
-/

namespace Rfsoc.Rotation

/-- The steps of a phase that pass its zero. -/
def turns (phase : ℕ → ℕ) (steps : ℕ) : ℕ :=
  Nat.count (fun step => phase (step + 1) < phase step) steps

variable {turn increment : ℕ} {phase : ℕ → ℕ}

theorem phase_eq (hstart : phase 0 < turn)
    (hnext : ∀ step, phase (step + 1) = (phase step + increment) % turn)
    (steps : ℕ) :
    phase steps = (phase 0 + steps * increment) % turn := by
  induction steps with
  | zero => rw [Nat.zero_mul, Nat.add_zero, Nat.mod_eq_of_lt hstart]
  | succ steps ih =>
      rw [hnext, ih, Nat.mod_add_mod, Nat.succ_mul, Nat.add_assoc]

/-- A step passes zero exactly when the unwrapped phase completes a turn. -/
theorem div_step (hturn : increment < turn) (line : ℕ) :
    (line + increment) / turn =
      line / turn +
        if (line % turn + increment) % turn < line % turn then 1 else 0 := by
  have hpos : 0 < turn := (Nat.zero_le increment).trans_lt hturn
  have hmod : line % turn < turn := Nat.mod_lt line hpos
  have hline : line + increment =
      turn * (line / turn) + (line % turn + increment) := by
    rw [← Nat.add_assoc, Nat.div_add_mod]
  rw [hline, Nat.mul_add_div hpos]
  congr 1
  by_cases hwrap : line % turn + increment < turn
  · rw [Nat.div_eq_of_lt hwrap, Nat.mod_eq_of_lt hwrap, if_neg (by omega)]
  · have hrest : (line % turn + increment) % turn =
        line % turn + increment - turn := by
      rw [Nat.mod_eq_sub_mod (not_lt.mp hwrap), Nat.mod_eq_of_lt (by omega)]
    rw [hrest, if_pos (by omega)]
    exact Nat.div_eq_of_lt_le (by omega) (by omega)

/-- The completed turns are the quotient of the unwrapped phase. -/
theorem turns_eq (hturn : increment < turn) (hstart : phase 0 < turn)
    (hnext : ∀ step, phase (step + 1) = (phase step + increment) % turn)
    (steps : ℕ) :
    turns phase steps = (phase 0 + steps * increment) / turn := by
  induction steps with
  | zero =>
      rw [turns, Nat.count_zero, Nat.zero_mul, Nat.add_zero,
        Nat.div_eq_of_lt hstart]
  | succ steps ih =>
      rw [turns, Nat.count_succ, ← turns, ih, Nat.succ_mul, ← Nat.add_assoc,
        div_step hturn, hnext steps, phase_eq hstart hnext steps]

end Rfsoc.Rotation
