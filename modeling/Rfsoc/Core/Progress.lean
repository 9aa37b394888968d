import Mathlib.Order.Filter.AtTopBot.Basic

/-!
# What happens in the end

A condition leads to another when every cycle with the first is followed by one
with the second.  An event that happens again and again turns a condition that
waits for it into what comes next; chains of such steps are progress.
-/

namespace Rfsoc.Progress

open Filter

variable {P Q R event : ℕ → Prop}

/-- After every cycle with the first condition, or in it, the second holds. -/
def LeadsTo (P Q : ℕ → Prop) : Prop :=
  ∀ cycle, P cycle → ∃ later, cycle ≤ later ∧ Q later

namespace LeadsTo

theorem of_next (hnext : ∀ cycle, P cycle → Q (cycle + 1)) : LeadsTo P Q :=
  fun cycle hhere => ⟨cycle + 1, Nat.le_succ cycle, hnext cycle hhere⟩

theorem trans (hfirst : LeadsTo P Q) (hsecond : LeadsTo Q R) : LeadsTo P R := by
  intro cycle hhere
  obtain ⟨middle, hmiddle, hthere⟩ := hfirst cycle hhere
  obtain ⟨later, hlater, hend⟩ := hsecond middle hthere
  exact ⟨later, hmiddle.trans hlater, hend⟩

/-- What waits for an event that recurs gets past it. -/
theorem of_event (hrecurs : ∃ᶠ cycle in atTop, event cycle)
    (hwait : ∀ cycle, P cycle → ¬ event cycle → P (cycle + 1))
    (hevent : ∀ cycle, P cycle → event cycle → Q (cycle + 1)) :
    LeadsTo P Q := by
  intro cycle hhere
  obtain ⟨last, hlast, hthere⟩ := frequently_atTop.mp hrecurs cycle
  obtain ⟨distance, rfl⟩ := Nat.exists_eq_add_of_le hlast
  clear hlast
  induction distance generalizing cycle with
  | zero => exact ⟨cycle + 1, Nat.le_succ cycle, hevent cycle hhere hthere⟩
  | succ distance ih =>
      by_cases hnow : event cycle
      · exact ⟨cycle + 1, Nat.le_succ cycle, hevent cycle hhere hnow⟩
      · rw [Nat.add_comm distance, ← Nat.add_assoc] at hthere
        obtain ⟨later, hlater, hend⟩ := ih (cycle + 1)
          (hwait cycle hhere hnow) hthere
        exact ⟨later, (Nat.le_succ cycle).trans hlater, hend⟩

/-- A quantity that rises again and again below its goal gets there. -/
theorem climbs {level : ℕ → ℕ} {goal : ℕ}
    (hrises : ∀ height < goal,
      LeadsTo (fun cycle => P cycle ∧ level cycle = height)
        fun cycle => P cycle ∧ height < level cycle) :
    LeadsTo P fun cycle => P cycle ∧ goal ≤ level cycle := by
  intro cycle hhere
  induction hdistance : goal - level cycle using Nat.strong_induction_on
    generalizing cycle with
  | _ distance ih =>
      by_cases hreached : goal ≤ level cycle
      · exact ⟨cycle, le_rfl, hhere, hreached⟩
      · obtain ⟨middle, hmiddle, hthere, hrise⟩ :=
          hrises (level cycle) (by omega) cycle ⟨hhere, rfl⟩
        obtain ⟨later, hlater, hend⟩ := ih (goal - level middle) (by omega)
          middle hthere rfl
        exact ⟨later, hmiddle.trans hlater, hend⟩

end LeadsTo

end Rfsoc.Progress
