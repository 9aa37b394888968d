import Rfsoc.Lago.Trigger

/-!
# Triggers and sub-triggers of one channel

Both conditions look at the lower places of a channel's array, where a sample
stands one place lower in each cycle.  A sample at or above the level, which is
what a trigger shows at place 3, therefore rules out the conditions of the
neighbouring cycles that see it as well.
-/

namespace Rfsoc.LagoTrigger

open Rfsoc.Clocked
open Rfsoc.Window

/-- The later array is the earlier one so many places further down, or has been
cleared since. -/
def Moved (cycles : ℕ) (early late : Fin dataArrayLength → Sample) : Prop :=
  (∀ k (h : k.val + cycles < dataArrayLength),
      late k = early ⟨k.val + cycles, h⟩) ∨
    ∀ k, k.val + cycles < dataArrayLength → late k = 0

/-- What one clock edge does to an array. -/
def Shifts (array : State → Fin dataArrayLength → Sample) : Prop :=
  ∀ s i, (∃ sample, array (step s i) = shift (array s) sample) ∨
    array (step s i) = fun _ => 0

theorem shifts_adcDatAReg : Shifts State.adcDatAReg := by
  intro s i
  cases hrun : i.aresetn with
  | true =>
      left
      exact ⟨i.sAxisTdata.extractLsb' 0 16, by rw [step, if_pos hrun]; rfl⟩
  | false =>
      right
      rw [step, hrun]
      rfl

theorem shifts_adcDatBReg : Shifts State.adcDatBReg := by
  intro s i
  cases hrun : i.aresetn with
  | true =>
      left
      exact ⟨i.sAxisTdata.extractLsb' 16 16, by rw [step, if_pos hrun]; rfl⟩
  | false =>
      right
      rw [step, hrun]
      rfl

theorem Moved.shift {cycles : ℕ} {early late : Fin dataArrayLength → Sample}
    (hmoved : Moved cycles early late) (sample : Sample) :
    Moved (cycles + 1) early (shift late sample) := by
  have hplace : ∀ k : Fin dataArrayLength,
      k.val + (cycles + 1) < dataArrayLength →
      ∃ h : k.val + 1 < dataArrayLength,
        Window.shift late sample k = late ⟨k.val + 1, h⟩ := by
    intro k hk
    have h : k.val + 1 < dataArrayLength := by omega
    exact ⟨h, dif_pos h⟩
  cases hmoved with
  | inl hdown =>
      left
      intro k hk
      obtain ⟨h, hlate⟩ := hplace k hk
      rw [hlate, hdown ⟨k.val + 1, h⟩ (by simp only; omega)]
      congr 2
      simp only
      omega
  | inr hcleared =>
      right
      intro k hk
      obtain ⟨h, hlate⟩ := hplace k hk
      rw [hlate]
      exact hcleared ⟨k.val + 1, h⟩ (by simp only; omega)

theorem moved_stateAt {array : State → Fin dataArrayLength → Sample}
    (hshifts : Shifts array) (input : ℕ → Input) (cycle cycles : ℕ) :
    Moved cycles (array (core.stateAt input cycle))
      (array (core.stateAt input (cycle + cycles))) := by
  induction cycles with
  | zero => exact Or.inl fun k _ => rfl
  | succ cycles ih =>
      rw [← Nat.add_assoc, Machine.stateAt_succ]
      cases hshifts (core.stateAt input (cycle + cycles))
          (input (cycle + cycles)) with
      | inl hshift =>
          obtain ⟨sample, hsample⟩ := hshift
          change Moved _ _ (array (step _ _))
          rw [hsample]
          exact ih.shift sample
      | inr hcleared =>
          right
          intro k _
          exact congrFun hcleared k

theorem crosses_iff (array : Fin dataArrayLength → Sample) (level : Sample) :
    crosses array level = true ↔
      level.toInt ≤ (array 3).toInt ∧ (array 2).toInt < level.toInt ∧
        (array 1).toInt < level.toInt := by
  rw [crosses, Bool.and_eq_true, Bool.and_eq_true, BitVec.sle_iff_toInt_le,
    BitVec.slt_iff_toInt_lt, BitVec.slt_iff_toInt_lt, and_assoc]

/-- A peak: a rise to place 2, no rise after it, and all below the level. -/
theorem inequalities_of_peaks {array : Fin dataArrayLength → Sample}
    {sublevel level : Sample} (hpeaks : peaks array sublevel level = true) :
    (array 1).toInt < (array 2).toInt ∧ (array 3).toInt ≤ (array 2).toInt ∧
      (array 2).toInt < level.toInt ∧ (array 3).toInt < level.toInt ∧
        (array 4).toInt < level.toInt := by
  simp only [peaks, Bool.and_eq_true, Bool.or_eq_true, beq_iff_eq,
    BitVec.slt_iff_toInt_lt] at hpeaks
  obtain ⟨⟨⟨⟨⟨-, hrise⟩, hfall⟩, hsecond⟩, hthird⟩, hfourth⟩ := hpeaks
  refine ⟨hrise, ?_, hsecond, hthird, hfourth⟩
  cases hfall with
  | inl hlt => exact hlt.le
  | inr hplateau => rw [hplateau.1]

section Moved

variable {early late : Fin dataArrayLength → Sample}
  {sublevel sublevel' level : Sample}

/-- No trigger one or two cycles after a trigger. -/
theorem not_crosses_of_crosses {cycles : ℕ} (hfirst : 1 ≤ cycles)
    (hlast : cycles ≤ 2) (hmoved : Moved cycles early late)
    (hcrosses : crosses early level = true) : crosses late level = false := by
  rw [← Bool.not_eq_true, crosses_iff]
  obtain ⟨habove, -, -⟩ := (crosses_iff early level).mp hcrosses
  rintro ⟨hthird, hsecond, hone⟩
  cases hmoved with
  | inr hcleared =>
      have hzero : ∀ k : Fin dataArrayLength, k.val ≤ 3 → late k = 0 :=
        fun k hk => hcleared k (by simp only [dataArrayLength]; omega)
      rw [hzero 3 (by decide)] at hthird
      rw [hzero 2 (by decide)] at hsecond
      omega
  | inl hdown =>
      -- the sample at place 3 has come down to place 2 or place 1
      obtain rfl | rfl : cycles = 1 ∨ cycles = 2 := by omega
      · have hsame : late 2 = early 3 := hdown 2 (by decide)
        rw [hsame] at hsecond
        omega
      · have hsame : late 1 = early 3 := hdown 1 (by decide)
        rw [hsame] at hone
        omega

/-- No sub-trigger in the cycle after a sub-trigger. -/
theorem not_peaks_of_peaks (hmoved : Moved 1 early late)
    (hpeaks : peaks early sublevel level = true) :
    peaks late sublevel' level = false := by
  rw [← Bool.not_eq_true]
  intro hlate
  obtain ⟨-, hfall, -⟩ := inequalities_of_peaks hpeaks
  obtain ⟨hrise, -⟩ := inequalities_of_peaks hlate
  cases hmoved with
  | inr hcleared =>
      rw [hcleared 1 (by decide), hcleared 2 (by decide)] at hrise
      omega
  | inl hdown =>
      have hone : late 1 = early 2 := hdown 1 (by decide)
      have htwo : late 2 = early 3 := hdown 2 (by decide)
      rw [hone, htwo] at hrise
      omega

/-- A sub-trigger sees the sample that the triggers of its own cycle and of the
two before it judge. -/
theorem not_crosses_of_later_peaks {cycles : ℕ} (hlast : cycles ≤ 2)
    (hmoved : Moved cycles early late)
    (hpeaks : peaks late sublevel level = true) :
    crosses early level = false := by
  rw [← Bool.not_eq_true, crosses_iff]
  obtain ⟨hrise, -, hsecond, hthird, -⟩ := inequalities_of_peaks hpeaks
  rintro ⟨habove, -, -⟩
  cases hmoved with
  | inr hcleared =>
      have hzero : ∀ k : Fin dataArrayLength, k.val ≤ 3 → late k = 0 :=
        fun k hk => hcleared k (by simp only [dataArrayLength]; omega)
      rw [hzero 1 (by decide), hzero 2 (by decide)] at hrise
      omega
  | inl hdown =>
      obtain rfl | rfl | rfl : cycles = 0 ∨ cycles = 1 ∨ cycles = 2 := by omega
      · have hsame : late 3 = early 3 := hdown 3 (by decide)
        rw [hsame] at hthird
        omega
      · have hsame : late 2 = early 3 := hdown 2 (by decide)
        rw [hsame] at hsecond
        omega
      · have hsame : late 1 = early 3 := hdown 1 (by decide)
        rw [hsame] at hrise
        omega

/-- A sub-trigger has looked ahead at the sample of the next cycle. -/
theorem not_crosses_of_peaks (hmoved : Moved 1 early late)
    (hpeaks : peaks early sublevel level = true) :
    crosses late level = false := by
  rw [← Bool.not_eq_true, crosses_iff]
  obtain ⟨-, -, -, -, hfourth⟩ := inequalities_of_peaks hpeaks
  rintro ⟨habove, hsecond, -⟩
  cases hmoved with
  | inr hcleared =>
      rw [hcleared 3 (by decide)] at habove
      rw [hcleared 2 (by decide)] at hsecond
      omega
  | inl hdown =>
      have hsame : late 3 = early 4 := hdown 3 (by decide)
      rw [hsame] at habove
      omega

end Moved

/-- The trigger and sub-trigger signals of one channel keep apart. -/
structure Exclusive (trigger subTrigger : ℕ → Bool) : Prop where
  triggers : ∀ early late, early < late → trigger early = true →
    trigger late = true → early + 3 ≤ late
  subTriggers : ∀ early late, early < late → subTrigger early = true →
    subTrigger late = true → early + 2 ≤ late
  /-- A sub-trigger excludes the triggers from two cycles before it to one
  cycle after it. -/
  excluded : ∀ cycle other, subTrigger cycle = true → cycle ≤ other + 2 →
    other ≤ cycle + 1 → trigger other = false

/-- A channel whose array is shifted in every cycle, under a constant level. -/
theorem exclusive_of_shifts {array : State → Fin dataArrayLength → Sample}
    (hshifts : Shifts array) (input : ℕ → Input) (level : Sample)
    (sublevel : ℕ → Sample) :
    Exclusive
      (fun cycle => crosses (array (core.stateAt input cycle)) level)
      (fun cycle =>
        peaks (array (core.stateAt input cycle)) (sublevel cycle) level) where
  triggers := by
    intro early late hlt hearly hlate
    by_contra hnear
    obtain ⟨cycles, rfl⟩ := Nat.exists_eq_add_of_le hlt.le
    have hmoved := moved_stateAt hshifts input early cycles
    have hnone := not_crosses_of_crosses (by omega) (by omega) hmoved hearly
    exact Bool.false_ne_true (hnone.symm.trans hlate)
  subTriggers := by
    intro early late hlt hearly hlate
    by_contra hnear
    obtain rfl : late = early + 1 := by omega
    have hmoved := moved_stateAt hshifts input early 1
    exact Bool.false_ne_true
      ((not_peaks_of_peaks hmoved hearly).symm.trans hlate)
  excluded := by
    intro cycle other hpeaks hlow hhigh
    by_cases hbefore : other ≤ cycle
    · obtain ⟨cycles, rfl⟩ := Nat.exists_eq_add_of_le hbefore
      have hmoved := moved_stateAt hshifts input other cycles
      exact not_crosses_of_later_peaks (by omega) hmoved hpeaks
    · obtain rfl : other = cycle + 1 := by omega
      exact not_crosses_of_peaks (moved_stateAt hshifts input cycle 1) hpeaks

/-- Under constant trigger levels, in every run and on both channels, triggers
are at least three cycles apart, sub-triggers at least two, and a sub-trigger
keeps the triggers around it away. -/
theorem lagoTrigger_exclusive (input : ℕ → Input) (level : Word)
    (hlevel : ∀ cycle, (input cycle).trigLvlI = level) :
    Exclusive (fun cycle => tr1S (core.stateAt input cycle) (input cycle))
        (fun cycle => subtr1S (core.stateAt input cycle) (input cycle)) ∧
      Exclusive (fun cycle => tr2S (core.stateAt input cycle) (input cycle))
        (fun cycle => subtr2S (core.stateAt input cycle) (input cycle)) := by
  have hlevelA : ∀ cycle, trigLvlA (input cycle) = level.extractLsb' 0 16 := by
    intro cycle
    rw [trigLvlA, hlevel]
  have hlevelB : ∀ cycle, trigLvlB (input cycle) = level.extractLsb' 16 16 := by
    intro cycle
    rw [trigLvlB, hlevel]
  simp only [tr1S, subtr1S, tr2S, subtr2S, hlevelA, hlevelB]
  exact ⟨exclusive_of_shifts shifts_adcDatAReg input _ _,
    exclusive_of_shifts shifts_adcDatBReg input _ _⟩

/-- A small peak in cycle 3 and a high one in cycle 6, on both channels. -/
def hillyRun (cycle : ℕ) : Input where
  aresetn := true
  trigLvlI := 0x00640064#32
  subtrigLvlI := 0x000A000A#32
  ppsI := false
  clkCntPpsI := 0
  sAxisTdata :=
    if cycle = 3 then 0x00320032#32
    else if cycle = 6 then 0x00C800C8#32
    else 0
  sAxisTvalid := true
  mAxisTready := true

theorem lagoTrigger_exclusive_hillyRun :
    Exclusive
        (fun cycle => tr1S (core.stateAt hillyRun cycle) (hillyRun cycle))
        (fun cycle => subtr1S (core.stateAt hillyRun cycle) (hillyRun cycle)) ∧
      Exclusive
        (fun cycle => tr2S (core.stateAt hillyRun cycle) (hillyRun cycle))
        (fun cycle => subtr2S (core.stateAt hillyRun cycle) (hillyRun cycle)) :=
  lagoTrigger_exclusive hillyRun 0x00640064#32 fun _ => rfl

example : subtr1S (core.stateAt hillyRun 13) (hillyRun 13) = true ∧
    tr1S (core.stateAt hillyRun 15) (hillyRun 15) = true := by
  decide +kernel

end Rfsoc.LagoTrigger
