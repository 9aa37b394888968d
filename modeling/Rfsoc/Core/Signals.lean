import Rfsoc.Core.Clocked

/-!
# Signals and the words under them

A signal is a level in each cycle.  The words of a bus in the cycles in which a
signal is high, a handshake for example, form a list; a word's place in it is
the number of high cycles before its own.
-/

namespace Rfsoc.Signals

open Rfsoc.Clocked

/-- The cycles before the given one in which a signal is high. -/
def highCycles (signal : ℕ → Bool) (cycle : ℕ) : ℕ :=
  Nat.count (fun earlier => signal earlier = true) cycle

section HighCycles

variable {signal other : ℕ → Bool} {early late place : ℕ}

@[simp]
theorem highCycles_zero : highCycles signal 0 = 0 := Nat.count_zero _

theorem highCycles_succ (cycle : ℕ) :
    highCycles signal (cycle + 1) =
      highCycles signal cycle + (signal cycle).toNat := by
  rw [highCycles, Nat.count_succ, ← highCycles]
  cases signal cycle <;> rfl

theorem highCycles_congr {cycle : ℕ}
    (hsame : ∀ earlier < cycle, signal earlier = other earlier) :
    highCycles signal cycle = highCycles other cycle := by
  induction cycle with
  | zero => rfl
  | succ cycle ih =>
      rw [highCycles_succ, highCycles_succ, hsame cycle (Nat.lt_succ_self cycle),
        ih fun earlier hearlier => hsame earlier (by omega)]

theorem highCycles_mono (hle : early ≤ late) :
    highCycles signal early ≤ highCycles signal late :=
  Nat.count_monotone _ hle

theorem highCycles_lt (hhigh : signal early = true) (hlt : early < late) :
    highCycles signal early < highCycles signal late :=
  Nat.count_strict_mono hhigh hlt

theorem highCycles_of_high {horizon : ℕ}
    (hhigh : ∀ cycle < horizon, signal cycle = true) :
    highCycles signal horizon = horizon :=
  Nat.count_of_forall hhigh

/-- A high cycle is determined by the number of those before it. -/
theorem eq_of_highCycles_eq (hearly : signal early = true)
    (hlate : signal late = true)
    (hsame : highCycles signal early = highCycles signal late) :
    early = late :=
  Nat.count_injective hearly hlate hsame

/-- Every number below the count belongs to a high cycle. -/
theorem exists_highCycles_eq {horizon : ℕ}
    (hplace : place < highCycles signal horizon) :
    ∃ cycle < horizon, signal cycle = true ∧
      highCycles signal cycle = place := by
  induction horizon with
  | zero =>
      rw [highCycles_zero] at hplace
      omega
  | succ horizon ih =>
      by_cases hbefore : place < highCycles signal horizon
      · obtain ⟨cycle, hcycle, hhigh⟩ := ih hbefore
        exact ⟨cycle, by omega, hhigh⟩
      · rw [highCycles_succ] at hplace
        cases hsignal : signal horizon with
        | false =>
            rw [hsignal, Bool.toNat_false] at hplace
            omega
        | true =>
            rw [hsignal, Bool.toNat_true] at hplace
            exact ⟨horizon, Nat.lt_succ_self horizon, hsignal, by omega⟩

theorem highCycles_le (himplies : ∀ cycle, signal cycle = true →
      other cycle = true) (cycle : ℕ) :
    highCycles signal cycle ≤ highCycles other cycle :=
  Nat.count_mono_left fun earlier _ => himplies earlier

/-- Two counts agree exactly when the signals do, where one implies the
other. -/
theorem highCycles_eq_iff (himplies : ∀ cycle, signal cycle = true →
      other cycle = true) (horizon : ℕ) :
    highCycles signal horizon = highCycles other horizon ↔
      ∀ cycle < horizon, other cycle = true → signal cycle = true := by
  induction horizon with
  | zero => simp
  | succ horizon ih =>
      have hle := highCycles_le himplies horizon
      rw [Nat.forall_lt_succ_right, ← ih, highCycles_succ, highCycles_succ]
      cases hsignal : signal horizon with
      | false =>
          cases hother : other horizon with
          | false => simp
          | true =>
              rw [Bool.toNat_false, Bool.toNat_true]
              refine iff_of_false (by omega) fun hboth => ?_
              exact Bool.false_ne_true (hboth.2 rfl)
      | true =>
          rw [himplies horizon hsignal]
          simp

/-- A signal behind one register that starts low. -/
def delayed (signal : ℕ → Bool) : ℕ → Bool
  | 0 => false
  | cycle + 1 => signal cycle

theorem highCycles_delayed (cycle : ℕ) :
    highCycles (delayed signal) (cycle + 1) = highCycles signal cycle := by
  induction cycle with
  | zero => rw [highCycles_succ, highCycles_zero, highCycles_zero, delayed,
      Bool.toNat_false]
  | succ cycle ih => rw [highCycles_succ, ih, delayed, highCycles_succ]

end HighCycles

/-- The cycles since the latest high one, or since the start. -/
def cyclesSince (signal : ℕ → Bool) : ℕ → ℕ
  | 0 => 0
  | cycle + 1 => if signal cycle then 0 else cyclesSince signal cycle + 1

section CyclesSince

variable {signal : ℕ → Bool}

theorem cyclesSince_of_none {cycle : ℕ}
    (hnone : ∀ earlier < cycle, signal earlier = false) :
    cyclesSince signal cycle = cycle := by
  induction cycle with
  | zero => rfl
  | succ cycle ih =>
      rw [cyclesSince, hnone cycle (Nat.lt_succ_self cycle),
        ih fun earlier hearlier => hnone earlier (by omega)]
      rfl

theorem cyclesSince_le_self (cycle : ℕ) : cyclesSince signal cycle ≤ cycle := by
  induction cycle with
  | zero => exact le_rfl
  | succ cycle ih =>
      rw [cyclesSince]
      split
      case isTrue => exact Nat.zero_le _
      case isFalse => exact Nat.succ_le_succ ih

theorem cyclesSince_le {high late : ℕ} (hhigh : signal high = true)
    (hlt : high < late) : cyclesSince signal late ≤ late - high - 1 := by
  induction late, hlt using Nat.le_induction with
  | base =>
      rw [cyclesSince, if_pos hhigh]
      exact Nat.zero_le _
  | succ late hlt ih =>
      rw [cyclesSince]
      split
      case isTrue => exact Nat.zero_le _
      case isFalse => omega

theorem cyclesSince_of_latest {high late : ℕ} (hhigh : signal high = true)
    (hlt : high < late)
    (hlatest : ∀ between, high < between → between < late →
      signal between = false) :
    cyclesSince signal late = late - high - 1 := by
  induction late, hlt using Nat.le_induction with
  | base =>
      rw [cyclesSince, if_pos hhigh]
      omega
  | succ late hlt ih =>
      rw [cyclesSince, hlatest late hlt (Nat.lt_succ_self late),
        ih fun between hlow hup => hlatest between hlow (by omega)]
      change late - high - 1 + 1 = _
      omega

/-- As many low cycles in a row have passed since the latest high one. -/
theorem le_cyclesSince {length cycle : ℕ} (hlength : length ≤ cycle)
    (hlow : ∀ earlier < cycle, cycle ≤ earlier + length →
      signal earlier = false) :
    length ≤ cyclesSince signal cycle := by
  induction length generalizing cycle with
  | zero => exact Nat.zero_le _
  | succ length ih =>
      obtain ⟨before, rfl⟩ := Nat.exists_eq_add_of_le' (Nat.succ_le_of_lt
        (Nat.lt_of_lt_of_le (Nat.succ_pos length) hlength))
      have hbefore : length ≤ cyclesSince signal before :=
        ih (by omega) fun earlier hearlier hnear =>
          hlow earlier (by omega) (by omega)
      rw [cyclesSince, hlow before (by omega) (by omega)]
      exact Nat.succ_le_succ hbefore

end CyclesSince

/-- The latest high cycle up to the given one, 0 when there is none. -/
def lastHigh (signal : ℕ → Bool) : ℕ → ℕ
  | 0 => 0
  | cycle + 1 => if signal (cycle + 1) then cycle + 1 else lastHigh signal cycle

section LastHigh

variable {signal : ℕ → Bool} {high cycle : ℕ}

theorem lastHigh_le (signal : ℕ → Bool) (cycle : ℕ) : lastHigh signal cycle ≤ cycle := by
  induction cycle with
  | zero => exact le_rfl
  | succ cycle ih =>
      rw [lastHigh]
      split
      case isTrue => exact le_rfl
      case isFalse => exact ih.trans (Nat.le_succ cycle)

theorem signal_lastHigh (hhigh : signal high = true) (hle : high ≤ cycle) :
    signal (lastHigh signal cycle) = true := by
  induction cycle, hle using Nat.le_induction with
  | base =>
      cases high with
      | zero => exact hhigh
      | succ high =>
          rw [lastHigh, if_pos hhigh]
          exact hhigh
  | succ cycle _ ih =>
      rw [lastHigh]
      split
      case isTrue hlast => exact hlast
      case isFalse => exact ih

theorem le_lastHigh (hhigh : signal high = true) (hle : high ≤ cycle) :
    high ≤ lastHigh signal cycle := by
  induction cycle, hle using Nat.le_induction with
  | base =>
      cases high with
      | zero => exact le_rfl
      | succ high =>
          rw [lastHigh, if_pos hhigh]
  | succ cycle hle ih =>
      rw [lastHigh]
      split
      case isTrue => exact hle.trans (Nat.le_succ cycle)
      case isFalse => exact ih

theorem signal_of_lastHigh_lt {between : ℕ} (hlow : lastHigh signal cycle < between)
    (hle : between ≤ cycle) : signal between = false := by
  rw [← Bool.not_eq_true]
  intro hhigh
  exact absurd (le_lastHigh hhigh hle) (Nat.not_le_of_lt hlow)

/-- A register that is loaded under a signal holds the data of its latest high
cycle. -/
theorem eq_lastHigh {Value : Type*} {value data : ℕ → Value} {enable : ℕ → Prop}
    {horizon : ℕ} (henabled : Enabled value enable data horizon)
    (hsignal : ∀ cycle < horizon, enable cycle ↔ signal cycle = true)
    (hhigh : signal high = true) (hle : high ≤ cycle) (hcycle : cycle < horizon) :
    value (cycle + 1) = data (lastHigh signal cycle) := by
  have hlast := lastHigh_le signal cycle
  apply henabled.eq_of_latest (by omega) hcycle
  · rw [hsignal _ (by omega)]
    exact signal_lastHigh hhigh hle
  · intro between hlow hup
    rw [hsignal between (by omega), signal_of_lastHigh_lt hlow (by omega)]
    exact Bool.false_ne_true

end LastHigh

section Picked

variable {Word : Type*}

/-- The words before a cycle of those cycles in which the signal is high. -/
def picked (signal : ℕ → Bool) (word : ℕ → Word) : ℕ → List Word
  | 0 => []
  | cycle + 1 =>
      picked signal word cycle ++ if signal cycle then [word cycle] else []

variable {signal other : ℕ → Bool} {word : ℕ → Word}

theorem length_picked (cycle : ℕ) :
    (picked signal word cycle).length = highCycles signal cycle := by
  induction cycle with
  | zero => rfl
  | succ cycle ih =>
      rw [picked, List.length_append, ih, highCycles_succ]
      cases signal cycle <;> rfl

/-- Words that depend on their place only are an enumeration. -/
theorem picked_eq_map_range (expected : ℕ → Word) {horizon : ℕ}
    (hword : ∀ cycle < horizon, signal cycle = true →
      word cycle = expected (highCycles signal cycle)) :
    picked signal word horizon =
      (List.range (highCycles signal horizon)).map expected := by
  induction horizon with
  | zero => rfl
  | succ horizon ih =>
      rw [picked, ih fun cycle hcycle => hword cycle (by omega),
        highCycles_succ]
      cases hhigh : signal horizon with
      | false => exact List.append_nil _
      | true =>
          rw [if_pos rfl, hword horizon (Nat.lt_succ_self horizon) hhigh,
            Bool.toNat_true, List.range_succ, List.map_append,
            List.map_singleton]

theorem getElem?_picked_iff (horizon place : ℕ) (item : Word) :
    (picked signal word horizon)[place]? = some item ↔
      ∃ cycle < horizon, signal cycle = true ∧
        highCycles signal cycle = place ∧ word cycle = item := by
  induction horizon with
  | zero => simp [picked]
  | succ horizon ih =>
      rw [picked, Nat.exists_lt_succ_right, ← ih]
      cases hsignal : signal horizon with
      | false => simp
      | true =>
          rw [if_pos rfl, List.getElem?_append, length_picked]
          by_cases hbefore : place < highCycles signal horizon
          · rw [if_pos hbefore]
            refine ⟨Or.inl, fun hcases => hcases.resolve_right ?_⟩
            rintro ⟨-, hsame, -⟩
            omega
          · have hnone : (picked signal word horizon)[place]? = none :=
              List.getElem?_eq_none (by rw [length_picked]; omega)
            rw [if_neg hbefore, hnone, List.getElem?_singleton]
            by_cases hsame : highCycles signal horizon = place
            · simp [hsame]
            · have hbeyond : ¬ place - highCycles signal horizon = 0 := by omega
              simp [hsame, hbeyond]

/-- A machine that emits the word of a bus under a signal. -/
theorem log_eq_picked {State Input : Type*} {machine : Machine State Input}
    {input : ℕ → Input} {emit : State → Input → List Word} {horizon : ℕ}
    (hemit : ∀ cycle < horizon,
      emit (machine.stateAt input cycle) (input cycle) =
        if signal cycle then [word cycle] else []) :
    ∀ cycle ≤ horizon,
      machine.log input emit cycle = picked signal word cycle := by
  apply upTo_induction
  · rfl
  · intro cycle hcycle ih
    rw [Machine.log_succ, ih, hemit cycle hcycle, picked]

/-- Whatever the bus carries, the words under one signal are the first of those
under another: this is so exactly when the high cycles of the first are the
first high cycles of the other. -/
theorem forall_picked_isPrefix_iff [Nontrivial Word] (horizon : ℕ) :
    (∀ word : ℕ → Word,
        picked signal word horizon <+: picked other word horizon) ↔
      ∀ cycle < horizon, signal cycle = true →
        other cycle = true ∧
          highCycles other cycle = highCycles signal cycle := by
  constructor
  · intro hprefix cycle hcycle hhigh
    classical
    obtain ⟨blank, mark, hne⟩ := exists_pair_ne Word
    -- a bus that is marked in this cycle only
    have hmarked := hprefix fun later => if later = cycle then mark else blank
    obtain ⟨rest, hrest⟩ := hmarked
    have hplace : (picked signal
        (fun later => if later = cycle then mark else blank)
          horizon)[highCycles signal cycle]? = some mark :=
      (getElem?_picked_iff _ _ _).mpr ⟨cycle, hcycle, hhigh, rfl, if_pos rfl⟩
    have hother : (picked other
        (fun later => if later = cycle then mark else blank)
          horizon)[highCycles signal cycle]? = some mark := by
      rw [← hrest, List.getElem?_append_left]
      · exact hplace
      · exact (List.getElem?_eq_some_iff.mp hplace).1
    obtain ⟨later, -, hlater, hcount, hword⟩ :=
      (getElem?_picked_iff _ _ _).mp hother
    obtain rfl : later = cycle := by
      by_contra hdifferent
      rw [if_neg hdifferent] at hword
      exact hne hword
    exact ⟨hlater, hcount⟩
  · intro hsame word
    rw [List.prefix_iff_getElem?]
    intro place hplace
    obtain ⟨cycle, hcycle, hhigh, hcount, hword⟩ :=
      (getElem?_picked_iff _ _ _).mp (List.getElem?_eq_getElem hplace)
    obtain ⟨hother, hcountOther⟩ := hsame cycle hcycle hhigh
    exact (getElem?_picked_iff _ _ _).mpr
      ⟨cycle, hcycle, hother, hcountOther.trans hcount, hword⟩

end Picked

end Rfsoc.Signals
