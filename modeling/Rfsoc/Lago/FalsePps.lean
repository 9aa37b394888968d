import Rfsoc.Lago.PpsGen

/-!
# The period of the false PPS

With `gpsen_i` high `pps_gen` detects the edges of its own pulse, one every
`CLK_FREQ` cycles.  A reset starts the second anew.  When `false_pps` is up at
that moment it stays up, the detector sees an edge at once, and the next one is
a cycle more than a second away.
-/

namespace Rfsoc.PpsGen

open Rfsoc.Clocked
open Rfsoc.Signals

/-- `false_pps` at an age since a reset. -/
def upAt (falsePps : Bool) : ℕ → Bool
  | 0 => falsePps
  | age + 1 => decide (age % clkFreq < clkFreq / 5)

/-- The ages with a pulse: the first one, and then one every second. -/
def DueAt (falsePps : Bool) (age : ℕ) : Prop :=
  age = (if falsePps then 1 else 2) ∨ 2 < age ∧ (age - 2) % clkFreq = 0

section Second

variable {falsePps : Bool} {age : ℕ}

/-- The edges of `false_pps` are the pulses that are due. -/
theorem upAt_edge_iff :
    (delayed (upAt falsePps) age && !delayed (delayed (upAt falsePps)) age) =
        true ↔ DueAt falsePps age := by
  rw [DueAt]
  match age with
  | 0 => cases falsePps <;> simp [delayed]
  | 1 => cases falsePps <;> simp [delayed, upAt]
  | 2 => cases falsePps <;> simp [delayed, upAt, clkFreq]
  | age + 3 =>
      have hfirst : age + 3 ≠ if falsePps then 1 else 2 := by
        cases falsePps <;> simp
      change (decide ((age + 1) % clkFreq < clkFreq / 5) &&
        !decide (age % clkFreq < clkFreq / 5)) = true ↔ _
      rw [Bool.and_eq_true, decide_eq_true_iff, Bool.not_eq_true',
        decide_eq_false_iff_not, clkFreq]
      omega

/-- The earlier pulse that is a second away, or nearly so. -/
theorem exists_due_before (falsePps : Bool) (hage : 3 ≤ age) :
    ∃ earlier < age, DueAt falsePps earlier ∧ age - earlier - 1 ≤ clkFreq := by
  by_cases hfirst : age - 3 < clkFreq
  · refine ⟨if falsePps then 1 else 2, ?_, Or.inl rfl, ?_⟩
    · cases falsePps <;> simp <;> omega
    · cases falsePps <;> simp <;> omega
  · have hmod : (age - 3) % clkFreq < clkFreq := Nat.mod_lt _ (by decide)
    refine ⟨age - 1 - (age - 3) % clkFreq, by omega, Or.inr ⟨by omega, ?_⟩,
      by omega⟩
    rw [clkFreq] at hfirst hmod ⊢
    omega

theorem dueAt_low_iff :
    DueAt false age ↔ 2 ≤ age ∧ (age - 2) % clkFreq = 0 := by
  rw [DueAt, if_neg Bool.false_ne_true, clkFreq]
  omega

/-- After a reset that found `false_pps` down, a pulse that is not the first
comes exactly a second after the one before it. -/
theorem due_second {early late : ℕ} (hearly : DueAt false early)
    (hlate : DueAt false late) (hlt : early < late) :
    early + clkFreq ≤ late ∧ DueAt false (late - clkFreq) ∧
      ∀ between, late - clkFreq < between → between < late →
        ¬ DueAt false between := by
  rw [dueAt_low_iff] at hearly hlate
  have hsecond : early + clkFreq ≤ late := by
    rw [clkFreq] at hearly hlate ⊢
    omega
  refine ⟨hsecond, ?_, ?_⟩
  · rw [dueAt_low_iff]
    rw [clkFreq] at hearly hlate hsecond ⊢
    omega
  · intro between hlow hup hbetween
    rw [dueAt_low_iff] at hbetween
    rw [clkFreq] at hearly hlate hbetween hlow
    omega

/-- After one that found it up, the second pulse is late. -/
theorem due_late {early late : ℕ} (hearly : DueAt true early)
    (hlate : DueAt true late) (hlt : early < late) : clkFreq + 2 ≤ late := by
  rw [DueAt, if_pos rfl, clkFreq] at hearly hlate
  rw [clkFreq]
  omega

end Second

section Invariant

variable {falsePps : Bool} {input : ℕ → Input} {horizon : ℕ}
  (hrun : ∀ cycle < horizon, (input cycle).aresetn = true)
  (hgpsen : ∀ cycle < horizon, (input cycle).gpsenI = true)
include hrun

theorem oneSecCnt_eq : ∀ cycle ≤ horizon,
    (stateAt falsePps input cycle).oneSecCnt.toNat = cycle % clkFreq := by
  apply upTo_induction
  · rfl
  · intro cycle hcycle ih
    rw [stateAt, Machine.stateAt_succ]
    change (step (stateAt falsePps input cycle) (input cycle)).oneSecCnt.toNat = _
    rw [step, if_pos (hrun cycle hcycle)]
    change (oneSecCntNext _).toNat = _
    rw [oneSecCntNext]
    split
    case isTrue hlast =>
      rw [ih, clkFreq] at hlast
      change 0 = _
      rw [clkFreq]
      omega
    case isFalse hbefore =>
      rw [ih] at hbefore
      have hlt : cycle % clkFreq < clkFreq := Nat.mod_lt _ (by decide)
      rw [Bits.toNat_succ_of_lt ih]
      · rw [clkFreq] at hbefore hlt ⊢
        omega
      · rw [clkFreq] at hlt ⊢
        omega

theorem falsePps_eq : ∀ cycle ≤ horizon,
    (stateAt falsePps input cycle).falsePps = upAt falsePps cycle := by
  intro cycle hcycle
  cases cycle with
  | zero => rfl
  | succ cycle =>
      rw [stateAt, Machine.stateAt_succ]
      change (step (stateAt falsePps input cycle) (input cycle)).falsePps = _
      rw [step, if_pos (hrun cycle hcycle)]
      change falsePpsNext _ = _
      rw [falsePpsNext, oneSecCnt_eq hrun cycle (by omega), upAt]

include hgpsen

theorem ppsAt_eq (cycle : ℕ) (hcycle : cycle < horizon) :
    ppsAt falsePps input cycle = upAt falsePps cycle := by
  rw [ppsAt, pps, if_pos (hgpsen cycle hcycle),
    falsePps_eq hrun cycle hcycle.le]

theorem pulseAt_iff (cycle : ℕ) (hcycle : cycle ≤ horizon) :
    pulseAt falsePps input cycle = true ↔ DueAt falsePps cycle := by
  rw [← upAt_edge_iff, pulseAt_eq hrun cycle hcycle]
  have hdelayed : ∀ later < cycle,
      ppsAt falsePps input later = upAt falsePps later :=
    fun later hlater => ppsAt_eq hrun hgpsen later (by omega)
  match cycle with
  | 0 => rfl
  | 1 =>
      rw [delayed, delayed, hdelayed 0 (by omega)]
      rfl
  | cycle + 2 =>
      rw [delayed, delayed, delayed, delayed, delayed, delayed,
        hdelayed cycle (by omega), hdelayed (cycle + 1) (by omega)]

/-- The time counter stays far below its top. -/
theorem clkCntPps_le (cycle : ℕ) (hcycle : cycle ≤ horizon) :
    (stateAt falsePps input cycle).clkCntPps.toNat ≤ clkFreq := by
  rw [clkCntPps_eq hrun cycle hcycle]
  apply (Nat.mod_le _ _).trans
  by_cases hstart : cycle < 3
  · refine (cyclesSince_le_self cycle).trans ?_
    rw [clkFreq]
    omega
  · obtain ⟨earlier, hearlier, hdue, hnear⟩ :=
      exists_due_before falsePps (Nat.le_of_not_lt hstart)
    have hpulse := (pulseAt_iff hrun hgpsen earlier (by omega)).mpr hdue
    exact (cyclesSince_le hpulse hearlier).trans hnear

end Invariant

section Run

variable (input : ℕ → Input)

/-- No reset at the clock edges between two cycles. -/
def ResetFree (early late : ℕ) : Prop :=
  ∀ cycle, early ≤ cycle → cycle < late → (input cycle).aresetn = true

/-- The false PPS comes once every `CLK_FREQ` cycles between resets. -/
structure Periodic (horizon : ℕ) : Prop where
  period : ∀ late < horizon, ∀ early < late,
    pulseAt false input early = true → pulseAt false input late = true →
    (∀ between, early < between → between < late →
      pulseAt false input between = false) →
    ResetFree input early late → late = early + clkFreq
  reads : ∀ late < horizon, ∀ early < late,
    pulseAt false input early = true → pulseAt false input late = true →
    ResetFree input early late →
    (clkCntPpsO (stateAt false input late)).toNat = clkFreq - 1
  noWrap : ∀ cycle < horizon,
    (clkCntPpsO (stateAt false input cycle)).toNat + 1 < 2 ^ 27

/-- Every reset after which two pulses come finds `false_pps` down. -/
def ResetsLow (horizon : ℕ) : Prop :=
  ∀ reset, reset + clkFreq + 3 < horizon → (input reset).aresetn = false →
    ResetFree input (reset + 1) (reset + clkFreq + 3) →
    (stateAt false input reset).falsePps = false

/-- The latest reset before a cycle, or the power-up, is over in `start`. -/
structure Since (start : ℕ) (falsePps : Bool) (late : ℕ) : Prop where
  le : start ≤ late
  free : ResetFree input start late
  begins : start = 0 ∧ falsePps = false ∨
    ∃ reset, start = reset + 1 ∧ (input reset).aresetn = false ∧
      (stateAt false input reset).falsePps = falsePps

/-- The inputs from a cycle on. -/
def inputFrom (start age : ℕ) : Input := input (start + age)

variable {input}

theorem exists_since (input : ℕ → Input) (late : ℕ) : ∃ start falsePps,
    Since input start falsePps late := by
  induction late with
  | zero =>
      refine ⟨0, false, le_rfl, ?_, Or.inl ⟨rfl, rfl⟩⟩
      intro cycle _ hlt
      exact absurd hlt (Nat.not_lt_zero cycle)
  | succ late ih =>
      cases hreset : (input late).aresetn with
      | false =>
          refine ⟨late + 1, _, le_rfl, ?_, Or.inr ⟨late, rfl, hreset, rfl⟩⟩
          intro cycle hlow hlt
          exact absurd hlow (Nat.not_le_of_lt hlt)
      | true =>
          obtain ⟨start, falsePps, hsince⟩ := ih
          refine ⟨start, falsePps, hsince.le.trans (Nat.le_succ late), ?_,
            hsince.begins⟩
          intro cycle hlow hlt
          by_cases hlast : cycle = late
          · rw [hlast, hreset]
          · exact hsince.free cycle hlow (by omega)

namespace Since

variable {start late : ℕ} {falsePps : Bool}
  (hsince : Since input start falsePps late)
include hsince

/-- A reset leaves everything but `false_pps` as it was at power-up. -/
theorem state : stateAt false input start = afterReset falsePps := by
  rcases hsince.begins with ⟨hstart, hlow⟩ | ⟨reset, hstart, hreset, hup⟩
  · rw [hstart, hlow]
    rfl
  · rw [hstart, stateAt, Machine.stateAt_succ]
    change step (stateAt false input reset) _ = _
    rw [step, if_neg (by rw [hreset]; exact Bool.false_ne_true), hup]

theorem stateAt_eq {cycle : ℕ} (hstart : start ≤ cycle) :
    stateAt false input cycle =
      stateAt falsePps (inputFrom input start) (cycle - start) := by
  obtain ⟨age, rfl⟩ := Nat.exists_eq_add_of_le hstart
  rw [stateAt, Machine.stateAt_add, Nat.add_sub_cancel_left]
  change (Machine.mk (stateAt false input start) step).stateAt _ age = _
  rw [hsince.state]
  rfl

theorem pulseAt_eq {cycle : ℕ} (hstart : start ≤ cycle) :
    pulseAt false input cycle =
      pulseAt falsePps (inputFrom input start) (cycle - start) := by
  rw [pulseAt, hsince.stateAt_eq hstart, pulseAt]

theorem run : ∀ age < late - start,
    (inputFrom input start age).aresetn = true := by
  intro age hage
  exact hsince.free (start + age) (by omega) (by omega)

/-- A stretch without reset lies after the latest reset. -/
theorem start_le {early : ℕ} (hfree : ResetFree input early late) :
    start ≤ early := by
  rcases hsince.begins with ⟨hstart, -⟩ | ⟨reset, hstart, hreset, -⟩
  · rw [hstart]
    exact Nat.zero_le early
  · by_contra hbefore
    have hle := hsince.le
    rw [hfree reset (by omega) (by omega)] at hreset
    exact Bool.false_ne_true hreset.symm

section Gpsen

variable (hgpsen : ∀ cycle < late, (input cycle).gpsenI = true)
include hgpsen

theorem pulseAt_iff {cycle : ℕ} (hstart : start ≤ cycle)
    (hcycle : cycle ≤ late) :
    pulseAt false input cycle = true ↔ DueAt falsePps (cycle - start) := by
  have hon : ∀ age < late - start, (inputFrom input start age).gpsenI = true :=
    fun age hage => hgpsen (start + age) (by omega)
  rw [hsince.pulseAt_eq hstart]
  exact PpsGen.pulseAt_iff hsince.run hon (cycle - start) (by omega)

theorem clkCntPps_le :
    (stateAt false input late).clkCntPps.toNat ≤ clkFreq := by
  have hon : ∀ age < late - start, (inputFrom input start age).gpsenI = true :=
    fun age hage => hgpsen (start + age) (by omega)
  rw [hsince.stateAt_eq hsince.le]
  exact PpsGen.clkCntPps_le hsince.run hon (late - start) le_rfl

/-- After a reset that found `false_pps` down, the pulse before is a second
away. -/
theorem second (hlow : falsePps = false) {early : ℕ} (hstart : start ≤ early)
    (hlt : early < late) (hearly : pulseAt false input early = true)
    (hlate : pulseAt false input late = true) :
    early + clkFreq ≤ late ∧
      pulseAt false input (late - clkFreq) = true ∧
        (stateAt false input late).clkCntPps.toNat = clkFreq - 1 := by
  subst hlow
  have hle := hsince.le
  rw [hsince.pulseAt_iff hgpsen hstart hlt.le] at hearly
  rw [hsince.pulseAt_iff hgpsen hsince.le le_rfl] at hlate
  obtain ⟨hsecond, hbefore, hnone⟩ :=
    due_second hearly hlate (by omega)
  have hago : late - clkFreq - start = late - start - clkFreq := by omega
  have hpulse : pulseAt false input (late - clkFreq) = true := by
    rw [hsince.pulseAt_iff hgpsen (by omega) (by omega), hago]
    exact hbefore
  refine ⟨by omega, hpulse, ?_⟩
  have hlatest : ∀ between, late - start - clkFreq < between →
      between < late - start →
        pulseAt false (inputFrom input start) between = false := by
    intro between hgt hbetween
    have hage : start + between - start = between :=
      Nat.add_sub_cancel_left start between
    rw [← Bool.not_eq_true, ← hage, ← hsince.pulseAt_eq (by omega),
      hsince.pulseAt_iff hgpsen (by omega) (by omega), hage]
    exact hnone between hgt hbetween
  rw [hsince.pulseAt_eq (by omega), hago] at hpulse
  have hpositive : 0 < clkFreq := by decide
  rw [hsince.stateAt_eq hsince.le, clkCntPps_eq hsince.run _ le_rfl,
    cyclesSince_of_latest hpulse (by omega) hlatest, Nat.mod_eq_of_lt]
  · omega
  · rw [clkFreq] at hsecond ⊢
    omega

/-- Where a second pulse has come, the reset found `false_pps` down. -/
theorem low_of_resetsLow {horizon early : ℕ} (hlow : ResetsLow input horizon)
    (hhorizon : late < horizon) (hstart : start ≤ early) (hlt : early < late)
    (hearly : pulseAt false input early = true)
    (hlate : pulseAt false input late = true) : falsePps = false := by
  cases falsePps with
  | false => rfl
  | true =>
      rw [hsince.pulseAt_iff hgpsen hstart hlt.le] at hearly
      rw [hsince.pulseAt_iff hgpsen hsince.le le_rfl] at hlate
      have hlong := due_late hearly hlate (by omega)
      rcases hsince.begins with ⟨-, hup⟩ | ⟨reset, hreset, hlast, hup⟩
      · exact hup
      · have hle := hsince.le
        rw [← hup]
        refine hlow reset (by omega) hlast fun cycle hfrom hto => ?_
        exact hsince.free cycle (by omega) (by omega)

end Gpsen

end Since

variable {horizon : ℕ}
  (hgpsen : ∀ cycle < horizon, (input cycle).gpsenI = true)
include hgpsen

/-- Two pulses without a reset between them. -/
theorem second_of_resetsLow (hlow : ResetsLow input horizon) {early late : ℕ}
    (hhorizon : late < horizon) (hlt : early < late)
    (hearly : pulseAt false input early = true)
    (hlate : pulseAt false input late = true)
    (hfree : ResetFree input early late) :
    early + clkFreq ≤ late ∧
      pulseAt false input (late - clkFreq) = true ∧
        (stateAt false input late).clkCntPps.toNat = clkFreq - 1 := by
  have hon : ∀ cycle < late, (input cycle).gpsenI = true :=
    fun cycle hcycle => hgpsen cycle (by omega)
  obtain ⟨start, falsePps, hsince⟩ := exists_since input late
  have hstart := hsince.start_le hfree
  have hdown :=
    hsince.low_of_resetsLow hon hlow hhorizon hstart hlt hearly hlate
  exact hsince.second hon hdown hstart hlt hearly hlate

theorem periodic_of_resetsLow (hlow : ResetsLow input horizon) :
    Periodic input horizon where
  period := by
    intro late hhorizon early hlt hearly hlate hnone hfree
    obtain ⟨hsecond, hbefore, -⟩ :=
      second_of_resetsLow hgpsen hlow hhorizon hlt hearly hlate hfree
    by_contra hother
    have hpositive : 0 < clkFreq := by decide
    rw [hnone (late - clkFreq) (by omega) (by omega)] at hbefore
    exact Bool.false_ne_true hbefore
  reads := by
    intro late hhorizon early hlt hearly hlate hfree
    exact (second_of_resetsLow hgpsen hlow hhorizon hlt hearly hlate hfree).2.2
  noWrap := by
    intro cycle hcycle
    obtain ⟨start, falsePps, hsince⟩ := exists_since input cycle
    have hle := hsince.clkCntPps_le fun earlier hearlier =>
      hgpsen earlier (by omega)
    rw [clkFreq] at hle
    change (stateAt false input cycle).clkCntPps.toNat + 1 < 2 ^ 27
    omega

/-- A reset that finds `false_pps` up is followed by a pulse at once and by the
next one `CLK_FREQ + 1` cycles later. -/
theorem pulses_of_reset_up {reset : ℕ}
    (hhorizon : reset + clkFreq + 3 < horizon)
    (hreset : (input reset).aresetn = false)
    (hfree : ResetFree input (reset + 1) (reset + clkFreq + 3))
    (hup : (stateAt false input reset).falsePps = true) :
    pulseAt false input (reset + 2) = true ∧
      pulseAt false input (reset + clkFreq + 3) = true ∧
        ∀ between, reset + 2 < between → between < reset + clkFreq + 3 →
          pulseAt false input between = false := by
  have hsince : Since input (reset + 1) true (reset + clkFreq + 3) :=
    ⟨by omega, hfree, Or.inr ⟨reset, rfl, hreset, hup⟩⟩
  have hon : ∀ cycle < reset + clkFreq + 3, (input cycle).gpsenI = true :=
    fun cycle hcycle => hgpsen cycle (by omega)
  refine ⟨?_, ?_, ?_⟩
  · rw [hsince.pulseAt_iff hon (by omega) (by omega), DueAt, if_pos rfl]
    omega
  · rw [hsince.pulseAt_iff hon (by omega) le_rfl, DueAt, if_pos rfl, clkFreq]
    omega
  · intro between hlow hlt
    rw [← Bool.not_eq_true, hsince.pulseAt_iff hon (by omega) hlt.le, DueAt,
      if_pos rfl]
    rw [clkFreq] at hlt ⊢
    omega

theorem not_periodic_of_reset_up {reset : ℕ}
    (hhorizon : reset + clkFreq + 3 < horizon)
    (hreset : (input reset).aresetn = false)
    (hfree : ResetFree input (reset + 1) (reset + clkFreq + 3))
    (hup : (stateAt false input reset).falsePps = true) :
    ¬ Periodic input horizon := by
  intro hperiodic
  obtain ⟨hfirst, hnext, hnone⟩ :=
    pulses_of_reset_up hgpsen hhorizon hreset hfree hup
  have hperiod := hperiodic.period (reset + clkFreq + 3) hhorizon (reset + 2)
    (by omega) hfirst hnext hnone
    fun cycle hlow hlt => hfree cycle (by omega) hlt
  omega

end Run

/-- The false PPS has its period, its counter reading and no overflow in a run
from power-up exactly when no reset that finds `false_pps` up is followed by
two pulses. -/
theorem falsePps_periodic_iff (input : ℕ → Input) (horizon : ℕ)
    (hgpsen : ∀ cycle < horizon, (input cycle).gpsenI = true) :
    Periodic input horizon ↔ ResetsLow input horizon := by
  constructor
  · intro hperiodic reset hhorizon hreset hfree
    rw [← Bool.not_eq_true]
    intro hup
    exact not_periodic_of_reset_up hgpsen hhorizon hreset hfree hup hperiodic
  · exact periodic_of_resetsLow hgpsen

/-- `gpsen_i` high and one cycle of reset. -/
def resetRun (reset : ℕ) (cycle : ℕ) : Input where
  aresetn := decide (cycle ≠ reset)
  ppsI := false
  gpsenI := true

/-- A reset in the first cycle and four seconds. -/
theorem falsePps_periodic_resetRun :
    Periodic (resetRun 0) (4 * clkFreq) ↔
      ResetsLow (resetRun 0) (4 * clkFreq) :=
  falsePps_periodic_iff (resetRun 0) (4 * clkFreq) fun _ _ => rfl

/-- A reset ten cycles into the first second. -/
theorem falsePps_not_periodic_resetRun :
    ¬ Periodic (resetRun 10) (2 * clkFreq) := by
  have hfree : ResetFree (resetRun 10) (10 + 1) (10 + clkFreq + 3) :=
    fun cycle hlow _ => decide_eq_true (Nat.ne_of_gt hlow)
  have hup : (stateAt false (resetRun 10) 10).falsePps = true := rfl
  exact not_periodic_of_reset_up (fun _ _ => rfl) (by decide) rfl hfree hup

end Rfsoc.PpsGen
