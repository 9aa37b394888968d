import Rfsoc.Board.RpAdc
import Rfsoc.Core.Composition
import Rfsoc.Lago.FalsePps
import Rfsoc.Lago.Scene

/-!
# The LAGO front end

In `lago` the ADC interface feeds `axis_lago_trigger_0` in every cycle, and
`pps_gen_0` gives it the second and the time.  `const_2` and `const_3` are ones, so
that the second is the generator's own one.  What goes to `fifo_0` is told from the
codes of the ADCs, the two levels and the cycles since the reset alone.
-/

namespace Rfsoc.FrontEnd

open Rfsoc.Clocked
open Rfsoc.DeadTime
open Rfsoc.LagoTrigger
open Rfsoc.PpsGen (DueAt clkFreq)
open Rfsoc.RpAdc (height)
open Rfsoc.Signals

structure State where
  adc : RpAdc.State
  pps : PpsGen.State
  trigger : LagoTrigger.State

/-- The reset of `rst_1`, the slices of the levels, the codes of the ADCs and
`s_axis_tready` of `fifo_0`. -/
structure Input where
  aresetn : Bool
  slice6 : Word
  slice7 : Word
  codes : RpAdc.Input
  ready : Bool

def ppsPorts (i : Input) : PpsGen.Input where
  aresetn := i.aresetn
  ppsI := true
  gpsenI := true

def triggerPorts (s : State) (i : Input) : LagoTrigger.Input where
  aresetn := i.aresetn
  trigLvlI := i.slice6
  subtrigLvlI := i.slice7
  ppsI := PpsGen.ppsO s.pps
  clkCntPpsI := PpsGen.clkCntPpsO s.pps
  sAxisTdata := RpAdc.mAxisTdata s.adc
  sAxisTvalid := RpAdc.mAxisTvalid
  mAxisTready := i.ready

def step (s : State) (i : Input) : State where
  adc := RpAdc.step s.adc i.codes
  pps := PpsGen.step s.pps (ppsPorts i)
  trigger := LagoTrigger.step s.trigger (triggerPorts s i)

/-- As a reset leaves the front end: the codes and `false_pps` are anything. -/
def system (codes : RpAdc.State) (falsePps : Bool) : Machine State Input where
  start :=
    { adc := codes
      pps := PpsGen.afterReset falsePps
      trigger := LagoTrigger.resetState }
  step := step

/-- The value of a channel in each cycle: the code is a cycle late. -/
def heights (first : BitVec 14) (code : ℕ → BitVec 14) : ℕ → ℤ
  | 0 => height first
  | cycle + 1 => height (code cycle)

instance (falsePps : Bool) (age : ℕ) : Decidable (DueAt falsePps age) :=
  inferInstanceAs (Decidable (_ ∨ _))

/-- The seconds since the reset. -/
def seconds (falsePps : Bool) (cycle : ℕ) : Bool := decide (DueAt falsePps cycle)

/-- What happens before the front end. -/
def scene (codes : RpAdc.State) (falsePps : Bool) (input : ℕ → Input) : Scene where
  a :=
    { value := heights codes.intDatAReg fun cycle => (input cycle).codes.adcDatA
      level := fun cycle => ((input cycle).slice6.extractLsb' 0 16).toInt
      sublevel := fun cycle => ((input cycle).slice7.extractLsb' 0 16).toInt }
  b :=
    { value := heights codes.intDatBReg fun cycle => (input cycle).codes.adcDatB
      level := fun cycle => ((input cycle).slice6.extractLsb' 16 16).toInt
      sublevel := fun cycle => ((input cycle).slice7.extractLsb' 16 16).toInt }
  pps := seconds falsePps
  time := cyclesSince (seconds falsePps)

section Run

variable (codes : RpAdc.State) (falsePps : Bool) (input : ℕ → Input)

/-- The words handed to `fifo_0` before a cycle. -/
def handedOver : ℕ → List Word :=
  (system codes falsePps).log input fun s i => transfer s.trigger (triggerPorts s i)

/-- What has been handed over at a cycle. -/
structure Recorded (cycle : ℕ) : Prop where
  /-- The words are those of the scene's records. -/
  words : handedOver codes falsePps input cycle =
    (scene codes falsePps input).words cycle
  /-- A cycle has a record exactly when it asks for one and every record before it
  is over: its words, and two cycles more. -/
  opened : ∀ opening kind,
    (opening, kind) ∈ (scene codes falsePps input).records cycle ↔
      opening < cycle ∧ (scene codes falsePps input).wants opening = some kind ∧
        ∀ record ∈ (scene codes falsePps input).records opening,
          record.1 + (2 + record.2.length) ≤ opening
  /-- The times of the records are exact. -/
  time : ∀ before ≤ cycle,
    (BitVec.ofNat 27 ((scene codes falsePps input).time before)).toNat =
      (scene codes falsePps input).time before

theorem component_pps :
    Component (system codes falsePps) (PpsGen.core falsePps) State.pps
      (fun _ i => ppsPorts i) where
  start := rfl
  step := fun _ _ => rfl

theorem component_trigger :
    Component (system codes falsePps) LagoTrigger.core State.trigger
      triggerPorts where
  start := rfl
  step := fun _ _ => rfl

/-- The lines of the trigger along a run. -/
def triggerInput : ℕ → LagoTrigger.Input :=
  wired (system codes falsePps) triggerPorts input

def ppsInput (cycle : ℕ) : PpsGen.Input := ppsPorts (input cycle)

theorem handedOver_eq (cycle : ℕ) :
    handedOver codes falsePps input cycle =
      transferred (triggerInput codes falsePps input) cycle :=
  ((component_trigger codes falsePps).log input transfer cycle).symm

theorem pps_stateAt (cycle : ℕ) :
    ((system codes falsePps).stateAt input cycle).pps =
      PpsGen.stateAt falsePps (ppsInput input) cycle :=
  (component_pps codes falsePps).stateAt input cycle

end Run

section Values

variable {codes : RpAdc.State} {falsePps : Bool} {input : ℕ → Input}

/-- The registers of the ADC interface are a cycle behind the codes. -/
theorem toInt_channelA (cycle : ℕ) :
    (channelA (triggerInput codes falsePps input cycle)).toInt =
      heights codes.intDatAReg (fun cycle => (input cycle).codes.adcDatA) cycle := by
  have hhalf : channelA (triggerInput codes falsePps input cycle) =
      RpAdc.padded (RpAdc.datTmp
        ((system codes falsePps).stateAt input cycle).adc.intDatAReg) :=
    BitVec.extractLsb'_append_eq_right
  rw [hhalf, RpAdc.toInt_channel]
  cases cycle <;> rfl

theorem toInt_channelB (cycle : ℕ) :
    (channelB (triggerInput codes falsePps input cycle)).toInt =
      heights codes.intDatBReg (fun cycle => (input cycle).codes.adcDatB) cycle := by
  have hhalf : channelB (triggerInput codes falsePps input cycle) =
      RpAdc.padded (RpAdc.datTmp
        ((system codes falsePps).stateAt input cycle).adc.intDatBReg) :=
    BitVec.extractLsb'_append_eq_left
  rw [hhalf, RpAdc.toInt_channel]
  cases cycle <;> rfl

end Values

/-- Seconds are far longer than a PPS record. -/
theorem due_apart {falsePps : Bool} {early late : ℕ} (hearly : DueAt falsePps early)
    (hlate : DueAt falsePps late) (hlt : early < late) :
    early + metadataArrayLength ≤ late := by
  cases falsePps with
  | false =>
      have hsecond := (PpsGen.due_second hearly hlate hlt).1
      rw [clkFreq] at hsecond
      simp only [metadataArrayLength]
      omega
  | true =>
      rw [DueAt, if_pos rfl, clkFreq] at hearly hlate
      simp only [metadataArrayLength]
      omega

/-- The time never reaches the top of its 27 bits. -/
theorem time_lt (falsePps : Bool) (cycle : ℕ) :
    cyclesSince (seconds falsePps) cycle < 2 ^ 27 := by
  have hle : cyclesSince (seconds falsePps) cycle ≤ clkFreq := by
    by_cases hstart : cycle < 3
    · refine (cyclesSince_le_self cycle).trans ?_
      rw [clkFreq]
      omega
    · obtain ⟨earlier, hearlier, hdue, hnear⟩ :=
        PpsGen.exists_due_before falsePps (Nat.le_of_not_lt hstart)
      exact (cyclesSince_le (decide_eq_true hdue) hearlier).trans hnear
  rw [clkFreq] at hle
  omega

section Time

variable {codes : RpAdc.State} {falsePps : Bool} {input : ℕ → Input} {horizon : ℕ}
  (hrun : ∀ cycle < horizon, (input cycle).aresetn = true)
include hrun

theorem pulseAt_eq_seconds (cycle : ℕ) (hcycle : cycle ≤ horizon) :
    PpsGen.pulseAt falsePps (ppsInput input) cycle = seconds falsePps cycle := by
  rw [Bool.eq_iff_iff, seconds, decide_eq_true_iff]
  exact PpsGen.pulseAt_iff hrun (fun _ _ => rfl) cycle hcycle

theorem cyclesSince_eq : ∀ cycle ≤ horizon,
    cyclesSince (PpsGen.pulseAt falsePps (ppsInput input)) cycle =
      cyclesSince (seconds falsePps) cycle := by
  apply upTo_induction
  · rfl
  · intro cycle hcycle ih
    rw [cyclesSince, cyclesSince, ih, pulseAt_eq_seconds hrun cycle hcycle.le]

theorem clkCntPps_eq_time (cycle : ℕ) (hcycle : cycle ≤ horizon) :
    ((system codes falsePps).stateAt input cycle).pps.clkCntPps =
      BitVec.ofNat 27 ((scene codes falsePps input).time cycle) := by
  apply BitVec.eq_of_toNat_eq
  rw [pps_stateAt, PpsGen.clkCntPps_eq hrun cycle hcycle, cyclesSince_eq hrun cycle hcycle,
    BitVec.toNat_ofNat]
  rfl

end Time

/-- The ports of the trigger carry the scene. -/
theorem shows_scene {codes : RpAdc.State} {falsePps : Bool} {input : ℕ → Input}
    {horizon : ℕ} (hrun : ∀ cycle < horizon, (input cycle).aresetn = true) :
    (scene codes falsePps input).Shows (triggerInput codes falsePps input)
      horizon where
  a := ⟨fun cycle _ => toInt_channelA cycle, fun _ _ => rfl, fun _ _ => rfl⟩
  b := ⟨fun cycle _ => toInt_channelB cycle, fun _ _ => rfl, fun _ _ => rfl⟩
  pps := by
    intro cycle hcycle
    change PpsGen.ppsO ((system codes falsePps).stateAt input cycle).pps = _
    rw [pps_stateAt]
    exact pulseAt_eq_seconds hrun cycle hcycle.le
  time := fun cycle hcycle => clkCntPps_eq_time hrun cycle hcycle.le
  apart := by
    intro late _ early hlt hearly hlate
    exact due_apart (of_decide_eq_true hearly) (of_decide_eq_true hlate) hlt

/-- What the front end hands over is told from the codes, the levels and the cycles
since the reset: records of the seconds, the triggers and the sub-triggers that come
when no other record is being sent. -/
theorem frontEnd_records (codes : RpAdc.State) (falsePps : Bool) (input : ℕ → Input)
    (horizon : ℕ) (hrun : ∀ cycle < horizon, (input cycle).aresetn = true)
    (hready : ∀ cycle < horizon, (input cycle).ready = true) :
    ∀ cycle ≤ horizon, Recorded codes falsePps input cycle := by
  intro cycle hcycle
  have hflow : Flowing (triggerInput codes falsePps input) horizon :=
    ⟨hrun, hready⟩
  refine ⟨?_, ?_, ?_⟩
  · rw [handedOver_eq]
    exact transferred_eq_words (shows_scene hrun) hflow cycle hcycle
  · intro opening kind
    exact mem_taken_iff
  · intro before _
    rw [BitVec.toNat_ofNat]
    exact Nat.mod_eq_of_lt (time_lt falsePps before)

/-- Channel A at half its height from cycle 20 on, over levels of 100 and 50. -/
def risingRun (cycle : ℕ) : Input where
  aresetn := true
  slice6 := 0x00640064#32
  slice7 := 0x00320032#32
  codes :=
    { adcDatA := if cycle < 20 then 8191#14 else 4096#14
      adcDatB := 8191#14 }
  ready := true

/-- The first second and a pulse. -/
theorem frontEnd_records_risingRun :
    Recorded ⟨8191#14, 8191#14⟩ false risingRun 60 :=
  frontEnd_records ⟨8191#14, 8191#14⟩ false risingRun 60 (fun _ _ => rfl)
    (fun _ _ => rfl) 60 le_rfl

end Rfsoc.FrontEnd
