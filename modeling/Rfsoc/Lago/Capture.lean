import Rfsoc.Core.Window
import Rfsoc.Lago.Readout

/-!
# The sample windows

`adc_dat_a_reg` and `adc_dat_b_reg` take in a sample in every cycle, and a pulse
record sends the oldest place of both while they keep moving.  Between the
trigger, which looks at the places 1 to 3, and the first word lies one cycle of
the state machine: the record begins with the sample before the two that stay
below the level.

The windows take samples without a look at `s_axis_tvalid` or `s_axis_tready`,
so they hold what the slave side has accepted only as long as a cycle without a
handshake brings nothing new.
-/

namespace Rfsoc.LagoTrigger

open Rfsoc.Clocked
open Rfsoc.Window

/-- Channel A's half of the stream word. -/
def channelA (i : Input) : Sample := i.sAxisTdata.extractLsb' 0 16

def channelB (i : Input) : Sample := i.sAxisTdata.extractLsb' 16 16

/-- The samples presented before a cycle, oldest first. -/
def presented (channel : Input → Sample) (input : ℕ → Input) (cycle : ℕ) :
    List Sample :=
  (List.range cycle).map fun earlier => channel (input earlier)

theorem presented_succ (channel : Input → Sample) (input : ℕ → Input)
    (cycle : ℕ) :
    presented channel input (cycle + 1) =
      presented channel input cycle ++ [channel (input cycle)] := by
  rw [presented, List.range_succ, List.map_append]
  rfl

section Presented

variable {input : ℕ → Input} {horizon : ℕ}

/-- Both arrays hold the latest samples presented. -/
theorem adcDat_eq (hrun : ∀ cycle < horizon, (input cycle).aresetn = true) :
    ∀ cycle ≤ horizon,
      (core.stateAt input cycle).adcDatAReg =
          latest 0 (presented channelA input cycle) ∧
        (core.stateAt input cycle).adcDatBReg =
          latest 0 (presented channelB input cycle) := by
  refine upTo_induction horizon ⟨(latest_nil 0).symm, (latest_nil 0).symm⟩ ?_
  rintro cycle hcycle ⟨hA, hB⟩
  rw [stateAt_succ_of_run (hrun cycle hcycle), presented_succ, presented_succ,
    ← shift_latest, ← shift_latest, ← hA, ← hB]
  exact ⟨rfl, rfl⟩

/-- The sample presented in cycle `cycle - 11 + place`, zero before reset. -/
def captured (channel : Input → Sample) (input : ℕ → Input)
    (cycle place : ℕ) : Sample :=
  if 11 ≤ cycle + place then channel (input (cycle + place - 11)) else 0

/-- Place `k` holds the sample presented `12 - k` cycles ago. -/
theorem latest_presented (channel : Input → Sample) (input : ℕ → Input)
    {cycle later place : ℕ} {k : Fin dataArrayLength}
    (hlater : later + k.val = cycle + place + 1) :
    latest 0 (presented channel input later) k =
      captured channel input cycle place := by
  rw [captured]
  by_cases hreached : 11 ≤ cycle + place
  · rw [presented, latest_range_map 0 _ (by simp only [dataArrayLength]; omega),
      if_pos hreached]
    congr 2
    simp only [dataArrayLength]
    omega
  · rw [if_neg hreached, latest_of_length_le]
    rw [presented, List.length_map, List.length_range]
    simp only [dataArrayLength]
    omega

/-- The pulse record opened in a cycle carries the samples presented in this
cycle and the eleven before it, and the trigger lies in its third word. -/
structure CaptureWindow (input : ℕ → Input) (cycle : ℕ) : Prop where
  words : ∀ place < dataArrayLength,
    (readout input cycle .pulse)[place]? =
      some (pairWord
        ((captured channelB input cycle place).extractLsb' 0 14)
        ((captured channelA input cycle place).extractLsb' 0 14))
  risesA : tr1S (core.stateAt input cycle) (input cycle) = true →
    (trigLvlA (input cycle)).sle (captured channelA input cycle 2) = true ∧
      (captured channelA input cycle 1).slt (trigLvlA (input cycle)) = true ∧
      (captured channelA input cycle 0).slt (trigLvlA (input cycle)) = true
  risesB : tr2S (core.stateAt input cycle) (input cycle) = true →
    (trigLvlB (input cycle)).sle (captured channelB input cycle 2) = true ∧
      (captured channelB input cycle 1).slt (trigLvlB (input cycle)) = true ∧
      (captured channelB input cycle 0).slt (trigLvlB (input cycle)) = true

/-- A crossing of the array is a crossing of the captured samples. -/
theorem crosses_captured (channel : Input → Sample) (cycle : ℕ)
    (level : Sample)
    (hcrosses : crosses (latest 0 (presented channel input cycle)) level =
      true) :
    level.sle (captured channel input cycle 2) = true ∧
      (captured channel input cycle 1).slt level = true ∧
      (captured channel input cycle 0).slt level = true := by
  have hplace : ∀ place < 3, ∀ k : Fin dataArrayLength, k.val = place + 1 →
      latest 0 (presented channel input cycle) k =
        captured channel input cycle place := by
    intro place _ k hk
    apply latest_presented
    omega
  rw [crosses, hplace 2 (by decide) 3 rfl, hplace 1 (by decide) 2 rfl,
    hplace 0 (by decide) 1 rfl, Bool.and_eq_true, Bool.and_eq_true] at hcrosses
  exact ⟨hcrosses.1.1, hcrosses.1.2, hcrosses.2⟩

end Presented

/-- With a master side that is always ready, a pulse record is the window of
its trigger. -/
theorem lagoTrigger_captureWindow (input : ℕ → Input) (cycle : ℕ)
    (hrun : ∀ earlier < cycle + 16, (input earlier).aresetn = true)
    (hready : ∀ earlier < cycle + 16, (input earlier).mAxisTready = true)
    (hidle : (core.stateAt input cycle).stateReg = .stIdle)
    (htr : trS (core.stateAt input cycle) (input cycle) = true)
    (hpps : (input cycle).ppsI = false) :
    CaptureWindow input cycle := by
  have hopens : opens (core.stateAt input cycle) (input cycle) =
      some .pulse := by
    simp [opens_eq _ _ hidle, hpps, htr]
  have hwords := readout_eq ⟨hrun, hready⟩ hopens
  have harrays := adcDat_eq hrun
  obtain ⟨hA, hB⟩ := harrays cycle (by omega)
  constructor
  · intro place hplace
    have hrange : place < Kind.pulse.length := by
      rw [Kind.length_pulse]
      simp only [dataArrayLength] at hplace
      omega
    obtain ⟨hlateA, hlateB⟩ := harrays (cycle + 1 + place)
      (by simp only [dataArrayLength] at hplace; omega)
    have hzero : cycle + 1 + place + (0 : Fin dataArrayLength).val =
        cycle + place + 1 := by
      change cycle + 1 + place + 0 = _
      omega
    rw [hwords, List.getElem?_map, List.getElem?_range hrange]
    change some (recordWord .pulse _ _) = _
    rw [recordWord, if_pos hplace, sampleWord, hlateA, hlateB,
      latest_presented channelA input hzero,
      latest_presented channelB input hzero]
  · intro hfires
    rw [tr1S, hA] at hfires
    exact crosses_captured channelA cycle _ hfires
  · intro hfires
    rw [tr2S, hB] at hfires
    exact crosses_captured channelB cycle _ hfires

theorem lagoTrigger_captureWindow_busyRun : CaptureWindow busyRun 29 :=
  lagoTrigger_captureWindow busyRun 29 (by decide) (by decide)
    (by decide +kernel) (by decide +kernel) (by decide)

/-- A stream word is accepted. -/
def slaveHandshake (s : State) (i : Input) : Bool :=
  i.sAxisTvalid && sAxisTready s

/-- The samples accepted on the slave side before a cycle. -/
def accepted (channel : Input → Sample) (input : ℕ → Input) : ℕ → List Sample :=
  core.log input fun s i => if slaveHandshake s i then [channel i] else []

/-- Both arrays hold the latest samples accepted, up to a horizon. -/
def HoldsAccepted (input : ℕ → Input) (horizon : ℕ) : Prop :=
  ∀ cycle ≤ horizon,
    (core.stateAt input cycle).adcDatAReg =
        latest 0 (accepted channelA input cycle) ∧
      (core.stateAt input cycle).adcDatBReg =
        latest 0 (accepted channelB input cycle)

/-- A cycle without a handshake finds both arrays filled with the very samples
that are on the bus. -/
def NothingNew (input : ℕ → Input) (horizon : ℕ) : Prop :=
  ∀ cycle < horizon,
    slaveHandshake (core.stateAt input cycle) (input cycle) = false →
    ∀ k, (core.stateAt input cycle).adcDatAReg k = channelA (input cycle) ∧
      (core.stateAt input cycle).adcDatBReg k = channelB (input cycle)

section Accepted

variable {input : ℕ → Input} {cycle : ℕ}

theorem accepted_of_handshake (channel : Input → Sample)
    (haccepts : slaveHandshake (core.stateAt input cycle) (input cycle) =
      true) :
    accepted channel input (cycle + 1) =
      accepted channel input cycle ++ [channel (input cycle)] := by
  rw [accepted, Machine.log_succ, if_pos haccepts]

theorem accepted_of_no_handshake (channel : Input → Sample)
    (hrefuses : slaveHandshake (core.stateAt input cycle) (input cycle) =
      false) :
    accepted channel input (cycle + 1) = accepted channel input cycle := by
  rw [accepted, Machine.log_succ, hrefuses]
  exact List.append_nil _

/-- Every cycle out of reset shifts both arrays. -/
theorem adcDat_succ (hrun : (input cycle).aresetn = true) :
    (core.stateAt input (cycle + 1)).adcDatAReg =
        shift (core.stateAt input cycle).adcDatAReg (channelA (input cycle)) ∧
      (core.stateAt input (cycle + 1)).adcDatBReg =
        shift (core.stateAt input cycle).adcDatBReg
          (channelB (input cycle)) := by
  rw [stateAt_succ_of_run hrun]
  exact ⟨rfl, rfl⟩

end Accepted

/-- The arrays hold the accepted samples exactly when no cycle without a
handshake brings anything new. -/
theorem lagoTrigger_holdsAccepted_iff (input : ℕ → Input) (horizon : ℕ)
    (hrun : ∀ cycle < horizon, (input cycle).aresetn = true) :
    HoldsAccepted input horizon ↔ NothingNew input horizon := by
  constructor
  · intro hholds cycle hcycle hrefuses
    obtain ⟨hA, hB⟩ := hholds cycle hcycle.le
    obtain ⟨hlateA, hlateB⟩ := hholds (cycle + 1) hcycle
    obtain ⟨hshiftA, hshiftB⟩ := adcDat_succ (hrun cycle hcycle)
    rw [accepted_of_no_handshake channelA hrefuses, ← hA, hshiftA] at hlateA
    rw [accepted_of_no_handshake channelB hrefuses, ← hB, hshiftB] at hlateB
    intro k
    exact ⟨(shift_eq_self_iff _ _).mp hlateA k,
      (shift_eq_self_iff _ _).mp hlateB k⟩
  · intro hnothing
    refine upTo_induction horizon
      ⟨(latest_nil 0).symm, (latest_nil 0).symm⟩ ?_
    rintro cycle hcycle ⟨hA, hB⟩
    obtain ⟨hshiftA, hshiftB⟩ := adcDat_succ (hrun cycle hcycle)
    cases haccepts : slaveHandshake (core.stateAt input cycle) (input cycle) with
    | true =>
        rw [accepted_of_handshake channelA haccepts,
          accepted_of_handshake channelB haccepts, ← shift_latest,
          ← shift_latest, ← hA, ← hB]
        exact ⟨hshiftA, hshiftB⟩
    | false =>
        have hsame := hnothing cycle hcycle haccepts
        rw [accepted_of_no_handshake channelA haccepts,
          accepted_of_no_handshake channelB haccepts, ← hA, ← hB, hshiftA,
          hshiftB]
        exact ⟨(shift_eq_self_iff _ _).mpr fun k => (hsame k).1,
          (shift_eq_self_iff _ _).mpr fun k => (hsame k).2⟩

/-- A source that holds its first word until it is accepted. -/
def heldRun (cycle : ℕ) : Input :=
  { busyRun cycle with
    sAxisTdata := 0x00000100#32
    sAxisTvalid := true }

theorem lagoTrigger_holdsAccepted_iff_heldRun :
    HoldsAccepted heldRun 8 ↔ NothingNew heldRun 8 :=
  lagoTrigger_holdsAccepted_iff heldRun 8 (by decide)

/-- `s_axis_tready` is low in the first cycle, and yet the word is taken in. -/
theorem lagoTrigger_not_holdsAccepted_heldRun :
    (∀ cycle < 8, (heldRun cycle).aresetn = true) ∧
      ¬ HoldsAccepted heldRun 8 := by
  refine ⟨by decide, ?_⟩
  intro hholds
  have hnewest := congrFun (hholds 1 (by decide)).1 11
  revert hnewest
  decide

end Rfsoc.LagoTrigger
