import Rfsoc.System.Scope

/-!
# The oscilloscope in a run

The script leaves `scope_0` and the storage in reset until its second line, starts
the acquisition with the ninth and takes the run flag back with the tenth.  What
the ring holds from the second line on and how far the acquisition has come follow
from this, cycle by cycle.
-/

namespace Rfsoc.Scope

open Rfsoc.CfgBus
open Rfsoc.CfgRegister
open Rfsoc.CfgScript
open Rfsoc.Clocked
open Rfsoc.Oscilloscope
open Rfsoc.Storage
open Rfsoc.Stream
open Rfsoc.WidthConverter

variable {axiIdWidth : ℕ} {Conv : Type*}

section Acquisition

variable {s : Oscilloscope.State 23} {i : Oscilloscope.Input Sample}
  {trigger beats : ℕ}

/-- An acquisition before its trigger. -/
structure Fills (beats : ℕ) (s : Oscilloscope.State 23) : Prop where
  enable : EnableInv s
  phase : s.intCaseReg = .preTrigger ∨ s.intCaseReg = .armed
  filling : Filling 1023#23 beats s

/-- An acquisition after its trigger. -/
structure Records (trigger beats : ℕ) (s : Oscilloscope.State 23) : Prop where
  enable : EnableInv s
  filled : 1024 ≤ trigger
  recording : Recording 1023#23 1048575#23 trigger beats s

theorem enableInv_resetState : EnableInv (resetState : Oscilloscope.State 23) := by
  simp [EnableInv, resetState]

theorem fills_run (hflag : i.runFlag = true) :
    Fills 0 (next 1023#23 1048575#23 resetState i) where
  enable := enableInv_resetState.next_inv
  phase := by
    rw [next_run rfl hflag]
    exact Or.inl rfl
  filling := filling_run rfl hflag

theorem Fills.busy (hfills : Fills beats s) : s.intCaseReg ≠ .idle := by
  obtain hcase | hcase := hfills.phase <;> simp [hcase]

theorem Fills.next_inv (hfills : Fills beats s)
    (hquiet : triggerTaken s i = false) :
    Fills (beats + (mAxisTvalid s i).toNat)
      (next 1023#23 1048575#23 s i) where
  enable := hfills.enable.next_inv
  filling := hfills.filling.next_inv hfills.enable hfills.busy
  phase := by
    cases hvalid : i.sAxisTvalid with
    | false =>
        rw [next_of_no_beat hfills.busy hvalid]
        exact hfills.phase
    | true =>
        obtain hcase | hcase := hfills.phase
        · rw [next_preTrigger hcase hvalid]
          by_cases hfull : s.intCntrReg = 1023#23
          · exact Or.inr (if_pos hfull)
          · exact Or.inl (if_neg hfull)
        · have hflag : i.trgFlag = false := by
            simpa [triggerTaken, hcase, hvalid] using hquiet
          rw [next_armed hcase hvalid hflag]
          exact Or.inr hcase

/-- The sample that the trigger falls on is handed on. -/
theorem mAxisTvalid_of_trigger (henable : EnableInv s)
    (htaken : triggerTaken s i = true) : mAxisTvalid s i = true := by
  simp only [triggerTaken, Bool.and_eq_true, decide_eq_true_eq] at htaken
  obtain ⟨⟨hcase, hvalid⟩, -⟩ := htaken
  rw [henable.mAxisTvalid_eq (by simp [hcase]), hvalid]

theorem Fills.records (hfills : Fills beats s)
    (htaken : triggerTaken s i = true) :
    Records beats (beats + 1) (next 1023#23 1048575#23 s i) where
  enable := hfills.enable.next_inv
  filled := by
    have hcase := htaken
    simp only [triggerTaken, Bool.and_eq_true, decide_eq_true_eq] at hcase
    have hcount := hfills.filling
    unfold Filling at hcount
    rw [hcase.1.1] at hcount
    exact hcount.2
  recording :=
    recording_trigger (by decide) (by decide) hfills.filling htaken

theorem Records.next_inv (hrecords : Records trigger beats s)
    (hquiet : runTaken s i = false) :
    Records trigger (beats + (mAxisTvalid s i).toNat)
      (next 1023#23 1048575#23 s i) where
  enable := hrecords.enable.next_inv
  filled := hrecords.filled
  recording := by
    have hfilled := hrecords.filled
    have hstart : (1023#23).toNat + 1 ≤ trigger - trigger % 64 := by
      change 1024 ≤ _
      omega
    exact hrecords.recording.next_inv hstart hrecords.enable hquiet

/-- The enable bit falls at the end of the window. -/
theorem Records.ended (hrecords : Records trigger beats s)
    (hdown : s.intEnblReg = false) :
    beats = windowEnd 1023#23 1048575#23 trigger := by
  obtain ⟨hle, henable⟩ := hrecords.recording.extent hrecords.enable
  rw [hdown] at henable
  by_contra hne
  exact Bool.false_ne_true (henable.mpr (lt_of_le_of_ne hle hne))

end Acquisition

section Run

variable (converter : Core Conv (Sample × Bool) (BitVec 64))
  (core : CfgRegister.State cfgSize) (scope : Oscilloscope.State 23)
  (storage : Storage.State axiIdWidth Conv) (input : ℕ → Input)

def stateAt (cycle : ℕ) : State axiIdWidth Conv :=
  (system converter core scope storage).stateAt input cycle

/-- The samples that `scope_0` has handed on before a cycle. -/
def samples (cycle : ℕ) : List Sample :=
  (system converter core scope storage).log input forwarded cycle

/-- The number of words that `writer_0` has stored before a cycle. -/
def stored (cycle : ℕ) : ℕ :=
  ((system converter core scope storage).log input storedBeat cycle).length

/-- The program in a cycle. -/
def programAt (cycle : ℕ) : Host Place :=
  (stateAt converter core scope storage input cycle).bus.master.program

/-- The number of lines made before a cycle. -/
def lineCount (cycle : ℕ) : ℕ :=
  linesMade (stateAt converter core scope storage input cycle)

/-- The lines of the bus along a run. -/
def busInputs : ℕ → CfgBus.Input (Sight axiIdWidth) :=
  wired (system converter core scope storage) busInput input

theorem component_bus :
    Component (system converter core scope storage)
      (CfgBus.system program core (opened script)) State.bus busInput where
  start := rfl
  step := fun _ _ => rfl

theorem bus_stateAt (cycle : ℕ) :
    (stateAt converter core scope storage input cycle).bus =
      CfgScript.stateAt script .polling move core
        (busInputs converter core scope storage input) cycle :=
  (component_bus converter core scope storage).stateAt input cycle

theorem lineCount_eq (cycle : ℕ) :
    lineCount converter core scope storage input cycle =
      CfgScript.lineCount script .polling move core
        (busInputs converter core scope storage input) cycle := by
  rw [lineCount, linesMade, bus_stateAt]
  rfl

section Script

variable {core} (hreset : core.resetS = false)
include hreset

theorem lineCount_succ (cycle : ℕ) :
    lineCount converter core scope storage input (cycle + 1) =
        lineCount converter core scope storage input cycle ∨
      lineCount converter core scope storage input (cycle + 1) =
        lineCount converter core scope storage input cycle + 1 := by
  rw [lineCount_eq, lineCount_eq]
  exact CfgScript.lineCount_succ hreset readsInRange cycle

theorem slices_stateAt (hdown : (low (cfgWord core)).getLsbD 1 = false)
    (cycle : ℕ) :
    Slices (lineCount converter core scope storage input cycle)
      (stateAt converter core scope storage input cycle).bus.core := by
  have hconfig : Config (cfgWord core)
      (lineCount converter core scope storage input cycle)
      (cfgWord (stateAt converter core scope storage input cycle).bus.core) := by
    rw [lineCount_eq, bus_stateAt]
    exact (config_performed (lineCount_le cycle)).congr
      (words_eq hreset readsInRange cycle)
  exact hconfig.slices hdown

end Script

variable {converter core scope storage input}

theorem samples_succ (cycle : ℕ) :
    samples converter core scope storage input (cycle + 1) =
      samples converter core scope storage input cycle ++
        forwarded (stateAt converter core scope storage input cycle)
          (input cycle) := rfl

theorem storage_succ (cycle : ℕ) :
    (stateAt converter core scope storage input (cycle + 1)).storage =
      resetStep converter
        (stateAt converter core scope storage input cycle).storage
        (storageInput (stateAt converter core scope storage input cycle)
          (input cycle)) := rfl

theorem resetShreg_stateAt (hshreg : storage.memory.writer.resetShreg = 0)
    (cycle : ℕ) :
    (stateAt converter core scope storage input
      cycle).storage.memory.writer.resetShreg = 0 := by
  induction cycle with
  | zero => exact hshreg
  | succ cycle ih =>
      rw [storage_succ]
      exact resetShreg_resetStep ih

theorem stored_succ (cycle : ℕ) :
    stored converter core scope storage input (cycle + 1) =
      stored converter core scope storage input cycle +
        (storedBeat (stateAt converter core scope storage input cycle)
          (input cycle)).length := by
  rw [stored, Machine.log_succ, List.length_append]
  rfl

/-- Before the second line no sample and no word counts. -/
theorem empty_of_early {cycle : ℕ} (hearly : ∀ before < cycle,
      lineCount converter core scope storage input before ≤ 1) :
    samples converter core scope storage input cycle = [] ∧
      stored converter core scope storage input cycle = 0 := by
  induction cycle with
  | zero => exact ⟨rfl, rfl⟩
  | succ cycle ih =>
      have hcount : ¬ 2 ≤ linesMade
          (stateAt converter core scope storage input cycle) :=
        Nat.not_le.mpr
          (Nat.lt_succ_of_le (hearly cycle (Nat.lt_succ_self cycle)))
      obtain ⟨hsamples, hstored⟩ := ih fun before hbefore =>
        hearly before (Nat.lt_succ_of_lt hbefore)
      rw [samples_succ, stored_succ, hsamples, hstored, forwarded, storedBeat,
        if_neg fun hboth => hcount hboth.1, if_neg hcount]
      exact ⟨rfl, rfl⟩

/-- The samples are the words that the width converter is offered. -/
theorem forwarded_eq {cycle : ℕ}
    (hcount : 2 ≤ lineCount converter core scope storage input cycle) :
    forwarded (stateAt converter core scope storage input cycle) (input cycle) =
      if mAxisTvalid (stateAt converter core scope storage input cycle).scope
          (scopeInput (stateAt converter core scope storage input cycle)
            (input cycle)) then
        [(input cycle).sample.data]
      else [] := by
  unfold forwarded
  split_ifs with hboth hvalid hvalid
  · rfl
  · exact absurd hboth.2 hvalid
  · exact absurd ⟨hcount, hvalid⟩ hboth
  · rfl

/-- The place in the ring that the next turn of the program loads from. -/
def loads (s : State axiIdWidth Conv) : Option ℕ :=
  match s.bus.master.program with
  | .after (.printing start values) =>
      if values.length < total then some ((start.toNat + values.length) % 2 ^ 23)
      else none
  | _ => none

/-- What `main` has printed. -/
def printed (s : State axiIdWidth Conv) : Option (List (BitVec 16 × BitVec 16)) :=
  match s.bus.master.program with
  | .after place => place.values
  | .configuring _ => none

variable (converter core scope storage input) in
/-- What the design and the program rely on: the second line comes when no burst
is owed to the memory port; from then on the port accepts the address of a burst
by the time its data is due and no word is asked of an empty FIFO; the converter is
ready for every sample, since the core does not wait for it; the run flag is taken
once; and a word is stored when the program loads it. -/
structure Attended (horizon : ℕ) : Prop where
  whole : ∀ cycle < horizon,
    lineCount converter core scope storage input cycle = 1 →
    2 ≤ lineCount converter core scope storage input (cycle + 1) →
      (stateAt converter core scope storage input
          (cycle + 1)).storage.memory.port.beats =
        16 * (stateAt converter core scope storage input
          (cycle + 1)).storage.memory.port.starts.length
  fifo : ∀ cycle < horizon,
    2 ≤ lineCount converter core scope storage input cycle →
      RamWriter.intRdenWire
          (stateAt converter core scope storage input cycle).storage.memory.writer
          (input cycle).ports = true →
        (stateAt converter core scope storage input
          cycle).storage.memory.writer.fifo ≠ []
  address : ∀ cycle ≤ horizon,
    2 ≤ lineCount converter core scope storage input cycle →
      (stateAt converter core scope storage input
          cycle).storage.memory.port.beats ≤
        16 * (stateAt converter core scope storage input
          cycle).storage.memory.port.starts.length
  keepsUp : ∀ cycle < horizon,
    forwarded (stateAt converter core scope storage input cycle)
        (input cycle) ≠ [] →
      converter.ready
        (stateAt converter core scope storage input cycle).storage.conv
        (RamWriter.intTreadyWire (input cycle).ports) = true
  once : ∀ cycle < horizon,
    runTaken (stateAt converter core scope storage input cycle).scope
        (scopeInput (stateAt converter core scope storage input cycle)
          (input cycle)) = true →
      samples converter core scope storage input cycle = []
  drained : ∀ cycle < horizon, (input cycle).turn = true →
    ∀ place ∈ loads (stateAt converter core scope storage input cycle),
      ∀ k < (samples converter core scope storage input cycle).length,
        k % 2 ^ 23 = place → k / 2 < stored converter core scope storage input cycle

section Storage

variable {cycle horizon : ℕ} (hreset : core.resetS = false)
include hreset

/-- A count above one has begun in the cycle after that of the second line. -/
theorem exists_second_line
    (hcount : 2 ≤ lineCount converter core scope storage input cycle) :
    ∃ made < cycle, lineCount converter core scope storage input made = 1 ∧
      (samples converter core scope storage input (made + 1) = [] ∧
        stored converter core scope storage input (made + 1) = 0) ∧
      ∀ between, made < between → between ≤ cycle →
        2 ≤ lineCount converter core scope storage input between := by
  have hstep := lineCount_succ converter scope storage input hreset
  obtain ⟨made, hlt, hline, hsince⟩ := exists_line hstep (Nat.zero_le 1) hcount
  refine ⟨made, hlt, hline, empty_of_early fun before hbefore => ?_, hsince⟩
  rw [← hline]
  exact count_mono hstep (Nat.le_of_lt_succ hbefore)

theorem samples_of_count
    (hcount : lineCount converter core scope storage input cycle ≤ 1) :
    samples converter core scope storage input cycle = [] := by
  refine (empty_of_early fun before hbefore => le_trans ?_ hcount).1
  exact count_mono (lineCount_succ converter scope storage input hreset)
    hbefore.le

variable (hdown : (low (cfgWord core)).getLsbD 1 = false)
  (hshreg : storage.memory.writer.resetShreg = 0)
  (hattended : Attended converter core scope storage input horizon)
include hdown hshreg hattended

/-- The second line releases the storage. -/
theorem exists_released (hcycle : cycle ≤ horizon)
    (hcount : 2 ≤ lineCount converter core scope storage input cycle) :
    ∃ old memory release, Released converter
      (fun between =>
        (stateAt converter core scope storage input between).storage)
      (fun between =>
        storageInput (stateAt converter core scope storage input between)
          (input between))
      old memory
      (fun between =>
        (samples converter core scope storage input between).map
          fun sample => (sample, false))
      (stored converter core scope storage input) release cycle := by
  obtain ⟨made, hlt, hline, hempty, hsince⟩ := exists_second_line hreset hcount
  have hslices := slices_stateAt converter scope storage input hreset hdown
  have hlow : slice1 (stateAt converter core scope storage input made).bus.core =
      false := by
    rw [(hslices made).reset (by omega), hline]
    rfl
  have hrun : ∀ between, made + 1 ≤ between → between ≤ cycle →
      slice1 (stateAt converter core scope storage input between).bus.core =
        true := by
    intro between hfirst hlast
    have hmade := hsince between hfirst hlast
    rw [(hslices between).reset (by omega), decide_eq_true hmade]
  have hwhole := hattended.whole made (by omega) hline
    (hsince (made + 1) (Nat.lt_succ_self made) hlt)
  refine ⟨_, _, made + 1, hlt,
    resetStep_low (resetShreg_stateAt hshreg made) hlow hwhole,
    ⟨?_, hempty.2⟩, ?_, ?_, ?_, ?_, ?_⟩
  · rw [hempty.1, List.map_nil]
  · intro between hfirst hlast
    have hhigh := hrun between hfirst hlast.le
    exact ⟨hhigh, resetStep_high hhigh⟩
  · intro between hfirst hlast
    have hready := hattended.keepsUp between (by omega)
    have hforwarded := forwarded_eq (hsince between hfirst hlast.le)
    rw [samples_succ, List.map_append]
    refine congrArg (_ ++ ·) ?_
    rw [hforwarded] at hready ⊢
    change _ = if mAxisTvalid _ _ && converter.ready _ _ then [_] else []
    split_ifs at hready ⊢ with hvalid hboth hboth
    · rfl
    · exact absurd (Bool.and_eq_true_iff.mpr
        ⟨hvalid, hready (List.cons_ne_nil _ _)⟩) hboth
    · exact absurd (Bool.and_eq_true_iff.mp hboth).1 hvalid
    · rfl
  · intro between hfirst hlast
    rw [stored_succ]
    exact congrArg (_ + List.length ·)
      (if_pos (hsince between hfirst hlast.le))
  · intro between hfirst hlast
    exact hattended.fifo between (by omega) (hsince between hfirst hlast.le)
  · intro between hfirst hlast
    exact hattended.address between (by omega) (hsince between hfirst hlast)

/-- From the second line on the ring holds the samples that have been handed on,
as far as they are stored. -/
theorem value_eq_sample {alone : Sample → BitVec 64}
    {shows : Conv → Option Sample → List (BitVec 64) → Prop}
    (hconverter : Realizes converter (pairing alone) (fun _ _ => True) shows)
    (hempty : shows converter.start none []) (hcycle : cycle ≤ horizon)
    (hcount : 2 ≤ lineCount converter core scope storage input cycle) :
    stored converter core scope storage input cycle ≤
      (samples converter core scope storage input cycle).length / 2 ∧
    ∀ k, k / 2 < stored converter core scope storage input cycle →
      stored converter core scope storage input cycle ≤ k / 2 + 2 ^ addrWidth →
      (samples converter core scope storage input cycle)[k]?.map channels =
        some (value (stateAt converter core scope storage input
          cycle).storage.memory.port (4 * (k % 2 ^ 23))) := by
  obtain ⟨old, memory, release, hreleased⟩ :=
    exists_released hreset hdown hshreg hattended hcycle hcount
  obtain ⟨later, rfl⟩ := Nat.exists_eq_add_of_le hreleased.before
  exact hreleased.holds hconverter hempty (run_pairing_unmarked alone _)

end Storage

variable (converter core scope storage input) in
/-- The trigger is taken in a cycle. -/
def TriggerAt (cycle : ℕ) : Prop :=
  triggerTaken (stateAt converter core scope storage input cycle).scope
    (scopeInput (stateAt converter core scope storage input cycle)
      (input cycle)) = true

variable (converter core scope storage input) in
/-- The core is reset and has handed on nothing. -/
structure Waiting (cycle : ℕ) : Prop where
  reset : (stateAt converter core scope storage input cycle).scope = resetState
  empty : samples converter core scope storage input cycle = []

variable (converter core scope storage input) in
/-- An acquisition before or after its trigger. -/
def Acquiring (cycle : ℕ) : Prop :=
  Fills (samples converter core scope storage input cycle).length
      (stateAt converter core scope storage input cycle).scope ∨
    ∃ trigger < cycle, TriggerAt converter core scope storage input trigger ∧
      Records (samples converter core scope storage input trigger).length
        (samples converter core scope storage input cycle).length
        (stateAt converter core scope storage input cycle).scope

section Trigger

variable {cycle horizon : ℕ}

theorem scope_succ (cycle : ℕ) :
    (stateAt converter core scope storage input (cycle + 1)).scope =
      Oscilloscope.step
        (preData (stateAt converter core scope storage input cycle).bus.core)
        (totData (stateAt converter core scope storage input cycle).bus.core)
        (stateAt converter core scope storage input cycle).scope
        (scopeInput (stateAt converter core scope storage input cycle)
          (input cycle)) := rfl

theorem length_samples_succ
    (hcount : 2 ≤ lineCount converter core scope storage input cycle) :
    (samples converter core scope storage input (cycle + 1)).length =
      (samples converter core scope storage input cycle).length +
        (mAxisTvalid (stateAt converter core scope storage input cycle).scope
          (scopeInput (stateAt converter core scope storage input cycle)
            (input cycle))).toNat := by
  rw [samples_succ, List.length_append]
  refine congrArg (_ + ·) ?_
  unfold forwarded
  cases hvalid : mAxisTvalid
      (stateAt converter core scope storage input cycle).scope
      (scopeInput (stateAt converter core scope storage input cycle)
        (input cycle)) with
  | false =>
      rw [if_neg fun hboth => Bool.false_ne_true hboth.2]
      rfl
  | true =>
      rw [if_pos ⟨hcount, rfl⟩]
      rfl

variable (hreset : core.resetS = false)
  (hdown : (low (cfgWord core)).getLsbD 1 = false)
include hreset hdown

theorem scope_succ_of_configured
    (hcount : 7 ≤ lineCount converter core scope storage input cycle) :
    (stateAt converter core scope storage input (cycle + 1)).scope =
      next 1023#23 1048575#23
        (stateAt converter core scope storage input cycle).scope
        (scopeInput (stateAt converter core scope storage input cycle)
          (input cycle)) := by
  have hslices := slices_stateAt converter scope storage input hreset hdown cycle
  have hrun := hslices.reset (by omega)
  rw [decide_eq_true (by omega)] at hrun
  rw [scope_succ, hslices.pre (by omega), hslices.tot hcount, Oscilloscope.step]
  exact if_pos hrun

variable (converter scope storage input) in
/-- The run flag is up after the ninth line. -/
theorem runFlag_eq (cycle : ℕ) :
    (scopeInput (stateAt converter core scope storage input cycle)
      (input cycle)).runFlag =
        decide (lineCount converter core scope storage input cycle = 9) :=
  (slices_stateAt converter scope storage input hreset hdown cycle).run

omit hreset hdown in
theorem Acquiring.enable
    (hacquiring : Acquiring converter core scope storage input cycle) :
    EnableInv (stateAt converter core scope storage input cycle).scope := by
  obtain hfills | ⟨trigger, -, -, hrecords⟩ := hacquiring
  · exact hfills.enable
  · exact hrecords.enable

/-- A waiting core begins an acquisition with the run flag. -/
theorem Waiting.run
    (hwaiting : Waiting converter core scope storage input cycle)
    (hcount : lineCount converter core scope storage input cycle = 9) :
    Acquiring converter core scope storage input (cycle + 1) := by
  have hflag := runFlag_eq converter scope storage input hreset hdown cycle
  rw [decide_eq_true hcount] at hflag
  have hnone : mAxisTvalid (resetState : Oscilloscope.State 23)
      (scopeInput (stateAt converter core scope storage input cycle)
        (input cycle)) = false := rfl
  left
  rw [length_samples_succ (by omega), scope_succ_of_configured hreset hdown (by omega),
    hwaiting.reset, hwaiting.empty, hnone]
  exact fills_run hflag

/-- Without it the core waits. -/
theorem Waiting.stay
    (hwaiting : Waiting converter core scope storage input cycle)
    (hlow : 2 ≤ lineCount converter core scope storage input cycle)
    (hcount : lineCount converter core scope storage input cycle ≠ 9) :
    Waiting converter core scope storage input (cycle + 1) := by
  have hflag := runFlag_eq converter scope storage input hreset hdown cycle
  rw [decide_eq_false hcount] at hflag
  have hrun := (slices_stateAt converter scope storage input hreset hdown
    cycle).reset (by omega)
  rw [decide_eq_true hlow] at hrun
  constructor
  · rw [scope_succ, hwaiting.reset, Oscilloscope.step]
    exact (if_pos hrun).trans (next_idle rfl hflag)
  · have hlength := length_samples_succ hlow
    rw [hwaiting.reset, hwaiting.empty] at hlength
    exact List.length_eq_zero_iff.mp hlength

/-- An acquisition goes on. -/
theorem Acquiring.succ
    (hattended : Attended converter core scope storage input horizon)
    (hcycle : cycle < horizon)
    (hacquiring : Acquiring converter core scope storage input cycle)
    (hcount : 9 ≤ lineCount converter core scope storage input cycle) :
    Acquiring converter core scope storage input (cycle + 1) := by
  unfold Acquiring
  rw [length_samples_succ (by omega),
    scope_succ_of_configured hreset hdown (by omega)]
  obtain hfills | ⟨trigger, hbefore, htaken, hrecords⟩ := hacquiring
  · cases htaken : triggerTaken
        (stateAt converter core scope storage input cycle).scope
        (scopeInput (stateAt converter core scope storage input cycle)
          (input cycle)) with
    | false => exact Or.inl (hfills.next_inv htaken)
    | true =>
        refine Or.inr ⟨cycle, Nat.lt_succ_self cycle, htaken, ?_⟩
        rw [mAxisTvalid_of_trigger hfills.enable htaken]
        exact hfills.records htaken
  · refine Or.inr ⟨trigger, Nat.lt_succ_of_lt hbefore, htaken,
      hrecords.next_inv ?_⟩
    rw [← Bool.not_eq_true]
    intro hrun
    have hempty := hattended.once cycle hcycle hrun
    have hdisabled : (stateAt converter core scope storage input
        cycle).scope.intEnblReg = false := by
      simp only [runTaken, Bool.and_eq_true, decide_eq_true_eq] at hrun
      rw [← Bool.not_eq_true]
      exact fun hset => hrecords.enable.mp hset hrun.1
    have hended := hrecords.ended hdisabled
    rw [hempty] at hended
    exact absurd hended.symm (Nat.succ_ne_zero _)

/-- From the second line on the core waits for its start or is in its
acquisition. -/
theorem waiting_or_acquiring
    (hattended : Attended converter core scope storage input horizon) :
    ∀ cycle ≤ horizon, 2 ≤ lineCount converter core scope storage input cycle →
      (Waiting converter core scope storage input cycle ∧
          lineCount converter core scope storage input cycle ≤ 9) ∨
        (Acquiring converter core scope storage input cycle ∧
          9 ≤ lineCount converter core scope storage input cycle) := by
  apply upTo_induction
  · intro hcount
    have hzero : lineCount converter core scope storage input 0 = 0 := rfl
    omega
  · intro cycle hcycle ih hcount
    have hnext := lineCount_succ converter scope storage input hreset cycle
    by_cases hbefore : 2 ≤ lineCount converter core scope storage input cycle
    · obtain ⟨hwaiting, hle⟩ | ⟨hacquiring, hle⟩ := ih hbefore
      · by_cases hnine : lineCount converter core scope storage input cycle = 9
        · exact Or.inr ⟨hwaiting.run hreset hdown hnine, by omega⟩
        · exact Or.inl ⟨hwaiting.stay hreset hdown hbefore hnine, by omega⟩
      · exact Or.inr
          ⟨hacquiring.succ hreset hdown hattended hcycle hle, by omega⟩
    · have hone : lineCount converter core scope storage input cycle = 1 := by
        omega
      have hlow := (slices_stateAt converter scope storage input hreset hdown
        cycle).reset (by omega)
      rw [hone] at hlow
      refine Or.inl ⟨⟨?_, ?_⟩, by omega⟩
      · rw [scope_succ, Oscilloscope.step]
        exact if_neg fun hrun => Bool.false_ne_true (hlow.symm.trans hrun)
      · refine (empty_of_early fun before hbefore => ?_).1
        rw [← hone]
        exact count_mono (lineCount_succ converter scope storage input hreset)
          (Nat.le_of_lt_succ hbefore)

end Trigger

end Run

end Rfsoc.Scope
