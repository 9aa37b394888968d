import Rfsoc.System.ScopeRun

/-!
# The printed window

What `adc_recorder_trigger` prints is a window of the samples that the core has
handed on, and it contains the sample that the trigger fell on: the core hands on
whole bursts up to the end of the window, and the window fits the ring.
-/

namespace Rfsoc.Scope

open Rfsoc.CfgBus
open Rfsoc.CfgRegister
open Rfsoc.CfgScript
open Rfsoc.Clocked
open Rfsoc.Oscilloscope
open Rfsoc.Progress
open Rfsoc.Storage
open Rfsoc.Stream
open Rfsoc.WidthConverter

variable {axiIdWidth : ℕ} {Conv : Type*}

section Run

variable {converter : Core Conv (Sample × Bool) (BitVec 64)}
  {core : CfgRegister.State cfgSize} {scope : Oscilloscope.State 23}
  {storage : Storage.State axiIdWidth Conv} {input : ℕ → Input}

/-- The low bit of the status word is the enable bit. -/
theorem sts_bit_eq_zero_iff {s : Oscilloscope.State 23} :
    (stsData s).setWidth 32 &&& 1#32 = 0 ↔ s.intEnblReg = false := by
  have hlow : ((stsData s).setWidth 32 &&& 1#32).toNat =
      s.intEnblReg.toNat := by
    rw [BitVec.toNat_and, BitVec.toNat_setWidth, BitVec.toNat_ofNat,
      Nat.and_one_is_mod, stsData, Bits.toNat_append_eq]
    cases s.intEnblReg <;> simp
  rw [← BitVec.toNat_inj, hlow]
  cases s.intEnblReg <;> simp

theorem offset_eq (start : BitVec 32) (i : ℕ) :
    offset start i = 4 * ((start.toNat + i) % 2 ^ 23) := by
  have hmask : (0x007FFFFF#32).toNat = 2 ^ 23 - 1 := rfl
  rw [offset, BitVec.toNat_mul, BitVec.toNat_and, hmask,
    Nat.and_two_pow_sub_one_eq_mod, BitVec.toNat_add, BitVec.toNat_ofNat,
    BitVec.toNat_ofNat]
  omega

variable (converter core scope storage input) in
/-- An acquisition that has come to its end. -/
structure Ended (trigger cycle : ℕ) : Prop where
  before : trigger < cycle
  taken : TriggerAt converter core scope storage input trigger
  records : Records (samples converter core scope storage input trigger).length
    (samples converter core scope storage input cycle).length
    (stateAt converter core scope storage input cycle).scope
  disabled : (stateAt converter core scope storage input
    cycle).scope.intEnblReg = false

variable (converter core scope storage input) in
/-- The first sample of the window. -/
def first (trigger : ℕ) : ℕ :=
  windowStart 1023#23
    (samples converter core scope storage input trigger).length

variable (converter core scope storage input) in
/-- The values are the beginning of the window. -/
structure Prints (trigger cycle : ℕ) (values : List (BitVec 16 × BitVec 16)) :
    Prop where
  ended : Ended converter core scope storage input trigger cycle
  le : values.length ≤ total
  values : values = (((samples converter core scope storage input cycle).drop
    (first converter core scope storage input trigger)).take
      values.length).map channels

variable (converter core scope storage input) in
/-- What the program knows in its places. -/
def Follows (cycle : ℕ) : Place → Prop
  | .polling => True
  | .stopped => ∃ trigger, Ended converter core scope storage input trigger cycle
  | .printing start values =>
      ∃ trigger, Prints converter core scope storage input trigger cycle values ∧
        start.toNat =
          first converter core scope storage input trigger % 2 ^ 23
  | .printed values =>
      ∃ trigger, Prints converter core scope storage input trigger cycle values ∧
        values.length = total

section Program

variable {trigger cycle horizon : ℕ} {values : List (BitVec 16 × BitVec 16)}
  {place : Place}

theorem lineCount_of_after
    (hplace : programAt converter core scope storage input cycle =
      .after place) :
    lineCount converter core scope storage input cycle = 10 := by
  rw [programAt, bus_stateAt] at hplace
  rw [lineCount_eq]
  exact CfgScript.lineCount_of_after hplace

variable (hreset : core.resetS = false)
include hreset

/-- The program goes on in its place, comes from its script, or makes a move by
what it sees. -/
theorem programAt_succ
    (hplace : programAt converter core scope storage input (cycle + 1) =
      .after place) :
    programAt converter core scope storage input cycle = .after place ∨
      place = .polling ∨
      ∃ before, programAt converter core scope storage input cycle =
          .after before ∧ (input cycle).turn = true ∧
        place = move before
          (sight (stateAt converter core scope storage input cycle)) := by
  rw [programAt, bus_stateAt] at hplace ⊢
  obtain hstay | hfirst | ⟨before, seen, hbefore, hseen, hmoved⟩ :=
    after_cases hreset readsInRange hplace
  · exact Or.inl hstay
  · exact Or.inr (Or.inl hfirst)
  · change (if (input cycle).turn then some _ else none) = some seen at hseen
    split at hseen
    case isTrue hturn =>
      refine Or.inr (Or.inr ⟨before, hbefore, hturn, ?_⟩)
      rw [hmoved, ← Option.some.inj hseen]
      rfl
    case isFalse => cases hseen

variable (hdown : (low (cfgWord core)).getLsbD 1 = false)
include hdown

/-- When the run flag has been taken back, the core rests after its end. -/
theorem Ended.rest
    (hended : Ended converter core scope storage input trigger cycle)
    (hcount : lineCount converter core scope storage input cycle = 10) :
    (stateAt converter core scope storage input (cycle + 1)).scope =
        (stateAt converter core scope storage input cycle).scope ∧
      samples converter core scope storage input (cycle + 1) =
        samples converter core scope storage input cycle := by
  have hflag := runFlag_eq converter scope storage input hreset hdown cycle
  rw [hcount] at hflag
  have hidle : (stateAt converter core scope storage input
      cycle).scope.intCaseReg = .idle := by
    by_contra hbusy
    exact Bool.false_ne_true
      (hended.disabled.symm.trans (hended.records.enable.mpr hbusy))
  constructor
  · rw [scope_succ_of_configured hreset hdown (by omega)]
    exact next_idle hidle hflag
  · have hnone : forwarded (stateAt converter core scope storage input cycle)
        (input cycle) = [] := by
      refine if_neg fun hboth => ?_
      have hvalid := hboth.2
      rw [mAxisTvalid, hended.disabled] at hvalid
      exact Bool.false_ne_true hvalid
    rw [samples_succ, hnone, List.append_nil]

theorem Ended.succ
    (hended : Ended converter core scope storage input trigger cycle)
    (hcount : lineCount converter core scope storage input cycle = 10) :
    Ended converter core scope storage input trigger (cycle + 1) := by
  obtain ⟨hscope, hsamples⟩ := hended.rest hreset hdown hcount
  refine ⟨Nat.lt_succ_of_lt hended.before, hended.taken, ?_, ?_⟩
  · rw [hscope, hsamples]
    exact hended.records
  · rw [hscope]
    exact hended.disabled

theorem Prints.succ
    (hprints : Prints converter core scope storage input trigger cycle values)
    (hcount : lineCount converter core scope storage input cycle = 10) :
    Prints converter core scope storage input trigger (cycle + 1) values := by
  obtain ⟨-, hsamples⟩ := hprints.ended.rest hreset hdown hcount
  refine ⟨hprints.ended.succ hreset hdown hcount, hprints.le, ?_⟩
  rw [hsamples]
  exact hprints.values

theorem Follows.succ
    (hfollows : Follows converter core scope storage input cycle place)
    (hcount : lineCount converter core scope storage input cycle = 10) :
    Follows converter core scope storage input (cycle + 1) place := by
  cases place with
  | polling => trivial
  | stopped =>
      obtain ⟨trigger, hended⟩ := hfollows
      exact ⟨trigger, hended.succ hreset hdown hcount⟩
  | printing start values =>
      obtain ⟨trigger, hprints, hstart⟩ := hfollows
      exact ⟨trigger, hprints.succ hreset hdown hcount, hstart⟩
  | printed values =>
      obtain ⟨trigger, hprints, hlength⟩ := hfollows
      exact ⟨trigger, hprints.succ hreset hdown hcount, hlength⟩

/-- One more value of the window, read from the ring. -/
theorem Prints.concat {alone : Sample → BitVec 64}
    {shows : Conv → Option Sample → List (BitVec 64) → Prop}
    (hconverter : Realizes converter (pairing alone) (fun _ _ => True) shows)
    (hempty : shows converter.start none [])
    (hshreg : storage.memory.writer.resetShreg = 0)
    (hattended : Attended converter core scope storage input horizon)
    (hcycle : cycle < horizon) (hturn : (input cycle).turn = true)
    {start : BitVec 32}
    (hplace : programAt converter core scope storage input cycle =
      .after (.printing start values))
    (hprints : Prints converter core scope storage input trigger cycle values)
    (hstart : start.toNat =
      first converter core scope storage input trigger % 2 ^ 23)
    (hmore : values.length < total) :
    Prints converter core scope storage input trigger cycle
      (values ++ [value (stateAt converter core scope storage input
        cycle).storage.memory.port (offset start values.length)]) := by
  have hcount := lineCount_of_after hplace
  have hloads : loads (stateAt converter core scope storage input cycle) =
      some ((start.toNat + values.length) % 2 ^ 23) := by
    rw [loads, ← programAt, hplace]
    exact if_pos hmore
  obtain ⟨hbeats, hvalue⟩ := value_eq_sample hreset hdown hshreg hattended
    hconverter hempty hcycle.le (by omega)
  have hlength := hprints.ended.records.ended hprints.ended.disabled
  have hfilled := hprints.ended.records.filled
  have hfirst : first converter core scope storage input trigger =
      (samples converter core scope storage input trigger).length -
        (samples converter core scope storage input trigger).length % 64 -
          1024 := rfl
  have hwindow : (samples converter core scope storage input cycle).length =
      first converter core scope storage input trigger + 1048575 + 3 := hlength
  have htotal : total = 1048576 := rfl
  have hring : 2 ^ addrWidth = 4194304 := rfl
  have hstored := hattended.drained cycle hcycle hturn _ hloads
    (first converter core scope storage input trigger + values.length)
    (by omega) (by rw [hstart, Nat.mod_add_mod])
  have hsample := hvalue
    (first converter core scope storage input trigger + values.length)
    hstored (by omega)
  have hoffset : offset start values.length =
      4 * ((first converter core scope storage input trigger + values.length) %
        2 ^ 23) := by
    rw [offset_eq, hstart, Nat.mod_add_mod]
  refine ⟨hprints.ended, ?_, ?_⟩
  · rw [List.length_append, List.length_singleton]
    exact hmore
  · rw [List.length_append, List.length_singleton, List.take_add_one,
      List.map_append, ← hprints.values, List.getElem?_drop, hoffset,
      ← Option.toList_some, ← hsample, Option.toList_map]

/-- What the program knows stays true with its next move. -/
theorem Follows.move {alone : Sample → BitVec 64}
    {shows : Conv → Option Sample → List (BitVec 64) → Prop}
    (hconverter : Realizes converter (pairing alone) (fun _ _ => True) shows)
    (hempty : shows converter.start none [])
    (hshreg : storage.memory.writer.resetShreg = 0)
    (hattended : Attended converter core scope storage input horizon)
    (hcycle : cycle < horizon) (hturn : (input cycle).turn = true)
    (hplace : programAt converter core scope storage input cycle = .after place)
    (hfollows : Follows converter core scope storage input cycle place) :
    Follows converter core scope storage input cycle
      (move place (sight (stateAt converter core scope storage input cycle))) := by
  have hcount := lineCount_of_after hplace
  cases place with
  | polling =>
      rw [move]
      split
      case isFalse => trivial
      case isTrue hbit =>
        have hdisabled := sts_bit_eq_zero_iff.mp hbit
        obtain ⟨-, hle⟩ | ⟨hacquiring, -⟩ := waiting_or_acquiring hreset hdown
          hattended cycle hcycle.le (by omega)
        · omega
        · obtain hfills | ⟨trigger, hbefore, htaken, hrecords⟩ := hacquiring
          · exact absurd (hfills.enable.mpr hfills.busy)
              (Bool.not_eq_true _ ▸ hdisabled)
          · exact ⟨trigger, hbefore, htaken, hrecords, hdisabled⟩
  | stopped =>
      obtain ⟨trigger, hended⟩ := hfollows
      refine ⟨trigger, ⟨hended, Nat.zero_le _, ?_⟩, ?_⟩
      · rw [List.length_nil, List.take_zero, List.map_nil]
      · exact toNat_hostStart hended.records.filled hended.records.recording.1
  | printing start values =>
      obtain ⟨trigger, hprints, hstart⟩ := hfollows
      rw [move]
      split
      case isTrue hmore =>
        exact ⟨trigger, hprints.concat hreset hdown hconverter hempty hshreg
          hattended hcycle hturn hplace hstart hmore, hstart⟩
      case isFalse hall =>
        exact ⟨trigger, hprints, le_antisymm hprints.le (not_lt.mp hall)⟩
  | printed values => exact hfollows

/-- In every cycle the program knows what its place says. -/
theorem follows_stateAt {alone : Sample → BitVec 64}
    {shows : Conv → Option Sample → List (BitVec 64) → Prop}
    (hconverter : Realizes converter (pairing alone) (fun _ _ => True) shows)
    (hempty : shows converter.start none [])
    (hshreg : storage.memory.writer.resetShreg = 0)
    (hattended : Attended converter core scope storage input horizon) :
    ∀ cycle ≤ horizon, ∀ place,
      programAt converter core scope storage input cycle = .after place →
        Follows converter core scope storage input cycle place := by
  apply upTo_induction
  · intro place hplace
    cases hplace
  · intro cycle hcycle ih place hplace
    obtain hstay | rfl | ⟨before, hbefore, hturn, rfl⟩ :=
      programAt_succ hreset hplace
    · exact (ih place hstay).succ hreset hdown (lineCount_of_after hstay)
    · trivial
    · have hmoved := (ih before hbefore).move hreset hdown hconverter hempty
        hshreg hattended hcycle hturn hbefore
      exact hmoved.succ hreset hdown (lineCount_of_after hbefore)

end Program

/-! ## The window -/

variable (converter core scope storage input) in
/-- Values printed before a cycle, and the cycle of the trigger. -/
structure Window (trigger cycle : ℕ) (values : List (BitVec 16 × BitVec 16)) :
    Prop where
  taken : trigger < cycle ∧ TriggerAt converter core scope storage input trigger
  filled : 1024 ≤ (samples converter core scope storage input trigger).length
  /-- The values are samples in their order, from the start of the window on. -/
  shown : values = (((samples converter core scope storage input cycle).drop
    (first converter core scope storage input trigger)).take
      values.length).map channels
  /-- The sample that the trigger fell on is among the first 1088. -/
  marked : 1024 + (samples converter core scope storage input trigger).length % 64 <
      values.length →
    values[1024 +
        (samples converter core scope storage input trigger).length % 64]? =
      some (channels (input trigger).sample.data)

variable (converter core scope storage input) in
/-- The design at a cycle. -/
structure Scoped (cycle : ℕ) : Prop where
  /-- The ring holds the samples handed on since the reset. -/
  stored : 2 ≤ lineCount converter core scope storage input cycle →
    ∀ k, k / 2 < stored converter core scope storage input cycle →
      stored converter core scope storage input cycle ≤ k / 2 + 2 ^ addrWidth →
      (samples converter core scope storage input cycle)[k]?.map channels =
        some (value (stateAt converter core scope storage input
          cycle).storage.memory.port (4 * (k % 2 ^ 23)))
  /-- What has been printed is the beginning of a window. -/
  window : ∀ values,
    printed (stateAt converter core scope storage input cycle) = some values →
      values.length ≤ total ∧ ∃ trigger,
        Window converter core scope storage input trigger cycle values
  /-- The program ends with the whole window. -/
  complete : ∀ values,
    (stateAt converter core scope storage input cycle).bus.master.program =
        .after (.printed values) →
      values.length = total

section Window

variable {trigger cycle horizon : ℕ} {values : List (BitVec 16 × BitVec 16)}

variable (converter core scope storage input) in
theorem samples_isPrefix {early late : ℕ} (hle : early ≤ late) :
    samples converter core scope storage input early <+:
      samples converter core scope storage input late :=
  Machine.log_isPrefix forwarded hle

variable (hreset : core.resetS = false)
  (hdown : (low (cfgWord core)).getLsbD 1 = false)
  (hattended : Attended converter core scope storage input horizon)
include hreset hdown hattended

/-- The sample that the trigger falls on is handed on. -/
theorem getElem?_samples_trigger (hcycle : cycle ≤ horizon)
    (hended : Ended converter core scope storage input trigger cycle) :
    (samples converter core scope storage input cycle)[(samples converter core
        scope storage input trigger).length]? =
      some (input trigger).sample.data := by
  have hfilled := hended.records.filled
  have hbefore := hended.before
  have hcount : 2 ≤ lineCount converter core scope storage input trigger := by
    by_contra hearly
    rw [samples_of_count hreset (by omega)] at hfilled
    exact absurd hfilled (by decide)
  have henable : EnableInv
      (stateAt converter core scope storage input trigger).scope := by
    obtain ⟨hwaiting, -⟩ | ⟨hacquiring, -⟩ :=
      waiting_or_acquiring hreset hdown hattended trigger (by omega) hcount
    · rw [hwaiting.reset]
      exact enableInv_resetState
    · exact hacquiring.enable
  have hvalid := mAxisTvalid_of_trigger henable hended.taken
  have hone : samples converter core scope storage input (trigger + 1) =
      samples converter core scope storage input trigger ++
        [(input trigger).sample.data] := by
    rw [samples_succ]
    exact congrArg (_ ++ ·) (if_pos ⟨hcount, hvalid⟩)
  obtain ⟨later, hlater⟩ := samples_isPrefix converter core scope storage input
    (Nat.succ_le_of_lt hbefore)
  rw [← hlater, hone, List.append_assoc, List.getElem?_append_right le_rfl,
    Nat.sub_self]
  rfl

theorem Prints.window (hcycle : cycle ≤ horizon)
    (hprints : Prints converter core scope storage input trigger cycle values) :
    Window converter core scope storage input trigger cycle values where
  taken := ⟨hprints.ended.before, hprints.ended.taken⟩
  filled := hprints.ended.records.filled
  shown := hprints.values
  marked := by
    intro hinside
    have hfilled := hprints.ended.records.filled
    have hfirst : first converter core scope storage input trigger =
        (samples converter core scope storage input trigger).length -
          (samples converter core scope storage input trigger).length % 64 -
            1024 := rfl
    have hplace : first converter core scope storage input trigger + (1024 +
        (samples converter core scope storage input trigger).length % 64) =
          (samples converter core scope storage input trigger).length := by
      omega
    rw [hprints.values, List.getElem?_map, List.getElem?_take_of_lt hinside,
      List.getElem?_drop, hplace,
      getElem?_samples_trigger hreset hdown hattended hcycle hprints.ended]
    rfl

end Window

end Run

/-- The program prints the window of the trigger: in every run in which no burst is
cut short, no word is asked of an empty FIFO and the converter and the program keep
up, the ring holds the samples handed on since the reset, and what is printed is
`1024 * 1024` of them in their order, the one that the trigger fell on among the
first 1088. -/
theorem scope_prints (converter : Core Conv (Sample × Bool) (BitVec 64))
    (alone : Sample → BitVec 64)
    (shows : Conv → Option Sample → List (BitVec 64) → Prop)
    (hconverter : Realizes converter (pairing alone) (fun _ _ => True) shows)
    (hempty : shows converter.start none [])
    (core : CfgRegister.State cfgSize) (hreset : core.resetS = false)
    (hdown : (low (cfgWord core)).getLsbD 1 = false)
    (scope : Oscilloscope.State 23) (storage : Storage.State axiIdWidth Conv)
    (hshreg : storage.memory.writer.resetShreg = 0) (input : ℕ → Input)
    (horizon : ℕ)
    (hattended : Attended converter core scope storage input horizon) :
    ∀ cycle ≤ horizon, Scoped converter core scope storage input cycle := by
  intro cycle hcycle
  have hfollows := follows_stateAt hreset hdown hconverter hempty hshreg hattended
    cycle hcycle
  refine ⟨?_, ?_, ?_⟩
  · intro hcount
    exact (value_eq_sample hreset hdown hshreg hattended hconverter hempty hcycle
      hcount).2
  · intro values hvalues
    rw [printed] at hvalues
    split at hvalues
    case h_1 place hplace =>
      have hknows := hfollows place hplace
      cases place with
      | polling => cases hvalues
      | stopped => cases hvalues
      | printing start shown =>
          obtain rfl := Option.some.inj hvalues
          obtain ⟨trigger, hprints, -⟩ := hknows
          exact ⟨hprints.le, trigger,
            hprints.window hreset hdown hattended hcycle⟩
      | printed shown =>
          obtain rfl := Option.some.inj hvalues
          obtain ⟨trigger, hprints, -⟩ := hknows
          exact ⟨hprints.le, trigger,
            hprints.window hreset hdown hattended hcycle⟩
    case h_2 => cases hvalues
  · intro values hplace
    obtain ⟨trigger, -, hlength⟩ :=
      hfollows (.printed values) hplace
    exact hlength

section Prompt

variable {s : Oscilloscope.State 23} {i : Oscilloscope.Input Sample} {beats : ℕ}

/-- An acquisition with its trigger up all the time: the first sample for which the
core looks at it is taken. -/
def Prompt (beats : ℕ) (s : Oscilloscope.State 23) : Prop :=
  (Fills beats s ∧ (s.intCaseReg = .armed → beats = 1024)) ∨
    Records 1024 beats s

theorem Prompt.next_inv (hprompt : Prompt beats s) (hrun : i.runFlag = false)
    (htrigger : i.trgFlag = true) :
    Prompt (beats + (mAxisTvalid s i).toNat) (next 1023#23 1048575#23 s i) := by
  obtain ⟨hfills, harmed⟩ | hrecords := hprompt
  · cases htaken : triggerTaken s i with
    | true =>
        have hcase := htaken
        simp only [triggerTaken, Bool.and_eq_true, decide_eq_true_eq] at hcase
        obtain rfl := harmed hcase.1.1
        rw [mAxisTvalid_of_trigger hfills.enable htaken]
        exact Or.inr (hfills.records htaken)
    | false =>
        have hnext := hfills.next_inv htaken
        refine Or.inl ⟨hnext, fun hcase => ?_⟩
        have hfilled := hnext.filling
        have hfilling := hfills.filling
        unfold Filling at hfilled hfilling
        rw [hcase] at hfilled
        obtain hphase | hphase := hfills.phase
        · -- the last sample that the core does not look at
          rw [hphase] at hfilling
          have hone := Bool.toNat_le (mAxisTvalid s i)
          have hpre : (1023#23).toNat = 1023 := rfl
          omega
        · have hnone : i.sAxisTvalid = false := by
            simpa [triggerTaken, hphase, htrigger] using htaken
          rw [mAxisTvalid, hnone, Bool.and_false, harmed hphase]
          rfl
  · refine Or.inr (hrecords.next_inv ?_)
    rw [runTaken, hrun, Bool.and_false]

theorem Prompt.le (hprompt : Prompt beats s) : beats ≤ 1048578 := by
  obtain ⟨hfills, harmed⟩ | hrecords := hprompt
  · obtain hphase | hphase := hfills.phase
    · have hfilling := hfills.filling
      unfold Filling at hfilling
      rw [hphase] at hfilling
      have hpre : (1023#23).toNat = 1023 := rfl
      omega
    · rw [harmed hphase]
      decide
  · exact (hrecords.recording.extent hrecords.enable).1

/-- Such an acquisition ends with its window at the first sample. -/
theorem Prompt.ended (hprompt : Prompt beats s) (hdown : s.intEnblReg = false) :
    beats = 1048578 := by
  obtain ⟨hfills, -⟩ | hrecords := hprompt
  · exact absurd (hfills.enable.mpr hfills.busy) (Bool.not_eq_true _ ▸ hdown)
  · exact hrecords.ended hdown

end Prompt

section Rests

variable {converter : Core Conv (Sample × Bool) (BitVec 64)}
  {s : State axiIdWidth Conv} {i : Input} {place : Place}

/-- The program is behind its script, and its bus is idle. -/
def Rests (s : State axiIdWidth Conv) (place : Place) : Prop :=
  s.bus.master = { program := .after place, phase := .idle }

theorem Rests.step (hrests : Rests s place) :
    Rests (step converter s i)
      (if i.turn then move place (sight s) else place) := by
  change Master.step _ _ _ _ _ _ _ _ = _
  rw [hrests]
  cases hturn : i.turn <;> simp [Master.step, busInput, hturn, program, scripted]

/-- The program polls, and its bus is idle. -/
def polls (s : State axiIdWidth Conv) : Bool :=
  match s.bus.master with
  | { program := .after .polling, phase := .idle } => true
  | _ => false

theorem rests_of_polls (hpolls : polls s = true) : Rests s .polling := by
  unfold polls at hpolls
  split at hpolls
  case h_1 hmaster => exact hmaster
  case h_2 => cases hpolls

/-- A program that polls waits for the enable bit to fall. -/
theorem move_polling (s : State axiIdWidth Conv) :
    move .polling (sight s) =
      if s.scope.intEnblReg then .polling else .stopped := by
  have hbit : (sight s).sts &&& 1#32 = 0 ↔ s.scope.intEnblReg = false :=
    sts_bit_eq_zero_iff
  rw [move]
  cases henabled : s.scope.intEnblReg with
  | false => rw [if_pos (hbit.mpr henabled)]; rfl
  | true =>
      rw [if_neg fun hzero => Bool.false_ne_true
        ((hbit.mp hzero).symm.trans henabled)]
      rfl

end Rests

/-- The register as another program has left it: the cores are out of reset. -/
def leftCore : CfgRegister.State cfgSize where
  resetS := false
  intBvalidReg := false
  intRvalidReg := false
  intRdataReg := 0
  intDataWire := 1

/-- A scope that waits for its trigger. -/
def leftScope : Oscilloscope.State 23 :=
  { resetState with intCaseReg := .armed, intEnblReg := true }

/-- A storage that has stored a burst, with the beginning of the next. -/
def leftStorage : Storage.State 3 Registers where
  conv := { low := some 7, word := some 3 }
  memory :=
    { writer :=
        { resetShreg := 0
          resetS := false
          fifo := [1, 2]
          intAwvalidReg := false
          intWvalidReg := false
          intAddrReg := 16
          intWidReg := 1 }
      port :=
        { starts := [RamWriter.burstStart addrWidth 3 ram 0]
          beats := 16
          memory := fun _ => 0 } }

/-- The program stops after four values. -/
def wants : Place → Bool
  | .printing _ values => decide (values.length < 4)
  | _ => true

/-- A sample whenever the converter has room, the trigger all the time, and a
memory port that asks for a data beat when it has its address and the FIFO its
word. -/
def promptly (cycle : ℕ) (s : State 3 Registers) : Input where
  turn :=
    match s.bus.master.program with
    | .configuring _ => true
    | .after place => wants place
  aw := true
  w := true
  ar := true
  bready := true
  rready := true
  sample :=
    { valid := s.storage.conv.word.isNone
      data := BitVec.ofNat 32 cycle }
  trgFlag := true
  ports :=
    { aresetn := true
      intEmptyWire := decide (s.storage.memory.writer.fifo.length ≤ 15)
      intFullWire := false
      mAxiAwready := true
      mAxiWready := !s.storage.memory.writer.fifo.isEmpty &&
        decide (s.storage.memory.port.beats <
          16 * s.storage.memory.port.starts.length)
      sAxisTdata := 0
      sAxisTvalid := false }

/-- The board that the program is started on. -/
def leftBoard : Machine (State 3 Registers) Input :=
  system padding leftCore leftScope leftStorage

def promptRun : ℕ → Input := leftBoard.chosen promptly

/-- Nothing is printed before the script ends, no burst is cut, and the run flag
comes before the samples. -/
def Undisturbed (s s' : State 3 Registers) (i : Input) (samples : ℕ) : Prop :=
  loads s = none ∧
    (linesMade s = 1 → 2 ≤ linesMade s' →
      s'.storage.memory.port.beats = 16 * s'.storage.memory.port.starts.length) ∧
    (runTaken s.scope (scopeInput s i) = true → samples = 0)

instance (s s' : State 3 Registers) (i : Input) (samples : ℕ) :
    Decidable (Undisturbed s s' i samples) :=
  inferInstanceAs (Decidable (_ ∧ _ ∧ _))

/-- The acquisition has begun. -/
def Begun (s : State 3 Registers) (samples : ℕ) : Prop :=
  polls s = true ∧ s.scope.intCaseReg = .preTrigger ∧
    s.scope.intEnblReg = true ∧ s.scope.intCntrReg.toNat = samples ∧
      samples ≤ 1023

instance (s : State 3 Registers) (samples : ℕ) : Decidable (Begun s samples) :=
  inferInstanceAs (Decidable (_ ∧ _ ∧ _ ∧ _ ∧ _))

/-- The script ends in cycle 43, and the first words are stored before
cycle 92. -/
theorem begins_prompt :
    (∀ cycle < 43, Undisturbed (leftBoard.chosenState promptly cycle)
      (leftBoard.chosenState promptly (cycle + 1)) (promptRun cycle)
      (leftBoard.chosenLog promptly forwarded cycle).length) ∧
    Begun (leftBoard.chosenState promptly 43)
      (leftBoard.chosenLog promptly forwarded 43).length ∧
    2 ≤ (leftBoard.chosenLog promptly storedBeat 92).length := by
  decide +kernel

section Run

/-- The design in this run. -/
def promptState (cycle : ℕ) : State 3 Registers :=
  stateAt padding leftCore leftScope leftStorage promptRun cycle

def promptSamples (cycle : ℕ) : ℕ :=
  (samples padding leftCore leftScope leftStorage promptRun cycle).length

theorem promptRun_eq (cycle : ℕ) :
    promptRun cycle = promptly cycle (promptState cycle) :=
  Machine.chosen_eq _ _ cycle

theorem promptState_eq (cycle : ℕ) :
    promptState cycle = leftBoard.chosenState promptly cycle :=
  Machine.stateAt_chosen _ _ cycle

theorem promptSamples_eq (cycle : ℕ) :
    promptSamples cycle =
      (leftBoard.chosenLog promptly forwarded cycle).length :=
  congrArg List.length (Machine.log_chosen _ _ _ cycle)

theorem promptState_succ (cycle : ℕ) :
    promptState (cycle + 1) =
      step padding (promptState cycle) (promptRun cycle) := rfl

/-- No sample comes from more than one cycle. -/
theorem promptSamples_le (cycle : ℕ) : promptSamples cycle ≤ cycle := by
  induction cycle with
  | zero => exact le_rfl
  | succ cycle ih =>
      have hone : (forwarded (promptState cycle) (promptRun cycle)).length ≤
          1 := by
        unfold forwarded
        split
        · exact le_rfl
        · exact Nat.zero_le 1
      rw [promptSamples, samples_succ, List.length_append]
      exact Nat.add_le_add ih hone

theorem undisturbed_prompt {cycle : ℕ} (hcycle : cycle < 43) :
    Undisturbed (promptState cycle) (promptState (cycle + 1)) (promptRun cycle)
      (promptSamples cycle) := by
  rw [promptState_eq, promptState_eq, promptSamples_eq]
  exact begins_prompt.1 cycle hcycle

theorem begun_prompt : Begun (promptState 43) (promptSamples 43) := by
  rw [promptState_eq, promptSamples_eq]
  exact begins_prompt.2.1

/-- The first words stay stored. -/
theorem stored_prompt {cycle : ℕ} (hcycle : 92 ≤ cycle) :
    2 ≤ stored padding leftCore leftScope leftStorage promptRun cycle := by
  have hfirst : 2 ≤ stored padding leftCore leftScope leftStorage promptRun 92 :=
    begins_prompt.2.2.trans_eq
      (congrArg List.length (Machine.log_chosen _ _ _ 92)).symm
  exact hfirst.trans (Machine.log_isPrefix storedBeat hcycle).length_le

/-- The port takes a data beat after its address. -/
theorem beats_prompt (cycle : ℕ) :
    (promptState cycle).storage.memory.port.beats ≤
      16 * (promptState cycle).storage.memory.port.starts.length := by
  induction cycle with
  | zero => exact le_rfl
  | succ cycle ih =>
      have hbeats : (promptState (cycle + 1)).storage.memory.port.beats =
          (promptState cycle).storage.memory.port.beats +
            (RamWriter.wHandshake (promptState cycle).storage.memory.writer
              (promptRun cycle).ports).length := rfl
      have hstarts : (promptState cycle).storage.memory.port.starts.length ≤
          (promptState (cycle + 1)).storage.memory.port.starts.length :=
        (List.prefix_append _ _).length_le
      rw [hbeats, RamWriter.length_wHandshake, RamWriter.intRdenWire,
        promptRun_eq]
      cases hready : (promptly cycle (promptState cycle)).ports.mAxiWready with
      | false =>
          rw [Bool.false_and, Bool.toNat_false]
          omega
      | true =>
          obtain ⟨-, hroom⟩ := Bool.and_eq_true_iff.mp hready
          have hlt := of_decide_eq_true hroom
          have hone := Bool.toNat_le
            (true && (promptState cycle).storage.memory.writer.intWvalidReg)
          omega

/-- From cycle 43 on the script is made. -/
theorem rests_prompt (later : ℕ) : ∃ place, Rests (promptState (43 + later)) place := by
  induction later with
  | zero => exact ⟨_, rests_of_polls begun_prompt.1⟩
  | succ later ih =>
      obtain ⟨place, hrests⟩ := ih
      exact ⟨_, hrests.step⟩

theorem Rests.lineCount_eq {cycle : ℕ} {place : Place}
    (hrests : Rests (promptState cycle) place) :
    lineCount padding leftCore leftScope leftStorage promptRun cycle = 10 :=
  lineCount_of_after (congrArg CfgBus.Master.program hrests)

theorem lineCount_prompt (later : ℕ) :
    lineCount padding leftCore leftScope leftStorage promptRun (43 + later) =
      10 := by
  obtain ⟨place, hrests⟩ := rests_prompt later
  exact hrests.lineCount_eq

theorem runFlag_leftCore : (low (cfgWord leftCore)).getLsbD 1 = false := by
  decide +kernel

theorem runFlag_prompt (later : ℕ) :
    (scopeInput (promptState (43 + later)) (promptRun (43 + later))).runFlag =
      false := by
  have hflag := runFlag_eq padding leftScope leftStorage promptRun rfl
    runFlag_leftCore (43 + later)
  rw [lineCount_prompt] at hflag
  exact hflag

/-- The trigger is taken on sample 1024. -/
theorem acquires_prompt (later : ℕ) :
    Prompt (promptSamples (43 + later)) (promptState (43 + later)).scope := by
  induction later with
  | zero =>
      obtain ⟨-, hcase, henabled, hcount, hfew⟩ := begun_prompt
      refine Or.inl ⟨⟨?_, Or.inl hcase, ?_⟩, ?_⟩
      · simp [EnableInv, hcase, henabled]
      · unfold Filling
        rw [hcase]
        exact ⟨hcount, hfew⟩
      · rw [hcase]
        exact fun hother => absurd hother (by decide)
  | succ later ih =>
      have hcount := lineCount_prompt later
      have hscope := scope_succ_of_configured rfl runFlag_leftCore
        (by rw [hcount]; decide)
      have hlength := length_samples_succ (by rw [hcount]; decide)
      have htrigger : (promptRun (43 + later)).trgFlag = true := by
        rw [promptRun_eq]
        rfl
      rw [← Nat.add_assoc, promptSamples, hlength]
      change Prompt _ (stateAt _ _ _ _ _ _).scope
      rw [hscope]
      exact ih.next_inv (runFlag_prompt later) htrigger

/-- A word leaves the converter in the next cycle. -/
theorem word_prompt (later : ℕ)
    (hheld : (promptState (43 + later)).storage.conv.word.isNone = false) :
    (promptState (43 + later + 1)).storage.conv.word.isNone = true := by
  have hhigh : slice1 (promptState (43 + later)).bus.core = true := by
    have hslices := slices_stateAt padding leftScope leftStorage promptRun rfl
      runFlag_leftCore (43 + later)
    rw [lineCount_prompt] at hslices
    exact hslices.reset (by decide)
  have hready : RamWriter.intTreadyWire (promptRun (43 + later)).ports = true := by
    rw [promptRun_eq]
    rfl
  rw [promptState_succ]
  change (resetStep padding _ _).conv.word.isNone = true
  rw [resetStep_high hhigh, Option.isNone_iff_eq_none]
  exact word_of_ready hheld hready

/-- Samples count twice, and a converter that has room once. -/
def headway (cycle : ℕ) : ℕ :=
  2 * promptSamples cycle +
    (promptState cycle).storage.conv.word.isNone.toNat

theorem headway_succ (later : ℕ)
    (henabled : (promptState (43 + later)).scope.intEnblReg = true) :
    headway (43 + later) < headway (43 + (later + 1)) := by
  have hlength : promptSamples (43 + later + 1) = promptSamples (43 + later) +
      (promptState (43 + later)).storage.conv.word.isNone.toNat := by
    have hvalid : mAxisTvalid (promptState (43 + later)).scope
        (scopeInput (promptState (43 + later)) (promptRun (43 + later))) =
          (promptState (43 + later)).storage.conv.word.isNone := by
      rw [mAxisTvalid, henabled, Bool.true_and, promptRun_eq]
      rfl
    have hgrown : promptSamples (43 + later + 1) =
        promptSamples (43 + later) +
          (mAxisTvalid (promptState (43 + later)).scope
            (scopeInput (promptState (43 + later))
              (promptRun (43 + later)))).toNat :=
      length_samples_succ (by rw [lineCount_prompt]; decide)
    rw [← hvalid]
    exact hgrown
  rw [headway, headway, ← Nat.add_assoc, hlength]
  cases hroom : (promptState (43 + later)).storage.conv.word.isNone with
  | false =>
      rw [word_prompt later hroom]
      simp
  | true =>
      rw [Bool.toNat_true]
      omega

theorem ends_prompt :
    ∃ later, (promptState (43 + later)).scope.intEnblReg = false := by
  by_contra hnever
  have hrises : ∀ height < 2097158,
      LeadsTo (fun later => True ∧ headway (43 + later) = height)
        fun later => True ∧ height < headway (43 + later) := by
    intro height _
    apply LeadsTo.of_next
    rintro later ⟨-, rfl⟩
    refine ⟨trivial, headway_succ later ?_⟩
    rw [← Bool.not_eq_false]
    exact fun hdown => hnever ⟨later, hdown⟩
  obtain ⟨later, -, -, hgoal⟩ := LeadsTo.climbs hrises 0 trivial
  have hle := (acquires_prompt later).le
  have hroom := Bool.toNat_le
    (promptState (43 + later)).storage.conv.word.isNone
  rw [headway] at hgoal
  omega

theorem Rests.turn {cycle : ℕ} {place : Place}
    (hrests : Rests (promptState cycle) place) :
    (promptRun cycle).turn = wants place := by
  rw [promptRun_eq]
  change (match (promptState cycle).bus.master.program with
    | .configuring _ => true
    | .after place => wants place) = _
  rw [hrests]

theorem Rests.next {cycle : ℕ} {place : Place}
    (hrests : Rests (promptState cycle) place) (hwants : wants place = true) :
    Rests (promptState (cycle + 1))
      (move place (sight (promptState cycle))) := by
  have hstep : Rests (promptState (cycle + 1))
      (if (promptRun cycle).turn then
        move place (sight (promptState cycle)) else place) :=
    hrests.step
  rw [hrests.turn, hwants] at hstep
  exact hstep

/-- The program polls until the acquisition ends. -/
theorem polls_prompt {later : ℕ} (hbusy : ∀ before < later,
      (promptState (43 + before)).scope.intEnblReg = true) :
    Rests (promptState (43 + later)) .polling := by
  induction later with
  | zero => exact rests_of_polls begun_prompt.1
  | succ later ih =>
      have hpolls := ih fun before hbefore =>
        hbusy before (Nat.lt_succ_of_lt hbefore)
      have hnext := hpolls.next rfl
      rw [move_polling, hbusy later (Nat.lt_succ_self later)] at hnext
      exact hnext

/-- Then it prints. -/
theorem prints_prompt : ∃ horizon values,
    printed (promptState horizon) = some values ∧ values.length = 4 := by
  obtain ⟨last, hended, hfirst⟩ :
      ∃ last, (promptState (43 + last)).scope.intEnblReg = false ∧
        ∀ before < last, (promptState (43 + before)).scope.intEnblReg = true :=
    ⟨Nat.find ends_prompt, Nat.find_spec ends_prompt, fun before hbefore =>
      Bool.not_eq_false _ ▸ Nat.find_min ends_prompt hbefore⟩
  have hstopped := (polls_prompt hfirst).next rfl
  rw [move_polling, hended] at hstopped
  have hprinting : ∀ count ≤ 4, ∃ start values, values.length = count ∧
      Rests (promptState (43 + last + 2 + count)) (.printing start values) := by
    intro count hcount
    induction count with
    | zero => exact ⟨_, [], rfl, Rests.next hstopped rfl⟩
    | succ count ih =>
        obtain ⟨start, values, rfl, hrests⟩ := ih (Nat.le_of_succ_le hcount)
        have hmore : values.length < total :=
          (Nat.lt_of_succ_le hcount).trans (by decide)
        have hnext := hrests.next (decide_eq_true hcount)
        rw [move, if_pos hmore] at hnext
        exact ⟨start, _, List.length_append, hnext⟩
  obtain ⟨start, values, hlength, hrests⟩ := hprinting 4 le_rfl
  refine ⟨43 + last + 2 + 4, values, ?_, hlength⟩
  unfold printed
  rw [hrests]
  rfl

/-- The words of the values that are printed have been stored. -/
theorem drained_prompt {cycle : ℕ}
    (hattended : Attended padding leftCore leftScope leftStorage promptRun cycle)
    (hturn : (promptRun cycle).turn = true) :
    ∀ place ∈ loads (promptState cycle), ∀ k < promptSamples cycle,
      k % 2 ^ 23 = place →
        k / 2 < stored padding leftCore leftScope leftStorage promptRun
          cycle := by
  intro place hloads k hk hplace
  by_cases hearly : cycle < 43
  · rw [(undisturbed_prompt hearly).1] at hloads
    cases hloads
  · obtain ⟨later, rfl⟩ := Nat.exists_eq_add_of_le (not_lt.mp hearly)
    obtain ⟨here, hrests⟩ := rests_prompt later
    cases here with
    | printing start values =>
        obtain ⟨trigger, hprints, hstart⟩ := follows_stateAt rfl runFlag_leftCore
          realizes_padding ⟨rfl, rfl⟩ rfl hattended _ le_rfl _
          (congrArg CfgBus.Master.program hrests)
        have hended : promptSamples (43 + later) = 1048578 :=
          (acquires_prompt later).ended hprints.ended.disabled
        have hwindow : promptSamples (43 + later) =
            first padding leftCore leftScope leftStorage promptRun trigger +
              1048575 + 3 :=
          hprints.ended.records.ended hprints.ended.disabled
        rw [hrests.turn] at hturn
        have hfew : values.length < 4 := of_decide_eq_true hturn
        have hlate := promptSamples_le (43 + later)
        have hstored := stored_prompt (le_trans (by decide) (hended ▸ hlate))
        have hhere : place = (start.toNat + values.length) % 2 ^ 23 := by
          unfold loads at hloads
          rw [hrests] at hloads
          dsimp only at hloads
          split at hloads
          case isTrue => exact (Option.some.inj hloads).symm
          case isFalse => cases hloads
        have hzero : first padding leftCore leftScope leftStorage promptRun
            trigger = 0 := by
          omega
        rw [hzero] at hstart
        omega
    | _ =>
        unfold loads at hloads
        rw [hrests] at hloads
        cases hloads

theorem attended_of_drained {horizon : ℕ}
    (hdrained : ∀ cycle < horizon, (promptRun cycle).turn = true →
      ∀ place ∈ loads (promptState cycle), ∀ k < promptSamples cycle,
        k % 2 ^ 23 = place →
          k / 2 < stored padding leftCore leftScope leftStorage promptRun
            cycle) :
    Attended padding leftCore leftScope leftStorage promptRun horizon where
  whole := by
    intro cycle _ hone htwo
    by_cases hearly : cycle < 43
    · exact (undisturbed_prompt hearly).2.1 hone htwo
    · obtain ⟨later, rfl⟩ := Nat.exists_eq_add_of_le (not_lt.mp hearly)
      rw [lineCount_prompt] at hone
      exact absurd hone (by decide)
  fifo := by
    intro cycle _ _ hread
    obtain ⟨hready, -⟩ := Bool.and_eq_true_iff.mp hread
    rw [promptRun_eq] at hready
    obtain ⟨hword, -⟩ := Bool.and_eq_true_iff.mp hready
    intro hnone
    change (!(promptState cycle).storage.memory.writer.fifo.isEmpty) = true
      at hword
    change (promptState cycle).storage.memory.writer.fifo = [] at hnone
    rw [hnone] at hword
    cases hword
  address := fun cycle _ _ => beats_prompt cycle
  keepsUp := by
    intro cycle _ hforwarded
    unfold forwarded at hforwarded
    split at hforwarded
    case isFalse => exact absurd rfl hforwarded
    case isTrue hboth =>
      obtain ⟨-, hvalid⟩ := Bool.and_eq_true_iff.mp hboth.2
      rw [promptRun_eq] at hvalid
      exact hvalid
  once := by
    intro cycle _ hrun
    by_cases hearly : cycle < 43
    · exact List.length_eq_zero_iff.mp ((undisturbed_prompt hearly).2.2 hrun)
    · obtain ⟨later, rfl⟩ := Nat.exists_eq_add_of_le (not_lt.mp hearly)
      obtain ⟨-, hflag⟩ := Bool.and_eq_true_iff.mp hrun
      exact absurd (hflag.symm.trans (runFlag_prompt later)) (by decide)
  drained := hdrained

theorem attended_prompt (horizon : ℕ) :
    Attended padding leftCore leftScope leftStorage promptRun horizon := by
  apply attended_of_drained
  induction horizon with
  | zero => exact fun _ hcycle => absurd hcycle (Nat.not_lt_zero _)
  | succ horizon ih =>
      intro cycle hcycle hturn
      obtain hbefore | rfl := Nat.lt_succ_iff_lt_or_eq.mp hcycle
      · exact ih cycle hbefore hturn
      · exact drained_prompt (attended_of_drained ih) hturn

end Run

/-- A whole acquisition on a board that another program has left, and the first
four values of its window. -/
theorem scope_prints_promptRun : ∃ horizon,
    Scoped padding leftCore leftScope leftStorage promptRun horizon ∧
      ∃ values, printed (stateAt padding leftCore leftScope leftStorage promptRun
        horizon) = some values ∧ values.length = 4 := by
  obtain ⟨horizon, hprints⟩ := prints_prompt
  exact ⟨horizon, scope_prints padding (fun word => word.setWidth 64) ShowsPair
    realizes_padding ⟨rfl, rfl⟩ leftCore rfl runFlag_leftCore leftScope leftStorage
    rfl promptRun horizon (attended_prompt horizon) horizon le_rfl, hprints⟩

end Rfsoc.Scope
