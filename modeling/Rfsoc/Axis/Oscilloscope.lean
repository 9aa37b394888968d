import Rfsoc.Core.Bits
import Rfsoc.Core.Signals
import Mathlib.Data.BitVec

/-!
# The oscilloscope

`axis_oscilloscope` forwards its stream from a run flag on: at least
`pre_data + 1` beats before it looks at the trigger, then any number until the
trigger, then as many as make up a window of `tot_data + 1` beats that starts at
a multiple of 64.  One counter serves all three phases; on the trigger it is
reloaded with `pre_data` and the low six bits of the trigger's beat number, and
the host rounds the reported number down in the same way.

`pre_data` and `tot_data` are constant along a run.
-/

namespace Rfsoc.Oscilloscope

open Rfsoc.Bits
open Rfsoc.Clocked
open Rfsoc.Signals

variable {cntrWidth : ℕ} {Data : Type*}

/-- `int_case_reg`, in the order of its codes. -/
inductive Case where
  | idle
  | preTrigger
  | armed
  | postTrigger
  deriving DecidableEq

structure State (cntrWidth : ℕ) where
  intAddrReg : BitVec cntrWidth
  intCntrReg : BitVec cntrWidth
  intCaseReg : Case
  intEnblReg : Bool

structure Input (Data : Type*) where
  aresetn : Bool
  runFlag : Bool
  trgFlag : Bool
  sAxisTdata : Data
  sAxisTvalid : Bool

/-- The next-state process. -/
def next (preData totData : BitVec cntrWidth) (s : State cntrWidth)
    (i : Input Data) : State cntrWidth :=
  match s.intCaseReg with
  | .idle =>
      if i.runFlag then
        { intAddrReg := 0
          intCntrReg := 0
          intEnblReg := true
          intCaseReg := .preTrigger }
      else s
  | .preTrigger =>
      if i.sAxisTvalid then
        { s with
          intCntrReg := s.intCntrReg + 1
          intCaseReg := if s.intCntrReg = preData then .armed else .preTrigger }
      else s
  | .armed =>
      if i.sAxisTvalid then
        if i.trgFlag then
          { s with
            intAddrReg := s.intCntrReg
            intCntrReg :=
              preData + (s.intCntrReg.extractLsb' 0 6).setWidth cntrWidth
            intCaseReg := .postTrigger }
        else { s with intCntrReg := s.intCntrReg + 1 }
      else s
  | .postTrigger =>
      if i.sAxisTvalid then
        if s.intCntrReg < totData then
          { s with intCntrReg := s.intCntrReg + 1 }
        else { s with intEnblReg := false, intCaseReg := .idle }
      else s

def resetState : State cntrWidth where
  intAddrReg := 0
  intCntrReg := 0
  intCaseReg := .idle
  intEnblReg := false

def step (preData totData : BitVec cntrWidth) (s : State cntrWidth)
    (i : Input Data) : State cntrWidth :=
  if i.aresetn then next preData totData s i else resetState

def core (preData totData : BitVec cntrWidth) :
    Machine (State cntrWidth) (Input Data) :=
  ⟨resetState, step preData totData⟩

def stsData (s : State cntrWidth) : BitVec (cntrWidth + 1) :=
  s.intAddrReg ++ BitVec.ofBool s.intEnblReg

def sAxisTready : Bool := true

def mAxisTdata (i : Input Data) : Data := i.sAxisTdata

def mAxisTvalid (s : State cntrWidth) (i : Input Data) : Bool :=
  s.intEnblReg && i.sAxisTvalid

/-- The run flag is taken. -/
def runTaken (s : State cntrWidth) (i : Input Data) : Bool :=
  s.intCaseReg = .idle && i.runFlag

/-- The trigger is taken. -/
def triggerTaken (s : State cntrWidth) (i : Input Data) : Bool :=
  s.intCaseReg = .armed && i.sAxisTvalid && i.trgFlag

section Cycle

variable {preData totData : BitVec cntrWidth} {s : State cntrWidth}
  {i : Input Data}

/-- Without a beat only the run flag moves anything. -/
theorem next_of_no_beat (hcase : s.intCaseReg ≠ .idle)
    (hvalid : i.sAxisTvalid = false) : next preData totData s i = s := by
  unfold next
  cases hphase : s.intCaseReg with
  | idle => exact absurd hphase hcase
  | preTrigger => simp [hvalid]
  | armed => simp [hvalid]
  | postTrigger => simp [hvalid]

theorem next_idle (hcase : s.intCaseReg = .idle) (hflag : i.runFlag = false) :
    next preData totData s i = s := by
  simp [next, hcase, hflag]

theorem next_run (hcase : s.intCaseReg = .idle) (hflag : i.runFlag = true) :
    next preData totData s i =
      { intAddrReg := 0
        intCntrReg := 0
        intEnblReg := true
        intCaseReg := .preTrigger } := by
  simp [next, hcase, hflag]

theorem next_preTrigger (hcase : s.intCaseReg = .preTrigger)
    (hvalid : i.sAxisTvalid = true) :
    next preData totData s i =
      { s with
        intCntrReg := s.intCntrReg + 1
        intCaseReg :=
          if s.intCntrReg = preData then .armed else .preTrigger } := by
  simp only [next, hcase, hvalid, if_true]

theorem next_armed (hcase : s.intCaseReg = .armed)
    (hvalid : i.sAxisTvalid = true) (hflag : i.trgFlag = false) :
    next preData totData s i = { s with intCntrReg := s.intCntrReg + 1 } := by
  simp only [next, hcase, hvalid, hflag, if_true, Bool.false_eq_true, if_false]

theorem next_trigger (hcase : s.intCaseReg = .armed)
    (hvalid : i.sAxisTvalid = true) (hflag : i.trgFlag = true) :
    next preData totData s i =
      { s with
        intAddrReg := s.intCntrReg
        intCntrReg :=
          preData + (s.intCntrReg.extractLsb' 0 6).setWidth cntrWidth
        intCaseReg := .postTrigger } := by
  simp only [next, hcase, hvalid, hflag, if_true]

theorem next_postTrigger (hcase : s.intCaseReg = .postTrigger)
    (hvalid : i.sAxisTvalid = true) (hmore : s.intCntrReg < totData) :
    next preData totData s i = { s with intCntrReg := s.intCntrReg + 1 } := by
  simp only [next, hcase, hvalid, hmore, if_true]

theorem next_last (hcase : s.intCaseReg = .postTrigger)
    (hvalid : i.sAxisTvalid = true) (hmore : ¬ s.intCntrReg < totData) :
    next preData totData s i =
      { s with intEnblReg := false, intCaseReg := .idle } := by
  simp only [next, hcase, hvalid, hmore, if_true, if_false]

/-- The enable bit says that the core is not idle. -/
def EnableInv (s : State cntrWidth) : Prop :=
  s.intEnblReg = true ↔ s.intCaseReg ≠ .idle

/-- A busy core passes its beats on. -/
theorem EnableInv.mAxisTvalid_eq (henable : EnableInv s)
    (hbusy : s.intCaseReg ≠ .idle) : mAxisTvalid s i = i.sAxisTvalid := by
  rw [mAxisTvalid, henable.mpr hbusy, Bool.true_and]

theorem EnableInv.next_inv (henable : EnableInv s) :
    EnableInv (next preData totData s i) := by
  unfold EnableInv at henable ⊢
  cases hcase : s.intCaseReg with
  | idle =>
      cases hflag : i.runFlag with
      | false => rw [next_idle hcase hflag]; exact henable
      | true => simp [next_run hcase hflag]
  | preTrigger =>
      cases hvalid : i.sAxisTvalid with
      | false => rw [next_of_no_beat (by simp [hcase]) hvalid]; exact henable
      | true =>
          rw [next_preTrigger hcase hvalid]
          by_cases hfull : s.intCntrReg = preData <;> simp [henable, hcase, hfull]
  | armed =>
      cases hvalid : i.sAxisTvalid with
      | false => rw [next_of_no_beat (by simp [hcase]) hvalid]; exact henable
      | true =>
          cases hflag : i.trgFlag with
          | false => rw [next_armed hcase hvalid hflag]; exact henable
          | true => simp [next_trigger hcase hvalid hflag, henable, hcase]
  | postTrigger =>
      cases hvalid : i.sAxisTvalid with
      | false => rw [next_of_no_beat (by simp [hcase]) hvalid]; exact henable
      | true =>
          by_cases hmore : s.intCntrReg < totData
          · rw [next_postTrigger hcase hvalid hmore]; exact henable
          · simp [next_last hcase hvalid hmore]

/-- The counter `beats` beats into an acquisition whose trigger has not been
taken: it counts them, and the core is armed once `preData + 1` have come. -/
def Filling (preData : BitVec cntrWidth) (beats : ℕ) (s : State cntrWidth) :
    Prop :=
  match s.intCaseReg with
  | .preTrigger => s.intCntrReg.toNat = beats ∧ beats ≤ preData.toNat
  | .armed =>
      s.intCntrReg.toNat = beats % 2 ^ cntrWidth ∧ preData.toNat + 1 ≤ beats
  | _ => True

theorem filling_run (hcase : s.intCaseReg = .idle) (hflag : i.runFlag = true) :
    Filling preData 0 (next preData totData s i) := by
  rw [next_run hcase hflag]
  exact ⟨by simp, Nat.zero_le _⟩

theorem Filling.next_inv {beats : ℕ} (hfilling : Filling preData beats s)
    (henable : EnableInv s) (hbusy : s.intCaseReg ≠ .idle) :
    Filling preData (beats + (mAxisTvalid s i).toNat)
      (next preData totData s i) := by
  rw [henable.mAxisTvalid_eq hbusy]
  cases hvalid : i.sAxisTvalid with
  | false =>
      rw [next_of_no_beat hbusy hvalid]
      exact hfilling
  | true =>
      rw [Bool.toNat_true]
      unfold Filling at hfilling
      cases hcase : s.intCaseReg with
      | idle => exact absurd hcase hbusy
      | preTrigger =>
          rw [hcase] at hfilling
          obtain ⟨hcntr, hle⟩ := hfilling
          have hmod : s.intCntrReg.toNat = beats % 2 ^ cntrWidth := by
            rw [hcntr, Nat.mod_eq_of_lt (hle.trans_lt preData.isLt)]
          rw [next_preTrigger hcase hvalid]
          by_cases hfull : s.intCntrReg = preData
          · simp only [Filling, hfull, if_true]
            rw [← hfull, ← hcntr]
            refine ⟨?_, le_rfl⟩
            rw [toNat_add_one hmod, hcntr]
          · have hlt : beats < preData.toNat := by
              refine lt_of_le_of_ne hle fun heq => hfull ?_
              apply BitVec.eq_of_toNat_eq
              rw [hcntr, heq]
            simp only [Filling, hfull, if_false]
            refine ⟨?_, hlt⟩
            rw [toNat_add_one hmod, Nat.mod_eq_of_lt]
            have := preData.isLt
            omega
      | armed =>
          rw [hcase] at hfilling
          obtain ⟨hcntr, hle⟩ := hfilling
          cases hflag : i.trgFlag with
          | false =>
              rw [next_armed hcase hvalid hflag]
              simp only [Filling, hcase]
              exact ⟨toNat_add_one hcntr, by omega⟩
          | true =>
              rw [next_trigger hcase hvalid hflag]
              trivial
      | postTrigger =>
          by_cases hmore : s.intCntrReg < totData
          · rw [next_postTrigger hcase hvalid hmore]
            simp only [Filling, hcase]
          · rw [next_last hcase hvalid hmore]
            trivial

/-- The first beat of the window that a trigger on beat `trigger` asks for. -/
def windowStart (preData : BitVec cntrWidth) (trigger : ℕ) : ℕ :=
  trigger - trigger % 64 - (preData.toNat + 1)

/-- The beats of the whole acquisition. -/
def windowEnd (preData totData : BitVec cntrWidth) (trigger : ℕ) : ℕ :=
  windowStart preData trigger + totData.toNat + 3

/-- The core `beats` beats into an acquisition whose trigger was beat
`trigger`: it has the number of that beat, and counts up to `tot_data`. -/
def Recording (preData totData : BitVec cntrWidth) (trigger beats : ℕ)
    (s : State cntrWidth) : Prop :=
  s.intAddrReg.toNat = trigger % 2 ^ cntrWidth ∧
    match s.intCaseReg with
    | .postTrigger =>
        trigger + 1 ≤ beats ∧
          s.intCntrReg.toNat =
            preData.toNat + trigger % 64 + (beats - (trigger + 1)) ∧
          s.intCntrReg.toNat ≤ totData.toNat
    | .idle => beats = windowEnd preData totData trigger
    | _ => False

/-- The reload on the trigger: `pre_data` and the low six bits. -/
theorem toNat_reload (hwidth : 6 ≤ cntrWidth)
    (hfits : preData.toNat + 63 ≤ totData.toNat) {cntr : BitVec cntrWidth}
    {trigger : ℕ} (hcntr : cntr.toNat = trigger % 2 ^ cntrWidth) :
    (preData + (cntr.extractLsb' 0 6).setWidth cntrWidth).toNat =
      preData.toNat + trigger % 64 := by
  have hdvd : 2 ^ 6 ∣ 2 ^ cntrWidth := pow_dvd_pow 2 hwidth
  have hlow : (cntr.extractLsb' 0 6).toNat = trigger % 64 := by
    rw [BitVec.extractLsb'_toNat, hcntr, Nat.shiftRight_zero,
      Nat.mod_mod_of_dvd _ hdvd]
    rfl
  have hsmall : trigger % 64 < 64 := Nat.mod_lt _ (by decide)
  have htot := totData.isLt
  rw [BitVec.toNat_add, BitVec.toNat_setWidth, hlow,
    Nat.mod_eq_of_lt (show trigger % 64 < 2 ^ cntrWidth by omega),
    Nat.mod_eq_of_lt (by omega)]

theorem recording_trigger (hwidth : 6 ≤ cntrWidth)
    (hfits : preData.toNat + 63 ≤ totData.toNat) {trigger : ℕ}
    (hfilling : Filling preData trigger s)
    (htaken : triggerTaken s i = true) :
    Recording preData totData trigger (trigger + 1)
      (next preData totData s i) := by
  simp only [triggerTaken, Bool.and_eq_true, decide_eq_true_eq] at htaken
  obtain ⟨⟨hcase, hvalid⟩, hflag⟩ := htaken
  unfold Filling at hfilling
  rw [hcase] at hfilling
  have hreload := toNat_reload hwidth hfits hfilling.1
  have hsmall : trigger % 64 < 64 := Nat.mod_lt _ (by decide)
  rw [next_trigger hcase hvalid hflag]
  refine ⟨hfilling.1, le_rfl, ?_, ?_⟩
  · rw [hreload, Nat.sub_self, Nat.add_zero]
  · change (preData + _).toNat ≤ _
    rw [hreload]
    omega

theorem Recording.next_inv {trigger beats : ℕ}
    (hrecording : Recording preData totData trigger beats s)
    (hstart : preData.toNat + 1 ≤ trigger - trigger % 64)
    (henable : EnableInv s) (hrun : runTaken s i = false) :
    Recording preData totData trigger (beats + (mAxisTvalid s i).toNat)
      (next preData totData s i) := by
  obtain ⟨haddr, hphase⟩ := hrecording
  cases hcase : s.intCaseReg with
  | preTrigger => simp [hcase] at hphase
  | armed => simp [hcase] at hphase
  | idle =>
      have hflag : i.runFlag = false := by
        simpa [runTaken, hcase] using hrun
      have hdisabled : s.intEnblReg = false := by
        rw [← Bool.not_eq_true]
        exact fun hset => henable.mp hset hcase
      rw [next_idle hcase hflag, mAxisTvalid, hdisabled, Bool.false_and,
        Bool.toNat_false, Nat.add_zero]
      exact ⟨haddr, hphase⟩
  | postTrigger =>
      have hbusy : s.intCaseReg ≠ .idle := by simp [hcase]
      rw [henable.mAxisTvalid_eq hbusy]
      cases hvalid : i.sAxisTvalid with
      | false =>
          rw [next_of_no_beat hbusy hvalid]
          exact ⟨haddr, hphase⟩
      | true =>
          rw [hcase] at hphase
          obtain ⟨hafter, hcntr, hle⟩ := hphase
          rw [Bool.toNat_true]
          by_cases hmore : s.intCntrReg < totData
          · have hlt : s.intCntrReg.toNat < totData.toNat := hmore
            have htot := totData.isLt
            have hnext : (s.intCntrReg + 1).toNat = s.intCntrReg.toNat + 1 := by
              rw [toNat_add_one (Nat.mod_eq_of_lt s.intCntrReg.isLt).symm,
                Nat.mod_eq_of_lt (by omega)]
            rw [next_postTrigger hcase hvalid hmore]
            refine ⟨haddr, ?_⟩
            simp only [hcase, hnext]
            omega
          · have hend : s.intCntrReg.toNat = totData.toNat :=
              le_antisymm hle (not_lt.mp hmore)
            rw [next_last hcase hvalid hmore]
            refine ⟨haddr, ?_⟩
            simp only [windowEnd, windowStart]
            omega

end Cycle

section Run

variable (preData totData : BitVec cntrWidth) (input : ℕ → Input Data)

def stateAt (cycle : ℕ) : State cntrWidth :=
  (core preData totData).stateAt input cycle

/-- A beat is forwarded. -/
def forwarded (cycle : ℕ) : Bool :=
  mAxisTvalid (stateAt preData totData input cycle) (input cycle)

def RunTaken (cycle : ℕ) : Prop :=
  runTaken (stateAt preData totData input cycle) (input cycle) = true

def TriggerTaken (cycle : ℕ) : Prop :=
  triggerTaken (stateAt preData totData input cycle) (input cycle) = true

/-- The beats forwarded since the run flag was taken: the number of the beat of
a cycle. -/
def beatNumber (run cycle : ℕ) : ℕ :=
  highCycles (forwarded preData totData input) cycle -
    highCycles (forwarded preData totData input) run

/-- The enable bit has stayed up since the run flag was taken. -/
def InAcquisition (run cycle : ℕ) : Prop :=
  run < cycle ∧ ∀ between, run < between → between ≤ cycle →
    (stateAt preData totData input between).intEnblReg = true

/-- What becomes of an acquisition whose trigger is taken in a cycle. -/
structure Window (run trigger horizon : ℕ) : Prop where
  /-- The trigger comes after `pre_data + 1` beats. -/
  filled : preData.toNat + 1 ≤ beatNumber preData totData input run trigger
  /-- The window starts on a beat that was forwarded. -/
  start : windowStart preData (beatNumber preData totData input run trigger) +
      (preData.toNat + 1) =
    beatNumber preData totData input run trigger -
      beatNumber preData totData input run trigger % 64
  /-- The status reports the number of the trigger's beat until a new run. -/
  status : ∀ cycle ≤ horizon, trigger < cycle →
    (∀ between, trigger < between → between < cycle →
      ¬ RunTaken preData totData input between) →
    (stsData (stateAt preData totData input cycle)).toNat / 2 =
      beatNumber preData totData input run trigger % 2 ^ cntrWidth
  /-- The enable bit falls when beat `windowStart + tot_data + 2` has been
  forwarded, the last one until a new run. -/
  extent : ∀ cycle ≤ horizon, trigger < cycle →
    (∀ between, trigger < between → between < cycle →
      ¬ RunTaken preData totData input between) →
    beatNumber preData totData input run cycle ≤
        windowStart preData (beatNumber preData totData input run trigger) +
          totData.toNat + 3 ∧
      ((stateAt preData totData input cycle).intEnblReg = true ↔
        beatNumber preData totData input run cycle <
          windowStart preData (beatNumber preData totData input run trigger) +
            totData.toNat + 3)

variable {preData totData input} {horizon : ℕ}

theorem stateAt_succ (hrun : ∀ cycle < horizon, (input cycle).aresetn = true)
    {cycle : ℕ} (hcycle : cycle < horizon) :
    stateAt preData totData input (cycle + 1) =
      next preData totData (stateAt preData totData input cycle)
        (input cycle) := by
  rw [stateAt, Machine.stateAt_succ]
  simp only [core, step, hrun cycle hcycle, if_true]
  rfl

variable (preData totData) in
theorem enableInv_stateAt
    (hrun : ∀ cycle < horizon, (input cycle).aresetn = true) :
    ∀ cycle ≤ horizon, EnableInv (stateAt preData totData input cycle) := by
  refine upTo_induction horizon ?_ ?_
  · simp [EnableInv, stateAt, core, resetState]
  · intro cycle hcycle ih
    rw [stateAt_succ hrun hcycle]
    exact ih.next_inv

theorem beatNumber_succ {run cycle : ℕ} (hle : run ≤ cycle) :
    beatNumber preData totData input run (cycle + 1) =
      beatNumber preData totData input run cycle +
        (forwarded preData totData input cycle).toNat := by
  have hmono : highCycles (forwarded preData totData input) run ≤
      highCycles (forwarded preData totData input) cycle :=
    highCycles_mono hle
  rw [beatNumber, beatNumber, highCycles_succ]
  omega

/-- No beat is forwarded in the cycle in which the run flag is taken. -/
theorem beatNumber_run (hrun : ∀ cycle < horizon, (input cycle).aresetn = true)
    {run : ℕ} (hle : run ≤ horizon)
    (htaken : RunTaken preData totData input run) :
    beatNumber preData totData input run (run + 1) = 0 := by
  simp only [RunTaken, runTaken, Bool.and_eq_true, decide_eq_true_eq] at htaken
  have henable := enableInv_stateAt preData totData hrun run hle
  have hdisabled : (stateAt preData totData input run).intEnblReg = false := by
    rw [← Bool.not_eq_true]
    exact fun hset => henable.mp hset htaken.1
  rw [beatNumber_succ le_rfl, forwarded, mAxisTvalid, hdisabled, beatNumber,
    Nat.sub_self]
  rfl

/-- Up to its trigger an acquisition counts its beats. -/
theorem filling_stateAt (hrun : ∀ cycle < horizon, (input cycle).aresetn = true)
    {run : ℕ} (htaken : RunTaken preData totData input run) :
    ∀ cycle, run + 1 ≤ cycle → cycle ≤ horizon →
      InAcquisition preData totData input run cycle →
      Filling preData (beatNumber preData totData input run cycle)
        (stateAt preData totData input cycle) := by
  intro cycle hlate
  induction cycle, hlate using Nat.le_induction with
  | base =>
      intro hle _
      rw [beatNumber_run hrun (by omega) htaken, stateAt_succ hrun hle]
      simp only [RunTaken, runTaken, Bool.and_eq_true, decide_eq_true_eq]
        at htaken
      exact filling_run htaken.1 htaken.2
  | succ cycle hlate ih =>
      intro hle hin
      have hbefore : InAcquisition preData totData input run cycle :=
        ⟨hlate, fun between hlow hhigh => hin.2 between hlow (by omega)⟩
      have henable := enableInv_stateAt preData totData hrun cycle (by omega)
      have hbusy := henable.mp (hbefore.2 cycle hlate le_rfl)
      rw [beatNumber_succ (by omega), stateAt_succ hrun hle]
      exact (ih (by omega) hbefore).next_inv henable hbusy

/-- From its trigger until a new run an acquisition reports the trigger's beat
and counts up to the end of the window. -/
theorem recording_stateAt
    (hrun : ∀ cycle < horizon, (input cycle).aresetn = true)
    (hwidth : 6 ≤ cntrWidth) (hfits : preData.toNat + 63 ≤ totData.toNat)
    {run trigger : ℕ} (hlt : run < trigger)
    (hfilling : Filling preData (beatNumber preData totData input run trigger)
      (stateAt preData totData input trigger))
    (hstart : preData.toNat + 1 ≤
      beatNumber preData totData input run trigger -
        beatNumber preData totData input run trigger % 64)
    (htrigger : TriggerTaken preData totData input trigger) :
    ∀ cycle, trigger + 1 ≤ cycle → cycle ≤ horizon →
      (∀ between, trigger < between → between < cycle →
        ¬ RunTaken preData totData input between) →
      Recording preData totData (beatNumber preData totData input run trigger)
        (beatNumber preData totData input run cycle)
        (stateAt preData totData input cycle) := by
  intro cycle hlate
  induction cycle, hlate using Nat.le_induction with
  | base =>
      intro hle _
      have henable := enableInv_stateAt preData totData hrun trigger (by omega)
      have hbeat : forwarded preData totData input trigger = true := by
        simp only [TriggerTaken, triggerTaken, Bool.and_eq_true,
          decide_eq_true_eq] at htrigger
        rw [forwarded, mAxisTvalid, htrigger.1.2, Bool.and_true]
        exact henable.mpr (by simp [htrigger.1.1])
      rw [beatNumber_succ hlt.le, hbeat, stateAt_succ hrun hle]
      exact recording_trigger hwidth hfits hfilling htrigger
  | succ cycle hlate ih =>
      intro hle hnone
      have henable := enableInv_stateAt preData totData hrun cycle (by omega)
      have hquiet : runTaken (stateAt preData totData input cycle)
          (input cycle) = false := by
        rw [← Bool.not_eq_true]
        exact hnone cycle hlate (Nat.lt_succ_self cycle)
      rw [beatNumber_succ (by omega), stateAt_succ hrun hle]
      exact (ih (by omega) fun between hlow hhigh =>
        hnone between hlow (by omega)).next_inv hstart henable hquiet

end Run

/-- While it records, the core has not reached the end of the window. -/
theorem Recording.extent {preData totData : BitVec cntrWidth}
    {s : State cntrWidth} {trigger beats : ℕ}
    (hrecording : Recording preData totData trigger beats s)
    (henable : EnableInv s) :
    beats ≤ windowEnd preData totData trigger ∧
      (s.intEnblReg = true ↔ beats < windowEnd preData totData trigger) := by
  obtain ⟨-, hphase⟩ := hrecording
  unfold EnableInv at henable
  rw [henable]
  cases hcase : s.intCaseReg with
  | preTrigger => simp [hcase] at hphase
  | armed => simp [hcase] at hphase
  | idle =>
      rw [hcase] at hphase
      simp [hphase]
  | postTrigger =>
      rw [hcase] at hphase
      obtain ⟨hafter, hcntr, hle⟩ := hphase
      simp only [windowEnd, windowStart, ne_eq, reduceCtorEq, not_false_eq_true,
        true_iff]
      omega

theorem toNat_stsData (s : State cntrWidth) :
    (stsData s).toNat / 2 = s.intAddrReg.toNat := by
  rw [stsData, toNat_append_eq]
  cases s.intEnblReg with
  | false => simp
  | true =>
      simp
      omega

/-! ## The host's side -/

/-- `start` of `adc-recorder-trigger.c`, from the status word. -/
def hostStart (sts : BitVec 32) : BitVec 32 :=
  ((sts >>> 1) - 1024#32) &&& 0x007FFFC0#32

/-- The mask keeps 17 bits above the low six. -/
theorem toNat_and_mask (value : BitVec 32) :
    (value &&& 0x007FFFC0#32).toNat = value.toNat / 64 % 2 ^ 17 * 64 := by
  have hslice : value &&& 0x007FFFC0#32 =
      (value.extractLsb' 6 17 ++ 0#6).setWidth 32 := by
    have hmask : ∀ bit < 32, (0x007FFFC0#32).getLsbD bit =
        (decide (6 ≤ bit) && decide (bit < 23)) := by
      decide
    apply BitVec.eq_of_getLsbD_eq
    intro bit hbit
    rw [BitVec.getLsbD_and, hmask bit hbit, BitVec.getLsbD_setWidth,
      BitVec.getLsbD_append, BitVec.getLsbD_extractLsb']
    by_cases hlow : bit < 6
    · simp [hlow]
    · have hplace : 6 + (bit - 6) = bit := by omega
      have hrange : decide (bit - 6 < 17) = decide (bit < 23) := by
        rw [decide_eq_decide]
        omega
      have hhigh : 6 ≤ bit := by omega
      rw [hplace, hrange]
      simp [hlow, hbit, hhigh, Bool.and_comm]
  rw [hslice, BitVec.toNat_setWidth, toNat_append_eq, BitVec.extractLsb'_toNat,
    Nat.shiftRight_eq_div_pow]
  simp
  omega

/-- The host rounds the reported beat number down to the start of the
window. -/
theorem toNat_hostStart {s : State 23} {trigger : ℕ} (hafter : 1024 ≤ trigger)
    (haddr : s.intAddrReg.toNat = trigger % 2 ^ 23) :
    (hostStart ((stsData s).setWidth 32)).toNat =
      windowStart 1023#23 trigger % 2 ^ 23 := by
  have hsts := toNat_stsData s
  have hlt := (stsData s).isLt
  rw [hostStart, toNat_and_mask, BitVec.toNat_sub, BitVec.toNat_ushiftRight,
    BitVec.toNat_setWidth, Nat.shiftRight_eq_div_pow]
  have hword : (stsData s).toNat % 2 ^ 32 / 2 ^ 1 = trigger % 2 ^ 23 := by
    rw [Nat.mod_eq_of_lt (by omega), pow_one, hsts, haddr]
  rw [hword, windowStart]
  simp only [BitVec.toNat_ofNat]
  omega

/-- The enable bit says that the core is not idle; every acquisition forwards
exactly the beats up to the end of its window and reports its trigger; and the
host computes the start of that window. -/
theorem oscilloscope_window (preData totData : BitVec cntrWidth)
    (hwidth : 6 ≤ cntrWidth) (haligned : 64 ∣ preData.toNat + 1)
    (hfits : preData.toNat + 63 ≤ totData.toNat) (input : ℕ → Input Data)
    (horizon : ℕ) (hrun : ∀ cycle < horizon, (input cycle).aresetn = true) :
    (∀ cycle ≤ horizon,
      (stateAt preData totData input cycle).intEnblReg = true ↔
        (stateAt preData totData input cycle).intCaseReg ≠ .idle) ∧
    (∀ run trigger, trigger < horizon → RunTaken preData totData input run →
      InAcquisition preData totData input run trigger →
      TriggerTaken preData totData input trigger →
      Window preData totData input run trigger horizon) ∧
    ∀ (s : State 23) (trigger : ℕ), 1024 ≤ trigger →
      s.intAddrReg.toNat = trigger % 2 ^ 23 →
      (hostStart ((stsData s).setWidth 32)).toNat =
        windowStart 1023#23 trigger % 2 ^ 23 := by
  refine ⟨fun cycle hcycle => enableInv_stateAt preData totData hrun cycle hcycle,
    ?_, fun s trigger hafter haddr => toNat_hostStart hafter haddr⟩
  intro run trigger hlate htaken hin htrigger
  have hfilling := filling_stateAt hrun htaken trigger hin.1 hlate.le hin
  have hfilled : preData.toNat + 1 ≤
      beatNumber preData totData input run trigger := by
    have hcase := htrigger
    simp only [TriggerTaken, triggerTaken, Bool.and_eq_true, decide_eq_true_eq]
      at hcase
    have hcount := hfilling
    unfold Filling at hcount
    rw [hcase.1.1] at hcount
    exact hcount.2
  have hstart : preData.toNat + 1 ≤
      beatNumber preData totData input run trigger -
        beatNumber preData totData input run trigger % 64 := by
    omega
  have hrecording := recording_stateAt hrun hwidth hfits hin.1 hfilling hstart
    htrigger
  exact {
    filled := hfilled
    start := Nat.sub_add_cancel hstart
    status := fun cycle hcycle hafter hnone => by
      rw [toNat_stsData]
      exact (hrecording cycle hafter hcycle hnone).1
    extent := fun cycle hcycle hafter hnone =>
      (hrecording cycle hafter hcycle hnone).extent
        (enableInv_stateAt preData totData hrun cycle hcycle) }

/-- A run flag in the first cycle, a beat in every cycle, and a trigger in cycle
100. -/
def triggeredRun (cycle : ℕ) : Input ℕ where
  aresetn := true
  runFlag := decide (cycle = 0)
  trgFlag := decide (cycle = 100)
  sAxisTdata := cycle
  sAxisTvalid := true

theorem oscilloscope_window_triggeredRun :
    Window 63#8 127#8 triggeredRun 0 100 200 := by
  have henabled : ∀ between ≤ 100, 0 < between →
      (stateAt 63#8 127#8 triggeredRun between).intEnblReg = true := by
    decide +kernel
  have hwindow := oscilloscope_window 63#8 127#8 (by decide) (by decide)
    (by decide) triggeredRun 200 fun _ _ => rfl
  refine hwindow.2.1 0 100 (by decide) (by unfold RunTaken; decide)
    ⟨by decide, fun between hlow hhigh => henabled between hhigh hlow⟩ ?_
  unfold TriggerTaken
  decide +kernel

end Rfsoc.Oscilloscope
