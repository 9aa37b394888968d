import Rfsoc.Axis.Oscilloscope

/-!
# The edge trigger

`axis_trigger` compares its samples with a level and raises `trg_flag` for one
valid sample after two whose comparisons differ in the chosen direction.  In the
recorder it watches the raw stream, and `axis_oscilloscope`, which takes the
flag, works on the decimated one: the flag is looked at in the valid cycles of
another stream.
-/

namespace Rfsoc.AxisTrigger

open Rfsoc.Clocked

variable {axisTdataWidth cntrWidth : ℕ} {Data : Type*}

/-- `int_comp_reg`; the trigger has no reset. -/
structure State where
  intCompReg : BitVec 2

structure Input (axisTdataWidth : ℕ) where
  polData : Bool
  mskData : BitVec axisTdataWidth
  lvlData : BitVec axisTdataWidth
  sAxisTdata : BitVec axisTdataWidth
  sAxisTvalid : Bool

/-- The comparison of `SIGNED_G` and `UNSIGNED_G`; `isSigned` says whether
`AXIS_TDATA_SIGNED` is `"TRUE"`. -/
def intCompWire (isSigned : Bool) (i : Input axisTdataWidth) : Bool :=
  if isSigned then i.lvlData.sle (i.sAxisTdata &&& i.mskData)
  else i.lvlData.ule (i.sAxisTdata &&& i.mskData)

def step (isSigned : Bool) (s : State) (i : Input axisTdataWidth) : State :=
  if i.sAxisTvalid then
    ⟨s.intCompReg.extractLsb' 0 1 ++ BitVec.ofBool (intCompWire isSigned i)⟩
  else s

def sAxisTready : Bool := true

def trgFlag (s : State) (i : Input axisTdataWidth) : Bool :=
  i.sAxisTvalid && (i.polData ^^ s.intCompReg.getLsbD 0) &&
    (i.polData ^^ !s.intCompReg.getLsbD 1)

/-- A valid sample shifts its comparison in. -/
theorem step_valid (isSigned : Bool) (s : State) (i : Input axisTdataWidth)
    (hvalid : i.sAxisTvalid = true) :
    (step isSigned s i).intCompReg.getLsbD 0 = intCompWire isSigned i ∧
      (step isSigned s i).intCompReg.getLsbD 1 = s.intCompReg.getLsbD 0 := by
  rw [step, if_pos hvalid]
  constructor
  · rw [BitVec.getLsbD_append]
    simp
  · rw [BitVec.getLsbD_append, BitVec.getLsbD_extractLsb']
    simp

/-- A flag lives for one sample: the sample that carries it shifts the edge
on. -/
theorem trgFlag_step (isSigned : Bool) (s : State)
    (i later : Input axisTdataWidth) (hflag : trgFlag s i = true)
    (hpol : later.polData = i.polData) :
    trgFlag (step isSigned s i) later = false := by
  simp only [trgFlag, Bool.and_eq_true] at hflag
  obtain ⟨⟨hvalid, hnew⟩, -⟩ := hflag
  rw [trgFlag, (step_valid isSigned s i hvalid).2, hpol]
  cases hpolData : i.polData <;> simp_all

/-- What the two streams and the configuration carry in one cycle. -/
structure Wires (axisTdataWidth cntrWidth : ℕ) (Data : Type*) where
  raw : Input axisTdataWidth
  preData : BitVec cntrWidth
  totData : BitVec cntrWidth
  aresetn : Bool
  runFlag : Bool
  decimatedTdata : Data
  decimatedTvalid : Bool

structure Recorder (cntrWidth : ℕ) where
  trigger : State
  scope : Oscilloscope.State cntrWidth

/-- `scope_0`'s inputs, with `trig_0/trg_flag`. -/
def scopeInput (trigger : State) (w : Wires axisTdataWidth cntrWidth Data) :
    Oscilloscope.Input Data where
  aresetn := w.aresetn
  runFlag := w.runFlag
  trgFlag := trgFlag trigger w.raw
  sAxisTdata := w.decimatedTdata
  sAxisTvalid := w.decimatedTvalid

/-- The two cores as the recorder connects them, from any comparisons. -/
def recorder (isSigned : Bool) (start : State) :
    Machine (Recorder cntrWidth) (Wires axisTdataWidth cntrWidth Data) where
  start := ⟨start, Oscilloscope.resetState⟩
  step s w :=
    { trigger := step isSigned s.trigger w.raw
      scope := Oscilloscope.step w.preData w.totData s.scope
        (scopeInput s.trigger w) }

section Run

variable (isSigned : Bool) (start : State)
  (wires : ℕ → Wires axisTdataWidth cntrWidth Data)

def stateAt (cycle : ℕ) : Recorder cntrWidth :=
  (recorder isSigned start).stateAt wires cycle

/-- The flag in a cycle. -/
def flagAt (cycle : ℕ) : Bool :=
  trgFlag (stateAt isSigned start wires cycle).trigger (wires cycle).raw

/-- The oscilloscope is in its state 10. -/
def ArmedAt (cycle : ℕ) : Prop :=
  (stateAt isSigned start wires cycle).scope.intCaseReg = .armed

/-- The first valid decimated sample from a cycle on, with no reset on the
way. -/
structure FirstSample (cycle sample : ℕ) : Prop where
  le : cycle ≤ sample
  valid : (wires sample).decimatedTvalid = true
  quiet : ∀ between < sample, cycle ≤ between →
    (wires between).decimatedTvalid = false
  running : ∀ between ≤ sample, cycle ≤ between →
    (wires between).aresetn = true

/-- A flag in state 10 is taken with the next decimated sample. -/
def MissesNoEdge : Prop :=
  ∀ cycle sample, ArmedAt isSigned start wires cycle →
    flagAt isSigned start wires cycle = true → FirstSample wires cycle sample →
    ¬ ArmedAt isSigned start wires (sample + 1)

/-- The comparisons of the raw samples before a cycle, newest first; the last
two are what the register starts with. -/
def comparisons : ℕ → List Bool
  | 0 => [start.intCompReg.getLsbD 0, start.intCompReg.getLsbD 1]
  | cycle + 1 =>
      if (wires cycle).raw.sAxisTvalid then
        intCompWire isSigned (wires cycle).raw :: comparisons cycle
      else comparisons cycle

/-- A raw sample comes, and the two before it cross the level in the chosen
direction. -/
def EdgeAt (cycle : ℕ) : Prop :=
  (wires cycle).raw.sAxisTvalid = true ∧
    ∃ older, comparisons isSigned start wires cycle =
      (!(wires cycle).raw.polData) :: (wires cycle).raw.polData :: older

/-- Whenever an edge is seen in state 10, the next decimated sample comes with
an edge, this one or a later one. -/
def EdgeAtSample : Prop :=
  ∀ cycle sample, ArmedAt isSigned start wires cycle →
    EdgeAt isSigned start wires cycle → FirstSample wires cycle sample →
    EdgeAt isSigned start wires sample

/-- The register holds the newest two comparisons. -/
theorem comparisons_eq (cycle : ℕ) :
    ∃ older, comparisons isSigned start wires cycle =
      (stateAt isSigned start wires cycle).trigger.intCompReg.getLsbD 0 ::
        (stateAt isSigned start wires cycle).trigger.intCompReg.getLsbD 1 ::
          older := by
  induction cycle with
  | zero => exact ⟨[], rfl⟩
  | succ cycle ih =>
      obtain ⟨older, hseen⟩ := ih
      have hstep : (stateAt isSigned start wires (cycle + 1)).trigger =
          step isSigned (stateAt isSigned start wires cycle).trigger
            (wires cycle).raw := rfl
      rw [hstep, comparisons]
      cases hvalid : (wires cycle).raw.sAxisTvalid with
      | false =>
          have hidle : step isSigned (stateAt isSigned start wires cycle).trigger
              (wires cycle).raw = (stateAt isSigned start wires cycle).trigger :=
            if_neg (by rw [hvalid]; exact Bool.false_ne_true)
          rw [hidle]
          exact ⟨older, hseen⟩
      | true =>
          obtain ⟨hnew, hold⟩ := step_valid isSigned
            (stateAt isSigned start wires cycle).trigger (wires cycle).raw hvalid
          rw [hnew, hold, hseen]
          exact ⟨_, rfl⟩

variable {isSigned start wires}

theorem flagAt_iff (cycle : ℕ) :
    flagAt isSigned start wires cycle = true ↔
      EdgeAt isSigned start wires cycle := by
  obtain ⟨older, hseen⟩ := comparisons_eq isSigned start wires cycle
  rw [flagAt, trgFlag, EdgeAt, hseen]
  cases (wires cycle).raw.polData <;> simp [and_assoc]

theorem scope_succ {cycle : ℕ} (hrun : (wires cycle).aresetn = true) :
    (stateAt isSigned start wires (cycle + 1)).scope =
      Oscilloscope.next (wires cycle).preData (wires cycle).totData
        (stateAt isSigned start wires cycle).scope
        (scopeInput (stateAt isSigned start wires cycle).trigger
          (wires cycle)) := by
  have hreset : (scopeInput (stateAt isSigned start wires cycle).trigger
      (wires cycle)).aresetn = true := hrun
  rw [stateAt, Machine.stateAt_succ]
  change Oscilloscope.step _ _ _ _ = _
  exact if_pos hreset

/-- Without a decimated sample the oscilloscope stays armed. -/
theorem armedAt_of_waiting {cycle : ℕ}
    (harmed : ArmedAt isSigned start wires cycle) :
    ∀ sample, cycle ≤ sample →
      (∀ between < sample, cycle ≤ between →
        (wires between).decimatedTvalid = false) →
      (∀ between < sample, cycle ≤ between →
        (wires between).aresetn = true) →
      ArmedAt isSigned start wires sample := by
  intro sample hle
  induction sample, hle using Nat.le_induction with
  | base => exact fun _ _ => harmed
  | succ sample hle ih =>
      intro hquiet hrun
      have hbefore := ih
        (fun between hlt => hquiet between (Nat.lt_succ_of_lt hlt))
        (fun between hlt => hrun between (Nat.lt_succ_of_lt hlt))
      have hvalid : (scopeInput (stateAt isSigned start wires sample).trigger
          (wires sample)).sAxisTvalid = false :=
        hquiet sample (Nat.lt_succ_self sample) hle
      have hbusy :
          (stateAt isSigned start wires sample).scope.intCaseReg ≠ .idle := by
        rw [hbefore]
        decide
      rw [ArmedAt, scope_succ (hrun sample (Nat.lt_succ_self sample) hle),
        Oscilloscope.next_of_no_beat hbusy hvalid]
      exact hbefore

/-- An armed oscilloscope takes a decimated sample as the flag says. -/
theorem armedAt_succ_iff {sample : ℕ} (hrun : (wires sample).aresetn = true)
    (harmed : ArmedAt isSigned start wires sample)
    (hvalid : (wires sample).decimatedTvalid = true) :
    ArmedAt isSigned start wires (sample + 1) ↔
      flagAt isSigned start wires sample = false := by
  rw [ArmedAt, scope_succ hrun]
  cases hflag : flagAt isSigned start wires sample with
  | false =>
      rw [Oscilloscope.next_armed harmed hvalid hflag]
      exact iff_of_true harmed rfl
  | true =>
      rw [Oscilloscope.next_trigger harmed hvalid hflag]
      simp

end Run

/-- The armed oscilloscope misses no edge exactly when every edge comes
together with a decimated sample or is followed by one that does. -/
theorem armed_missesNoEdge_iff (isSigned : Bool) (start : State)
    (wires : ℕ → Wires axisTdataWidth cntrWidth Data) :
    MissesNoEdge isSigned start wires ↔ EdgeAtSample isSigned start wires := by
  have htaken : ∀ cycle sample, ArmedAt isSigned start wires cycle →
      FirstSample wires cycle sample →
      (¬ ArmedAt isSigned start wires (sample + 1) ↔
        EdgeAt isSigned start wires sample) := by
    intro cycle sample harmed hfirst
    have hwaiting := armedAt_of_waiting harmed sample hfirst.le hfirst.quiet
      fun between hlt => hfirst.running between hlt.le
    rw [armedAt_succ_iff (hfirst.running sample le_rfl hfirst.le) hwaiting
      hfirst.valid, Bool.not_eq_false, flagAt_iff]
  constructor
  · intro hmisses cycle sample harmed hedge hfirst
    apply (htaken cycle sample harmed hfirst).mp
    exact hmisses cycle sample harmed ((flagAt_iff cycle).mpr hedge) hfirst
  · intro hheld cycle sample harmed hflag hfirst
    apply (htaken cycle sample harmed hfirst).mpr
    exact hheld cycle sample harmed ((flagAt_iff cycle).mp hflag) hfirst

/-- The raw stream has a sample in every cycle and rises in cycle 4; the
decimated one has a sample in every other cycle. -/
def risingRun (cycle : ℕ) : Wires 8 23 ℕ where
  raw :=
    { polData := false
      mskData := 255#8
      lvlData := 1#8
      sAxisTdata := if cycle < 4 then 0#8 else 1#8
      sAxisTvalid := true }
  preData := 0
  totData := 63#23
  aresetn := true
  runFlag := decide (cycle = 0)
  decimatedTdata := cycle
  decimatedTvalid := decide (cycle % 2 = 0)

/-- The flag of cycle 5 is gone in cycle 6, when the oscilloscope looks. -/
theorem armed_missesEdge_risingRun :
    ¬ MissesNoEdge false ⟨0⟩ risingRun := by
  intro hmisses
  have hfirst : FirstSample risingRun 5 6 := by
    refine ⟨by decide, by decide, ?_, fun _ _ _ => rfl⟩
    intro between hlt hle
    obtain rfl : between = 5 := by omega
    decide
  have harmed : ∀ cycle, cycle = 5 ∨ cycle = 7 →
      ArmedAt false ⟨0⟩ risingRun cycle := by
    rintro cycle (rfl | rfl) <;> unfold ArmedAt <;> decide
  exact hmisses 5 6 (harmed 5 (.inl rfl)) (by decide) hfirst
    (harmed 7 (.inr rfl))

end Rfsoc.AxisTrigger
