import Rfsoc.Core.Signals
import Rfsoc.Generator.SincosLut

/-!
# The signal generator

`signal_gen` turns a frequency word into a phase: the word is multiplied by a
constant, and the product reaches the accumulator through two registers.  Every
cycle's word is added once, three cycles later, whatever the words before and
after it; the sine and the cosine are those of the accumulated phase.
-/

namespace Rfsoc.SignalGen

open Rfsoc.Bits
open Rfsoc.Clocked
open Rfsoc.Signals

structure State where
  phaseAccReg : BitVec 50
  r2Reg : BitVec 50
  r3Reg : BitVec 50
  rConstReg : BitVec 18
  freqReg : BitVec 32
  sinReg : BitVec 14
  cosReg : BitVec 14
  lut : SincosLut.State

structure Input where
  aresetn : Bool
  sAxisTvalid : Bool
  sAxisTdata : BitVec 32
  mAxisTready : Bool

def tready : Bool := true

def sAxisTready : Bool := tready

def freqNext (s : State) (i : Input) : BitVec 32 :=
  if i.sAxisTvalid && tready then i.sAxisTdata else s.freqReg

def rConstNext : BitVec 18 := 35184

/-- The product of an 18 and a 32 bit number. -/
def phaseStep (s : State) : BitVec 50 :=
  s.rConstReg.setWidth 50 * s.freqReg.setWidth 50

def r2Next (s : State) : BitVec 50 := phaseStep s

def r3Next (s : State) : BitVec 50 := s.r2Reg

def phaseAccNext (s : State) : BitVec 50 := s.phaseAccReg + s.r3Reg

def syncO (s : State) : Bool := !s.phaseAccReg.getLsbD 49

def lutAddr (s : State) : BitVec 14 := s.phaseAccReg.extractLsb' 36 14

def tvalid (s : State) : Bool := decide (s.freqReg ≠ 0)

def sinNext (s : State) (i : Input) : BitVec 14 :=
  if i.mAxisTready && tvalid s then s.lut.sin else s.sinReg

def cosNext (s : State) (i : Input) : BitVec 14 :=
  if i.mAxisTready && tvalid s then s.lut.cos else s.cosReg

def mAxisTvalid (s : State) : Bool := tvalid s

/-- Both registers with two copies of their sign. -/
def mAxisTdata (s : State) : BitVec 32 :=
  s.sinReg.signExtend 16 ++ s.cosReg.signExtend 16

/-- The table has no reset. -/
def resetState (lut : SincosLut.State) : State where
  phaseAccReg := 0
  r2Reg := 0
  r3Reg := 0
  rConstReg := 35184
  freqReg := 0
  sinReg := 0
  cosReg := 0
  lut := lut

section Table

variable (isin : BitVec 12 → BitVec 16)

def step (s : State) (i : Input) : State :=
  if i.aresetn then
    { phaseAccReg := phaseAccNext s
      r2Reg := r2Next s
      r3Reg := r3Next s
      rConstReg := rConstNext
      freqReg := freqNext s i
      sinReg := sinNext s i
      cosReg := cosNext s i
      lut := SincosLut.step isin s.lut (lutAddr s) }
  else resetState (SincosLut.step isin s.lut (lutAddr s))

/-- The generator, in the first cycle out of reset. -/
def core (lut : SincosLut.State) : Machine State Input :=
  ⟨resetState lut, step isin⟩

variable (lut : SincosLut.State) (input : ℕ → Input)

def stateAt (cycle : ℕ) : State := (core isin lut).stateAt input cycle

/-- The words accepted before a cycle. -/
def accepted : ℕ → List (BitVec 32) :=
  picked (fun cycle => (input cycle).sAxisTvalid && sAxisTready)
    (fun cycle => (input cycle).sAxisTdata)

/-- The phase is the sum of the steps of all words, none of them rounded. -/
structure PhaseExact (horizon : ℕ) : Prop where
  phase : ∀ cycle ≤ horizon,
    (stateAt isin lut input cycle).phaseAccReg.toNat =
      (∑ earlier ∈ Finset.range (cycle - 2),
        35184 * (stateAt isin lut input earlier).freqReg.toNat) % 2 ^ 50
  word : ∀ cycle ≤ horizon, (stateAt isin lut input cycle).freqReg =
    (accepted input cycle).getLastD 0
  product : ∀ cycle ≤ horizon,
    (phaseStep (stateAt isin lut input cycle)).toNat =
      35184 * (stateAt isin lut input cycle).freqReg.toNat

end Table

section Run

variable {isin : BitVec 12 → BitVec 16} {lut : SincosLut.State}
  {input : ℕ → Input} {horizon : ℕ}
  (hrun : ∀ cycle < horizon, (input cycle).aresetn = true)
include hrun

theorem stateAt_succ {cycle : ℕ} (hcycle : cycle < horizon) :
    stateAt isin lut input (cycle + 1) =
      { phaseAccReg := phaseAccNext (stateAt isin lut input cycle)
        r2Reg := r2Next (stateAt isin lut input cycle)
        r3Reg := r3Next (stateAt isin lut input cycle)
        rConstReg := rConstNext
        freqReg := freqNext (stateAt isin lut input cycle) (input cycle)
        sinReg := sinNext (stateAt isin lut input cycle) (input cycle)
        cosReg := cosNext (stateAt isin lut input cycle) (input cycle)
        lut := SincosLut.step isin (stateAt isin lut input cycle).lut
          (lutAddr (stateAt isin lut input cycle)) } := by
  rw [stateAt, Machine.stateAt_succ]
  exact if_pos (hrun cycle hcycle)

/-- The constant is in its register from the reset on. -/
theorem rConstReg_eq {cycle : ℕ} (hcycle : cycle ≤ horizon) :
    (stateAt isin lut input cycle).rConstReg = 35184 := by
  cases cycle with
  | zero => rfl
  | succ cycle =>
      rw [stateAt_succ hrun hcycle]
      rfl

theorem toNat_phaseStep {cycle : ℕ} (hcycle : cycle ≤ horizon) :
    (phaseStep (stateAt isin lut input cycle)).toNat =
      35184 * (stateAt isin lut input cycle).freqReg.toNat := by
  have hword := (stateAt isin lut input cycle).freqReg.isLt
  rw [phaseStep, rConstReg_eq hrun hcycle, BitVec.toNat_mul,
    BitVec.toNat_setWidth, BitVec.toNat_setWidth]
  change 35184 * (_ % 2 ^ 50) % 2 ^ 50 = _
  omega

/-- A word's step is added three cycles after the word. -/
theorem phaseAccReg_succ {cycle : ℕ} (hcycle : cycle + 2 < horizon) :
    (stateAt isin lut input (cycle + 1 + 2)).phaseAccReg =
      (stateAt isin lut input (cycle + 2)).phaseAccReg +
        phaseStep (stateAt isin lut input cycle) := by
  have hr3 : (stateAt isin lut input (cycle + 2)).r3Reg =
      (stateAt isin lut input (cycle + 1)).r2Reg := by
    rw [stateAt_succ hrun (Nat.lt_of_succ_lt hcycle)]
    rfl
  have hr2 : (stateAt isin lut input (cycle + 1)).r2Reg =
      phaseStep (stateAt isin lut input cycle) := by
    rw [stateAt_succ hrun (by omega)]
    rfl
  rw [← hr2, ← hr3, show cycle + 1 + 2 = cycle + 2 + 1 from rfl,
    stateAt_succ hrun hcycle]
  rfl

/-- Until the first step arrives the phase is 0. -/
theorem phaseAccReg_start (cycle : ℕ) (hcycle : cycle ≤ horizon)
    (hearly : cycle ≤ 2) :
    (stateAt isin lut input cycle).phaseAccReg = 0 ∧
      (cycle ≤ 1 → (stateAt isin lut input cycle).r3Reg = 0) ∧
      (cycle = 0 → (stateAt isin lut input cycle).r2Reg = 0) := by
  induction cycle with
  | zero => exact ⟨rfl, fun _ => rfl, fun _ => rfl⟩
  | succ cycle ih =>
      obtain ⟨hphase, hr3, hr2⟩ := ih (by omega) (by omega)
      rw [stateAt_succ hrun hcycle]
      refine ⟨?_, fun hfirst => hr2 (by omega),
        fun hzero => absurd hzero (Nat.succ_ne_zero cycle)⟩
      change _ + _ = _
      rw [hphase, hr3 (by omega)]
      rfl

theorem phaseAccReg_eq {cycle : ℕ} (hcycle : cycle ≤ horizon) :
    (stateAt isin lut input cycle).phaseAccReg.toNat =
      (∑ earlier ∈ Finset.range (cycle - 2),
        35184 * (stateAt isin lut input earlier).freqReg.toNat) % 2 ^ 50 := by
  by_cases hearly : cycle ≤ 2
  · rw [(phaseAccReg_start hrun cycle hcycle hearly).1,
      Nat.sub_eq_zero_of_le hearly]
    rfl
  · obtain ⟨steps, rfl⟩ := Nat.exists_eq_add_of_le' (not_le.mp hearly).le
    have hnext : ∀ later < steps,
        (stateAt isin lut input (later + 1 + 2)).phaseAccReg =
          (stateAt isin lut input (later + 2)).phaseAccReg +
            phaseStep (stateAt isin lut input later) :=
      fun later hlater => phaseAccReg_succ hrun (by omega)
    have hsum := toNat_accumulated
      (fun later => (stateAt isin lut input (later + 2)).phaseAccReg) _
      (phaseAccReg_start hrun 2 (by omega) le_rfl).1 hnext
    rw [Nat.add_sub_cancel, hsum]
    congr 1
    apply Finset.sum_congr rfl
    intro earlier hearlier
    have hlt := Finset.mem_range.mp hearlier
    exact toNat_phaseStep hrun (by omega)

theorem freqReg_eq : ∀ cycle ≤ horizon,
    (stateAt isin lut input cycle).freqReg =
      (accepted input cycle).getLastD 0 := by
  apply upTo_induction
  · rfl
  · intro cycle hcycle ih
    rw [stateAt_succ hrun hcycle, accepted, picked]
    change freqNext _ _ = _
    rw [freqNext, ih]
    cases hvalid : (input cycle).sAxisTvalid with
    | false =>
        rw [Bool.false_and, if_neg Bool.false_ne_true, Bool.false_and,
          if_neg Bool.false_ne_true, List.append_nil]
        rfl
    | true =>
        rw [Bool.true_and, Bool.true_and]
        exact (List.getLastD_concat).symm

end Run

/-- The table is never reset: it runs beside the accumulator. -/
theorem lut_eq (isin : BitVec 12 → BitVec 16) (lut : SincosLut.State)
    (input : ℕ → Input) (cycle : ℕ) :
    (stateAt isin lut input cycle).lut =
      SincosLut.stateAt isin lut
        (fun earlier => lutAddr (stateAt isin lut input earlier)) cycle := by
  induction cycle with
  | zero => rfl
  | succ cycle ih =>
      rw [stateAt, Machine.stateAt_succ, SincosLut.stateAt,
        Machine.stateAt_succ]
      change (step isin (stateAt isin lut input cycle) (input cycle)).lut =
        SincosLut.step isin (SincosLut.stateAt isin lut _ cycle) _
      rw [← ih, step]
      split <;> rfl

/-- The samples are the sine and the cosine of the phase three cycles before. -/
theorem signalGen_samples (isin : BitVec 12 → BitVec 16)
    (lut : SincosLut.State) (input : ℕ → Input) (cycle : ℕ) :
    (stateAt isin lut input (cycle + 3)).lut.sin.toInt =
        SincosLut.sine isin (lutAddr (stateAt isin lut input cycle)) ∧
      (stateAt isin lut input (cycle + 3)).lut.cos.toInt =
        SincosLut.cosine isin (lutAddr (stateAt isin lut input cycle)) := by
  rw [lut_eq, SincosLut.sin_add_three, SincosLut.cos_add_three]
  exact ⟨rfl, rfl⟩

/-- Whatever the words and the gaps between them, the phase is exact. -/
theorem signalGen_phaseExact (isin : BitVec 12 → BitVec 16)
    (lut : SincosLut.State) (input : ℕ → Input) (horizon : ℕ)
    (hrun : ∀ cycle < horizon, (input cycle).aresetn = true) :
    PhaseExact isin lut input horizon where
  phase := fun _ hcycle => phaseAccReg_eq hrun hcycle
  word := freqReg_eq hrun
  product := fun _ hcycle => toNat_phaseStep hrun hcycle

/-- A word of 2 ^ 31 in cycle 1 and one of 3 in cycle 4. -/
def changingRun (cycle : ℕ) : Input where
  aresetn := true
  sAxisTvalid := decide (cycle = 1 ∨ cycle = 4)
  sAxisTdata := if cycle = 1 then 0x80000000#32 else 3#32
  mAxisTready := true

/-- The table before power-up leaves anything in it. -/
def blankLut : SincosLut.State :=
  ⟨false, false, false, false, false, false, 0, 0, 0, 0, 0, 0⟩

theorem signalGen_phaseExact_changingRun :
    PhaseExact (fun _ => 0) blankLut changingRun 40 :=
  signalGen_phaseExact _ blankLut changingRun 40 fun _ _ => rfl

end Rfsoc.SignalGen
