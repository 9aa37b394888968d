import Rfsoc.Axis.Decimator
import Rfsoc.Axis.Interpolator
import Rfsoc.Core.Bits
import Rfsoc.Core.Clocked

/-!
# Interpolation and decimation in series

The decimator takes what the interpolator offers, both with the same
`cfg_data`, and its own words are always taken.  The two counters move in the
same cycles, so the copy that is kept is the last one of each word.

The series is compared with a machine of three phases: empty, copying a word,
and handing it on.
-/

namespace Rfsoc.Resampling

open Rfsoc.Bits
open Rfsoc.Clocked

variable {axisTdataWidth cntrWidth : ℕ}

structure State (axisTdataWidth cntrWidth : ℕ) where
  interpolator : Interpolator.State axisTdataWidth cntrWidth
  decimator : Decimator.State axisTdataWidth cntrWidth

structure Input (axisTdataWidth : ℕ) where
  aresetn : Bool
  sAxisTdata : BitVec axisTdataWidth
  sAxisTvalid : Bool

def interpolatorInput (s : State axisTdataWidth cntrWidth)
    (i : Input axisTdataWidth) : Interpolator.Input axisTdataWidth where
  aresetn := i.aresetn
  sAxisTdata := i.sAxisTdata
  sAxisTvalid := i.sAxisTvalid
  mAxisTready := Decimator.sAxisTready s.decimator

def decimatorInput (s : State axisTdataWidth cntrWidth)
    (i : Input axisTdataWidth) : Decimator.Input axisTdataWidth where
  aresetn := i.aresetn
  sAxisTdata := Interpolator.mAxisTdata s.interpolator
  sAxisTvalid := Interpolator.mAxisTvalid s.interpolator
  mAxisTready := true

def step (cfgData : BitVec cntrWidth) (s : State axisTdataWidth cntrWidth)
    (i : Input axisTdataWidth) : State axisTdataWidth cntrWidth where
  interpolator :=
    Interpolator.step cfgData s.interpolator (interpolatorInput s i)
  decimator := Decimator.step cfgData s.decimator (decimatorInput s i)

/-- The series with a constant `cfg_data`, from reset. -/
def series (cfgData : BitVec cntrWidth) :
    Machine (State axisTdataWidth cntrWidth) (Input axisTdataWidth) where
  start :=
    { interpolator := Interpolator.resetState
      decimator := Decimator.resetState }
  step := step cfgData

/-- The word that the interpolator accepts in a cycle. -/
def acceptedWord (s : State axisTdataWidth cntrWidth)
    (i : Input axisTdataWidth) : List (BitVec axisTdataWidth) :=
  if i.sAxisTvalid && Interpolator.sAxisTready s.interpolator then
    [i.sAxisTdata]
  else []

/-- The word that the decimator hands to its consumer in a cycle. -/
def deliveredWord (s : State axisTdataWidth cntrWidth)
    (i : Input axisTdataWidth) : List (BitVec axisTdataWidth) :=
  if Decimator.mAxisTvalid s.decimator && (decimatorInput s i).mAxisTready then
    [Decimator.mAxisTdata s.decimator]
  else []

inductive Phase (Word : Type*) where
  | empty
  | copying (word : Word) (copies : ℕ)
  | handing (word : Word)

namespace Phase

variable {Word : Type*}

/-- A word that is offered while none is being copied. -/
def take : Option Word → Phase Word
  | none => empty
  | some word => copying word 0

/-- The phase after a cycle, `factor + 1` copies to a word. -/
def next (factor : ℕ) (ready : Bool) (offer : Option Word) :
    Phase Word → Phase Word
  | empty => take offer
  | copying word copies =>
      if ready then
        if copies < factor then copying word (copies + 1) else handing word
      else copying word copies
  | handing _ => take offer

/-- The word inside. -/
def pending : Phase Word → List Word
  | empty => []
  | copying word _ => [word]
  | handing word => [word]

def accepts (offer : Option Word) : Phase Word → List Word
  | empty => offer.toList
  | copying _ _ => []
  | handing _ => offer.toList

def delivers : Phase Word → List Word
  | empty => []
  | copying _ _ => []
  | handing word => [word]

theorem pending_take (offer : Option Word) :
    (take offer).pending = offer.toList := by
  cases offer with
  | none => rfl
  | some word => rfl

/-- What goes in comes out once. -/
theorem delivers_pending (factor : ℕ) (ready : Bool) (offer : Option Word)
    (phase : Phase Word) :
    phase.delivers ++ (phase.next factor ready offer).pending =
      phase.pending ++ phase.accepts offer := by
  cases phase with
  | empty => exact pending_take offer
  | copying word copies =>
      cases ready with
      | false => rfl
      | true =>
          by_cases hmore : copies < factor
          · simp [next, hmore, delivers, pending, accepts]
          · simp [next, hmore, delivers, pending, accepts]
  | handing word =>
      rw [next, pending_take]
      rfl

theorem length_pending_le (phase : Phase Word) : phase.pending.length ≤ 1 := by
  cases phase with
  | empty => exact Nat.zero_le 1
  | copying word copies => exact le_rfl
  | handing word => exact le_rfl

end Phase

/-- Both counters stand at the same number of copies. -/
def InStep (s : State axisTdataWidth cntrWidth) (copies : ℕ) : Prop :=
  s.interpolator.intCntrReg.toNat = copies ∧
    s.decimator.intCntrReg.toNat = copies

/-- The registers of each phase. -/
def Shows (factor : ℕ) (s : State axisTdataWidth cntrWidth) :
    Phase (BitVec axisTdataWidth) → Prop
  | .empty =>
      InStep s 0 ∧ s.interpolator.intTvalidReg = false ∧
        s.decimator.intTvalidReg = false
  | .copying word copies =>
      InStep s copies ∧ s.interpolator.intTvalidReg = true ∧
        s.decimator.intTvalidReg = false ∧
        s.interpolator.intTdataReg = word ∧ copies ≤ factor
  | .handing word =>
      InStep s 0 ∧ s.interpolator.intTvalidReg = false ∧
        s.decimator.intTvalidReg = true ∧ s.decimator.intTdataReg = word

/-- The word on offer to the series. -/
def offer (i : Input axisTdataWidth) : Option (BitVec axisTdataWidth) :=
  if i.sAxisTvalid then some i.sAxisTdata else none

section Step

variable {cfgData : BitVec cntrWidth} {s : State axisTdataWidth cntrWidth}
  {i : Input axisTdataWidth}

/-- The comparison of either core at the common number of copies. -/
theorem more_eq {counter : BitVec cntrWidth} {copies : ℕ}
    (hcounter : counter.toNat = copies) :
    decide (counter < cfgData) = decide (copies < cfgData.toNat) := by
  subst hcounter
  rfl

/-- Without a word in the interpolator both counters rest, and the decimator's
word is taken. -/
theorem shows_take (hrun : i.aresetn = true) (hstep : InStep s 0)
    (hempty : s.interpolator.intTvalidReg = false) :
    Shows cfgData.toNat (step cfgData s i) (Phase.take (offer i)) := by
  have hquiet : Decimator.intTvalidWire s.decimator (decimatorInput s i) =
      false := by
    rw [Decimator.intTvalidWire, decimatorInput, Interpolator.mAxisTvalid,
      hempty, Bool.and_false]
  have hinterpolator : Interpolator.step cfgData s.interpolator
      (interpolatorInput s i) = _ := Interpolator.step_empty hrun hempty
  have hdecimator : Decimator.step cfgData s.decimator (decimatorInput s i) =
      _ := Decimator.step_taken hrun rfl
  rw [hquiet] at hdecimator
  cases hvalid : i.sAxisTvalid with
  | false =>
      rw [offer, hvalid, step, hinterpolator, hdecimator]
      exact ⟨hstep, hvalid, rfl⟩
  | true =>
      rw [offer, hvalid, step, hinterpolator, hdecimator]
      exact ⟨hstep, hvalid, rfl, if_pos hvalid, Nat.zero_le _⟩

/-- While a word is copied both counters move in the cycles in which the
decimator is ready, and its last copy is kept. -/
theorem shows_copying (hrun : i.aresetn = true) {word : BitVec axisTdataWidth}
    {copies : ℕ} (hshows : Shows cfgData.toNat s (.copying word copies)) :
    Shows cfgData.toNat (step cfgData s i)
      ((Phase.copying word copies).next cfgData.toNat s.decimator.intTreadyReg
        (offer i)) := by
  obtain ⟨⟨hfirst, hsecond⟩, hfull, hnone, hword, hle⟩ := hshows
  have hwire : Decimator.intTvalidWire s.decimator (decimatorInput s i) =
      s.decimator.intTreadyReg := by
    rw [Decimator.intTvalidWire, decimatorInput, Interpolator.mAxisTvalid,
      hfull, Bool.and_true]
  have hinterpolator : Interpolator.step cfgData s.interpolator
      (interpolatorInput s i) = _ := Interpolator.step_full hrun hfull
  have hdecimator : Decimator.step cfgData s.decimator (decimatorInput s i) =
      _ := Decimator.step_taken hrun rfl
  have hready : (interpolatorInput s i).mAxisTready =
      s.decimator.intTreadyReg := rfl
  rw [Interpolator.moreCopies, more_eq hfirst, hready] at hinterpolator
  rw [hwire, Decimator.intCompWire, more_eq hsecond] at hdecimator
  rw [step, hinterpolator, hdecimator]
  cases s.decimator.intTreadyReg with
  | false => exact ⟨⟨hfirst, hsecond⟩, rfl, rfl, hword, hle⟩
  | true =>
      by_cases hmore : copies < cfgData.toNat
      · have hroom : copies + 1 < 2 ^ cntrWidth :=
          lt_of_le_of_lt hmore cfgData.isLt
        have hnext : (Phase.copying word copies).next cfgData.toNat true
            (offer i) = .copying word (copies + 1) := if_pos hmore
        rw [decide_eq_true hmore, hnext]
        exact ⟨⟨toNat_succ_of_lt hfirst hroom, toNat_succ_of_lt hsecond hroom⟩,
          rfl, rfl, hword, hmore⟩
      · have hnext : (Phase.copying word copies).next cfgData.toNat true
            (offer i) = .handing word := if_neg hmore
        rw [decide_eq_false hmore, hnext]
        exact ⟨⟨BitVec.toNat_zero, BitVec.toNat_zero⟩, rfl, rfl, hword⟩

/-- One clock edge moves the registers as the phase moves. -/
theorem shows_step (hrun : i.aresetn = true)
    {phase : Phase (BitVec axisTdataWidth)}
    (hshows : Shows cfgData.toNat s phase) :
    Shows cfgData.toNat (step cfgData s i)
      (phase.next cfgData.toNat s.decimator.intTreadyReg (offer i)) := by
  cases phase with
  | empty => exact shows_take hrun hshows.1 hshows.2.1
  | copying word copies => exact shows_copying hrun hshows
  | handing word => exact shows_take hrun hshows.1 hshows.2.1

theorem acceptedWord_eq {phase : Phase (BitVec axisTdataWidth)}
    (hshows : Shows cfgData.toNat s phase) :
    acceptedWord s i = phase.accepts (offer i) := by
  rw [acceptedWord, Interpolator.sAxisTready]
  cases phase with
  | empty =>
      rw [hshows.2.1, offer]
      cases i.sAxisTvalid <;> rfl
  | copying word copies =>
      rw [hshows.2.1, Bool.not_true, Bool.and_false]
      rfl
  | handing word =>
      rw [hshows.2.1, offer]
      cases i.sAxisTvalid <;> rfl

theorem deliveredWord_eq {phase : Phase (BitVec axisTdataWidth)}
    (hshows : Shows cfgData.toNat s phase) :
    deliveredWord s i = phase.delivers := by
  rw [deliveredWord, Decimator.mAxisTvalid, decimatorInput]
  cases phase with
  | empty =>
      rw [hshows.2.2]
      rfl
  | copying word copies =>
      rw [hshows.2.2.1]
      rfl
  | handing word =>
      rw [hshows.2.2.1, Decimator.mAxisTdata, hshows.2.2.2]
      rfl

end Step

section Run

variable (cfgData : BitVec cntrWidth) (input : ℕ → Input axisTdataWidth)

def stateAt (cycle : ℕ) : State axisTdataWidth cntrWidth :=
  (series cfgData).stateAt input cycle

/-- The words accepted by the interpolator before a cycle. -/
def accepted : ℕ → List (BitVec axisTdataWidth) :=
  (series cfgData).log input acceptedWord

/-- The words handed on by the decimator before a cycle. -/
def delivered : ℕ → List (BitVec axisTdataWidth) :=
  (series cfgData).log input deliveredWord

def phaseAt : ℕ → Phase (BitVec axisTdataWidth)
  | 0 => .empty
  | cycle + 1 =>
      (phaseAt cycle).next cfgData.toNat
        (stateAt cfgData input cycle).decimator.intTreadyReg (offer (input cycle))

/-- The series is the identity up to a horizon. -/
structure Identity (horizon : ℕ) : Prop where
  /-- The words handed on are the first of those accepted, in their order. -/
  order : ∀ cycle ≤ horizon,
    delivered cfgData input cycle <+: accepted cfgData input cycle
  /-- At most one word is inside. -/
  inside : ∀ cycle ≤ horizon,
    (accepted cfgData input cycle).length ≤
      (delivered cfgData input cycle).length + 1
  /-- A word is handed on as soon as its copies have been made. -/
  prompt : ∀ cycle, cycle + cfgData.toNat + 2 ≤ horizon →
    accepted cfgData input cycle <+:
      delivered cfgData input (cycle + cfgData.toNat + 2)

variable {cfgData input} {horizon : ℕ}

variable (cfgData) in
/-- The cores are in the registers of the run's phase. -/
theorem shows_stateAt (hrun : ∀ cycle < horizon, (input cycle).aresetn = true) :
    ∀ cycle ≤ horizon, Shows cfgData.toNat (stateAt cfgData input cycle)
      (phaseAt cfgData input cycle) := by
  apply upTo_induction
  · exact ⟨⟨BitVec.toNat_zero, BitVec.toNat_zero⟩, rfl, rfl⟩
  · intro cycle hcycle ih
    exact shows_step (hrun cycle hcycle) ih

section Ledger

variable (hrun : ∀ cycle < horizon, (input cycle).aresetn = true)
include hrun

theorem accepted_succ {cycle : ℕ} (hcycle : cycle < horizon) :
    accepted cfgData input (cycle + 1) =
      accepted cfgData input cycle ++
        (phaseAt cfgData input cycle).accepts (offer (input cycle)) := by
  rw [← acceptedWord_eq (shows_stateAt cfgData hrun cycle hcycle.le)]
  rfl

theorem delivered_succ {cycle : ℕ} (hcycle : cycle < horizon) :
    delivered cfgData input (cycle + 1) =
      delivered cfgData input cycle ++
        (phaseAt cfgData input cycle).delivers := by
  rw [← deliveredWord_eq (i := input cycle)
    (shows_stateAt cfgData hrun cycle hcycle.le)]
  rfl

/-- The words accepted are those handed on and then the one inside. -/
theorem accepted_eq : ∀ cycle ≤ horizon,
    accepted cfgData input cycle =
      delivered cfgData input cycle ++
        (phaseAt cfgData input cycle).pending := by
  apply upTo_induction
  · rfl
  · intro cycle hcycle ih
    calc
      accepted cfgData input (cycle + 1) =
          delivered cfgData input cycle ++
            ((phaseAt cfgData input cycle).pending ++
              (phaseAt cfgData input cycle).accepts (offer (input cycle))) := by
        rw [accepted_succ hrun hcycle, ih, List.append_assoc]
      _ = delivered cfgData input (cycle + 1) ++
            (phaseAt cfgData input (cycle + 1)).pending := by
        rw [← Phase.delivers_pending cfgData.toNat
            (stateAt cfgData input cycle).decimator.intTreadyReg,
          ← List.append_assoc, ← delivered_succ hrun hcycle]
        rfl

/-- From the second cycle on the decimator is ready. -/
theorem ready_stateAt (hfactor : 0 < cfgData.toNat) {cycle : ℕ}
    (hcycle : cycle < horizon) :
    (stateAt cfgData input (cycle + 1)).decimator.intTreadyReg = true := by
  have hnext : ∀ before < horizon,
      (stateAt cfgData input (before + 1)).decimator.intTreadyReg =
        ((stateAt cfgData input before).decimator.intTreadyReg ||
          Decimator.intCompWire cfgData
            (stateAt cfgData input before).decimator) := by
    intro before hbefore
    have hdecimator : Decimator.step cfgData
        (stateAt cfgData input before).decimator
        (decimatorInput (stateAt cfgData input before) (input before)) = _ :=
      Decimator.step_taken (hrun before hbefore) rfl
    exact congrArg (·.intTreadyReg) hdecimator
  rw [hnext cycle hcycle]
  induction cycle with
  | zero =>
      have hcomp : Decimator.intCompWire cfgData
          (stateAt cfgData input 0).decimator = true :=
        (more_eq BitVec.toNat_zero).trans (decide_eq_true hfactor)
      rw [hcomp, Bool.or_true]
  | succ cycle ih =>
      rw [hnext cycle (by omega), ih (by omega), Bool.true_or]

theorem accepted_of_copying {word : BitVec axisTdataWidth}
    {copies cycle : ℕ} (hcycle : cycle < horizon)
    (hphase : phaseAt cfgData input cycle = .copying word copies) :
    accepted cfgData input (cycle + 1) = accepted cfgData input cycle := by
  rw [accepted_succ hrun hcycle, hphase]
  exact List.append_nil _

/-- After the missing copies the word is handed on, with none accepted. -/
theorem handing_of_copying (hfactor : 0 < cfgData.toNat)
    {word : BitVec axisTdataWidth} {copies missing cycle : ℕ}
    (hmissing : copies + missing = cfgData.toNat)
    (hcycle : cycle + missing + 2 ≤ horizon)
    (hphase : phaseAt cfgData input (cycle + 1) = .copying word copies) :
    phaseAt cfgData input (cycle + missing + 2) = .handing word ∧
      accepted cfgData input (cycle + missing + 2) =
        accepted cfgData input (cycle + 1) := by
  have hready : (stateAt cfgData input (cycle + 1)).decimator.intTreadyReg =
      true := ready_stateAt hrun hfactor (by omega)
  induction missing generalizing cycle copies with
  | zero =>
      constructor
      · rw [Nat.add_zero, phaseAt, hphase, hready, Phase.next, if_pos rfl,
          if_neg (by omega)]
      · exact accepted_of_copying hrun (by omega) hphase
  | succ missing ih =>
      have hphaseNext : phaseAt cfgData input (cycle + 1 + 1) =
          .copying word (copies + 1) := by
        rw [phaseAt, hphase, hready, Phase.next, if_pos rfl,
          if_pos (by omega)]
      obtain ⟨hhanding, haccepted⟩ := ih (by omega) (by omega) hphaseNext
        (ready_stateAt hrun hfactor (by omega))
      rw [show cycle + (missing + 1) + 2 = cycle + 1 + missing + 2 by omega]
      exact ⟨hhanding,
        haccepted.trans (accepted_of_copying hrun (by omega) hphase)⟩

theorem delivered_of_handing {word : BitVec axisTdataWidth} {cycle : ℕ}
    (hcycle : cycle < horizon)
    (hphase : phaseAt cfgData input cycle = .handing word) :
    delivered cfgData input (cycle + 1) = accepted cfgData input cycle := by
  rw [delivered_succ hrun hcycle, accepted_eq hrun cycle hcycle.le, hphase]
  rfl

/-- What has been accepted has been handed on `cfg_data + 2` cycles later. -/
theorem accepted_delivered (hfactor : 0 < cfgData.toNat) {cycle : ℕ}
    (hcycle : cycle + cfgData.toNat + 2 ≤ horizon) :
    ∃ later ≤ cycle + cfgData.toNat + 2,
      delivered cfgData input later = accepted cfgData input cycle := by
  cases hphase : phaseAt cfgData input cycle with
  | empty =>
      refine ⟨cycle, by omega, ?_⟩
      rw [accepted_eq hrun cycle (by omega), hphase]
      exact (List.append_nil _).symm
  | handing word =>
      exact ⟨cycle + 1, by omega, delivered_of_handing hrun (by omega) hphase⟩
  | copying word copies =>
      cases cycle with
      | zero => exact absurd hphase (by simp [phaseAt])
      | succ cycle =>
          have hshows := shows_stateAt cfgData hrun (cycle + 1) (by omega)
          rw [hphase] at hshows
          obtain ⟨missing, hmissing⟩ :=
            Nat.exists_eq_add_of_le hshows.2.2.2.2
          obtain ⟨hhanding, haccepted⟩ := handing_of_copying hrun hfactor
            hmissing.symm (by omega) hphase
          exact ⟨cycle + missing + 3, by omega,
            (delivered_of_handing hrun (by omega) hhanding).trans haccepted⟩

end Ledger

end Run

/-- Interpolation and then decimation by the same factor is the identity, for
every pattern of offers. -/
theorem resampling_identity (cfgData : BitVec cntrWidth)
    (hfactor : 1 ≤ cfgData.toNat) (input : ℕ → Input axisTdataWidth)
    (horizon : ℕ) (hrun : ∀ cycle < horizon, (input cycle).aresetn = true) :
    Identity cfgData input horizon where
  order := by
    intro cycle hcycle
    rw [accepted_eq hrun cycle hcycle]
    exact List.prefix_append _ _
  inside := by
    intro cycle hcycle
    rw [accepted_eq hrun cycle hcycle, List.length_append]
    exact Nat.add_le_add_left (Phase.length_pending_le _) _
  prompt := by
    intro cycle hcycle
    obtain ⟨later, hlater, hequal⟩ := accepted_delivered hrun hfactor hcycle
    rw [← hequal]
    exact Machine.log_isPrefix deliveredWord hlater

/-- A word is on offer in two cycles of three. -/
def burstyRun (cycle : ℕ) : Input 16 where
  aresetn := true
  sAxisTdata := BitVec.ofNat 16 cycle
  sAxisTvalid := decide (cycle % 3 ≠ 1)

theorem resampling_identity_burstyRun :
    Identity 2#8 burstyRun 30 :=
  resampling_identity 2#8 (by decide) burstyRun 30 (fun _ _ => rfl)

example : delivered 2#8 burstyRun 15 = [0#16, 5#16, 9#16] ∧
    accepted 2#8 burstyRun 15 = [0#16, 5#16, 9#16, 14#16] := by
  decide +kernel

end Rfsoc.Resampling
