import Rfsoc.Axis.Packetizer
import Rfsoc.Axis.TlastGen

/-!
# The two framers

`axis_packetizer` with `CONTINUOUS` compares its counter with `cfg_data` and
needs a cycle after reset to open; `axis_tlast_gen` compares with
`pkt_length - 1` and is always open.  Both show the position of the next beat
in its packet, so both frame their streams alike.
-/

namespace Rfsoc.Packetizer

open Rfsoc.Bits
open Rfsoc.Framing

variable {cntrWidth : ℕ} {Data : Type*}

/-- The continuous core between its two streams. -/
def stage (Data : Type*) (cfgData : BitVec cntrWidth) :
    Stage (State cntrWidth) (Input Data) Data where
  toMachine := core true cfgData
  inData := fun i => i.sAxisTdata
  inValid := fun i => i.sAxisTvalid
  inReady := sAxisTready
  outData := fun _ i => mAxisTdata i
  outValid := mAxisTvalid
  outReady := fun i => i.mAxisTready
  outLast := mAxisTlast cfgData

/-- The counter shows the position of the next beat; before the stream is open
that is the first. -/
def CountsTo (last : ℕ) (s : State cntrWidth) (position : ℕ) : Prop :=
  s.intCntrReg.toNat = position ∧ position ≤ last ∧
    (s.intEnblReg = false → position = 0)

section Step

variable {cfgData : BitVec cntrWidth} {s : State cntrWidth} {position : ℕ}

/-- With `CONTINUOUS`, the counter moves on a beat and the stream stays open. -/
theorem step_continuous {i : Input Data} (hrun : i.aresetn = true) :
    step true cfgData s i =
      { intCntrReg :=
          if beat s i then
            if intCompWire cfgData s then s.intCntrReg + 1 else 0
          else s.intCntrReg
        intEnblReg := s.intEnblReg || intCompWire cfgData s } := by
  have hbeat : (i.mAxisTready && intTvalidWire s i) = beat s i :=
    Bool.and_comm _ _
  rw [step, if_pos hrun, intCntrNext, intEnblNext, hbeat, intTlastWire]
  cases beat s i <;> cases intCompWire cfgData s <;> cases s.intEnblReg <;> rfl

theorem mAxisTlast_eq (hopens : 0 < cfgData.toNat)
    (hcounts : CountsTo cfgData.toNat s position) :
    mAxisTlast cfgData s = decide (position + 1 = cfgData.toNat + 1) := by
  obtain ⟨hcntr, hle, hfirst⟩ := hcounts
  rw [mAxisTlast, intTlastWire, intCompWire_eq, hcntr]
  cases henbl : s.intEnblReg with
  | false =>
      rw [hfirst henbl, Bool.false_and, eq_comm, decide_eq_false_iff_not]
      omega
  | true =>
      rw [Bool.true_and, ← decide_not, decide_eq_decide]
      omega

theorem countsTo_step {i : Input Data} (hrun : i.aresetn = true)
    (hcounts : CountsTo cfgData.toNat s position) :
    CountsTo cfgData.toNat (step true cfgData s i)
      (nextPosition (cfgData.toNat + 1) (beat s i) position) := by
  obtain ⟨hcntr, hle, hfirst⟩ := hcounts
  rw [step_continuous hrun, intCompWire_eq, hcntr, nextPosition]
  cases hbeat : beat s i with
  | false =>
      refine ⟨hcntr, hle, fun hclosed => hfirst ?_⟩
      exact (Bool.or_eq_false_iff.mp hclosed).1
  | true =>
      have henbl : s.intEnblReg = true := by
        by_contra hclosed
        rw [beat_of_closed (by simpa using hclosed)] at hbeat
        exact absurd hbeat Bool.false_ne_true
      by_cases hlast : position = cfgData.toNat
      · simp [hlast, CountsTo]
      · have hmore : position < cfgData.toNat := by omega
        have hnext : (s.intCntrReg + 1).toNat = position + 1 :=
          toNat_succ_of_lt hcntr (lt_of_le_of_lt hmore cfgData.isLt)
        rw [decide_eq_true hmore, henbl, if_pos rfl, if_pos rfl, if_pos rfl,
          if_neg (by omega)]
        exact ⟨hnext, hmore, fun hclosed => absurd hclosed (by simp)⟩

end Step

theorem showsPosition (Data : Type*) (cfgData : BitVec cntrWidth)
    (hopens : 0 < cfgData.toNat) :
    ShowsPosition (stage Data cfgData) (cfgData.toNat + 1)
      (fun i => i.aresetn = true) (CountsTo cfgData.toNat) where
  start := ⟨BitVec.toNat_zero, Nat.zero_le _, fun _ => rfl⟩
  slave := fun _ _ => beat_eq_slave.symm
  data := fun _ _ => rfl
  step := fun _ _ _ => countsTo_step
  last := fun _ _ => mAxisTlast_eq hopens

end Rfsoc.Packetizer

namespace Rfsoc.Framers

open Rfsoc.Framing

variable {Data : Type*}

/-- The two cores frame packets of `last + 1` beats alike, each under its own
valid and ready pattern. -/
theorem framers_agree (width last : ℕ) (hlow : 1 ≤ last)
    (hhigh : last < 2 ^ width - 1) (packetized : ℕ → Packetizer.Input Data)
    (generated : ℕ → TlastGen.Input Data) (horizon : ℕ)
    (hpacketized : ∀ cycle < horizon, (packetized cycle).aresetn = true)
    (hgenerated : ∀ cycle < horizon, (generated cycle).aresetn = true) :
    Framed (Packetizer.stage Data (BitVec.ofNat width last)) (last + 1)
        packetized horizon ∧
      Framed (TlastGen.stage Data (BitVec.ofNat width (last + 1))) (last + 1)
        generated horizon := by
  have hcfgData : (BitVec.ofNat width last).toNat = last := by
    rw [BitVec.toNat_ofNat, Nat.mod_eq_of_lt (by omega)]
  have hpktLength : (BitVec.ofNat width (last + 1)).toNat = last + 1 := by
    rw [BitVec.toNat_ofNat, Nat.mod_eq_of_lt (by omega)]
  constructor
  · have hshows := Packetizer.showsPosition Data (BitVec.ofNat width last)
      (hcfgData.symm ▸ hlow)
    rw [hcfgData] at hshows
    exact hshows.framed (Nat.succ_pos last) hpacketized
  · have hshows := TlastGen.showsPosition Data (BitVec.ofNat width (last + 1))
      (hpktLength.symm ▸ Nat.succ_pos last)
    rw [hpktLength] at hshows
    exact hshows.framed (Nat.succ_pos last) hgenerated

/-- The sink of `Packetizer.stallingRun` behind the generator. -/
def stallingRun (cycle : ℕ) : TlastGen.Input ℕ where
  aresetn := true
  sAxisTdata := cycle
  sAxisTvalid := true
  mAxisTready := decide (cycle % 3 ≠ 0)

theorem framers_agree_stallingRun :
    Framed (Packetizer.stage ℕ (BitVec.ofNat 8 2)) 3 Packetizer.stallingRun 12 ∧
      Framed (TlastGen.stage ℕ (BitVec.ofNat 8 3)) 3 stallingRun 12 :=
  framers_agree 8 2 (by decide) (by decide) Packetizer.stallingRun stallingRun 12
    (fun _ _ => rfl) (fun _ _ => rfl)

/-- Both mark every third beat. -/
example : ((Packetizer.stage ℕ 2#8).transferred Packetizer.stallingRun 12).map
      Prod.snd =
    ((TlastGen.stage ℕ 3#8).transferred stallingRun 12).map Prod.snd := by
  decide

end Rfsoc.Framers
