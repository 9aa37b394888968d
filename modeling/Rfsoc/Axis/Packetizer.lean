import Rfsoc.Core.Bits
import Rfsoc.Core.Clocked
import Mathlib.Data.BitVec
import Mathlib.Data.List.Basic

/-!
# The packetizer

`axis_packetizer` opens its stream after reset and counts the beats that pass;
the beat that finds the counter at `cfg_data` carries `m_axis_tlast`.  With
`CONTINUOUS` it counts the next packet, without it the stream is closed for
good.  The recorder sets `cfg_data` to one less than the number of samples it
wants.

The packet is compared with a machine of three phases: waiting for the first
clock edge, open with a number of beats sent, and closed.
-/

namespace Rfsoc.Packetizer

open Rfsoc.Bits
open Rfsoc.Clocked

variable {cntrWidth : ℕ} {Data : Type*}

structure State (cntrWidth : ℕ) where
  intCntrReg : BitVec cntrWidth
  intEnblReg : Bool

structure Input (Data : Type*) where
  aresetn : Bool
  sAxisTdata : Data
  sAxisTvalid : Bool
  mAxisTready : Bool

def intCompWire (cfgData : BitVec cntrWidth) (s : State cntrWidth) : Bool :=
  decide (s.intCntrReg < cfgData)

def intTvalidWire (s : State cntrWidth) (i : Input Data) : Bool :=
  s.intEnblReg && i.sAxisTvalid

def intTlastWire (cfgData : BitVec cntrWidth) (s : State cntrWidth) : Bool :=
  !intCompWire cfgData s

def sAxisTready (s : State cntrWidth) (i : Input Data) : Bool :=
  s.intEnblReg && i.mAxisTready

def mAxisTdata (i : Input Data) : Data :=
  i.sAxisTdata

def mAxisTvalid (s : State cntrWidth) (i : Input Data) : Bool :=
  intTvalidWire s i

def mAxisTlast (cfgData : BitVec cntrWidth) (s : State cntrWidth) : Bool :=
  s.intEnblReg && intTlastWire cfgData s

/-- `int_cntr_next` of `CONTINUOUS_G` and `STOP_G`. -/
def intCntrNext (continuous : Bool) (cfgData : BitVec cntrWidth)
    (s : State cntrWidth) (i : Input Data) : BitVec cntrWidth :=
  if i.mAxisTready && intTvalidWire s i && intCompWire cfgData s then
    s.intCntrReg + 1
  else if continuous &&
      (i.mAxisTready && intTvalidWire s i && intTlastWire cfgData s) then
    0
  else s.intCntrReg

/-- `int_enbl_next` of `CONTINUOUS_G` and `STOP_G`. -/
def intEnblNext (continuous : Bool) (cfgData : BitVec cntrWidth)
    (s : State cntrWidth) (i : Input Data) : Bool :=
  if !s.intEnblReg && intCompWire cfgData s then true
  else if !continuous &&
      (i.mAxisTready && intTvalidWire s i && intTlastWire cfgData s) then
    false
  else s.intEnblReg

def resetState : State cntrWidth where
  intCntrReg := 0
  intEnblReg := false

def step (continuous : Bool) (cfgData : BitVec cntrWidth) (s : State cntrWidth)
    (i : Input Data) : State cntrWidth :=
  if i.aresetn then
    { intCntrReg := intCntrNext continuous cfgData s i
      intEnblReg := intEnblNext continuous cfgData s i }
  else resetState

/-- The core with a constant `cfg_data`, from reset. -/
def core (continuous : Bool) (cfgData : BitVec cntrWidth) :
    Machine (State cntrWidth) (Input Data) where
  start := resetState
  step := step continuous cfgData

/-- Where the packet stands. -/
inductive Phase where
  | waiting
  | sending (sent : ℕ)
  | closed

namespace Phase

/-- A packet whose beats are numbered from 0 to `last`; an empty one is never
opened. -/
def next (last : ℕ) (beat : Bool) : Phase → Phase
  | waiting => if 0 < last then sending 0 else waiting
  | sending sent =>
      if beat then if sent < last then sending (sent + 1) else closed
      else sending sent
  | closed => closed

/-- The beats sent so far. -/
def beats (last : ℕ) : Phase → ℕ
  | waiting => 0
  | sending sent => sent
  | closed => last + 1

end Phase

/-- The registers of each phase. -/
def Shows (last : ℕ) (s : State cntrWidth) : Phase → Prop
  | .waiting => s.intEnblReg = false ∧ s.intCntrReg.toNat = 0
  | .sending sent =>
      s.intEnblReg = true ∧ s.intCntrReg.toNat = sent ∧
        sent ≤ last ∧ 0 < last
  | .closed =>
      s.intEnblReg = false ∧ s.intCntrReg.toNat = last ∧ 0 < last

/-- A beat passes. -/
def beat (s : State cntrWidth) (i : Input Data) : Bool :=
  mAxisTvalid s i && i.mAxisTready

section Step

variable {cfgData : BitVec cntrWidth} {s : State cntrWidth} {i : Input Data}

/-- Both sides see the same handshakes. -/
theorem beat_eq_slave : beat s i = (i.sAxisTvalid && sAxisTready s i) := by
  rw [beat, mAxisTvalid, intTvalidWire, sAxisTready]
  cases s.intEnblReg <;> simp

theorem intCompWire_eq :
    intCompWire cfgData s =
      decide (s.intCntrReg.toNat < cfgData.toNat) := rfl

theorem beat_of_closed (henbl : s.intEnblReg = false) : beat s i = false := by
  simp [beat, mAxisTvalid, intTvalidWire, henbl]

/-- Without `CONTINUOUS`, the registers move on a beat, or open. -/
theorem step_stop (hrun : i.aresetn = true) :
    step false cfgData s i =
      { intCntrReg :=
          if beat s i && intCompWire cfgData s then s.intCntrReg + 1
          else s.intCntrReg
        intEnblReg :=
          if !s.intEnblReg && intCompWire cfgData s then true
          else if beat s i && !intCompWire cfgData s then false
          else s.intEnblReg } := by
  rw [step, if_pos hrun]
  simp [intCntrNext, intEnblNext, intTlastWire, beat, mAxisTvalid,
    Bool.and_comm]

/-- One clock edge moves the registers as the phase moves. -/
theorem shows_step (hrun : i.aresetn = true) {phase : Phase}
    (hshows : Shows cfgData.toNat s phase) :
    Shows cfgData.toNat (step false cfgData s i)
      (phase.next cfgData.toNat (beat s i)) := by
  rw [step_stop hrun, intCompWire_eq]
  cases phase with
  | waiting =>
      obtain ⟨henbl, hcntr⟩ := hshows
      rw [beat_of_closed henbl, henbl, hcntr]
      by_cases hopen : 0 < cfgData.toNat
      · simp [Phase.next, Shows, hopen, hcntr]
      · simp [Phase.next, Shows, hopen, hcntr]
  | sending sent =>
      obtain ⟨henbl, hcntr, hle, hpos⟩ := hshows
      rw [henbl, hcntr]
      cases hbeat : beat s i with
      | false =>
          exact ⟨rfl, hcntr, hle, hpos⟩
      | true =>
          by_cases hlast : sent < cfgData.toNat
          · have hroom : sent + 1 < 2 ^ cntrWidth :=
              lt_of_le_of_lt hlast cfgData.isLt
            have hnext : (s.intCntrReg + 1).toNat = sent + 1 :=
              toNat_succ_of_lt hcntr hroom
            simp only [Phase.next, Shows, hlast, hpos, hnext, decide_true,
              Bool.and_self, if_true, and_true]
            simp [Nat.succ_le_of_lt hlast]
          · have hfull : sent = cfgData.toNat := by omega
            simp [Phase.next, Shows, hpos, hcntr, hfull]
  | closed =>
      obtain ⟨henbl, hcntr, hpos⟩ := hshows
      rw [beat_of_closed henbl, henbl, hcntr]
      simp [Phase.next, Shows, hcntr, hpos]

/-- The beats of a phase grow by the beats that pass. -/
theorem beats_next {phase : Phase} (hshows : Shows cfgData.toNat s phase) :
    (phase.next cfgData.toNat (beat s i)).beats cfgData.toNat =
      phase.beats cfgData.toNat + (beat s i).toNat := by
  cases phase with
  | waiting =>
      rw [beat_of_closed hshows.1, Phase.next]
      split <;> rfl
  | sending sent =>
      obtain ⟨-, -, hle, -⟩ := hshows
      cases hbeat : beat s i with
      | false => rfl
      | true =>
          by_cases hlast : sent < cfgData.toNat
          · simp [Phase.next, Phase.beats, hlast]
          · have hfull : sent = cfgData.toNat := by omega
            simp [Phase.next, Phase.beats, hfull]
  | closed =>
      rw [beat_of_closed hshows.1]
      rfl

/-- A beat carries `m_axis_tlast` when it is the one numbered `cfg_data`. -/
theorem mAxisTlast_of_beat {phase : Phase}
    (hshows : Shows cfgData.toNat s phase) (hbeat : beat s i = true) :
    mAxisTlast cfgData s =
      decide (phase.beats cfgData.toNat = cfgData.toNat) := by
  cases phase with
  | waiting =>
      rw [beat_of_closed hshows.1] at hbeat
      exact absurd hbeat Bool.false_ne_true
  | sending sent =>
      obtain ⟨henbl, hcntr, hle, -⟩ := hshows
      rw [mAxisTlast, intTlastWire, intCompWire_eq, henbl, hcntr, Phase.beats,
        Bool.true_and, ← decide_not, decide_eq_decide]
      omega
  | closed =>
      rw [beat_of_closed hshows.1] at hbeat
      exact absurd hbeat Bool.false_ne_true

/-- An open stream passes both handshakes on. -/
theorem ports_of_open (henbl : s.intEnblReg = true) :
    sAxisTready s i = i.mAxisTready ∧ mAxisTvalid s i = i.sAxisTvalid := by
  constructor
  · rw [sAxisTready, henbl, Bool.true_and]
  · rw [mAxisTvalid, intTvalidWire, henbl, Bool.true_and]

theorem ports_of_closed (henbl : s.intEnblReg = false) :
    sAxisTready s i = false ∧ mAxisTvalid s i = false := by
  constructor
  · rw [sAxisTready, henbl, Bool.false_and]
  · rw [mAxisTvalid, intTvalidWire, henbl, Bool.false_and]

end Step

namespace Shows

variable {s : State cntrWidth} {last : ℕ} {phase : Phase}
  (hshows : Shows last s phase)
include hshows

theorem counter_le : s.intCntrReg.toNat ≤ last := by
  cases phase with
  | waiting =>
      rw [hshows.2]
      exact Nat.zero_le last
  | sending sent =>
      rw [hshows.2.1]
      exact hshows.2.2.1
  | closed => exact hshows.2.1.le

theorem beats_le : phase.beats last ≤ last + 1 := by
  cases phase with
  | waiting => exact Nat.zero_le _
  | sending sent => exact Nat.le_succ_of_le hshows.2.2.1
  | closed => exact le_rfl

/-- Once begun, the stream is open as long as a beat is missing. -/
theorem enabled (hbegun : phase ≠ .waiting)
    (hmissing : phase.beats last ≤ last) : s.intEnblReg = true := by
  cases phase with
  | waiting => exact absurd rfl hbegun
  | sending sent => exact hshows.1
  | closed => exact absurd hmissing (Nat.not_succ_le_self last)

/-- With all beats sent the packet is closed. -/
theorem eq_closed (hall : phase.beats last = last + 1) : phase = .closed := by
  cases phase with
  | waiting => exact absurd hall.symm (Nat.succ_ne_zero last)
  | sending sent =>
      have hfull : sent = last + 1 := hall
      have hroom : sent ≤ last := hshows.2.2.1
      omega
  | closed => rfl

end Shows

section Run

variable (cfgData : BitVec cntrWidth) (input : ℕ → Input Data)

def stateAt (cycle : ℕ) : State cntrWidth :=
  (core false cfgData).stateAt input cycle

/-- The beats accepted on the slave side before a cycle. -/
def accepted : ℕ → List Data :=
  (core false cfgData).log input fun s i =>
    if i.sAxisTvalid && sAxisTready s i then [i.sAxisTdata] else []

/-- The beats transferred on the master side before a cycle, with their
`m_axis_tlast`. -/
def transferred : ℕ → List (Data × Bool) :=
  (core false cfgData).log input fun s i =>
    if mAxisTvalid s i && i.mAxisTready then
      [(mAxisTdata i, mAxisTlast cfgData s)]
    else []

def phaseAt : ℕ → Phase
  | 0 => .waiting
  | cycle + 1 =>
      (phaseAt cycle).next cfgData.toNat
        (beat (stateAt cfgData input cycle) (input cycle))

/-- One packet, up to a horizon. -/
structure OnePacket (horizon : ℕ) : Prop where
  /-- With `cfg_data` zero nothing is transferred. -/
  nothing : cfgData.toNat = 0 → ∀ cycle ≤ horizon,
    transferred cfgData input cycle = []
  /-- The transferred beats are the accepted ones, and `m_axis_tlast` marks the
  beat numbered `cfg_data`. -/
  carried : ∀ cycle ≤ horizon, transferred cfgData input cycle =
    (accepted cfgData input cycle).mapIdx fun number word =>
      (word, decide (number = cfgData.toNat))
  bounded : ∀ cycle ≤ horizon,
    (transferred cfgData input cycle).length ≤ cfgData.toNat + 1
  /-- Before the last beat the stream is open from the second cycle on. -/
  opened : ∀ cycle ≤ horizon, 0 < cycle → 0 < cfgData.toNat →
    (transferred cfgData input cycle).length ≤ cfgData.toNat →
    sAxisTready (stateAt cfgData input cycle) (input cycle) =
        (input cycle).mAxisTready ∧
      mAxisTvalid (stateAt cfgData input cycle) (input cycle) =
        (input cycle).sAxisTvalid
  /-- After the last beat it is closed for ever. -/
  closed : ∀ cycle ≤ horizon,
    (transferred cfgData input cycle).length = cfgData.toNat + 1 →
    ∀ late, cycle ≤ late → late ≤ horizon →
      sAxisTready (stateAt cfgData input late) (input late) = false ∧
        mAxisTvalid (stateAt cfgData input late) (input late) = false
  counter : ∀ cycle ≤ horizon,
    (stateAt cfgData input cycle).intCntrReg.toNat ≤ cfgData.toNat

variable {cfgData input} {horizon : ℕ}

variable (cfgData) in
/-- The core is in the registers of the run's phase. -/
theorem shows_stateAt (hrun : ∀ cycle < horizon, (input cycle).aresetn = true) :
    ∀ cycle ≤ horizon, Shows cfgData.toNat (stateAt cfgData input cycle)
      (phaseAt cfgData input cycle) := by
  refine upTo_induction horizon ?_ ?_
  · exact ⟨rfl, BitVec.toNat_zero⟩
  · intro cycle hcycle ih
    exact shows_step (hrun cycle hcycle) ih

theorem accepted_succ (cycle : ℕ) :
    accepted cfgData input (cycle + 1) =
      accepted cfgData input cycle ++
        if beat (stateAt cfgData input cycle) (input cycle) then
          [(input cycle).sAxisTdata]
        else [] := by
  rw [beat_eq_slave]
  rfl

theorem transferred_succ (cycle : ℕ) :
    transferred cfgData input (cycle + 1) =
      transferred cfgData input cycle ++
        if beat (stateAt cfgData input cycle) (input cycle) then
          [((input cycle).sAxisTdata,
            mAxisTlast cfgData (stateAt cfgData input cycle))]
        else [] := rfl

variable (cfgData) in
theorem length_transferred
    (hrun : ∀ cycle < horizon, (input cycle).aresetn = true) :
    ∀ cycle ≤ horizon, (transferred cfgData input cycle).length =
      (phaseAt cfgData input cycle).beats cfgData.toNat := by
  refine upTo_induction horizon rfl ?_
  intro cycle hcycle ih
  rw [phaseAt, beats_next (shows_stateAt cfgData hrun cycle hcycle.le), ← ih,
    transferred_succ, List.length_append]
  cases beat (stateAt cfgData input cycle) (input cycle) <;> rfl

/-- The transferred beats are the accepted ones, each with its number. -/
theorem transferred_eq
    (hrun : ∀ cycle < horizon, (input cycle).aresetn = true) :
    ∀ cycle ≤ horizon, transferred cfgData input cycle =
      (accepted cfgData input cycle).mapIdx fun number word =>
        (word, decide (number = cfgData.toNat)) := by
  refine upTo_induction horizon rfl ?_
  intro cycle hcycle ih
  have hcount := length_transferred cfgData hrun cycle hcycle.le
  rw [ih, List.length_mapIdx] at hcount
  rw [transferred_succ, accepted_succ, ih]
  cases hbeat : beat (stateAt cfgData input cycle) (input cycle) with
  | false =>
      change _ ++ [] = List.mapIdx _ (_ ++ [])
      rw [List.append_nil, List.append_nil]
  | true =>
      rw [if_pos rfl, if_pos rfl, List.mapIdx_concat, hcount,
        mAxisTlast_of_beat (shows_stateAt cfgData hrun cycle hcycle.le) hbeat]

/-- With beats numbered from 0 to zero the packet is never opened. -/
theorem phaseAt_of_zero (hzero : cfgData.toNat = 0) (cycle : ℕ) :
    phaseAt cfgData input cycle = .waiting := by
  induction cycle with
  | zero => rfl
  | succ cycle ih =>
      rw [phaseAt, ih, hzero]
      rfl

/-- Otherwise the first clock edge opens it. -/
theorem phaseAt_ne_waiting (hpos : 0 < cfgData.toNat) {cycle : ℕ}
    (hcycle : 0 < cycle) : phaseAt cfgData input cycle ≠ .waiting := by
  cases cycle with
  | zero => exact absurd hcycle (Nat.lt_irrefl 0)
  | succ cycle =>
      rw [phaseAt]
      cases phaseAt cfgData input cycle with
      | waiting => simp [Phase.next, hpos]
      | sending sent =>
          rw [Phase.next]
          split <;> [split; skip] <;> exact Phase.noConfusion
      | closed => exact Phase.noConfusion

theorem phaseAt_closed {cycle : ℕ}
    (hclosed : phaseAt cfgData input cycle = .closed) {late : ℕ}
    (hle : cycle ≤ late) : phaseAt cfgData input late = .closed := by
  induction late, hle using Nat.le_induction with
  | base => exact hclosed
  | succ late _ ih =>
      rw [phaseAt, ih]
      rfl

end Run

/-- Without `CONTINUOUS` the packetizer sends one packet. -/
theorem packetizer_onePacket (cfgData : BitVec cntrWidth)
    (input : ℕ → Input Data) (horizon : ℕ)
    (hrun : ∀ cycle < horizon, (input cycle).aresetn = true) :
    OnePacket cfgData input horizon where
  nothing := by
    intro hzero cycle hcycle
    have hcount := length_transferred cfgData hrun cycle hcycle
    rw [phaseAt_of_zero hzero] at hcount
    exact List.eq_nil_of_length_eq_zero hcount
  carried := transferred_eq hrun
  bounded := by
    intro cycle hcycle
    rw [length_transferred cfgData hrun cycle hcycle]
    exact (shows_stateAt cfgData hrun cycle hcycle).beats_le
  opened := by
    intro cycle hcycle hlater hpos hmissing
    rw [length_transferred cfgData hrun cycle hcycle] at hmissing
    apply ports_of_open
    exact (shows_stateAt cfgData hrun cycle hcycle).enabled
      (phaseAt_ne_waiting hpos hlater) hmissing
  closed := by
    intro cycle hcycle hall late hle hlate
    rw [length_transferred cfgData hrun cycle hcycle] at hall
    have hclosed := (shows_stateAt cfgData hrun cycle hcycle).eq_closed hall
    have hshows := shows_stateAt cfgData hrun late hlate
    rw [phaseAt_closed hclosed hle] at hshows
    exact ports_of_closed hshows.1
  counter := fun cycle hcycle =>
    (shows_stateAt cfgData hrun cycle hcycle).counter_le

/-- A sink that stalls every third cycle takes four beats. -/
def stallingRun (cycle : ℕ) : Input ℕ where
  aresetn := true
  sAxisTdata := cycle
  sAxisTvalid := true
  mAxisTready := decide (cycle % 3 ≠ 0)

theorem packetizer_onePacket_stallingRun :
    OnePacket 3#8 stallingRun 12 ∧
      transferred 3#8 stallingRun 12 =
        [(1, false), (2, false), (4, false), (5, true)] :=
  ⟨packetizer_onePacket 3#8 stallingRun 12 (by decide), by decide⟩

end Rfsoc.Packetizer
