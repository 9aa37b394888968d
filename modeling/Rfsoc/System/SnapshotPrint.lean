import Rfsoc.System.Snapshot

/-!
# The printed packet

The ring takes the words of the packet from the second line of the script on, and
the program prints them a second after the last one.  What it has printed is about
the words of the packet, in their order.
-/

namespace Rfsoc.Snapshot

open Rfsoc.CfgBus
open Rfsoc.CfgRegister
open Rfsoc.CfgScript
open Rfsoc.Clocked
open Rfsoc.Packetizer
open Rfsoc.Storage
open Rfsoc.Stream
open Rfsoc.WidthConverter

variable {axiIdWidth : ℕ} {Conv : Type*} {design : Design}

section Run

variable {converter : Core Conv (Sample × Bool) (BitVec 64)}
  {core : CfgRegister.State design.cfgSize} {packetizer : Packetizer.State 32}
  {storage : Storage.State axiIdWidth Conv} {input : ℕ → Input}

/-- The place in the packet that the next turn of the program loads. -/
def loads (s : State design axiIdWidth Conv) : Option ℕ :=
  match s.bus.master.program with
  | .after (.printing values) =>
      if values.length < total then some values.length else none
  | _ => none

variable (converter core packetizer storage input) in
/-- What the design and the program rely on: the second line comes when no burst
is owed to the memory port; from then on the port accepts the address of a burst
by the time its data is due and no word is asked of an empty FIFO; and a word is
stored when the program loads it. -/
structure Attended (horizon : ℕ) : Prop where
  whole : ∀ cycle < horizon,
    lineCount converter core packetizer storage input cycle = 1 →
    2 ≤ lineCount converter core packetizer storage input (cycle + 1) →
      (stateAt converter core packetizer storage input
          (cycle + 1)).storage.memory.port.beats =
        16 * (stateAt converter core packetizer storage input
          (cycle + 1)).storage.memory.port.starts.length
  fifo : ∀ cycle < horizon,
    2 ≤ lineCount converter core packetizer storage input cycle →
      RamWriter.intRdenWire
          (stateAt converter core packetizer storage input
            cycle).storage.memory.writer
          (input cycle).ports = true →
        (stateAt converter core packetizer storage input
          cycle).storage.memory.writer.fifo ≠ []
  address : ∀ cycle ≤ horizon,
    2 ≤ lineCount converter core packetizer storage input cycle →
      (stateAt converter core packetizer storage input
          cycle).storage.memory.port.beats ≤
        16 * (stateAt converter core packetizer storage input
          cycle).storage.memory.port.starts.length
  drained : ∀ cycle < horizon, (input cycle).turn = true →
    ∀ k ∈ loads (stateAt converter core packetizer storage input cycle),
      k / 2 < stored converter core packetizer storage input cycle

section Storage

variable {cycle horizon : ℕ} (hreset : core.resetS = false)
  (hrest : Resting core packetizer)
include hreset hrest

theorem length_samples_le (cycle : ℕ) :
    (samples converter core packetizer storage input cycle).length ≤ total := by
  obtain hbefore | ⟨phase, hsending⟩ := before_or_sending hreset hrest cycle
  · rw [samples, hbefore.empty]
    exact Nat.zero_le _
  · rw [← hsending.beats]
    exact hsending.shows.beats_le

/-- The marks do not get in the way of the pairs. -/
theorem run_pairing_packet (alone : Sample → BitVec 64) (cycle : ℕ) :
    (pairing alone).run none
        (packet converter core packetizer storage input cycle) =
      pairs (samples converter core packetizer storage input cycle) := by
  obtain hbefore | ⟨phase, hsending⟩ := before_or_sending hreset hrest cycle
  · rw [samples, hbefore.empty]
    rfl
  · rw [hsending.framed]
    exact run_framing_pairing alone (by decide) (dvd_zero 2) (by decide) _

/-- A count above one has begun in the cycle after that of the second line, before
the packet. -/
theorem exists_second_line
    (hcount : 2 ≤ lineCount converter core packetizer storage input cycle) :
    ∃ made < cycle,
      lineCount converter core packetizer storage input made = 1 ∧
      (packet converter core packetizer storage input (made + 1) = [] ∧
        stored converter core packetizer storage input (made + 1) = 0) ∧
      ∀ between, made < between → between ≤ cycle →
        2 ≤ lineCount converter core packetizer storage input between := by
  have hstep := lineCount_succ converter packetizer storage input hreset
  have hzero : lineCount converter core packetizer storage input 0 ≤ 1 := by
    rw [lineCount_zero]
    exact Nat.zero_le 1
  obtain ⟨made, hlt, hline, hsince⟩ := exists_line hstep hzero hcount
  refine ⟨made, hlt, hline, ⟨?_, ?_⟩, hsince⟩
  · have hearly := hstep made
    have hlength := (length_script_le design).1
    obtain hbefore | ⟨phase, hsending⟩ :=
      before_or_sending hreset hrest (made + 1)
    · exact hbefore.empty
    · have hlate := hsending.late
      omega
  · refine stored_of_early fun before hbefore => ?_
    rw [← hline]
    exact count_mono hstep (Nat.le_of_lt_succ hbefore)

variable (hshreg : storage.memory.writer.resetShreg = 0)
  (hattended : Attended converter core packetizer storage input horizon)
include hshreg hattended

/-- The second line releases the storage. -/
theorem exists_released (hcycle : cycle ≤ horizon)
    (hcount : 2 ≤ lineCount converter core packetizer storage input cycle) :
    ∃ old memory release, Released converter
      (fun between =>
        (stateAt converter core packetizer storage input between).storage)
      (fun between => storageInput converter
        (stateAt converter core packetizer storage input between)
        (input between))
      old memory (packet converter core packetizer storage input)
      (stored converter core packetizer storage input) release cycle := by
  obtain ⟨made, hlt, hline, hempty, hsince⟩ :=
    exists_second_line hreset hrest hcount
  have hslices := slices_stateAt converter packetizer storage input hreset
  have hlow : slice3 (stateAt converter core packetizer storage input
      made).bus.core = false := by
    rw [(hslices made).storage (by omega), hline]
    rfl
  have hrun : ∀ between, made + 1 ≤ between → between ≤ cycle →
      slice3 (stateAt converter core packetizer storage input
        between).bus.core = true := by
    intro between hfirst hlast
    have hmade : 2 ≤ lineCount converter core packetizer storage input between :=
      hsince between hfirst hlast
    rw [(hslices between).storage (by omega), decide_eq_true hmade]
  have hwhole := hattended.whole made (by omega) hline
    (hsince (made + 1) (Nat.lt_succ_self made) hlt)
  refine ⟨_, _, made + 1, hlt,
    resetStep_low (resetShreg_stateAt hshreg made) hlow hwhole,
    hempty, ?_, ?_, ?_, ?_, ?_⟩
  · intro between hfirst hlast
    have hhigh := hrun between hfirst hlast.le
    exact ⟨hhigh, resetStep_high hhigh⟩
  · intro between hfirst hlast
    rw [packet_succ, packetWord_eq _ _ _ _ _ (hsince between hfirst hlast.le)]
    rfl
  · intro between hfirst hlast
    rw [stored_succ]
    exact congrArg (_ + List.length ·)
      (if_pos (hsince between hfirst hlast.le))
  · intro between hfirst hlast
    exact hattended.fifo between (by omega) (hsince between hfirst hlast.le)
  · intro between hfirst hlast
    exact hattended.address between (by omega) (hsince between hfirst hlast)

/-- From the second line on the ring holds the words of the packet, as far as they
are stored. -/
theorem value_eq_sample {alone : Sample → BitVec 64}
    {shows : Conv → Option Sample → List (BitVec 64) → Prop}
    (hconverter : Realizes converter (pairing alone) (fun _ _ => True) shows)
    (hempty : shows converter.start none []) (hcycle : cycle ≤ horizon)
    (hcount : 2 ≤ lineCount converter core packetizer storage input cycle) :
    stored converter core packetizer storage input cycle ≤
      (samples converter core packetizer storage input cycle).length / 2 ∧
    ∀ k, k / 2 < stored converter core packetizer storage input cycle →
      stored converter core packetizer storage input cycle ≤
        k / 2 + 2 ^ addrWidth →
      (samples converter core packetizer storage input cycle)[k]?.map channels =
        some (value (stateAt converter core packetizer storage input
          cycle).storage.memory.port (4 * (k % 2 ^ 23))) := by
  obtain ⟨old, memory, release, hreleased⟩ :=
    exists_released hreset hrest hshreg hattended hcycle hcount
  obtain ⟨later, rfl⟩ := Nat.exists_eq_add_of_le hreleased.before
  exact hreleased.holds hconverter hempty
    (run_pairing_packet hreset hrest alone _)

end Storage

variable (converter core packetizer storage input) in
/-- The loads so far are the beginning of the packet. -/
structure Loaded (cycle : ℕ) (values : List Value) : Prop where
  le : values.length ≤ total
  values : values = ((samples converter core packetizer storage input cycle).take
    values.length).map channels

variable (converter core packetizer storage input) in
/-- What the program knows in its places. -/
def Follows (cycle : ℕ) : Place → Prop
  | .printing values =>
      Loaded converter core packetizer storage input cycle values
  | .printed values =>
      Loaded converter core packetizer storage input cycle values ∧
        values.length = total

section Program

variable {cycle horizon : ℕ} {values : List Value} {place : Place}

theorem lineCount_of_after
    (hplace : programAt converter core packetizer storage input cycle =
      .after place) :
    lineCount converter core packetizer storage input cycle =
      design.script.length := by
  rw [programAt, bus_stateAt] at hplace
  rw [lineCount_eq]
  exact CfgScript.lineCount_of_after hplace

/-- A packet that has grown begins as it did. -/
theorem Loaded.succ
    (hloaded : Loaded converter core packetizer storage input cycle values) :
    Loaded converter core packetizer storage input (cycle + 1) values := by
  have hlength := congrArg List.length hloaded.values
  rw [List.length_map, List.length_take] at hlength
  refine ⟨hloaded.le, ?_⟩
  rw [samples, packet_succ, List.map_append, ← samples,
    List.take_append_of_le_length (by omega)]
  exact hloaded.values

theorem Follows.succ
    (hfollows : Follows converter core packetizer storage input cycle place) :
    Follows converter core packetizer storage input (cycle + 1) place := by
  cases place with
  | printing values => exact Loaded.succ hfollows
  | printed values => exact ⟨hfollows.1.succ, hfollows.2⟩

theorem Follows.loaded
    (hfollows : Follows converter core packetizer storage input cycle place) :
    Loaded converter core packetizer storage input cycle place.values := by
  cases place with
  | printing values => exact hfollows
  | printed values => exact hfollows.1

variable (hreset : core.resetS = false)
include hreset

/-- The program goes on in its place, comes from its script, or makes a move by
what it sees. -/
theorem programAt_succ
    (hplace : programAt converter core packetizer storage input (cycle + 1) =
      .after place) :
    programAt converter core packetizer storage input cycle = .after place ∨
      place = .printing [] ∨
      ∃ before, programAt converter core packetizer storage input cycle =
          .after before ∧ (input cycle).turn = true ∧
        place = move before (stateAt converter core packetizer storage input
          cycle).storage.memory.port := by
  rw [programAt, bus_stateAt] at hplace ⊢
  obtain hstay | hfirst | ⟨before, seen, hbefore, hseen, hmoved⟩ :=
    after_cases hreset (readsInRange design) hplace
  · exact Or.inl hstay
  · exact Or.inr (Or.inl hfirst)
  · change (if (input cycle).turn then some _ else none) = some seen at hseen
    split at hseen
    case isTrue hturn =>
      refine Or.inr (Or.inr ⟨before, hbefore, hturn, ?_⟩)
      rw [hmoved, ← Option.some.inj hseen]
      rfl
    case isFalse => cases hseen

section Attended

variable (hrest : Resting core packetizer)
  (hshreg : storage.memory.writer.resetShreg = 0)
  (hattended : Attended converter core packetizer storage input horizon)
  {alone : Sample → BitVec 64}
  {shows : Conv → Option Sample → List (BitVec 64) → Prop}
  (hconverter : Realizes converter (pairing alone) (fun _ _ => True) shows)
  (hempty : shows converter.start none [])
include hrest hshreg hattended hconverter hempty

/-- What the program knows stays true with its next move. -/
theorem Follows.move (hcycle : cycle < horizon)
    (hturn : (input cycle).turn = true)
    (hplace : programAt converter core packetizer storage input cycle =
      .after place)
    (hfollows : Follows converter core packetizer storage input cycle place) :
    Follows converter core packetizer storage input cycle
      (Snapshot.move place (stateAt converter core packetizer storage input
        cycle).storage.memory.port) := by
  cases place with
  | printing values =>
      obtain ⟨hle, hvalues⟩ := hfollows
      rw [Snapshot.move]
      split
      case isTrue hmore =>
        have hlength := (length_script_le design).1
        have hcount := lineCount_of_after hplace
        obtain ⟨hbeats, hvalue⟩ := value_eq_sample hreset hrest hshreg hattended
          hconverter hempty hcycle.le (by omega)
        have hloads : loads
            (stateAt converter core packetizer storage input cycle) =
              some values.length := by
          rw [loads, ← programAt, hplace]
          exact if_pos hmore
        have hdrained := hattended.drained cycle hcycle hturn _ hloads
        have hshort : (samples converter core packetizer storage input
            cycle).length ≤ total := length_samples_le hreset hrest cycle
        have htotal : total = 1048576 := rfl
        have hring : 2 ^ addrWidth = 4194304 := rfl
        have hsample := hvalue values.length hdrained (by omega)
        rw [Nat.mod_eq_of_lt (by omega)] at hsample
        refine ⟨?_, ?_⟩
        · rw [List.length_append, List.length_singleton]
          exact hmore
        · rw [List.length_append, List.length_singleton, List.take_add_one,
            List.map_append, ← hvalues, ← Option.toList_some, ← hsample,
            Option.toList_map]
      case isFalse hall => exact ⟨⟨hle, hvalues⟩, by omega⟩
  | printed values => exact hfollows

/-- In every cycle the program knows what its place says. -/
theorem follows_stateAt :
    ∀ cycle ≤ horizon, ∀ place,
      programAt converter core packetizer storage input cycle = .after place →
        Follows converter core packetizer storage input cycle place := by
  apply upTo_induction
  · intro place hplace
    cases hplace
  · intro cycle hcycle ih place hplace
    obtain hstay | rfl | ⟨before, hbefore, hturn, rfl⟩ :=
      programAt_succ hreset hplace
    · exact (ih place hstay).succ
    · exact ⟨Nat.zero_le _, rfl⟩
    · exact ((ih before hbefore).move hreset hrest hshreg hattended hconverter
        hempty hcycle hturn hbefore).succ

end Attended

end Program

/-- The lines that a word of the packet stands for. -/
def Design.lines : Design → Sample → List LagoRecorder.Line
  | adcRecorder, word =>
      [.pair (LagoRecorder.value0 word).toInt (LagoRecorder.value1 word).toInt]
  | lago, word => LagoRecorder.decode word

theorem line_channels (design : Design) (word : Sample) :
    design.line (channels word) = design.lines word := by
  cases design with
  | adcRecorder => rfl
  | lago =>
      refine congrArg LagoRecorder.decode ?_
      apply BitVec.eq_of_getLsbD_eq
      intro bit hbit
      rw [channels, BitVec.getLsbD_append, BitVec.getLsbD_extractLsb',
        BitVec.getLsbD_extractLsb']
      by_cases hlow : bit < 16
      · simp [hlow]
      · have hplace : 16 + (bit - 16) = bit := by omega
        have hhigh : bit - 16 < 16 := by omega
        simp [hlow, hplace, hhigh]

theorem flatMap_line (design : Design) (words : List Sample) :
    (words.map channels).flatMap design.line = words.flatMap design.lines := by
  rw [List.flatMap_map]
  exact congrArg (words.flatMap ·) (funext (line_channels design))

variable (converter core packetizer storage input) in
/-- The design at a cycle. -/
structure Recorded (cycle : ℕ) : Prop where
  /-- From the cycle after the last line on the packet is open until it is
  complete. -/
  gapless : ∀ before < cycle,
    lineCount converter core packetizer storage input before =
        design.script.length →
      (samples converter core packetizer storage input
          (before + 1)).length < total →
        (stateAt converter core packetizer storage input
          (before + 1)).packetizer.intEnblReg = true
  /-- The ring holds the words of the packet. -/
  stored : 2 ≤ lineCount converter core packetizer storage input cycle →
    ∀ k, k / 2 < stored converter core packetizer storage input cycle →
      stored converter core packetizer storage input cycle ≤
        k / 2 + 2 ^ addrWidth →
      (samples converter core packetizer storage input cycle)[k]?.map channels =
        some (value (stateAt converter core packetizer storage input
          cycle).storage.memory.port (4 * (k % 2 ^ 23)))
  /-- What has been printed is about the words of the packet in their order. -/
  shown : ∀ place,
    programAt converter core packetizer storage input cycle = .after place →
      place.values.length ≤ total ∧
      place.values.flatMap design.line =
        ((samples converter core packetizer storage input cycle).take
          place.values.length).flatMap design.lines
  /-- The program ends with the whole packet. -/
  complete : ∀ values,
    programAt converter core packetizer storage input cycle =
        .after (.printed values) →
      (samples converter core packetizer storage input cycle).length = total ∧
      values.flatMap design.line =
        (samples converter core packetizer storage input cycle).flatMap
          design.lines

theorem Loaded.flatMap_eq {cycle : ℕ} {values : List Value}
    (hloaded : Loaded converter core packetizer storage input cycle values) :
    values.flatMap design.line =
      ((samples converter core packetizer storage input cycle).take
        values.length).flatMap design.lines := by
  rw [← flatMap_line, ← hloaded.values]

end Run

/-- The programs print the packet: in every run in which no burst is cut short, no
word is asked of an empty FIFO and a second is long enough, the ring holds the words
that the packetizer lets through from the last line of the script on, without a gap,
and the lines printed are those of these words in their order. -/
theorem snapshot_prints (design : Design)
    (converter : Core Conv (Sample × Bool) (BitVec 64))
    (alone : Sample → BitVec 64)
    (shows : Conv → Option Sample → List (BitVec 64) → Prop)
    (hconverter : Realizes converter (pairing alone) (fun _ _ => True) shows)
    (hempty : shows converter.start none [])
    (core : CfgRegister.State design.cfgSize) (hreset : core.resetS = false)
    (packetizer : Packetizer.State 32) (hrest : Resting core packetizer)
    (storage : Storage.State axiIdWidth Conv)
    (hshreg : storage.memory.writer.resetShreg = 0) (input : ℕ → Input)
    (horizon : ℕ)
    (hattended : Attended converter core packetizer storage input horizon) :
    ∀ cycle ≤ horizon,
      Recorded converter core packetizer storage input cycle := by
  intro cycle hcycle
  have hfollows := follows_stateAt hreset hrest hshreg hattended hconverter hempty
    cycle hcycle
  refine ⟨?_, ?_, ?_, ?_⟩
  · intro before hbefore hlate hshort
    obtain hearly | ⟨phase, hsending⟩ :=
      before_or_sending hreset hrest (before + 1)
    · have hmore := count_mono
        (lineCount_succ converter packetizer storage input hreset)
        (Nat.le_succ before)
      exact absurd (hlate.ge.trans hmore) (Nat.not_le.mpr hearly.early)
    · rw [← hsending.beats] at hshort
      exact hsending.shows.enabled (hsending.begun before rfl hlate)
        (Nat.le_of_lt_succ hshort)
  · intro hcount
    exact (value_eq_sample hreset hrest hshreg hattended hconverter hempty hcycle
      hcount).2
  · intro place hplace
    have hloaded := (hfollows place hplace).loaded
    exact ⟨hloaded.le, hloaded.flatMap_eq⟩
  · intro values hplace
    obtain ⟨hloaded, htotal⟩ := hfollows (.printed values) hplace
    have hshort : (samples converter core packetizer storage input
        cycle).length ≤ total := length_samples_le hreset hrest cycle
    have hlength := congrArg List.length hloaded.values
    rw [List.length_map, List.length_take, htotal] at hlength
    have hlines := hloaded.flatMap_eq
    rw [htotal, List.take_of_length_le hshort] at hlines
    exact ⟨by omega, hlines⟩

/-- The register as another run has left it: nothing is in reset. -/
def leftCore : CfgRegister.State Design.lago.cfgSize where
  resetS := false
  intBvalidReg := false
  intRvalidReg := false
  intRdataReg := 0
  intDataWire := 0x0000000300000007#128

/-- The end of a packet of four words. -/
def leftPacketizer : Packetizer.State 32 where
  intCntrReg := 3
  intEnblReg := false

/-- A storage that has stored a burst, with the beginning of the next and a word
that has no partner. -/
def leftStorage : Storage.State 3 Registers where
  conv := { low := some 7, word := none }
  memory :=
    { writer :=
        { resetShreg := 0
          resetS := false
          fifo := [1, 2]
          intAwvalidReg := false
          intWvalidReg := false
          intAddrReg := 16
          intWidReg := 1 }
      port :=
        { starts := [RamWriter.burstStart addrWidth 3 ram 0]
          beats := 16
          memory := fun _ => 0 } }

/-- A word in every cycle, a memory port that is always ready, and a program that
sleeps after its script. -/
def recording (cycle : ℕ) (s : State .lago 3 Registers) : Input where
  turn := decide (cycle < 58) || decide (112 ≤ cycle)
  aw := true
  w := true
  ar := true
  bready := true
  rready := true
  word := { valid := true, data := BitVec.ofNat 32 cycle }
  ports :=
    { aresetn := true
      intEmptyWire := decide (s.storage.memory.writer.fifo.length ≤ 15)
      intFullWire := false
      mAxiAwready := true
      mAxiWready := true
      sAxisTdata := 0
      sAxisTvalid := false }

/-- The board that the program is started on. -/
def leftBoard : Machine (State .lago 3 Registers) Input :=
  system padding leftCore leftPacketizer leftStorage

def recordingRun : ℕ → Input := leftBoard.chosen recording

/-- No burst is cut, no word is asked of an empty FIFO, no data comes before its
address, and no word is loaded before it is stored. -/
def Kept (s s' : State .lago 3 Registers) (i : Input) (stored : ℕ) : Prop :=
  (linesMade s = 1 → 2 ≤ linesMade s' →
      s'.storage.memory.port.beats = 16 * s'.storage.memory.port.starts.length) ∧
    (RamWriter.intRdenWire s.storage.memory.writer i.ports = true →
      s.storage.memory.writer.fifo ≠ []) ∧
    s.storage.memory.port.beats ≤ 16 * s.storage.memory.port.starts.length ∧
    (i.turn = true → ∀ k ∈ loads s, k / 2 < stored)

instance (s s' : State .lago 3 Registers) (i : Input) (stored : ℕ) :
    Decidable (Kept s s' i stored) :=
  inferInstanceAs (Decidable (_ ∧ _ ∧ _ ∧ _))

/-- The turns of the loop that have been made. -/
def turns : Host Place → ℕ
  | .configuring _ => 0
  | .after place => place.values.length

/-- The first burst is stored from cycle 107 on, and four turns are made from
cycle 112 on. -/
theorem kept_recording :
    (∀ cycle < 117, Kept (leftBoard.chosenState recording cycle)
      (leftBoard.chosenState recording (cycle + 1)) (recordingRun cycle)
      (leftBoard.chosenLog recording storedBeat cycle).length) ∧
    turns (leftBoard.chosenState recording 116).bus.master.program = 4 := by
  decide +kernel

theorem kept_stateAt {cycle : ℕ} (hcycle : cycle < 117) :
    Kept (stateAt padding leftCore leftPacketizer leftStorage recordingRun cycle)
      (stateAt padding leftCore leftPacketizer leftStorage recordingRun
        (cycle + 1)) (recordingRun cycle)
      (stored padding leftCore leftPacketizer leftStorage recordingRun cycle) := by
  have hkept := kept_recording.1 cycle hcycle
  rw [← Machine.stateAt_chosen, ← Machine.stateAt_chosen, ← Machine.log_chosen]
    at hkept
  exact hkept

theorem attended_recording :
    Attended padding leftCore leftPacketizer leftStorage recordingRun 116 where
  whole := fun _ hcycle => (kept_stateAt (Nat.lt_succ_of_lt hcycle)).1
  fifo := fun _ hcycle _ => (kept_stateAt (Nat.lt_succ_of_lt hcycle)).2.1
  address := fun _ hcycle _ => (kept_stateAt (Nat.lt_succ_of_le hcycle)).2.2.1
  drained := fun _ hcycle => (kept_stateAt (Nat.lt_succ_of_lt hcycle)).2.2.2

theorem exists_place_recording : ∃ place,
    programAt padding leftCore leftPacketizer leftStorage recordingRun 116 =
      .after place ∧ place.values.length = 4 := by
  have hturns := kept_recording.2
  rw [← Machine.stateAt_chosen] at hturns
  change turns (programAt padding leftCore leftPacketizer leftStorage recordingRun
    116) = 4 at hturns
  cases hprogram : programAt padding leftCore leftPacketizer leftStorage
      recordingRun 116 with
  | configuring script =>
      rw [hprogram] at hturns
      cases hturns
  | after place =>
      rw [hprogram] at hturns
      exact ⟨place, rfl, hturns⟩

/-- The first burst of a packet, and the first four turns of the loop. -/
theorem snapshot_prints_recordingRun :
    Recorded padding leftCore leftPacketizer leftStorage recordingRun 116 ∧
      ∃ place, programAt padding leftCore leftPacketizer leftStorage recordingRun
        116 = .after place ∧ place.values.length = 4 :=
  ⟨snapshot_prints .lago padding (fun word => word.setWidth 64) ShowsPair
    realizes_padding ⟨rfl, rfl⟩ leftCore rfl leftPacketizer
    ⟨rfl, fun _ => by decide +kernel⟩ leftStorage rfl recordingRun 116
    attended_recording 116 le_rfl, exists_place_recording⟩

end Rfsoc.Snapshot
