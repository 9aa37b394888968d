import Rfsoc.Axis.StreamCores
import Rfsoc.System.Control
import Rfsoc.System.Recording

/-!
# The receiver of the player design

In `dac_player` the samples of the ADC pass `dcmtr_0`, `pktzr_0` and the width
converter `conv_0` before `writer_0` stores them and `adc-recorder.c` writes them
to its file.  The decimation factor is the first argument of the recorder; the
packets of 512 words only have to be of even length, so that the converter always
finds two words to pair.

The run begins when the recorder has entered normal operating mode.  The
decimator is not reset then and may stand at any of its registers.
-/

namespace Rfsoc.Receiver

open Rfsoc.Clocked
open Rfsoc.Control (factorCfg toNat_factorCfg)
open Rfsoc.Stream
open Rfsoc.WidthConverter

abbrev Sample := BitVec 32

/-- `const_1`. -/
def packetCfg : BitVec 9 := 511#9

variable {axiIdWidth : ℕ} {Conv : Type*}

/-- The samples on their way to `writer_0`. -/
def front (number : ℕ) (start : Decimator.State 32 16)
    (converter : Core Conv (Sample × Bool) (BitVec 64)) :
    Core ((Decimator.State 32 16 × Packetizer.State 9) × Conv) Sample
      (BitVec 64) :=
  ((Decimator.streamCore (factorCfg number) start).series
    (Packetizer.streamCore Sample true packetCfg)).series converter

structure State (axiIdWidth : ℕ) (Conv : Type*) where
  front : (Decimator.State 32 16 × Packetizer.State 9) × Conv
  path : Acquisition.State axiIdWidth

/-- A cycle of the environment: the sample on offer, the flags and the memory
port of the writer, and the process that takes a turn.  The stream lines of
`ports` are not used. -/
structure Input where
  sample : Offer Sample
  ports : RamWriter.Input
  turn : Option Acquisition.Process

section Wires

variable (number : ℕ) (converter : Core Conv (Sample × Bool) (BitVec 64))
  (start : Decimator.State 32 16)

/-- The lines of the front. -/
def frontDrive (_ : State axiIdWidth Conv) (i : Input) : Drive Sample where
  offer := i.sample
  ready := RamWriter.intTreadyWire i.ports

/-- What the rest of the receiver drives on the decimator. -/
def decimatorDrive (s : State axiIdWidth Conv) (i : Input) : Drive Sample :=
  (Packetizer.streamCore Sample true packetCfg).firstDrive s.front.1
    (converter.firstDrive s.front (frontDrive s i))

/-- The lines of the path. -/
def pathInput (s : State axiIdWidth Conv) (i : Input) : Acquisition.Input where
  ports :=
    { i.ports with
      sAxisTdata := ((front number start converter).offer s.front i.sample).data
      sAxisTvalid :=
        ((front number start converter).offer s.front i.sample).valid }
  turn := i.turn

def step (s : State axiIdWidth Conv) (i : Input) : State axiIdWidth Conv where
  front := (front number start converter).step s.front (frontDrive s i)
  path := Acquisition.step s.path (pathInput number converter start s i)

/-- The receiver when the recorder has entered normal operating mode. -/
def system (axiIdWidth : ℕ) (memory buf : ℕ → BitVec 64) :
    Machine (State axiIdWidth Conv) Input where
  start :=
    { front := (front number start converter).start
      path := (Acquisition.system axiIdWidth memory buf).start }
  step := step number converter start

end Wires

section Run

variable (axiIdWidth) (number : ℕ)
  (converter : Core Conv (Sample × Bool) (BitVec 64))
  (start : Decimator.State 32 16) (memory buf : ℕ → BitVec 64)
  (input : ℕ → Input)

def stateAt (cycle : ℕ) : State axiIdWidth Conv :=
  (system number converter start axiIdWidth memory buf).stateAt input cycle

/-- The lines of the acquisition path along a run. -/
def pathInputs : ℕ → Acquisition.Input :=
  wired (system number converter start axiIdWidth memory buf)
    (pathInput number converter start) input

/-- The lines of the front along a run. -/
def frontDrives : ℕ → Drive Sample :=
  wired (system number converter start axiIdWidth memory buf)
    frontDrive input

/-- The samples that the decimator has taken before a cycle. -/
def samples (cycle : ℕ) : List Sample :=
  (front number start converter).accepted
    (frontDrives axiIdWidth number converter start memory buf input) cycle

/-- The samples that the decimator keeps, counted from where it stood. -/
def keptSamples (cycle : ℕ) : List Sample :=
  (Decimator.decimation Sample (number - 1)).run start.intCntrReg.toNat
    (samples axiIdWidth number converter start memory buf input cycle)

/-- What there is to record: a sample that stood in the output register of the
decimator, and then those that it keeps. -/
def wanted (cycle : ℕ) : List Sample :=
  Decimator.pending start ++
    keptSamples axiIdWidth number converter start memory buf input cycle

/-- A run in which no kept sample comes before the one before it has gone on,
and whose path is attended. -/
structure Attended (horizon : ℕ) : Prop where
  keepsUp : ∀ cycle < horizon, Decimator.KeepsUp (factorCfg number)
    (stateAt axiIdWidth number converter start memory buf input cycle).front.1.1
    (decimatorDrive converter
      (stateAt axiIdWidth number converter start memory buf input cycle)
      (input cycle))
  path : Acquisition.Attended axiIdWidth memory buf
    (pathInputs axiIdWidth number converter start memory buf input) horizon

/-- The file at a cycle. -/
structure Recorded (inside cycle : ℕ) : Prop where
  /-- The kept samples are every `number`th. -/
  kept : ∀ k,
    (keptSamples axiIdWidth number converter start memory buf input cycle)[k]? =
      (samples axiIdWidth number converter start memory buf input cycle)[
        number - 1 - start.intCntrReg.toNat + k * number]?
  /-- The file is the beginning of what there is to record, two samples to a
  word with the earlier one in the low half. -/
  file : (stateAt axiIdWidth number converter start memory buf input
      cycle).path.host.output <+:
    pairs (wanted axiIdWidth number converter start memory buf input cycle)
  /-- The front holds no more than its registers. -/
  taken : (pairs (wanted axiIdWidth number converter start memory buf input
      cycle)).length ≤
    (Acquisition.taken axiIdWidth
      (pathInputs axiIdWidth number converter start memory buf input)
      cycle).length + inside

end Run

section Front

variable {number : ℕ} {converter : Core Conv (Sample × Bool) (BitVec 64)}
  {start : Decimator.State 32 16} {alone : Sample → BitVec 64}
  {shows : Conv → Option Sample → List (BitVec 64) → Prop}

/-- What the front owes from the start is the sample in the decimator. -/
theorem seriesShows_start (hempty : shows converter.start none []) :
    seriesShows (pairing alone)
      (seriesShows (Packetizer.framing Sample (packetCfg.toNat + 1))
        Decimator.ShowsCounter (Packetizer.ShowsPosition packetCfg.toNat))
      shows (front number start converter).start
      ((start.intCntrReg.toNat,
          (Packetizer.framing Sample (packetCfg.toNat + 1)).after 0
            (Decimator.pending start)),
        (pairing alone).after none
          ((Packetizer.framing Sample (packetCfg.toNat + 1)).run 0
            (Decimator.pending start)))
      ((pairing alone).run none
        ((Packetizer.framing Sample (packetCfg.toNat + 1)).run 0
          (Decimator.pending start))) := by
  refine ⟨_, [], none, ⟨Decimator.pending start, [], 0, ⟨rfl, rfl⟩, ?_, rfl, rfl⟩,
    hempty, rfl, rfl⟩
  exact ⟨⟨rfl, Nat.zero_le _, fun _ => rfl⟩, rfl⟩

/-- The front pairs what the decimator keeps. -/
theorem front_ledger {input : ℕ → Drive Sample} {horizon : ℕ}
    (hlow : 10 ≤ number) (hhigh : number ≤ 65535)
    (hconverter : Realizes converter (pairing alone) (fun _ _ => True) shows)
    (hempty : shows converter.start none [])
    (hkeepsUp : ∀ cycle < horizon, Decimator.KeepsUp (factorCfg number)
      ((front number start converter).stateAt input cycle).1.1
      ((Packetizer.streamCore Sample true packetCfg).firstDrive
        ((front number start converter).stateAt input cycle).1
        (converter.firstDrive ((front number start converter).stateAt input cycle)
          (input cycle)))) :
    ∀ cycle ≤ horizon, ∃ owed memory,
      seriesShows (pairing alone)
        (seriesShows (Packetizer.framing Sample (packetCfg.toNat + 1))
          Decimator.ShowsCounter (Packetizer.ShowsPosition packetCfg.toNat))
        shows ((front number start converter).stateAt input cycle) memory owed ∧
      pairs (Decimator.pending start ++
          (Decimator.decimation Sample (number - 1)).run start.intCntrReg.toNat
            ((front number start converter).accepted input cycle)) =
        (front number start converter).transferred input cycle ++ owed := by
  have hopens : 0 < packetCfg.toNat := by decide
  have hrealizes := ((Decimator.realizes_decimation (factorCfg number) start).series
    (Packetizer.realizes_framing Sample packetCfg hopens)).series hconverter
  intro cycle hcycle
  obtain ⟨owed, hshows, hledger⟩ := hrealizes.ledger (seriesShows_start hempty)
    (fun earlier hearlier => ⟨⟨hkeepsUp earlier hearlier, trivial⟩, trivial⟩)
    cycle hcycle
  refine ⟨owed, _, hshows, ?_⟩
  rw [Transducer.run_comp, Transducer.run_comp, ← Transducer.run_append,
    ← Transducer.run_append,
    run_framing_pairing alone (by decide) (dvd_zero 2) (by decide),
    toNat_factorCfg hlow hhigh] at hledger
  exact hledger

/-- The decimator holds one word and the packetizer none. -/
theorem length_owed_le {inside : ℕ}
    (hinside : ∀ s low owed, shows s low owed → owed.length ≤ inside)
    {s : (Decimator.State 32 16 × Packetizer.State 9) × Conv}
    {memory : (ℕ × ℕ) × Option Sample} {owed : List (BitVec 64)}
    (hshows : seriesShows (pairing alone)
      (seriesShows (Packetizer.framing Sample (packetCfg.toNat + 1))
        Decimator.ShowsCounter (Packetizer.ShowsPosition packetCfg.toNat))
      shows s memory owed) :
    owed.length ≤ inside + 1 := by
  obtain ⟨owedFront, owedConv, low, ⟨owedKept, owedPacket, position, hkept,
    hpacket, -, rfl⟩, hconv, -, rfl⟩ := hshows
  have hheld := hinside _ _ _ hconv
  have hpairs := length_run_pairing_le alone low
    (owedPacket ++ (Packetizer.framing Sample (packetCfg.toNat + 1)).run position
      owedKept)
  have hone : owedKept.length ≤ 1 := by
    rw [hkept.2, Decimator.pending]
    split
    case isTrue => exact le_rfl
    case isFalse => exact Nat.zero_le 1
  rw [hpacket.2, List.nil_append, Packetizer.length_run_framing] at hpairs
  rw [hpacket.2, List.nil_append, List.length_append]
  omega

end Front

section Run

variable (axiIdWidth) (number : ℕ)
  (converter : Core Conv (Sample × Bool) (BitVec 64))
  (start : Decimator.State 32 16) (memory buf : ℕ → BitVec 64)
  (input : ℕ → Input)

theorem component_front :
    Component (system number converter start axiIdWidth memory buf)
      (front number start converter).machine State.front frontDrive where
  start := rfl
  step := fun _ _ => rfl

theorem component_path :
    Component (system number converter start axiIdWidth memory buf)
      (Acquisition.system axiIdWidth memory buf) State.path
      (pathInput number converter start) where
  start := rfl
  step := fun _ _ => rfl

/-- The writer takes what the front hands on. -/
theorem taken_eq (cycle : ℕ) :
    Acquisition.taken axiIdWidth
        (pathInputs axiIdWidth number converter start memory buf input) cycle =
      (front number start converter).transferred
        (frontDrives axiIdWidth number converter start memory buf input)
        cycle := by
  have hpath := ((component_path axiIdWidth number converter start memory
    buf).trans (Acquisition.component_writer axiIdWidth memory buf)).log input
      RamWriter.streamHandshake cycle
  have hfront := (component_front axiIdWidth number converter start memory
    buf).log input (front number start converter).transferredWord cycle
  refine hpath.trans (Eq.trans ?_ hfront.symm)
  apply Machine.log_congr
  intro earlier _
  rw [RamWriter.streamHandshake, Bool.and_comm]
  rfl

end Run

/-- What there is to record has been taken by the writer, but for the last few
words. -/
theorem pairs_wanted (axiIdWidth : ℕ) {number : ℕ} (hlow : 10 ≤ number)
    (hhigh : number ≤ 65535)
    {converter : Core Conv (Sample × Bool) (BitVec 64)}
    {alone : Sample → BitVec 64}
    {shows : Conv → Option Sample → List (BitVec 64) → Prop}
    (hconverter : Realizes converter (pairing alone) (fun _ _ => True) shows)
    (hempty : shows converter.start none []) {inside : ℕ}
    (hinside : ∀ s low owed, shows s low owed → owed.length ≤ inside)
    (start : Decimator.State 32 16) (memory buf : ℕ → BitVec 64)
    (input : ℕ → Input) {horizon : ℕ}
    (hkeepsUp : ∀ cycle < horizon, Decimator.KeepsUp (factorCfg number)
      (stateAt axiIdWidth number converter start memory buf input
        cycle).front.1.1
      (decimatorDrive converter
        (stateAt axiIdWidth number converter start memory buf input cycle)
        (input cycle))) :
    ∀ cycle ≤ horizon, ∃ owed : List (BitVec 64),
      owed.length ≤ inside + 1 ∧
      pairs (wanted axiIdWidth number converter start memory buf input cycle) =
        (front number start converter).transferred
          (frontDrives axiIdWidth number converter start memory buf input)
          cycle ++ owed := by
  intro cycle hcycle
  have hstate : ∀ earlier,
      (stateAt axiIdWidth number converter start memory buf input
        earlier).front =
      (front number start converter).stateAt
        (frontDrives axiIdWidth number converter start memory buf input) earlier :=
    (component_front axiIdWidth number converter start memory buf).stateAt input
  simp only [decimatorDrive, hstate] at hkeepsUp
  obtain ⟨owed, reading, hshows, hledger⟩ := front_ledger hlow hhigh hconverter
    hempty hkeepsUp cycle hcycle
  exact ⟨owed, length_owed_le hinside hshows, hledger⟩

/-- The receiver records every `number`th sample: in every run with a memory
port, a recorder and a front that keep up, the file is the beginning of the kept
samples in pairs, and only the last few of them are not stored yet. -/
theorem receiver_records (axiIdWidth number : ℕ) (hlow : 10 ≤ number)
    (hhigh : number ≤ 65535)
    (converter : Core Conv (Sample × Bool) (BitVec 64))
    (alone : Sample → BitVec 64)
    (shows : Conv → Option Sample → List (BitVec 64) → Prop)
    (hconverter : Realizes converter (pairing alone) (fun _ _ => True) shows)
    (hempty : shows converter.start none []) (inside : ℕ)
    (hinside : ∀ s low owed, shows s low owed → owed.length ≤ inside)
    (start : Decimator.State 32 16) (memory buf : ℕ → BitVec 64)
    (input : ℕ → Input) (horizon : ℕ)
    (hattended : Attended axiIdWidth number converter start memory buf input
      horizon) :
    ∀ cycle ≤ horizon, Recorded axiIdWidth number converter start memory buf
      input (inside + 1) cycle := by
  intro cycle hcycle
  obtain ⟨owed, hshort, hwanted⟩ := pairs_wanted axiIdWidth hlow hhigh hconverter
    hempty hinside start memory buf input hattended.keepsUp cycle hcycle
  have hpath : (stateAt axiIdWidth number converter start memory buf input
      cycle).path = Acquisition.stateAt axiIdWidth memory buf
        (pathInputs axiIdWidth number converter start memory buf input) cycle :=
    (component_path axiIdWidth number converter start memory buf).stateAt input
      cycle
  have houtput := Acquisition.output_isPrefix memory buf hattended.path hcycle
  refine ⟨?_, ?_, ?_⟩
  · intro k
    have hfactor : number - 1 + 1 = number := by omega
    rw [keptSamples, Decimator.getElem?_decimation, hfactor]
  · rw [taken_eq, ← hpath] at houtput
    rw [hwanted]
    exact houtput.trans (List.prefix_append _ _)
  · rw [hwanted, List.length_append, taken_eq]
    exact Nat.add_le_add_left hshort _

theorem length_showsPair_le (s : Registers) (low : Option Sample) (owed : List (BitVec 64))
    (hshows : ShowsPair s low owed) : owed.length ≤ 1 := by
  obtain ⟨-, rfl⟩ := hshows
  cases s.word <;> simp

section Sampling

open BlockServer (halfWords maxGrowth)

/-- A decimator that has been running and holds no word. -/
def running : Decimator.State 32 16 where
  intTdataReg := 0
  intCntrReg := 0
  intTvalidReg := false
  intTreadyReg := true

/-- A sample in every cycle without a turn, and a port that takes what is in
store in these cycles. -/
def sampling (early middle late cycle : ℕ) (s : State 3 Registers) : Input where
  sample :=
    { valid :=
        (phased (Acquisition.blockPhases early middle late) none cycle).isNone
      data := BitVec.ofNat 32 cycle }
  ports :=
    { aresetn := true
      intEmptyWire := decide (s.path.writer.fifo.length ≤ 15)
      intFullWire := false
      mAxiAwready := true
      mAxiWready :=
        (phased (Acquisition.blockPhases early middle late) none cycle).isNone &&
          !s.path.writer.fifo.isEmpty
      sAxisTdata := 0
      sAxisTvalid := false }
  turn := phased (Acquisition.blockPhases early middle late) none cycle

/-- The front while its output is always taken: a kept word finds the converter
empty, and a pair is gone long before the next one. -/
structure Flowing (s : (Decimator.State 32 16 × Packetizer.State 9) × Registers) :
    Prop where
  opened : s.1.1.intTreadyReg = true
  opens : s.1.2.intEnblReg = true ∨ s.1.2.intCntrReg = 0
  counter : s.1.1.intCntrReg.toNat ≤ 9
  held : s.1.1.intTvalidReg = true →
    s.1.1.intCntrReg.toNat = 0 ∧ s.2.word = none ∧ s.1.2.intEnblReg = true
  paired : s.2.word ≠ none →
    s.1.1.intCntrReg.toNat ≤ 1 ∧ s.1.1.intTvalidReg = false

variable {alone : Sample → BitVec 64}
  {s : (Decimator.State 32 16 × Packetizer.State 9) × Registers}
  {i : Drive Sample}

/-- The lines that the decimator sees. -/
def lines (s : (Decimator.State 32 16 × Packetizer.State 9) × Registers)
    (i : Drive Sample) : Drive Sample where
  offer := i.offer
  ready := s.1.2.intEnblReg && s.2.word.isNone

theorem toNat_factorCfg_ten : (factorCfg 10).toNat = 9 :=
  toNat_factorCfg (le_refl 10) (by decide)

/-- A held word is taken. -/
theorem Flowing.taken (hflows : Flowing s) (hvalid : s.1.1.intTvalidReg = true) :
    (lines s i).ready = true := by
  obtain ⟨-, hnone, hopen⟩ := hflows.held hvalid
  rw [lines, hopen, hnone]
  rfl

variable (alone i) in
/-- Every sample is counted. -/
theorem Flowing.counter_step (hflows : Flowing s) :
    ((front 10 running (registered alone)).step s i).1.1.intCntrReg.toNat =
      (s.1.1.intCntrReg.toNat + i.offer.valid.toNat) % 10 := by
  have hcounter := hflows.counter
  refine Eq.trans (Decimator.toNat_intCntrReg_step (s := s.1.1)
    (i := Decimator.ofDrive (lines s i)) rfl) ?_
  rw [Decimator.acceptedWord_eq, Decimator.intTvalidWire, hflows.opened,
    toNat_factorCfg_ten]
  change Transducer.after _ _ (if true && i.offer.valid then _ else _) = _
  cases i.offer.valid with
  | false => simp [Nat.mod_eq_of_lt (Nat.lt_succ_of_le hcounter)]
  | true =>
      by_cases hmore : s.1.1.intCntrReg.toNat < 9
      · simp [Decimator.decimation, Transducer.after, hmore]
        omega
      · simp [Decimator.decimation, Transducer.after, hmore]
        omega

variable (alone i) in
/-- Every tenth sample is kept. -/
theorem Flowing.valid_step (hflows : Flowing s) :
    ((front 10 running (registered alone)).step s i).1.1.intTvalidReg =
      (i.offer.valid && decide (s.1.1.intCntrReg.toNat = 9)) := by
  have hcounter := hflows.counter
  have hkeeps : Decimator.keeps (factorCfg 10) s.1.1
      (Decimator.ofDrive (lines s i)) =
        (i.offer.valid && decide (s.1.1.intCntrReg.toNat = 9)) := by
    rw [Decimator.keeps, Decimator.intTvalidWire, Decimator.intCompWire_eq,
      hflows.opened, toNat_factorCfg_ten, ← decide_not]
    change (true && i.offer.valid && _) = _
    rw [Bool.true_and]
    congr 2
    exact propext (by omega)
  have hgone : (s.1.1.intTvalidReg && !(lines s i).ready) = false := by
    cases hvalid : s.1.1.intTvalidReg with
    | false => rfl
    | true => rw [hflows.taken hvalid]; rfl
  refine Eq.trans (Decimator.intTvalidReg_step (s := s.1.1)
    (i := Decimator.ofDrive (lines s i)) rfl) ?_
  change (_ || (s.1.1.intTvalidReg && !(lines s i).ready)) = _
  rw [hkeeps, hgone, Bool.or_false]

/-- Without a held word the converter is emptied. -/
theorem word_step (hready : i.ready = true)
    (hnone : s.1.1.intTvalidReg = false) :
    ((front 10 running (registered alone)).step s i).2.word = none := by
  change ((registered alone).step s.2 _).word = none
  have hoffer : (s.1.2.intEnblReg && s.1.1.intTvalidReg) = false := by
    rw [hnone, Bool.and_false]
  change (if (s.1.2.intEnblReg && s.1.1.intTvalidReg) && s.2.word.isNone then _
    else { s.2 with word := if i.ready then none else s.2.word }).word = none
  rw [hoffer, hready]
  rfl

theorem Flowing.step (hflows : Flowing s) (hready : i.ready = true) :
    Flowing ((front 10 running (registered alone)).step s i) := by
  have hcounter := hflows.counter_step alone i
  have hvalid := hflows.valid_step alone i
  have hempty : s.1.1.intTvalidReg = false →
      ((front 10 running (registered alone)).step s i).2.word = none :=
    word_step hready
  have henabled : ((front 10 running (registered alone)).step s
      i).1.2.intEnblReg = true := by
    change (Packetizer.step true packetCfg s.1.2 _).intEnblReg = true
    rw [Packetizer.step_continuous rfl]
    obtain hopen | hzero := hflows.opens
    · simp [hopen]
    · simp [Packetizer.intCompWire, hzero, packetCfg]
  have hone := Bool.toNat_le i.offer.valid
  refine ⟨?_, Or.inl henabled, ?_, ?_, ?_⟩
  · change (Decimator.step (factorCfg 10) s.1.1 _).intTreadyReg = true
    simp [Decimator.step, Decimator.ofDrive, Decimator.intTreadyNext,
      hflows.opened]
  · rw [hcounter]
    omega
  · intro hkept
    rw [hvalid, Bool.and_eq_true, decide_eq_true_iff] at hkept
    have hnone : s.1.1.intTvalidReg = false := by
      rw [← Bool.not_eq_true]
      intro hheld
      have hzero := (hflows.held hheld).1
      omega
    refine ⟨?_, hempty hnone, henabled⟩
    rw [hcounter, hkept.1, hkept.2]
    rfl
  · intro hpair
    have hheld : s.1.1.intTvalidReg = true := by
      by_contra hnone
      exact hpair (hempty (by simpa using hnone))
    have hzero := (hflows.held hheld).1
    rw [hcounter, hvalid, hzero]
    exact ⟨by omega, Bool.and_false _⟩

def samplingRun (early middle late : ℕ) : ℕ → Input :=
  (system 10 padding running 3 (fun _ => 0) fun _ => 0).chosen
    (sampling early middle late)

section Run

variable (early middle late : ℕ)

/-- The receiver in this run. -/
def sampled (cycle : ℕ) : State 3 Registers :=
  stateAt 3 10 padding running (fun _ => 0) (fun _ => 0)
    (samplingRun early middle late) cycle

def sampledWords (cycle : ℕ) : ℕ :=
  (samples 3 10 padding running (fun _ => 0) (fun _ => 0)
    (samplingRun early middle late) cycle).length

def sampledPath : ℕ → Acquisition.Input :=
  pathInputs 3 10 padding running (fun _ => 0) (fun _ => 0)
    (samplingRun early middle late)

variable {early middle late}

theorem samplingRun_eq (cycle : ℕ) :
    samplingRun early middle late cycle =
      sampling early middle late cycle (sampled early middle late cycle) :=
  Machine.chosen_eq _ _ cycle

theorem sampled_succ (cycle : ℕ) :
    sampled early middle late (cycle + 1) =
      step 10 padding running (sampled early middle late cycle)
        (samplingRun early middle late cycle) := rfl

theorem flowing_sampled (cycle : ℕ) :
    Flowing (sampled early middle late cycle).front := by
  induction cycle with
  | zero =>
      refine ⟨rfl, Or.inr rfl, Nat.zero_le 9, ?_, ?_⟩
      · exact fun hheld => absurd hheld Bool.false_ne_true
      · exact fun hpair => absurd rfl hpair
  | succ cycle ih =>
      rw [sampled_succ, samplingRun_eq]
      exact ih.step rfl

/-- A sample is taken in every cycle without a turn. -/
theorem sampledWords_succ (cycle : ℕ) :
    sampledWords early middle late (cycle + 1) =
      sampledWords early middle late cycle +
        ((samplingRun early middle late cycle).turn.isNone).toNat := by
  have hstate := (component_front 3 10 padding running (fun _ => 0)
    fun _ => 0).stateAt (samplingRun early middle late) cycle
  have hopened : (sampled early middle late cycle).front.1.1.intTreadyReg = true :=
    (flowing_sampled cycle).opened
  rw [sampledWords, samples, Core.accepted, Machine.log_succ, List.length_append,
    ← Core.accepted, ← samples, ← sampledWords]
  congr 1
  rw [frontDrives, ← hstate]
  change (if (samplingRun early middle late cycle).sample.valid &&
    (sampled early middle late cycle).front.1.1.intTreadyReg then
      [(samplingRun early middle late cycle).sample.data] else []).length = _
  rw [hopened, Bool.and_true, samplingRun_eq]
  cases hnone : (phased (Acquisition.blockPhases early middle late) none
    cycle).isNone <;> simp [sampling, hnone]

theorem counter_sampled (cycle : ℕ) :
    (sampled early middle late cycle).front.1.1.intCntrReg.toNat =
      sampledWords early middle late cycle % 10 := by
  induction cycle with
  | zero => rfl
  | succ cycle ih =>
      rw [sampled_succ, sampledWords_succ]
      refine ((flowing_sampled cycle).counter_step _ _).trans ?_
      rw [ih, samplingRun_eq]
      exact Nat.mod_add_mod _ _ _

/-- A held word is always taken. -/
theorem keepsUp_sampled (cycle : ℕ) :
    Decimator.KeepsUp (factorCfg 10) (sampled early middle late cycle).front.1.1
      (decimatorDrive padding (sampled early middle late cycle)
        (samplingRun early middle late cycle)) :=
  fun _ hheld => (flowing_sampled cycle).taken hheld

variable (early middle late) in
/-- Twenty samples make a word, and two words may be on their way. -/
theorem length_taken_sampled (cycle : ℕ) :
    (Acquisition.taken 3 (sampledPath early middle late) cycle).length ≤
        sampledWords early middle late cycle / 20 ∧
      sampledWords early middle late cycle / 20 ≤
        (Acquisition.taken 3 (sampledPath early middle late) cycle).length +
          2 := by
  obtain ⟨owed, hshort, hwanted⟩ := pairs_wanted 3 (le_refl 10) (by decide)
    realizes_padding ⟨rfl, rfl⟩
    length_showsPair_le running (fun _ => 0) (fun _ => 0)
    (samplingRun early middle late) (fun earlier _ => keepsUp_sampled earlier)
    cycle le_rfl
  have hkept : (keptSamples 3 10 padding running (fun _ => 0) (fun _ => 0)
      (samplingRun early middle late) cycle).length =
        sampledWords early middle late cycle / 10 := by
    refine (Decimator.length_run_decimation ?_ _).trans ?_
    · exact Nat.zero_le 9
    · exact congrArg (· / 10) (Nat.zero_add _)
  have hlength := congrArg List.length hwanted
  rw [length_pairs, wanted, List.length_append, hkept, List.length_append]
    at hlength
  change (0 + _) / 2 = _ at hlength
  have htaken : (Acquisition.taken 3 (sampledPath early middle late)
      cycle).length =
        ((front 10 running padding).transferred (frontDrives 3 10 padding running
          (fun _ => 0) (fun _ => 0) (samplingRun early middle late))
          cycle).length :=
    congrArg List.length (taken_eq 3 10 padding running (fun _ => 0)
      (fun _ => 0) (samplingRun early middle late) cycle)
  omega

variable (early middle late) in
theorem samplingRun_turn :
    GoesThrough (fun cycle => (samplingRun early middle late cycle).turn) 0
      (Acquisition.blockPhases early middle late) none := by
  intro cycle
  rw [Nat.zero_add]
  rfl

/-- A stretch without turns takes a sample in every cycle, and any other none. -/
theorem sampledWords_stretch {start length : ℕ}
    {turn : Option Acquisition.Process}
    (hturn : ∀ k < length,
      (samplingRun early middle late (start + k)).turn = turn) :
    sampledWords early middle late (start + length) =
      sampledWords early middle late start + length * turn.isNone.toNat := by
  induction length with
  | zero => simp
  | succ n ih =>
      rw [← Nat.add_assoc, sampledWords_succ, hturn n (Nat.lt_succ_self n),
        ih fun k hk => hturn k (by omega), Nat.add_assoc, ← Nat.succ_mul]

variable (early middle late) in
/-- The samples taken at the end of each of the three stretches. -/
theorem sampledWords_phases :
    sampledWords early middle late early = early ∧
      sampledWords early middle late (early + 2 + middle) = early + middle ∧
      sampledWords early middle late (early + 2 + middle + 2 + late) =
        early + middle + late := by
  have hphase₁ := samplingRun_turn early middle late
  have hphase₂ := hphase₁.tail
  rw [Nat.zero_add] at hphase₂
  have hphase₃ := hphase₂.tail
  have hphase₄ := hphase₃.tail
  have hphase₅ := hphase₄.tail
  have hwords₁ := sampledWords_stretch hphase₁.head
  have hwords₂ := sampledWords_stretch hphase₂.head
  have hwords₃ := sampledWords_stretch hphase₃.head
  have hwords₄ := sampledWords_stretch hphase₄.head
  have hwords₅ := sampledWords_stretch hphase₅.head
  have hnone : sampledWords early middle late 0 = 0 := rfl
  rw [Nat.zero_add, hnone] at hwords₁
  simp only [Option.isNone_none, Option.isNone_some, Bool.toNat_true,
    Bool.toNat_false, Nat.mul_one, Nat.mul_zero, Nat.add_zero]
    at hwords₁ hwords₂ hwords₃ hwords₄ hwords₅
  omega

variable (early middle late) in
/-- A turn finds the front with no word on its way. -/
def AtRest (cycle : ℕ) : Prop :=
  (samplingRun early middle late cycle).turn ≠ none →
    sampledWords early middle late cycle % 10 = 5

theorem atRest_idle {start length : ℕ}
    (hnone : ∀ k < length,
      (samplingRun early middle late (start + k)).turn = none) :
    ∀ k < length, AtRest early middle late (start + k) :=
  fun k hk hsome => absurd (hnone k hk) hsome

theorem atRest_busy {start length : ℕ} {process : Acquisition.Process}
    (hwords : sampledWords early middle late start % 10 = 5)
    (hsome : ∀ k < length,
      (samplingRun early middle late (start + k)).turn = some process) :
    ∀ k < length, AtRest early middle late (start + k) := by
  intro k hk _
  rw [sampledWords_stretch fun j hj => hsome j (hj.trans hk)]
  exact hwords

/-- The processes take their turns after five samples of a period. -/
theorem atRest (hearly : early % 10 = 5) (hmiddle : middle % 10 = 0)
    (hlate : late % 10 = 0) (cycle : ℕ) : AtRest early middle late cycle := by
  have hphase₁ := samplingRun_turn early middle late
  have hphase₂ := hphase₁.tail
  rw [Nat.zero_add] at hphase₂
  have hphase₃ := hphase₂.tail
  have hphase₄ := hphase₃.tail
  have hphase₅ := hphase₄.tail
  have hphase₆ := hphase₅.tail
  have hphase₇ := hphase₆.tail
  obtain ⟨hwords₁, hwords₃, hwords₅⟩ := sampledWords_phases early middle late
  have hwords₆ := sampledWords_stretch hphase₆.head
  rw [Option.isNone_some, Bool.toNat_false, Nat.mul_zero, Nat.add_zero]
    at hwords₆
  rw [← Nat.zero_add cycle]
  refine forall_of_phase (atRest_idle hphase₁.head) ?_ cycle
  rw [Nat.zero_add]
  refine forall_of_phase (atRest_busy (by omega) hphase₂.head) ?_
  refine forall_of_phase (atRest_idle hphase₃.head) ?_
  refine forall_of_phase (atRest_busy (by omega) hphase₄.head) ?_
  refine forall_of_phase (atRest_idle hphase₅.head) ?_
  refine forall_of_phase (atRest_busy (by omega) hphase₆.head) ?_
  refine forall_of_phase (atRest_busy (by omega) hphase₇.head) ?_
  exact fun k hsome => absurd (hphase₇.tail k) hsome

/-- The port and the flags of this run look at the FIFO. -/
theorem tended_sampled (hrest : ∀ cycle, AtRest early middle late cycle)
    (cycle : ℕ) :
    RamWriter.Tended (sampled early middle late cycle).path.writer
      (sampledPath early middle late cycle).ports := by
  have hports : (sampledPath early middle late cycle).ports =
      (pathInput 10 padding running (sampled early middle late cycle)
        (samplingRun early middle late cycle)).ports := rfl
  have hflows : Flowing (sampled early middle late cycle).front :=
    flowing_sampled cycle
  have hcounter : (sampled early middle late cycle).front.1.1.intCntrReg.toNat =
      sampledWords early middle late cycle % 10 := counter_sampled cycle
  have hturn := hrest cycle
  rw [AtRest, samplingRun_eq] at hturn
  rw [hports, samplingRun_eq]
  refine ⟨rfl, rfl, rfl, ?_, ?_⟩
  · intro hready
    simpa [pathInput, sampling] using (Bool.and_eq_true_iff.mp hready).2
  · intro hword hstored
    have hpair : (sampled early middle late cycle).front.2.word.isSome = true :=
      (Bool.and_eq_true_iff.mp hword).2
    have hearly := (hflows.paired (Option.isSome_iff_ne_none.mp hpair)).1
    have hnone : (phased (Acquisition.blockPhases early middle late) none
        cycle).isNone = true := by
      rw [Option.isNone_iff_eq_none]
      by_contra hsome
      have hfive := hturn hsome
      omega
    simp [pathInput, sampling, hnone, hstored]

variable (early middle late) in
/-- The path records the first half of these samples. -/
theorem samplingRun_firstBlock (hearly : early % 10 = 5)
    (hmiddle : middle % 10 = 0) (hlate : late % 10 = 0)
    (hfirst : early / 20 ≤ maxGrowth)
    (hsecond : (early + middle) / 20 ≤ halfWords)
    (hsecondPace : (early + middle) / 20 + 19 ≤ early / 20 + maxGrowth)
    (hthird : halfWords + 19 < (early + middle + late) / 20)
    (hthirdPace : (early + middle + late) / 20 + 19 ≤
      (early + middle) / 20 + maxGrowth) :
    Acquisition.FirstBlock 3 (fun _ => 0) (fun _ => 0)
      (sampledPath early middle late) early middle late := by
  obtain ⟨hwords₁, hwords₃, hwords₅⟩ :=
    sampledWords_phases early middle late
  have htaken₁ := length_taken_sampled early middle late early
  have htaken₃ := length_taken_sampled early middle late (early + 2 + middle)
  have htaken₅ := length_taken_sampled early middle late
    (early + 2 + middle + 2 + late)
  rw [hwords₁] at htaken₁
  rw [hwords₃] at htaken₃
  rw [hwords₅] at htaken₅
  refine ⟨samplingRun_turn early middle late, ?_, ?_, by omega, by omega,
    by omega, by omega, by omega⟩
  · intro cycle
    have hpath : (sampled early middle late cycle).path =
        Acquisition.stateAt 3 (fun _ => 0) (fun _ => 0)
          (sampledPath early middle late) cycle :=
      (component_path 3 10 padding running (fun _ => 0) fun _ => 0).stateAt
        (samplingRun early middle late) cycle
    rw [← hpath]
    exact tended_sampled (atRest hearly hmiddle hlate) cycle
  · intro cycle hturn
    have hports : (sampledPath early middle late cycle).ports =
        (pathInput 10 padding running (sampled early middle late cycle)
          (samplingRun early middle late cycle)).ports := rfl
    have hsome : (samplingRun early middle late cycle).turn ≠ none := hturn
    rw [hports]
    rw [samplingRun_eq] at hsome ⊢
    simp only [pathInput, sampling] at hsome ⊢
    rw [Option.isNone_eq_false_iff.mpr (Option.isSome_iff_ne_none.mpr hsome)]
    rfl

end Run

end Sampling

/-- A half of the ring is recorded: every tenth sample of ten million, in
pairs. -/
theorem receiver_records_samplingRun :
    Recorded 3 10 padding running (fun _ => 0) (fun _ => 0)
        (samplingRun (20 * BlockServer.maxGrowth + 5)
          (20 * (BlockServer.maxGrowth - 19)) 1180) (1 + 1)
        (Acquisition.blockEnd (20 * BlockServer.maxGrowth + 5)
          (20 * (BlockServer.maxGrowth - 19)) 1180) ∧
      (stateAt 3 10 padding running (fun _ => 0) (fun _ => 0)
        (samplingRun (20 * BlockServer.maxGrowth + 5)
          (20 * (BlockServer.maxGrowth - 19)) 1180)
        (Acquisition.blockEnd (20 * BlockServer.maxGrowth + 5)
          (20 * (BlockServer.maxGrowth - 19)) 1180)).path.host.output.length =
        BlockServer.halfWords := by
  have hblock := samplingRun_firstBlock (20 * BlockServer.maxGrowth + 5)
    (20 * (BlockServer.maxGrowth - 19)) 1180 (by decide) (by decide) (by decide)
    (by decide) (by decide) (by decide) (by decide) (by decide)
  constructor
  · exact receiver_records 3 10 (le_refl 10) (by decide) padding
      (fun word => word.setWidth 64) ShowsPair realizes_padding ⟨rfl, rfl⟩ 1
      length_showsPair_le running (fun _ => 0) (fun _ => 0) _ _
      ⟨fun cycle _ => keepsUp_sampled cycle, hblock.attended⟩ _ le_rfl
  · have hpath : (sampled (20 * BlockServer.maxGrowth + 5)
        (20 * (BlockServer.maxGrowth - 19)) 1180
        (Acquisition.blockEnd (20 * BlockServer.maxGrowth + 5)
          (20 * (BlockServer.maxGrowth - 19)) 1180)).path = _ :=
      (component_path 3 10 padding running (fun _ => 0) fun _ => 0).stateAt _ _
    have hlength := congrArg List.length hblock.output
    rw [List.length_take, Nat.min_eq_left hblock.halfWords_le] at hlength
    exact (congrArg (fun s => s.host.output.length) hpath).trans hlength

end Rfsoc.Receiver
