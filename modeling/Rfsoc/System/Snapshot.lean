import Rfsoc.Axi.CfgScript
import Rfsoc.Host.LagoRecorder
import Rfsoc.System.Storage
import Mathlib.Tactic.IntervalCases

/-!
# The snapshot designs

In `adc_recorder` and in `lago` the program resets the storage and the front, sets
the length of the one packet that `pktzr_0` lets through, opens it and prints the
ring a second later.  The designs differ in the front, whose words are inputs here,
in the lines of the script and in what is printed for a word.

The run begins with a register that is out of reset and a packetizer that is not
open; it may be out of reset when its packet has come to its end.
-/

namespace Rfsoc.Snapshot

open Rfsoc.Atomic
open Rfsoc.CfgBus
open Rfsoc.CfgRegister
open Rfsoc.CfgScript
open Rfsoc.Clocked
open Rfsoc.MemoryPort (Port)
open Rfsoc.Packetizer
open Rfsoc.Storage
open Rfsoc.Stream
open Rfsoc.WidthConverter

inductive Design where
  | adcRecorder
  | lago
  deriving DecidableEq

/-- The words of `cfg_0`. -/
def Design.cfgSize : Design → ℕ
  | adcRecorder => 2
  | lago => 4

/-- `0x40000000`, where `cfg` is mapped. -/
def cfg : BitVec 32 := 0x40000000#32

/-- `*((uint32_t *)addr)` on the left of an assignment operator. -/
def modify (addr : BitVec 32) (change : CfgBus.Word → CfgBus.Word) : Line :=
  .modify addr change 0b1111#4

/-- The lines that both programs begin with. -/
def opening : List Line :=
  [modify cfg (· &&& ~~~4#32),
    modify cfg (· ||| 4#32),
    modify cfg (· &&& ~~~1#32),
    modify cfg (· ||| 1#32),
    modify cfg (· &&& ~~~2#32),
    .write (cfg + 4) 1048575#32 0b1111#4]

/-- The lines of `main` up to the loop. -/
def Design.script : Design → List Line
  | adcRecorder => opening ++ [modify cfg (· ||| 2#32)]
  | lago =>
      opening ++
        [modify (cfg + 8) (· ||| 100#32),
          modify (cfg + 8) (· ||| (16383#32 <<< 16)),
          modify cfg (· ||| 8#32),
          modify cfg (· ||| 2#32)]

/-- The two loads of a turn of the loop. -/
abbrev Value := BitVec 16 × BitVec 16

/-- What is printed for the loads of a turn. -/
def Design.line : Design → Value → List LagoRecorder.Line
  | adcRecorder, value => [.pair value.1.toInt value.2.toInt]
  | lago, value => LagoRecorder.decode (value.2 ++ value.1)

/-- The loop with the loads so far. -/
inductive Place where
  | printing (values : List Value)
  | printed (values : List Value)

/-- The number of turns. -/
def total : ℕ := 1024 * 1024

variable {axiIdWidth : ℕ} {Conv : Type*} {design : Design}

def move (place : Place) (port : Port axiIdWidth) : Place :=
  match place with
  | .printing values =>
      if values.length < total then
        .printing (values ++ [value port (4 * values.length)])
      else .printed values
  | .printed values => .printed values

def Place.values : Place → List Value
  | printing values => values
  | printed values => values

def program : Client (Host Place) (Port axiIdWidth) (Access 32) CfgBus.Word :=
  scripted (.printing []) move

structure State (design : Design) (axiIdWidth : ℕ) (Conv : Type*) where
  bus : CfgBus.State design.cfgSize 32 (Host Place) (Port axiIdWidth)
  packetizer : Packetizer.State 32
  storage : Storage.State axiIdWidth Conv

/-- A cycle of the environment: a turn of the program and the lines of its bus, the
word that the front offers, and the lines of the writer, of which the stream and
the reset are not used. -/
structure Input where
  turn : Bool
  aw : Bool
  w : Bool
  ar : Bool
  bready : Bool
  rready : Bool
  word : Offer Sample
  ports : RamWriter.Input

section Slices

variable {cfgSize : ℕ} (core : CfgRegister.State cfgSize)

/-- The reset of the packetizer. -/
def slice2 : Bool := (cfgData core).getLsbD 1

/-- The reset of the width converter and of the RAM writer. -/
def slice3 : Bool := (cfgData core).getLsbD 2

/-- `cfg_data` of the packetizer. -/
def packetData : BitVec 32 := (cfgData core).extractLsb' 32 32

end Slices

section Wires

variable (converter : Core Conv (Sample × Bool) (BitVec 64))

def busInput (s : State design axiIdWidth Conv) (i : Input) :
    CfgBus.Input (Port axiIdWidth) where
  choice := if i.turn then some s.storage.memory.port else none
  aw := i.aw
  w := i.w
  ar := i.ar
  bready := i.bready
  rready := i.rready

def packetizerInput (s : State design axiIdWidth Conv) (i : Input) :
    Packetizer.Input Sample where
  aresetn := slice2 s.bus.core
  sAxisTdata := i.word.data
  sAxisTvalid := i.word.valid
  mAxisTready :=
    converter.ready s.storage.conv (RamWriter.intTreadyWire i.ports)

def storageInput (s : State design axiIdWidth Conv) (i : Input) :
    Storage.Input where
  offer :=
    { valid := mAxisTvalid s.packetizer (packetizerInput converter s i)
      data := (mAxisTdata (packetizerInput converter s i),
        mAxisTlast (packetData s.bus.core) s.packetizer) }
  ports := { i.ports with aresetn := slice3 s.bus.core }

def step (s : State design axiIdWidth Conv) (i : Input) :
    State design axiIdWidth Conv where
  bus := CfgBus.step program s.bus (busInput s i)
  packetizer := Packetizer.step false (packetData s.bus.core) s.packetizer
    (packetizerInput converter s i)
  storage := resetStep converter s.storage (storageInput converter s i)

/-- The board when the program is started. -/
def system (core : CfgRegister.State design.cfgSize)
    (packetizer : Packetizer.State 32) (storage : Storage.State axiIdWidth Conv) :
    Machine (State design axiIdWidth Conv) Input where
  start :=
    { bus :=
        { core := core
          master := { program := opened design.script, phase := .idle } }
      packetizer := packetizer
      storage := storage }
  step := step converter

/-- The lines of the script that have taken effect. -/
def linesMade (s : State design axiIdWidth Conv) : ℕ :=
  linesDone design.script (settled program s.bus)

/-- The word that the packetizer lets through, with its mark. -/
def packetWord (s : State design axiIdWidth Conv) (i : Input) :
    List (Sample × Bool) :=
  if 2 ≤ linesMade s ∧
      beat s.packetizer (packetizerInput converter s i) = true then
    [(i.word.data, mAxisTlast (packetData s.bus.core) s.packetizer)]
  else []

/-- The data beat of `writer_0`. -/
def storedBeat (s : State design axiIdWidth Conv) (i : Input) :
    List (RamWriter.WBeat axiIdWidth) :=
  if 2 ≤ linesMade s then RamWriter.wHandshake s.storage.memory.writer i.ports
  else []

end Wires

theorem length_script_le (design : Design) :
    6 < design.script.length ∧ design.script.length ≤ 10 := by
  cases design <;> decide

theorem readsInRange (design : Design) :
    ReadsInRange design.cfgSize design.script := by
  intro addr change strb hmem
  have hline : addr = cfg ∨ design = .lago ∧ addr = cfg + 8 := by
    cases design <;>
      simp only [Design.script, opening, modify, List.cons_append, List.nil_append,
        List.mem_cons, List.not_mem_nil, Line.modify.injEq, reduceCtorEq, or_false,
        false_or] at hmem
    · obtain ⟨rfl, -⟩ | ⟨rfl, -⟩ | ⟨rfl, -⟩ | ⟨rfl, -⟩ | ⟨rfl, -⟩ | ⟨rfl, -⟩ := hmem
        <;> exact Or.inl rfl
    · obtain ⟨rfl, -⟩ | ⟨rfl, -⟩ | ⟨rfl, -⟩ | ⟨rfl, -⟩ | ⟨rfl, -⟩ | ⟨rfl, -⟩ |
        ⟨rfl, -⟩ | ⟨rfl, -⟩ | ⟨rfl, -⟩ := hmem <;> simp
  obtain rfl | ⟨rfl, rfl⟩ := hline
  · cases design <;> decide +kernel
  · decide +kernel

section Config

variable {start : ℕ → CfgBus.Word} {count : ℕ}

/-- What the lines settle: the storage is in reset after the first line and runs
from the second on, the packetizer is in reset from the fifth line to the last,
and the sixth sets the length of the packet. -/
structure Config (design : Design) (start : ℕ → CfgBus.Word) (count : ℕ)
    (words : ℕ → CfgBus.Word) : Prop where
  storage : 1 ≤ count → (words 0).getLsbD 2 = decide (2 ≤ count)
  before : count < 5 → (words 0).getLsbD 1 = (start 0).getLsbD 1
  packetizer : 5 ≤ count →
    (words 0).getLsbD 1 = decide (design.script.length ≤ count)
  packet : words 1 = if count < 6 then start 1 else 1048575#32

theorem config_performed (design : Design)
    (hcount : count ≤ design.script.length) :
    Config design start count
      (performed design.cfgSize design.script start count) := by
  cases design with
  | adcRecorder =>
      have hlength : count ≤ 7 := hcount
      constructor <;> interval_cases count <;>
        simp (disch := decide +kernel) [performed, Design.script, opening, modify,
          perform_modify_word, perform_write_of_ne, perform_modify_of_ne,
          perform_write_word]
  | lago =>
      have hlength : count ≤ 10 := hcount
      constructor <;> interval_cases count <;>
        simp (disch := decide +kernel) [performed, Design.script, opening, modify,
          perform_modify_word, perform_write_of_ne, perform_modify_of_ne,
          perform_write_word]

end Config

/-- The slices after some lines of the script. -/
structure Slices (design : Design) (start : CfgRegister.State design.cfgSize)
    (count : ℕ) (core : CfgRegister.State design.cfgSize) : Prop where
  storage : 1 ≤ count → slice3 core = decide (2 ≤ count)
  before : count < 5 → slice2 core = slice2 start
  packetizer : 5 ≤ count → slice2 core = decide (design.script.length ≤ count)
  packet : packetData core =
    if count < 6 then packetData start else 1048575#32

section Slices

variable {cfgSize : ℕ} (core : CfgRegister.State cfgSize)

theorem slice2_eq : slice2 core = (cfgWord core 0).getLsbD 1 := by
  simp [slice2, cfgWord, axiDataWidth]

theorem slice3_eq : slice3 core = (cfgWord core 0).getLsbD 2 := by
  simp [slice3, cfgWord, axiDataWidth]

theorem packetData_eq : packetData core = cfgWord core 1 := rfl

end Slices

theorem Config.slices {start core : CfgRegister.State design.cfgSize} {count : ℕ}
    {words : ℕ → CfgBus.Word} (hconfig : Config design (cfgWord start) count words)
    (hwords : ∀ word < design.cfgSize, cfgWord core word = words word) :
    Slices design start count core := by
  have hsize : 1 < design.cfgSize := by cases design <;> decide
  have hfirst := hwords 0 (Nat.zero_lt_of_lt hsize)
  refine ⟨?_, ?_, ?_, ?_⟩
  · rw [slice3_eq, hfirst]
    exact hconfig.storage
  · rw [slice2_eq, slice2_eq, hfirst]
    exact hconfig.before
  · rw [slice2_eq, hfirst]
    exact hconfig.packetizer
  · rw [packetData_eq, hwords 1 hsize]
    exact hconfig.packet

/-! ## The packet -/

/-- The position in a packet that is not complete. -/
theorem after_framing {packet : ℕ} (words : List Sample)
    (hshort : words.length < packet) :
    (framing Sample packet).after 0 words = words.length := by
  induction words using List.reverseRecOn with
  | nil => rfl
  | append_singleton words word ih =>
      rw [List.length_append, List.length_singleton] at hshort ⊢
      rw [Transducer.after_append, ih (by omega)]
      exact if_neg (by omega)

theorem run_framing_concat {packet : ℕ} (words : List Sample) (word : Sample)
    (hshort : words.length < packet) :
    (framing Sample packet).run 0 (words ++ [word]) =
      (framing Sample packet).run 0 words ++
        [(word, decide (words.length + 1 = packet))] := by
  rw [Transducer.run_append, after_framing words hshort,
    Transducer.run_singleton]
  rfl

/-- A packetizer that lets nothing through as long as its length stays. -/
structure Resting (core : CfgRegister.State design.cfgSize)
    (s : Packetizer.State 32) : Prop where
  closed : s.intEnblReg = false
  full : slice2 core = true →
    (packetData core).toNat ≤ s.intCntrReg.toNat

/-- A rest ends with the reset or not at all. -/
theorem Resting.step {core : CfgRegister.State design.cfgSize}
    {s : Packetizer.State 32} {i : Packetizer.Input Sample}
    (hresting : Resting core s) (hrun : i.aresetn = slice2 core) :
    Packetizer.step false (packetData core) s i =
      if slice2 core then s else resetState := by
  cases hslice : slice2 core with
  | false =>
      rw [hslice] at hrun
      rw [Packetizer.step, hrun]
      rfl
  | true =>
      rw [hslice] at hrun
      have hfull := Nat.not_lt.mpr (hresting.full hslice)
      obtain ⟨cntr, enbl⟩ := s
      obtain rfl : enbl = false := hresting.closed
      rw [step_stop hrun, beat_of_closed rfl, intCompWire_eq,
        decide_eq_false hfull]
      rfl

section Run

variable (converter : Core Conv (Sample × Bool) (BitVec 64))
  (core : CfgRegister.State design.cfgSize) (packetizer : Packetizer.State 32)
  (storage : Storage.State axiIdWidth Conv) (input : ℕ → Input)

def stateAt (cycle : ℕ) : State design axiIdWidth Conv :=
  (system converter core packetizer storage).stateAt input cycle

/-- The words that `pktzr_0` has let through before a cycle. -/
def packet (cycle : ℕ) : List (Sample × Bool) :=
  (system converter core packetizer storage).log input (packetWord converter)
    cycle

def samples (cycle : ℕ) : List Sample :=
  (packet converter core packetizer storage input cycle).map Prod.fst

/-- The number of words that `writer_0` has stored before a cycle. -/
def stored (cycle : ℕ) : ℕ :=
  ((system converter core packetizer storage).log input storedBeat cycle).length

/-- The program in a cycle. -/
def programAt (cycle : ℕ) : Host Place :=
  (stateAt converter core packetizer storage input cycle).bus.master.program

/-- The number of lines made before a cycle. -/
def lineCount (cycle : ℕ) : ℕ :=
  linesMade (stateAt converter core packetizer storage input cycle)

/-- The lines of the bus along a run. -/
def busInputs : ℕ → CfgBus.Input (Port axiIdWidth) :=
  wired (system converter core packetizer storage) busInput input

theorem component_bus :
    Component (system converter core packetizer storage)
      (CfgBus.system program core (opened design.script)) State.bus
      busInput where
  start := rfl
  step := fun _ _ => rfl

theorem bus_stateAt (cycle : ℕ) :
    (stateAt converter core packetizer storage input cycle).bus =
      CfgScript.stateAt design.script (.printing []) move core
        (busInputs converter core packetizer storage input) cycle :=
  (component_bus converter core packetizer storage).stateAt input cycle

theorem lineCount_eq (cycle : ℕ) :
    lineCount converter core packetizer storage input cycle =
      CfgScript.lineCount design.script (.printing []) move core
        (busInputs converter core packetizer storage input) cycle := by
  rw [lineCount, linesMade, bus_stateAt]
  rfl

theorem lineCount_zero :
    lineCount converter core packetizer storage input 0 = 0 :=
  Nat.sub_self _

theorem lineCount_le (cycle : ℕ) :
    lineCount converter core packetizer storage input cycle ≤
      design.script.length := by
  rw [lineCount_eq]
  exact CfgScript.lineCount_le cycle

section Script

variable {core} (hreset : core.resetS = false)
include hreset

theorem lineCount_succ (cycle : ℕ) :
    lineCount converter core packetizer storage input (cycle + 1) =
        lineCount converter core packetizer storage input cycle ∨
      lineCount converter core packetizer storage input (cycle + 1) =
        lineCount converter core packetizer storage input cycle + 1 := by
  rw [lineCount_eq, lineCount_eq]
  exact CfgScript.lineCount_succ hreset (readsInRange design) cycle

theorem slices_stateAt (cycle : ℕ) :
    Slices design core
      (lineCount converter core packetizer storage input cycle)
      (stateAt converter core packetizer storage input cycle).bus.core := by
  rw [lineCount_eq, bus_stateAt]
  exact (config_performed design (CfgScript.lineCount_le cycle)).slices
    (words_eq hreset (readsInRange design) cycle)

end Script

theorem packet_succ (cycle : ℕ) :
    packet converter core packetizer storage input (cycle + 1) =
      packet converter core packetizer storage input cycle ++
        packetWord converter
          (stateAt converter core packetizer storage input cycle)
          (input cycle) := rfl

theorem packetizer_succ (cycle : ℕ) :
    (stateAt converter core packetizer storage input (cycle + 1)).packetizer =
      Packetizer.step false
        (packetData
          (stateAt converter core packetizer storage input cycle).bus.core)
        (stateAt converter core packetizer storage input cycle).packetizer
        (packetizerInput converter
          (stateAt converter core packetizer storage input cycle)
          (input cycle)) := rfl

theorem storage_succ (cycle : ℕ) :
    (stateAt converter core packetizer storage input (cycle + 1)).storage =
      resetStep converter
        (stateAt converter core packetizer storage input cycle).storage
        (storageInput converter
          (stateAt converter core packetizer storage input cycle)
          (input cycle)) := rfl

/-- A word is let through with a beat. -/
theorem packetWord_eq {cycle : ℕ}
    (hcount : 2 ≤ lineCount converter core packetizer storage input cycle) :
    packetWord converter (stateAt converter core packetizer storage input cycle)
        (input cycle) =
      if beat (stateAt converter core packetizer storage input cycle).packetizer
          (packetizerInput converter
            (stateAt converter core packetizer storage input cycle)
            (input cycle)) then
        [((input cycle).word.data, mAxisTlast
          (packetData
            (stateAt converter core packetizer storage input cycle).bus.core)
          (stateAt converter core packetizer storage input cycle).packetizer)]
      else [] := by
  unfold packetWord
  split_ifs with hboth hbeat hbeat
  · rfl
  · exact absurd hboth.2 hbeat
  · exact absurd ⟨hcount, hbeat⟩ hboth
  · rfl

variable {converter core packetizer storage input}

theorem resetShreg_stateAt (hshreg : storage.memory.writer.resetShreg = 0)
    (cycle : ℕ) :
    (stateAt converter core packetizer storage input
      cycle).storage.memory.writer.resetShreg = 0 := by
  induction cycle with
  | zero => exact hshreg
  | succ cycle ih =>
      rw [storage_succ]
      exact resetShreg_resetStep ih

theorem stored_succ (cycle : ℕ) :
    stored converter core packetizer storage input (cycle + 1) =
      stored converter core packetizer storage input cycle +
        (storedBeat (stateAt converter core packetizer storage input cycle)
          (input cycle)).length := by
  rw [stored, Machine.log_succ, List.length_append]
  rfl

/-- Before the second line no word counts. -/
theorem stored_of_early {cycle : ℕ} (hearly : ∀ before < cycle,
      lineCount converter core packetizer storage input before ≤ 1) :
    stored converter core packetizer storage input cycle = 0 := by
  induction cycle with
  | zero => rfl
  | succ cycle ih =>
      have hcount : ¬ 2 ≤ linesMade
          (stateAt converter core packetizer storage input cycle) :=
        Nat.not_le.mpr
          (Nat.lt_succ_of_le (hearly cycle (Nat.lt_succ_self cycle)))
      rw [stored_succ, storedBeat, if_neg hcount, List.length_nil]
      exact ih fun before hbefore => hearly before (Nat.lt_succ_of_lt hbefore)

variable (converter core packetizer storage input) in
/-- Before the last line: the packetizer lets nothing through, and it is reset by
the time of the sixth line. -/
structure Before (cycle : ℕ) : Prop where
  early : lineCount converter core packetizer storage input cycle <
    design.script.length
  resting : Resting
    (stateAt converter core packetizer storage input cycle).bus.core
    (stateAt converter core packetizer storage input cycle).packetizer
  reset : 6 ≤ lineCount converter core packetizer storage input cycle →
    (stateAt converter core packetizer storage input cycle).packetizer = resetState
  empty : packet converter core packetizer storage input cycle = []

variable (converter core packetizer storage input) in
/-- After the last line: the packet and its phase. -/
structure Sending (cycle : ℕ) (phase : Phase) : Prop where
  late : lineCount converter core packetizer storage input cycle =
    design.script.length
  shows : Shows 1048575
    (stateAt converter core packetizer storage input cycle).packetizer phase
  beats : phase.beats 1048575 =
    (samples converter core packetizer storage input cycle).length
  framed : packet converter core packetizer storage input cycle =
    (framing Sample total).run 0
      (samples converter core packetizer storage input cycle)
  begun : ∀ before, cycle = before + 1 →
    lineCount converter core packetizer storage input before =
        design.script.length →
      phase ≠ .waiting

section Packet

variable {cycle : ℕ}

theorem packet_succ_of_closed
    (hclosed : (stateAt converter core packetizer storage input
      cycle).packetizer.intEnblReg = false) :
    packet converter core packetizer storage input (cycle + 1) =
      packet converter core packetizer storage input cycle := by
  have hnone : packetWord converter
      (stateAt converter core packetizer storage input cycle) (input cycle) =
        [] := by
    refine if_neg fun hboth => ?_
    rw [beat_of_closed hclosed] at hboth
    exact Bool.false_ne_true hboth.2
  rw [packet_succ, hnone, List.append_nil]

variable (hreset : core.resetS = false)
include hreset

theorem Before.succ
    (hbefore : Before converter core packetizer storage input cycle)
    (hearly : lineCount converter core packetizer storage input (cycle + 1) <
      design.script.length) :
    Before converter core packetizer storage input (cycle + 1) := by
  have hnext := lineCount_succ converter packetizer storage input hreset cycle
  have hslices := slices_stateAt converter packetizer storage input hreset
  have hstep : (stateAt converter core packetizer storage input
        (cycle + 1)).packetizer =
      if slice2 (stateAt converter core packetizer storage input cycle).bus.core
      then (stateAt converter core packetizer storage input cycle).packetizer
      else resetState :=
    (packetizer_succ _ _ _ _ _ cycle).trans (hbefore.resting.step rfl)
  refine ⟨hearly, ⟨?_, ?_⟩, ?_, ?_⟩
  · rw [hstep]
    split
    case isTrue => exact hbefore.resting.closed
    case isFalse => rfl
  · intro hopen
    have hfive : lineCount converter core packetizer storage input (cycle + 1) <
        5 := by
      by_contra hlate
      rw [(hslices (cycle + 1)).packetizer (by omega),
        decide_eq_false (by omega)] at hopen
      exact Bool.false_ne_true hopen
    have hsame : slice2 (stateAt converter core packetizer storage input
        cycle).bus.core = true := by
      rw [(hslices cycle).before (by omega), ← (hslices (cycle + 1)).before hfive]
      exact hopen
    rw [hstep, if_pos hsame, (hslices (cycle + 1)).packet, if_pos (by omega)]
    have hfull := hbefore.resting.full hsame
    rw [(hslices cycle).packet, if_pos (by omega)] at hfull
    exact hfull
  · intro hsix
    have hlow : slice2 (stateAt converter core packetizer storage input
        cycle).bus.core = false := by
      rw [(hslices cycle).packetizer (by omega), decide_eq_false]
      exact Nat.not_le.mpr hbefore.early
    rw [hstep, hlow, if_neg Bool.false_ne_true]
  · rw [packet_succ_of_closed hbefore.resting.closed]
    exact hbefore.empty

/-- The last line opens the packet. -/
theorem Before.last
    (hbefore : Before converter core packetizer storage input cycle)
    (hlate : lineCount converter core packetizer storage input (cycle + 1) =
      design.script.length) :
    Sending converter core packetizer storage input (cycle + 1) .waiting := by
  have hnext := lineCount_succ converter packetizer storage input hreset cycle
  have hslices := slices_stateAt converter packetizer storage input hreset cycle
  have hearly := hbefore.early
  have hlength := (length_script_le design).1
  have hlow : slice2 (stateAt converter core packetizer storage input
      cycle).bus.core = false := by
    rw [hslices.packetizer (by omega), decide_eq_false (Nat.not_le.mpr hearly)]
  have hempty : packet converter core packetizer storage input (cycle + 1) =
      [] := by
    rw [packet_succ_of_closed hbefore.resting.closed]
    exact hbefore.empty
  have hfresh : (stateAt converter core packetizer storage input
      (cycle + 1)).packetizer = resetState := by
    rw [packetizer_succ, hbefore.resting.step rfl, hlow,
      if_neg Bool.false_ne_true]
  refine ⟨hlate, ?_, ?_, ?_, ?_⟩
  · rw [hfresh]
    exact ⟨rfl, rfl⟩
  · rw [samples, hempty]
    rfl
  · rw [samples, hempty]
    rfl
  · rintro before hcycle hcount -
    obtain rfl : cycle = before := Nat.succ.inj hcycle
    omega

omit hreset in
/-- Once a clock edge has passed the packet is open. -/
theorem next_ne_waiting (phase : Phase) (moved : Bool) :
    phase.next 1048575 moved ≠ .waiting := by
  cases phase with
  | waiting => simp [Phase.next]
  | sending sent =>
      rw [Phase.next]
      split_ifs <;> simp
  | closed => simp [Phase.next]

variable (converter core packetizer storage input) in
/-- A word is let through in a cycle. -/
def moves (cycle : ℕ) : Bool :=
  beat (stateAt converter core packetizer storage input cycle).packetizer
    (packetizerInput converter
      (stateAt converter core packetizer storage input cycle) (input cycle))

section Sending

variable {phase : Phase}
  (hsending : Sending converter core packetizer storage input cycle phase)
include hsending

/-- The script stays made and the packetizer open. -/
theorem Sending.slices :
    lineCount converter core packetizer storage input (cycle + 1) =
        design.script.length ∧
      slice2 (stateAt converter core packetizer storage input
        cycle).bus.core = true ∧
      packetData (stateAt converter core packetizer storage input
        cycle).bus.core = 1048575#32 := by
  have hnext := lineCount_succ converter packetizer storage input hreset cycle
  have hle := lineCount_le converter core packetizer storage input (cycle + 1)
  have hlate := hsending.late
  have hlength := (length_script_le design).1
  have hslices := slices_stateAt converter packetizer storage input hreset cycle
  refine ⟨by omega, ?_, ?_⟩
  · rw [hslices.packetizer (by omega), decide_eq_true (by omega)]
  · rw [hslices.packet, if_neg (by omega)]

omit hreset in
theorem Sending.shows_data :
    Shows (1048575#32).toNat
      (stateAt converter core packetizer storage input cycle).packetizer phase :=
  hsending.shows

theorem Sending.shows_succ :
    Shows 1048575 (stateAt converter core packetizer storage input
      (cycle + 1)).packetizer
      (phase.next 1048575
        (moves converter core packetizer storage input cycle)) := by
  obtain ⟨-, hrun, hdata⟩ := hsending.slices hreset
  rw [packetizer_succ, hdata]
  exact shows_step hrun hsending.shows_data

omit hreset in
theorem Sending.beats_succ :
    (phase.next 1048575
        (moves converter core packetizer storage input cycle)).beats 1048575 =
      (samples converter core packetizer storage input cycle).length +
        (moves converter core packetizer storage input cycle).toNat := by
  rw [← hsending.beats]
  exact beats_next hsending.shows_data

/-- A cycle without a word. -/
theorem Sending.wait
    (hmoves : moves converter core packetizer storage input cycle = false) :
    Sending converter core packetizer storage input (cycle + 1)
      (phase.next 1048575 false) := by
  obtain ⟨hlate, -, -⟩ := hsending.slices hreset
  have hshows := hsending.shows_succ hreset
  have hbeats := hsending.beats_succ
  have hnone : packet converter core packetizer storage input (cycle + 1) =
      packet converter core packetizer storage input cycle := by
    rw [packet_succ, packetWord,
      if_neg fun hboth => Bool.false_ne_true (hmoves.symm.trans hboth.2),
      List.append_nil]
  rw [hmoves] at hshows hbeats
  refine ⟨hlate, hshows, ?_, ?_, fun _ _ _ => next_ne_waiting _ _⟩
  · rw [hbeats, samples, samples, hnone]
    rfl
  · rw [samples, hnone]
    exact hsending.framed

/-- A word more, marked when it is the last one of the packet. -/
theorem Sending.word
    (hmoves : moves converter core packetizer storage input cycle = true) :
    Sending converter core packetizer storage input (cycle + 1)
      (phase.next 1048575 true) := by
  obtain ⟨hlate, -, hdata⟩ := hsending.slices hreset
  have hshows := hsending.shows_succ hreset
  have hbeats := hsending.beats_succ
  have hcount : 2 ≤ lineCount converter core packetizer storage input cycle := by
    have hlength := (length_script_le design).1
    have hbefore := hsending.late
    omega
  rw [hmoves] at hshows hbeats
  have hlast : mAxisTlast 1048575#32
      (stateAt converter core packetizer storage input cycle).packetizer =
        decide ((samples converter core packetizer storage input
          cycle).length + 1 = total) := by
    rw [mAxisTlast_of_beat hsending.shows_data hmoves, ← hsending.beats,
      decide_eq_decide]
    change phase.beats 1048575 = 1048575 ↔
      phase.beats 1048575 + 1 = 1048576
    omega
  have hone : packet converter core packetizer storage input (cycle + 1) =
      packet converter core packetizer storage input cycle ++
        [((input cycle).word.data, decide ((samples converter core packetizer
          storage input cycle).length + 1 = total))] := by
    rw [packet_succ, packetWord, if_pos ⟨hcount, hmoves⟩, hdata, hlast]
  have hshort : (samples converter core packetizer storage input
      cycle).length < total := by
    have hroom := hshows.beats_le
    rw [hbeats] at hroom
    exact hroom
  refine ⟨hlate, hshows, ?_, ?_, fun _ _ _ => next_ne_waiting _ _⟩
  · rw [hbeats, samples, samples, hone, List.map_append, List.length_append]
    rfl
  · rw [samples, hone, List.map_append, ← samples, List.map_singleton,
      run_framing_concat _ _ hshort, ← hsending.framed]

theorem Sending.succ :
    ∃ next, Sending converter core packetizer storage input (cycle + 1) next := by
  cases hmoves : moves converter core packetizer storage input cycle with
  | false => exact ⟨_, hsending.wait hreset hmoves⟩
  | true => exact ⟨_, hsending.word hreset hmoves⟩

end Sending

/-- In every cycle the packet is not begun or under way. -/
theorem before_or_sending
    (hrest : Resting core packetizer) (cycle : ℕ) :
    Before converter core packetizer storage input cycle ∨
      ∃ phase,
        Sending converter core packetizer storage input cycle phase := by
  have hlength := (length_script_le design).1
  induction cycle with
  | zero =>
      have hzero := lineCount_zero converter core packetizer storage input
      exact Or.inl ⟨by omega, hrest, fun hsix => by omega, rfl⟩
  | succ cycle ih =>
      obtain hbefore | ⟨phase, hsending⟩ := ih
      · obtain hlate | hearly := Nat.eq_or_lt_of_le
          (lineCount_le converter core packetizer storage input (cycle + 1))
        · exact Or.inr ⟨_, hbefore.last hreset hlate⟩
        · exact Or.inl (hbefore.succ hreset hearly)
      · exact Or.inr (hsending.succ hreset)

end Packet

end Run

end Rfsoc.Snapshot
