import Rfsoc.Axi.CfgScript
import Rfsoc.Axis.Oscilloscope
import Rfsoc.System.Storage
import Mathlib.Tactic.IntervalCases

/-!
# The oscilloscope design

In `adc_recorder_trigger` the program resets the cores, configures them through
`cfg_0`, starts `scope_0` with a pulse of its run flag, polls the status word until
the acquisition has ended, and prints the window from the ring.  The samples come
from the filters and the trigger from `trig_0`; both are inputs here.

The run begins with a register that is out of reset and whose run flag is down.
All other registers may hold anything: what the program prints is settled by its
own reset, unless that cuts a burst of the writer short.
-/

namespace Rfsoc.Scope

open Rfsoc.Atomic
open Rfsoc.CfgBus
open Rfsoc.CfgRegister
open Rfsoc.CfgScript
open Rfsoc.Clocked
open Rfsoc.MemoryPort (Port)
open Rfsoc.Oscilloscope
open Rfsoc.Storage
open Rfsoc.Stream
open Rfsoc.WidthConverter

/-- The words of `cfg_0`. -/
def cfgSize : ℕ := 5

/-- `0x40000000`, where `cfg` is mapped. -/
def cfg : BitVec 32 := 0x40000000#32

/-- `*((uint16_t *)(cfg + 0))` on the left of an assignment operator. -/
def modifyLow (change : BitVec 16 → BitVec 16) : Line :=
  .modify cfg (fun word => (change (word.setWidth 16)).setWidth 32) 0b0011#4

/-- The lines of `main` up to the loop. -/
def script : List Line :=
  [modifyLow (· &&& ~~~1#16),
    modifyLow (· ||| 1#16),
    .write (cfg + 2) (0#32 <<< 16) 0b1100#4,
    .write (cfg + 4) 1#32 0b0011#4,
    .write (cfg + 6) (1#32 <<< 16) 0b1100#4,
    .write (cfg + 8) 1023#32 0b1111#4,
    .write (cfg + 12) 1048575#32 0b1111#4,
    .write (cfg + 16) 5#32 0b0011#4,
    modifyLow (· ||| 2#16),
    modifyLow (· &&& ~~~2#16)]

/-- Where `main` stands behind these lines, with what it has printed. -/
inductive Place where
  | polling
  | stopped
  | printing (start : BitVec 32) (values : List (BitVec 16 × BitVec 16))
  | printed (values : List (BitVec 16 × BitVec 16))

/-- The status word and the memory. -/
structure Sight (axiIdWidth : ℕ) where
  sts : BitVec 32
  port : Port axiIdWidth

/-- The number of samples that `main` prints. -/
def total : ℕ := 1024 * 1024

def offset (start : BitVec 32) (i : ℕ) : ℕ :=
  (((start + BitVec.ofNat 32 i) &&& 0x007FFFFF#32) * 4#32).toNat

variable {axiIdWidth : ℕ} {Conv : Type*}

def move (place : Place) (sight : Sight axiIdWidth) : Place :=
  match place with
  | .polling => if sight.sts &&& 1#32 = 0 then .stopped else .polling
  | .stopped => .printing (hostStart sight.sts) []
  | .printing start values =>
      if values.length < total then
        .printing start
          (values ++ [value sight.port (offset start values.length)])
      else .printed values
  | .printed values => .printed values

/-- What `main` has printed. -/
def Place.values : Place → Option (List (BitVec 16 × BitVec 16))
  | .printing _ values => some values
  | .printed values => some values
  | _ => none

def program : Client (Host Place) (Sight axiIdWidth) (Access 32) CfgBus.Word :=
  scripted .polling move

structure State (axiIdWidth : ℕ) (Conv : Type*) where
  bus : CfgBus.State cfgSize 32 (Host Place) (Sight axiIdWidth)
  scope : Oscilloscope.State 23
  storage : Storage.State axiIdWidth Conv

/-- A cycle of the environment: a turn of the program and the lines of its bus,
the sample of `fir_0`, the flag of `trig_0`, and the lines of the writer, of which
the stream and the reset are not used. -/
structure Input where
  turn : Bool
  aw : Bool
  w : Bool
  ar : Bool
  bready : Bool
  rready : Bool
  sample : Offer Sample
  trgFlag : Bool
  ports : RamWriter.Input

/-- The reset of the cores. -/
def slice1 (core : CfgRegister.State cfgSize) : Bool := (cfgData core).getLsbD 0

/-- The run flag. -/
def slice2 (core : CfgRegister.State cfgSize) : Bool := (cfgData core).getLsbD 1

def slice6 (core : CfgRegister.State cfgSize) : BitVec 32 :=
  (cfgData core).extractLsb' 64 32

def slice7 (core : CfgRegister.State cfgSize) : BitVec 32 :=
  (cfgData core).extractLsb' 96 32

/-- `pre_data` has the low bits of its slice. -/
def preData (core : CfgRegister.State cfgSize) : BitVec 23 :=
  (slice6 core).setWidth 23

def totData (core : CfgRegister.State cfgSize) : BitVec 23 :=
  (slice7 core).setWidth 23

section Wires

variable (converter : Core Conv (Sample × Bool) (BitVec 64))

/-- The first word of `sts_0` is the status of `scope_0`. -/
def sight (s : State axiIdWidth Conv) : Sight axiIdWidth where
  sts := (stsData s.scope).setWidth 32
  port := s.storage.memory.port

def busInput (s : State axiIdWidth Conv) (i : Input) :
    CfgBus.Input (Sight axiIdWidth) where
  choice := if i.turn then some (sight s) else none
  aw := i.aw
  w := i.w
  ar := i.ar
  bready := i.bready
  rready := i.rready

def scopeInput (s : State axiIdWidth Conv) (i : Input) :
    Oscilloscope.Input Sample where
  aresetn := slice1 s.bus.core
  runFlag := slice2 s.bus.core
  trgFlag := i.trgFlag
  sAxisTdata := i.sample.data
  sAxisTvalid := i.sample.valid

/-- `conv_0` gets no marks. -/
def storageInput (s : State axiIdWidth Conv) (i : Input) : Storage.Input where
  offer :=
    { valid := mAxisTvalid s.scope (scopeInput s i)
      data := (mAxisTdata (scopeInput s i), false) }
  ports := { i.ports with aresetn := slice1 s.bus.core }

def step (s : State axiIdWidth Conv) (i : Input) : State axiIdWidth Conv where
  bus := CfgBus.step program s.bus (busInput s i)
  scope := Oscilloscope.step (preData s.bus.core) (totData s.bus.core) s.scope
    (scopeInput s i)
  storage := resetStep converter s.storage (storageInput s i)

/-- The board when the program is started. -/
def system (core : CfgRegister.State cfgSize) (scope : Oscilloscope.State 23)
    (storage : Storage.State axiIdWidth Conv) :
    Machine (State axiIdWidth Conv) Input where
  start :=
    { bus := { core := core, master := { program := opened script, phase := .idle } }
      scope := scope
      storage := storage }
  step := step converter

/-- The lines of the script that have taken effect. -/
def linesMade (s : State axiIdWidth Conv) : ℕ :=
  linesDone script (settled program s.bus)

/-- The sample that `scope_0` hands on. -/
def forwarded (s : State axiIdWidth Conv) (i : Input) : List Sample :=
  if 2 ≤ linesMade s ∧ mAxisTvalid s.scope (scopeInput s i) = true then
    [mAxisTdata (scopeInput s i)]
  else []

/-- The data beat of `writer_0`. -/
def storedBeat (s : State axiIdWidth Conv) (i : Input) :
    List (RamWriter.WBeat axiIdWidth) :=
  if 2 ≤ linesMade s then RamWriter.wHandshake s.storage.memory.writer i.ports
  else []

end Wires

section Config

variable {start : ℕ → CfgBus.Word} {count : ℕ}

theorem readsInRange : ReadsInRange cfgSize script := by
  intro addr change strb hmem
  have hline : addr = cfg := by
    simp only [script, modifyLow, List.mem_cons, List.not_mem_nil,
      Line.modify.injEq, reduceCtorEq, false_or, or_false] at hmem
    obtain ⟨rfl, -⟩ | ⟨rfl, -⟩ | ⟨rfl, -⟩ | ⟨rfl, -⟩ := hmem <;> rfl
  rw [hline]
  decide +kernel

/-- The half of the first word that the program changes. -/
def low (words : ℕ → CfgBus.Word) : BitVec 16 := (words 0).setWidth 16

theorem low_modifyLow (change : BitVec 16 → BitVec 16) :
    low ((modifyLow change).perform cfgSize start) = change (low start) := by
  have hword : addressSlice cfgSize cfg = 0 := by decide +kernel
  have hstrobe : ∀ bit < 16, (0b0011#4).getLsbD (bit / 8) = true := by decide
  rw [modifyLow, Line.perform, Access.perform, hword, low,
    Function.update_self]
  apply BitVec.eq_of_getLsbD_eq
  intro bit hbit
  have hin : bit < 32 := by omega
  rw [BitVec.getLsbD_setWidth, getLsbD_merge, hstrobe bit hbit, if_pos rfl,
    BitVec.getLsbD_setWidth]
  simp [axiDataWidth, hbit, hin, low]

theorem low_write_high (data : CfgBus.Word) :
    low ((Line.write (cfg + 2) data 0b1100#4).perform cfgSize start) =
      low start := by
  have hword : addressSlice cfgSize (cfg + 2) = 0 := by decide +kernel
  have hstrobe : ∀ bit < 16, (0b1100#4).getLsbD (bit / 8) = false := by decide
  rw [Line.perform, Access.perform, hword, low, Function.update_self]
  apply BitVec.eq_of_getLsbD_eq
  intro bit hbit
  have hin : bit < 32 := by omega
  rw [BitVec.getLsbD_setWidth, getLsbD_merge, hstrobe bit hbit]
  simp [axiDataWidth, hbit, hin, low]

theorem low_write {addr : BitVec 32} {data : CfgBus.Word} {strb : BitVec 4}
    (hword : 0 ≠ addressSlice cfgSize addr) :
    low ((Line.write addr data strb).perform cfgSize start) = low start := by
  rw [low, perform_write_of_ne hword, low]

theorem perform_modifyLow_of_ne (change : BitVec 16 → BitVec 16) {word : ℕ}
    (hword : word ≠ addressSlice cfgSize cfg) :
    (modifyLow change).perform cfgSize start word = start word :=
  perform_modify_of_ne hword

/-- What the lines settle: the reset is down after the first line and up from the
second on, the run flag is up after the ninth only. -/
structure Config (start : ℕ → CfgBus.Word) (count : ℕ)
    (words : ℕ → CfgBus.Word) : Prop where
  reset : 1 ≤ count → (low words).getLsbD 0 = decide (2 ≤ count)
  run : (low start).getLsbD 1 = false →
    (low words).getLsbD 1 = decide (count = 9)
  pre : 6 ≤ count → words 2 = 1023#32
  tot : 7 ≤ count → words 3 = 1048575#32

theorem config_performed (hcount : count ≤ script.length) :
    Config start count (performed cfgSize script start count) := by
  have hlength : count ≤ 10 := hcount
  constructor
  · intro hone
    interval_cases count <;>
      simp (disch := decide +kernel) only [performed, script,
        List.take_succ_cons, List.take_zero, List.foldl_cons, List.foldl_nil,
        low_modifyLow, low_write_high, low_write] <;>
      simp
  · intro hdown
    have hbit : (low start)[1] = false := hdown
    interval_cases count <;>
      simp (disch := decide +kernel) only [performed, script,
        List.take_succ_cons, List.take_zero, List.foldl_cons, List.foldl_nil,
        low_modifyLow, low_write_high, low_write] <;>
      simp [hbit]
  · intro hpre
    interval_cases count <;>
      simp (disch := decide +kernel) only [performed, script,
        List.take_succ_cons, List.take_zero, List.foldl_cons, List.foldl_nil,
        perform_write_word, perform_write_of_ne, perform_modifyLow_of_ne]
  · intro htot
    interval_cases count <;>
      simp (disch := decide +kernel) only [performed, script,
        List.take_succ_cons, List.take_zero, List.foldl_cons, List.foldl_nil,
        perform_write_word, perform_write_of_ne, perform_modifyLow_of_ne]

/-- The configuration is about the words of the register only. -/
theorem Config.congr {words words' : ℕ → CfgBus.Word}
    (hconfig : Config start count words)
    (hwords : ∀ word < cfgSize, words' word = words word) :
    Config start count words' := by
  have hlow : low words' = low words :=
    congrArg (BitVec.setWidth 16) (hwords 0 (by decide))
  refine ⟨?_, ?_, ?_, ?_⟩
  · rw [hlow]
    exact hconfig.reset
  · rw [hlow]
    exact hconfig.run
  · rw [hwords 2 (by decide)]
    exact hconfig.pre
  · rw [hwords 3 (by decide)]
    exact hconfig.tot

end Config

section Slices

variable (core : CfgRegister.State cfgSize)

theorem slice1_eq : slice1 core = (low (cfgWord core)).getLsbD 0 := by
  simp [slice1, low, cfgWord, axiDataWidth]

theorem slice2_eq : slice2 core = (low (cfgWord core)).getLsbD 1 := by
  simp [slice2, low, cfgWord, axiDataWidth]

theorem slice6_eq : slice6 core = cfgWord core 2 := rfl

theorem slice7_eq : slice7 core = cfgWord core 3 := rfl

end Slices

/-- The slices after some lines of the script. -/
structure Slices (count : ℕ) (core : CfgRegister.State cfgSize) : Prop where
  reset : 1 ≤ count → slice1 core = decide (2 ≤ count)
  run : slice2 core = decide (count = 9)
  pre : 6 ≤ count → preData core = 1023#23
  tot : 7 ≤ count → totData core = 1048575#23

theorem Config.slices {start : ℕ → CfgBus.Word} {count : ℕ}
    {core : CfgRegister.State cfgSize}
    (hconfig : Config start count (cfgWord core))
    (hdown : (low start).getLsbD 1 = false) : Slices count core where
  reset := by
    rw [slice1_eq]
    exact hconfig.reset
  run := by
    rw [slice2_eq]
    exact hconfig.run hdown
  pre := by
    intro hpre
    rw [preData, slice6_eq, hconfig.pre hpre]
    rfl
  tot := by
    intro htot
    rw [totData, slice7_eq, hconfig.tot htot]
    rfl

end Rfsoc.Scope
