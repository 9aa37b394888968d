import Rfsoc.Axi.MemoryPort
import Rfsoc.Axis.StreamCores

/-!
# Samples in memory

The designs that record a snapshot end in `conv_0`, which pairs the samples, and in
a `writer_0` with a ring of `2 ^ 22` words.  A program that maps the ring reads it
by halves of samples, the two channels of sample `k` at `4 * k` and
`4 * k + 2` modulo the ring.

The run begins when both cores have come out of reset.
-/

namespace Rfsoc.Storage

open Rfsoc.Clocked
open Rfsoc.MemoryPort (Port slots)
open Rfsoc.Stream
open Rfsoc.WidthConverter

/-- `ADDR_WIDTH` of `writer_0`. -/
def addrWidth : ℕ := 22

/-- `cfg_data` of `writer_0`, and the address that `ram` is mapped to. -/
def ram : RamWriter.Address := 503316480#32

abbrev Sample := BitVec 32

variable {axiIdWidth : ℕ} {Conv : Type*}

structure State (axiIdWidth : ℕ) (Conv : Type*) where
  conv : Conv
  memory : MemoryPort.State addrWidth axiIdWidth

/-- The sample on offer with its mark, and the lines of the writer.  The stream
lines of `ports` are not used. -/
structure Input where
  offer : Offer (Sample × Bool)
  ports : RamWriter.Input

section Wires

variable (converter : Core Conv (Sample × Bool) (BitVec 64))

def convDrive (_ : State axiIdWidth Conv) (i : Input) : Drive (Sample × Bool) where
  offer := i.offer
  ready := RamWriter.intTreadyWire i.ports

def writerPorts (s : State axiIdWidth Conv) (i : Input) : RamWriter.Input :=
  { i.ports with
    sAxisTdata := (converter.offer s.conv i.offer).data
    sAxisTvalid := (converter.offer s.conv i.offer).valid }

def step (s : State axiIdWidth Conv) (i : Input) : State axiIdWidth Conv where
  conv := converter.step s.conv (convDrive s i)
  memory := MemoryPort.step ram s.memory (writerPorts converter s i)

def system (axiIdWidth : ℕ) (memory : ℕ → RamWriter.Word) :
    Machine (State axiIdWidth Conv) Input where
  start :=
    { conv := converter.start
      memory := (MemoryPort.system addrWidth axiIdWidth ram memory).start }
  step := step converter

/-- The 16 bits from a byte of a word on. -/
def half (word : BitVec 64) (byte : ℕ) : BitVec 16 :=
  word.extractLsb' (8 * byte) 16

/-- The 16 bits at a byte address. -/
def loadHalf (memory : ℕ → RamWriter.Word) (byte : ℕ) : BitVec 16 :=
  half (memory (byte / 8 * 8)) (byte % 8)

/-- The two loads of a sample at an offset in the ring. -/
def value (port : Port axiIdWidth) (offset : ℕ) : BitVec 16 × BitVec 16 :=
  (loadHalf port.memory (ram.toNat + offset),
    loadHalf port.memory (ram.toNat + offset + 2))

/-- The two channels of a sample. -/
def channels (sample : Sample) : BitVec 16 × BitVec 16 :=
  (sample.extractLsb' 0 16, sample.extractLsb' 16 16)

end Wires

section Word

variable {word : BitVec 64} {low high : BitVec 32}

theorem half_low (hword : word = high ++ low) {byte : ℕ} (hfits : byte ≤ 2) :
    half word byte = low.extractLsb' (8 * byte) 16 := by
  subst hword
  apply BitVec.eq_of_getLsbD_eq
  intro bit hbit
  have hlow : 8 * byte + bit < 32 := by omega
  rw [half, BitVec.getLsbD_extractLsb', BitVec.getLsbD_extractLsb',
    BitVec.getLsbD_append, if_pos hlow]

theorem half_high (hword : word = high ++ low) (byte : ℕ) :
    half word (4 + byte) = high.extractLsb' (8 * byte) 16 := by
  subst hword
  apply BitVec.eq_of_getLsbD_eq
  intro bit hbit
  have hhigh : ¬ 8 * (4 + byte) + bit < 32 := by omega
  have hrest : 8 * (4 + byte) + bit - 32 = 8 * byte + bit := by omega
  rw [half, BitVec.getLsbD_extractLsb', BitVec.getLsbD_extractLsb',
    BitVec.getLsbD_append, if_neg hhigh, hrest]

end Word

/-- Either half of a pair is a sample. -/
theorem value_of_pair (port : Port axiIdWidth) {k : ℕ} {low high : Sample}
    (hword : slots ram port (k / 2 % 2 ^ addrWidth) = high ++ low) :
    value port (4 * (k % 2 ^ 23)) =
      channels (if k % 2 = 0 then low else high) := by
  have hslot : k / 2 % 2 ^ addrWidth = k % 2 ^ 23 / 2 := by
    rw [show addrWidth = 22 from rfl]
    omega
  have hparity : k % 2 ^ 23 % 2 = k % 2 :=
    Nat.mod_mod_of_dvd k (by norm_num)
  rw [hslot] at hword
  unfold slots at hword
  generalize k % 2 ^ 23 = slot at hparity hword ⊢
  have hram : ram.toNat % 8 = 0 := by decide
  have hbyte : (ram.toNat + 4 * slot) / 8 * 8 = ram.toNat + 8 * (slot / 2) := by
    omega
  have hnext : (ram.toNat + 4 * slot + 2) / 8 * 8 =
      ram.toNat + 8 * (slot / 2) := by
    omega
  simp only [value, loadHalf, hbyte, hnext]
  split
  case isTrue heven =>
    have hfirst : (ram.toNat + 4 * slot) % 8 = 0 := by omega
    have hsecond : (ram.toNat + 4 * slot + 2) % 8 = 2 := by omega
    rw [hfirst, hsecond]
    exact Prod.ext (half_low hword (Nat.zero_le 2)) (half_low hword le_rfl)
  case isFalse hodd =>
    have hfirst : (ram.toNat + 4 * slot) % 8 = 4 + 0 := by omega
    have hsecond : (ram.toNat + 4 * slot + 2) % 8 = 4 + 2 := by omega
    rw [hfirst, hsecond]
    exact Prod.ext (half_high hword 0) (half_high hword 2)

section Run

variable (axiIdWidth) (converter : Core Conv (Sample × Bool) (BitVec 64))
  (memory : ℕ → RamWriter.Word) (input : ℕ → Input)

def stateAt (cycle : ℕ) : State axiIdWidth Conv :=
  (system converter axiIdWidth memory).stateAt input cycle

/-- The lines of the converter along a run. -/
def convDrives : ℕ → Drive (Sample × Bool) :=
  wired (system converter axiIdWidth memory) convDrive input

/-- The lines of the writer along a run. -/
def writerInputs : ℕ → RamWriter.Input :=
  wired (system converter axiIdWidth memory) (writerPorts converter) input

/-- The samples that the converter has taken before a cycle. -/
def taken (cycle : ℕ) : List (Sample × Bool) :=
  converter.accepted (convDrives axiIdWidth converter memory input) cycle

theorem component_conv :
    Component (system converter axiIdWidth memory) converter.machine State.conv
      convDrive where
  start := rfl
  step := fun _ _ => rfl

theorem component_memory :
    Component (system converter axiIdWidth memory)
      (MemoryPort.system addrWidth axiIdWidth ram memory) State.memory
      (writerPorts converter) where
  start := rfl
  step := fun _ _ => rfl

theorem memory_stateAt (cycle : ℕ) :
    (stateAt axiIdWidth converter memory input cycle).memory =
      MemoryPort.stateAt addrWidth axiIdWidth ram memory
        (writerInputs axiIdWidth converter memory input) cycle :=
  (component_memory axiIdWidth converter memory).stateAt input cycle

/-- The writer takes what the converter hands on. -/
theorem streamWords_eq (cycle : ℕ) :
    RamWriter.streamWords addrWidth axiIdWidth
        (writerInputs axiIdWidth converter memory input) cycle =
      converter.transferred (convDrives axiIdWidth converter memory input)
        cycle := by
  have hwriter := ((component_memory axiIdWidth converter memory).trans
    (MemoryPort.component_writer addrWidth axiIdWidth ram memory)).log input
      RamWriter.streamHandshake cycle
  have hconv := (component_conv axiIdWidth converter memory).log input
    converter.transferredWord cycle
  refine hwriter.trans (Eq.trans ?_ hconv.symm)
  apply Machine.log_congr
  intro earlier _
  rw [RamWriter.streamHandshake, Bool.and_comm]
  rfl

variable {axiIdWidth converter memory input}
  {alone : Sample → BitVec 64}
  {shows : Conv → Option Sample → List (BitVec 64) → Prop} {horizon : ℕ}

/-- The converter hands the pairs on in their order. -/
theorem transferred_ledger
    (hconverter : Realizes converter (pairing alone) (fun _ _ => True) shows)
    (hempty : shows converter.start none []) (cycle : ℕ) {samples : List Sample}
    (hpairs : (pairing alone).run none
      (taken axiIdWidth converter memory input cycle) = pairs samples) :
    ∃ owed, pairs samples =
      converter.transferred (convDrives axiIdWidth converter memory input)
        cycle ++ owed := by
  have hgood : ∀ earlier < cycle, (fun (_ : Conv) (_ : Drive _) => True)
      (converter.stateAt (convDrives axiIdWidth converter memory input) earlier)
      (convDrives axiIdWidth converter memory input earlier) :=
    fun _ _ => trivial
  obtain ⟨owed, -, hledger⟩ := hconverter.ledger hempty hgood cycle le_rfl
  rw [List.nil_append, ← taken, hpairs] at hledger
  exact ⟨owed, hledger⟩

/-- A sample is read in its place once its word has been stored, until the ring
has come round. -/
theorem value_eq
    (hconverter : Realizes converter (pairing alone) (fun _ _ => True) shows)
    (hempty : shows converter.start none [])
    (hslave : RamWriter.OrderlySlave addrWidth axiIdWidth ram
      (writerInputs axiIdWidth converter memory input) horizon)
    {cycle : ℕ} (hcycle : cycle ≤ horizon) {samples : List Sample}
    (hpairs : (pairing alone).run none
      (taken axiIdWidth converter memory input cycle) = pairs samples)
    {k : ℕ}
    (hstored : k / 2 < (stateAt axiIdWidth converter memory input
      cycle).memory.port.beats)
    (hrecent : (stateAt axiIdWidth converter memory input
      cycle).memory.port.beats ≤ k / 2 + 2 ^ addrWidth) :
    samples[k]?.map channels =
      some (value (stateAt axiIdWidth converter memory input cycle).memory.port
        (4 * (k % 2 ^ 23))) := by
  rw [memory_stateAt] at hstored hrecent ⊢
  have hword : (RamWriter.streamWords addrWidth axiIdWidth
      (writerInputs axiIdWidth converter memory input) cycle)[k / 2]? =
        some (slots ram (MemoryPort.stateAt addrWidth axiIdWidth ram memory
          (writerInputs axiIdWidth converter memory input) cycle).port
          (k / 2 % 2 ^ addrWidth)) :=
    MemoryPort.slots_eq (by decide) (by decide) hslave hcycle hstored hrecent
  obtain ⟨owed, hledger⟩ := transferred_ledger hconverter hempty cycle hpairs
  rw [← streamWords_eq] at hledger
  have hplace : k / 2 < (RamWriter.streamWords addrWidth axiIdWidth
      (writerInputs axiIdWidth converter memory input) cycle).length := by
    by_contra hbeyond
    rw [List.getElem?_eq_none (by omega)] at hword
    exact Option.some_ne_none _ hword.symm
  have hpair : (pairs samples)[k / 2]? = some (slots ram
      (MemoryPort.stateAt addrWidth axiIdWidth ram memory
        (writerInputs axiIdWidth converter memory input) cycle).port
      (k / 2 % 2 ^ addrWidth)) := by
    rw [hledger]
    exact (List.getElem?_append_left hplace).trans hword
  rw [getElem?_pairs] at hpair
  obtain ⟨high, hhigh, hpair⟩ := Option.bind_eq_some_iff.mp hpair
  obtain ⟨low, hlow, hpair⟩ := Option.map_eq_some_iff.mp hpair
  rw [value_of_pair _ hpair.symm]
  split
  case isTrue heven =>
    have hk : 2 * (k / 2) = k := by omega
    rw [hk] at hlow
    rw [hlow]
    rfl
  case isFalse hodd =>
    have hk : 2 * (k / 2) + 1 = k := by omega
    rw [hk] at hhigh
    rw [hhigh]
    rfl

/-- No more words are stored than there are pairs. -/
theorem beats_le
    (hconverter : Realizes converter (pairing alone) (fun _ _ => True) shows)
    (hempty : shows converter.start none [])
    (hslave : RamWriter.OrderlySlave addrWidth axiIdWidth ram
      (writerInputs axiIdWidth converter memory input) horizon)
    {cycle : ℕ} (hcycle : cycle ≤ horizon) {samples : List Sample}
    (hpairs : (pairing alone).run none
      (taken axiIdWidth converter memory input cycle) = pairs samples) :
    (stateAt axiIdWidth converter memory input cycle).memory.port.beats ≤
      samples.length / 2 := by
  obtain ⟨owed, hledger⟩ := transferred_ledger hconverter hempty cycle hpairs
  have hlength := congrArg List.length hledger
  rw [length_pairs, List.length_append] at hlength
  have hwords : (RamWriter.streamWords addrWidth axiIdWidth
      (writerInputs axiIdWidth converter memory input) cycle).length =
        (converter.transferred (convDrives axiIdWidth converter memory input)
          cycle).length :=
    congrArg List.length (streamWords_eq axiIdWidth converter memory input cycle)
  rw [RamWriter.streamWords_eq horizon hslave.run hslave.fifo cycle hcycle,
    List.length_append, List.length_map] at hwords
  rw [memory_stateAt, (MemoryPort.port_stateAt addrWidth axiIdWidth ram memory
    (writerInputs axiIdWidth converter memory input) cycle).2]
  omega

end Run

/-! ## In a larger design

The designs reset the converter and the writer before they use them.  The memory
port is not reset: of a burst that was cut short it would still be owed the rest.
When every burst is complete, what it had taken before makes no difference. -/

/-- The storage with the reset line of its two cores. -/
def resetStep (converter : Core Conv (Sample × Bool) (BitVec 64))
    (s : State axiIdWidth Conv) (i : Input) : State axiIdWidth Conv where
  conv :=
    if i.ports.aresetn then converter.step s.conv (convDrive s i)
    else converter.start
  memory := MemoryPort.step ram s.memory (writerPorts converter s i)

def State.behind (old : List (RamWriter.AwBeat axiIdWidth))
    (s : State axiIdWidth Conv) : State axiIdWidth Conv :=
  { s with memory := { s.memory with port := s.memory.port.behind old } }

section Reset

variable {converter : Core Conv (Sample × Bool) (BitVec 64)}
  {s : State axiIdWidth Conv} {i : Input}

theorem resetStep_high (hhigh : i.ports.aresetn = true) :
    resetStep converter s i = step converter s i := by
  rw [resetStep, if_pos hhigh]
  rfl

/-- A cycle in reset empties the storage, behind the bursts of the port. -/
theorem resetStep_low (hshreg : s.memory.writer.resetShreg = 0)
    (hlow : i.ports.aresetn = false)
    (hwhole : (resetStep converter s i).memory.port.beats =
      16 * (resetStep converter s i).memory.port.starts.length) :
    resetStep converter s i =
      ((system converter axiIdWidth
        (resetStep converter s i).memory.port.memory).start).behind
          (resetStep converter s i).memory.port.starts := by
  have hwriter : (resetStep converter s i).memory.writer =
      RamWriter.resetState :=
    RamWriter.step_of_drained s.memory.writer (writerPorts converter s i) hshreg
      hlow
  have hconv : (resetStep converter s i).conv = converter.start := by
    rw [resetStep, hlow]
    rfl
  generalize resetStep converter s i = next at hwhole hwriter hconv ⊢
  obtain ⟨conv, writer, starts, beats, memory⟩ := next
  obtain rfl := hwriter
  obtain rfl := hconv
  change beats = 16 * starts.length at hwhole
  subst hwhole
  simp [State.behind, Port.behind, system, MemoryPort.system,
    RamWriter.burstBeats, RamWriter.mAxiAwlen]

theorem resetShreg_resetStep (hshreg : s.memory.writer.resetShreg = 0) :
    (resetStep converter s i).memory.writer.resetShreg = 0 := by
  change s.memory.writer.resetShreg.extractLsb' 0 9 ++ 0#1 = 0
  rw [hshreg]
  decide

/-- Whole bursts of the past go along. -/
theorem step_behind (old : List (RamWriter.AwBeat axiIdWidth)) :
    step converter (s.behind old) i = (step converter s i).behind old := by
  simp only [step, State.behind, MemoryPort.step, convDrive, writerPorts,
    Port.step_behind]

end Reset

section Released

variable (converter : Core Conv (Sample × Bool) (BitVec 64))
  (run : ℕ → State axiIdWidth Conv) (lines : ℕ → Input)

/-- A storage that has come out of reset in a cycle behind some whole bursts, with
a memory port that serves it, the samples that it has accepted since and the
number of words that it has stored. -/
structure Released (old : List (RamWriter.AwBeat axiIdWidth))
    (memory : ℕ → RamWriter.Word) (accepted : ℕ → List (Sample × Bool))
    (stored : ℕ → ℕ) (release cycle : ℕ) : Prop where
  before : release ≤ cycle
  fresh : run release = (system converter axiIdWidth memory).start.behind old
  empty : accepted release = [] ∧ stored release = 0
  step : ∀ between, release ≤ between → between < cycle →
    (lines between).ports.aresetn = true ∧
      run (between + 1) = step converter (run between) (lines between)
  takes : ∀ between, release ≤ between → between < cycle →
    accepted (between + 1) = accepted between ++
      converter.acceptedWord (run between).conv
        (convDrive (run between) (lines between))
  stores : ∀ between, release ≤ between → between < cycle →
    stored (between + 1) = stored between +
      (RamWriter.wHandshake (run between).memory.writer
        (lines between).ports).length
  fifo : ∀ between, release ≤ between → between < cycle →
    RamWriter.intRdenWire (run between).memory.writer (lines between).ports =
        true →
      (run between).memory.writer.fifo ≠ []
  address : ∀ between, release ≤ between → between ≤ cycle →
    (run between).memory.port.beats ≤
      16 * (run between).memory.port.starts.length

variable {converter run lines}

namespace Released

variable {old : List (RamWriter.AwBeat axiIdWidth)}
  {memory : ℕ → RamWriter.Word} {accepted : ℕ → List (Sample × Bool)}
  {stored : ℕ → ℕ} {release later : ℕ}
  (hreleased : Released converter run lines old memory accepted stored release
    (release + later))
include hreleased

/-- From its release on the storage runs by itself. -/
theorem run_eq (between : ℕ) (hbetween : between ≤ later) :
    run (release + between) =
      (stateAt axiIdWidth converter memory (fun k => lines (release + k))
        between).behind old := by
  induction between with
  | zero => exact hreleased.fresh
  | succ between ih =>
      rw [← Nat.add_assoc, (hreleased.step _ (by omega) (by omega)).2,
        ih (by omega), step_behind]
      rfl

theorem taken_eq (between : ℕ) (hbetween : between ≤ later) :
    taken axiIdWidth converter memory (fun k => lines (release + k)) between =
      accepted (release + between) := by
  induction between with
  | zero => exact hreleased.empty.1.symm
  | succ between ih =>
      have hconv : converter.machine.stateAt
          (convDrives axiIdWidth converter memory fun k => lines (release + k))
          between = (run (release + between)).conv := by
        rw [hreleased.run_eq between (by omega)]
        exact ((component_conv axiIdWidth converter memory).stateAt _ _).symm
      rw [← Nat.add_assoc, hreleased.takes _ (by omega) (by omega), taken,
        Core.accepted, Machine.log_succ, ← Core.accepted, ← taken,
        ih (by omega), hconv]
      rfl

/-- The words stored since then are the beats of the storage by itself. -/
theorem stored_eq (between : ℕ) (hbetween : between ≤ later) :
    stored (release + between) =
      (stateAt axiIdWidth converter memory (fun k => lines (release + k))
        between).memory.port.beats := by
  induction between with
  | zero => exact hreleased.empty.2
  | succ between ih =>
      rw [← Nat.add_assoc, hreleased.stores _ (by omega) (by omega),
        ih (by omega), hreleased.run_eq between (by omega)]
      rfl

theorem orderlySlave :
    RamWriter.OrderlySlave addrWidth axiIdWidth ram
      (writerInputs axiIdWidth converter memory fun k => lines (release + k))
      later := by
  refine ⟨?_, ?_, ?_⟩
  · intro between hbetween
    exact (hreleased.step (release + between) (by omega) (by omega)).1
  · intro between hbetween
    have hfifo := hreleased.fifo (release + between) (by omega) (by omega)
    rw [hreleased.run_eq between hbetween.le] at hfifo
    change _ → (stateAt axiIdWidth converter memory
      (fun k => lines (release + k)) between).memory.writer.fifo ≠ [] at hfifo
    rw [← MemoryPort.writer_stateAt addrWidth axiIdWidth ram memory,
      ← memory_stateAt]
    exact hfifo
  · intro between hbetween
    have haddress := hreleased.address (release + between) (by omega) (by omega)
    have hport := MemoryPort.port_stateAt addrWidth axiIdWidth ram memory
      (writerInputs axiIdWidth converter memory fun k => lines (release + k))
      between
    rw [hreleased.run_eq between hbetween] at haddress
    change RamWriter.burstBeats * old.length + (stateAt axiIdWidth converter
        memory (fun k => lines (release + k)) between).memory.port.beats ≤
      16 * (old ++ (stateAt axiIdWidth converter memory
        (fun k => lines (release + k)) between).memory.port.starts).length
      at haddress
    rw [memory_stateAt, hport.1, hport.2,
      List.length_append, show RamWriter.burstBeats = 16 from rfl] at haddress
    omega

/-- The ring holds the accepted samples, as far as they are stored. -/
theorem holds {alone : Sample → BitVec 64}
    {shows : Conv → Option Sample → List (BitVec 64) → Prop}
    (hconverter : Realizes converter (pairing alone) (fun _ _ => True) shows)
    (hempty : shows converter.start none []) {samples : List Sample}
    (hpairs : (pairing alone).run none (accepted (release + later)) =
      pairs samples) :
    stored (release + later) ≤ samples.length / 2 ∧
      ∀ k, k / 2 < stored (release + later) →
        stored (release + later) ≤ k / 2 + 2 ^ addrWidth →
        samples[k]?.map channels =
          some (value (run (release + later)).memory.port
            (4 * (k % 2 ^ 23))) := by
  have hslave := hreleased.orderlySlave
  rw [← hreleased.taken_eq later le_rfl] at hpairs
  rw [hreleased.run_eq later le_rfl, hreleased.stored_eq later le_rfl]
  exact ⟨beats_le hconverter hempty hslave le_rfl hpairs,
    fun k hstored hrecent =>
      value_eq hconverter hempty hslave le_rfl hpairs hstored hrecent⟩

end Released

end Released

end Rfsoc.Storage
