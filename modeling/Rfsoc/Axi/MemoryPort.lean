import Rfsoc.Axi.RamWriterFifo
import Rfsoc.Axi.RamWriterRing
import Rfsoc.Core.Composition
import Rfsoc.Core.Progress

/-!
# The memory behind the RAM writer

The memory port keeps the addresses that it has taken, counts the data beats and
stores each beat as many words past the address of its burst as the burst is
old.  With the port in the machine the ring is a fact about the memory of every
cycle: the last `2 ^ addrWidth` words stored stand in their slots.

Nothing tells the core that its stream has ended, so the words that do not make
up a burst stay in the FIFO.  All others are stored in the end.
-/

namespace Rfsoc.MemoryPort

open Filter
open Rfsoc.Clocked
open Rfsoc.Progress
open Rfsoc.RamWriter

variable {addrWidth axiIdWidth : ℕ} {base : Address}

/-- The memory port: the addresses and the number of the data beats taken so
far, and the memory by the byte address of each word. -/
structure Port (axiIdWidth : ℕ) where
  starts : List (AwBeat axiIdWidth)
  beats : ℕ
  memory : ℕ → Word

/-- Where a data beat goes: that many beats past the address of its burst. -/
def place (starts : List (AwBeat axiIdWidth)) (beat : ℕ) : Option ℕ :=
  (starts[beat / burstBeats]?).map fun start =>
    start.addr.toNat + beatBytes * (beat % burstBeats)

/-- A data beat is stored when the address of its burst has been taken. -/
def store (w : List (WBeat axiIdWidth)) (place : Option ℕ)
    (memory : ℕ → Word) : ℕ → Word :=
  match w, place with
  | beat :: _, some byte => Function.update memory byte beat.data
  | _, _ => memory

def Port.step (aw : List (AwBeat axiIdWidth)) (w : List (WBeat axiIdWidth))
    (port : Port axiIdWidth) : Port axiIdWidth where
  starts := port.starts ++ aw
  beats := port.beats + w.length
  memory := store w (place (port.starts ++ aw) port.beats) port.memory

/-- The words of the ring. -/
def slots (base : Address) (port : Port axiIdWidth) (slot : ℕ) : Word :=
  port.memory (base.toNat + 8 * slot)

/-- Slots have their own addresses. -/
theorem slot_injective (base : Address) :
    Function.Injective fun slot => base.toNat + 8 * slot := by
  intro left right heq
  have hslots : base.toNat + 8 * left = base.toNat + 8 * right := heq
  omega

/-- A data beat with its burst's address goes to its slot of the ring. -/
theorem place_eq (hwidth : 4 ≤ addrWidth)
    (hfits : base.toNat + 8 * 2 ^ addrWidth ≤ 2 ^ 32)
    {starts : List (AwBeat axiIdWidth)} {beat : ℕ}
    (hstarts : starts = (List.range starts.length).map
      (burstStart addrWidth axiIdWidth base))
    (hcover : beat < 16 * starts.length) :
    place starts beat = some (base.toNat + 8 * (beat % 2 ^ addrWidth)) := by
  have hburst : beat / 16 < starts.length := by omega
  have hstart : starts[beat / 16]? =
      some (burstStart addrWidth axiIdWidth base (beat / 16)) := by
    rw [hstarts, List.getElem?_map, List.getElem?_range hburst]
    rfl
  rw [place, show burstBeats = 16 from rfl, hstart, Option.map_some,
    burstStart_addr hwidth hfits, beatBytes_eq, add_assoc, slot_eq hwidth]

/-- A port that had taken some whole bursts before. -/
def Port.behind (old : List (AwBeat axiIdWidth)) (port : Port axiIdWidth) :
    Port axiIdWidth where
  starts := old ++ port.starts
  beats := burstBeats * old.length + port.beats
  memory := port.memory

/-- Whole bursts do not move the place of a later beat. -/
theorem place_behind (old starts : List (AwBeat axiIdWidth)) (beat : ℕ) :
    place (old ++ starts) (burstBeats * old.length + beat) =
      place starts beat := by
  have hpos : 0 < burstBeats := Nat.succ_pos _
  have hburst : (burstBeats * old.length + beat) / burstBeats =
      old.length + beat / burstBeats := by
    rw [Nat.add_comm, Nat.add_mul_div_left _ _ hpos, Nat.add_comm]
  rw [place, place, hburst, Nat.mul_add_mod,
    List.getElem?_append_right (Nat.le_add_right _ _), Nat.add_sub_cancel_left]

theorem Port.step_behind (old aw : List (AwBeat axiIdWidth))
    (w : List (WBeat axiIdWidth)) (port : Port axiIdWidth) :
    (port.behind old).step aw w = (port.step aw w).behind old := by
  simp only [Port.step, Port.behind, List.append_assoc, Nat.add_assoc,
    place_behind]

/-- Storing a beat in its slot is the writer's step on the ring. -/
theorem store_slot (base : Address) (memory : ℕ → Word) (slot : ℕ)
    (beat : WBeat axiIdWidth) :
    (fun other => store [beat] (some (base.toNat + 8 * slot)) memory
        (base.toNat + 8 * other)) =
      Function.update (fun other => memory (base.toNat + 8 * other)) slot
        beat.data :=
  Function.update_comp_eq_of_injective memory (slot_injective base) slot
    beat.data

structure State (addrWidth axiIdWidth : ℕ) where
  writer : RamWriter.State addrWidth axiIdWidth
  port : Port axiIdWidth

def step (base : Address) (s : State addrWidth axiIdWidth) (i : Input) :
    State addrWidth axiIdWidth where
  writer := RamWriter.step s.writer i
  port := s.port.step (awHandshake base s.writer i) (wHandshake s.writer i)

def system (addrWidth axiIdWidth : ℕ) (base : Address) (memory : ℕ → Word) :
    Machine (State addrWidth axiIdWidth) Input where
  start :=
    { writer := resetState
      port := { starts := [], beats := 0, memory := memory } }
  step := step base

section Run

variable (addrWidth axiIdWidth base) (memory : ℕ → Word) (input : ℕ → Input)

def stateAt (cycle : ℕ) : State addrWidth axiIdWidth :=
  (system addrWidth axiIdWidth base memory).stateAt input cycle

theorem component_writer :
    Component (system addrWidth axiIdWidth base memory)
      (core addrWidth axiIdWidth) State.writer fun _ i => i where
  start := rfl
  step := fun _ _ => rfl

theorem writer_stateAt (cycle : ℕ) :
    (stateAt addrWidth axiIdWidth base memory input cycle).writer =
      (core addrWidth axiIdWidth).stateAt input cycle :=
  (component_writer addrWidth axiIdWidth base memory).stateAt input cycle

/-- The port has taken what the core has handed over. -/
theorem port_stateAt (cycle : ℕ) :
    (stateAt addrWidth axiIdWidth base memory input cycle).port.starts =
        awBeats addrWidth axiIdWidth base input cycle ∧
      (stateAt addrWidth axiIdWidth base memory input cycle).port.beats =
        (wBeats addrWidth axiIdWidth input cycle).length := by
  induction cycle with
  | zero => exact ⟨rfl, rfl⟩
  | succ cycle ih =>
      obtain ⟨hstarts, hbeats⟩ := ih
      rw [awBeats, wBeats, Machine.log_succ, Machine.log_succ,
        List.length_append, ← awBeats, ← wBeats, ← hstarts, ← hbeats,
        ← writer_stateAt addrWidth axiIdWidth base memory]
      exact ⟨rfl, rfl⟩

end Run

section Run

variable {memory : ℕ → Word} {input : ℕ → Input} {horizon : ℕ}

/-- A cycle of the port puts its data beat in the next slot. -/
theorem slots_step {s : State addrWidth axiIdWidth} {i : Input}
    (hwidth : 4 ≤ addrWidth) (hfits : base.toNat + 8 * 2 ^ addrWidth ≤ 2 ^ 32)
    (hstarts : (step base s i).port.starts =
      (List.range (step base s i).port.starts.length).map
        (burstStart addrWidth axiIdWidth base))
    (hcover : (step base s i).port.beats ≤
      16 * (step base s i).port.starts.length)
    {stored : List Word} (hbeats : s.port.beats = stored.length)
    (hholds : Ring.Holds (slots base s.port) (2 ^ addrWidth) stored) :
    Ring.Holds (slots base (step base s i).port) (2 ^ addrWidth)
      (stored ++ (wHandshake s.writer i).map WBeat.data) := by
  cases hbeat : wHandshake s.writer i with
  | nil =>
      have hsame : (step base s i).port.memory = s.port.memory := by
        change store (wHandshake s.writer i) _ _ = _
        rw [hbeat]
        rfl
      rw [List.map_nil, List.append_nil]
      unfold slots
      rw [hsame]
      exact hholds
  | cons beat rest =>
      have hone := length_wHandshake_le s.writer i
      rw [hbeat, List.length_cons] at hone
      obtain rfl : rest = [] := List.length_eq_zero_iff.mp (by omega)
      have hgrow : (step base s i).port.beats = s.port.beats + 1 := by
        change s.port.beats + (wHandshake s.writer i).length = _
        rw [hbeat]
        rfl
      have hplace : place (step base s i).port.starts s.port.beats =
          some (base.toNat + 8 * (s.port.beats % 2 ^ addrWidth)) :=
        place_eq hwidth hfits hstarts (by omega)
      have hnext : slots base (step base s i).port =
          Function.update (slots base s.port) (stored.length % 2 ^ addrWidth)
            beat.data := by
        rw [← hbeats]
        unfold slots
        rw [← store_slot base s.port.memory _ beat, ← hplace, ← hbeat]
        rfl
      rw [hnext]
      exact hholds.concat beat.data

section Slave

variable (hwidth : 4 ≤ addrWidth)
  (hfits : base.toNat + 8 * 2 ^ addrWidth ≤ 2 ^ 32)
  (hslave : OrderlySlave addrWidth axiIdWidth base input horizon)
include hwidth hfits hslave

/-- The memory holds the last words stored. -/
theorem holds_stateAt :
    ∀ cycle ≤ horizon, Ring.Holds
      (slots base (stateAt addrWidth axiIdWidth base memory input cycle).port)
      (2 ^ addrWidth)
      ((wBeats addrWidth axiIdWidth input cycle).map WBeat.data) := by
  have hfirst := hslave.addressFirst hwidth
  refine upTo_induction horizon (Ring.holds_nil _ _) ?_
  intro cycle hcycle ih
  obtain ⟨-, hbeats⟩ := port_stateAt addrWidth axiIdWidth base memory input cycle
  obtain ⟨hstarts, hnext⟩ :=
    port_stateAt addrWidth axiIdWidth base memory input (cycle + 1)
  have hplaces := awBeats_eq base hwidth horizon hslave.run hfirst (cycle + 1)
    hcycle
  have hcover := hslave.address (cycle + 1) hcycle
  rw [← hstarts] at hplaces hcover
  rw [← hnext] at hcover
  have hstep := slots_step hwidth hfits hplaces hcover
    (hbeats.trans (List.length_map _).symm) ih
  rw [wBeats, Machine.log_succ, ← wBeats, List.map_append,
    ← writer_stateAt addrWidth axiIdWidth base memory]
  exact hstep

/-- A word that has been stored and not overwritten is in its slot. -/
theorem slots_eq {cycle k : ℕ} (hcycle : cycle ≤ horizon)
    (hstored : k <
      (stateAt addrWidth axiIdWidth base memory input cycle).port.beats)
    (hrecent :
      (stateAt addrWidth axiIdWidth base memory input cycle).port.beats ≤
        k + 2 ^ addrWidth) :
    (streamWords addrWidth axiIdWidth input cycle)[k]? =
      some (slots base
        (stateAt addrWidth axiIdWidth base memory input cycle).port
        (k % 2 ^ addrWidth)) := by
  obtain ⟨-, hbeats⟩ := port_stateAt addrWidth axiIdWidth base memory input cycle
  rw [hbeats, ← List.length_map WBeat.data] at hstored hrecent
  rw [streamWords_eq horizon hslave.run hslave.fifo cycle hcycle,
    List.getElem?_append_left hstored, List.getElem?_eq_getElem hstored,
    holds_stateAt hwidth hfits hslave cycle hcycle k hstored hrecent]

end Slave

end Run

section Drain

variable {input : ℕ → Input}

/-- The core has taken some words, has written others, and offers a data beat or
not. -/
def Stands (addrWidth axiIdWidth : ℕ) (input : ℕ → Input) (words : ℕ)
    (offers : Bool) (height cycle : ℕ) : Prop :=
  words ≤ (streamWords addrWidth axiIdWidth input cycle).length ∧
    (wBeats addrWidth axiIdWidth input cycle).length = height ∧
    ((core addrWidth axiIdWidth).stateAt input cycle).intWvalidReg = offers

theorem length_streamWords_mono {early late : ℕ} (hle : early ≤ late) :
    (streamWords addrWidth axiIdWidth input early).length ≤
      (streamWords addrWidth axiIdWidth input late).length :=
  (Machine.log_isPrefix streamHandshake hle).length_le

theorem length_wBeats_mono {early late : ℕ} (hle : early ≤ late) :
    (wBeats addrWidth axiIdWidth input early).length ≤
      (wBeats addrWidth axiIdWidth input late).length :=
  (Machine.log_isPrefix wHandshake hle).length_le

theorem intWvalidReg_succ {cycle : ℕ} (hrun : (input cycle).aresetn = true) :
    ((core addrWidth axiIdWidth).stateAt input (cycle + 1)).intWvalidReg =
      intWvalidNext ((core addrWidth axiIdWidth).stateAt input cycle)
        (input cycle) := by
  rw [Machine.stateAt_succ]
  exact if_pos hrun

section Slave

variable (hwidth : 4 ≤ addrWidth)
  (hslave : ∀ horizon, OrderlySlave addrWidth axiIdWidth base input horizon)
include hwidth hslave

/-- An idle core with the words of a burst to write begins one. -/
theorem idle_leadsTo
    (hflag : ∀ horizon, AlmostEmptyFlag addrWidth axiIdWidth input horizon)
    {words height : ℕ} (hmore : height < 16 * (words / 16)) :
    LeadsTo (Stands addrWidth axiIdWidth input words false height)
      (Stands addrWidth axiIdWidth input words true height) := by
  apply LeadsTo.of_next
  rintro cycle ⟨hwords, hheight, hidle⟩
  have hnow := hslave (cycle + 1)
  have hrun := hnow.run cycle (Nat.lt_succ_self cycle)
  have hinv : AddressInv (wBeats addrWidth axiIdWidth input cycle).length
      (awBeats addrWidth axiIdWidth base input cycle).length
      ((core addrWidth axiIdWidth).stateAt input cycle) :=
    addressInv_stateAt base hwidth (cycle + 1) hnow.run
      (hnow.addressFirst hwidth) cycle (Nat.le_succ cycle)
  have hwhole : height % 16 = 0 := hheight ▸ hinv.idle hidle
  have hlevel : stored addrWidth axiIdWidth input cycle =
      (streamWords addrWidth axiIdWidth input cycle).length - height := by
    rw [streamWords_eq (cycle + 1) hnow.run hnow.fifo cycle (Nat.le_succ cycle),
      List.length_append, List.length_map, hheight, Nat.add_sub_cancel_left,
      stored]
  have hempty : (input cycle).intEmptyWire = false := by
    rw [hflag (cycle + 1) cycle (Nat.lt_succ_self cycle), hlevel,
      decide_eq_false_iff_not]
    omega
  have hnone : ((core addrWidth axiIdWidth).stateAt input cycle).intAwvalidReg =
      false := by
    rw [← Bool.not_eq_true]
    intro hoffers
    exact Bool.false_ne_true (hidle.symm.trans (hinv.pending hoffers).1)
  have hread : intRdenWire ((core addrWidth axiIdWidth).stateAt input cycle)
      (input cycle) = false := by
    rw [intRdenWire, hidle, Bool.and_false]
  refine ⟨hwords.trans (length_streamWords_mono (Nat.le_succ cycle)), ?_, ?_⟩
  · rw [length_wBeats_succ, hread, hheight, Bool.toNat_false, Nat.add_zero]
  · rw [intWvalidReg_succ hrun, intWvalidNext, hempty, hnone, hidle]
    rfl

omit hwidth in
/-- A slave that is ready again and again takes the beat on offer. -/
theorem offers_leadsTo
    (hready : ∃ᶠ cycle in atTop, (input cycle).mAxiWready = true)
    {words height : ℕ} :
    LeadsTo (Stands addrWidth axiIdWidth input words true height)
      fun cycle => words ≤ (streamWords addrWidth axiIdWidth input cycle).length ∧
        height < (wBeats addrWidth axiIdWidth input cycle).length := by
  apply LeadsTo.of_event hready
  · rintro cycle ⟨hwords, hheight, hoffers⟩ hbusy
    rw [Bool.not_eq_true] at hbusy
    have hrun := (hslave (cycle + 1)).run cycle (Nat.lt_succ_self cycle)
    refine ⟨hwords.trans (length_streamWords_mono (Nat.le_succ cycle)), ?_, ?_⟩
    · rw [length_wBeats_succ, intRdenWire, hbusy, hheight]
      rfl
    · rw [intWvalidReg_succ hrun, intWvalidNext, hbusy, hoffers]
      simp
  · rintro cycle ⟨hwords, hheight, hoffers⟩ hbeat
    refine ⟨hwords.trans (length_streamWords_mono (Nat.le_succ cycle)), ?_⟩
    rw [length_wBeats_succ, intRdenWire, hbeat, hoffers, hheight]
    exact Nat.lt_succ_self height

/-- The beats of all complete bursts are taken in the end. -/
theorem bursts_leadsTo
    (hflag : ∀ horizon, AlmostEmptyFlag addrWidth axiIdWidth input horizon)
    (hready : ∃ᶠ cycle in atTop, (input cycle).mAxiWready = true) (words : ℕ) :
    LeadsTo
      (fun cycle =>
        words ≤ (streamWords addrWidth axiIdWidth input cycle).length)
      fun cycle =>
        words ≤ (streamWords addrWidth axiIdWidth input cycle).length ∧
          16 * (words / 16) ≤ (wBeats addrWidth axiIdWidth input cycle).length := by
  apply LeadsTo.climbs
  intro height hmore
  have hoffers : LeadsTo
      (Stands addrWidth axiIdWidth input words true height) _ :=
    offers_leadsTo hslave hready
  rintro cycle ⟨hwords, hheight⟩
  cases hvalid :
      ((core addrWidth axiIdWidth).stateAt input cycle).intWvalidReg with
  | true => exact hoffers cycle ⟨hwords, hheight, hvalid⟩
  | false =>
      exact ((idle_leadsTo hwidth hslave hflag hmore).trans hoffers) cycle
        ⟨hwords, hheight, hvalid⟩

end Slave

end Drain

/-- Every word that makes up a burst with others is in memory in the end, and
stays there until the ring has come round. -/
theorem memoryPort_drains (addrWidth axiIdWidth : ℕ) (hwidth : 4 ≤ addrWidth)
    (base : Address) (hfits : base.toNat + 8 * 2 ^ addrWidth ≤ 2 ^ 32)
    (memory : ℕ → Word) (input : ℕ → Input)
    (hslave : ∀ horizon, OrderlySlave addrWidth axiIdWidth base input horizon)
    (hflag : ∀ horizon, AlmostEmptyFlag addrWidth axiIdWidth input horizon)
    (hready : ∃ᶠ cycle in atTop, (input cycle).mAxiWready = true)
    (cycle k : ℕ)
    (hwhole : k <
      16 * ((streamWords addrWidth axiIdWidth input cycle).length / 16)) :
    ∃ done, cycle ≤ done ∧ ∀ later, done ≤ later →
      (stateAt addrWidth axiIdWidth base memory input later).port.beats ≤
          k + 2 ^ addrWidth →
        (streamWords addrWidth axiIdWidth input cycle)[k]? =
          some (slots base
            (stateAt addrWidth axiIdWidth base memory input later).port
            (k % 2 ^ addrWidth)) := by
  obtain ⟨done, hdone, -, hbeats⟩ :=
    bursts_leadsTo hwidth hslave hflag hready _ cycle le_rfl
  refine ⟨done, hdone, fun later hlater hrecent => ?_⟩
  have hstored : k <
      (stateAt addrWidth axiIdWidth base memory input later).port.beats := by
    rw [(port_stateAt addrWidth axiIdWidth base memory input later).2]
    exact hwhole.trans_le (hbeats.trans (length_wBeats_mono hlater))
  have htaken : streamWords addrWidth axiIdWidth input cycle <+:
      streamWords addrWidth axiIdWidth input later :=
    Machine.log_isPrefix streamHandshake (hdone.trans hlater)
  have hk : k < (streamWords addrWidth axiIdWidth input cycle).length := by
    omega
  rw [← slots_eq hwidth hfits (hslave later) le_rfl hstored hrecent,
    List.getElem?_eq_getElem hk, htaken.getElem hk,
    List.getElem?_eq_getElem (hk.trans_le htaken.length_le)]

/-! A stream of twenty words: one burst is written and four words are left. -/

def shortStream (cycle : ℕ) : Input where
  aresetn := true
  intEmptyWire := decide (cycle < 16 ∨ 21 < cycle)
  intFullWire := false
  mAxiAwready := true
  mAxiWready := true
  sAxisTdata := if cycle < 20 then BitVec.ofNat 64 cycle else 0
  sAxisTvalid := decide (cycle < 20)

deriving instance DecidableEq for RamWriter.State

theorem shortStream_rests : ∀ cycle, 33 ≤ cycle →
    (core 20 3).stateAt shortStream cycle = (core 20 3).stateAt shortStream 33 := by
  intro cycle hlate
  induction cycle, hlate using Nat.le_induction with
  | base => rfl
  | succ cycle hlate ih =>
      have hquiet : shortStream cycle = shortStream 33 := by
        have hdone : ¬ cycle < 20 := by omega
        simp [shortStream, hdone]
        omega
      rw [Machine.stateAt_succ, ih, hquiet]
      decide +kernel

theorem shortStream_orderly (horizon : ℕ) :
    OrderlySlave 20 3 0x1E000000#32 shortStream horizon := by
  have hquiet : ∀ cycle, 33 ≤ cycle →
      intRdenWire ((core 20 3).stateAt shortStream cycle) (shortStream cycle) =
        false := by
    intro cycle hlate
    rw [shortStream_rests cycle hlate]
    exact (Bool.and_comm _ _).trans
      (by decide +kernel : (((core 20 3).stateAt shortStream 33).intWvalidReg &&
        true) = false)
  refine ⟨fun _ _ => rfl, ?_, ?_⟩
  · intro cycle _ hread
    by_cases hlate : 33 ≤ cycle
    · exact absurd (hread.symm.trans (hquiet cycle hlate)) (by decide)
    · have hearly : ∀ cycle < 33,
          intRdenWire ((core 20 3).stateAt shortStream cycle)
              (shortStream cycle) = true →
            ((core 20 3).stateAt shortStream cycle).fifo ≠ [] := by
        decide +kernel
      exact hearly cycle (by omega) hread
  · intro cycle _
    by_cases hlate : 33 ≤ cycle
    · induction cycle, hlate using Nat.le_induction with
      | base => decide +kernel
      | succ cycle hlate ih =>
          rw [length_wBeats_succ, hquiet cycle hlate, length_awBeats_succ]
          have hbefore := ih (by omega)
          simp only [Bool.toNat_false]
          omega
    · have hearly : ∀ cycle < 33,
          (wBeats 20 3 shortStream cycle).length ≤
            16 * (awBeats 20 3 0x1E000000#32 shortStream cycle).length := by
        decide +kernel
      exact hearly cycle (by omega)

theorem shortStream_flag (horizon : ℕ) :
    AlmostEmptyFlag 20 3 shortStream horizon := by
  intro cycle _
  by_cases hlate : 33 ≤ cycle
  · have hlevel : stored 20 3 shortStream cycle = stored 20 3 shortStream 33 :=
      congrArg (fun s => s.fifo.length) (shortStream_rests cycle hlate)
    have hfour : stored 20 3 shortStream 33 = 4 := by decide +kernel
    rw [hlevel, hfour]
    simp only [shortStream]
    rw [decide_eq_decide]
    omega
  · have hearly : ∀ cycle < 33, (shortStream cycle).intEmptyWire =
        decide (stored 20 3 shortStream cycle ≤ 15) := by
      decide +kernel
    exact hearly cycle (by omega)

theorem memoryPort_drains_shortStream :
    ∃ done, 16 ≤ done ∧ ∀ later, done ≤ later →
      (stateAt 20 3 0x1E000000#32 (fun _ => 0) shortStream later).port.beats ≤
          5 + 2 ^ 20 →
        (streamWords 20 3 shortStream 16)[5]? =
          some (slots 0x1E000000#32
            (stateAt 20 3 0x1E000000#32 (fun _ => 0) shortStream later).port
            (5 % 2 ^ 20)) :=
  memoryPort_drains 20 3 (by decide) 0x1E000000#32 (by decide) (fun _ => 0)
    shortStream shortStream_orderly shortStream_flag
    (Frequently.of_forall fun _ => rfl) 16 5 (by decide +kernel)

end Rfsoc.MemoryPort
