import Rfsoc.Axi.RamWriterBursts
import Rfsoc.Core.Ring
import Mathlib.Tactic.Positivity

/-!
# The RAM writer as a ring buffer

With a slave that takes each burst's address no later than its first data
beat, the memory image of a run is the ring: stream word `k` is stored at
`base + 8 * (k % 2 ^ addrWidth)` and nowhere else.
-/

namespace Rfsoc.RamWriter

open Rfsoc.Clocked

/-- Data beats of a burst, as announced on `m_axi_awlen`. -/
def burstBeats : ℕ := mAxiAwlen.toNat + 1

/-- Bytes of a data beat, as announced on `m_axi_awsize`. -/
def beatBytes : ℕ := 2 ^ mAxiAwsize.toNat

theorem beatBytes_eq : beatBytes = 8 := by
  rw [beatBytes, mAxiAwsize, addrSize_eq]
  rfl

/-- What a slave stores: data beat `k` is beat `k % burstBeats` of burst
`k / burstBeats`, and goes that many beats past the burst's address.  The place
is missing when that address has not been taken. -/
def slaveStores {axiIdWidth : ℕ} (aw : List (AwBeat axiIdWidth))
    (w : List (WBeat axiIdWidth)) : List (Option ℕ × Word) :=
  w.zipIdx.map fun beat =>
    ((aw[beat.2 / burstBeats]?).map fun start =>
        start.addr.toNat + beatBytes * (beat.2 % burstBeats),
      beat.1.data)

section Run

variable (addrWidth axiIdWidth : ℕ) (base : Address) (input : ℕ → Input)

/-- The environment of a run up to a horizon: reset is over, the FIFO is never
read while empty, and the slave takes the address of every burst no later than
the cycle in which it takes the burst's first data beat. -/
structure OrderlySlave (horizon : ℕ) : Prop where
  run : ∀ cycle < horizon, (input cycle).aresetn = true
  fifo : ∀ cycle < horizon,
    intRdenWire ((core addrWidth axiIdWidth).stateAt input cycle)
        (input cycle) = true →
      ((core addrWidth axiIdWidth).stateAt input cycle).fifo ≠ []
  address : ∀ cycle ≤ horizon,
    (wBeats addrWidth axiIdWidth input cycle).length ≤
      16 * (awBeats addrWidth axiIdWidth base input cycle).length

/-- The ring buffer contract at a cycle: the status word counts the data
beats, the stores are the stream words in order with word `k` in slot
`k % 2 ^ addrWidth`, every burst has its own address and ID on both channels,
and no burst leaves the window or crosses a 4 KB boundary. -/
structure RingBuffer (cycle : ℕ) : Prop where
  status : (stsData ((core addrWidth axiIdWidth).stateAt input cycle)).toNat =
    (wBeats addrWidth axiIdWidth input cycle).length % 2 ^ addrWidth
  taken : (wBeats addrWidth axiIdWidth input cycle).length ≤
    (streamWords addrWidth axiIdWidth input cycle).length
  stores : slaveStores (awBeats addrWidth axiIdWidth base input cycle)
      (wBeats addrWidth axiIdWidth input cycle) =
    ((streamWords addrWidth axiIdWidth input cycle).take
        (wBeats addrWidth axiIdWidth input cycle).length).zipIdx.map
      fun word => (some (base.toNat + 8 * (word.2 % 2 ^ addrWidth)), word.1)
  address : ∀ burst (h : burst <
      (awBeats addrWidth axiIdWidth base input cycle).length),
    ((awBeats addrWidth axiIdWidth base input cycle)[burst]).addr.toNat =
        base.toNat + 128 * (burst % 2 ^ (addrWidth - 4)) ∧
      ((awBeats addrWidth axiIdWidth base input cycle)[burst]).id.toNat =
        burst % 2 ^ axiIdWidth
  beatId : ∀ beat (h : beat < (wBeats addrWidth axiIdWidth input cycle).length),
    ((wBeats addrWidth axiIdWidth input cycle)[beat]).id.toNat =
      beat / 16 % 2 ^ axiIdWidth
  window : ∀ start ∈ awBeats addrWidth axiIdWidth base input cycle,
    base.toNat ≤ start.addr.toNat ∧
      start.addr.toNat + 128 ≤ base.toNat + 8 * 2 ^ addrWidth ∧
      start.addr.toNat / 4096 = (start.addr.toNat + 127) / 4096

end Run

variable {addrWidth axiIdWidth : ℕ} {base : Address} {input : ℕ → Input}

theorem AddressInv.addressFirst {beats addresses : ℕ}
    {s : State addrWidth axiIdWidth} {i : Input}
    (hinv : AddressInv beats addresses s)
    (hslave : beats + (intRdenWire s i).toNat ≤
      16 * (addresses + (awTaken s i).toNat)) :
    AddressFirst s i := by
  intro hawvalid hwvalid hwready
  have hissued := hinv.issued
  obtain ⟨-, hstart⟩ := hinv.pending hawvalid
  cases hawready : i.mAxiAwready with
  | true => rfl
  | false =>
      simp [intRdenWire, awTaken, hawvalid, hwvalid, hwready, hawready] at hslave
      simp [hawvalid, hwvalid] at hissued
      omega

theorem OrderlySlave.addressFirst {horizon : ℕ} (hwidth : 4 ≤ addrWidth)
    (hslave : OrderlySlave addrWidth axiIdWidth base input horizon) :
    ∀ cycle < horizon,
      AddressFirst ((core addrWidth axiIdWidth).stateAt input cycle)
        (input cycle) := by
  have hfirst : ∀ cycle < horizon,
      AddressInv (wBeats addrWidth axiIdWidth input cycle).length
        (awBeats addrWidth axiIdWidth base input cycle).length
        ((core addrWidth axiIdWidth).stateAt input cycle) →
      AddressFirst ((core addrWidth axiIdWidth).stateAt input cycle)
        (input cycle) := by
    intro cycle hcycle hinv
    apply hinv.addressFirst
    rw [← length_wBeats_succ, ← length_awBeats_succ]
    exact hslave.address (cycle + 1) hcycle
  have hinv : ∀ cycle ≤ horizon,
      AddressInv (wBeats addrWidth axiIdWidth input cycle).length
        (awBeats addrWidth axiIdWidth base input cycle).length
        ((core addrWidth axiIdWidth).stateAt input cycle) := by
    refine upTo_induction horizon addressInv_resetState ?_
    intro cycle hcycle ih
    rw [length_wBeats_succ, length_awBeats_succ]
    exact ih.step hwidth (hslave.run cycle hcycle) (hfirst cycle hcycle ih)
  exact fun cycle hcycle => hfirst cycle hcycle (hinv cycle hcycle.le)

/-- Taken stream words are the data beats so far and then the FIFO contents. -/
theorem streamWords_eq (horizon : ℕ)
    (hrun : ∀ cycle < horizon, (input cycle).aresetn = true)
    (hfifo : ∀ cycle < horizon,
      intRdenWire ((core addrWidth axiIdWidth).stateAt input cycle)
          (input cycle) = true →
        ((core addrWidth axiIdWidth).stateAt input cycle).fifo ≠ []) :
    ∀ cycle ≤ horizon,
      streamWords addrWidth axiIdWidth input cycle =
        (wBeats addrWidth axiIdWidth input cycle).map WBeat.data ++
          ((core addrWidth axiIdWidth).stateAt input cycle).fifo := by
  refine upTo_induction horizon rfl ?_
  intro cycle hcycle ih
  have hreset : fifoReset ((core addrWidth axiIdWidth).stateAt input cycle)
      (input cycle) = false :=
    fifoReset_stateAt horizon hrun cycle hcycle
  have hread := hfifo cycle hcycle
  rw [streamWords, Machine.log_succ, ← streamWords, ih, wBeats,
    Machine.log_succ, ← wBeats, Machine.stateAt_succ, List.map_append]
  generalize (core addrWidth axiIdWidth).stateAt input cycle = s at hreset hread
  change _ = _ ++ (step s (input cycle)).fifo
  simp only [step, fifo36e1, hreset, fifoWren, streamHandshake]
  cases hbeat : intRdenWire s (input cycle) with
  | false =>
      have hnone : (wHandshake s (input cycle)) = [] := by
        rw [← List.length_eq_zero_iff, length_wHandshake, hbeat]
        rfl
      simp [hnone]
  | true =>
      obtain ⟨head, rest, hcontents⟩ := List.exists_cons_of_ne_nil (hread hbeat)
      have hone : (wHandshake s (input cycle)).map WBeat.data = [head] := by
        have hvalid : (mAxiWvalid s && (input cycle).mAxiWready) = true := by
          rw [Bool.and_comm]
          exact hbeat
        simp [wHandshake, hvalid, mAxiWdata, hcontents]
      simp [hone, hcontents]

theorem two_pow_eq (hwidth : 4 ≤ addrWidth) :
    2 ^ addrWidth = 16 * 2 ^ (addrWidth - 4) := by
  obtain ⟨extra, rfl⟩ := Nat.exists_eq_add_of_le hwidth
  rw [Nat.add_sub_cancel_left, pow_add]
  norm_num

theorem burstStart_addr (hwidth : 4 ≤ addrWidth)
    (hfits : base.toNat + 8 * 2 ^ addrWidth ≤ 2 ^ 32) (burst : ℕ) :
    (burstStart addrWidth axiIdWidth base burst).addr.toNat =
      base.toNat + 128 * (burst % 2 ^ (addrWidth - 4)) := by
  have hpow := two_pow_eq hwidth
  have hmod : 16 * burst % 2 ^ addrWidth =
      16 * (burst % 2 ^ (addrWidth - 4)) := by
    rw [hpow, Nat.mul_mod_mul_left]
  have hlt : burst % 2 ^ (addrWidth - 4) < 2 ^ (addrWidth - 4) :=
    Nat.mod_lt _ (by positivity)
  have hsum : base.toNat + 8 * (16 * (burst % 2 ^ (addrWidth - 4))) < 2 ^ 32 := by
    omega
  rw [burstStart, hmod, BitVec.toNat_add, BitVec.toNat_ofNat,
    Nat.mod_eq_of_lt (by omega : 8 * (16 * (burst % 2 ^ (addrWidth - 4))) < 2 ^ 32),
    Nat.mod_eq_of_lt hsum]
  ring

/-- The slave's memory, by the byte address of each word. -/
def slaveMemory (memory : ℕ → Word) (aw : List (AwBeat axiIdWidth))
    (w : List (WBeat axiIdWidth)) : ℕ → Word :=
  Ring.memoryAfter memory
    ((slaveStores aw w).filterMap fun store =>
      store.1.map fun place => (place, store.2))

/-- The stores of a ring buffer are those of a wrapping writer. -/
theorem RingBuffer.ringStores_eq {cycle : ℕ}
    (hring : RingBuffer addrWidth axiIdWidth base input cycle) :
    (slaveStores (awBeats addrWidth axiIdWidth base input cycle)
        (wBeats addrWidth axiIdWidth input cycle)).filterMap
        (fun store => store.1.map fun place => (place, store.2)) =
      Ring.ringStores (fun slot => base.toNat + 8 * slot) (2 ^ addrWidth)
        (fun k => (streamWords addrWidth axiIdWidth input cycle).getD k 0)
        (wBeats addrWidth axiIdWidth input cycle).length := by
  have htaken := hring.taken
  rw [hring.stores, List.filterMap_map, Ring.ringStores]
  simp only [Function.comp_def, Option.map_some, List.filterMap_eq_map']
  apply List.ext_getElem (by simp [htaken])
  intro k hleft hright
  have hk : k < (streamWords addrWidth axiIdWidth input cycle).length := by
    simp at hleft
    omega
  simp [List.getElem?_eq_getElem hk]

/-- The memory holds the last `2 ^ addrWidth` stream words, each in its slot,
and is untouched outside the slots. -/
theorem RingBuffer.memory {cycle : ℕ}
    (hring : RingBuffer addrWidth axiIdWidth base input cycle)
    (memory : ℕ → Word) :
    (∀ k < (wBeats addrWidth axiIdWidth input cycle).length,
      (wBeats addrWidth axiIdWidth input cycle).length ≤ k + 2 ^ addrWidth →
        slaveMemory memory (awBeats addrWidth axiIdWidth base input cycle)
            (wBeats addrWidth axiIdWidth input cycle)
            (base.toNat + 8 * (k % 2 ^ addrWidth)) =
          (streamWords addrWidth axiIdWidth input cycle).getD k 0) ∧
      ∀ place, (∀ slot < 2 ^ addrWidth, base.toNat + 8 * slot ≠ place) →
        slaveMemory memory (awBeats addrWidth axiIdWidth base input cycle)
            (wBeats addrWidth axiIdWidth input cycle) place =
          memory place := by
  rw [slaveMemory, hring.ringStores_eq]
  constructor
  · apply Ring.memoryAfter_ringStores
    intro left _ right _ heq
    simpa using heq
  · intro place houtside
    apply Ring.memoryAfter_of_not_mem
    intro store hmem
    obtain ⟨k, -, rfl⟩ := List.mem_map.mp hmem
    exact houtside _ (Nat.mod_lt k (by positivity))

/-- The slot of beat `beat` lies as far past its burst's address as the ring
says. -/
theorem slot_eq (hwidth : 4 ≤ addrWidth) (beat : ℕ) :
    128 * (beat / 16 % 2 ^ (addrWidth - 4)) + 8 * (beat % 16) =
      8 * (beat % 2 ^ addrWidth) := by
  rw [two_pow_eq hwidth, Nat.mod_mul]
  ring

/-- The core is a ring buffer: in every run from reset whose slave takes each
address no later than the burst's first data beat. -/
theorem ramWriter_ringBuffer (addrWidth axiIdWidth : ℕ)
    (hwidth : 4 ≤ addrWidth) (base : Address) (haligned : 128 ∣ base.toNat)
    (hfits : base.toNat + 8 * 2 ^ addrWidth ≤ 2 ^ 32) (input : ℕ → Input)
    (horizon : ℕ)
    (hslave : OrderlySlave addrWidth axiIdWidth base input horizon) :
    RingBuffer addrWidth axiIdWidth base input horizon := by
  have hfirst := hslave.addressFirst hwidth
  have hinv := addressInv_stateAt base hwidth horizon hslave.run hfirst horizon
    le_rfl
  have hstarts := awBeats_eq base hwidth horizon hslave.run hfirst horizon le_rfl
  have hwords := streamWords_eq horizon hslave.run hslave.fifo horizon le_rfl
  have hcover := hslave.address horizon le_rfl
  refine ⟨hinv.addr, ?_, ?_, ?_, ?_, ?_⟩
  · rw [hwords]
    simp
  · rw [hwords, List.take_left' (by simp)]
    apply List.ext_getElem (by simp [slaveStores])
    intro beat hleft hright
    have hbeat : beat < (wBeats addrWidth axiIdWidth input horizon).length := by
      simpa using hright
    have hburst : beat / 16 <
        (awBeats addrWidth axiIdWidth base input horizon).length := by
      omega
    have hstart : (awBeats addrWidth axiIdWidth base input horizon)[beat / 16]? =
        some (burstStart addrWidth axiIdWidth base (beat / 16)) := by
      rw [hstarts, List.getElem?_map, List.getElem?_range hburst]
      rfl
    have hplace : (burstStart addrWidth axiIdWidth base (beat / 16)).addr.toNat =
        base.toNat + 128 * (beat / 16 % 2 ^ (addrWidth - 4)) :=
      burstStart_addr hwidth hfits (beat / 16)
    simp only [slaveStores, List.getElem_map, List.getElem_zipIdx, zero_add,
      show burstBeats = 16 from rfl, beatBytes_eq, hstart, Option.map_some,
      hplace, add_assoc, slot_eq hwidth]
  · intro burst hburst
    have hstart : (awBeats addrWidth axiIdWidth base input horizon)[burst] =
        burstStart addrWidth axiIdWidth base burst := by
      simp [List.getElem_of_eq hstarts hburst]
    rw [hstart]
    exact ⟨burstStart_addr hwidth hfits burst, by simp [burstStart]⟩
  · exact wBeats_getElem_eq hwidth horizon hslave.run (·.id.toNat) _
      fun _ _ hinv => hinv.wid
  · intro start hmem
    rw [hstarts, List.mem_map] at hmem
    obtain ⟨burst, -, rfl⟩ := hmem
    have hlt : burst % 2 ^ (addrWidth - 4) < 2 ^ (addrWidth - 4) :=
      Nat.mod_lt _ (by positivity)
    have hpow := two_pow_eq hwidth
    rw [burstStart_addr hwidth hfits]
    omega

/-- A full stream, a slave that is always ready, and a FIFO that reports more
than fifteen words from cycle 18 on. -/
def steadyRun (cycle : ℕ) : Input where
  aresetn := true
  intEmptyWire := cycle < 18
  intFullWire := false
  mAxiAwready := true
  mAxiWready := true
  sAxisTdata := BitVec.ofNat 64 cycle
  sAxisTvalid := true

/-- Twenty-one beats into a ring of sixteen words. -/
theorem ramWriter_ringBuffer_steadyRun :
    RingBuffer 4 2 0x1E000000#32 steadyRun 40 :=
  ramWriter_ringBuffer 4 2 (by decide) 0x1E000000#32 (by decide) (by decide)
    steadyRun 40
    ⟨by decide +kernel, by decide +kernel, by decide +kernel⟩

end Rfsoc.RamWriter
