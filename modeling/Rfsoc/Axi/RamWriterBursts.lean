import Rfsoc.Axi.RamWriter
import Rfsoc.Core.Bits

/-!
# Bursts of the RAM writer

What one clock edge does to the AXI side, in two layers.  `BeatInv` ties the
beat counter and the burst ID to the number of accepted data beats and holds
for every slave.  `AddressInv` adds the address channel: every burst begun on
the data channel has had its address taken or still has it on offer.  It is
kept by the edges on which no beat overtakes its burst's address
(`AddressFirst`).
-/

namespace Rfsoc.RamWriter

open Rfsoc.Clocked

variable {addrWidth axiIdWidth : ℕ}

theorem addrSize_eq : addrSize = 3 := by
  decide +kernel

theorem intWlastWire_eq (s : State addrWidth axiIdWidth) :
    intWlastWire s = decide (s.intAddrReg.toNat % 16 = 15) := by
  rw [intWlastWire, Bool.eq_iff_iff, beq_iff_eq, decide_eq_true_iff,
    BitVec.toNat_eq]
  simp

/-- The AXI side after `beats` accepted data beats. -/
structure BeatInv (beats : ℕ) (s : State addrWidth axiIdWidth) : Prop where
  addr : s.intAddrReg.toNat = beats % 2 ^ addrWidth
  wid : s.intWidReg.toNat = beats / 16 % 2 ^ axiIdWidth
  idle : s.intWvalidReg = false → beats % 16 = 0

theorem beatInv_resetState :
    BeatInv 0 (resetState : State addrWidth axiIdWidth) where
  addr := by simp [resetState]
  wid := by simp [resetState]
  idle := by simp

namespace BeatInv

variable {beats : ℕ} {s : State addrWidth axiIdWidth} {i : Input}

theorem wlast (hwidth : 4 ≤ addrWidth) (hinv : BeatInv beats s) :
    intWlastWire s = decide (beats % 16 = 15) := by
  have hdvd : 16 ∣ 2 ^ addrWidth := pow_dvd_pow 2 hwidth
  rw [intWlastWire_eq, hinv.addr, Nat.mod_mod_of_dvd _ hdvd]

/-- A data beat moves the counter and, if it is the last of its burst, the ID;
nothing else on the data channel does. -/
theorem step (hwidth : 4 ≤ addrWidth) (hinv : BeatInv beats s)
    (hrun : i.aresetn = true) :
    BeatInv (beats + (intRdenWire s i).toNat) (step s i) := by
  have hlast := hinv.wlast hwidth
  have hidle := hinv.idle
  cases hvalid : s.intWvalidReg with
  | false =>
      have hzero := hidle hvalid
      have hnotLast : intWlastWire s = false := by
        rw [hlast, decide_eq_false_iff_not]
        omega
      refine ⟨?_, ?_, fun _ => ?_⟩
      · simpa [RamWriter.step, hrun, intAddrNext, intRdenWire, hvalid] using
          hinv.addr
      · simpa [RamWriter.step, hrun, intWidNext, intRdenWire, hvalid,
          hnotLast] using hinv.wid
      · simpa [intRdenWire, hvalid] using hzero
  | true =>
      cases hready : i.mAxiWready with
      | false =>
          refine ⟨?_, ?_, ?_⟩
          · simpa [RamWriter.step, hrun, intAddrNext, intRdenWire, hready] using
              hinv.addr
          · simpa [RamWriter.step, hrun, intWidNext, intRdenWire, hready] using
              hinv.wid
          · simp [RamWriter.step, hrun, intWvalidNext, hvalid, hready]
      | true =>
          have hbeat : intRdenWire s i = true := by
            simp [intRdenWire, hvalid, hready]
          rw [hbeat, Bool.toNat_true]
          refine ⟨?_, ?_, ?_⟩
          · simpa [RamWriter.step, hrun, intAddrNext, hbeat] using
              Bits.toNat_add_one hinv.addr
          · by_cases hburst : beats % 16 = 15
            · have hnext : (beats + 1) / 16 = beats / 16 + 1 := by omega
              simpa [RamWriter.step, hrun, intWidNext, hready, hlast, hburst,
                hnext] using Bits.toNat_add_one hinv.wid
            · have hnext : (beats + 1) / 16 = beats / 16 := by omega
              simpa [RamWriter.step, hrun, intWidNext, hready, hlast, hburst,
                hnext] using hinv.wid
          · intro hdone
            have hburst : beats % 16 = 15 := by
              by_contra hburst
              simp [RamWriter.step, hrun, intWvalidNext, hvalid, hready,
                hlast, hburst] at hdone
            omega

end BeatInv

/-- No data beat is accepted while an address stays on offer. -/
def AddressFirst (s : State addrWidth axiIdWidth) (i : Input) : Prop :=
  s.intAwvalidReg = true → s.intWvalidReg = true → i.mAxiWready = true →
    i.mAxiAwready = true

/-- The address channel after `addresses` address handshakes. -/
structure AddressInv (beats addresses : ℕ)
    (s : State addrWidth axiIdWidth) : Prop extends BeatInv beats s where
  issued : addresses + s.intAwvalidReg.toNat =
    beats / 16 + s.intWvalidReg.toNat
  pending : s.intAwvalidReg = true →
    s.intWvalidReg = true ∧ beats % 16 = 0

theorem addressInv_resetState :
    AddressInv 0 0 (resetState : State addrWidth axiIdWidth) where
  toBeatInv := beatInv_resetState
  issued := rfl
  pending := by simp [resetState]

/-- An address handshake takes place. -/
def awTaken (s : State addrWidth axiIdWidth) (i : Input) : Bool :=
  s.intAwvalidReg && i.mAxiAwready

theorem AddressInv.step {beats addresses : ℕ}
    {s : State addrWidth axiIdWidth} {i : Input} (hwidth : 4 ≤ addrWidth)
    (hinv : AddressInv beats addresses s) (hrun : i.aresetn = true)
    (hfirst : AddressFirst s i) :
    AddressInv (beats + (intRdenWire s i).toNat)
      (addresses + (awTaken s i).toNat) (step s i) := by
  have hlast := hinv.wlast hwidth
  have hissued := hinv.issued
  have hbeats := hinv.toBeatInv.step hwidth hrun
  cases hawvalid : s.intAwvalidReg with
  | true =>
      -- the first beat of the burst is still to come, so it is not the last
      obtain ⟨hwvalid, hstart⟩ := hinv.pending hawvalid
      have hnotLast : intWlastWire s = false := by
        rw [hlast, decide_eq_false_iff_not]
        omega
      have hsame := hfirst hawvalid hwvalid
      refine ⟨hbeats, ?_, ?_⟩ <;>
        cases hawready : i.mAxiAwready <;> cases hwready : i.mAxiWready <;>
        simp_all [RamWriter.step, intAwvalidNext, intWvalidNext, intRdenWire,
          awTaken]
      omega
  | false =>
      have hnone : awTaken s i = false := by simp [awTaken, hawvalid]
      cases hwvalid : s.intWvalidReg with
      | false =>
          -- idle: a burst opens on both channels, or nothing happens
          have hzero := hinv.idle hwvalid
          have hnotLast : intWlastWire s = false := by
            rw [hlast, decide_eq_false_iff_not]
            omega
          cases hempty : i.intEmptyWire <;> refine ⟨hbeats, ?_, ?_⟩ <;>
            simp_all [RamWriter.step, intAwvalidNext, intWvalidNext,
              intRdenWire]
      | true =>
          -- the address is taken: only the last beat moves the address channel
          refine ⟨hbeats, ?_, ?_⟩ <;> cases hempty : i.intEmptyWire <;>
            cases hwready : i.mAxiWready <;>
            by_cases hburst : beats % 16 = 15 <;>
            simp_all [RamWriter.step, intAwvalidNext, intWvalidNext,
              intRdenWire] <;> omega

theorem length_wHandshake (s : State addrWidth axiIdWidth) (i : Input) :
    (wHandshake s i).length = (intRdenWire s i).toNat := by
  cases hvalid : s.intWvalidReg <;> cases hready : i.mAxiWready <;>
    simp [wHandshake, intRdenWire, mAxiWvalid, hvalid, hready]

theorem length_awHandshake (cfgData : Address)
    (s : State addrWidth axiIdWidth) (i : Input) :
    (awHandshake cfgData s i).length = (awTaken s i).toNat := by
  cases hvalid : s.intAwvalidReg <;> cases hready : i.mAxiAwready <;>
    simp [awHandshake, awTaken, mAxiAwvalid, hvalid, hready]

theorem length_wHandshake_le (s : State addrWidth axiIdWidth) (i : Input) :
    (wHandshake s i).length ≤ 1 := by
  rw [length_wHandshake]
  exact Bool.toNat_le _

theorem length_awHandshake_le (cfgData : Address)
    (s : State addrWidth axiIdWidth) (i : Input) :
    (awHandshake cfgData s i).length ≤ 1 := by
  rw [length_awHandshake]
  exact Bool.toNat_le _

theorem eq_of_mem_wHandshake {s : State addrWidth axiIdWidth} {i : Input}
    {beat : WBeat axiIdWidth} (hbeat : beat ∈ wHandshake s i) :
    beat = ⟨mAxiWid s, mAxiWdata s, mAxiWlast s⟩ := by
  rw [wHandshake, List.mem_ite_nil_right, List.mem_singleton] at hbeat
  exact hbeat.2

section Run

variable (addrWidth axiIdWidth : ℕ) (cfgData : Address) (input : ℕ → Input)

theorem length_wBeats_succ (cycle : ℕ) :
    (wBeats addrWidth axiIdWidth input (cycle + 1)).length =
      (wBeats addrWidth axiIdWidth input cycle).length +
        (intRdenWire ((core addrWidth axiIdWidth).stateAt input cycle)
          (input cycle)).toNat := by
  rw [wBeats, Machine.log_succ, List.length_append, length_wHandshake]

theorem length_awBeats_succ (cycle : ℕ) :
    (awBeats addrWidth axiIdWidth cfgData input (cycle + 1)).length =
      (awBeats addrWidth axiIdWidth cfgData input cycle).length +
        (awTaken ((core addrWidth axiIdWidth).stateAt input cycle)
          (input cycle)).toNat := by
  rw [awBeats, Machine.log_succ, List.length_append, length_awHandshake]

variable {addrWidth axiIdWidth input}

/-- After reset the power-up reset generator stays low, so only `aresetn` could
reset the FIFO. -/
theorem fifoReset_stateAt (horizon : ℕ)
    (hrun : ∀ cycle < horizon, (input cycle).aresetn = true) :
    ∀ cycle < horizon,
      fifoReset ((core addrWidth axiIdWidth).stateAt input cycle)
        (input cycle) = false := by
  have hquiet : ∀ cycle ≤ horizon,
      ((core addrWidth axiIdWidth).stateAt input cycle).resetShreg = 0 ∧
        ((core addrWidth axiIdWidth).stateAt input cycle).resetS = false := by
    refine upTo_induction horizon ⟨rfl, rfl⟩ ?_
    rintro cycle - ⟨hshreg, -⟩
    rw [Machine.stateAt_succ]
    simp [core, step] at hshreg ⊢
    simp [hshreg]
  intro cycle hcycle
  simp [fifoReset, (hquiet cycle hcycle.le).2, hrun cycle hcycle]

/-- In every run from reset the counter and the ID follow the data beats. -/
theorem beatInv_stateAt (hwidth : 4 ≤ addrWidth) (horizon : ℕ)
    (hrun : ∀ cycle < horizon, (input cycle).aresetn = true) :
    ∀ cycle ≤ horizon,
      BeatInv (wBeats addrWidth axiIdWidth input cycle).length
        ((core addrWidth axiIdWidth).stateAt input cycle) := by
  refine upTo_induction horizon beatInv_resetState ?_
  intro cycle hcycle ih
  rw [length_wBeats_succ]
  exact ih.step hwidth (hrun cycle hcycle)

/-- What a beat shows is what its number says, if the registers after that many
beats say so. -/
theorem wBeats_map_eq {Value : Type*} (hwidth : 4 ≤ addrWidth) (horizon : ℕ)
    (hrun : ∀ cycle < horizon, (input cycle).aresetn = true)
    (observe : WBeat axiIdWidth → Value) (expected : ℕ → Value)
    (hobserve : ∀ beats (s : State addrWidth axiIdWidth), BeatInv beats s →
      observe ⟨mAxiWid s, mAxiWdata s, mAxiWlast s⟩ = expected beats) :
    ∀ cycle ≤ horizon,
      (wBeats addrWidth axiIdWidth input cycle).map observe =
        (List.range (wBeats addrWidth axiIdWidth input cycle).length).map
          expected := by
  intro cycle hcycle
  refine (Machine.log_map_eq_iff length_wHandshake_le observe expected
    cycle).mpr ?_
  intro earlier hearlier beat hbeat
  rw [eq_of_mem_wHandshake hbeat]
  exact hobserve _ _ (beatInv_stateAt hwidth horizon hrun earlier (by omega))

theorem wBeats_getElem_eq {Value : Type*} (hwidth : 4 ≤ addrWidth)
    (horizon : ℕ) (hrun : ∀ cycle < horizon, (input cycle).aresetn = true)
    (observe : WBeat axiIdWidth → Value) (expected : ℕ → Value)
    (hobserve : ∀ beats (s : State addrWidth axiIdWidth), BeatInv beats s →
      observe ⟨mAxiWid s, mAxiWdata s, mAxiWlast s⟩ = expected beats)
    (beat : ℕ) (h : beat < (wBeats addrWidth axiIdWidth input horizon).length) :
    observe ((wBeats addrWidth axiIdWidth input horizon)[beat]) =
      expected beat := by
  have hmap := wBeats_map_eq hwidth horizon hrun observe expected hobserve
    horizon le_rfl
  have hbeat := List.getElem_of_eq hmap (i := beat) (by simpa using h)
  rwa [List.getElem_map, List.getElem_map, List.getElem_range] at hbeat

/-- While no beat overtakes its address, the address channel keeps up. -/
theorem addressInv_stateAt (hwidth : 4 ≤ addrWidth) (horizon : ℕ)
    (hrun : ∀ cycle < horizon, (input cycle).aresetn = true)
    (hfirst : ∀ cycle < horizon,
      AddressFirst ((core addrWidth axiIdWidth).stateAt input cycle)
        (input cycle)) :
    ∀ cycle ≤ horizon,
      AddressInv (wBeats addrWidth axiIdWidth input cycle).length
        (awBeats addrWidth axiIdWidth cfgData input cycle).length
        ((core addrWidth axiIdWidth).stateAt input cycle) := by
  refine upTo_induction horizon addressInv_resetState ?_
  intro cycle hcycle ih
  rw [length_wBeats_succ, length_awBeats_succ]
  exact ih.step hwidth (hrun cycle hcycle) (hfirst cycle hcycle)

theorem mAxiAwaddr_eq (s : State addrWidth axiIdWidth) :
    mAxiAwaddr cfgData s =
      cfgData + BitVec.ofNat 32 (8 * s.intAddrReg.toNat) := by
  rw [mAxiAwaddr]
  congr 1
  apply BitVec.eq_of_toNat_eq
  rw [BitVec.toNat_setWidth, BitVec.toNat_append, BitVec.toNat_ofNat]
  simp [addrSize_eq, Nat.shiftLeft_eq, Nat.mul_comm]

/-- The address handshake of burst `burst`: the start address of its first
data beat and its own ID. -/
def burstStart (addrWidth axiIdWidth : ℕ) (cfgData : Address) (burst : ℕ) :
    AwBeat axiIdWidth where
  addr := cfgData + BitVec.ofNat 32 (8 * (16 * burst % 2 ^ addrWidth))
  id := BitVec.ofNat axiIdWidth burst

/-- An address taken in time is the start of the next burst. -/
theorem AddressInv.eq_of_mem_awHandshake {beats addresses : ℕ}
    {s : State addrWidth axiIdWidth} {i : Input} {beat : AwBeat axiIdWidth}
    (hinv : AddressInv beats addresses s)
    (hbeat : beat ∈ awHandshake cfgData s i) :
    beat = burstStart addrWidth axiIdWidth cfgData addresses := by
  rw [awHandshake, mAxiAwvalid] at hbeat
  split at hbeat
  case isFalse => exact absurd hbeat List.not_mem_nil
  case isTrue htaken =>
    have hawvalid : s.intAwvalidReg = true := by simp_all
    obtain ⟨hwvalid, hstart⟩ := hinv.pending hawvalid
    have hissued := hinv.issued
    rw [hawvalid, hwvalid] at hissued
    have hbeats : beats = 16 * addresses := by omega
    have hid : s.intWidReg = BitVec.ofNat axiIdWidth addresses := by
      apply BitVec.eq_of_toNat_eq
      rw [hinv.wid, BitVec.toNat_ofNat, hbeats, Nat.mul_div_cancel_left _ (by omega)]
    rw [List.mem_singleton.mp hbeat, mAxiAwaddr_eq, mAxiAwid, hinv.addr, hid,
      hbeats, burstStart]

theorem awBeats_eq (hwidth : 4 ≤ addrWidth) (horizon : ℕ)
    (hrun : ∀ cycle < horizon, (input cycle).aresetn = true)
    (hfirst : ∀ cycle < horizon,
      AddressFirst ((core addrWidth axiIdWidth).stateAt input cycle)
        (input cycle)) :
    ∀ cycle ≤ horizon,
      awBeats addrWidth axiIdWidth cfgData input cycle =
        (List.range (awBeats addrWidth axiIdWidth cfgData input cycle).length).map
          (burstStart addrWidth axiIdWidth cfgData) := by
  intro cycle hcycle
  refine (Machine.log_eq_iff (length_awHandshake_le cfgData) _ cycle).mpr ?_
  intro earlier hearlier beat hbeat
  have hinv := addressInv_stateAt cfgData hwidth horizon hrun hfirst earlier
    (by omega)
  exact hinv.eq_of_mem_awHandshake cfgData hbeat

end Run

end Rfsoc.RamWriter
