import Rfsoc.Core.Bits
import Rfsoc.Core.Clocked
import Mathlib.Logic.Equiv.Fin.Basic

/-!
# The reversal buffer of the receivers

The channelizer's FIR delivers a frame as sixteen beats, a channel each, and its
FFT wants the channels from 15 down to 0.  Both `rxchan` cores write a frame
into one page of `rx_mem` while `reverse_addr` reads the other; the last beat
of a frame swaps the pages and loads the counter, whose top bit is the FFT's
valid.  The read is registered, so the valid is delayed by `s_fft_tvalid_align`.

`rx_mem` is a 32-word memory with a registered read port, `reverse_addr` loads
on `LOAD` with `CE` and otherwise counts down on `CE`.  The contents of the
memory and of its output register at power-up are unknown.
-/

namespace Rfsoc.Reversal

open Rfsoc.Bits
open Rfsoc.Clocked

structure State where
  mFirPage : Bool
  sFftPage : Bool
  sFftTvalidAlign : Bool
  cntrQ : BitVec 5
  rxMem : BitVec 5 → BitVec 34
  memDout : BitVec 34

/-- The output of the FIR in one cycle. -/
structure Input where
  mFirTvalid : Bool
  mFirTlast : Bool
  mFirChanid : BitVec 5
  mFirTdata : BitVec 48

/-- The top 17 bits of the imaginary and of the real part. -/
def sampled (tdata : BitVec 48) : BitVec 34 :=
  tdata.extractLsb' 26 17 ++ tdata.extractLsb' 2 17

def memDin (i : Input) : BitVec 34 := sampled i.mFirTdata

def memWrAddr (s : State) (i : Input) : BitVec 5 :=
  BitVec.ofBool s.mFirPage ++ i.mFirChanid.extractLsb' 1 4

def sFftReadAddr (s : State) : BitVec 4 := s.cntrQ.extractLsb' 0 4

def sFftTvalid (s : State) : Bool := s.cntrQ.getLsbD 4

def memRdAddr (s : State) : BitVec 5 :=
  BitVec.ofBool s.sFftPage ++ sFftReadAddr s

def sFftTdata (s : State) : BitVec 48 :=
  0#7 ++ s.memDout.extractLsb' 17 17 ++ 0#7 ++ s.memDout.extractLsb' 0 17

def sFftStart (i : Input) : Bool := i.mFirTvalid && i.mFirTlast

def reverseAddrEnable (s : State) (i : Input) : Bool :=
  sFftStart i || sFftTvalid s

def cntrLoadValue : BitVec 5 := BitVec.allOnes 5

/-- `reverse_addr` -/
def reverseAddr (ce load : Bool) (l q : BitVec 5) : BitVec 5 :=
  if ce then if load then l else q - 1 else q

def step (s : State) (i : Input) : State where
  mFirPage := if i.mFirTlast && i.mFirTvalid then !s.mFirPage else s.mFirPage
  sFftPage := if i.mFirTlast && i.mFirTvalid then !s.sFftPage else s.sFftPage
  sFftTvalidAlign := sFftTvalid s
  cntrQ := reverseAddr (reverseAddrEnable s i) (sFftStart i) cntrLoadValue s.cntrQ
  rxMem :=
    if i.mFirTvalid then Function.update s.rxMem (memWrAddr s i) (memDin i)
    else s.rxMem
  memDout := s.rxMem (memRdAddr s)

/-- The buffer from power-up. -/
def core (rxMem : BitVec 5 → BitVec 34) (memDout : BitVec 34) :
    Machine State Input where
  start :=
    { mFirPage := false
      sFftPage := true
      sFftTvalidAlign := false
      cntrQ := 0
      rxMem := rxMem
      memDout := memDout }
  step := step

/-- The word that the FFT takes in a cycle; it always accepts. -/
def fftWord (s : State) (_ : Input) : List (BitVec 48) :=
  if s.sFftTvalidAlign then [sFftTdata s] else []

def stateAt (rxMem : BitVec 5 → BitVec 34) (memDout : BitVec 34)
    (input : ℕ → Input) (cycle : ℕ) : State :=
  (core rxMem memDout).stateAt input cycle

/-- The words presented to the FFT before a cycle. -/
def presented (rxMem : BitVec 5 → BitVec 34) (memDout : BitVec 34)
    (input : ℕ → Input) : ℕ → List (BitVec 48) :=
  (core rxMem memDout).log input fftWord

/-- The channel numbers of a frame in the order of its beats. -/
abbrev Order := Equiv.Perm (Fin 16)

/-- The FIR's output for each channel of a frame. -/
abbrev Frame := Fin 16 → BitVec 48

/-- The place of beat `beat` in its frame. -/
def place (beat : ℕ) : Fin 16 := ⟨beat % 16, Nat.mod_lt _ (by decide)⟩

/-- The channel of beat `beat`. -/
def channelOf (order : ℕ → Order) (beat : ℕ) : Fin 16 :=
  order (beat / 16) (place beat)

/-- Beat `beat` of a stream of frames; bit 0 of `tuser` is free. -/
structure FirBeat (order : ℕ → Order) (data : ℕ → Frame) (beat : ℕ)
    (i : Input) : Prop where
  channel : i.mFirChanid.extractLsb' 1 4 =
    BitVec.ofFin (channelOf order beat)
  tdata : i.mFirTdata = data (beat / 16) (channelOf order beat)
  tlast : i.mFirTlast = decide (beat % 16 = 15)

/-- The valid beats before a cycle. -/
def beats (input : ℕ → Input) : ℕ → ℕ
  | 0 => 0
  | cycle + 1 => beats input cycle + (input cycle).mFirTvalid.toNat

/-- The FIR delivers frames, with any gaps between the beats. -/
def FirFrames (order : ℕ → Order) (data : ℕ → Frame) (input : ℕ → Input)
    (horizon : ℕ) : Prop :=
  ∀ cycle < horizon, (input cycle).mFirTvalid = true →
    FirBeat order data (beats input cycle) (input cycle)

/-- Bits 42 to 26 and 18 to 2 of an output, in the fields of the FFT's word. -/
def truncated (tdata : BitVec 48) : BitVec 48 :=
  0#7 ++ tdata.extractLsb' 26 17 ++ 0#7 ++ tdata.extractLsb' 2 17

/-- Word `word` for the FFT: channel `15 - word % 16` of frame `word / 16`. -/
def reversedWord (data : ℕ → Frame) (word : ℕ) : BitVec 48 :=
  truncated (data (word / 16) (Fin.rev (place word)))

/-- The buffer up to a horizon. -/
structure Reverses (rxMem : BitVec 5 → BitVec 34) (memDout : BitVec 34)
    (data : ℕ → Frame) (input : ℕ → Input) (horizon : ℕ) : Prop where
  /-- Frame after frame, channels 15 down to 0, each word once. -/
  words : ∀ cycle ≤ horizon, presented rxMem memDout input cycle =
    (List.range (presented rxMem memDout input cycle).length).map
      (reversedWord data)
  /-- No word comes before its frame is complete. -/
  complete : ∀ cycle ≤ horizon,
    (presented rxMem memDout input cycle).length ≤
      16 * (beats input cycle / 16)
  /-- A complete frame has been presented seventeen cycles later. -/
  prompt : ∀ cycle, cycle + 17 ≤ horizon →
    16 * (beats input cycle / 16) ≤
      (presented rxMem memDout input (cycle + 17)).length
  pages : ∀ cycle ≤ horizon,
    (stateAt rxMem memDout input cycle).mFirPage ≠
      (stateAt rxMem memDout input cycle).sFftPage

/-- The address of a channel in a page. -/
def slot (page : Bool) (channel : Fin 16) : BitVec 5 :=
  BitVec.ofBool page ++ (BitVec.ofFin channel : BitVec 4)

theorem slot_inj {page page' : Bool} {channel channel' : Fin 16}
    (heq : slot page channel = slot page' channel') :
    page = page' ∧ channel = channel' := by
  obtain ⟨hpage, hchannel⟩ := append_inj heq
  have hbool : ∀ left right : Bool,
      BitVec.ofBool left = BitVec.ofBool right → left = right := by decide
  exact ⟨hbool page page' hpage, congrArg BitVec.toFin hchannel⟩

/-- The two halves of a memory word are the two fields of the FFT's word. -/
theorem sFftTdata_of_sampled {s : State} {tdata : BitVec 48}
    (hdout : s.memDout = sampled tdata) : sFftTdata s = truncated tdata := by
  have himaginary : (sampled tdata).extractLsb' 17 17 =
      tdata.extractLsb' 26 17 := BitVec.extractLsb'_append_eq_left
  have hreal : (sampled tdata).extractLsb' 0 17 = tdata.extractLsb' 2 17 :=
    BitVec.extractLsb'_append_eq_right
  rw [sFftTdata, hdout, himaginary, hreal, truncated]

theorem sFftTvalid_eq (s : State) :
    sFftTvalid s = decide (16 ≤ s.cntrQ.toNat) := by
  have hall : ∀ q : BitVec 5, q.getLsbD 4 = decide (16 ≤ q.toNat) := by decide
  exact hall s.cntrQ

/-- While the counter's top bit is set its other bits are a channel. -/
theorem memRdAddr_eq {s : State} (hvalid : 16 ≤ s.cntrQ.toNat) :
    memRdAddr s =
      slot s.sFftPage ⟨s.cntrQ.toNat - 16, by have := s.cntrQ.isLt; omega⟩ := by
  rw [memRdAddr, slot]
  congr 1
  apply BitVec.eq_of_toNat_eq
  have := s.cntrQ.isLt
  simp [sFftReadAddr]
  omega

theorem cntrQ_start {s : State} {i : Input} (hstart : sFftStart i = true) :
    (step s i).cntrQ.toNat = 31 := by
  simp [step, reverseAddr, reverseAddrEnable, hstart, cntrLoadValue]

theorem cntrQ_plain {s : State} {i : Input} (hplain : sFftStart i = false) :
    (step s i).cntrQ.toNat =
      if 16 ≤ s.cntrQ.toNat then s.cntrQ.toNat - 1 else s.cntrQ.toNat := by
  have hdown : ∀ q : BitVec 5, 16 ≤ q.toNat → (q - 1).toNat = q.toNat - 1 := by
    decide
  simp only [step, reverseAddr, reverseAddrEnable, hplain, sFftTvalid_eq,
    Bool.false_or, decide_eq_true_eq]
  split
  case isTrue hvalid => exact hdown s.cntrQ hvalid
  case isFalse => rfl

/-! ## Invariants -/

section Invariants

variable (order : ℕ → Order) (data : ℕ → Frame) (beat : ℕ)

/-- The write side after `beat` beats: the channels of the unfinished frame
that have come are in the write page. -/
structure Writing (s : State) : Prop where
  page : s.mFirPage = decide (beat / 16 % 2 = 1)
  written : ∀ k : Fin 16, k.val < beat % 16 →
    s.rxMem (slot s.mFirPage (order (beat / 16) k)) =
      sampled (data (beat / 16) (order (beat / 16) k))

/-- The read side: the channels that the counter has still to come to belong to
the last finished frame, and the counter is at least as far as the beats. -/
structure Reading (s : State) : Prop where
  page : s.sFftPage = !s.mFirPage
  pace : 16 ≤ s.cntrQ.toNat → beat % 16 + s.cntrQ.toNat ≤ 31
  begun : 16 ≤ s.cntrQ.toNat → 16 ≤ beat
  frame : ∀ channel : Fin 16, channel.val + 16 ≤ s.cntrQ.toNat →
    s.rxMem (slot s.sFftPage channel) = sampled (data (beat / 16 - 1) channel)

/-- The output side after `shown` words: the words of the finished frames are
those shown, the one on show and those the counter has still to come to. -/
structure Showing (shown : ℕ) (s : State) : Prop where
  count : shown + s.sFftTvalidAlign.toNat + (s.cntrQ.toNat - 15) =
    16 * (beat / 16)
  word : s.sFftTvalidAlign = true → sFftTdata s = reversedWord data shown

end Invariants

section Step

variable {order : ℕ → Order} {data : ℕ → Frame} {beat shown : ℕ} {s : State}
  {i : Input}

namespace FirBeat

variable (hbeat : FirBeat order data beat i)
include hbeat

theorem memWrAddr_eq :
    memWrAddr s i = slot s.mFirPage (channelOf order beat) := by
  rw [memWrAddr, hbeat.channel, slot]

theorem memDin_eq :
    memDin i = sampled (data (beat / 16) (channelOf order beat)) := by
  rw [memDin, hbeat.tdata]

/-- The frame ends with its sixteenth beat. -/
theorem sFftStart_eq (hvalid : i.mFirTvalid = true) :
    sFftStart i = decide (beat % 16 = 15) := by
  rw [sFftStart, hvalid, hbeat.tlast, Bool.true_and]

end FirBeat

theorem mFirPage_step :
    (step s i).mFirPage = if sFftStart i then !s.mFirPage else s.mFirPage := by
  rw [sFftStart, Bool.and_comm]
  rfl

theorem sFftPage_step :
    (step s i).sFftPage = if sFftStart i then !s.sFftPage else s.sFftPage := by
  rw [sFftStart, Bool.and_comm]
  rfl

theorem rxMem_step_of_gap (hgap : i.mFirTvalid = false) :
    (step s i).rxMem = s.rxMem := by
  simp [step, hgap]

theorem rxMem_step_of_beat (hbeat : FirBeat order data beat i)
    (hvalid : i.mFirTvalid = true) :
    (step s i).rxMem = Function.update s.rxMem
      (slot s.mFirPage (channelOf order beat))
      (sampled (data (beat / 16) (channelOf order beat))) := by
  rw [← hbeat.memWrAddr_eq, ← hbeat.memDin_eq]
  exact if_pos hvalid

/-- A beat adds its channel to those of its frame. -/
theorem Writing.written_step (hwriting : Writing order data beat s)
    (hbeat : FirBeat order data beat i) (hvalid : i.mFirTvalid = true)
    (k : Fin 16) (hk : k.val ≤ beat % 16) :
    (step s i).rxMem (slot s.mFirPage (order (beat / 16) k)) =
      sampled (data (beat / 16) (order (beat / 16) k)) := by
  rw [rxMem_step_of_beat hbeat hvalid]
  cases hk.eq_or_lt with
  | inl heq =>
      have hplace : k = place beat := Fin.ext heq
      subst hplace
      exact Function.update_self ..
  | inr hlt =>
      have hne : slot s.mFirPage (order (beat / 16) k) ≠
          slot s.mFirPage (channelOf order beat) := by
        intro heq
        have hplace := (order (beat / 16)).injective (slot_inj heq).2
        exact hlt.ne (congrArg Fin.val hplace)
      rw [Function.update_of_ne hne]
      exact hwriting.written k hlt

/-- The read page is not written. -/
theorem Reading.rxMem_step (hreading : Reading data beat s)
    (hbeats : i.mFirTvalid = true → FirBeat order data beat i)
    (channel : Fin 16) :
    (step s i).rxMem (slot s.sFftPage channel) =
      s.rxMem (slot s.sFftPage channel) := by
  cases hvalid : i.mFirTvalid with
  | false => rw [rxMem_step_of_gap hvalid]
  | true =>
      rw [rxMem_step_of_beat (hbeats hvalid) hvalid]
      apply Function.update_of_ne
      intro heq
      have hpage := hreading.page.symm.trans (slot_inj heq).1
      exact Bool.not_ne_self _ hpage

theorem sFftStart_of_gap (hgap : i.mFirTvalid = false) :
    sFftStart i = false := by
  rw [sFftStart, hgap, Bool.false_and]

theorem Writing.step (hwriting : Writing order data beat s)
    (hbeats : i.mFirTvalid = true → FirBeat order data beat i) :
    Writing order data (beat + i.mFirTvalid.toNat) (step s i) := by
  cases hvalid : i.mFirTvalid with
  | false =>
      constructor
      · rw [mFirPage_step, sFftStart_of_gap hvalid]
        exact hwriting.page
      · rw [mFirPage_step, sFftStart_of_gap hvalid, rxMem_step_of_gap hvalid]
        exact hwriting.written
  | true =>
      have hbeat := hbeats hvalid
      rw [Bool.toNat_true]
      by_cases hlast : beat % 16 = 15
      · have hstart : sFftStart i = true :=
          (hbeat.sFftStart_eq hvalid).trans (decide_eq_true hlast)
        constructor
        · rw [mFirPage_step, hstart, if_pos rfl, hwriting.page, ← decide_not,
            decide_eq_decide]
          omega
        · intro k hk
          omega
      · have hplain : sFftStart i = false :=
          (hbeat.sFftStart_eq hvalid).trans (decide_eq_false hlast)
        have hframe : (beat + 1) / 16 = beat / 16 := by omega
        constructor
        · rw [mFirPage_step, hplain, hframe]
          exact hwriting.page
        · intro k hk
          rw [mFirPage_step, hplain, hframe]
          exact hwriting.written_step hbeat hvalid k (by omega)

/-- The last beat hands the finished frame to the read side. -/
theorem Reading.step_start (hreading : Reading data beat s)
    (hwriting : Writing order data beat s)
    (hbeat : FirBeat order data beat i) (hvalid : i.mFirTvalid = true)
    (hlast : beat % 16 = 15) : Reading data (beat + 1) (Reversal.step s i) := by
  have hstart : sFftStart i = true :=
    (hbeat.sFftStart_eq hvalid).trans (decide_eq_true hlast)
  have hloaded := cntrQ_start (s := s) hstart
  constructor
  · rw [mFirPage_step, sFftPage_step, hstart, if_pos rfl, if_pos rfl,
      hreading.page]
  · intro _
    omega
  · intro _
    omega
  · intro channel _
    have hframe : (beat + 1) / 16 - 1 = beat / 16 := by omega
    have hpage : (!s.sFftPage) = s.mFirPage := by
      rw [hreading.page, Bool.not_not]
    rw [sFftPage_step, hstart, if_pos rfl, hpage, hframe]
    have hwritten := hwriting.written_step hbeat hvalid
      ((order (beat / 16)).symm channel) (by omega)
    rwa [Equiv.apply_symm_apply] at hwritten

/-- Without a start the frame goes on. -/
theorem room_of_plain
    (hbeats : i.mFirTvalid = true → FirBeat order data beat i)
    (hplain : sFftStart i = false) : beat % 16 + i.mFirTvalid.toNat ≤ 15 := by
  cases hvalid : i.mFirTvalid with
  | false =>
      rw [Bool.toNat_false]
      omega
  | true =>
      have hnotLast := (hbeats hvalid).sFftStart_eq hvalid
      rw [hplain, eq_comm, decide_eq_false_iff_not] at hnotLast
      rw [Bool.toNat_true]
      omega

/-- A start is the last beat of a frame. -/
theorem last_of_start
    (hbeats : i.mFirTvalid = true → FirBeat order data beat i)
    (hstart : sFftStart i = true) :
    i.mFirTvalid = true ∧ beat % 16 = 15 := by
  have hvalid : i.mFirTvalid = true := (Bool.and_eq_true_iff.mp hstart).1
  have hlast := ((hbeats hvalid).sFftStart_eq hvalid).symm.trans hstart
  exact ⟨hvalid, of_decide_eq_true hlast⟩

theorem Reading.step_plain (hreading : Reading data beat s)
    (hbeats : i.mFirTvalid = true → FirBeat order data beat i)
    (hplain : sFftStart i = false) :
    Reading data (beat + i.mFirTvalid.toNat) (Reversal.step s i) := by
  have hroom := room_of_plain hbeats hplain
  have hframe : (beat + i.mFirTvalid.toNat) / 16 = beat / 16 := by omega
  have hcounter := cntrQ_plain (s := s) hplain
  have hpace := hreading.pace
  have hbegun := hreading.begun
  have hvalid := Bool.toNat_le i.mFirTvalid
  constructor
  · rw [mFirPage_step, sFftPage_step, hplain]
    exact hreading.page
  · intro hreads
    split at hcounter
    all_goals omega
  · intro hreads
    split at hcounter
    all_goals omega
  · intro channel hchannel
    rw [sFftPage_step, hplain, hframe]
    change (Reversal.step s i).rxMem (slot s.sFftPage channel) = _
    rw [hreading.rxMem_step hbeats]
    apply hreading.frame
    split at hcounter
    all_goals omega

theorem Reading.step (hreading : Reading data beat s)
    (hwriting : Writing order data beat s)
    (hbeats : i.mFirTvalid = true → FirBeat order data beat i) :
    Reading data (beat + i.mFirTvalid.toNat) (Reversal.step s i) := by
  cases hstart : sFftStart i with
  | false => exact hreading.step_plain hbeats hstart
  | true =>
      obtain ⟨hvalid, hlast⟩ := last_of_start hbeats hstart
      rw [hvalid]
      exact hreading.step_start hwriting (hbeats hvalid) hvalid hlast

/-- While the counter reads, the next word for the FFT is the one it reads. -/
theorem Reading.sFftTdata_step (hreading : Reading data beat s)
    (hreads : 16 ≤ s.cntrQ.toNat) {word : ℕ}
    (hword : word + s.cntrQ.toNat = 16 * (beat / 16) + 15) :
    sFftTdata (Reversal.step s i) = reversedWord data word := by
  have hlt := s.cntrQ.isLt
  have hbegun := hreading.begun hreads
  have hframe : word / 16 = beat / 16 - 1 := by omega
  have hchannel : Fin.rev (place word) = ⟨s.cntrQ.toNat - 16, by omega⟩ := by
    apply Fin.ext
    simp only [Fin.val_rev, place]
    omega
  rw [reversedWord, hframe, hchannel]
  apply sFftTdata_of_sampled
  change s.rxMem (memRdAddr s) = _
  rw [memRdAddr_eq hreads]
  exact hreading.frame _ (by simp only; omega)

theorem Showing.step (hshowing : Showing data beat shown s)
    (hreading : Reading data beat s)
    (hbeats : i.mFirTvalid = true → FirBeat order data beat i) :
    Showing data (beat + i.mFirTvalid.toNat)
      (shown + s.sFftTvalidAlign.toNat) (step s i) := by
  have hcount := hshowing.count
  have halign : (Reversal.step s i).sFftTvalidAlign =
      decide (16 ≤ s.cntrQ.toNat) := sFftTvalid_eq s
  constructor
  · rw [halign]
    have hpace := hreading.pace
    have hreads : (decide (16 ≤ s.cntrQ.toNat)).toNat =
        if 16 ≤ s.cntrQ.toNat then 1 else 0 := by
      split <;> simp_all
    cases hstart : sFftStart i with
    | false =>
        have hroom := room_of_plain hbeats hstart
        have hcounter := cntrQ_plain (s := s) hstart
        rw [hreads, hcounter]
        split <;> omega
    | true =>
        obtain ⟨hvalid, hlast⟩ := last_of_start hbeats hstart
        rw [hreads, cntrQ_start hstart, hvalid, Bool.toNat_true]
        split <;> omega
  · intro hshown
    have hreads : 16 ≤ s.cntrQ.toNat :=
      of_decide_eq_true (halign.symm.trans hshown)
    apply hreading.sFftTdata_step hreads
    omega

theorem length_fftWord (s : State) (i : Input) :
    (fftWord s i).length = s.sFftTvalidAlign.toNat := by
  rw [fftWord]
  cases s.sFftTvalidAlign <;> rfl

theorem length_fftWord_le (s : State) (i : Input) :
    (fftWord s i).length ≤ 1 := by
  rw [length_fftWord]
  exact Bool.toNat_le _

theorem mem_fftWord {word : BitVec 48} :
    word ∈ fftWord s i ↔
      s.sFftTvalidAlign = true ∧ word = sFftTdata s := by
  rw [fftWord, List.mem_ite_nil_right, List.mem_singleton]

end Step

section Run

variable {order : ℕ → Order} {data : ℕ → Frame} {input : ℕ → Input}
  {horizon : ℕ}

section Presented

variable (rxMem : BitVec 5 → BitVec 34) (memDout : BitVec 34)

theorem length_presented_succ (input : ℕ → Input) (cycle : ℕ) :
    (presented rxMem memDout input (cycle + 1)).length =
      (presented rxMem memDout input cycle).length +
        (stateAt rxMem memDout input cycle).sFftTvalidAlign.toNat := by
  rw [presented, Machine.log_succ, List.length_append, length_fftWord]
  rfl

/-- The three invariants at a cycle of a run. -/
structure RunInv (order : ℕ → Order) (data : ℕ → Frame) (input : ℕ → Input)
    (cycle : ℕ) : Prop where
  writing : Writing order data (beats input cycle)
    (stateAt rxMem memDout input cycle)
  reading : Reading data (beats input cycle)
    (stateAt rxMem memDout input cycle)
  showing : Showing data (beats input cycle)
    (presented rxMem memDout input cycle).length
    (stateAt rxMem memDout input cycle)

theorem runInv_start (order : ℕ → Order) (data : ℕ → Frame)
    (input : ℕ → Input) : RunInv rxMem memDout order data input 0 := by
  have hidle : ¬ 16 ≤ (stateAt rxMem memDout input 0).cntrQ.toNat := by
    simp [stateAt, core]
  refine ⟨⟨?_, ?_⟩, ⟨rfl, ?_, ?_, ?_⟩, ⟨?_, ?_⟩⟩
  · simp [stateAt, core, beats]
  · intro k hk
    exact absurd hk (Nat.not_lt_zero _)
  · exact fun hreads => absurd hreads hidle
  · exact fun hreads => absurd hreads hidle
  · exact fun channel hchannel => absurd (by omega) hidle
  · simp [presented, stateAt, core, beats]
  · exact fun hshown => absurd hshown Bool.false_ne_true

theorem runInv_stateAt (hframes : FirFrames order data input horizon) :
    ∀ cycle ≤ horizon, RunInv rxMem memDout order data input cycle := by
  apply upTo_induction
  · exact runInv_start rxMem memDout order data input
  · rintro cycle hcycle ⟨hwriting, hreading, hshowing⟩
    have hbeats := hframes cycle hcycle
    constructor
    · exact hwriting.step hbeats
    · exact hreading.step hwriting hbeats
    · rw [length_presented_succ]
      exact hshowing.step hreading hbeats

/-- The words presented are the reversed frames. -/
theorem presented_eq (hframes : FirFrames order data input horizon) :
    ∀ cycle ≤ horizon, presented rxMem memDout input cycle =
      (List.range (presented rxMem memDout input cycle).length).map
        (reversedWord data) := by
  intro cycle hcycle
  refine (Machine.log_eq_iff length_fftWord_le _ cycle).mpr ?_
  intro earlier hearlier word hword
  obtain ⟨halign, rfl⟩ := mem_fftWord.mp hword
  exact (runInv_stateAt rxMem memDout hframes earlier (by omega)).showing.word
    halign

/-- The words still to come of finished frames come one a cycle, after one
cycle for the memory. -/
theorem finished_presented (hframes : FirFrames order data input horizon)
    {behind cycle : ℕ} (hcycle : cycle + 1 + behind ≤ horizon)
    (hbehind : (stateAt rxMem memDout input cycle).cntrQ.toNat ≤ 15 + behind) :
    16 * (beats input cycle / 16) ≤
      (presented rxMem memDout input (cycle + 1 + behind)).length := by
  have hmono : ∀ {early late : ℕ}, early ≤ late →
      (presented rxMem memDout input early).length ≤
        (presented rxMem memDout input late).length :=
    fun hle => (Machine.log_isPrefix fftWord hle).length_le
  induction behind generalizing cycle with
  | zero =>
      have hcount := (runInv_stateAt rxMem memDout hframes cycle
        (by omega)).showing.count
      rw [Nat.add_zero, length_presented_succ]
      omega
  | succ behind ih =>
      obtain ⟨-, hreading, hshowing⟩ :=
        runInv_stateAt rxMem memDout hframes cycle (by omega)
      have hcount := hshowing.count
      have hbeats := hframes cycle (by omega)
      by_cases hreads : 16 ≤ (stateAt rxMem memDout input cycle).cntrQ.toNat
      · cases hstart : sFftStart (input cycle) with
        | false =>
            have hroom := room_of_plain hbeats hstart
            have hframe : beats input (cycle + 1) / 16 =
                beats input cycle / 16 := by
              rw [beats]
              omega
            have hcounter : (stateAt rxMem memDout input
                (cycle + 1)).cntrQ.toNat =
                  (stateAt rxMem memDout input cycle).cntrQ.toNat - 1 :=
              (cntrQ_plain hstart).trans (if_pos hreads)
            rw [← hframe, show cycle + 1 + (behind + 1) =
              cycle + 1 + 1 + behind by omega]
            exact ih (by omega) (by omega)
        | true =>
            -- the next frame may start only as the last channel is read
            have hlast := (last_of_start hbeats hstart).2
            have hpace := hreading.pace hreads
            have halign : (stateAt rxMem memDout input
                (cycle + 1)).sFftTvalidAlign = true :=
              (sFftTvalid_eq _).trans (decide_eq_true hreads)
            have hfirst := length_presented_succ rxMem memDout input cycle
            have hsecond := length_presented_succ rxMem memDout input
              (cycle + 1)
            rw [halign, Bool.toNat_true] at hsecond
            have hrest := hmono (show cycle + 1 + 1 ≤
              cycle + 1 + (behind + 1) by omega)
            omega
      · have hfirst := length_presented_succ rxMem memDout input cycle
        have hrest := hmono (show cycle + 1 ≤ cycle + 1 + (behind + 1) by omega)
        omega

end Presented

end Run

/-- The buffer reverses the frames of the FIR, whatever the order of the
channels in a frame, the gaps between beats and the memory at power-up. -/
theorem reversal_reverses (rxMem : BitVec 5 → BitVec 34)
    (memDout : BitVec 34) (order : ℕ → Order) (data : ℕ → Frame)
    (input : ℕ → Input) (horizon : ℕ)
    (hframes : FirFrames order data input horizon) :
    Reverses rxMem memDout data input horizon where
  words := presented_eq rxMem memDout hframes
  complete := by
    intro cycle hcycle
    have hcount := (runInv_stateAt rxMem memDout hframes cycle
      hcycle).showing.count
    omega
  prompt := by
    intro cycle hcycle
    have hlate : cycle + 1 + 16 ≤ horizon := by omega
    have hcounter := (stateAt rxMem memDout input cycle).cntrQ.isLt
    have hfinished := finished_presented rxMem memDout hframes hlate (by omega)
    rwa [show cycle + 1 + 16 = cycle + 17 by omega] at hfinished
  pages := by
    intro cycle hcycle
    rw [(runInv_stateAt rxMem memDout hframes cycle hcycle).reading.page]
    exact (Bool.not_ne_self _).symm

/-- Frames whose channels come in descending or ascending order by turns. -/
def turningOrder (frame : ℕ) : Order :=
  if frame % 2 = 0 then Fin.revPerm else Equiv.refl _

/-- Outputs that show their frame and their channel. -/
def numberedFrame (frame : ℕ) (channel : Fin 16) : BitVec 48 :=
  BitVec.ofNat 48 (4 * (16 * frame + channel))

/-- The beats of `numberedFrame` in `turningOrder`, with a gap after every
fourth cycle. -/
def gappyRun (cycle : ℕ) : Input :=
  let beat := cycle / 5 * 4 + cycle % 5
  { mFirTvalid := decide (cycle % 5 ≠ 4)
    mFirTlast := decide (beat % 16 = 15)
    mFirChanid := BitVec.ofFin (channelOf turningOrder beat) ++ 0#1
    mFirTdata := numberedFrame (beat / 16) (channelOf turningOrder beat) }

theorem beats_gappyRun (cycle : ℕ) :
    beats gappyRun cycle = cycle / 5 * 4 + cycle % 5 := by
  induction cycle with
  | zero => rfl
  | succ cycle ih =>
      rw [beats, ih]
      by_cases hgap : cycle % 5 = 4
      · simp [gappyRun, hgap]
        omega
      · simp [gappyRun, hgap]
        omega

theorem firFrames_gappyRun (horizon : ℕ) :
    FirFrames turningOrder numberedFrame gappyRun horizon := by
  intro cycle _ _
  rw [beats_gappyRun]
  exact ⟨BitVec.extractLsb'_append_eq_left, rfl, rfl⟩

theorem reversal_reverses_gappyRun :
    Reverses (fun _ => 0) 0 numberedFrame gappyRun 80 :=
  reversal_reverses (fun _ => 0) 0 turningOrder numberedFrame gappyRun 80
    (firFrames_gappyRun 80)

end Rfsoc.Reversal
