import Rfsoc.Core.Framing
import Rfsoc.Core.Signals
import Mathlib.Data.BitVec

/-!
# The FFT selector of the oversampled channelizer

`axis_rxc16_dft_2ovs` feeds its FFT from two FIFOs in turn.  `mux_2x1` follows
`fir_sel`, the output of a `clk_divN` that toggles every eight cycles in which
either FIFO has data; its register `div_N` follows the toggle one cycle later
and has no initial value.  The FFT takes a word when the selected FIFO has one
and it is ready itself, so the select counts other cycles than the words taken.

Each FIFO is a queue: the word it shows stays until its ready and valid are
both high.  When it shows one is an input, and so is the FFT's ready.
-/

namespace Rfsoc.ClkDivN

/-- The registers of `clk_divN`. -/
structure State where
  cnt : ℕ
  divTemp : Bool
  divN : Bool

def step (n : ℕ) (s : State) (aresetn en : Bool) : State :=
  if !aresetn then { s with cnt := 0, divTemp := false }
  else
    { cnt := if en then if s.cnt ≥ n - 1 then 0 else s.cnt + 1 else s.cnt
      divTemp := if en && decide (s.cnt ≥ n - 1) then !s.divTemp else s.divTemp
      divN := s.divTemp }

/-- The registers at power-up; nothing in the source sets `div_N`. -/
def powerUp (start : Bool) : State where
  cnt := 0
  divTemp := false
  divN := start

/-- A reset leaves the divider as it powers up. -/
theorem step_of_reset (n : ℕ) (s : State) (en : Bool) :
    step n s false en = powerUp s.divN := rfl

/-- The divider after a number of enabled cycles. -/
def Divides (n count : ℕ) (s : State) : Prop :=
  s.cnt = count % n ∧ s.divTemp = decide (count / n % 2 = 1)

theorem divides_step {n count : ℕ} (hpos : 0 < n) {s : State}
    (hdivides : Divides n count s) (en : Bool) :
    Divides n (count + en.toNat) (step n s true en) := by
  obtain ⟨hcnt, htemp⟩ := hdivides
  cases en with
  | false => exact ⟨hcnt, htemp⟩
  | true =>
      have hroom := Nat.mod_lt count hpos
      have hmod := Framing.succ_mod_eq hpos count
      by_cases hfull : count % n + 1 = n
      · have hreached : s.cnt ≥ n - 1 := by omega
        have hdiv : (count + 1) / n = count / n + 1 :=
          Nat.succ_div_of_dvd (Nat.dvd_of_mod_eq_zero (hmod.trans (if_pos hfull)))
        constructor
        · rw [Bool.toNat_true, hmod, if_pos hfull]
          exact if_pos hreached
        · rw [Bool.toNat_true, hdiv]
          simp only [step, hreached, htemp]
          by_cases hodd : count / n % 2 = 1
          · simp [hodd, Nat.add_mod]
          · simp [hodd, show (count / n + 1) % 2 = 1 by omega]
      · have hbelow : ¬ s.cnt ≥ n - 1 := by omega
        have hdiv : (count + 1) / n = count / n := by
          apply Nat.succ_div_of_not_dvd
          rw [Nat.dvd_iff_mod_eq_zero, hmod, if_neg hfull]
          exact Nat.succ_ne_zero _
        constructor
        · rw [Bool.toNat_true, hmod, if_neg hfull, ← hcnt]
          exact if_neg hbelow
        · rw [Bool.toNat_true, hdiv, ← htemp]
          simp [step, hbelow]

end Rfsoc.ClkDivN

namespace Rfsoc.FftSelector

open Rfsoc.Clocked
open Rfsoc.Signals

abbrev FifoWord := BitVec 64
abbrev FftWord := BitVec 48

/-- The outputs of `mux_2x1`. -/
structure MuxPorts (Data : Type*) where
  ready0O : Bool
  ready1O : Bool
  validO : Bool
  dataO : Data

def mux2x1 {Data : Type*} (data0I data1I : Data)
    (sel readyI valid0I valid1I : Bool) : MuxPorts Data where
  ready0O := !sel && readyI
  ready1O := sel && readyI
  validO := if sel then valid1I else valid0I
  dataO := if sel then data1I else data0I

/-- `m_fifo00_tdata` and `m_fifo11_tdata`: the top 17 bits of either part. -/
def fftSample (word : FifoWord) : FftWord :=
  0#7 ++ word.extractLsb' 26 17 ++ 0#7 ++ word.extractLsb' 2 17

/-- The divider, and how many words have left each FIFO. -/
structure State where
  divider : ClkDivN.State
  popped0 : ℕ
  popped1 : ℕ

structure Input where
  aresetn : Bool
  mFifo0Tvalid : Bool
  mFifo1Tvalid : Bool
  fftTready : Bool

def divEn (i : Input) : Bool := i.mFifo0Tvalid || i.mFifo1Tvalid

def firSel (s : State) : Bool := s.divider.divN

/-- The words of the two FIFOs in their order, FIFO 1 under `true`. -/
abbrev Fifos := Bool → ℕ → FifoWord

/-- `i_selector`. -/
def selector (fifos : Fifos) (s : State) (i : Input) : MuxPorts FftWord :=
  mux2x1 (fftSample (fifos false s.popped0)) (fftSample (fifos true s.popped1))
    (firSel s) i.fftTready i.mFifo0Tvalid i.mFifo1Tvalid

def step (fifos : Fifos) (s : State) (i : Input) : State where
  divider := ClkDivN.step 8 s.divider i.aresetn (divEn i)
  popped0 := s.popped0 +
    ((selector fifos s i).ready0O && i.mFifo0Tvalid).toNat
  popped1 := s.popped1 +
    ((selector fifos s i).ready1O && i.mFifo1Tvalid).toNat

/-- The selector from power-up, with any first value of `div_N`. -/
def core (fifos : Fifos) (start : Bool) : Machine State Input where
  start :=
    { divider := ClkDivN.powerUp start
      popped0 := 0
      popped1 := 0 }
  step := step fifos

/-- A word that the FFT takes: its FIFO, its place there, and the data. -/
structure FftBeat where
  fifo : Bool
  number : ℕ
  data : FftWord
  deriving DecidableEq

/-- The words that have left a FIFO. -/
def popped (s : State) : Bool → ℕ
  | false => s.popped0
  | true => s.popped1

def fftBeat (fifos : Fifos) (s : State) (i : Input) : List FftBeat :=
  if (selector fifos s i).validO && i.fftTready then
    [⟨firSel s, popped s (firSel s), (selector fifos s i).dataO⟩]
  else []

/-- The words taken by the FFT before a cycle. -/
def fftWords (fifos : Fifos) (start : Bool) (input : ℕ → Input) :
    ℕ → List FftBeat :=
  (core fifos start).log input (fftBeat fifos)

/-- The FIFO of word `number` of the aligned stream: eight of one, eight of
the other. -/
def half (number : ℕ) : Bool := decide (number / 8 % 2 = 1)

/-- Its place in that FIFO. -/
def place (number : ℕ) : ℕ := 8 * (number / 16) + number % 8

def alignedBeat (fifos : Fifos) (number : ℕ) : FftBeat where
  fifo := half number
  number := place number
  data := fftSample (fifos (half number) (place number))

/-- The words taken up to a horizon make aligned frames: none is skipped, none
repeated, and each sixteen are eight of FIFO 0 and then eight of FIFO 1. -/
def FramesAligned (fifos : Fifos) (start : Bool) (input : ℕ → Input)
    (horizon : ℕ) : Prop :=
  fftWords fifos start input horizon =
    (List.range (fftWords fifos start input horizon).length).map
      (alignedBeat fifos)

/-- The words that `number` aligned words have taken from a FIFO. -/
def aheadIn (number : ℕ) : Bool → ℕ
  | false => 8 * (number / 16) + min (number % 16) 8
  | true => 8 * (number / 16) + (number % 16 - 8)

theorem aheadIn_half (number : ℕ) : aheadIn number (half number) = place number := by
  cases hhalf : half number with
  | false =>
      have heven : ¬ number / 8 % 2 = 1 := by simpa [half] using hhalf
      rw [aheadIn, place]
      omega
  | true =>
      have hodd : number / 8 % 2 = 1 := by simpa [half] using hhalf
      rw [aheadIn, place]
      omega

theorem aheadIn_succ (number : ℕ) (fifo : Bool) :
    aheadIn (number + 1) fifo =
      aheadIn number fifo + if half number = fifo then 1 else 0 := by
  cases hhalf : half number with
  | false =>
      have heven : ¬ number / 8 % 2 = 1 := by simpa [half] using hhalf
      cases fifo with
      | false =>
          rw [if_pos rfl, aheadIn, aheadIn]
          omega
      | true =>
          rw [if_neg Bool.false_ne_true, aheadIn, aheadIn]
          omega
  | true =>
      have hodd : number / 8 % 2 = 1 := by simpa [half] using hhalf
      cases fifo with
      | false =>
          rw [if_neg Bool.noConfusion, aheadIn, aheadIn]
          omega
      | true =>
          rw [if_pos rfl, aheadIn, aheadIn]
          omega

def fifoTvalid (i : Input) : Bool → Bool
  | false => i.mFifo0Tvalid
  | true => i.mFifo1Tvalid

section Counts

variable (start : Bool) (input : ℕ → Input)

/-- The cycles before the given one in which either FIFO has data. -/
def busyCycles : ℕ → ℕ := highCycles fun earlier => divEn (input earlier)

/-- The FIFO that the busy cycles select, one cycle late. -/
def selected : ℕ → Bool
  | 0 => start
  | cycle + 1 => half (busyCycles input cycle)

/-- The selected FIFO has a word, and the FFT takes it. -/
def takes (cycle : ℕ) : Bool :=
  fifoTvalid (input cycle) (selected start input cycle) &&
    (input cycle).fftTready

/-- The cycles before the given one in which a word is taken. -/
def takenWords : ℕ → ℕ := highCycles (takes start input)

/-- Whenever the FFT takes a word, the words it has taken and the busy cycles
counted so far stand in eighths of the same parity; a word in the very first
cycle comes from FIFO 0. -/
structure CountsInPhase (horizon : ℕ) : Prop where
  first : 0 < horizon → takes start input 0 = true → start = false
  later : ∀ cycle, cycle + 1 < horizon → takes start input (cycle + 1) = true →
    takenWords start input (cycle + 1) / 8 % 2 = busyCycles input cycle / 8 % 2

variable {start input}

theorem half_eq_iff (left right : ℕ) :
    half left = half right ↔ left / 8 % 2 = right / 8 % 2 := by
  rw [half, half, decide_eq_decide]
  omega

theorem countsInPhase_iff (horizon : ℕ) :
    CountsInPhase start input horizon ↔
      ∀ cycle < horizon, takes start input cycle = true →
        half (takenWords start input cycle) = selected start input cycle := by
  constructor
  · intro hphase cycle hcycle htakes
    cases cycle with
    | zero =>
        rw [takenWords, highCycles_zero]
        exact (hphase.first hcycle htakes).symm
    | succ cycle =>
        exact (half_eq_iff _ _).mpr (hphase.later cycle hcycle htakes)
  · intro hhalf
    constructor
    · intro hlong htakes
      have hfirst := hhalf 0 hlong htakes
      rw [takenWords, highCycles_zero] at hfirst
      exact hfirst.symm
    · intro cycle hcycle htakes
      exact (half_eq_iff _ _).mp (hhalf (cycle + 1) hcycle htakes)

end Counts

section Step

variable {fifos : Fifos} {s : State} {i : Input}

theorem fftBeat_eq (fifos : Fifos) (s : State) (i : Input) :
    fftBeat fifos s i =
      if fifoTvalid i (firSel s) && i.fftTready then
        [⟨firSel s, popped s (firSel s),
          fftSample (fifos (firSel s) (popped s (firSel s)))⟩]
      else [] := by
  rw [fftBeat, selector, mux2x1]
  cases firSel s <;> rfl

theorem mem_fftBeat {beat : FftBeat} :
    beat ∈ fftBeat fifos s i ↔
      (fifoTvalid i (firSel s) && i.fftTready) = true ∧
        beat = ⟨firSel s, popped s (firSel s),
          fftSample (fifos (firSel s) (popped s (firSel s)))⟩ := by
  rw [fftBeat_eq, List.mem_ite_nil_right, List.mem_singleton]

theorem length_fftBeat (fifos : Fifos) (s : State) (i : Input) :
    (fftBeat fifos s i).length =
      (fifoTvalid i (firSel s) && i.fftTready).toNat := by
  rw [fftBeat_eq]
  cases fifoTvalid i (firSel s) && i.fftTready <;> rfl

theorem length_fftBeat_le (fifos : Fifos) (s : State) (i : Input) :
    (fftBeat fifos s i).length ≤ 1 := by
  rw [length_fftBeat]
  exact Bool.toNat_le _

theorem popped_step (fifo : Bool) :
    popped (step fifos s i) fifo =
      popped s fifo +
        if fifoTvalid i (firSel s) && i.fftTready then
          if firSel s = fifo then 1 else 0
        else 0 := by
  cases fifo <;> cases hsel : firSel s <;> cases hready : i.fftTready <;>
    cases hvalid0 : i.mFifo0Tvalid <;> cases hvalid1 : i.mFifo1Tvalid <;>
    simp [popped, step, selector, mux2x1, fifoTvalid, hsel, hready, hvalid0,
      hvalid1]

end Step

/-- In every run the words taken from a FIFO are its words in their order. -/
theorem numbers_fftWords (fifos : Fifos) (start : Bool) (input : ℕ → Input)
    (fifo : Bool) (cycle : ℕ) :
    ((fftWords fifos start input cycle).filter fun beat =>
        beat.fifo == fifo).map FftBeat.number =
      List.range (popped ((core fifos start).stateAt input cycle) fifo) := by
  induction cycle with
  | zero => cases fifo <;> rfl
  | succ cycle ih =>
      rw [fftWords, Machine.log_succ, ← fftWords, List.filter_append,
        List.map_append, ih, Machine.stateAt_succ]
      change _ = List.range (popped (step fifos _ _) fifo)
      rw [fftBeat_eq, popped_step]
      split
      case isFalse => exact List.append_nil _
      case isTrue =>
          by_cases hfifo :
              firSel ((core fifos start).stateAt input cycle) = fifo
          · subst hfifo
            rw [if_pos rfl, List.range_succ]
            simp
          · simp [hfifo]

section Run

variable (fifos : Fifos) (start : Bool) {input : ℕ → Input} {horizon : ℕ}
  (hrun : ∀ cycle < horizon, (input cycle).aresetn = true)
include hrun

theorem divider_stateAt : ∀ cycle ≤ horizon,
    ClkDivN.Divides 8 (busyCycles input cycle)
        ((core fifos start).stateAt input cycle).divider ∧
      firSel ((core fifos start).stateAt input cycle) =
        selected start input cycle := by
  apply upTo_induction
  · rw [busyCycles, highCycles_zero]
    exact ⟨⟨rfl, rfl⟩, rfl⟩
  · rintro cycle hcycle ⟨hdivides, -⟩
    rw [Machine.stateAt_succ, busyCycles, highCycles_succ]
    simp only [core, step, firSel, hrun cycle hcycle]
    exact ⟨ClkDivN.divides_step (by decide) hdivides _, hdivides.2⟩

theorem length_fftWords : ∀ cycle ≤ horizon,
    (fftWords fifos start input cycle).length =
      takenWords start input cycle := by
  apply upTo_induction
  · rfl
  · intro cycle hcycle ih
    rw [fftWords, Machine.log_succ, List.length_append, length_fftBeat,
      ← fftWords, ih, takenWords, highCycles_succ,
      (divider_stateAt fifos start hrun cycle hcycle.le).2]
    rfl

/-- In phase, the FIFOs stand where the aligned words have left them. -/
theorem popped_stateAt
    (hphase : ∀ cycle < horizon, takes start input cycle = true →
      half (takenWords start input cycle) = selected start input cycle) :
    ∀ cycle ≤ horizon,
      popped ((core fifos start).stateAt input cycle) =
        aheadIn (takenWords start input cycle) := by
  apply upTo_induction
  · rw [takenWords, highCycles_zero]
    funext fifo
    cases fifo <;> rfl
  · intro cycle hcycle hpopped
    funext fifo
    rw [Machine.stateAt_succ, takenWords, highCycles_succ]
    change popped (step fifos _ _) fifo = _
    rw [popped_step, (divider_stateAt fifos start hrun cycle hcycle.le).2,
      hpopped]
    change _ + (if takes start input cycle = true then _ else 0) = _
    cases htakes : takes start input cycle with
    | false => rfl
    | true =>
        rw [← hphase cycle hcycle htakes, Bool.toNat_true, aheadIn_succ]
        rfl

/-- The frames are aligned as long as every word comes from the FIFO and the
place that its number says. -/
theorem framesAligned_iff :
    FramesAligned fifos start input horizon ↔
      ∀ cycle < horizon, takes start input cycle = true →
        selected start input cycle = half (takenWords start input cycle) ∧
          popped ((core fifos start).stateAt input cycle)
              (selected start input cycle) =
            place (takenWords start input cycle) := by
  rw [FramesAligned, fftWords, Machine.log_eq_iff (length_fftBeat_le fifos),
    ← fftWords]
  refine forall₂_congr fun cycle hcycle => ?_
  rw [length_fftWords fifos start hrun cycle hcycle.le]
  simp only [mem_fftBeat, (divider_stateAt fifos start hrun cycle hcycle.le).2]
  change (∀ _, takes start input cycle = true ∧ _ → _) ↔ _
  constructor
  · intro hbeats htakes
    have hbeat := hbeats _ ⟨htakes, rfl⟩
    exact ⟨congrArg FftBeat.fifo hbeat, congrArg FftBeat.number hbeat⟩
  · rintro hplaces _ ⟨htakes, rfl⟩
    obtain ⟨hfifo, hnumber⟩ := hplaces htakes
    rw [hnumber, hfifo, alignedBeat]

end Run

/-- The FFT's frames are aligned exactly in the runs whose words and busy
cycles stay in phase. -/
theorem selector_framesAligned_iff (fifos : Fifos) (start : Bool)
    (input : ℕ → Input) (horizon : ℕ)
    (hrun : ∀ cycle < horizon, (input cycle).aresetn = true) :
    FramesAligned fifos start input horizon ↔
      CountsInPhase start input horizon := by
  rw [countsInPhase_iff, framesAligned_iff fifos start hrun]
  constructor
  · intro haligned cycle hcycle htakes
    exact (haligned cycle hcycle htakes).1.symm
  · intro hphase cycle hcycle htakes
    have hhalf := hphase cycle hcycle htakes
    have hpopped := popped_stateAt fifos start hrun hphase cycle hcycle.le
    exact ⟨hhalf.symm, by rw [hpopped, ← hhalf, aheadIn_half]⟩

/-- Both FIFOs always have data, and the FFT is ready in the given cycles. -/
def fullRun (ready : ℕ → Bool) (cycle : ℕ) : Input where
  aresetn := true
  mFifo0Tvalid := true
  mFifo1Tvalid := true
  fftTready := ready cycle

/-- FIFOs whose words show their FIFO and their place. -/
def numberedFifos (fifo : Bool) (number : ℕ) : FifoWord :=
  BitVec.ofNat 64 (4 * (2 * number + fifo.toNat))

/-- One cycle in which the FFT is not ready makes up for the late select. -/
theorem selector_framesAligned_lateReady :
    FramesAligned numberedFifos false (fullRun fun cycle => decide (0 < cycle))
      40 :=
  (selector_framesAligned_iff numberedFifos false _ 40 fun _ _ => rfl).mpr
    ((countsInPhase_iff 40).mpr (by decide +kernel))

/-- With an FFT that is ready from the start the first nine words come from
FIFO 0 if `div_N` powers up low; if it powers up high the first word already
comes from FIFO 1. -/
theorem selector_misaligned_fullRun :
    (fftWords numberedFifos false (fullRun fun _ => true) 9).map FftBeat.fifo =
        List.replicate 9 false ∧
      ¬ FramesAligned numberedFifos false (fullRun fun _ => true) 9 ∧
      ¬ FramesAligned numberedFifos true (fullRun fun _ => true) 9 := by
  refine ⟨by decide +kernel, ?_, ?_⟩
  · rw [FramesAligned]
    decide +kernel
  · rw [FramesAligned]
    decide +kernel

end Rfsoc.FftSelector
