import Rfsoc.Axis.Decimation
import Rfsoc.Axis.Framers
import Rfsoc.Axis.Interpolation
import Rfsoc.Core.Stream

/-!
# The stream cores as transducers

`axis_decimator`, `axis_packetizer`, `axis_interpolator` and the width converter
that the designs put behind the packetizer, each with the transducer it realizes.
Reset is over in these runs, and a core may start from any of its registers
where the design does not reset it with the rest.
-/

namespace Rfsoc

open Rfsoc.Bits
open Rfsoc.Clocked
open Rfsoc.Framing
open Rfsoc.Stream

variable {axisTdataWidth cntrWidth : ℕ}

namespace Decimator

/-- The words with as many words since the last kept one as the counter says. -/
def decimation (Word : Type*) (factor : ℕ) : Transducer ℕ Word Word where
  next counter _ := if counter < factor then counter + 1 else 0
  out counter word := if counter < factor then [] else [word]

/-- Every `factor + 1`st word, the first of them after `factor - counter`
others; a counter past the factor keeps the next word. -/
theorem getElem?_decimation {Word : Type*} (factor counter : ℕ)
    (words : List Word) (k : ℕ) :
    ((decimation Word factor).run counter words)[k]? =
      words[factor - counter + k * (factor + 1)]? := by
  induction words generalizing counter k with
  | nil => simp
  | cons word words ih =>
      rw [Transducer.run_cons]
      by_cases hmore : counter < factor
      · have hnext : factor - counter + k * (factor + 1) =
            factor - (counter + 1) + k * (factor + 1) + 1 := by omega
        simp only [decimation, hmore, if_true, List.nil_append]
        rw [hnext, List.getElem?_cons_succ]
        exact ih (counter + 1) k
      · have hkept : factor - counter = 0 := by omega
        simp only [decimation, hmore, if_false, List.singleton_append, hkept,
          Nat.zero_add]
        cases k with
        | zero =>
            rw [Nat.zero_mul, List.getElem?_cons_zero, List.getElem?_cons_zero]
        | succ k =>
            have hnext : (k + 1) * (factor + 1) =
                factor - 0 + k * (factor + 1) + 1 := by
              rw [Nat.succ_mul]
              omega
            rw [List.getElem?_cons_succ, hnext, List.getElem?_cons_succ]
            exact ih 0 k

theorem length_run_decimation {Word : Type*} {factor counter : ℕ}
    (hcounter : counter ≤ factor) (words : List Word) :
    ((decimation Word factor).run counter words).length =
      (counter + words.length) / (factor + 1) := by
  induction words generalizing counter with
  | nil => simp [Nat.div_eq_of_lt (Nat.lt_succ_of_le hcounter)]
  | cons word words ih =>
      rw [Transducer.run_cons, List.length_append, List.length_cons]
      by_cases hmore : counter < factor
      · simp only [decimation, hmore, if_true, List.length_nil, Nat.zero_add]
        rw [← decimation, ih hmore]
        congr 1
        omega
      · obtain rfl : counter = factor := by omega
        simp only [decimation, lt_irrefl, if_false, List.length_singleton]
        rw [← decimation, ih (Nat.zero_le counter), Nat.zero_add,
          show counter + (words.length + 1) = counter + 1 + words.length by omega,
          Nat.add_div_left _ (Nat.succ_pos counter), Nat.add_comm]

def ofDrive (i : Drive (BitVec axisTdataWidth)) : Input axisTdataWidth where
  aresetn := true
  sAxisTdata := i.offer.data
  sAxisTvalid := i.offer.valid
  mAxisTready := i.ready

/-- The core between its two streams. -/
def streamCore (cfgData : BitVec cntrWidth)
    (start : State axisTdataWidth cntrWidth) :
    Core (State axisTdataWidth cntrWidth) (BitVec axisTdataWidth)
      (BitVec axisTdataWidth) where
  start := start
  offer s _ := { valid := mAxisTvalid s, data := mAxisTdata s }
  ready s _ := sAxisTready s
  step s i := step cfgData s (ofDrive i)

/-- The word in the output register. -/
def pending (s : State axisTdataWidth cntrWidth) :
    List (BitVec axisTdataWidth) :=
  if s.intTvalidReg then [s.intTdataReg] else []

def ShowsCounter (s : State axisTdataWidth cntrWidth) (counter : ℕ)
    (owed : List (BitVec axisTdataWidth)) : Prop :=
  s.intCntrReg.toNat = counter ∧ owed = pending s

/-- A word is kept only when the one before it has been taken or is just being
taken. -/
def KeepsUp (cfgData : BitVec cntrWidth) (s : State axisTdataWidth cntrWidth)
    (i : Drive (BitVec axisTdataWidth)) : Prop :=
  keeps cfgData s (ofDrive i) = true → s.intTvalidReg = true → i.ready = true

section Step

variable {cfgData : BitVec cntrWidth} {s : State axisTdataWidth cntrWidth}
  {i : Input axisTdataWidth}

/-- Without a kept word the register only gives its word away. -/
theorem pending_step (hrun : i.aresetn = true) (hnot : keeps cfgData s i = false) :
    pending s = transferredWord s i ++ pending (step cfgData s i) := by
  obtain ⟨hdata, -⟩ := shown_of_not_keeps hrun hnot
  have hvalid : (step cfgData s i).intTvalidReg =
      (keeps cfgData s i || (s.intTvalidReg && !i.mAxisTready)) :=
    intTvalidReg_step hrun
  rw [hnot, Bool.false_or] at hvalid
  rw [pending, pending, transferredWord, mAxisTvalid, mAxisTdata, hvalid, hdata]
  cases s.intTvalidReg <;> cases i.mAxisTready <;> rfl

/-- A kept word takes the place of one that is taken. -/
theorem pending_keeps (hrun : i.aresetn = true)
    (hkeeps : keeps cfgData s i = true)
    (htaken : s.intTvalidReg = true → i.mAxisTready = true) :
    pending s ++ [i.sAxisTdata] =
      transferredWord s i ++ pending (step cfgData s i) := by
  have hvalid : (step cfgData s i).intTvalidReg =
      (keeps cfgData s i || (s.intTvalidReg && !i.mAxisTready)) :=
    intTvalidReg_step hrun
  rw [hkeeps, Bool.true_or] at hvalid
  have hdata : (step cfgData s i).intTdataReg = i.sAxisTdata := by
    rw [keeps] at hkeeps
    rw [step, if_pos hrun]
    exact if_pos hkeeps
  rw [pending, pending, transferredWord, mAxisTvalid, mAxisTdata, hvalid, hdata]
  cases hfull : s.intTvalidReg with
  | false => rfl
  | true =>
      rw [htaken hfull]
      rfl

/-- The counter reads the accepted words as the transducer does. -/
theorem toNat_intCntrReg_step (hrun : i.aresetn = true) :
    (step cfgData s i).intCntrReg.toNat =
      (decimation (BitVec axisTdataWidth) cfgData.toNat).after
        s.intCntrReg.toNat (acceptedWord s i) := by
  rw [acceptedWord_eq, step, if_pos hrun]
  change (intCntrNext cfgData s i).toNat = _
  rw [intCntrNext, intCompWire_eq]
  cases intTvalidWire s i with
  | false => rfl
  | true =>
      by_cases hmore : s.intCntrReg.toNat < cfgData.toNat
      · have hroom := lt_of_le_of_lt hmore cfgData.isLt
        simpa [decimation, Transducer.after, hmore] using
          toNat_succ_of_lt rfl hroom
      · simp [decimation, Transducer.after, hmore]

/-- The kept words are the words of the transducer. -/
theorem run_decimation_acceptedWord :
    (decimation (BitVec axisTdataWidth) cfgData.toNat).run s.intCntrReg.toNat
        (acceptedWord s i) =
      if keeps cfgData s i then [i.sAxisTdata] else [] := by
  rw [acceptedWord_eq, keeps, intCompWire_eq]
  cases intTvalidWire s i with
  | false => rfl
  | true =>
      by_cases hmore : s.intCntrReg.toNat < cfgData.toNat
      · simp [decimation, Transducer.run, emitted, hmore]
      · simp [decimation, Transducer.run, emitted, hmore]

end Step

/-- A decimator whose consumer keeps up decimates. -/
theorem realizes_decimation (cfgData : BitVec cntrWidth)
    (start : State axisTdataWidth cntrWidth) :
    Realizes (streamCore cfgData start)
      (decimation (BitVec axisTdataWidth) cfgData.toNat) (KeepsUp cfgData)
      ShowsCounter where
  step := by
    rintro s i counter owed hkeepsUp ⟨rfl, rfl⟩
    refine ⟨pending (step cfgData s (ofDrive i)),
      ⟨toNat_intCntrReg_step rfl, rfl⟩, ?_⟩
    change pending s ++ (decimation _ cfgData.toNat).run s.intCntrReg.toNat
        (acceptedWord s (ofDrive i)) = transferredWord s (ofDrive i) ++ _
    rw [run_decimation_acceptedWord]
    cases hkeeps : keeps cfgData s (ofDrive i) with
    | false => exact (List.append_nil _).trans (pending_step rfl hkeeps)
    | true => exact pending_keeps rfl hkeeps (hkeepsUp hkeeps)

end Decimator

namespace Interpolator

/-- Every word `factor + 1` times. -/
def repetition (Word : Type*) (factor : ℕ) : Transducer Unit Word Word where
  next _ _ := ()
  out _ word := List.replicate (factor + 1) word

theorem run_repetition {Word : Type*} (factor : ℕ) (words : List Word) :
    (repetition Word factor).run () words = repeated factor words := by
  induction words with
  | nil => rfl
  | cons word words ih =>
      rw [Transducer.run_cons, ← List.singleton_append, repeated_append,
        repeated_singleton, ← ih]
      rfl

def ofDrive (i : Drive (BitVec axisTdataWidth)) : Input axisTdataWidth where
  aresetn := true
  sAxisTdata := i.offer.data
  sAxisTvalid := i.offer.valid
  mAxisTready := i.ready

/-- The core between its two streams. -/
def streamCore (axisTdataWidth : ℕ) (cfgData : BitVec cntrWidth) :
    Core (State axisTdataWidth cntrWidth) (BitVec axisTdataWidth)
      (BitVec axisTdataWidth) where
  start := resetState
  offer s _ := { valid := mAxisTvalid s, data := mAxisTdata s }
  ready s _ := sAxisTready s
  step s i := step cfgData s (ofDrive i)

def ShowsCopies (factor : ℕ) (s : State axisTdataWidth cntrWidth) (_ : Unit)
    (owed : List (BitVec axisTdataWidth)) : Prop :=
  Counts factor s ∧ owed = remaining factor s

/-- The interpolator repeats, whatever its neighbours do. -/
theorem realizes_repetition (cfgData : BitVec cntrWidth) :
    Realizes (streamCore axisTdataWidth cfgData)
      (repetition (BitVec axisTdataWidth) cfgData.toNat) (fun _ _ => True)
      (ShowsCopies cfgData.toNat) where
  step := by
    rintro s i ⟨⟩ owed - ⟨hcounts, rfl⟩
    have hrun : (ofDrive i).aresetn = true := rfl
    refine ⟨remaining cfgData.toNat (step cfgData s (ofDrive i)),
      ⟨counts_step hrun hcounts, rfl⟩, ?_⟩
    rw [run_repetition]
    exact (transferredWord_remaining hrun hcounts).symm

end Interpolator

namespace Packetizer

variable {Data : Type*}

/-- The words with the mark of the last one of each packet. -/
def framing (Data : Type*) (packet : ℕ) : Transducer ℕ Data (Data × Bool) where
  next position _ := nextPosition packet true position
  out position word := [(word, decide (position + 1 = packet))]

def ofDrive (i : Drive Data) : Input Data where
  aresetn := true
  sAxisTdata := i.offer.data
  sAxisTvalid := i.offer.valid
  mAxisTready := i.ready

/-- The core between its two streams, the one it hands on with its marks. -/
def streamCore (Data : Type*) (continuous : Bool) (cfgData : BitVec cntrWidth) :
    Core (State cntrWidth) Data (Data × Bool) where
  start := resetState
  offer s offer :=
    { valid := s.intEnblReg && offer.valid
      data := (offer.data, mAxisTlast cfgData s) }
  ready s ready := s.intEnblReg && ready
  step s i := step continuous cfgData s (ofDrive i)

def ShowsPosition (last : ℕ) (s : State cntrWidth) (position : ℕ)
    (owed : List (Data × Bool)) : Prop :=
  CountsTo last s position ∧ owed = []

theorem acceptedWord_streamCore (continuous : Bool) (cfgData : BitVec cntrWidth)
    (s : State cntrWidth) (i : Drive Data) :
    (streamCore Data continuous cfgData).acceptedWord s i =
      if beat s (ofDrive i) then [i.offer.data] else [] := by
  rw [beat_eq_slave]
  rfl

theorem transferredWord_streamCore (continuous : Bool)
    (cfgData : BitVec cntrWidth) (s : State cntrWidth) (i : Drive Data) :
    (streamCore Data continuous cfgData).transferredWord s i =
      if beat s (ofDrive i) then [(i.offer.data, mAxisTlast cfgData s)]
      else [] := rfl

theorem length_run_framing (packet position : ℕ) (words : List Data) :
    ((framing Data packet).run position words).length = words.length := by
  induction words generalizing position with
  | nil => rfl
  | cons word words ih =>
      rw [Transducer.run_cons, List.length_append, ih]
      exact Nat.add_comm 1 words.length

/-- A continuous packetizer frames its stream in packets of `cfg_data + 1`. -/
theorem realizes_framing (Data : Type*) (cfgData : BitVec cntrWidth)
    (hopens : 0 < cfgData.toNat) :
    Realizes (streamCore Data true cfgData) (framing Data (cfgData.toNat + 1))
      (fun _ _ => True) (ShowsPosition cfgData.toNat) where
  step := by
    rintro s i position owed - ⟨hcounts, rfl⟩
    have hnext := countsTo_step (i := ofDrive i) rfl hcounts
    have hlast := mAxisTlast_eq hopens hcounts
    rw [acceptedWord_streamCore, transferredWord_streamCore, hlast]
    cases hbeat : beat s (ofDrive i) with
    | false =>
        rw [hbeat] at hnext
        exact ⟨[], ⟨hnext, rfl⟩, rfl⟩
    | true =>
        rw [hbeat] at hnext
        exact ⟨[], ⟨hnext, rfl⟩, rfl⟩

end Packetizer

/-! ## The zeroer

`axis_zeroer` has no register: it offers a word in every cycle, zero when it is
offered none. -/

namespace Zeroer

def sAxisTready (mAxisTready : Bool) : Bool := mAxisTready

def mAxisTdata (sAxisTvalid : Bool) (sAxisTdata : BitVec axisTdataWidth) :
    BitVec axisTdataWidth :=
  if sAxisTvalid then sAxisTdata else 0

def mAxisTvalid : Bool := true

end Zeroer

/-! ## The width converter

The converter between the packetizer and the RAM writer is not part of the
repository.  Of it the designs rely on the pairing of words: two 32-bit words
make one of 64 bits, the first in the low half, and a last word that has no
partner is handed on alone. -/

namespace WidthConverter

/-- What the converter makes of words with marks; `alone` pads a last word. -/
def pairing (alone : BitVec 32 → BitVec 64) :
    Transducer (Option (BitVec 32)) (BitVec 32 × Bool) (BitVec 64) where
  next low word :=
    match low with
    | none => if word.2 then none else some word.1
    | some _ => none
  out low word :=
    match low with
    | none => if word.2 then [alone word.1] else []
    | some low => [word.1 ++ low]

/-- Words in pairs, without the last one of an odd number. -/
def pairs : List (BitVec 32) → List (BitVec 64)
  | low :: high :: rest => (high ++ low) :: pairs rest
  | _ => []

theorem getElem?_pairs (words : List (BitVec 32)) (k : ℕ) :
    (pairs words)[k]? =
      (words[2 * k + 1]?).bind fun high =>
        (words[2 * k]?).map fun low => high ++ low := by
  induction words using pairs.induct generalizing k with
  | case1 low high rest ih =>
      cases k with
      | zero => rfl
      | succ k =>
          have hlow : 2 * (k + 1) = 2 * k + 1 + 1 := by omega
          rw [pairs, List.getElem?_cons_succ, ih k, hlow]
          rfl
  | case2 words hshort =>
      cases words with
      | nil => rfl
      | cons low rest =>
          cases rest with
          | nil => simp [pairs]
          | cons high rest => exact absurd rfl (hshort low high rest)

theorem length_pairs (words : List (BitVec 32)) :
    (pairs words).length = words.length / 2 := by
  induction words using pairs.induct with
  | case1 low high rest ih =>
      rw [pairs, List.length_cons, ih, List.length_cons, List.length_cons]
      omega
  | case2 words hshort =>
      cases words with
      | nil => rfl
      | cons low rest =>
          cases rest with
          | nil => simp [pairs]
          | cons high rest => exact absurd rfl (hshort low high rest)

/-- Words without marks are paired. -/
theorem run_pairing_unmarked (alone : BitVec 32 → BitVec 64)
    (words : List (BitVec 32)) :
    (pairing alone).run none (words.map fun word => (word, false)) =
      pairs words := by
  induction words using pairs.induct with
  | case1 low high rest ih => exact congrArg ((high ++ low) :: ·) ih
  | case2 words hshort =>
      cases words with
      | nil => rfl
      | cons low rest =>
          cases rest with
          | nil => rfl
          | cons high rest => exact absurd rfl (hshort low high rest)

/-- Packets of an even length leave no word without a partner. -/
theorem run_framing_pairing (alone : BitVec 32 → BitVec 64) {packet : ℕ}
    (heven : 2 ∣ packet) {position : ℕ} (hstart : 2 ∣ position)
    (hinside : position < packet) (words : List (BitVec 32)) :
    (pairing alone).run none
        ((Packetizer.framing (BitVec 32) packet).run position words) =
      pairs words := by
  induction words using pairs.induct generalizing position with
  | case1 low high rest ih =>
      have hmore : ¬ position + 1 = packet := by omega
      have hfirst : nextPosition packet true position = position + 1 :=
        if_neg hmore
      have hrest : (pairing alone).run none
          ((Packetizer.framing (BitVec 32) packet).run
            (nextPosition packet true (position + 1)) rest) = pairs rest := by
        rw [nextPosition, if_pos rfl]
        split
        case isTrue => exact ih (dvd_zero 2) (by omega)
        case isFalse => exact ih (by omega) (by omega)
      rw [Transducer.run_cons, Transducer.run_cons]
      simp only [Packetizer.framing, hfirst, hmore, decide_false]
      exact congrArg ((high ++ low) :: ·) hrest
  | case2 words hshort =>
      cases words with
      | nil => rfl
      | cons low rest =>
          cases rest with
          | nil =>
              have hmore : ¬ position + 1 = packet := by omega
              simp only [Transducer.run_cons, Packetizer.framing, hmore,
                decide_false]
              rfl
          | cons high rest => exact absurd rfl (hshort low high rest)

/-- Each word gives at most one. -/
theorem length_run_pairing_le (alone : BitVec 32 → BitVec 64)
    (low : Option (BitVec 32)) (words : List (BitVec 32 × Bool)) :
    ((pairing alone).run low words).length ≤ words.length := by
  induction words generalizing low with
  | nil => exact le_rfl
  | cons word words ih =>
      rw [Transducer.run_cons, List.length_append, List.length_cons]
      have hrest := ih ((pairing alone).next low word)
      have hone : ((pairing alone).out low word).length ≤ 1 := by
        unfold pairing
        cases low with
        | none => cases hlast : word.2 <;> simp [hlast]
        | some low => exact le_rfl
      omega

/-- A converter with one register for each half of its work: the low word of a
pair, and the pair that waits to be taken. -/
structure Registers where
  low : Option (BitVec 32)
  word : Option (BitVec 64)

def registered (alone : BitVec 32 → BitVec 64) :
    Core Registers (BitVec 32 × Bool) (BitVec 64) where
  start := { low := none, word := none }
  offer s _ := { valid := s.word.isSome, data := s.word.getD 0 }
  ready s _ := s.word.isNone
  step s i :=
    if i.offer.valid && s.word.isNone then
      { low := (pairing alone).next s.low i.offer.data
        word := ((pairing alone).out s.low i.offer.data).head? }
    else { s with word := if i.ready then none else s.word }

/-- A word that can be taken is gone after the cycle. -/
theorem word_of_ready {alone : BitVec 32 → BitVec 64} {s : Registers}
    {i : Drive (BitVec 32 × Bool)} (hheld : s.word.isNone = false)
    (hready : i.ready = true) : ((registered alone).step s i).word = none := by
  simp only [registered, hheld, hready, Bool.and_false, Bool.false_eq_true,
    if_false, if_true]

def ShowsPair (s : Registers) (low : Option (BitVec 32))
    (owed : List (BitVec 64)) : Prop :=
  s.low = low ∧ owed = s.word.toList

theorem realizes_pairing (alone : BitVec 32 → BitVec 64) :
    Realizes (registered alone) (pairing alone) (fun _ _ => True) ShowsPair where
  step := by
    rintro ⟨low, word⟩ i _ _ - ⟨rfl, rfl⟩
    cases word with
    | some word =>
        refine ⟨(if i.ready then none else some word).toList, ?_, ?_⟩
        · simp [registered, Core.acceptedWord, ShowsPair]
        · cases hready : i.ready <;>
            simp [registered, Core.acceptedWord, Core.transferredWord, hready]
    | none =>
        cases hvalid : i.offer.valid with
        | false =>
            exact ⟨[], by simp [registered, Core.acceptedWord, ShowsPair, hvalid],
              by simp [registered, Core.acceptedWord, Core.transferredWord, hvalid]⟩
        | true =>
            have hone : ((pairing alone).out low i.offer.data).head?.toList =
                (pairing alone).out low i.offer.data := by
              cases low with
              | none => cases hlast : i.offer.data.2 <;> simp [pairing, hlast]
              | some low => rfl
            refine ⟨(pairing alone).out low i.offer.data, ?_, ?_⟩
            · simp [registered, Core.acceptedWord, ShowsPair, hvalid, hone,
                Transducer.after]
            · simp [registered, Core.acceptedWord, Core.transferredWord, hvalid,
                Transducer.run_singleton]

/-- Such a converter, with zeros next to a last word. -/
def padding : Core Registers (BitVec 32 × Bool) (BitVec 64) :=
  registered fun word => word.setWidth 64

theorem realizes_padding :
    Realizes padding (pairing fun word => word.setWidth 64) (fun _ _ => True)
      ShowsPair :=
  realizes_pairing _

end WidthConverter

end Rfsoc
