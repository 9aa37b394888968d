import Rfsoc.Axis.Decimator
import Rfsoc.Core.Bits
import Rfsoc.Core.Mailbox

/-!
# The words that the decimator keeps

The decimator keeps every `cfg_data + 1`st accepted word in its output
register, which it never holds back: the register is a place that is
overwritten, and the words that leave it are the letters taken from there.
-/

namespace Rfsoc.Decimator

open Rfsoc.Bits
open Rfsoc.Clocked
open Rfsoc.Mailbox
open Rfsoc.Signals

variable {axisTdataWidth cntrWidth : ℕ}

/-- The core with a constant `cfg_data`, from reset. -/
def core (cfgData : BitVec cntrWidth) :
    Machine (State axisTdataWidth cntrWidth) (Input axisTdataWidth) :=
  ⟨resetState, step cfgData⟩

def acceptedWord (s : State axisTdataWidth cntrWidth)
    (i : Input axisTdataWidth) : List (BitVec axisTdataWidth) :=
  if i.sAxisTvalid && sAxisTready s then [i.sAxisTdata] else []

def transferredWord (s : State axisTdataWidth cntrWidth)
    (i : Input axisTdataWidth) : List (BitVec axisTdataWidth) :=
  if mAxisTvalid s && i.mAxisTready then [mAxisTdata s] else []

/-- The accepted word goes to the output register. -/
def keeps (cfgData : BitVec cntrWidth) (s : State axisTdataWidth cntrWidth)
    (i : Input axisTdataWidth) : Bool :=
  intTvalidWire s i && !intCompWire cfgData s

section Run

variable (cfgData : BitVec cntrWidth) (input : ℕ → Input axisTdataWidth)

def stateAt (cycle : ℕ) : State axisTdataWidth cntrWidth :=
  (core cfgData).stateAt input cycle

/-- The words accepted on the slave side before a cycle. -/
def accepted : ℕ → List (BitVec axisTdataWidth) :=
  (core cfgData).log input acceptedWord

/-- The words transferred on the master side before a cycle. -/
def transferred : ℕ → List (BitVec axisTdataWidth) :=
  (core cfgData).log input transferredWord

/-- The word with this number, from one, is accepted in a cycle. -/
def AcceptedAt (number cycle : ℕ) : Prop :=
  acceptedWord (stateAt cfgData input cycle) (input cycle) ≠ [] ∧
    (accepted cfgData input cycle).length + 1 = number

/-- Word `y_k` of those accepted before a horizon. -/
def keptWord (horizon k : ℕ) : Option (BitVec axisTdataWidth) :=
  (accepted cfgData input horizon)[k * (cfgData.toNat + 1) - 1]?

def keepsAt (cycle : ℕ) : Bool :=
  keeps cfgData (stateAt cfgData input cycle) (input cycle)

/-- The numbers `k` of the words `y_k` that were in the output register when
it was read, oldest first. -/
def numbers : ℕ → List ℕ :=
  taken (keepsAt cfgData input) (fun cycle => (input cycle).mAxisTready)
    fun cycle => mAxisTvalid (stateAt cfgData input cycle)

/-- Between the cycle of `y_k` and that of `y_(k+1)` the consumer has not been
ready. -/
def Missed (first last : ℕ) : Prop :=
  ∀ between, first < between → between ≤ last →
    (input between).mAxisTready = false

/-- The decimator up to a horizon. -/
structure Decimates (horizon : ℕ) : Prop where
  /-- The words transferred are the `y_k` of the numbers. -/
  words : (transferred cfgData input horizon).map some =
    (numbers cfgData input horizon).map (keptWord cfgData input horizon)
  /-- The numbers go up, so no word comes twice. -/
  order : (numbers cfgData input horizon).Pairwise (· < ·)
  positive : ∀ k ∈ numbers cfgData input horizon, 1 ≤ k
  /-- Word `y_k` is missing exactly when the consumer missed it. -/
  missing : ∀ k first last,
    AcceptedAt cfgData input (k * (cfgData.toNat + 1)) first →
    AcceptedAt cfgData input ((k + 1) * (cfgData.toNat + 1)) last →
    last < horizon →
      (k ∉ numbers cfgData input horizon ↔ Missed input first last)
  /-- A consumer that is ready once per period misses none. -/
  complete :
    (∀ k first last,
      AcceptedAt cfgData input (k * (cfgData.toNat + 1)) first →
      AcceptedAt cfgData input ((k + 1) * (cfgData.toNat + 1)) last →
      last < horizon → ¬ Missed input first last) →
    ∀ k, 1 ≤ k →
      (k + 1) * (cfgData.toNat + 1) ≤
        (accepted cfgData input horizon).length →
      k ∈ numbers cfgData input horizon

end Run

/-- The registers after `kept` words have been kept. -/
structure Keeping (factor : ℕ) (words : List (BitVec axisTdataWidth))
    (kept : ℕ) (s : State axisTdataWidth cntrWidth) : Prop where
  length : words.length = kept * (factor + 1) + s.intCntrReg.toNat
  bound : s.intCntrReg.toNat ≤ factor
  shown : s.intTvalidReg = true →
    words[kept * (factor + 1) - 1]? = some s.intTdataReg

theorem getElem?_append_of_some {Word : Type*} {early late : List Word}
    {place : ℕ} {word : Word} (hword : early[place]? = some word) :
    (early ++ late)[place]? = some word := by
  obtain ⟨hplace, -⟩ := List.getElem?_eq_some_iff.mp hword
  rwa [List.getElem?_append_left hplace]

section Step

variable {cfgData : BitVec cntrWidth} {s : State axisTdataWidth cntrWidth}
  {i : Input axisTdataWidth}

theorem acceptedWord_eq (s : State axisTdataWidth cntrWidth)
    (i : Input axisTdataWidth) :
    acceptedWord s i = if intTvalidWire s i then [i.sAxisTdata] else [] := by
  rw [acceptedWord, intTvalidWire, Bool.and_comm]
  rfl

theorem intCompWire_eq :
    intCompWire cfgData s = decide (s.intCntrReg.toNat < cfgData.toNat) := rfl

/-- The output register is a place that is overwritten. -/
theorem intTvalidReg_step (hrun : i.aresetn = true) :
    (step cfgData s i).intTvalidReg =
      (keeps cfgData s i || (s.intTvalidReg && !i.mAxisTready)) := by
  rw [step, if_pos hrun, keeps]
  simp only [intTvalidNext]
  cases intTvalidWire s i && !intCompWire cfgData s <;>
    cases s.intTvalidReg <;> cases i.mAxisTready <;> rfl

/-- Without a kept word the register shows what it showed. -/
theorem shown_of_not_keeps (hrun : i.aresetn = true)
    (hnot : keeps cfgData s i = false) :
    (step cfgData s i).intTdataReg = s.intTdataReg ∧
      ((step cfgData s i).intTvalidReg = true → s.intTvalidReg = true) := by
  constructor
  · rw [keeps] at hnot
    rw [step, if_pos hrun]
    simp only [intTdataNext, hnot]
    rfl
  · rw [intTvalidReg_step hrun, hnot, Bool.false_or, Bool.and_eq_true]
    exact And.left

section Keeping

variable {words : List (BitVec axisTdataWidth)} {kept : ℕ}

/-- No word is accepted. -/
theorem Keeping.step_idle (hkeeping : Keeping cfgData.toNat words kept s)
    (hrun : i.aresetn = true) (hwire : intTvalidWire s i = false) :
    Keeping cfgData.toNat words kept (Decimator.step cfgData s i) := by
  have hnot : keeps cfgData s i = false := by
    rw [keeps, hwire, Bool.false_and]
  obtain ⟨hdata, hvalid⟩ := shown_of_not_keeps hrun hnot
  have hcntr : (Decimator.step cfgData s i).intCntrReg = s.intCntrReg := by
    rw [Decimator.step, if_pos hrun]
    simp [intCntrNext, hwire]
  refine ⟨?_, ?_, fun hlate => ?_⟩
  · rw [hcntr]
    exact hkeeping.length
  · rw [hcntr]
    exact hkeeping.bound
  · rw [hdata]
    exact hkeeping.shown (hvalid hlate)

/-- A word is accepted before the period is full: it is counted and dropped. -/
theorem Keeping.step_dropped (hkeeping : Keeping cfgData.toNat words kept s)
    (hrun : i.aresetn = true) (hwire : intTvalidWire s i = true)
    (hmore : s.intCntrReg.toNat < cfgData.toNat) :
    Keeping cfgData.toNat (words ++ [i.sAxisTdata]) kept
      (Decimator.step cfgData s i) := by
  have hcomp : intCompWire cfgData s = true := decide_eq_true hmore
  have hnot : keeps cfgData s i = false := by
    rw [keeps, hcomp, Bool.not_true, Bool.and_false]
  obtain ⟨hdata, hvalid⟩ := shown_of_not_keeps hrun hnot
  have hcntr : (Decimator.step cfgData s i).intCntrReg.toNat =
      s.intCntrReg.toNat + 1 := by
    rw [Decimator.step, if_pos hrun]
    change (intCntrNext cfgData s i).toNat = _
    rw [intCntrNext, hwire, hcomp]
    exact toNat_succ_of_lt rfl (lt_of_le_of_lt hmore cfgData.isLt)
  refine ⟨?_, ?_, fun hlate => ?_⟩
  · rw [hcntr, List.length_append, hkeeping.length]
    rfl
  · rw [hcntr]
    exact hmore
  · rw [hdata]
    exact getElem?_append_of_some (hkeeping.shown (hvalid hlate))

/-- The last word of the period is accepted and kept. -/
theorem Keeping.step_kept (hkeeping : Keeping cfgData.toNat words kept s)
    (hrun : i.aresetn = true) (hwire : intTvalidWire s i = true)
    (hlast : ¬ s.intCntrReg.toNat < cfgData.toNat) :
    Keeping cfgData.toNat (words ++ [i.sAxisTdata]) (kept + 1)
      (Decimator.step cfgData s i) := by
  obtain ⟨hlength, hbound, -⟩ := hkeeping
  have hcomp : intCompWire cfgData s = false := decide_eq_false hlast
  have hcntr : (Decimator.step cfgData s i).intCntrReg = 0 := by
    rw [Decimator.step, if_pos hrun]
    change intCntrNext cfgData s i = 0
    rw [intCntrNext, hwire, hcomp]
    rfl
  have hfull : (kept + 1) * (cfgData.toNat + 1) = words.length + 1 := by
    rw [Nat.succ_mul]
    omega
  refine ⟨?_, ?_, fun _ => ?_⟩
  · rw [hcntr, hfull, List.length_append]
    rfl
  · rw [hcntr]
    exact Nat.zero_le _
  · rw [hfull, Nat.add_sub_cancel, List.getElem?_concat_length,
      Decimator.step, if_pos hrun]
    simp only [intTdataNext, hwire, hcomp]
    rfl

theorem Keeping.step (hkeeping : Keeping cfgData.toNat words kept s)
    (hrun : i.aresetn = true) :
    Keeping cfgData.toNat (words ++ acceptedWord s i)
      (kept + (keeps cfgData s i).toNat) (step cfgData s i) := by
  rw [acceptedWord_eq, keeps, intCompWire_eq]
  cases hwire : intTvalidWire s i with
  | false =>
      rw [if_neg Bool.false_ne_true, List.append_nil]
      exact hkeeping.step_idle hrun hwire
  | true =>
      rw [if_pos rfl, Bool.true_and]
      by_cases hmore : s.intCntrReg.toNat < cfgData.toNat
      · rw [decide_eq_true hmore]
        exact hkeeping.step_dropped hrun hwire hmore
      · rw [decide_eq_false hmore]
        exact hkeeping.step_kept hrun hwire hmore

end Keeping

end Step

section Run

variable (cfgData : BitVec cntrWidth) {input : ℕ → Input axisTdataWidth}
  {horizon : ℕ} (hrun : ∀ cycle < horizon, (input cycle).aresetn = true)
include hrun

theorem keeping_stateAt : ∀ cycle ≤ horizon,
    Keeping cfgData.toNat (accepted cfgData input cycle)
      (highCycles (keepsAt cfgData input) cycle) (stateAt cfgData input cycle) := by
  apply upTo_induction
  · exact ⟨by simp [accepted, stateAt, core, resetState], Nat.zero_le _,
      fun hfull => absurd hfull Bool.false_ne_true⟩
  · intro cycle hcycle ih
    rw [highCycles_succ]
    exact ih.step (hrun cycle hcycle)

theorem place_stateAt :
    Place (keepsAt cfgData input) (fun cycle => (input cycle).mAxisTready)
      (fun cycle => mAxisTvalid (stateAt cfgData input cycle)) horizon where
  empty := rfl
  next := fun cycle hcycle => intTvalidReg_step (hrun cycle hcycle)

/-- Word `y_k` comes into the register in the cycle in which it is accepted. -/
theorem acceptedAt_iff_comes {k cycle : ℕ} (hcycle : cycle < horizon) :
    AcceptedAt cfgData input (k * (cfgData.toNat + 1)) cycle ↔
      Comes (keepsAt cfgData input) k cycle := by
  obtain ⟨hlength, hbound, -⟩ := keeping_stateAt cfgData hrun cycle hcycle.le
  rw [AcceptedAt, Comes, keepsAt, keeps, acceptedWord_eq, Bool.and_eq_true,
    Bool.not_eq_true', intCompWire_eq, decide_eq_false_iff_not, hlength]
  cases intTvalidWire (stateAt cfgData input cycle) (input cycle) with
  | false => simp
  | true =>
      rw [if_pos rfl]
      constructor
      · rintro ⟨-, hnumber⟩
        have hbelow : highCycles (keepsAt cfgData input) cycle < k := by
          by_contra hover
          have hle := Nat.mul_le_mul_right (cfgData.toNat + 1)
            (Nat.le_of_not_lt hover)
          omega
        have hle := Nat.mul_le_mul_right (cfgData.toNat + 1) hbelow
        have hsucc := Nat.succ_mul (highCycles (keepsAt cfgData input) cycle)
          (cfgData.toNat + 1)
        have hlast : (stateAt cfgData input cycle).intCntrReg.toNat =
            cfgData.toNat := by omega
        refine ⟨⟨rfl, by omega⟩, ?_⟩
        apply Nat.eq_of_mul_eq_mul_right (Nat.succ_pos cfgData.toNat)
        rw [hsucc, ← hnumber, hlast]
        rfl
      · rintro ⟨⟨-, hlast⟩, rfl⟩
        refine ⟨List.cons_ne_nil _ _, ?_⟩
        rw [Nat.succ_mul]
        omega

/-- What leaves the register is the word of its number. -/
theorem transferred_map_some : ∀ cycle ≤ horizon,
    (transferred cfgData input cycle).map some =
      (numbers cfgData input cycle).map (keptWord cfgData input horizon) := by
  apply upTo_induction
  · rfl
  · intro cycle hcycle ih
    rw [transferred, Machine.log_succ, ← transferred, List.map_append, ih,
      numbers, taken, ← numbers, List.map_append]
    congr 1
    change (transferredWord (stateAt cfgData input cycle) (input cycle)).map
      some = _
    rw [transferredWord]
    split
    case isFalse => rfl
    case isTrue htakes =>
      have hfull : (stateAt cfgData input cycle).intTvalidReg = true :=
        (Bool.and_eq_true_iff.mp htakes).1
      have hshown := (keeping_stateAt cfgData hrun cycle hcycle.le).shown hfull
      obtain ⟨rest, hrest⟩ :
          accepted cfgData input cycle <+: accepted cfgData input horizon :=
        Machine.log_isPrefix acceptedWord hcycle.le
      rw [List.map_singleton, List.map_singleton, keptWord, ← hrest,
        getElem?_append_of_some hshown]
      rfl

/-- The whole of a period lies before the horizon. -/
theorem exists_acceptedAt {k : ℕ} (hpos : 1 ≤ k)
    (hle : k * (cfgData.toNat + 1) ≤ (accepted cfgData input horizon).length) :
    ∃ cycle < horizon,
      AcceptedAt cfgData input (k * (cfgData.toNat + 1)) cycle := by
  obtain ⟨hlength, hbound, -⟩ := keeping_stateAt cfgData hrun horizon le_rfl
  have hkept : k ≤ highCycles (keepsAt cfgData input) horizon := by
    by_contra hover
    have hmul := Nat.mul_le_mul_right (cfgData.toNat + 1)
      (Nat.lt_of_not_le hover)
    rw [Nat.succ_mul] at hmul
    omega
  obtain ⟨cycle, hcycle, hcomes⟩ := exists_comes hpos hkept
  exact ⟨cycle, hcycle, (acceptedAt_iff_comes cfgData hrun hcycle).mpr hcomes⟩

theorem not_mem_numbers_iff {k first last : ℕ}
    (hfirst : AcceptedAt cfgData input (k * (cfgData.toNat + 1)) first)
    (hlast : AcceptedAt cfgData input ((k + 1) * (cfgData.toNat + 1)) last)
    (hhorizon : last < horizon) :
    k ∉ numbers cfgData input horizon ↔ Missed input first last := by
  have hbefore : first < horizon := by
    by_contra hafter
    have hprefix : accepted cfgData input last <+:
        accepted cfgData input first :=
      Machine.log_isPrefix acceptedWord (by omega)
    have hle := hprefix.length_le
    have hsucc : (k + 1) * (cfgData.toNat + 1) =
        k * (cfgData.toNat + 1) + (cfgData.toNat + 1) := Nat.succ_mul _ _
    obtain ⟨-, hfirstNumber⟩ := hfirst
    obtain ⟨-, hlastNumber⟩ := hlast
    omega
  rw [acceptedAt_iff_comes cfgData hrun hbefore] at hfirst
  rw [acceptedAt_iff_comes cfgData hrun hhorizon] at hlast
  exact not_mem_taken_iff (place_stateAt cfgData hrun) hfirst hlast hhorizon

end Run

/-- The decimator hands on every `cfg_data + 1`st word unless its consumer
misses the whole period, for every pattern of offers and stalls. -/
theorem decimator_decimates (cfgData : BitVec cntrWidth)
    (input : ℕ → Input axisTdataWidth) (horizon : ℕ)
    (hrun : ∀ cycle < horizon, (input cycle).aresetn = true) :
    Decimates cfgData input horizon where
  words := transferred_map_some cfgData hrun horizon le_rfl
  order := pairwise_taken (place_stateAt cfgData hrun) horizon le_rfl
  positive := by
    intro k hk
    exact ((mem_taken_iff (place_stateAt cfgData hrun) k horizon le_rfl).mp
      hk).1
  missing := by
    intro k first last hfirst hlast hhorizon
    exact not_mem_numbers_iff cfgData hrun hfirst hlast hhorizon
  complete := by
    intro hready k hpos hle
    have hsucc : (k + 1) * (cfgData.toNat + 1) =
        k * (cfgData.toNat + 1) + (cfgData.toNat + 1) := Nat.succ_mul _ _
    obtain ⟨first, -, hfirst⟩ := exists_acceptedAt cfgData hrun hpos
      (by omega)
    obtain ⟨last, hlast, hnext⟩ := exists_acceptedAt cfgData hrun
      (Nat.succ_pos k) hle
    by_contra hmissing
    exact hready k first last hfirst hnext hlast
      ((not_mem_numbers_iff cfgData hrun hfirst hnext hlast).mp hmissing)

/-- Every second word is kept, and the consumer is away from cycle 5 to 8. -/
def awayRun (cycle : ℕ) : Input 16 where
  aresetn := true
  sAxisTdata := BitVec.ofNat 16 cycle
  sAxisTvalid := true
  mAxisTready := decide (cycle < 5 ∨ 8 < cycle)

theorem decimator_decimates_awayRun : Decimates 1#8 awayRun 20 :=
  decimator_decimates 1#8 awayRun 20 fun _ _ => rfl

example : transferred 1#8 awayRun 12 = [2#16, 8#16, 10#16] ∧
    numbers 1#8 awayRun 12 = [1, 4, 5] := by
  decide +kernel

end Rfsoc.Decimator
