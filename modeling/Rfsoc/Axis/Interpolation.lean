import Rfsoc.Axis.Interpolator
import Rfsoc.Core.Bits
import Rfsoc.Core.Clocked

/-!
# The copies of the interpolator

The words that leave the interpolator, together with the copies that the word
inside has still to make, are at all times the accepted words, each
`cfg_data + 1` times.
-/

namespace Rfsoc.Interpolator

open Rfsoc.Bits
open Rfsoc.Clocked

variable {axisTdataWidth cntrWidth : ℕ}

/-- The core with a constant `cfg_data`, from reset. -/
def core (cfgData : BitVec cntrWidth) :
    Machine (State axisTdataWidth cntrWidth) (Input axisTdataWidth) :=
  ⟨resetState, step cfgData⟩

def acceptedWord (s : State axisTdataWidth cntrWidth)
    (i : Input axisTdataWidth) : List (BitVec axisTdataWidth) :=
  if i.sAxisTvalid && sAxisTready s then [i.sAxisTdata] else []

def transferredWord (s : State axisTdataWidth cntrWidth)
    (i : Input axisTdataWidth) : List (BitVec axisTdataWidth) :=
  if mAxisTvalid s && i.mAxisTready then [mAxisTdata s] else []

/-- Every word `factor + 1` times in a row. -/
def repeated {Word : Type*} (factor : ℕ) (words : List Word) : List Word :=
  words.flatMap (List.replicate (factor + 1))

theorem repeated_append {Word : Type*} (factor : ℕ) (early late : List Word) :
    repeated factor (early ++ late) =
      repeated factor early ++ repeated factor late :=
  List.flatMap_append

theorem repeated_singleton {Word : Type*} (factor : ℕ) (word : Word) :
    repeated factor [word] = List.replicate (factor + 1) word :=
  List.flatMap_singleton _ _

theorem length_repeated {Word : Type*} (factor : ℕ) (words : List Word) :
    (repeated factor words).length = words.length * (factor + 1) := by
  induction words with
  | nil => exact (Nat.zero_mul _).symm
  | cons word words ih =>
      rw [← List.singleton_append, repeated_append, List.length_append, ih,
        repeated_singleton, List.length_replicate, List.length_append,
        List.length_singleton, Nat.add_mul, Nat.one_mul]

/-- The copies that the word inside has still to make. -/
def remaining (factor : ℕ) (s : State axisTdataWidth cntrWidth) :
    List (BitVec axisTdataWidth) :=
  if s.intTvalidReg then
    List.replicate (factor + 1 - s.intCntrReg.toNat) s.intTdataReg
  else []

/-- The counter counts the copies made of the word inside. -/
structure Counts (factor : ℕ) (s : State axisTdataWidth cntrWidth) : Prop where
  bound : s.intCntrReg.toNat ≤ factor
  idle : s.intTvalidReg = false → s.intCntrReg.toNat = 0

section Step

variable {cfgData : BitVec cntrWidth} {s : State axisTdataWidth cntrWidth}
  {i : Input axisTdataWidth}

theorem moreCopies_eq :
    moreCopies cfgData s = decide (s.intCntrReg.toNat < cfgData.toNat) := rfl

/-- A copy that is taken while more are due. -/
theorem toNat_intCntrReg_succ (hmore : s.intCntrReg.toNat < cfgData.toNat) :
    (s.intCntrReg + 1).toNat = s.intCntrReg.toNat + 1 :=
  toNat_succ_of_lt rfl (lt_of_le_of_lt hmore cfgData.isLt)

theorem counts_step (hrun : i.aresetn = true)
    (hcounts : Counts cfgData.toNat s) :
    Counts cfgData.toNat (step cfgData s i) := by
  have hbound := hcounts.bound
  cases hvalid : s.intTvalidReg with
  | false =>
      rw [step_empty hrun hvalid]
      exact ⟨hbound, fun _ => hcounts.idle hvalid⟩
  | true =>
      rw [step_full hrun hvalid, moreCopies_eq]
      cases hready : i.mAxisTready with
      | false => exact ⟨hbound, fun hidle => absurd hidle Bool.noConfusion⟩
      | true =>
          by_cases hmore : s.intCntrReg.toNat < cfgData.toNat
          · simp only [hmore, decide_true, if_true, Bool.not_true,
              Bool.false_or]
            refine ⟨?_, fun hidle => absurd hidle Bool.noConfusion⟩
            change (s.intCntrReg + 1).toNat ≤ cfgData.toNat
            rw [toNat_intCntrReg_succ hmore]
            exact hmore
          · rw [decide_eq_false hmore]
            exact ⟨Nat.zero_le _, fun _ => BitVec.toNat_zero⟩

/-- What goes in comes out `cfg_data + 1` times. -/
theorem transferredWord_remaining (hrun : i.aresetn = true)
    (hcounts : Counts cfgData.toNat s) :
    transferredWord s i ++ remaining cfgData.toNat (step cfgData s i) =
      remaining cfgData.toNat s ++
        repeated cfgData.toNat (acceptedWord s i) := by
  cases hvalid : s.intTvalidReg with
  | false =>
      have hzero := hcounts.idle hvalid
      rw [step_empty hrun hvalid, transferredWord, mAxisTvalid, acceptedWord,
        sAxisTready, remaining, remaining, hvalid]
      cases hoffer : i.sAxisTvalid with
      | false => rfl
      | true =>
          simp only [hzero, if_true, Nat.sub_zero, Bool.not_false,
            Bool.and_true, repeated_singleton]
          rfl
  | true =>
      rw [step_full hrun hvalid, transferredWord, mAxisTvalid, mAxisTdata,
        acceptedWord, sAxisTready, remaining, remaining, hvalid, moreCopies_eq,
        Bool.not_true, Bool.and_false, if_neg Bool.false_ne_true]
      cases hready : i.mAxisTready with
      | false => exact (List.append_nil _).symm
      | true =>
          have hbound := hcounts.bound
          by_cases hmore : s.intCntrReg.toNat < cfgData.toNat
          · have hleft : cfgData.toNat + 1 - s.intCntrReg.toNat =
                cfgData.toNat + 1 - (s.intCntrReg.toNat + 1) + 1 := by omega
            rw [hleft, List.replicate_succ]
            simp only [hmore, decide_true, if_true, Bool.and_self, Bool.or_true,
              toNat_intCntrReg_succ hmore]
            exact (List.append_nil _).symm
          · have hlast : cfgData.toNat + 1 - s.intCntrReg.toNat = 1 := by omega
            rw [hlast]
            simp [hmore, repeated]

/-- A refused copy stays as it is. -/
theorem step_refused (hrun : i.aresetn = true) (hvalid : s.intTvalidReg = true)
    (hrefused : i.mAxisTready = false) :
    (step cfgData s i).intTvalidReg = true ∧
      (step cfgData s i).intTdataReg = s.intTdataReg := by
  rw [step_full hrun hvalid, hrefused]
  exact ⟨rfl, rfl⟩

end Step

section Run

variable (cfgData : BitVec cntrWidth) (input : ℕ → Input axisTdataWidth)

def stateAt (cycle : ℕ) : State axisTdataWidth cntrWidth :=
  (core cfgData).stateAt input cycle

/-- The words accepted on the slave side before a cycle. -/
def accepted : ℕ → List (BitVec axisTdataWidth) :=
  (core cfgData).log input acceptedWord

/-- The words transferred on the master side before a cycle. -/
def transferred : ℕ → List (BitVec axisTdataWidth) :=
  (core cfgData).log input transferredWord

/-- The core repeats the accepted words up to a horizon. -/
structure Repeats (horizon : ℕ) : Prop where
  /-- The words transferred are the accepted ones, each `cfg_data + 1` times. -/
  copies : ∀ cycle ≤ horizon,
    transferred cfgData input cycle <+:
      repeated cfgData.toNat (accepted cfgData input cycle)
  /-- Only the last accepted word may have fewer copies so far. -/
  lastOnly : ∀ cycle ≤ horizon,
    ((accepted cfgData input cycle).length - 1) * (cfgData.toNat + 1) ≤
      (transferred cfgData input cycle).length
  /-- A word is accepted only when all copies of those before it are made. -/
  noOverlap : ∀ cycle < horizon,
    acceptedWord (stateAt cfgData input cycle) (input cycle) ≠ [] →
      transferred cfgData input cycle =
        repeated cfgData.toNat (accepted cfgData input cycle)
  held : OfferHeld (fun cycle => mAxisTvalid (stateAt cfgData input cycle))
    (fun cycle => (input cycle).mAxisTready)
    (fun cycle => mAxisTdata (stateAt cfgData input cycle)) horizon

variable {input} {horizon : ℕ}
  (hrun : ∀ cycle < horizon, (input cycle).aresetn = true)
include hrun

theorem counts_stateAt : ∀ cycle ≤ horizon,
    Counts cfgData.toNat (stateAt cfgData input cycle) := by
  apply upTo_induction
  · exact ⟨Nat.zero_le _, fun _ => rfl⟩
  · intro cycle hcycle ih
    exact counts_step (hrun cycle hcycle) ih

/-- The accepted words repeated are those transferred and those remaining. -/
theorem transferred_append : ∀ cycle ≤ horizon,
    transferred cfgData input cycle ++
        remaining cfgData.toNat (stateAt cfgData input cycle) =
      repeated cfgData.toNat (accepted cfgData input cycle) := by
  apply upTo_induction
  · rfl
  · intro cycle hcycle ih
    have hcounts := counts_stateAt cfgData hrun cycle hcycle.le
    have hledger := transferredWord_remaining (hrun cycle hcycle) hcounts
    rw [transferred, Machine.log_succ, ← transferred, accepted,
      Machine.log_succ, ← accepted, repeated_append, ← ih, List.append_assoc,
      List.append_assoc]
    exact congrArg (transferred cfgData input cycle ++ ·) hledger

end Run

/-- The interpolator repeats every accepted word exactly `cfg_data + 1` times,
for every pattern of offers and stalls. -/
theorem interpolator_repeats (cfgData : BitVec cntrWidth)
    (input : ℕ → Input axisTdataWidth) (horizon : ℕ)
    (hrun : ∀ cycle < horizon, (input cycle).aresetn = true) :
    Repeats cfgData input horizon where
  copies := by
    intro cycle hcycle
    rw [← transferred_append cfgData hrun cycle hcycle]
    exact List.prefix_append _ _
  lastOnly := by
    intro cycle hcycle
    have hlength := congrArg List.length
      (transferred_append cfgData hrun cycle hcycle)
    have hremaining : (remaining cfgData.toNat
        (stateAt cfgData input cycle)).length ≤ cfgData.toNat + 1 := by
      rw [remaining]
      split
      · rw [List.length_replicate]
        exact Nat.sub_le _ _
      · exact Nat.zero_le _
    rw [List.length_append, length_repeated] at hlength
    rw [Nat.sub_mul, Nat.one_mul]
    omega
  noOverlap := by
    intro cycle hcycle haccepts
    have hledger := transferred_append cfgData hrun cycle hcycle.le
    have hempty : (stateAt cfgData input cycle).intTvalidReg = false := by
      by_contra hfull
      rw [Bool.not_eq_false] at hfull
      exact haccepts (by simp [acceptedWord, sAxisTready, hfull])
    rwa [remaining, hempty, if_neg Bool.false_ne_true, List.append_nil]
      at hledger
  held := by
    intro cycle hcycle hvalid hrefused
    exact step_refused (hrun cycle hcycle) hvalid hrefused

/-- A word is on offer in every cycle, and every third copy is refused once. -/
def stallingRun (cycle : ℕ) : Input 16 where
  aresetn := true
  sAxisTdata := BitVec.ofNat 16 cycle
  sAxisTvalid := true
  mAxisTready := decide (cycle % 4 ≠ 2)

theorem interpolator_repeats_stallingRun : Repeats 2#8 stallingRun 30 :=
  interpolator_repeats 2#8 stallingRun 30 fun _ _ => rfl

example : transferred 2#8 stallingRun 12 =
    [0#16, 0#16, 0#16, 5#16, 5#16, 5#16, 10#16] := by
  decide +kernel

end Rfsoc.Interpolator
