import Rfsoc.Lago.Position

/-!
# The bounds of the record arrays

The next-state process indexes two arrays with `wr_count_reg`, which serves
three record lengths and is tested for equality only.  The counter is back at 0
wherever no record counts, so every read is within its array, and a record's
last test meets the counter before it could pass.
-/

namespace Rfsoc.LagoTrigger

open Rfsoc.Clocked

/-- The index at which `array_pps_reg` is read in a cycle. -/
def ppsRead (s : State) (i : Input) : Option ℕ :=
  match s.stateReg with
  | .stIdle => if i.ppsI then some s.wrCountReg.toNat else none
  | .stAttPps =>
      if s.wrCountReg.toNat = metadataArrayLength then none
      else if i.mAxisTready then some s.wrCountReg.toNat
      else none
  | _ => none

/-- The index at which `array_scalers_reg` is read in a cycle. -/
def scalersRead (s : State) (i : Input) : Option ℕ :=
  match s.stateReg with
  | .stIdle =>
      if !i.ppsI && !trS s i && subtrS s i then some s.wrCountReg.toNat else none
  | .stAttSubtr =>
      if s.wrCountReg.toNat = subtrigArrayLength then none
      else if i.mAxisTready then some s.wrCountReg.toNat
      else none
  | _ => none

/-- The words that an `ST_ATT` state counts. -/
def recordLength : Fsm → Option ℕ
  | .stAttTr => some dataArrayLength
  | .stAttSubtr => some subtrigArrayLength
  | .stAttPps => some metadataArrayLength
  | _ => none

/-- What the counter does in one cycle of a record: at the record's length it
goes back to 0 and the state is left, before that it stays or counts by one. -/
structure Counts (length : ℕ) (before after : State) : Prop where
  last : before.wrCountReg.toNat = length →
    after.stateReg ≠ before.stateReg ∧ after.wrCountReg = 0
  within : before.wrCountReg.toNat ≠ length →
    after.stateReg = before.stateReg ∧
      (after.wrCountReg = before.wrCountReg ∨
        after.wrCountReg.toNat = before.wrCountReg.toNat + 1)

section Run

variable (input : ℕ → Input)

/-- No index is out of range, and no test is passed by. -/
structure InBounds : Prop where
  outside : ∀ cycle, recordLength (core.stateAt input cycle).stateReg = none →
    (core.stateAt input cycle).wrCountReg = 0
  within : ∀ cycle length,
    recordLength (core.stateAt input cycle).stateReg = some length →
    (core.stateAt input cycle).wrCountReg.toNat ≤ length
  pps : ∀ cycle index,
    ppsRead (core.stateAt input cycle) (input cycle) = some index →
    index < metadataArrayLength
  scalers : ∀ cycle index,
    scalersRead (core.stateAt input cycle) (input cycle) = some index →
    index < subtrigArrayLength
  tested : ∀ cycle length, (input cycle).aresetn = true →
    recordLength (core.stateAt input cycle).stateReg = some length →
    Counts length (core.stateAt input cycle) (core.stateAt input (cycle + 1))

end Run

section Reads

variable {s : State} {i : Input}

/-- The core with other contents of the two arrays. -/
def withArrays (s : State) (pps : Fin metadataArrayLength → Word)
    (scalers : Fin subtrigArrayLength → Word) : State :=
  { s with
    arrayPpsReg := pps
    arrayScalersReg := scalers }

/-- The next state reads the two arrays at these indices only: other entries may
change. -/
theorem fsmNext_withArrays {pps : Fin metadataArrayLength → Word}
    {scalers : Fin subtrigArrayLength → Word}
    (hpps : ∀ index ∈ ppsRead s i,
      arrayPpsAt (withArrays s pps scalers) index = arrayPpsAt s index)
    (hscalers : ∀ index ∈ scalersRead s i,
      arrayScalersAt (withArrays s pps scalers) index =
        arrayScalersAt s index) :
    fsmNext (withArrays s pps scalers) i = fsmNext s i := by
  have hstates : (withArrays s pps scalers).stateReg = s.stateReg := rfl
  have hcounts : (withArrays s pps scalers).wrCountReg = s.wrCountReg := rfl
  have htrigger : trS (withArrays s pps scalers) i = trS s i := rfl
  have hsubtrigger : subtrS (withArrays s pps scalers) i = subtrS s i := rfl
  rw [fsmNext, fsmNext, hstates, hcounts, htrigger, hsubtrigger]
  cases hstate : s.stateReg with
  | stIdle =>
      rw [ppsRead, hstate] at hpps
      rw [scalersRead, hstate] at hscalers
      cases hppsI : i.ppsI with
      | true =>
          rw [hpps _ (by simp [hppsI])]
          rfl
      | false =>
          cases htrS : trS s i with
          | true => rfl
          | false =>
              cases hsubS : subtrS s i with
              | true =>
                  rw [hscalers _ (by simp [hppsI, htrS, hsubS])]
                  rfl
              | false => rfl
  | stAttTr | stSendTrStatus | stSendCntStatus => rfl
  | stAttSubtr =>
      rw [scalersRead, hstate] at hscalers
      dsimp only
      split_ifs with hlast hready
      · rfl
      · rw [hscalers _ (by simp [hlast, hready])]
      · rfl
  | stAttPps =>
      rw [ppsRead, hstate] at hpps
      dsimp only
      split_ifs with hlast hready
      · rfl
      · rw [hpps _ (by simp [hlast, hready])]
      · rfl

theorem CountInv.wrCount_eq_zero (hcount : CountInv s)
    (houtside : recordLength s.stateReg = none) : s.wrCountReg = 0 := by
  apply BitVec.eq_of_toNat_eq
  rw [CountInv] at hcount
  cases hstate : s.stateReg with
  | stIdle | stSendTrStatus | stSendCntStatus =>
      rw [hstate] at hcount
      exact Nat.le_zero.mp hcount
  | stAttTr | stAttSubtr | stAttPps => simp [hstate, recordLength] at houtside

theorem countBound_of_recordLength {state : Fsm} {length : ℕ}
    (hlength : recordLength state = some length) : countBound state = length := by
  cases state <;> simp_all [recordLength, countBound]

theorem CountInv.le_length (hcount : CountInv s) {length : ℕ}
    (hlength : recordLength s.stateReg = some length) :
    s.wrCountReg.toNat ≤ length := by
  rw [← countBound_of_recordLength hlength]
  exact hcount

end Reads

section Bounds

variable {s : State} {i : Input} {index length : ℕ}

/-- The cycles in which an array of a record's length may be read: no record
counts, or this one does and its last test has not been met. -/
theorem CountInv.wrCount_lt (hcount : CountInv s) (hpos : 0 < length)
    (hopen : recordLength s.stateReg = none ∨
      recordLength s.stateReg = some length ∧ s.wrCountReg.toNat ≠ length) :
    s.wrCountReg.toNat < length := by
  cases hopen with
  | inl houtside =>
      rw [hcount.wrCount_eq_zero houtside]
      exact hpos
  | inr hcounts =>
      obtain ⟨hlength, hmore⟩ := hcounts
      exact Nat.lt_of_le_of_ne (hcount.le_length hlength) hmore

theorem CountInv.ppsRead_lt (hcount : CountInv s)
    (hread : ppsRead s i = some index) : index < metadataArrayLength := by
  rw [ppsRead] at hread
  cases hstate : s.stateReg with
  | stIdle =>
      rw [hstate] at hread
      dsimp only at hread
      split_ifs at hread
      obtain rfl := Option.some.inj hread
      exact hcount.wrCount_lt (by decide) (Or.inl (by rw [hstate]; rfl))
  | stAttPps =>
      rw [hstate] at hread
      dsimp only at hread
      split_ifs at hread with hlast hready
      obtain rfl := Option.some.inj hread
      exact hcount.wrCount_lt (by decide) (Or.inr ⟨by rw [hstate]; rfl, hlast⟩)
  | stAttTr | stSendTrStatus | stSendCntStatus | stAttSubtr =>
      simp [hstate] at hread

theorem CountInv.scalersRead_lt (hcount : CountInv s)
    (hread : scalersRead s i = some index) : index < subtrigArrayLength := by
  rw [scalersRead] at hread
  cases hstate : s.stateReg with
  | stIdle =>
      rw [hstate] at hread
      dsimp only at hread
      split_ifs at hread
      obtain rfl := Option.some.inj hread
      exact hcount.wrCount_lt (by decide) (Or.inl (by rw [hstate]; rfl))
  | stAttSubtr =>
      rw [hstate] at hread
      dsimp only at hread
      split_ifs at hread with hlast hready
      obtain rfl := Option.some.inj hread
      exact hcount.wrCount_lt (by decide) (Or.inr ⟨by rw [hstate]; rfl, hlast⟩)
  | stAttTr | stSendTrStatus | stSendCntStatus | stAttPps =>
      simp [hstate] at hread

/-- The three states that count do so in one way. -/
theorem fsmNext_counting (hlength : recordLength s.stateReg = some length) :
    (s.wrCountReg.toNat = length →
      (fsmNext s i).stateReg ≠ s.stateReg ∧ (fsmNext s i).wrCountReg = 0) ∧
    (s.wrCountReg.toNat ≠ length →
      (fsmNext s i).stateReg = s.stateReg ∧
        (fsmNext s i).wrCountReg =
          if i.mAxisTready then s.wrCountReg + 1#8 else s.wrCountReg) := by
  cases hstate : s.stateReg with
  | stIdle | stSendTrStatus | stSendCntStatus =>
      simp [hstate, recordLength] at hlength
  | stAttTr | stAttSubtr | stAttPps =>
      rw [hstate] at hlength
      obtain rfl := Option.some.inj hlength
      rw [fsmNext, hstate]
      constructor
      · intro hlast
        rw [if_pos hlast]
        exact ⟨by simp, rfl⟩
      · intro hwithin
        rw [if_neg hwithin]
        cases i.mAxisTready with
        | true => exact ⟨rfl, rfl⟩
        | false => exact ⟨hstate, rfl⟩

/-- A record's state counts up to its length and is left there. -/
theorem counts_step (hcount : CountInv s)
    (hrun : i.aresetn = true)
    (hlength : recordLength s.stateReg = some length) :
    Counts length s (step s i) := by
  have hregs : (step s i).toFsmRegs = fsmNext s i := by rw [step, if_pos hrun]
  obtain ⟨hlast, hwithin⟩ := fsmNext_counting (i := i) hlength
  rw [← hregs] at hlast hwithin
  refine ⟨hlast, fun hmore => ?_⟩
  obtain ⟨hstate, hnext⟩ := hwithin hmore
  refine ⟨hstate, ?_⟩
  cases hready : i.mAxisTready with
  | false =>
      left
      rw [hnext, hready]
      rfl
  | true =>
      right
      rw [hnext, hready, if_pos rfl]
      have hbyte : length < 256 := by
        rw [← countBound_of_recordLength hlength]
        cases s.stateReg <;> decide
      exact toNat_wrCount_add_one (hcount.le_length hlength) hmore hbyte

end Bounds

/-- Under every stream and every stall pattern the record arrays are read within
their bounds, and the tests that end a record are met. -/
theorem lagoTrigger_inBounds (input : ℕ → Input) : InBounds input where
  outside := fun cycle => (countInv_stateAt input cycle).wrCount_eq_zero
  within := fun cycle _ => (countInv_stateAt input cycle).le_length
  pps := fun cycle _ => (countInv_stateAt input cycle).ppsRead_lt
  scalers := fun cycle _ => (countInv_stateAt input cycle).scalersRead_lt
  tested := fun cycle _ => counts_step (countInv_stateAt input cycle)

end Rfsoc.LagoTrigger
