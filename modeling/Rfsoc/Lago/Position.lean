import Rfsoc.Lago.Records

/-!
# What one clock edge does to a record

The six states and the shared word counter together say one thing: which record
is being sent and how many of its words have been loaded into the output
register.  This file proves it once, as one lemma for each thing an edge can
do: open a record, load a word, close a record, wait, or move on without
looking at `m_axis_tready`.
-/

namespace Rfsoc.LagoTrigger

/-- The record being sent and how many of its words have been loaded. -/
def position (s : State) : Option (Kind × ℕ) :=
  match s.stateReg with
  | .stIdle => none
  | .stAttTr => some (.pulse, s.wrCountReg.toNat)
  | .stSendTrStatus => some (.pulse, dataArrayLength + 1)
  | .stSendCntStatus => some (.pulse, dataArrayLength + 2)
  | .stAttSubtr => some (.subTrigger, s.wrCountReg.toNat)
  | .stAttPps => some (.pps, s.wrCountReg.toNat)

/-- The record that the edge opens, read off the state it moves to. -/
def opens (s : State) (i : Input) : Option Kind :=
  if s.stateReg = .stIdle then
    match (fsmNext s i).stateReg with
    | .stAttTr => some .pulse
    | .stAttSubtr => some .subTrigger
    | .stAttPps => some .pps
    | _ => none
  else none

/-- Word `n` of a record, as the registers hold it now. -/
def recordWord (kind : Kind) (s : State) (n : ℕ) : Word :=
  match kind with
  | .pps => arrayPpsAt s n
  | .subTrigger => arrayScalersAt s n
  | .pulse =>
      if n < dataArrayLength then sampleWord s
      else if n = dataArrayLength then s.trStatusReg
      else s.cntStatusReg

/-- The cycles whose transition does not look at `m_axis_tready`: the first
cycle of each `ST_ATT` state and the one that leaves it. -/
def ignoresTready (s : State) : Bool :=
  match s.stateReg with
  | .stAttTr =>
      s.wrCountReg.toNat == 0 || s.wrCountReg.toNat == dataArrayLength
  | .stAttSubtr =>
      s.wrCountReg.toNat == 0 || s.wrCountReg.toNat == subtrigArrayLength
  | .stAttPps =>
      s.wrCountReg.toNat == 0 || s.wrCountReg.toNat == metadataArrayLength
  | _ => false

theorem position_eq_none_iff (s : State) :
    position s = none ↔ s.stateReg = .stIdle := by
  cases hstate : s.stateReg <;> simp [position, hstate]

/-- PPS before pulse before sub-trigger. -/
theorem opens_eq (s : State) (i : Input) (hidle : s.stateReg = .stIdle) :
    opens s i =
      if i.ppsI then some .pps
      else if trS s i then some .pulse
      else if subtrS s i then some .subTrigger
      else none := by
  cases hpps : i.ppsI <;> cases htr : trS s i <;> cases hsub : subtrS s i <;>
    simp [opens, hidle, fsmNext, hpps, htr, hsub]

/-- The largest word counter of each state. -/
def countBound : Fsm → ℕ
  | .stAttTr => dataArrayLength
  | .stAttSubtr => subtrigArrayLength
  | .stAttPps => metadataArrayLength
  | _ => 0

/-- The word counter never passes the end of the record, and is back at zero
outside the `ST_ATT` states. -/
def CountInv (s : State) : Prop := s.wrCountReg.toNat ≤ countBound s.stateReg

theorem countInv_resetState : CountInv resetState := Nat.zero_le _

theorem toNat_wrCount_add_one {count : BitVec 8} {bound : ℕ}
    (hbound : count.toNat ≤ bound) (hne : count.toNat ≠ bound)
    (hsmall : bound < 256) :
    (count + 1#8).toNat = count.toNat + 1 := by
  rw [BitVec.toNat_add]
  exact Nat.mod_eq_of_lt (by simp; omega)

theorem CountInv.fsmNext {s : State} {i : Input} (hcount : CountInv s) :
    (fsmNext s i).wrCountReg.toNat ≤ countBound (fsmNext s i).stateReg := by
  rw [CountInv] at hcount
  cases hstate : s.stateReg with
  | stIdle =>
      have hzero : s.wrCountReg.toNat = 0 := by
        simpa [hstate, countBound] using hcount
      simp only [LagoTrigger.fsmNext, hstate]
      split <;> simp [hzero]
  | stAttTr | stAttSubtr | stAttPps =>
      rw [hstate] at hcount
      simp only [LagoTrigger.fsmNext, hstate]
      split_ifs with hlast hready
      · simp
      · rw [toNat_wrCount_add_one hcount hlast (by decide)]
        exact Nat.lt_of_le_of_ne hcount hlast
      · simpa [hstate] using hcount
  | stSendTrStatus | stSendCntStatus =>
      have hzero : s.wrCountReg.toNat = 0 := by
        simpa [hstate, countBound] using hcount
      simp only [LagoTrigger.fsmNext, hstate]
      split <;> simp [hzero]

theorem CountInv.step {s : State} {i : Input} (hcount : CountInv s) :
    CountInv (step s i) := by
  rw [LagoTrigger.step]
  split
  · exact hcount.fsmNext
  · exact countInv_resetState

theorem countInv_stateAt (input : ℕ → Input) (cycle : ℕ) :
    CountInv (core.stateAt input cycle) := by
  induction cycle with
  | zero => exact countInv_resetState
  | succ cycle ih => exact ih.step

theorem CountInv.position_le {s : State} {kind : Kind} {n : ℕ}
    (hcount : CountInv s) (hpos : position s = some (kind, n)) :
    n ≤ kind.length := by
  rw [CountInv] at hcount
  cases hstate : s.stateReg <;> simp [position, hstate] at hpos <;>
    obtain ⟨rfl, rfl⟩ := hpos <;> rw [hstate] at hcount <;>
    simp [countBound, dataArrayLength] at hcount ⊢
  all_goals omega

/-- The first cycle of a record does not look at `m_axis_tready`. -/
theorem ignoresTready_of_start {s : State} {kind : Kind}
    (hpos : position s = some (kind, 0)) : ignoresTready s = true := by
  cases hstate : s.stateReg <;> simp [position, hstate] at hpos <;>
    simp [ignoresTready, hstate, hpos]

section Edges

variable {s : State} {i : Input} {kind : Kind} {n : ℕ}

/-- From idle the edge opens a record or stays idle, and offers nothing new. -/
theorem step_open (hrun : i.aresetn = true) (hcount : CountInv s)
    (hpos : position s = none) :
    position (step s i) = (opens s i).map (·, 0) ∧
      (step s i).axisTvalidReg = s.axisTvalidReg := by
  have hidle := (position_eq_none_iff s).mp hpos
  have hzero : s.wrCountReg.toNat = 0 := by
    simpa [CountInv, hidle, countBound] using hcount
  rw [opens_eq s i hidle, step, if_pos hrun]
  cases hpps : i.ppsI <;> cases htr : trS s i <;> cases hsub : subtrS s i <;>
    simp [fsmNext, hidle, hpps, htr, hsub, position, hzero]

/-- With `m_axis_tready` the edge loads the next word of the record. -/
theorem step_load (hrun : i.aresetn = true) (hcount : CountInv s)
    (hpos : position s = some (kind, n)) (hn : n < kind.length)
    (hready : i.mAxisTready = true) :
    position (step s i) = some (kind, n + 1) ∧
      (step s i).axisTvalidReg = true ∧
      (step s i).dataToFifoReg = recordWord kind s n := by
  rw [CountInv] at hcount
  rw [step, if_pos hrun]
  cases hstate : s.stateReg with
  | stIdle => simp [position, hstate] at hpos
  | stAttTr =>
      simp only [position, hstate, Option.some.injEq, Prod.mk.injEq] at hpos
      obtain ⟨rfl, rfl⟩ := hpos
      rw [hstate] at hcount
      by_cases hlast : s.wrCountReg.toNat = dataArrayLength
      · simp [fsmNext, hstate, hlast, position, recordWord]
      · have hlt : s.wrCountReg.toNat < dataArrayLength :=
          Nat.lt_of_le_of_ne hcount hlast
        have hnext := toNat_wrCount_add_one hcount hlast (by decide)
        simp [fsmNext, hstate, hlast, hready, position, recordWord, hlt, hnext,
          -BitVec.toNat_add]
  | stAttSubtr | stAttPps =>
      simp only [position, hstate, Option.some.injEq, Prod.mk.injEq] at hpos
      obtain ⟨rfl, rfl⟩ := hpos
      rw [hstate] at hcount
      have hlast := Nat.ne_of_lt hn
      simp only [Kind.length_subTrigger, Kind.length_pps] at hlast
      have hnext := toNat_wrCount_add_one hcount hlast (by decide)
      simp [fsmNext, hstate, hlast, hready, position, recordWord, hnext,
        -BitVec.toNat_add]
  | stSendTrStatus =>
      simp only [position, hstate, Option.some.injEq, Prod.mk.injEq] at hpos
      obtain ⟨rfl, rfl⟩ := hpos
      simp [fsmNext, hstate, hready, position, recordWord]
  | stSendCntStatus =>
      simp only [position, hstate, Option.some.injEq, Prod.mk.injEq] at hpos
      obtain ⟨rfl, rfl⟩ := hpos
      simp at hn

/-- With `m_axis_tready` the edge after the last word closes the record. -/
theorem step_close (hrun : i.aresetn = true) (hcount : CountInv s)
    (hpos : position s = some (kind, kind.length))
    (hready : i.mAxisTready = true) :
    position (step s i) = none ∧ (step s i).axisTvalidReg = false := by
  rw [CountInv] at hcount
  rw [step, if_pos hrun]
  cases hstate : s.stateReg with
  | stIdle => simp [position, hstate] at hpos
  | stAttTr =>
      simp only [position, hstate, Option.some.injEq, Prod.mk.injEq] at hpos
      obtain ⟨rfl, hlength⟩ := hpos
      rw [hstate, hlength] at hcount
      exact absurd hcount (by decide)
  | stAttSubtr | stAttPps =>
      simp only [position, hstate, Option.some.injEq, Prod.mk.injEq] at hpos
      obtain ⟨rfl, hlength⟩ := hpos
      simp at hlength
      simp [fsmNext, hstate, hlength, position]
  | stSendTrStatus =>
      simp only [position, hstate, Option.some.injEq, Prod.mk.injEq] at hpos
      obtain ⟨rfl, hlength⟩ := hpos
      simp at hlength
  | stSendCntStatus =>
      simp [fsmNext, hstate, hready, position]

/-- Without `m_axis_tready`, a cycle that looks at it changes nothing. -/
theorem step_wait (hrun : i.aresetn = true)
    (hpos : position s = some (kind, n)) (hguard : ignoresTready s = false)
    (hready : i.mAxisTready = false) :
    position (step s i) = some (kind, n) ∧
      (step s i).axisTvalidReg = true ∧
      (step s i).dataToFifoReg = s.dataToFifoReg := by
  rw [← hpos, step, if_pos hrun]
  cases hstate : s.stateReg with
  | stIdle => simp [position, hstate] at hpos
  | stAttTr | stAttSubtr | stAttPps =>
      simp [ignoresTready, hstate] at hguard
      simp [fsmNext, hstate, hguard, hready, position]
  | stSendTrStatus | stSendCntStatus =>
      simp [fsmNext, hstate, hready, position]

/-- The first cycle of a record raises `m_axis_tvalid` without having loaded a
word when `m_axis_tready` is low. -/
theorem step_enter_stalled (hrun : i.aresetn = true)
    (hpos : position s = some (kind, 0)) (hready : i.mAxisTready = false) :
    position (step s i) = some (kind, 0) ∧
      (step s i).axisTvalidReg = true := by
  rw [← hpos, step, if_pos hrun]
  cases hstate : s.stateReg <;> simp [position, hstate] at hpos <;>
    simp [fsmNext, hstate, hpos, hready, position]

/-- The cycle that leaves an `ST_ATT` state does so whether or not the word on
offer is taken. -/
theorem step_leave (hrun : i.aresetn = true)
    (hpos : position s = some (kind, n)) (hn : n ≠ 0)
    (hguard : ignoresTready s = true) :
    (kind ≠ .pulse ∧ position (step s i) = none ∧
        (step s i).axisTvalidReg = false) ∨
      (kind = .pulse ∧ n = dataArrayLength ∧
        position (step s i) = some (.pulse, n + 1) ∧
        (step s i).axisTvalidReg = true ∧
        (step s i).dataToFifoReg = recordWord .pulse s n) := by
  rw [step, if_pos hrun]
  cases hstate : s.stateReg <;> simp [position, hstate] at hpos <;>
    obtain ⟨rfl, rfl⟩ := hpos <;> simp [ignoresTready, hstate, hn] at hguard <;>
    simp [fsmNext, hstate, hguard, position, recordWord]

end Edges

end Rfsoc.LagoTrigger
