import Rfsoc.Lago.Position

/-!
# Backpressure on the record stream

The output register is a one-word stage: what has been loaded is what has been
transferred and then the word on offer.  That law is kept by every edge except
two, which do not look at `m_axis_tready`: the first cycle of a record and the
one that leaves an `ST_ATT` state.  The stream is lossless on exactly the runs
in which `m_axis_tready` is high in those cycles.
-/

namespace Rfsoc.LagoTrigger

open Rfsoc.Clocked

/-- A word put into the output register: which word of which record. -/
structure Load where
  kind : Kind
  index : ℕ
  word : Word

def Load.slot (load : Load) : Kind × ℕ := (load.kind, load.index)

/-- The word that the edge puts into the output register, if any. -/
def loads (s : State) (i : Input) : List Load :=
  match position s with
  | none => []
  | some (kind, n) =>
      if n < kind.length ∧ (i.mAxisTready ∨ ignoresTready s ∧ n ≠ 0) then
        [⟨kind, n, recordWord kind s n⟩]
      else []

/-- The words of a record, by number. -/
def Kind.slots (kind : Kind) : List (Kind × ℕ) :=
  (List.range kind.length).map fun n => (kind, n)

/-- Records opened before a cycle. -/
def opened (input : ℕ → Input) : ℕ → List Kind :=
  core.log input fun s i => (opens s i).toList

/-- Words loaded before a cycle. -/
def loaded (input : ℕ → Input) : ℕ → List Load := core.log input loads

/-- Nothing is lost or repeated up to a horizon: a refused word stays on offer,
the words transferred and then the word on offer are the words loaded, and the
loads are the words of the opened records, each once and in order, all of them
when the machine is idle. -/
structure Lossless (input : ℕ → Input) (horizon : ℕ) : Prop where
  held : OfferHeld (fun cycle => mAxisTvalid (core.stateAt input cycle))
    (fun cycle => (input cycle).mAxisTready)
    (fun cycle => mAxisTdata (core.stateAt input cycle)) horizon
  words : ∀ cycle ≤ horizon,
    transferred input cycle ++ offered (core.stateAt input cycle) =
      (loaded input cycle).map Load.word
  order : ∀ cycle ≤ horizon,
    (loaded input cycle).map Load.slot <+:
      (opened input cycle).flatMap Kind.slots
  complete : ∀ cycle ≤ horizon,
    (core.stateAt input cycle).stateReg = .stIdle →
      (loaded input cycle).map Load.slot =
          (opened input cycle).flatMap Kind.slots ∧
        offered (core.stateAt input cycle) = []

/-- The registers against the logs: idle means every opened record is loaded
and nothing is on offer; sending word `n` of a record means the `n` words
before it are loaded and the last of them is on offer. -/
structure Ledger (openings : List Kind) (loadings : List Load)
    (transfers : List Word) (s : State) : Prop where
  words : transfers ++ offered s = loadings.map Load.word
  idle : position s = none → s.axisTvalidReg = false ∧
    loadings.map Load.slot = openings.flatMap Kind.slots
  sending : ∀ kind n, position s = some (kind, n) →
    s.axisTvalidReg = decide (0 < n) ∧
      ∃ earlier, openings = earlier ++ [kind] ∧
        loadings.map Load.slot =
          earlier.flatMap Kind.slots ++
            (List.range n).map fun index => (kind, index)

theorem transfer_of_ready {s : State} {i : Input}
    (hready : i.mAxisTready = true) : transfer s i = offered s := by
  simp [transfer, offered, hready]

theorem transfer_of_not_ready {s : State} {i : Input}
    (hready : i.mAxisTready = false) : transfer s i = [] := by
  simp [transfer, hready]

theorem offered_of_valid {s : State} (hvalid : s.axisTvalidReg = true) :
    offered s = [s.dataToFifoReg] := by
  simp [offered, mAxisTvalid, mAxisTdata, hvalid]

theorem offered_of_not_valid {s : State} (hvalid : s.axisTvalidReg = false) :
    offered s = [] := by
  simp [offered, mAxisTvalid, hvalid]

theorem opens_of_position {s : State} {i : Input} {kind : Kind} {n : ℕ}
    (hpos : position s = some (kind, n)) : opens s i = none := by
  have hbusy : s.stateReg ≠ .stIdle := fun hidle => by
    simp [(position_eq_none_iff s).mpr hidle] at hpos
  simp [opens, hbusy]

theorem position_eq_none_of_opens {s : State} {i : Input} {kind : Kind}
    (hopens : opens s i = some kind) : position s = none := by
  by_contra hbusy
  obtain ⟨⟨kind', n⟩, hpos⟩ := Option.ne_none_iff_exists'.mp hbusy
  simp [opens_of_position hpos] at hopens

theorem ledger_resetState : Ledger [] [] [] resetState where
  words := rfl
  idle := fun _ => ⟨rfl, rfl⟩
  sending := by simp [position, resetState]

namespace Ledger

variable {openings : List Kind} {loadings : List Load}
variable {transfers : List Word} {s : State} {i : Input}

/-- An edge from idle opens a record or nothing. -/
theorem step_idle (hledger : Ledger openings loadings transfers s)
    (hrun : i.aresetn = true) (hcount : CountInv s)
    (hpos : position s = none) :
    Ledger (openings ++ (opens s i).toList) (loadings ++ loads s i)
      (transfers ++ transfer s i) (step s i) := by
  obtain ⟨hvalid, hslots⟩ := hledger.idle hpos
  obtain ⟨hnext, hsame⟩ := step_open hrun hcount hpos
  have hquiet : (step s i).axisTvalidReg = false := hsame.trans hvalid
  have hnoLoad : loads s i = [] := by simp [loads, hpos]
  have hnoTransfer : transfer s i = [] := by
    simp [transfer, mAxisTvalid, hvalid]
  have hwords := hledger.words
  rw [offered_of_not_valid hvalid] at hwords
  rw [hnoLoad, hnoTransfer, List.append_nil, List.append_nil]
  refine ⟨by rwa [offered_of_not_valid hquiet], ?_, ?_⟩
  · intro hidle
    rw [hidle] at hnext
    have hnone : opens s i = none := by simpa using hnext.symm
    exact ⟨hquiet, by simpa [hnone] using hslots⟩
  · intro kind n hsome
    rw [hsome] at hnext
    obtain ⟨_, hopens, hpair⟩ := Option.map_eq_some_iff.mp hnext.symm
    obtain ⟨rfl, rfl⟩ := Prod.mk.inj hpair
    exact ⟨hquiet, openings, by simp [hopens], by simpa using hslots⟩

/-- With `m_axis_tready` the word on offer leaves, and the next one enters or
the record is over. -/
theorem step_ready (hledger : Ledger openings loadings transfers s)
    (hrun : i.aresetn = true) (hcount : CountInv s) {kind : Kind} {n : ℕ}
    (hpos : position s = some (kind, n)) (hready : i.mAxisTready = true) :
    Ledger (openings ++ (opens s i).toList) (loadings ++ loads s i)
      (transfers ++ transfer s i) (step s i) := by
  obtain ⟨-, earlier, hopenings, hslots⟩ := hledger.sending kind n hpos
  rw [opens_of_position hpos, Option.toList_none, List.append_nil,
    transfer_of_ready hready, hledger.words]
  by_cases hn : n < kind.length
  · obtain ⟨hnext, hoffer, hdata⟩ := LagoTrigger.step_load hrun hcount hpos hn hready
    have hload : loads s i = [⟨kind, n, recordWord kind s n⟩] := by
      simp [loads, hpos, hn, hready]
    rw [hload]
    refine ⟨?_, by simp [hnext], ?_⟩
    · rw [offered_of_valid hoffer, hdata, List.map_append]
      rfl
    · intro kind' n' hsome
      rw [hnext] at hsome
      obtain ⟨rfl, rfl⟩ := Prod.mk.inj (Option.some.inj hsome)
      refine ⟨by simp [hoffer], earlier, hopenings, ?_⟩
      rw [List.map_append, hslots, List.range_succ]
      simp [Load.slot]
  · obtain rfl : n = kind.length := by
      have := hcount.position_le hpos
      omega
    obtain ⟨hnext, hquiet⟩ := LagoTrigger.step_close hrun hcount hpos hready
    have hnoLoad : loads s i = [] := by simp [loads, hpos]
    rw [hnoLoad, List.append_nil]
    refine ⟨by simp [offered_of_not_valid hquiet], ?_, by simp [hnext]⟩
    intro _
    refine ⟨hquiet, ?_⟩
    rw [hslots, hopenings]
    simp [Kind.slots]

/-- Without `m_axis_tready` a cycle that looks at it keeps everything. -/
theorem step_waits (hledger : Ledger openings loadings transfers s)
    (hrun : i.aresetn = true) {kind : Kind} {n : ℕ}
    (hpos : position s = some (kind, n)) (hguard : ignoresTready s = false)
    (hready : i.mAxisTready = false) :
    Ledger (openings ++ (opens s i).toList) (loadings ++ loads s i)
      (transfers ++ transfer s i) (step s i) := by
  obtain ⟨hvalid, hearlier⟩ := hledger.sending kind n hpos
  obtain ⟨hnext, hoffer, hdata⟩ := LagoTrigger.step_wait hrun hpos hguard hready
  have hpositive : 0 < n := by
    rcases Nat.eq_zero_or_pos n with rfl | hpositive
    · simp [ignoresTready_of_start hpos] at hguard
    · exact hpositive
  have hsame : offered (step s i) = offered s := by
    rw [offered_of_valid hoffer, hdata, offered_of_valid (by simp [hvalid, hpositive])]
  have hnoLoad : loads s i = [] := by simp [loads, hpos, hready, hguard]
  rw [opens_of_position hpos, hnoLoad, transfer_of_not_ready hready,
    Option.toList_none, List.append_nil, List.append_nil, List.append_nil]
  refine ⟨by rw [hsame, hledger.words], by simp [hnext], ?_⟩
  intro kind' n' hsome
  rw [hnext] at hsome
  obtain ⟨rfl, rfl⟩ := Prod.mk.inj (Option.some.inj hsome)
  exact ⟨by simp [hoffer, hpositive], hearlier⟩

theorem step (hledger : Ledger openings loadings transfers s)
    (hrun : i.aresetn = true) (hcount : CountInv s)
    (hguard : ignoresTready s = true → i.mAxisTready = true) :
    Ledger (openings ++ (opens s i).toList) (loadings ++ loads s i)
      (transfers ++ transfer s i) (step s i) := by
  cases hpos : position s with
  | none => exact hledger.step_idle hrun hcount hpos
  | some at_ =>
      cases hready : i.mAxisTready with
      | true => exact hledger.step_ready hrun hcount hpos hready
      | false =>
          apply hledger.step_waits hrun hpos _ hready
          cases hignores : ignoresTready s with
          | false => rfl
          | true => simp [hguard hignores] at hready

/-- The law of words fails right after a cycle that had to look at
`m_axis_tready` and did not. -/
theorem ready_of_words (hledger : Ledger openings loadings transfers s)
    (hrun : i.aresetn = true)
    (hwords : (transfers ++ transfer s i) ++ offered (LagoTrigger.step s i) =
      (loadings ++ loads s i).map Load.word)
    (hignores : ignoresTready s = true) : i.mAxisTready = true := by
  cases hready : i.mAxisTready with
  | true => rfl
  | false =>
      have hbefore := congrArg List.length hledger.words
      have hafter := congrArg List.length hwords
      rw [transfer_of_not_ready hready] at hafter
      simp only [List.length_append, List.length_map, List.length_nil] at hbefore hafter
      cases hpos : position s with
      | none =>
          have hidle := (position_eq_none_iff s).mp hpos
          simp [ignoresTready, hidle] at hignores
      | some at_ =>
          obtain ⟨kind, n⟩ := at_
          obtain ⟨hvalid, -⟩ := hledger.sending kind n hpos
          rcases Nat.eq_zero_or_pos n with rfl | hpositive
          · -- nothing was loaded, and yet a word is on offer
            obtain ⟨-, hoffer⟩ := step_enter_stalled hrun hpos hready
            have hnoLoad : loads s i = [] := by simp [loads, hpos, hready]
            rw [offered_of_valid hoffer, hnoLoad] at hafter
            rw [offered_of_not_valid (by simp [hvalid])] at hbefore
            simp at hbefore hafter
            omega
          · rw [offered_of_valid (by simp [hvalid, hpositive])] at hbefore
            rcases step_leave (i := i) hrun hpos (by omega) hignores with
              ⟨-, -, hquiet⟩ | ⟨rfl, rfl, -, hoffer, -⟩
            · -- the word on offer was withdrawn
              rw [offered_of_not_valid hquiet] at hafter
              simp at hbefore hafter
              omega
            · -- the word on offer was overwritten by the status word
              have hload : (loads s i).length = 1 := by
                simp [loads, hpos, hignores, dataArrayLength]
              rw [offered_of_valid hoffer, hload] at hafter
              simp at hbefore hafter
              omega

end Ledger

section Run

variable {input : ℕ → Input} {horizon : ℕ}

theorem ledger_stateAt
    (hrun : ∀ cycle < horizon, (input cycle).aresetn = true)
    (hready : ∀ cycle < horizon,
      ignoresTready (core.stateAt input cycle) = true →
        (input cycle).mAxisTready = true) :
    ∀ cycle ≤ horizon,
      Ledger (opened input cycle) (loaded input cycle)
        (transferred input cycle) (core.stateAt input cycle) :=
  upTo_induction horizon ledger_resetState fun cycle hcycle ih =>
    ih.step (hrun cycle hcycle) (countInv_stateAt input cycle)
      (hready cycle hcycle)

/-- The record stream is lossless exactly when `m_axis_tready` is high in every
cycle that does not look at it. -/
theorem lagoTrigger_lossless_iff (input : ℕ → Input) (horizon : ℕ)
    (hrun : ∀ cycle < horizon, (input cycle).aresetn = true) :
    Lossless input horizon ↔
      ∀ cycle < horizon, ignoresTready (core.stateAt input cycle) = true →
        (input cycle).mAxisTready = true := by
  constructor
  · intro hlossless
    have hledger : ∀ cycle ≤ horizon,
        Ledger (opened input cycle) (loaded input cycle)
          (transferred input cycle) (core.stateAt input cycle) := by
      refine upTo_induction horizon ledger_resetState ?_
      intro cycle hcycle ih
      exact ih.step (hrun cycle hcycle) (countInv_stateAt input cycle)
        (ih.ready_of_words (hrun cycle hcycle)
          (hlossless.words (cycle + 1) hcycle))
    intro cycle hcycle
    exact (hledger cycle hcycle.le).ready_of_words (hrun cycle hcycle)
      (hlossless.words (cycle + 1) hcycle)
  · intro hready
    have hledger := ledger_stateAt hrun hready
    refine ⟨?_, fun cycle hcycle => (hledger cycle hcycle).words, ?_, ?_⟩
    · intro cycle hcycle hvalid hrefused
      have hlook : ignoresTready (core.stateAt input cycle) = false := by
        cases hignores : ignoresTready (core.stateAt input cycle) with
        | false => rfl
        | true => simp [hready cycle hcycle hignores] at hrefused
      cases hpos : position (core.stateAt input cycle) with
      | none =>
          have hquiet := ((hledger cycle hcycle.le).idle hpos).1
          simp [mAxisTvalid, hquiet] at hvalid
      | some at_ =>
          exact (step_wait (hrun cycle hcycle) hpos hlook hrefused).2
    · intro cycle hcycle
      cases hpos : position (core.stateAt input cycle) with
      | none => rw [((hledger cycle hcycle).idle hpos).2]
      | some at_ =>
          obtain ⟨kind, n⟩ := at_
          obtain ⟨-, earlier, hopenings, hslots⟩ :=
            (hledger cycle hcycle).sending kind n hpos
          have hbound := (countInv_stateAt input cycle).position_le hpos
          rw [hslots, hopenings, List.flatMap_append, List.flatMap_singleton,
            List.prefix_append_right_inj, Kind.slots]
          have htake := List.take_range (i := n) (n := kind.length)
          rw [Nat.min_eq_left hbound] at htake
          rw [← htake]
          exact (List.take_prefix n _).map _
    · intro cycle hcycle hidle
      obtain ⟨hquiet, hslots⟩ := (hledger cycle hcycle).idle
        ((position_eq_none_iff _).mpr hidle)
      exact ⟨hslots, offered_of_not_valid hquiet⟩

end Run

/-- A PPS pulse in cycle 3 and refused words in cycles 6, 7 and 10, in the
middle of its record. -/
def patientRun (cycle : ℕ) : Input where
  aresetn := true
  trigLvlI := 0x00640064#32
  subtrigLvlI := 0x00640064#32
  ppsI := cycle == 3
  clkCntPpsI := BitVec.ofNat 27 cycle
  sAxisTdata := 0
  sAxisTvalid := true
  mAxisTready := cycle != 6 && cycle != 7 && cycle != 10

theorem lagoTrigger_lossless_patientRun : Lossless patientRun 30 :=
  (lagoTrigger_lossless_iff patientRun 30 (by decide)).mpr (by decide +kernel)

/-- The same pulse with the last word of its record refused once. -/
def refusedLastRun (cycle : ℕ) : Input :=
  { patientRun cycle with mAxisTready := cycle != 14 }

/-- The refused word is withdrawn. -/
theorem lagoTrigger_lossless_refusedLastRun : ¬ Lossless refusedLastRun 30 := by
  intro hlossless
  have hheld := hlossless.held 14 (by decide) (by decide +kernel)
    (by decide +kernel)
  exact absurd hheld.1 (by decide +kernel)

end Rfsoc.LagoTrigger
