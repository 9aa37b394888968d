import Rfsoc.Core.Clocked
import Mathlib.Data.BitVec

/-!
# The stream reader

`axi_axis_reader` answers AXI reads with words of a stream.  It copies the word
on offer into `int_rdata_reg` at the address handshake and takes a word from the
stream at the data handshake.  The two moments are tied together by nothing but
the environment; this file settles exactly when they concern the same word.
-/

namespace Rfsoc.AxisReader

open Rfsoc.Clocked

variable {axiDataWidth : ℕ}

/-- The registers of the core. -/
structure State (axiDataWidth : ℕ) where
  intRvalidReg : Bool
  intRdataReg : BitVec axiDataWidth

/-- What the ports carry in one cycle. -/
structure Input (axiDataWidth : ℕ) where
  aresetn : Bool
  sAxiArvalid : Bool
  sAxiRready : Bool
  sAxisTdata : BitVec axiDataWidth
  sAxisTvalid : Bool

def intRvalidNext (s : State axiDataWidth) (i : Input axiDataWidth) : Bool :=
  if i.sAxiArvalid then true
  else if i.sAxiRready && s.intRvalidReg then false
  else s.intRvalidReg

def intRdataNext (s : State axiDataWidth) (i : Input axiDataWidth) :
    BitVec axiDataWidth :=
  if i.sAxiArvalid && i.sAxisTvalid then i.sAxisTdata
  else if i.sAxiArvalid && !i.sAxisTvalid then 0
  else s.intRdataReg

def resetState : State axiDataWidth := ⟨false, 0⟩

def step (s : State axiDataWidth) (i : Input axiDataWidth) :
    State axiDataWidth :=
  if i.aresetn then ⟨intRvalidNext s i, intRdataNext s i⟩ else resetState

/-- The core as it leaves reset. -/
def core (axiDataWidth : ℕ) : Machine (State axiDataWidth) (Input axiDataWidth) :=
  ⟨resetState, step⟩

def sAxiRdata (s : State axiDataWidth) : BitVec axiDataWidth := s.intRdataReg

def sAxiRvalid (s : State axiDataWidth) : Bool := s.intRvalidReg

def sAxisTready (s : State axiDataWidth) (i : Input axiDataWidth) : Bool :=
  i.sAxiRready && s.intRvalidReg

section Runs

variable (input : ℕ → Input axiDataWidth)

/-- The data handshake of a read. -/
def rHandshake (cycle : ℕ) : Bool :=
  sAxiRvalid ((core axiDataWidth).stateAt input cycle) &&
    (input cycle).sAxiRready

/-- Stream words taken before a cycle. -/
def taken : ℕ → List (BitVec axiDataWidth) :=
  (core axiDataWidth).log input fun s i =>
    if i.sAxisTvalid && sAxisTready s i then [i.sAxisTdata] else []

/-- The reads answered before a cycle, each named by the cycle of its data
handshake. -/
def reads (cycle : ℕ) : List ℕ := (List.range cycle).filter (rHandshake input)

/-- The cycle of the last address handshake before a cycle; `s_axi_arready` is
always high. -/
def asked : ℕ → ℕ
  | 0 => 0
  | cycle + 1 => if (input cycle).sAxiArvalid then cycle else asked cycle

/-- The word a read returns and its position in the stream: the word that was on
offer at its address handshake, if one was. -/
def returned (read : ℕ) : Option (BitVec axiDataWidth × ℕ) :=
  if (input (asked input read)).sAxisTvalid then
    some (sAxiRdata ((core axiDataWidth).stateAt input read),
      (taken input (asked input read)).length)
  else none

/-- Up to a cycle the reads return the words taken, each once and in order, and
a read that found no word returns zero and takes none. -/
structure ExactlyOnce (cycle : ℕ) : Prop where
  inOrder : (reads input cycle).filterMap (returned input) =
    (taken input cycle).zipIdx
  empty : ∀ read ∈ reads input cycle,
    (input (asked input read)).sAxisTvalid = false →
      sAxiRdata ((core axiDataWidth).stateAt input read) = 0 ∧
        (input read).sAxisTvalid = false

/-- The stream source keeps a word on offer until it is taken. -/
def SourceHolds (horizon : ℕ) : Prop :=
  OfferHeld (fun cycle => (input cycle).sAxisTvalid)
    (fun cycle => sAxisTready ((core axiDataWidth).stateAt input cycle)
      (input cycle))
    (fun cycle => (input cycle).sAxisTdata) horizon

/-- The read copies the word that it takes: a word on offer at the address
handshake is not taken by another read in that very cycle, and no word arrives
between an address handshake that found none and the data handshake. -/
def SameWord (read : ℕ) : Prop :=
  if (input (asked input read)).sAxisTvalid then
    rHandshake input (asked input read) = false
  else (input read).sAxisTvalid = false

end Runs

section Reads

variable {input : ℕ → Input axiDataWidth} {horizon : ℕ}

theorem taken_succ (cycle : ℕ) :
    taken input (cycle + 1) = taken input cycle ++
      if (input cycle).sAxisTvalid && rHandshake input cycle then
        [(input cycle).sAxisTdata]
      else [] := by
  rw [rHandshake, sAxiRvalid, Bool.and_comm (State.intRvalidReg _)]
  rfl

theorem reads_succ (cycle : ℕ) :
    reads input (cycle + 1) =
      reads input cycle ++ if rHandshake input cycle then [cycle] else [] := by
  rw [reads, List.range_succ, List.filter_append, ← reads]
  cases hshake : rHandshake input cycle <;> simp [hshake]

theorem mem_reads_iff {cycle read : ℕ} :
    read ∈ reads input cycle ↔ read < cycle ∧ rHandshake input read = true := by
  simp [reads]

/-- A pending answer holds what its address handshake found, and no answer has
been given since. -/
structure Pending (input : ℕ → Input axiDataWidth) (cycle : ℕ) : Prop where
  asked_lt : asked input cycle < cycle
  rdata : sAxiRdata ((core axiDataWidth).stateAt input cycle) =
    if (input (asked input cycle)).sAxisTvalid then
      (input (asked input cycle)).sAxisTdata
    else 0
  quiet : ∀ between, asked input cycle < between → between < cycle →
    rHandshake input between = false

theorem pending_stateAt
    (hrun : ∀ cycle < horizon, (input cycle).aresetn = true) :
    ∀ cycle ≤ horizon,
      sAxiRvalid ((core axiDataWidth).stateAt input cycle) = true →
        Pending input cycle := by
  refine upTo_induction horizon (by simp [core, sAxiRvalid, resetState]) ?_
  intro cycle hcycle ih hvalid
  have hnext : (core axiDataWidth).stateAt input (cycle + 1) =
      ⟨intRvalidNext ((core axiDataWidth).stateAt input cycle) (input cycle),
        intRdataNext ((core axiDataWidth).stateAt input cycle) (input cycle)⟩ :=
    if_pos (hrun cycle hcycle)
  cases har : (input cycle).sAxiArvalid with
  | true =>
      have hasked : asked input (cycle + 1) = cycle := if_pos har
      refine ⟨by omega, ?_, fun between hlow hhigh => by omega⟩
      rw [hnext, hasked]
      cases htvalid : (input cycle).sAxisTvalid <;>
        simp [sAxiRdata, intRdataNext, har, htvalid]
  | false =>
      have hasked : asked input (cycle + 1) = asked input cycle :=
        if_neg (by simp [har])
      rw [hnext] at hvalid
      simp only [sAxiRvalid, intRvalidNext, har] at hvalid
      have hkept : rHandshake input cycle = false ∧
          sAxiRvalid ((core axiDataWidth).stateAt input cycle) = true := by
        cases hready : (input cycle).sAxiRready <;>
          simp_all [rHandshake, sAxiRvalid]
      have hbefore := ih hkept.2
      have hlt := hbefore.asked_lt
      refine ⟨by omega, ?_, ?_⟩
      · rw [hnext, hasked, ← hbefore.rdata]
        simp [sAxiRdata, intRdataNext, har]
      · intro between hlow hhigh
        rcases Nat.lt_succ_iff_lt_or_eq.mp hhigh with hearlier | rfl
        · exact hbefore.quiet between (by omega) hearlier
        · exact hkept.1

theorem pending_of_rHandshake
    (hrun : ∀ cycle < horizon, (input cycle).aresetn = true)
    {read : ℕ} (hread : read < horizon)
    (hshake : rHandshake input read = true) : Pending input read := by
  rw [rHandshake, Bool.and_eq_true] at hshake
  exact pending_stateAt hrun read hread.le hshake.1

/-- While no data handshake takes it, an offered word stays on offer and keeps
its position. -/
theorem offer_waits
    (hheld : SourceHolds input horizon)
    {early late : ℕ} (hle : early ≤ late) (hlate : late ≤ horizon)
    (hquiet : ∀ between, early ≤ between → between < late →
      rHandshake input between = false)
    (hvalid : (input early).sAxisTvalid = true) :
    (input late).sAxisTvalid = true ∧
      (input late).sAxisTdata = (input early).sAxisTdata ∧
      taken input late = taken input early := by
  induction late, hle using Nat.le_induction with
  | base => exact ⟨hvalid, rfl, rfl⟩
  | succ late hle ih =>
      obtain ⟨hstill, hdata, htaken⟩ := ih (by omega)
        fun between hlow hhigh => hquiet between hlow (by omega)
      have hshake := hquiet late hle (by omega)
      have hrefused : sAxisTready ((core axiDataWidth).stateAt input late)
          (input late) = false := by
        rw [sAxisTready, Bool.and_comm]
        exact hshake
      obtain ⟨hkept, hsame⟩ := hheld late (by omega) hstill hrefused
      refine ⟨hkept, hsame.trans hdata, ?_⟩
      rw [taken_succ, hshake, Bool.and_false, htaken]
      simp

theorem length_taken_mono {early late : ℕ} (hle : early ≤ late) :
    (taken input early).length ≤ (taken input late).length :=
  ((core axiDataWidth).log_isPrefix _ hle).length_le

theorem zipIdx_taken_succ (cycle : ℕ) :
    (taken input (cycle + 1)).zipIdx = (taken input cycle).zipIdx ++
      if (input cycle).sAxisTvalid && rHandshake input cycle then
        [((input cycle).sAxisTdata, (taken input cycle).length)]
      else [] := by
  rw [taken_succ, List.zipIdx_append]
  split <;> simp

/-- A read that copies the word it takes returns that word, at its place. -/
theorem returned_of_sameWord
    (hrun : ∀ cycle < horizon, (input cycle).aresetn = true)
    (hheld : SourceHolds input horizon)
    {read : ℕ} (hread : read < horizon) (hshake : rHandshake input read = true)
    (hsame : SameWord input read) :
    returned input read =
      if (input read).sAxisTvalid then
        some ((input read).sAxisTdata, (taken input read).length)
      else none := by
  have hpending := pending_of_rHandshake hrun hread hshake
  rw [returned, hpending.rdata]
  cases hfound : (input (asked input read)).sAxisTvalid with
  | false =>
      have hnone : (input read).sAxisTvalid = false := by
        simpa [SameWord, hfound] using hsame
      simp [hnone]
  | true =>
      have hfirst : rHandshake input (asked input read) = false := by
        simpa [SameWord, hfound] using hsame
      obtain ⟨hstill, hdata, htaken⟩ := offer_waits hheld hpending.asked_lt.le
        hread.le
        (fun between hlow hhigh => by
          rcases hlow.lt_or_eq with hlt | rfl
          · exact hpending.quiet between hlt hhigh
          · exact hfirst)
        hfound
      simp [hstill, hdata, htaken]

/-- A read that returns what it takes copied the word it took. -/
theorem sameWord_of_returned
    (hrun : ∀ cycle < horizon, (input cycle).aresetn = true)
    {read : ℕ} (hread : read < horizon) (hshake : rHandshake input read = true)
    (hreturned : returned input read =
      if (input read).sAxisTvalid then
        some ((input read).sAxisTdata, (taken input read).length)
      else none) :
    SameWord input read := by
  have hlt := (pending_of_rHandshake hrun hread hshake).asked_lt
  rw [returned] at hreturned
  rw [SameWord]
  cases hfound : (input (asked input read)).sAxisTvalid with
  | false =>
      rw [hfound] at hreturned
      cases hnone : (input read).sAxisTvalid <;> simp [hnone] at hreturned ⊢
  | true =>
      rw [hfound] at hreturned
      have hlength : (taken input (asked input read)).length =
          (taken input read).length := by
        cases hsome : (input read).sAxisTvalid <;> simp [hsome] at hreturned
        exact hreturned.2
      by_contra htakes
      have hgrows : (taken input (asked input read + 1)).length =
          (taken input (asked input read)).length + 1 := by
        rw [taken_succ, hfound]
        simp_all
      have hmono : (taken input (asked input read + 1)).length ≤
          (taken input read).length :=
        length_taken_mono hlt
      omega

end Reads

/-- Every word is returned by exactly one read, in order, exactly when every
read copies the word it takes, whatever the master does. -/
theorem axisReader_exactlyOnce_iff (input : ℕ → Input axiDataWidth)
    (horizon : ℕ) (hrun : ∀ cycle < horizon, (input cycle).aresetn = true)
    (hheld : SourceHolds input horizon) :
    (∀ cycle ≤ horizon, ExactlyOnce input cycle) ↔
      ∀ read ∈ reads input horizon, SameWord input read := by
  constructor
  · intro honce read hmem
    obtain ⟨hread, hshake⟩ := mem_reads_iff.mp hmem
    apply sameWord_of_returned hrun hread hshake
    have hnow := (honce read hread.le).inOrder
    have hnext := (honce (read + 1) hread).inOrder
    rw [reads_succ, zipIdx_taken_succ, List.filterMap_append, hnow,
      List.append_cancel_left_eq, hshake, Bool.and_true] at hnext
    cases hret : returned input read <;>
      cases hvalid : (input read).sAxisTvalid <;> simp_all
  · intro hsame
    have hreads : ∀ read < horizon, rHandshake input read = true →
        SameWord input read :=
      fun read hread hshake => hsame read (mem_reads_iff.mpr ⟨hread, hshake⟩)
    have horder : ∀ cycle ≤ horizon,
        (reads input cycle).filterMap (returned input) =
          (taken input cycle).zipIdx := by
      refine upTo_induction horizon rfl ?_
      intro cycle hcycle ih
      rw [reads_succ, zipIdx_taken_succ, List.filterMap_append, ih]
      cases hshake : rHandshake input cycle with
      | false => simp
      | true =>
          have hreturned := returned_of_sameWord hrun hheld hcycle hshake
            (hreads cycle hcycle hshake)
          cases hvalid : (input cycle).sAxisTvalid <;> simp_all
    intro cycle hcycle
    refine ⟨horder cycle hcycle, ?_⟩
    intro read hmem hnone
    obtain ⟨hread, hshake⟩ := mem_reads_iff.mp hmem
    have hrdata := (pending_of_rHandshake hrun (by omega) hshake).rdata
    have hword := hreads read (by omega) hshake
    refine ⟨by simpa [hnone] using hrdata, ?_⟩
    simpa [SameWord, hnone] using hword

/-- One read in cycle 2 of a word that is on offer from cycle 1 on. -/
def promptRun (cycle : ℕ) : Input 32 where
  aresetn := true
  sAxiArvalid := cycle == 2
  sAxiRready := true
  sAxisTdata := 7#32
  sAxisTvalid := cycle == 1 || cycle == 2 || cycle == 3

theorem axisReader_exactlyOnce_promptRun : ExactlyOnce promptRun 6 :=
  (axisReader_exactlyOnce_iff promptRun 6 (by decide)
    (by unfold SourceHolds OfferHeld; decide)).mpr
    (by unfold SameWord; decide) 6 le_rfl

/-- The word arrives in the cycle after the address handshake. -/
def lateWordRun (cycle : ℕ) : Input 32 :=
  { promptRun cycle with sAxisTvalid := cycle == 3 }

/-- The read returns zero and the word is taken. -/
theorem axisReader_exactlyOnce_lateWordRun :
    reads lateWordRun 6 = [3] ∧ taken lateWordRun 6 = [7#32] ∧
      ¬ ExactlyOnce lateWordRun 6 := by
  refine ⟨by decide, by decide, fun honce => ?_⟩
  exact absurd honce.inOrder (by decide)

end Rfsoc.AxisReader
