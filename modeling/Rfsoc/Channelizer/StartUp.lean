import Rfsoc.Core.Signals
import Mathlib.Data.BitVec

/-!
# The start-up configuration of the FIRs

After power-up `i_startup_config` sends the FIR one coefficient set for each
channel.  The transmitters count up, the receivers count down, and all of it
moves only in cycles in which the FIR is ready.  The sequence is marked
complete one set before its last, and the registered valid brings out one more.
No reset clears these registers.
-/

namespace Rfsoc.StartUp

open Rfsoc.Clocked
open Rfsoc.Signals

/-- `s_fir_config_tdata`, `s_fir_config_tvalid` and `fir_config_complete`. -/
structure State where
  sFirConfigTdata : BitVec 8
  sFirConfigTvalid : Bool
  firConfigComplete : Bool

/-- `i_startup_config`, with the direction of its count and the set that
completes it. -/
def startupConfig (count : BitVec 8 → BitVec 8) (completes : ℕ) (s : State)
    (sFirConfigTready : Bool) : State :=
  if sFirConfigTready then
    { sFirConfigTdata :=
        if s.sFirConfigTvalid then count s.sFirConfigTdata
        else s.sFirConfigTdata
      sFirConfigTvalid := !s.firConfigComplete
      firConfigComplete :=
        if s.sFirConfigTvalid && decide (s.sFirConfigTdata.toNat = completes)
        then true else s.firConfigComplete }
  else s

def powerUp (sFirConfigTdata : BitVec 8) : State where
  sFirConfigTdata := sFirConfigTdata
  sFirConfigTvalid := false
  firConfigComplete := false

/-- `txchan` of `axis_txchan16` and of `txchan16`. -/
def txchan (nch : ℕ) : Machine State Bool where
  start := powerUp 0
  step := startupConfig (· + 1) (nch - 2)

/-- `rxchan` of `axis_rxchan16` and of `rxchan16`. -/
def rxchan (nch : ℕ) : Machine State Bool where
  start := powerUp (BitVec.ofNat 8 (nch - 1))
  step := startupConfig (· - 1) 1

/-- The set that the FIR takes in a cycle. -/
def acceptedSet (s : State) (sFirConfigTready : Bool) : List (BitVec 8) :=
  if s.sFirConfigTvalid && sFirConfigTready then [s.sFirConfigTdata] else []

/-- The FIR gets the first of the given sets in every run, and no more than
these. -/
structure Configures (machine : Machine State Bool) (sets : List (BitVec 8))
    (tready : ℕ → Bool) : Prop where
  order : ∀ cycle, machine.log tready acceptedSet cycle <+: sets
  /-- After the last set none is ever offered. -/
  done : ∀ cycle later, cycle ≤ later →
    (machine.log tready acceptedSet cycle).length = sets.length →
    (machine.stateAt tready later).sFirConfigTvalid = false
  held : ∀ horizon, OfferHeld
    (fun cycle => (machine.stateAt tready cycle).sFirConfigTvalid) tready
    (fun cycle => (machine.stateAt tready cycle).sFirConfigTdata) horizon

section Sequence

variable (set : ℕ → BitVec 8) (last : ℕ)

/-- The sets accepted in so many ready cycles: the first one only raises the
valid. -/
def acceptedIn (ready : ℕ) : ℕ := min (ready - 1) (last + 1)

theorem acceptedIn_eq_zero_iff (ready : ℕ) :
    acceptedIn last ready = 0 ↔ ready ≤ 1 := by
  rw [acceptedIn]
  omega

/-- The registers after so many ready cycles, with the sets `set 0` to
`set last`. -/
def afterReady (ready : ℕ) : State where
  sFirConfigTdata := set (acceptedIn last ready)
  sFirConfigTvalid := decide (1 ≤ ready ∧ ready ≤ last + 1)
  firConfigComplete := decide (last + 1 ≤ ready)

variable {set last} {count : BitVec 8 → BitVec 8} {completes : ℕ}

/-- A start-up of at least two sets, the last but one of which completes it. -/
structure Counts (set : ℕ → BitVec 8) (last : ℕ) (count : BitVec 8 → BitVec 8)
    (completes : ℕ) : Prop where
  pos : 1 ≤ last
  succ : ∀ n ≤ last, set (n + 1) = count (set n)
  completes_iff : ∀ n < last, (set n).toNat = completes ↔ n + 1 = last

theorem startupConfig_afterReady (hcounts : Counts set last count completes)
    (ready : ℕ) :
    startupConfig count completes (afterReady set last ready) true =
      afterReady set last (ready + 1) := by
  have hpos := hcounts.pos
  rw [startupConfig, if_pos rfl]
  by_cases hvalid : 1 ≤ ready ∧ ready ≤ last + 1
  · have hnow : acceptedIn last ready = ready - 1 := by
      rw [acceptedIn]
      omega
    have hthen : acceptedIn last (ready + 1) = ready - 1 + 1 := by
      rw [acceptedIn]
      omega
    simp only [afterReady, hvalid, hnow, hthen, and_self, decide_true, if_true,
      Bool.true_and, decide_eq_true_eq, State.mk.injEq]
    refine ⟨(hcounts.succ _ (by omega)).symm, ?_, ?_⟩
    · rw [← decide_not, decide_eq_decide]
      omega
    · by_cases hlast : ready ≤ last
      · have hiff := hcounts.completes_iff (ready - 1) (by omega)
        simp only [hiff]
        split
        case isTrue hcomplete =>
          rw [eq_comm, decide_eq_true_iff]
          omega
        case isFalse hbefore =>
          rw [decide_eq_decide]
          omega
      · have hcomplete : last + 1 ≤ ready := by omega
        rw [decide_eq_true hcomplete, decide_eq_true (by omega), ite_self]
  · have hsame : acceptedIn last (ready + 1) = acceptedIn last ready := by
      rw [acceptedIn, acceptedIn]
      omega
    simp only [afterReady, hvalid, hsame, decide_false, Bool.false_and,
      Bool.false_eq_true, if_false, State.mk.injEq, true_and]
    constructor
    · rw [← decide_not, decide_eq_decide]
      omega
    · rw [decide_eq_decide]
      omega

end Sequence

section Run

variable {set : ℕ → BitVec 8} {last : ℕ} {count : BitVec 8 → BitVec 8}
  {completes : ℕ} (hcounts : Counts set last count completes)
  (tready : ℕ → Bool)
include hcounts

/-- The start-up of a core with these parameters. -/
theorem stateAt_eq (cycle : ℕ) :
    (Machine.mk (powerUp (set 0)) (startupConfig count completes)).stateAt
        tready cycle =
      afterReady set last (highCycles tready cycle) := by
  induction cycle with
  | zero =>
      rw [highCycles_zero, afterReady, acceptedIn]
      simp [powerUp]
  | succ cycle ih =>
      rw [Machine.stateAt_succ, ih, highCycles_succ]
      cases tready cycle with
      | false => rfl
      | true => exact startupConfig_afterReady hcounts _

theorem log_eq (cycle : ℕ) :
    (Machine.mk (powerUp (set 0)) (startupConfig count completes)).log tready
        acceptedSet cycle =
      (List.range (acceptedIn last (highCycles tready cycle))).map set := by
  induction cycle with
  | zero =>
      rw [highCycles_zero]
      rfl
  | succ cycle ih =>
      rw [Machine.log_succ, ih, stateAt_eq hcounts, highCycles_succ]
      cases tready cycle with
      | false =>
          rw [acceptedSet, Bool.and_false]
          exact List.append_nil _
      | true =>
          rw [acceptedSet, Bool.and_true, afterReady, Bool.toNat_true]
          by_cases hvalid : 1 ≤ highCycles tready cycle ∧
              highCycles tready cycle ≤ last + 1
          · have hnext : acceptedIn last (highCycles tready cycle + 1) =
                acceptedIn last (highCycles tready cycle) + 1 := by
              rw [acceptedIn, acceptedIn]
              omega
            rw [if_pos (decide_eq_true hvalid), hnext, List.range_succ,
              List.map_append]
            rfl
          · have hnext : acceptedIn last (highCycles tready cycle + 1) =
                acceptedIn last (highCycles tready cycle) := by
              rw [acceptedIn, acceptedIn]
              omega
            rw [if_neg (by rwa [decide_eq_true_iff]), hnext, List.append_nil]

theorem configures_of_counts :
    Configures
      (Machine.mk (powerUp (set 0)) (startupConfig count completes))
      ((List.range (last + 1)).map set) tready where
  order := by
    intro cycle
    rw [log_eq hcounts]
    apply List.IsPrefix.map
    rw [List.prefix_iff_eq_take, List.length_range, List.take_range, acceptedIn]
    congr 1
    omega
  done := by
    intro cycle later hle hall
    have hmono : highCycles tready cycle ≤ highCycles tready later :=
      highCycles_mono hle
    have hpos := hcounts.pos
    rw [log_eq hcounts, List.length_map, List.length_map, List.length_range,
      List.length_range, acceptedIn] at hall
    rw [stateAt_eq hcounts, afterReady, decide_eq_false_iff_not]
    omega
  held := by
    intro horizon cycle _ hvalid hrefused
    simp only [Machine.stateAt_succ, startupConfig, hrefused,
      Bool.false_eq_true, if_false]
    exact ⟨hvalid, trivial⟩

end Run

theorem counts_txchan {nch : ℕ} (hfew : 2 ≤ nch) (hbyte : nch ≤ 256) :
    Counts (BitVec.ofNat 8) (nch - 1) (· + 1) (nch - 2) where
  pos := by omega
  succ := fun n _ => BitVec.ofNat_add n 1
  completes_iff := by
    intro n hn
    rw [BitVec.toNat_ofNat, Nat.mod_eq_of_lt (by omega)]
    omega

theorem counts_rxchan {nch : ℕ} (hfew : 2 ≤ nch) (hbyte : nch ≤ 256) :
    Counts (fun n => BitVec.ofNat 8 (nch - 1) - BitVec.ofNat 8 n) (nch - 1)
      (· - 1) 1 where
  pos := by omega
  succ := by
    intro n _
    simp only [BitVec.ofNat_add]
    exact (BitVec.sub_sub _ _ _).symm
  completes_iff := by
    intro n hn
    rw [BitVec.toNat_sub, BitVec.toNat_ofNat, BitVec.toNat_ofNat]
    omega

/-- The transmitters get the sets 0 to `NCH-1` and the receivers the sets
`NCH-1` to 0, each once, for every pattern of stalls. -/
theorem startUp_configures (nch : ℕ) (hfew : 2 ≤ nch) (hbyte : nch ≤ 256)
    (tready : ℕ → Bool) :
    Configures (txchan nch) ((List.range nch).map (BitVec.ofNat 8)) tready ∧
      Configures (rxchan nch)
        ((List.range nch).map fun n => BitVec.ofNat 8 (nch - 1 - n)) tready := by
  have hsize : nch - 1 + 1 = nch := by omega
  constructor
  · have hconfigures := configures_of_counts (counts_txchan hfew hbyte) tready
    rw [hsize] at hconfigures
    exact hconfigures
  · have hconfigures := configures_of_counts (counts_rxchan hfew hbyte) tready
    have hsets : ((List.range nch).map fun n =>
        BitVec.ofNat 8 (nch - 1) - BitVec.ofNat 8 n) =
        (List.range nch).map fun n => BitVec.ofNat 8 (nch - 1 - n) := by
      rw [List.map_inj_left]
      intro n hn
      have hlt := List.mem_range.mp hn
      apply BitVec.eq_of_toNat_eq
      rw [BitVec.toNat_sub, BitVec.toNat_ofNat, BitVec.toNat_ofNat,
        BitVec.toNat_ofNat]
      omega
    rw [hsize, hsets, BitVec.ofNat_eq_ofNat, BitVec.sub_zero] at hconfigures
    exact hconfigures

/-- Sixteen channels and an FIR that is ready in two cycles of three. -/
theorem startUp_configures_sixteen :
    Configures (txchan 16) ((List.range 16).map (BitVec.ofNat 8))
        (fun cycle => decide (cycle % 3 ≠ 1)) ∧
      Configures (rxchan 16)
        ((List.range 16).map fun n => BitVec.ofNat 8 (16 - 1 - n))
        (fun cycle => decide (cycle % 3 ≠ 1)) :=
  startUp_configures 16 (by decide) (by decide) _

end Rfsoc.StartUp
