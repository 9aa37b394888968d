import Rfsoc.Core.Bits
import Rfsoc.Core.Signals

/-!
# The tone generator

`gen_tonos` reads two 16384-entry memories at `mem_rd_addr_reg - 1` and offers
what it reads as one word, from the second cycle out of reset on.  The address
counts the words taken, so the first word offered is the last entry of the
tables, and every later one is one entry behind its number.
-/

namespace Rfsoc.GenTonos

open Rfsoc.Bits
open Rfsoc.Clocked
open Rfsoc.Signals

structure State where
  memRdAddrReg : BitVec 14
  validReg : Bool

structure Input where
  aresetn : Bool
  mAxisTready : Bool

/-- The two memories, read in the cycle of the address. -/
structure Roms where
  r : BitVec 14 → BitVec 16
  i : BitVec 14 → BitVec 16

def memRdAddrNext (s : State) (i : Input) : BitVec 14 :=
  if i.mAxisTready && s.validReg then s.memRdAddrReg + 1 else s.memRdAddrReg

def validNext : Bool := true

/-- `a_r` and `a_i`. -/
def romAddr (s : State) : BitVec 14 := s.memRdAddrReg - 1

def resetState : State where
  memRdAddrReg := 0
  validReg := false

def step (s : State) (i : Input) : State :=
  if i.aresetn then
    { memRdAddrReg := memRdAddrNext s i
      validReg := validNext }
  else resetState

def core : Machine State Input := ⟨resetState, step⟩

def mAxisTvalid (s : State) : Bool := s.validReg

/-- Both tables at an address, the imaginary part in the top bits. -/
def entry (roms : Roms) (address : BitVec 14) : BitVec 32 :=
  roms.i address ++ roms.r address

def mAxisTdata (roms : Roms) (s : State) : BitVec 32 := entry roms (romAddr s)

def transferredWord (roms : Roms) (s : State) (i : Input) : List (BitVec 32) :=
  if mAxisTvalid s && i.mAxisTready then [mAxisTdata roms s] else []

section Run

variable (roms : Roms) (input : ℕ → Input)

/-- The words transferred before a cycle. -/
def transferred : ℕ → List (BitVec 32) :=
  core.log input (transferredWord roms)

/-- The tables are streamed from their start, each word as long as it waits. -/
structure Streams (horizon : ℕ) : Prop where
  order : transferred roms input horizon =
    (List.range (transferred roms input horizon).length).map fun n =>
      entry roms (BitVec.ofNat 14 n)
  held : OfferHeld (fun cycle => mAxisTvalid (core.stateAt input cycle))
    (fun cycle => (input cycle).mAxisTready)
    (fun cycle => mAxisTdata roms (core.stateAt input cycle)) horizon

/-- The consumer takes a word: any cycle but the first in which it is ready. -/
def takes (cycle : ℕ) : Bool := decide (0 < cycle) && (input cycle).mAxisTready

end Run

section Invariant

variable (roms : Roms) {input : ℕ → Input} {horizon : ℕ}
  (hrun : ∀ cycle < horizon, (input cycle).aresetn = true)
include hrun

theorem stateAt_eq : ∀ cycle ≤ horizon,
    core.stateAt input cycle =
      { memRdAddrReg := BitVec.ofNat 14 (highCycles (takes input) cycle)
        validReg := decide (0 < cycle) } := by
  apply upTo_induction
  · rfl
  · intro cycle hcycle ih
    rw [Machine.stateAt_succ, ih, highCycles_succ]
    change step _ _ = _
    rw [step, if_pos (hrun cycle hcycle), memRdAddrNext, Bool.and_comm]
    change State.mk (if takes input cycle = true then _ else _) _ = _
    cases takes input cycle with
    | false => rfl
    | true =>
        rw [if_pos rfl, Bool.toNat_true, BitVec.ofNat_add]
        rfl

theorem transferred_eq_picked : ∀ cycle ≤ horizon,
    transferred roms input cycle =
      picked (takes input)
        (fun later => entry roms
          (BitVec.ofNat 14 (highCycles (takes input) later) - 1)) cycle := by
  apply log_eq_picked
  intro cycle hcycle
  rw [stateAt_eq hrun cycle hcycle.le]
  rfl

theorem length_transferred :
    (transferred roms input horizon).length =
      highCycles (takes input) horizon := by
  rw [transferred_eq_picked roms hrun horizon le_rfl, length_picked]

/-- A word of number `n` is the entry before entry `n`. -/
theorem transferred_eq :
    transferred roms input horizon =
      (List.range (highCycles (takes input) horizon)).map fun n =>
        entry roms (BitVec.ofNat 14 n - 1) := by
  rw [transferred_eq_picked roms hrun horizon le_rfl]
  exact picked_eq_map_range (fun n => entry roms (BitVec.ofNat 14 n - 1))
    fun _ _ _ => rfl

/-- A word that waits stays as it is. -/
theorem held_stateAt :
    OfferHeld (fun cycle => mAxisTvalid (core.stateAt input cycle))
      (fun cycle => (input cycle).mAxisTready)
      (fun cycle => mAxisTdata roms (core.stateAt input cycle)) horizon := by
  intro cycle hcycle _ hrefused
  simp only at hrefused
  have hwaits : takes input cycle = false := by
    rw [takes, hrefused, Bool.and_false]
  simp only [stateAt_eq hrun cycle hcycle.le, stateAt_eq hrun (cycle + 1) hcycle,
    highCycles_succ, hwaits, Bool.toNat_false, Nat.add_zero]
  exact ⟨decide_eq_true (Nat.succ_pos cycle), rfl⟩

end Invariant

theorem entry_eq_iff (roms : Roms) (left right : BitVec 14) :
    entry roms left = entry roms right ↔
      roms.i left = roms.i right ∧ roms.r left = roms.r right := by
  constructor
  · exact append_inj
  · rintro ⟨himaginary, hreal⟩
    rw [entry, himaginary, hreal, entry]

/-- The tables are streamed from their start exactly as long as every entry
that has been due equals the one before it. -/
theorem genTonos_streams_iff (roms : Roms) (input : ℕ → Input) (horizon : ℕ)
    (hrun : ∀ cycle < horizon, (input cycle).aresetn = true) :
    Streams roms input horizon ↔
      ∀ n < highCycles (takes input) horizon,
        roms.i (BitVec.ofNat 14 n - 1) = roms.i (BitVec.ofNat 14 n) ∧
          roms.r (BitVec.ofNat 14 n - 1) = roms.r (BitVec.ofNat 14 n) := by
  have horder : transferred roms input horizon =
      (List.range (transferred roms input horizon).length).map
        (fun n => entry roms (BitVec.ofNat 14 n)) ↔
      ∀ n < highCycles (takes input) horizon,
        entry roms (BitVec.ofNat 14 n - 1) = entry roms (BitVec.ofNat 14 n) := by
    rw [length_transferred roms hrun, transferred_eq roms hrun,
      List.map_inj_left]
    simp only [List.mem_range]
  simp only [entry_eq_iff] at horder
  rw [← horder]
  exact ⟨Streams.order, fun hwords => ⟨hwords, held_stateAt roms hrun⟩⟩

def readyRun (_ : ℕ) : Input where
  aresetn := true
  mAxisTready := true

/-- Tables that show the address in the real part. -/
def numberedRoms : Roms where
  r := fun address => address.setWidth 16
  i := fun _ => 0

/-- Constant tables, and a run long enough to wrap. -/
theorem genTonos_streams_constant :
    Streams ⟨fun _ => 1, fun _ => 2⟩ readyRun 20000 :=
  (genTonos_streams_iff _ readyRun 20000 fun _ _ => rfl).mpr
    fun _ _ => ⟨rfl, rfl⟩

/-- The first word after reset is the last entry. -/
theorem genTonos_not_streams_readyRun :
    transferred numberedRoms readyRun 4 =
        [0x00003FFF#32, 0x00000000#32, 0x00000001#32] ∧
      ¬ Streams numberedRoms readyRun 4 := by
  refine ⟨by decide +kernel, ?_⟩
  intro hstreams
  have horder := hstreams.order
  revert horder
  decide +kernel

end Rfsoc.GenTonos
