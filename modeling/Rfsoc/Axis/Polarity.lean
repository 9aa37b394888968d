import Rfsoc.Axis.Trigger
import Rfsoc.Core.Signals

/-!
# The polarity of the trigger

The host's comment gives `pol_data` 0 for the negative edge and 1 for the
positive one.  `trg_flag` compares the two accepted samples before the present
one, whatever gaps lie between them, but its two xor terms turn the sense round:
a 1 flags the sample after a fall, a 0 the sample after a rise.
-/

namespace Rfsoc.Polarity

open Rfsoc.Clocked Rfsoc.Signals Rfsoc.AxisTrigger

variable {axisTdataWidth : ℕ}

/-- The trigger, from any comparisons. -/
def core (isSigned : Bool) (start : State) :
    Machine State (Input axisTdataWidth) :=
  ⟨start, step isSigned⟩

section Run

variable (isSigned : Bool) (start : State) (input : ℕ → Input axisTdataWidth)

def stateAt (cycle : ℕ) : State := (core isSigned start).stateAt input cycle

/-- The comparisons of the samples accepted before a cycle. -/
def comparisons (cycle : ℕ) : List Bool :=
  picked (fun earlier => (input earlier).sAxisTvalid)
    (fun earlier => intCompWire isSigned (input earlier)) cycle

/-- The edge that the host's comment promises for a polarity. -/
def edge (polData older newer : Bool) : Bool :=
  if polData then !older && newer else older && !newer

/-- The flag stands for the edge between the last two samples. -/
structure FlagsEdges : Prop where
  sample : ∀ cycle before older newer,
    (input cycle).sAxisTvalid = true →
    comparisons isSigned input cycle = before ++ [older, newer] →
    trgFlag (stateAt isSigned start input cycle) (input cycle) =
      edge (input cycle).polData older newer
  gap : ∀ cycle, (input cycle).sAxisTvalid = false →
    trgFlag (stateAt isSigned start input cycle) (input cycle) = false

/-- No sample from the third on comes after two that differ in their
comparison. -/
def NoEdge : Prop :=
  ∀ cycle before older newer, (input cycle).sAxisTvalid = true →
    comparisons isSigned input cycle = before ++ [older, newer] →
    older = newer

end Run

/-- A register that holds the last comparison in bit 0 and the one before it in
bit 1. -/
structure Holds (s : State) (seen : List Bool) : Prop where
  newest : ∀ before newer, seen = before ++ [newer] →
    s.intCompReg.getLsbD 0 = newer
  older : ∀ before older newer, seen = before ++ [older, newer] →
    s.intCompReg.getLsbD 1 = older

theorem holds_nil (s : State) : Holds s [] where
  newest := fun before newer hseen => by simp at hseen
  older := fun before older newer hseen => by simp at hseen

theorem Holds.step {s : State} {seen : List Bool} (hholds : Holds s seen)
    (isSigned : Bool) {i : Input axisTdataWidth}
    (hvalid : i.sAxisTvalid = true) :
    Holds (step isSigned s i) (seen ++ [intCompWire isSigned i]) := by
  obtain ⟨hnewest, holder⟩ := step_valid isSigned s i hvalid
  constructor
  · intro before newer hseen
    obtain ⟨-, hlast⟩ := List.append_inj' hseen rfl
    rw [hnewest]
    exact List.singleton_inj.mp hlast
  · intro before older newer hseen
    have hsplit : seen ++ [intCompWire isSigned i] =
        (before ++ [older]) ++ [newer] := by
      rw [hseen, List.append_assoc, List.singleton_append]
    rw [holder]
    exact hholds.newest before older (List.append_inj' hsplit rfl).1

section Invariant

variable {isSigned : Bool} {start : State} {input : ℕ → Input axisTdataWidth}

theorem holds_stateAt (cycle : ℕ) :
    Holds (stateAt isSigned start input cycle)
      (comparisons isSigned input cycle) := by
  induction cycle with
  | zero => exact holds_nil start
  | succ cycle ih =>
      rw [comparisons, picked]
      change Holds (step isSigned (stateAt isSigned start input cycle)
        (input cycle)) _
      cases hvalid : (input cycle).sAxisTvalid with
      | true => exact ih.step isSigned hvalid
      | false =>
          rw [step, if_neg (by simp [hvalid]), if_neg Bool.false_ne_true,
            List.append_nil]
          exact ih

/-- What the flag stands for: the edge of the other polarity. -/
theorem trgFlag_eq {cycle : ℕ} {before : List Bool} {older newer : Bool}
    (hvalid : (input cycle).sAxisTvalid = true)
    (hseen : comparisons isSigned input cycle = before ++ [older, newer]) :
    trgFlag (stateAt isSigned start input cycle) (input cycle) =
      edge (!(input cycle).polData) older newer := by
  have hholds : Holds (stateAt isSigned start input cycle)
      (comparisons isSigned input cycle) := holds_stateAt cycle
  have hnewer : (stateAt isSigned start input cycle).intCompReg.getLsbD 0 =
      newer := by
    apply hholds.newest (before ++ [older])
    rw [hseen, List.append_assoc, List.singleton_append]
  rw [trgFlag, hvalid, hnewer, hholds.older before older newer hseen, edge]
  cases (input cycle).polData <;> cases older <;> cases newer <;> rfl

theorem trgFlag_of_gap {cycle : ℕ} (hgap : (input cycle).sAxisTvalid = false) :
    trgFlag (stateAt isSigned start input cycle) (input cycle) = false := by
  rw [trgFlag, hgap]
  rfl

end Invariant

/-- The two polarities agree exactly on samples that do not differ. -/
theorem edge_not_eq_iff (polData older newer : Bool) :
    edge (!polData) older newer = edge polData older newer ↔ older = newer := by
  cases polData <;> cases older <;> cases newer <;> decide

/-- The flag keeps the host's convention exactly in the runs in which no sample
follows an edge. -/
theorem trigger_flagsEdges_iff (isSigned : Bool) (start : State)
    (input : ℕ → Input axisTdataWidth) :
    FlagsEdges isSigned start input ↔ NoEdge isSigned input := by
  constructor
  · intro hflags cycle before older newer hvalid hseen
    have hsense := hflags.sample cycle before older newer hvalid hseen
    rw [trgFlag_eq hvalid hseen] at hsense
    exact (edge_not_eq_iff _ _ _).mp hsense
  · intro hnone
    refine ⟨?_, fun cycle => trgFlag_of_gap⟩
    intro cycle before older newer hvalid hseen
    rw [trgFlag_eq hvalid hseen]
    exact (edge_not_eq_iff _ _ _).mpr
      (hnone cycle before older newer hvalid hseen)

/-- A stream that rises through the level in cycle 1, under `pol_data` 1. -/
def risingStream (cycle : ℕ) : Input 8 where
  polData := true
  mskData := 255#8
  lvlData := 1#8
  sAxisTdata := if cycle = 0 then 0#8 else 1#8
  sAxisTvalid := true

/-- The positive edge is not flagged. -/
theorem trigger_not_flagsEdges_risingStream :
    ¬ FlagsEdges false ⟨0⟩ risingStream := by
  intro hflags
  have hflag := hflags.sample 2 [] false true rfl (by decide)
  exact absurd hflag (by decide)

end Rfsoc.Polarity
