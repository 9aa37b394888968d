import Rfsoc.Core.Clocked

/-!
# Cores in a larger machine

A block design wires cores together: in every cycle the ports of a core carry
what the rest of the machine puts there.  A core runs inside a machine as it
would alone on what its wires carry, so what has been proved of all its runs
holds of it there.
-/

namespace Rfsoc.Clocked

variable {Whole Part Small Input Ports SmallPorts Event : Type*}

/-- A core of a machine: `registers` finds it in the whole, and `wires` says
what its ports carry in a cycle. -/
structure Component (whole : Machine Whole Input) (part : Machine Part Ports)
    (registers : Whole → Part) (wires : Whole → Input → Ports) : Prop where
  start : registers whole.start = part.start
  step : ∀ s i, registers (whole.step s i) = part.step (registers s) (wires s i)

/-- What the ports of a core carry along a run. -/
def wired (whole : Machine Whole Input) (wires : Whole → Input → Ports)
    (input : ℕ → Input) (cycle : ℕ) : Ports :=
  wires (whole.stateAt input cycle) (input cycle)

namespace Component

variable {whole : Machine Whole Input} {part : Machine Part Ports}
  {small : Machine Small SmallPorts} {registers : Whole → Part}
  {wires : Whole → Input → Ports} {inner : Part → Small}
  {innerWires : Part → Ports → SmallPorts}

/-- A core of a core of a machine is one of its cores. -/
theorem trans (houter : Component whole part registers wires)
    (hinner : Component part small inner innerWires) :
    Component whole small (fun s => inner (registers s))
      (fun s i => innerWires (registers s) (wires s i)) where
  start := by rw [houter.start, hinner.start]
  step := fun s i => by rw [houter.step, hinner.step]

variable (hpart : Component whole part registers wires) (input : ℕ → Input)
include hpart

theorem stateAt (cycle : ℕ) :
    registers (whole.stateAt input cycle) =
      part.stateAt (wired whole wires input) cycle := by
  induction cycle with
  | zero => exact hpart.start
  | succ cycle ih =>
      rw [Machine.stateAt_succ, hpart.step, ih]
      rfl

/-- What a core emits, read off the whole. -/
theorem log (emit : Part → Ports → List Event) (cycle : ℕ) :
    part.log (wired whole wires input) emit cycle =
      whole.log input (fun s i => emit (registers s) (wires s i)) cycle := by
  induction cycle with
  | zero => rfl
  | succ cycle ih =>
      rw [Machine.log_succ, Machine.log_succ, ih, ← hpart.stateAt]
      rfl

end Component

namespace Machine

variable {State : Type*} {machine : Machine State Input} {input : ℕ → Input}

/-- Two observers that see the same in every cycle keep the same log. -/
theorem log_congr {emit observe : State → Input → List Event} {cycle : ℕ}
    (hsame : ∀ earlier < cycle,
      emit (machine.stateAt input earlier) (input earlier) =
        observe (machine.stateAt input earlier) (input earlier)) :
    machine.log input emit cycle = machine.log input observe cycle := by
  induction cycle with
  | zero => rfl
  | succ cycle ih =>
      rw [log_succ, log_succ, hsame cycle (Nat.lt_succ_self cycle)]
      rw [ih fun earlier hearlier => hsame earlier (by omega)]

theorem log_map {Value : Type*} (emit : State → Input → List Event)
    (observe : Event → Value) (cycle : ℕ) :
    (machine.log input emit cycle).map observe =
      machine.log input (fun s i => (emit s i).map observe) cycle := by
  induction cycle with
  | zero => rfl
  | succ cycle ih => rw [log_succ, log_succ, List.map_append, ih]

end Machine

end Rfsoc.Clocked
