import Rfsoc.Core.Clocked
import Mathlib.Data.List.Basic

/-!
# Framed streams

A stage passes the beats of a valid/ready stream on and marks the last beat of
each packet.  The abstract framer knows one number, the position of the next
beat in its packet.  A stage whose registers show that position marks exactly
the beats whose number, counted from one, is a multiple of the packet length.
-/

namespace Rfsoc.Framing

open Rfsoc.Clocked

variable {State Input Data : Type*}

/-- A clocked stage between two valid/ready channels. -/
structure Stage (State Input Data : Type*) extends Machine State Input where
  inData : Input → Data
  inValid : Input → Bool
  inReady : State → Input → Bool
  outData : State → Input → Data
  outValid : State → Input → Bool
  outReady : Input → Bool
  outLast : State → Bool

namespace Stage

variable (stage : Stage State Input Data) (input : ℕ → Input)

/-- A beat leaves the stage. -/
def beat (s : State) (i : Input) : Bool :=
  stage.outValid s i && stage.outReady i

/-- The beats taken in before a cycle. -/
def accepted : ℕ → List Data :=
  stage.log input fun s i =>
    if stage.inValid i && stage.inReady s i then [stage.inData i] else []

/-- The beats handed on before a cycle, each with its last flag. -/
def transferred : ℕ → List (Data × Bool) :=
  stage.log input fun s i =>
    if stage.beat s i then [(stage.outData s i, stage.outLast s)] else []

end Stage

/-- A framed stream up to a horizon: the beats handed on are those taken in,
those whose number from one is a multiple of the packet length are marked, and
the mark does not change while a beat waits. -/
structure Framed (stage : Stage State Input Data) (packet : ℕ)
    (input : ℕ → Input) (horizon : ℕ) : Prop where
  carried : ∀ cycle ≤ horizon, stage.transferred input cycle =
    (stage.accepted input cycle).mapIdx fun number word =>
      (word, decide ((number + 1) % packet = 0))
  held : PayloadHeld
    (fun cycle => stage.outValid (stage.stateAt input cycle) (input cycle))
    (fun cycle => stage.outReady (input cycle))
    (fun cycle => stage.outLast (stage.stateAt input cycle)) horizon

/-- The position after a cycle with or without a beat. -/
def nextPosition (packet : ℕ) (beat : Bool) (position : ℕ) : ℕ :=
  if beat then if position + 1 = packet then 0 else position + 1 else position

theorem succ_mod_eq {packet : ℕ} (hpacket : 0 < packet) (number : ℕ) :
    (number + 1) % packet =
      if number % packet + 1 = packet then 0 else number % packet + 1 := by
  have hlt := Nat.mod_lt number hpacket
  calc
    (number + 1) % packet = (number % packet + 1) % packet :=
      (Nat.mod_add_mod number packet 1).symm
    _ = if number % packet + 1 = packet then 0 else number % packet + 1 := by
      split
      case isTrue hlast => rw [hlast, Nat.mod_self]
      case isFalse hmore => exact Nat.mod_eq_of_lt (by omega)

/-- Registers that show the position of the next beat, in the cycles that meet
`run`. -/
structure ShowsPosition (stage : Stage State Input Data) (packet : ℕ)
    (run : Input → Prop) (At : State → ℕ → Prop) : Prop where
  start : At stage.start 0
  slave : ∀ s i, (stage.inValid i && stage.inReady s i) = stage.beat s i
  data : ∀ s i, stage.outData s i = stage.inData i
  step : ∀ s i position, run i → At s position →
    At (stage.step s i) (nextPosition packet (stage.beat s i) position)
  last : ∀ s position, At s position →
    stage.outLast s = decide (position + 1 = packet)

namespace ShowsPosition

variable {stage : Stage State Input Data} {packet : ℕ} {run : Input → Prop}
  {At : State → ℕ → Prop} (hshows : ShowsPosition stage packet run At)
include hshows

theorem accepted_succ (input : ℕ → Input) (cycle : ℕ) :
    stage.accepted input (cycle + 1) =
      stage.accepted input cycle ++
        if stage.beat (stage.stateAt input cycle) (input cycle) then
          [stage.inData (input cycle)]
        else [] := by
  rw [← hshows.slave]
  rfl

variable {input : ℕ → Input} {horizon : ℕ}

/-- The position is the number of beats modulo the packet length. -/
theorem stateAt (hpacket : 0 < packet) (hrun : ∀ cycle < horizon, run (input cycle)) :
    ∀ cycle ≤ horizon, At (stage.stateAt input cycle)
      ((stage.accepted input cycle).length % packet) := by
  apply upTo_induction
  · simpa [Stage.accepted] using hshows.start
  · intro cycle hcycle ih
    have hstep := hshows.step _ _ _ (hrun cycle hcycle) ih
    rw [hshows.accepted_succ, Machine.stateAt_succ]
    cases hbeat : stage.beat (stage.stateAt input cycle) (input cycle) with
    | false =>
        rw [hbeat] at hstep
        simpa [nextPosition] using hstep
    | true =>
        rw [hbeat, nextPosition, if_pos rfl, ← succ_mod_eq hpacket] at hstep
        simpa using hstep

/-- The rule: a stage that shows the position frames its stream. -/
theorem framed (hpacket : 0 < packet)
    (hrun : ∀ cycle < horizon, run (input cycle)) :
    Framed stage packet input horizon where
  carried := by
    apply upTo_induction
    · rfl
    · intro cycle hcycle ih
      have hat := hshows.stateAt hpacket hrun cycle hcycle.le
      rw [Stage.transferred, Machine.log_succ, ← Stage.transferred, ih,
        hshows.accepted_succ]
      cases stage.beat (stage.stateAt input cycle) (input cycle) with
      | false => simp
      | true =>
          have hmark : stage.outLast (stage.stateAt input cycle) =
              decide (((stage.accepted input cycle).length + 1) % packet = 0) := by
            rw [hshows.last _ _ hat, succ_mod_eq hpacket, decide_eq_decide]
            split <;> simp_all
          rw [if_pos rfl, if_pos rfl, List.mapIdx_concat, hshows.data, hmark]
  held := by
    intro cycle hcycle hvalid hready
    have hat := hshows.stateAt hpacket hrun cycle hcycle.le
    have hnone : stage.beat (stage.stateAt input cycle) (input cycle) = false :=
      Bool.and_eq_false_imp.mpr fun _ => hready
    have hnext := hshows.step _ _ _ (hrun cycle hcycle) hat
    rw [hnone] at hnext
    calc
      stage.outLast (stage.stateAt input (cycle + 1)) =
          decide ((stage.accepted input cycle).length % packet + 1 = packet) :=
        hshows.last _ _ hnext
      _ = stage.outLast (stage.stateAt input cycle) := (hshows.last _ _ hat).symm

end ShowsPosition

end Rfsoc.Framing
