import Mathlib.Data.List.Basic
import Mathlib.Data.Nat.Count

/-!
# Clocked runs

A synchronous core is a set of registers that moves once per clock edge.  This
file fixes what a run is (one input per cycle, the registers as they stand in
that cycle), what a run has emitted before a cycle, and the two rules every
later proof uses: an invariant of one step is an invariant of the run, and a
relation between the registers and the log of one step holds along the run.
-/

namespace Rfsoc.Clocked

variable {State Input Event : Type*}

/-- Registers with their value at the first cycle and the clock edge. -/
structure Machine (State Input : Type*) where
  start : State
  step : State → Input → State

namespace Machine

variable (machine : Machine State Input) (input : ℕ → Input)

/-- The registers as they stand in a cycle. -/
def stateAt : ℕ → State
  | 0 => machine.start
  | cycle + 1 => machine.step (stateAt cycle) (input cycle)

/-- Everything emitted in the cycles before the given one, oldest first. -/
def log (emit : State → Input → List Event) : ℕ → List Event
  | 0 => []
  | cycle + 1 =>
      log emit cycle ++ emit (machine.stateAt input cycle) (input cycle)

@[simp]
theorem stateAt_zero : machine.stateAt input 0 = machine.start := rfl

theorem stateAt_succ (cycle : ℕ) :
    machine.stateAt input (cycle + 1) =
      machine.step (machine.stateAt input cycle) (input cycle) := rfl

@[simp]
theorem log_zero (emit : State → Input → List Event) :
    machine.log input emit 0 = [] := rfl

theorem log_succ (emit : State → Input → List Event) (cycle : ℕ) :
    machine.log input emit (cycle + 1) =
      machine.log input emit cycle ++
        emit (machine.stateAt input cycle) (input cycle) := rfl

end Machine

/-- Induction on the cycle up to a horizon: the assumptions about the
environment are only needed in the cycles before the horizon. -/
theorem upTo_induction {motive : ℕ → Prop} (horizon : ℕ) (hzero : motive 0)
    (hsucc : ∀ cycle < horizon, motive cycle → motive (cycle + 1)) :
    ∀ cycle ≤ horizon, motive cycle := by
  intro cycle
  induction cycle with
  | zero => exact fun _ => hzero
  | succ cycle ih =>
      intro hle
      exact hsucc cycle (by omega) (ih (by omega))

namespace Machine

variable {machine : Machine State Input} {input : ℕ → Input}

/-- The rest of a run is a run from where it stands. -/
theorem stateAt_add (early cycle : ℕ) :
    machine.stateAt input (early + cycle) =
      (Machine.mk (machine.stateAt input early) machine.step).stateAt
        (fun later => input (early + later)) cycle := by
  induction cycle with
  | zero => rfl
  | succ cycle ih => rw [← Nat.add_assoc, stateAt_succ, ih, stateAt_succ]

theorem log_isPrefix (emit : State → Input → List Event) {early late : ℕ}
    (hle : early ≤ late) :
    machine.log input emit early <+: machine.log input emit late := by
  induction late, hle using Nat.le_induction with
  | base => exact List.prefix_rfl
  | succ late _ ih => exact ih.trans (List.prefix_append _ _)

theorem mem_log_iff (emit : State → Input → List Event) (cycle : ℕ)
    (event : Event) :
    event ∈ machine.log input emit cycle ↔
      ∃ earlier < cycle,
        event ∈ emit (machine.stateAt input earlier) (input earlier) := by
  induction cycle with
  | zero => simp
  | succ cycle ih =>
      rw [log_succ, List.mem_append, ih, Nat.exists_lt_succ_right]

/-- A log that grows by at most one event a cycle is an enumeration exactly when
every event is the one of its place, as far as it is observed. -/
theorem log_map_eq_iff {Value : Type*} {emit : State → Input → List Event}
    (hone : ∀ s i, (emit s i).length ≤ 1) (observe : Event → Value)
    (expected : ℕ → Value) (horizon : ℕ) :
    (machine.log input emit horizon).map observe =
        (List.range (machine.log input emit horizon).length).map expected ↔
      ∀ cycle < horizon,
        ∀ event ∈ emit (machine.stateAt input cycle) (input cycle),
          observe event = expected (machine.log input emit cycle).length := by
  induction horizon with
  | zero => simp
  | succ horizon ih =>
      rw [Nat.forall_lt_succ_right, ← ih, log_succ]
      have hlast := hone (machine.stateAt input horizon) (input horizon)
      cases hemit : emit (machine.stateAt input horizon) (input horizon) with
      | nil => simp
      | cons event rest =>
          obtain rfl : rest = [] := by
            rw [hemit] at hlast
            simpa using hlast
          rw [List.map_append, List.length_append, List.length_singleton,
            List.range_succ, List.map_append, List.map_singleton,
            List.map_singleton]
          constructor
          · intro heq
            obtain ⟨hbefore, hevent⟩ := List.append_inj' heq rfl
            refine ⟨hbefore, fun other hother => ?_⟩
            rw [List.mem_singleton.mp hother]
            exact List.singleton_inj.mp hevent
          · rintro ⟨hbefore, hevent⟩
            rw [hbefore, hevent event (List.mem_singleton_self event)]

theorem log_eq_iff {emit : State → Input → List Event}
    (hone : ∀ s i, (emit s i).length ≤ 1) (expected : ℕ → Event)
    (horizon : ℕ) :
    machine.log input emit horizon =
        (List.range (machine.log input emit horizon).length).map expected ↔
      ∀ cycle < horizon,
        ∀ event ∈ emit (machine.stateAt input cycle) (input cycle),
          event = expected (machine.log input emit cycle).length := by
  refine Iff.trans ?_ (log_map_eq_iff hone id expected horizon)
  rw [List.map_id]

end Machine

section Script

/-- A run that plays a list of inputs and then repeats one. -/
def played (inputs : List Input) (rest : Input) (cycle : ℕ) : Input :=
  inputs.getD cycle rest

/-- What a list of inputs makes a machine emit from a state. -/
def emitted (step : State → Input → State) (emit : State → Input → List Event) :
    State → List Input → List Event
  | _, [] => []
  | state, input :: inputs =>
      emit state input ++ emitted step emit (step state input) inputs

theorem emitted_append (step : State → Input → State)
    (emit : State → Input → List Event) (state : State)
    (early late : List Input) :
    emitted step emit state (early ++ late) =
      emitted step emit state early ++
        emitted step emit (early.foldl step state) late := by
  induction early generalizing state with
  | nil => rfl
  | cons input early ih =>
      rw [List.cons_append, emitted, emitted, ih, List.append_assoc]
      rfl

namespace Machine

variable (machine : Machine State Input)

theorem stateAt_played (early late : List Input) (rest : Input) :
    machine.stateAt (played (early ++ late) rest) early.length =
      early.foldl machine.step machine.start := by
  induction early using List.reverseRecOn generalizing late with
  | nil => rfl
  | append_singleton early input ih =>
      have hinput : played (early ++ [input] ++ late) rest early.length =
          input := by
        simp [played]
      rw [List.length_append, List.length_singleton, stateAt_succ, hinput,
        List.append_assoc, ih, List.foldl_append]
      rfl

theorem log_played (emit : State → Input → List Event)
    (early late : List Input) (rest : Input) :
    machine.log (played (early ++ late) rest) emit early.length =
      emitted machine.step emit machine.start early := by
  induction early using List.reverseRecOn generalizing late with
  | nil => rfl
  | append_singleton early input ih =>
      have hinput : played (early ++ [input] ++ late) rest early.length =
          input := by
        simp [played]
      rw [List.length_append, List.length_singleton, log_succ, hinput,
        List.append_assoc, ih, stateAt_played, emitted_append]
      simp [emitted]

end Machine

/-- Something holds in a state and after each input of a list. -/
def Throughout (step : State → Input → State) (holds : State → Prop)
    (state : State) (inputs : List Input) : Prop :=
  ∀ early, early <+: inputs → holds (early.foldl step state)

namespace Throughout

variable {step : State → Input → State} {holds : State → Prop} {state : State}
  {inputs : List Input}

theorem append {early late : List Input}
    (hearly : Throughout step holds state early)
    (hlate : Throughout step holds (early.foldl step state) late) :
    Throughout step holds state (early ++ late) := by
  intro first hfirst
  obtain hinside | ⟨rest, rfl⟩ :=
    List.prefix_or_prefix_of_prefix hfirst (List.prefix_append early late)
  · exact hearly first hinside
  · rw [List.foldl_append]
    exact hlate rest ((List.prefix_append_right_inj early).mp hfirst)

theorem cons {input : Input} (hstart : holds state)
    (hrest : Throughout step holds (step state input) inputs) :
    Throughout step holds state (input :: inputs) := by
  intro early hearly
  cases early with
  | nil => exact hstart
  | cons first early =>
      obtain ⟨rfl, hlater⟩ := List.cons_prefix_cons.mp hearly
      exact hrest early hlater

/-- What every input of the list preserves holds throughout. -/
theorem of_step (hstart : holds state)
    (hstep : ∀ input ∈ inputs, ∀ s, holds s → holds (step s input)) :
    Throughout step holds state inputs := by
  rintro early ⟨late, rfl⟩
  induction early using List.reverseRecOn generalizing late with
  | nil => exact hstart
  | append_singleton early input ih =>
      rw [List.foldl_append]
      refine hstep input (by simp) _ (ih ([input] ++ late) ?_)
      simpa using hstep

/-- What holds throughout a script holds in the run that plays it. -/
theorem stateAt {machine : Machine State Input}
    (hall : Throughout machine.step holds machine.start inputs) (rest : Input) :
    ∀ cycle ≤ inputs.length,
      holds (machine.stateAt (played inputs rest) cycle) := by
  intro cycle hcycle
  have hsplit := List.take_append_drop cycle inputs
  have hlength : (inputs.take cycle).length = cycle := by simpa using hcycle
  have hstate := machine.stateAt_played (inputs.take cycle) (inputs.drop cycle)
    rest
  rw [hsplit, hlength] at hstate
  rw [hstate]
  exact hall _ (List.take_prefix cycle inputs)

end Throughout

end Script

section Phases

/-- A run that keeps one input for some cycles, then another, and at last the
rest. -/
def phased : List (ℕ × Input) → Input → ℕ → Input
  | [], rest, _ => rest
  | (length, input) :: phases, rest, cycle =>
      if cycle < length then input else phased phases rest (cycle - length)

/-- From a cycle on a run goes through some phases. -/
def GoesThrough (run : ℕ → Input) (early : ℕ) (phases : List (ℕ × Input))
    (rest : Input) : Prop :=
  ∀ cycle, run (early + cycle) = phased phases rest cycle

namespace GoesThrough

variable {run : ℕ → Input} {early length : ℕ} {input rest : Input}
  {phases : List (ℕ × Input)}
  (hrun : GoesThrough run early ((length, input) :: phases) rest)
include hrun

theorem head : ∀ cycle < length, run (early + cycle) = input := by
  intro cycle hcycle
  rw [hrun cycle, phased, if_pos hcycle]

theorem tail : GoesThrough run (early + length) phases rest := by
  intro cycle
  rw [Nat.add_assoc, hrun (length + cycle), phased,
    if_neg (Nat.not_lt.mpr (Nat.le_add_right length cycle)),
    Nat.add_sub_cancel_left]

end GoesThrough

/-- What holds in a phase and after it holds from its beginning on. -/
theorem forall_of_phase {motive : ℕ → Prop} {early length : ℕ}
    (hhead : ∀ k < length, motive (early + k))
    (htail : ∀ k, motive (early + length + k)) (k : ℕ) : motive (early + k) := by
  by_cases hk : k < length
  · exact hhead k hk
  · obtain ⟨later, rfl⟩ := Nat.exists_eq_add_of_le (not_lt.mp hk)
    rw [← Nat.add_assoc]
    exact htail later

end Phases

section Feedback

namespace Machine

variable (machine : Machine State Input) (choose : ℕ → State → Input)

/-- The registers of a run whose inputs are chosen from the registers. -/
def chosenState : ℕ → State
  | 0 => machine.start
  | cycle + 1 =>
      machine.step (chosenState cycle) (choose cycle (chosenState cycle))

/-- Inputs that are chosen, cycle by cycle, from the registers as they stand. -/
def chosen (cycle : ℕ) : Input :=
  choose cycle (machine.chosenState choose cycle)

theorem stateAt_chosen (cycle : ℕ) :
    machine.stateAt (machine.chosen choose) cycle =
      machine.chosenState choose cycle := by
  induction cycle with
  | zero => rfl
  | succ cycle ih =>
      rw [stateAt_succ, ih]
      rfl

theorem chosen_eq (cycle : ℕ) :
    machine.chosen choose cycle =
      choose cycle (machine.stateAt (machine.chosen choose) cycle) := by
  rw [stateAt_chosen]
  rfl

/-- What such a run emits. -/
def chosenLog (emit : State → Input → List Event) : ℕ → List Event
  | 0 => []
  | cycle + 1 =>
      chosenLog emit cycle ++
        emit (machine.chosenState choose cycle) (machine.chosen choose cycle)

theorem log_chosen (emit : State → Input → List Event) (cycle : ℕ) :
    machine.log (machine.chosen choose) emit cycle =
      machine.chosenLog choose emit cycle := by
  induction cycle with
  | zero => rfl
  | succ cycle ih =>
      rw [log_succ, ih, stateAt_chosen]
      rfl

end Machine

end Feedback

section Register

variable {Value : Type*}

/-- A register with a clock enable: it takes the data in an enabled cycle and
keeps its value in every other one. -/
structure Enabled (value : ℕ → Value) (enable : ℕ → Prop)
    (data : ℕ → Value) (horizon : ℕ) : Prop where
  load : ∀ cycle < horizon, enable cycle → value (cycle + 1) = data cycle
  hold : ∀ cycle < horizon, ¬ enable cycle → value (cycle + 1) = value cycle

namespace Enabled

variable {value : ℕ → Value} {enable : ℕ → Prop} {data : ℕ → Value}
  {horizon : ℕ}

/-- A next value that chooses between the data and the old value. -/
theorem of_next [DecidablePred enable]
    (hnext : ∀ cycle < horizon, value (cycle + 1) =
      if enable cycle then data cycle else value cycle) :
    Enabled value enable data horizon where
  load := fun cycle hcycle hwrite => (hnext cycle hcycle).trans (if_pos hwrite)
  hold := fun cycle hcycle hkeep => (hnext cycle hcycle).trans (if_neg hkeep)

variable (henabled : Enabled value enable data horizon)
include henabled

/-- Without an enabled cycle the value stays. -/
theorem eq_of_quiet {early late : ℕ} (hle : early ≤ late)
    (hlate : late ≤ horizon)
    (hquiet : ∀ between, early ≤ between → between < late → ¬ enable between) :
    value late = value early := by
  induction late, hle using Nat.le_induction with
  | base => rfl
  | succ late hle ih =>
      rw [henabled.hold late hlate (hquiet late hle (Nat.lt_succ_self late))]
      exact ih (by omega) fun between hlow hhigh =>
        hquiet between hlow (by omega)

/-- The value is the data of the latest enabled cycle. -/
theorem eq_of_latest {write late : ℕ} (hlt : write < late)
    (hlate : late ≤ horizon) (hwrite : enable write)
    (hlatest : ∀ between, write < between → between < late →
      ¬ enable between) :
    value late = data write :=
  (henabled.eq_of_quiet hlt hlate hlatest).trans
    (henabled.load write (by omega) hwrite)

end Enabled

end Register

section Channel

variable {Payload : Type*}

/-- A valid/ready channel keeps its payload while an offer is refused. -/
def PayloadHeld (valid ready : ℕ → Bool) (payload : ℕ → Payload)
    (horizon : ℕ) : Prop :=
  ∀ cycle < horizon, valid cycle = true → ready cycle = false →
    payload (cycle + 1) = payload cycle

/-- A valid/ready channel withdraws and changes no refused offer. -/
def OfferHeld (valid ready : ℕ → Bool) (payload : ℕ → Payload)
    (horizon : ℕ) : Prop :=
  ∀ cycle < horizon, valid cycle = true → ready cycle = false →
    valid (cycle + 1) = true ∧ payload (cycle + 1) = payload cycle

end Channel

end Rfsoc.Clocked
