import Rfsoc.Core.Composition

/-!
# Cores between two streams

A core between two valid/ready streams takes words on one side and hands words
on on the other.  What it computes is a transducer: each word taken in adds a
few words to what the core owes.  A core realizes a transducer when in every
cycle what it owes and what the accepted word adds are what it hands on and what
it owes next.  Two cores in series realize the composition.
-/

namespace Rfsoc.Stream

open Rfsoc.Clocked

variable {Memory Next In Mid Out State Later : Type*}

/-- A function on streams that reads them word by word. -/
structure Transducer (Memory In Out : Type*) where
  next : Memory → In → Memory
  out : Memory → In → List Out

namespace Transducer

variable (first : Transducer Memory In Mid) (second : Transducer Next Mid Out)

/-- The memory after some words. -/
def after (memory : Memory) (words : List In) : Memory :=
  words.foldl first.next memory

/-- What some words give. -/
def run : Memory → List In → List Mid :=
  emitted first.next first.out

@[simp]
theorem after_nil (memory : Memory) : first.after memory [] = memory := rfl

@[simp]
theorem run_nil (memory : Memory) : first.run memory [] = [] := rfl

theorem run_cons (memory : Memory) (word : In) (words : List In) :
    first.run memory (word :: words) =
      first.out memory word ++ first.run (first.next memory word) words := rfl

theorem after_cons (memory : Memory) (word : In) (words : List In) :
    first.after memory (word :: words) =
      first.after (first.next memory word) words := rfl

theorem after_append (memory : Memory) (early late : List In) :
    first.after memory (early ++ late) =
      first.after (first.after memory early) late :=
  List.foldl_append

theorem run_append (memory : Memory) (early late : List In) :
    first.run memory (early ++ late) =
      first.run memory early ++ first.run (first.after memory early) late :=
  emitted_append first.next first.out memory early late

theorem run_singleton (memory : Memory) (word : In) :
    first.run memory [word] = first.out memory word :=
  List.append_nil _

/-- The words of one transducer read by another. -/
def comp : Transducer (Memory × Next) In Out where
  next memory word :=
    (first.next memory.1 word,
      second.after memory.2 (first.out memory.1 word))
  out memory word := second.run memory.2 (first.out memory.1 word)

variable {first second}

theorem after_comp (memory : Memory) (next : Next) (words : List In) :
    (first.comp second).after (memory, next) words =
      (first.after memory words, second.after next (first.run memory words)) := by
  induction words generalizing memory next with
  | nil => rfl
  | cons word words ih =>
      rw [after_cons, run_cons, after_append, after_cons]
      exact ih _ _

/-- The composition computes the composite function. -/
theorem run_comp (memory : Memory) (next : Next) (words : List In) :
    (first.comp second).run (memory, next) words =
      second.run next (first.run memory words) := by
  induction words generalizing memory next with
  | nil => rfl
  | cons word words ih =>
      rw [run_cons, run_cons, run_append]
      exact congrArg (second.run next (first.out memory word) ++ ·) (ih _ _)

end Transducer

/-- The lines of a stream that its source drives. -/
structure Offer (Word : Type*) where
  valid : Bool
  data : Word
  deriving DecidableEq

/-- What both neighbours of a core drive in a cycle. -/
structure Drive (In : Type*) where
  offer : Offer In
  ready : Bool

/-- A core between two streams.  Its offer may depend on the one made to it, and
its being ready on whether its own offer will be taken. -/
structure Core (State In Out : Type*) where
  start : State
  offer : State → Offer In → Offer Out
  ready : State → Bool → Bool
  step : State → Drive In → State

namespace Core

variable (core : Core State In Out)

def machine : Machine State (Drive In) :=
  ⟨core.start, core.step⟩

/-- The word taken in. -/
def acceptedWord (s : State) (i : Drive In) : List In :=
  if i.offer.valid && core.ready s i.ready then [i.offer.data] else []

/-- The word handed on. -/
def transferredWord (s : State) (i : Drive In) : List Out :=
  if (core.offer s i.offer).valid && i.ready then
    [(core.offer s i.offer).data]
  else []

section Run

variable (input : ℕ → Drive In)

def stateAt (cycle : ℕ) : State := core.machine.stateAt input cycle

/-- The words taken in before a cycle. -/
def accepted : ℕ → List In := core.machine.log input core.acceptedWord

/-- The words handed on before a cycle. -/
def transferred : ℕ → List Out := core.machine.log input core.transferredWord

end Run

variable (first : Core State In Mid) (second : Core Later Mid Out)

/-- The lines of the first core. -/
def firstDrive (s : State × Later) (i : Drive In) : Drive In where
  offer := i.offer
  ready := second.ready s.2 i.ready

/-- The lines of the second core. -/
def secondDrive (s : State × Later) (i : Drive In) : Drive Mid where
  offer := first.offer s.1 i.offer
  ready := i.ready

/-- The second core takes what the first one offers. -/
def series : Core (State × Later) In Out where
  start := (first.start, second.start)
  offer s offer := second.offer s.2 (first.offer s.1 offer)
  ready s ready := first.ready s.1 (second.ready s.2 ready)
  step s i := (first.step s.1 (second.firstDrive s i),
    second.step s.2 (first.secondDrive s i))

/-- What the first core hands on is what the second one takes in. -/
theorem link (s : State × Later) (i : Drive In) :
    first.transferredWord s.1 (second.firstDrive s i) =
      second.acceptedWord s.2 (first.secondDrive s i) := rfl

end Core

/-- In the cycles that meet `good`, a core does what a transducer says: `shows`
relates its registers to the memory of the transducer and the words it owes. -/
structure Realizes (core : Core State In Out)
    (transducer : Transducer Memory In Out) (good : State → Drive In → Prop)
    (shows : State → Memory → List Out → Prop) : Prop where
  step : ∀ s i memory owed, good s i → shows s memory owed →
    ∃ owed',
      shows (core.step s i)
        (transducer.after memory (core.acceptedWord s i)) owed' ∧
      owed ++ transducer.run memory (core.acceptedWord s i) =
        core.transferredWord s i ++ owed'

namespace Realizes

variable {core : Core State In Out} {transducer : Transducer Memory In Out}
  {good : State → Drive In → Prop} {shows : State → Memory → List Out → Prop}

/-- Along a run the words handed on and the words owed are what the transducer
makes of the words taken in. -/
theorem ledger (hrealizes : Realizes core transducer good shows)
    {memory : Memory} {owed : List Out} (hstart : shows core.start memory owed)
    {input : ℕ → Drive In} {horizon : ℕ}
    (hgood : ∀ cycle < horizon, good (core.stateAt input cycle) (input cycle)) :
    ∀ cycle ≤ horizon, ∃ owed',
      shows (core.stateAt input cycle)
        (transducer.after memory (core.accepted input cycle)) owed' ∧
      owed ++ transducer.run memory (core.accepted input cycle) =
        core.transferred input cycle ++ owed' := by
  apply upTo_induction
  · exact ⟨owed, hstart, List.append_nil _⟩
  · intro cycle hcycle ih
    obtain ⟨owed', hshows, hledger⟩ := ih
    obtain ⟨owed'', hnext, hstep⟩ :=
      hrealizes.step _ _ _ _ (hgood cycle hcycle) hshows
    rw [Core.accepted, Core.transferred, Machine.log_succ, Machine.log_succ,
      ← Core.accepted, ← Core.transferred, transducer.after_append,
      transducer.run_append]
    refine ⟨owed'', hnext, ?_⟩
    calc
      owed ++ (transducer.run memory (core.accepted input cycle) ++
          transducer.run
            (transducer.after memory (core.accepted input cycle))
            (core.acceptedWord (core.stateAt input cycle) (input cycle))) =
          core.transferred input cycle ++ (owed' ++
            transducer.run
              (transducer.after memory (core.accepted input cycle))
              (core.acceptedWord (core.stateAt input cycle) (input cycle))) := by
        rw [← List.append_assoc, hledger, List.append_assoc]
      _ = core.transferred input cycle ++
          core.transferredWord (core.stateAt input cycle) (input cycle) ++
            owed'' := by
        rw [hstep, List.append_assoc]

end Realizes

/-- The second core still has to read what the first one owes. -/
def seriesShows (second : Transducer Next Mid Out)
    (showsFirst : State → Memory → List Mid → Prop)
    (showsSecond : Later → Next → List Out → Prop) (s : State × Later)
    (memory : Memory × Next) (owed : List Out) : Prop :=
  ∃ owedFirst owedSecond next,
    showsFirst s.1 memory.1 owedFirst ∧ showsSecond s.2 next owedSecond ∧
      memory.2 = second.after next owedFirst ∧
      owed = owedSecond ++ second.run next owedFirst

/-- Cores in series realize the composition of what they realize. -/
theorem Realizes.series {first : Core State In Mid}
    {second : Core Later Mid Out} {early : Transducer Memory In Mid}
    {late : Transducer Next Mid Out} {goodFirst : State → Drive In → Prop}
    {goodSecond : Later → Drive Mid → Prop}
    {showsFirst : State → Memory → List Mid → Prop}
    {showsSecond : Later → Next → List Out → Prop}
    (hfirst : Realizes first early goodFirst showsFirst)
    (hsecond : Realizes second late goodSecond showsSecond) :
    Realizes (first.series second) (early.comp late)
      (fun s i => goodFirst s.1 (second.firstDrive s i) ∧
        goodSecond s.2 (first.secondDrive s i))
      (seriesShows late showsFirst showsSecond) where
  step := by
    rintro s i ⟨memory, _⟩ _ ⟨hgoodFirst, hgoodSecond⟩
      ⟨owedFirst, owedSecond, next, hshowsFirst, hshowsSecond, rfl, rfl⟩
    obtain ⟨owedFirst', hfirstNext, hfirstStep⟩ :=
      hfirst.step _ _ _ _ hgoodFirst hshowsFirst
    obtain ⟨owedSecond', hsecondNext, hsecondStep⟩ :=
      hsecond.step _ _ _ _ hgoodSecond hshowsSecond
    rw [← Core.link] at hsecondNext hsecondStep
    change ∃ owed', seriesShows late showsFirst showsSecond _
      ((early.comp late).after (memory, late.after next owedFirst)
        (first.acceptedWord s.1 (second.firstDrive s i))) owed' ∧
      owedSecond ++ late.run next owedFirst ++
        (early.comp late).run (memory, late.after next owedFirst)
          (first.acceptedWord s.1 (second.firstDrive s i)) =
      second.transferredWord s.2 (first.secondDrive s i) ++ owed'
    generalize first.acceptedWord s.1 (second.firstDrive s i) = words at *
    generalize first.transferredWord s.1 (second.firstDrive s i) = passed at *
    refine ⟨owedSecond' ++ late.run (late.after next passed) owedFirst',
      ⟨owedFirst', owedSecond', late.after next passed, ?_, hsecondNext, ?_,
        rfl⟩, ?_⟩
    · rw [Transducer.after_comp]
      exact hfirstNext
    · rw [Transducer.after_comp]
      change late.after (late.after next owedFirst) (early.run memory words) = _
      rw [← late.after_append, hfirstStep, late.after_append]
    · calc
        owedSecond ++ late.run next owedFirst ++
            (early.comp late).run (memory, late.after next owedFirst) words =
            owedSecond ++ late.run next (owedFirst ++ early.run memory words) := by
          rw [Transducer.run_comp, late.run_append, List.append_assoc]
        _ = owedSecond ++ late.run next passed ++
            late.run (late.after next passed) owedFirst' := by
          rw [hfirstStep, late.run_append, List.append_assoc]
        _ = second.transferredWord s.2 (first.secondDrive s i) ++
            (owedSecond' ++ late.run (late.after next passed) owedFirst') := by
          rw [hsecondStep, List.append_assoc]

end Rfsoc.Stream
