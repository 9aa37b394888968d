import Rfsoc.Core.Atomic

/-!
# Programs, sessions and crashes

A program makes requests to a store, one after the other, and goes on with the
replies.  A session runs one program after the other; each may be killed between
two requests.

What a program does to the store by itself is `run`.  `Keeps` is its triple: the
crash condition holds of the store before and after every request, so wherever the
program is killed, and the postcondition when it has come to its end.
-/

namespace Rfsoc.Sessions

open Rfsoc.Atomic
open Rfsoc.Clocked

inductive Program (Request Reply : Type*) where
  | done
  | ask (request : Request) (next : Reply → Program Request Reply)

variable {Store Request Reply Line : Type*}

namespace Program

instance (program : Program Request Reply) : Decidable (program = done) :=
  match program with
  | done => isTrue rfl
  | ask _ _ => isFalse (fun hdone => by cases hdone)

/-- The first program and then the second. -/
def andThen :
    Program Request Reply → Program Request Reply → Program Request Reply
  | done, second => second
  | ask request next, second =>
      ask request fun reply => (next reply).andThen second

/-- Every request that the program can make. -/
def All (property : Request → Prop) : Program Request Reply → Prop
  | done => True
  | ask request next => property request ∧ ∀ reply, (next reply).All property

theorem All.andThen {property : Request → Prop}
    {first second : Program Request Reply} (hfirst : first.All property)
    (hsecond : second.All property) : (first.andThen second).All property := by
  induction first with
  | done => exact hsecond
  | ask request next ih =>
      exact ⟨hfirst.1, fun reply => ih reply (hfirst.2 reply)⟩

section Run

variable (service : Service Store Request Reply)

/-- The store when the program has come to its end. -/
def run : Program Request Reply → Store → Store
  | done, store => store
  | ask request next, store =>
      (next (service.reply store request)).run (service.serve store request)

/-- The program's triple from a store: a crash condition and a postcondition. -/
def Keeps (crash post : Store → Prop) : Program Request Reply → Store → Prop
  | done, store => crash store ∧ post store
  | ask request next, store =>
      crash store ∧ (next (service.reply store request)).Keeps crash post
        (service.serve store request)

end Run

namespace Keeps

variable {service : Service Store Request Reply}
  {crash post middle : Store → Prop} {program first : Program Request Reply}
  {store : Store}

theorem now (hkeeps : program.Keeps service crash post store) :
    crash store := by
  cases program with
  | done => exact hkeeps.1
  | ask request next => exact hkeeps.1

theorem run (hkeeps : program.Keeps service crash post store) :
    post (program.run service store) := by
  induction program generalizing store with
  | done => exact hkeeps.2
  | ask request next ih => exact ih _ hkeeps.2

/-- The crash condition is a postcondition too. -/
theorem closed (hkeeps : program.Keeps service crash post store) :
    program.Keeps service crash crash store := by
  induction program generalizing store with
  | done => exact ⟨hkeeps.1, hkeeps.1⟩
  | ask request next ih => exact ⟨hkeeps.1, ih _ hkeeps.2⟩

theorem mono {weaker : Store → Prop}
    (hkeeps : program.Keeps service crash post store)
    (hpost : ∀ store, post store → weaker store) :
    program.Keeps service crash weaker store := by
  induction program generalizing store with
  | done => exact ⟨hkeeps.1, hpost store hkeeps.2⟩
  | ask request next ih => exact ⟨hkeeps.1, ih _ hkeeps.2⟩

theorem andThen {second : Program Request Reply}
    (hfirst : first.Keeps service crash middle store)
    (hsecond : ∀ store, middle store → second.Keeps service crash post store) :
    (first.andThen second).Keeps service crash post store := by
  induction first generalizing store with
  | done => exact hsecond store hfirst.2
  | ask request next ih => exact ⟨hfirst.1, ih _ hfirst.2⟩

end Keeps

end Program

inductive Choice (Line : Type*) where
  | start (line : Line)
  | next
  | kill
  deriving DecidableEq

section Sessions

variable (main : Line → Program Request Reply)

/-- One program at a time: a line starts its program when no other runs. -/
def sessions :
    Client (Program Request Reply) (Choice Line) Request Reply where
  act := fun program choice =>
    match choice, program with
    | .start line, .done => .move (main line)
    | .next, .ask request _ => .request request
    | .kill, _ => .move .done
    | _, other => .move other
  resume := fun program _ reply =>
    match program with
    | .done => .done
    | .ask _ next => next reply

/-- The line that a choice starts. -/
def startedLine (s : Store × Program Request Reply) (choice : Choice Line) :
    List Line :=
  match choice, s.2 with
  | .start line, .done => [line]
  | _, _ => []

variable (service : Service Store Request Reply)

/-- The lines that some choices have started. -/
def started (start : Store) (choices : List (Choice Line)) : List Line :=
  emitted ((sessions main).atomic service) startedLine (start, .done) choices

variable {main service} {start : Store}

theorem started_concat (choices : List (Choice Line)) (choice : Choice Line) :
    started main service start (choices ++ [choice]) =
      started main service start choices ++
        startedLine ((sessions main).after service (start, .done) choices)
          choice := by
  rw [started, emitted_append, ← started, Client.after]
  exact congrArg (_ ++ ·) (List.append_nil _)

/-- The requests of a session are requests of its programs. -/
theorem sessions_request {property : Request → Prop}
    (hmain : ∀ line, (main line).All property) {choices : List (Choice Line)}
    {choice : Choice Line} {request : Request}
    (hact : (sessions main).act
      ((sessions main).after service (start, .done) choices).2 choice =
        .request request) : property request := by
  have hall : ((sessions main).after service (start, .done) choices).2.All
      property := by
    apply Client.after_induction
      (motive := fun s : Store × Program Request Reply => s.2.All property)
    · trivial
    · rintro ⟨store, program⟩ choice hprogram
      cases choice with
      | start line =>
          cases program with
          | done => exact hmain line
          | ask request next => exact hprogram
      | next =>
          cases program with
          | done => trivial
          | ask request next => exact hprogram.2 _
      | kill => trivial
  revert hact hall
  generalize ((sessions main).after service (start, .done) choices).2 = program
  intro hact hall
  cases choice with
  | start line => cases program <;> cases hact
  | next =>
      cases program with
      | done => cases hact
      | ask request next =>
          obtain rfl := Action.request.inj hact
          exact hall.1
  | kill => cases hact

/-- What every program keeps up to a crash holds in every session, killed or
not. -/
theorem sessions_keep {holds : List Line → Store → Prop}
    (hstart : holds [] start)
    (hmain : ∀ lines line store, holds lines store →
      (main line).Keeps service (holds (lines ++ [line]))
        (holds (lines ++ [line])) store)
    (choices : List (Choice Line)) :
    holds (started main service start choices)
      ((sessions main).after service (start, .done) choices).1 := by
  suffices hkeeps :
      ((sessions main).after service (start, .done) choices).2.Keeps service
        (holds (started main service start choices))
        (holds (started main service start choices))
        ((sessions main).after service (start, .done) choices).1 from hkeeps.now
  induction choices using List.reverseRecOn with
  | nil => exact ⟨hstart, hstart⟩
  | append_singleton choices choice ih =>
      rw [started_concat, Client.after_concat]
      revert ih
      generalize (sessions main).after service (start, .done) choices = s
      generalize started main service start choices = lines
      obtain ⟨store, program⟩ := s
      intro ih
      cases choice with
      | start line =>
          cases program with
          | done => exact hmain lines line store ih.1
          | ask request next =>
              simp only [startedLine, List.append_nil]
              exact ih
      | next =>
          simp only [startedLine, List.append_nil]
          cases program with
          | done => exact ih
          | ask request next => exact ih.2
      | kill =>
          simp only [startedLine, List.append_nil]
          exact ⟨ih.now, ih.now⟩

/-- Without kills the store is as if the lines so far were run one by one, but for
the rest of the last one. -/
theorem run_sessions (choices : List (Choice Line))
    (hkill : Choice.kill ∉ choices) :
    ((sessions main).after service (start, .done) choices).2.run service
        ((sessions main).after service (start, .done) choices).1 =
      (started main service start choices).foldl
        (fun store line => (main line).run service store) start := by
  induction choices using List.reverseRecOn with
  | nil => rfl
  | append_singleton choices choice ih =>
      have hbefore := ih fun hmem => hkill (List.mem_append_left _ hmem)
      rw [started_concat, Client.after_concat, List.foldl_append, ← hbefore]
      generalize (sessions main).after service (start, .done) choices = s
      obtain ⟨store, program⟩ := s
      cases choice with
      | start line => cases program <;> rfl
      | next => cases program <;> rfl
      | kill =>
          exact absurd
            (List.mem_append_right choices (List.mem_singleton_self Choice.kill))
            hkill

end Sessions

end Rfsoc.Sessions
