import Rfsoc.Core.Clocked

/-!
# Clients of a store

A store serves one request at a time.  Its client chooses, in an order that is not
its own, between moves that concern only itself and requests, and goes on with the
reply to each of them.  This file fixes what such a client does to a store that
serves every request at once, which is what a slower store has to agree with.
-/

namespace Rfsoc.Atomic

variable {Store Request Reply State Choice : Type*}

/-- What a store makes of a request and what it replies. -/
structure Service (Store Request Reply : Type*) where
  serve : Store → Request → Store
  reply : Store → Request → Reply

inductive Action (State Request : Type*) where
  | move (next : State)
  | request (request : Request)

structure Client (State Choice Request Reply : Type*) where
  act : State → Choice → Action State Request
  resume : State → Choice → Reply → State

namespace Client

variable (client : Client State Choice Request Reply)
  (service : Service Store Request Reply)

/-- A choice with a store that serves at once. -/
def atomic (s : Store × State) (choice : Choice) : Store × State :=
  match client.act s.2 choice with
  | .move next => (s.1, next)
  | .request request =>
      (service.serve s.1 request,
        client.resume s.2 choice (service.reply s.1 request))

/-- The store and the client after some choices. -/
def after (start : Store × State) (choices : List Choice) : Store × State :=
  choices.foldl (client.atomic service) start

variable {client service} {s start : Store × State} {choice : Choice}

theorem atomic_of_move {next : State}
    (hact : client.act s.2 choice = .move next) :
    client.atomic service s choice = (s.1, next) := by
  rw [atomic, hact]

theorem atomic_of_request {request : Request}
    (hact : client.act s.2 choice = .request request) :
    client.atomic service s choice = (service.serve s.1 request,
      client.resume s.2 choice (service.reply s.1 request)) := by
  rw [atomic, hact]

theorem after_concat (choices : List Choice) :
    client.after service start (choices ++ [choice]) =
      client.atomic service (client.after service start choices) choice := by
  rw [after, List.foldl_append]
  rfl

/-- What holds at the start and is kept by every choice holds after all. -/
theorem after_induction {motive : Store × State → Prop} (hstart : motive start)
    (hatomic : ∀ s choice, motive s → motive (client.atomic service s choice))
    (choices : List Choice) : motive (client.after service start choices) := by
  induction choices using List.reverseRecOn with
  | nil => exact hstart
  | append_singleton choices choice ih =>
      rw [after_concat]
      exact hatomic _ choice ih

end Client

end Rfsoc.Atomic
