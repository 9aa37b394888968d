import Rfsoc.Core.Signals

/-!
# One-place response channels

A slave with one response flag: a request raises it, a handshake lowers it, and
the data register beside it is loaded by requests only.  The flag can stand for
one owed response, so the channel keeps the books exactly as long as no request
comes while an answer is being refused.  This file counts requests against
answers, compares what they carry, and states that bound.
-/

namespace Rfsoc.ResponseSlot

open Rfsoc.Clocked
open Rfsoc.Signals

variable {Word : Type*}

/-- The cycles in which an answer is taken. -/
def answers (ready valid : ℕ → Bool) (cycle : ℕ) : Bool :=
  valid cycle && ready cycle

/-- Requests are only made while no answer is being refused. -/
def Unblocked (request ready valid : ℕ → Bool) (horizon : ℕ) : Prop :=
  ∀ cycle < horizon,
    request cycle = true → valid cycle = true → ready cycle = true

/-- Requests and answers differ by the answer the flag announces. -/
def Balanced (request ready valid : ℕ → Bool) (horizon : ℕ) : Prop :=
  ∀ cycle ≤ horizon,
    highCycles request cycle =
      highCycles (answers ready valid) cycle + (valid cycle).toNat

/-- Every request has an answer of its own up to a horizon. -/
structure Answered (request ready valid : ℕ → Bool) (word data : ℕ → Word)
    (horizon : ℕ) : Prop where
  /-- No request is left without an answer and no answer without a request. -/
  balanced : Balanced request ready valid horizon
  /-- The answers carry the requested words in the order of the requests. -/
  carried : ∀ cycle ≤ horizon,
    picked (answers ready valid) data cycle <+: picked request word cycle
  /-- A refused answer keeps its word. -/
  held : PayloadHeld valid ready data horizon

/-- A flag that starts lowered, is raised by a request and lowered by a
handshake. -/
structure Flag (request ready valid : ℕ → Bool) (horizon : ℕ) : Prop where
  start : valid 0 = false
  next : ∀ cycle < horizon, valid (cycle + 1) =
    if request cycle then true
    else if ready cycle && valid cycle then false
    else valid cycle

namespace Flag

variable {request ready valid : ℕ → Bool} {horizon : ℕ}
variable (hflag : Flag request ready valid horizon)
include hflag

/-- A request raises the flag whatever the flag was. -/
theorem valid_of_request {cycle : ℕ} (hcycle : cycle < horizon)
    (hrequest : request cycle = true) : valid (cycle + 1) = true := by
  rw [hflag.next cycle hcycle, if_pos hrequest]

/-- One unblocked cycle moves both counts by what the flag has gained. -/
theorem balance_step {cycle : ℕ} (hcycle : cycle < horizon)
    (hopen : request cycle = true → valid cycle = true → ready cycle = true) :
    (valid cycle).toNat + (request cycle).toNat =
      (answers ready valid cycle).toNat + (valid (cycle + 1)).toNat := by
  have hnext := hflag.next cycle hcycle
  unfold answers
  cases hrequest : request cycle <;> cases hvalid : valid cycle <;>
    cases hready : ready cycle <;> simp_all

theorem balanced_of_unblocked
    (hunblocked : Unblocked request ready valid horizon) :
    Balanced request ready valid horizon := by
  refine upTo_induction horizon ?_ ?_
  · simp [hflag.start]
  · intro cycle hcycle ih
    have hstep := hflag.balance_step hcycle (hunblocked cycle hcycle)
    rw [highCycles_succ, highCycles_succ, ih]
    omega

/-- A request on top of a refused answer is never made up for. -/
theorem balanced_iff_unblocked :
    Balanced request ready valid horizon ↔
      Unblocked request ready valid horizon := by
  constructor
  · intro hbalanced cycle hcycle hrequest hvalid
    have hbefore := hbalanced cycle hcycle.le
    have hafter := hbalanced (cycle + 1) hcycle
    rw [highCycles_succ, highCycles_succ,
      hflag.valid_of_request hcycle hrequest, hrequest] at hafter
    rw [hvalid] at hbefore
    cases hready : ready cycle with
    | false =>
        simp only [answers, hvalid, hready, Bool.and_false, Bool.toNat_false,
          Bool.toNat_true] at hbefore hafter
        omega
    | true => rfl
  · exact hflag.balanced_of_unblocked

end Flag

/-- A flag with a data register that requests load. -/
structure Slot (request ready valid : ℕ → Bool) (word data : ℕ → Word)
    (horizon : ℕ) : Prop extends Flag request ready valid horizon where
  load : Enabled data (fun cycle => request cycle = true) word horizon

namespace Slot

variable {request ready valid : ℕ → Bool} {word data : ℕ → Word} {horizon : ℕ}
variable (hslot : Slot request ready valid word data horizon)
include hslot

/-- Between requests the slot hands out what it holds. -/
theorem ledger_step {cycle : ℕ} (hcycle : cycle < horizon)
    (hopen : request cycle = true → valid cycle = true → ready cycle = true) :
    ((if valid cycle then [data cycle] else []) ++
        if request cycle then [word cycle] else []) =
      (if answers ready valid cycle then [data cycle] else []) ++
        if valid (cycle + 1) then [data (cycle + 1)] else [] := by
  have hnext := hslot.next cycle hcycle
  have hload := hslot.load.load cycle hcycle
  have hhold := hslot.load.hold cycle hcycle
  unfold answers
  cases hrequest : request cycle <;> cases hvalid : valid cycle <;>
    cases hready : ready cycle <;> simp_all

/-- The words asked for are the words answered and the one held. -/
theorem picked_request (hunblocked : Unblocked request ready valid horizon) :
    ∀ cycle ≤ horizon, picked request word cycle =
      picked (answers ready valid) data cycle ++
        if valid cycle then [data cycle] else [] := by
  refine upTo_induction horizon ?_ ?_
  · simp [picked, hslot.start]
  · intro cycle hcycle ih
    have hstep := hslot.ledger_step hcycle (hunblocked cycle hcycle)
    calc
      picked request word (cycle + 1) =
          picked (answers ready valid) data cycle ++
            ((if valid cycle then [data cycle] else []) ++
              if request cycle then [word cycle] else []) := by
        rw [picked, ih, List.append_assoc]
      _ = picked (answers ready valid) data (cycle + 1) ++
            if valid (cycle + 1) then [data (cycle + 1)] else [] := by
        rw [hstep, picked, List.append_assoc]

/-- A refused answer is not overwritten when no request comes on top of it. -/
theorem held_of_unblocked (hunblocked : Unblocked request ready valid horizon) :
    PayloadHeld valid ready data horizon := by
  intro cycle hcycle hvalid hready
  apply hslot.load.hold cycle hcycle
  intro hrequest
  have htaken := hunblocked cycle hcycle hrequest hvalid
  rw [hready] at htaken
  exact Bool.false_ne_true htaken

/-- One slot answers every request exactly when it is never asked twice. -/
theorem answered_iff_unblocked :
    Answered request ready valid word data horizon ↔
      Unblocked request ready valid horizon := by
  constructor
  · intro hanswered
    exact hslot.balanced_iff_unblocked.mp hanswered.balanced
  · intro hunblocked
    exact {
      balanced := hslot.balanced_of_unblocked hunblocked
      carried := fun cycle hcycle => by
        rw [hslot.picked_request hunblocked cycle hcycle]
        exact List.prefix_append _ _
      held := hslot.held_of_unblocked hunblocked }

end Slot

end Rfsoc.ResponseSlot
