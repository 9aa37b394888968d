import Rfsoc.Core.Clocked
import Mathlib.Logic.Function.Basic

/-!
# The block server

`adc-test-server.c` runs two processes against the RAM writer.  The child polls
the writer's position and copies one half of the ring after the other into the
same half of a shared buffer, putting a token into a pipe after each; the parent
takes a token and sends the next half, and on a failed send closes the socket,
resets the writer and accepts the next client.  `dac_player/adc-recorder.c` has
the same child and a parent that writes the halves to a file.

A turn is one step of the writer, the child or the parent, so a run is an
interleaving.  `memcpy` and `send` go word by word, sizes and offsets are counted
in the writer's 64-bit words, and the signal that ends the program is left out.
-/

namespace Rfsoc.BlockServer

open Rfsoc.Clocked

/-- `512*1024`, and the words of `4096*1024` bytes. -/
def halfWords : ℕ := 512 * 1024

/-- The words of the ring, and of the shared buffer. -/
def ringWords : ℕ := 2 * halfWords

/-- The child: about to read the position, about to test it, or in `memcpy`
(and, when every word is copied, about to put the token). -/
inductive ChildPhase where
  | poll
  | test (position : ℕ)
  | copy (offset done : ℕ)

/-- The parent: about to enter reset mode, in `accept`, about to enter normal
operating mode, about to take a token for the half at `offset`, or in `send`
with `done` words of that half sent. -/
inductive ParentPhase where
  | reset
  | accept
  | enable
  | take (offset : ℕ)
  | send (offset done : ℕ)

/-- The writer, the two processes and what they share.  `acquisition` numbers
the times the writer has been enabled, and `client` is what has gone to the
current socket. -/
structure State (Word : Type*) where
  enabled : Bool
  acquisition : ℕ
  written : ℕ
  ram : ℕ → Word
  limit : ℕ
  child : ChildPhase
  buf : ℕ → Word
  pipe : ℕ
  parent : ParentPhase
  client : List Word

/-- One step of one of the three; `sendOk` is the outcome of a `send`. -/
inductive Turn where
  | writer
  | child
  | parent (sendOk : Bool)
  deriving DecidableEq

variable {Word : Type*} (word : ℕ → ℕ → Word)

/-- The status word: the position wraps at the end of the ring. -/
def position (s : State Word) : ℕ := s.written % ringWords

/-- Word `written` of the acquisition goes to its slot; a writer in reset stays
at the start. -/
def writerStep (s : State Word) : State Word :=
  if s.enabled then
    { s with
      ram := Function.update s.ram (position s) (word s.acquisition s.written)
      written := s.written + 1 }
  else s

/-- `(limit > 0 && position > limit) || (limit == 0 && position < 512*1024)` -/
def ready (limit position : ℕ) : Bool :=
  (limit > 0 && position > limit) || (limit == 0 && position < halfWords)

def childStep (s : State Word) : State Word :=
  match s.child with
  | .poll => { s with child := .test (position s) }
  | .test position =>
      if ready s.limit position then
        { s with
          child := .copy (if s.limit > 0 then 0 else halfWords) 0
          limit := if s.limit > 0 then 0 else halfWords }
      else { s with child := .poll }
  | .copy offset done =>
      if done < halfWords then
        { s with
          buf := Function.update s.buf (offset + done) (s.ram (offset + done))
          child := .copy offset (done + 1) }
      else { s with pipe := s.pipe + 1, child := .poll }

/-- The other half: the loop has one `read` and one `send` for each. -/
def nextOffset (offset : ℕ) : ℕ := if offset = 0 then halfWords else 0

def parentStep (sendOk : Bool) (s : State Word) : State Word :=
  match s.parent with
  | .reset => { s with enabled := false, written := 0, parent := .accept }
  | .accept => { s with client := [], parent := .enable }
  | .enable =>
      { s with
        enabled := true
        acquisition := s.acquisition + 1
        parent := .take 0 }
  | .take offset =>
      if s.pipe = 0 then s
      else { s with pipe := s.pipe - 1, parent := .send offset 0 }
  | .send offset done =>
      if sendOk then
        if done < halfWords then
          { s with
            client := s.client ++ [s.buf (offset + done)]
            parent := .send offset (done + 1) }
        else { s with parent := .take (nextOffset offset) }
      else { s with parent := .reset }

def step (s : State Word) : Turn → State Word
  | .writer => writerStep word s
  | .child => childStep s
  | .parent sendOk => parentStep sendOk s

/-- The program before its first connection. -/
def booted (ram buf : ℕ → Word) : State Word where
  enabled := false
  acquisition := 0
  written := 0
  ram := ram
  limit := halfWords
  child := .poll
  buf := buf
  pipe := 0
  parent := .reset
  client := []

/-- The program once the parent has entered normal operating mode for the first
time, with the child at the head of its loop. -/
def opened (ram buf : ℕ → Word) : State Word where
  enabled := true
  acquisition := 1
  written := 0
  ram := ram
  limit := halfWords
  child := .poll
  buf := buf
  pipe := 0
  parent := .take 0
  client := []

/-- The server from any state. -/
def server (start : State Word) : Machine (State Word) Turn :=
  ⟨start, step word⟩

/-- The first words of an acquisition. -/
def stream (acquisition count : ℕ) : List Word :=
  (List.range count).map (word acquisition)

/-- A `memcpy` step: the word it copies. -/
def copyEvent (s : State Word) (turn : Turn) : List Word :=
  match turn, s.child with
  | .child, .copy offset done =>
      if done < halfWords then [s.ram (offset + done)] else []
  | _, _ => []

/-- The start of an iteration of the child's loop. -/
def polls (s : State Word) (turn : Turn) : Bool :=
  match turn, s.child with
  | .child, .poll => true
  | _, _ => false

/-- The end of a copy: the token goes into the pipe. -/
def tokenEvent (s : State Word) (turn : Turn) : List Unit :=
  match turn, s.child with
  | .child, .copy _ done => if done < halfWords then [] else [()]
  | _, _ => []

/-- A `send` step: the word it takes from the shared buffer. -/
def sends (s : State Word) (turn : Turn) : Bool :=
  match turn, s.parent with
  | .parent true, .send _ done => done < halfWords
  | _, _ => false

/-- Block `k` of a stream of words. -/
def block (k : ℕ) (words : List Word) : List Word :=
  (words.drop (k * halfWords)).take halfWords

/-- Waiting for the first half: the position has to be past the limit. -/
theorem ready_halfWords (place : ℕ) :
    ready halfWords place = decide (halfWords < place) := by
  have hpos : 0 < halfWords := by decide
  simp [ready, hpos, hpos.ne']

/-- Waiting for the second half: the position has to have wrapped. -/
theorem ready_zero (place : ℕ) : ready 0 place = decide (place < halfWords) := by
  simp [ready]

section Child

variable {word} {s : State Word} {offset done place : ℕ}

theorem childStep_poll (hchild : s.child = .poll) :
    childStep s = { s with child := .test (position s) } := by
  rw [childStep, hchild]

theorem childStep_of_ready (hchild : s.child = .test place)
    (hready : ready s.limit place = true) :
    childStep s =
      { s with
        child := .copy (if s.limit > 0 then 0 else halfWords) 0
        limit := if s.limit > 0 then 0 else halfWords } := by
  simp only [childStep, hchild, hready, if_true]

theorem childStep_of_not_ready (hchild : s.child = .test place)
    (hready : ready s.limit place = false) :
    childStep s = { s with child := .poll } := by
  simp only [childStep, hchild, hready, Bool.false_eq_true, if_false]

theorem childStep_copy (hchild : s.child = .copy offset done)
    (hdone : done < halfWords) :
    childStep s =
      { s with
        buf := Function.update s.buf (offset + done) (s.ram (offset + done))
        child := .copy offset (done + 1) } := by
  simp only [childStep, hchild, hdone, if_true]

theorem childStep_token (hchild : s.child = .copy offset done)
    (hdone : ¬ done < halfWords) :
    childStep s = { s with pipe := s.pipe + 1, child := .poll } := by
  simp only [childStep, hchild, hdone, if_false]

end Child

section Parent

variable {s : State Word} {offset done : ℕ}

theorem parentStep_reset (sendOk : Bool) (hparent : s.parent = .reset) :
    parentStep sendOk s =
      { s with enabled := false, written := 0, parent := .accept } := by
  rw [parentStep, hparent]

theorem parentStep_accept (sendOk : Bool) (hparent : s.parent = .accept) :
    parentStep sendOk s = { s with client := [], parent := .enable } := by
  rw [parentStep, hparent]

theorem parentStep_enable (sendOk : Bool) (hparent : s.parent = .enable) :
    parentStep sendOk s =
      { s with
        enabled := true
        acquisition := s.acquisition + 1
        parent := .take 0 } := by
  rw [parentStep, hparent]

theorem parentStep_fail (hparent : s.parent = .send offset done) :
    parentStep false s = { s with parent := .reset } := by
  simp only [parentStep, hparent, Bool.false_eq_true, if_false]

theorem parentStep_wait (hparent : s.parent = .take offset)
    (hpipe : s.pipe = 0) : parentStep true s = s := by
  simp only [parentStep, hparent, hpipe, if_true]

theorem parentStep_take (hparent : s.parent = .take offset)
    (hpipe : s.pipe ≠ 0) :
    parentStep true s =
      { s with pipe := s.pipe - 1, parent := .send offset 0 } := by
  simp only [parentStep, hparent, hpipe, if_false]

theorem parentStep_word (hparent : s.parent = .send offset done)
    (hdone : done < halfWords) :
    parentStep true s =
      { s with
        client := s.client ++ [s.buf (offset + done)]
        parent := .send offset (done + 1) } := by
  simp only [parentStep, hparent, hdone, if_true]

theorem parentStep_sent (hparent : s.parent = .send offset done)
    (hdone : ¬ done < halfWords) :
    parentStep true s = { s with parent := .take (nextOffset offset) } := by
  simp only [parentStep, hparent, hdone, if_true, if_false]

end Parent

/-- The parent is serving a client. -/
def Serving (s : State Word) : Prop :=
  match s.parent with
  | .take _ => True
  | .send _ _ => True
  | _ => False

section Frames

variable {word} {s : State Word}

@[simp]
theorem length_stream (acquisition count : ℕ) :
    (stream word acquisition count).length = count := by
  simp [stream]

theorem stream_succ (acquisition count : ℕ) :
    stream word acquisition (count + 1) =
      stream word acquisition count ++ [word acquisition count] := by
  simp [stream, List.range_succ]

theorem getElem_stream {acquisition count k : ℕ}
    (hk : k < (stream word acquisition count).length) :
    (stream word acquisition count)[k] = word acquisition k := by
  simp [stream]

/-- The two processes leave the ring to the writer. -/
theorem parentStep_of_serving (hserving : Serving s) :
    Serving (parentStep true s) ∧
      (parentStep true s).enabled = s.enabled ∧
      (parentStep true s).acquisition = s.acquisition ∧
      (parentStep true s).written = s.written ∧
      (parentStep true s).ram = s.ram ∧
      (parentStep true s).limit = s.limit ∧
      (parentStep true s).child = s.child ∧
      (parentStep true s).buf = s.buf := by
  unfold Serving at hserving ⊢
  cases hparent : s.parent with
  | reset => simp [hparent] at hserving
  | accept => simp [hparent] at hserving
  | enable => simp [hparent] at hserving
  | take offset =>
      by_cases hpipe : s.pipe = 0
      · simp [parentStep_wait hparent hpipe, hparent]
      · simp [parentStep_take hparent hpipe]
  | send offset done =>
      by_cases hdone : done < halfWords
      · simp [parentStep_word hparent hdone]
      · simp [parentStep_sent hparent hdone]

theorem childStep_frame (s : State Word) :
    (childStep s).enabled = s.enabled ∧
      (childStep s).acquisition = s.acquisition ∧
      (childStep s).written = s.written ∧
      (childStep s).ram = s.ram ∧
      (childStep s).parent = s.parent ∧
      (childStep s).client = s.client := by
  cases hchild : s.child with
  | poll => simp [childStep_poll hchild]
  | test place =>
      cases hready : ready s.limit place with
      | false => simp [childStep_of_not_ready hchild hready]
      | true => simp [childStep_of_ready hchild hready]
  | copy offset done =>
      by_cases hdone : done < halfWords
      · simp [childStep_copy hchild hdone]
      · simp [childStep_token hchild hdone]

variable (word) in
theorem writerStep_frame (s : State Word) :
    (writerStep word s).enabled = s.enabled ∧
      (writerStep word s).acquisition = s.acquisition ∧
      (writerStep word s).limit = s.limit ∧
      (writerStep word s).child = s.child ∧
      (writerStep word s).buf = s.buf ∧
      (writerStep word s).pipe = s.pipe ∧
      (writerStep word s).parent = s.parent ∧
      (writerStep word s).client = s.client := by
  unfold writerStep
  split <;> simp

/-- A turn that fails no send keeps the parent serving. -/
theorem Serving.step {turn : Turn} (hserving : Serving s)
    (hsent : turn ≠ .parent false) :
    Serving (BlockServer.step word s turn) := by
  cases turn with
  | writer =>
      obtain ⟨-, -, -, -, -, -, hparent, -⟩ := writerStep_frame word s
      simpa only [Serving, BlockServer.step, hparent] using hserving
  | child =>
      obtain ⟨-, -, -, -, hparent, -⟩ := childStep_frame s
      simpa only [Serving, BlockServer.step, hparent] using hserving
  | parent sendOk =>
      cases sendOk with
      | true => exact (parentStep_of_serving hserving).1
      | false => exact absurd rfl hsent

theorem Serving.foldl {turns : List Turn} (hserving : Serving s)
    (hsent : ∀ turn ∈ turns, turn ≠ .parent false) :
    Serving (turns.foldl (BlockServer.step word) s) := by
  induction turns generalizing s with
  | nil => exact hserving
  | cons turn turns ih =>
      exact ih (hserving.step (hsent turn (by simp)))
        fun later hlater => hsent later (by simp [hlater])

/-- A whole block of an acquisition. -/
theorem block_stream {acquisition count k : ℕ}
    (hwhole : (k + 1) * halfWords ≤ count) :
    block k (stream word acquisition count) =
      (List.range halfWords).map fun j => word acquisition (k * halfWords + j) := by
  rw [Nat.add_mul, Nat.one_mul] at hwhole
  apply List.ext_getElem
  · simp only [block, List.length_take, List.length_drop, length_stream,
      List.length_map, List.length_range]
    omega
  · intro j hleft hright
    simp [block, stream]

end Frames

/-- The child has copied `blocks` halves and `copied` words in all. -/
def ChildAt (copied blocks : ℕ) (s : State Word) : Prop :=
  match s.child with
  | .copy offset done =>
      copied = blocks * halfWords + done ∧ done ≤ halfWords ∧
        offset = blocks % 2 * halfWords ∧
        s.limit = if blocks % 2 = 0 then 0 else halfWords
  | _ =>
      copied = blocks * halfWords ∧
        s.limit = if blocks % 2 = 0 then halfWords else 0

theorem ChildAt.whole_le {copied blocks : ℕ} {s : State Word}
    (hat : ChildAt copied blocks s) : blocks * halfWords ≤ copied := by
  unfold ChildAt at hat
  split at hat <;> omega

/-- The slot of a word of the next half, in the ring and in the buffer. -/
theorem slot_of_half {blocks done : ℕ} (hdone : done < halfWords) :
    blocks % 2 * halfWords + done = (blocks * halfWords + done) % ringWords := by
  simp only [halfWords, ringWords] at hdone ⊢
  omega

namespace ChildAt

variable {copied blocks : ℕ} {s s' : State Word}

theorem congr (hat : ChildAt copied blocks s) (hchild : s'.child = s.child)
    (hlimit : s'.limit = s.limit) : ChildAt copied blocks s' := by
  unfold ChildAt at hat ⊢
  rw [hchild, hlimit]
  exact hat

/-- A `memcpy` step adds a word and a token a half. -/
theorem child (hat : ChildAt copied blocks s) :
    ChildAt (copied + (copyEvent s .child).length)
      (blocks + (tokenEvent s .child).length) (childStep s) := by
  unfold ChildAt at hat
  cases hchild : s.child with
  | poll =>
      rw [hchild] at hat
      rw [childStep_poll hchild]
      simpa [ChildAt, copyEvent, tokenEvent, hchild] using hat
  | test place =>
      rw [hchild] at hat
      obtain ⟨hcopied, hlimit⟩ := hat
      cases hready : ready s.limit place with
      | false =>
          rw [childStep_of_not_ready hchild hready]
          simp [ChildAt, copyEvent, tokenEvent, hchild, hcopied, hlimit]
      | true =>
          rw [childStep_of_ready hchild hready]
          by_cases heven : blocks % 2 = 0
          · simp [ChildAt, copyEvent, tokenEvent, hchild, hcopied, hlimit, heven]
          · have hodd : blocks % 2 = 1 := by omega
            simp [ChildAt, copyEvent, tokenEvent, hchild, hcopied, hlimit, hodd]
  | copy offset done =>
      rw [hchild] at hat
      obtain ⟨hcopied, hle, hoffset, hlimit⟩ := hat
      by_cases hdone : done < halfWords
      · rw [childStep_copy hchild hdone]
        simp only [ChildAt, copyEvent, tokenEvent, hchild, hdone, if_true,
          List.length_singleton, List.length_nil, add_zero]
        exact ⟨by omega, hdone, hoffset, hlimit⟩
      · rw [childStep_token hchild hdone]
        simp only [ChildAt, copyEvent, tokenEvent, hchild, hdone, if_false,
          List.length_singleton, List.length_nil]
        constructor
        · simp only [halfWords] at hcopied hle hdone ⊢
          omega
        · rw [hlimit]
          split_ifs <;> omega

end ChildAt

/-- The parent has output `blocks` blocks and `sent` words in all. -/
def ParentAt (sent blocks : ℕ) (s : State Word) : Prop :=
  match s.parent with
  | .take offset =>
      sent = blocks * halfWords ∧ offset = blocks % 2 * halfWords
  | .send offset done =>
      sent = blocks * halfWords + done ∧ done ≤ halfWords ∧
        offset = blocks % 2 * halfWords
  | _ => False

/-- The tokens taken for the first `blocks` blocks and the one in hand. -/
def tokensTaken (blocks : ℕ) (s : State Word) : ℕ :=
  match s.parent with
  | .send _ _ => blocks + 1
  | _ => blocks

theorem tokensTaken_take {blocks offset : ℕ} {s : State Word}
    (hparent : s.parent = .take offset) : tokensTaken blocks s = blocks := by
  rw [tokensTaken, hparent]

theorem tokensTaken_send {blocks offset done : ℕ} {s : State Word}
    (hparent : s.parent = .send offset done) :
    tokensTaken blocks s = blocks + 1 := by
  rw [tokensTaken, hparent]

namespace ParentAt

variable {sent blocks : ℕ} {s s' : State Word}

theorem congr (hat : ParentAt sent blocks s) (hparent : s'.parent = s.parent) :
    ParentAt sent blocks s' := by
  unfold ParentAt at hat ⊢
  rw [hparent]
  exact hat

theorem nextOffset_eq (blocks : ℕ) :
    nextOffset (blocks % 2 * halfWords) = (blocks + 1) % 2 * halfWords := by
  obtain heven | hodd := Nat.mod_two_eq_zero_or_one blocks
  · have hnext : (blocks + 1) % 2 = 1 := by omega
    rw [heven, hnext]
    rfl
  · have hnext : (blocks + 1) % 2 = 0 := by omega
    rw [hodd, hnext]
    rfl

end ParentAt

end Rfsoc.BlockServer
