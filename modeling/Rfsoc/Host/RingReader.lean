import Rfsoc.Core.Ring
import Rfsoc.Host.Schedule

/-!
# The polling reader keeps up with the writer

The child knows the writer through a wrapped position and decides with a limit
that has two values.  While the writer moves by at most a quarter of the ring in
an iteration of the child's loop, no half is read early, late, twice or while it
is being overwritten: the copies are the stream.

With `blocks` halves copied the next half starts at stream word
`blocks * halfWords`; the bounds of the invariant are relative to it and to the
words written when the current iteration began.
-/

namespace Rfsoc.BlockServer

open Rfsoc.Clocked
open Rfsoc.Ring

/-- What the writer may add in one iteration of the child's loop. -/
abbrev maxGrowth : ℕ := 2 ^ 18

variable {Word : Type*} {word : ℕ → ℕ → Word}

/-- The next half is copied when the writer is past it, and before the writer
comes round to it again; a position that has been read decides rightly. -/
def PacedAt (blocks started : ℕ) (s : State Word) : Prop :=
  match s.child with
  | .poll => started ≤ (blocks + 1) * halfWords
  | .test place =>
      (ready s.limit place = true → (blocks + 1) * halfWords ≤ started) ∧
        (ready s.limit place = false → started ≤ (blocks + 1) * halfWords) ∧
        started ≤ (blocks + 1) * halfWords + maxGrowth
  | .copy _ _ =>
      (blocks + 1) * halfWords ≤ started ∧
        started ≤ (blocks + 1) * halfWords + maxGrowth

theorem PacedAt.congr {blocks started : ℕ} {s s' : State Word}
    (hpaced : PacedAt blocks started s) (hchild : s'.child = s.child)
    (hlimit : s'.limit = s.limit) : PacedAt blocks started s' := by
  unfold PacedAt at hpaced ⊢
  rw [hchild, hlimit]
  exact hpaced

/-- The ring and the child `started` words into an acquisition, after the
copies of a list. -/
structure ReaderInv (acquisition blocks started : ℕ) (copied : List Word)
    (word : ℕ → ℕ → Word) (s : State Word) : Prop where
  running : s.enabled = true
  acquired : s.acquisition = acquisition
  ring : Holds s.ram ringWords (stream word acquisition s.written)
  child : ChildAt copied.length blocks s
  next : blocks * halfWords ≤ started
  begun : started ≤ s.written
  paced : PacedAt blocks started s
  copies : copied = stream word acquisition copied.length

/-- The words written when the iteration in progress began. -/
def startedAfter (started : ℕ) (s : State Word) (turn : Turn) : ℕ :=
  if polls s turn then s.written else started

variable {acquisition blocks started : ℕ} {copied : List Word} {s : State Word}

/-- The test on the wrapped position decides whether the writer is past the
next half. -/
theorem ready_iff {limit : ℕ}
    (hlimit : limit = if blocks % 2 = 0 then halfWords else 0)
    (hnext : blocks * halfWords ≤ started)
    (hbound : started ≤ (blocks + 1) * halfWords + maxGrowth) :
    (ready limit (started % ringWords) = true →
        (blocks + 1) * halfWords ≤ started) ∧
      (ready limit (started % ringWords) = false →
        started ≤ (blocks + 1) * halfWords) := by
  subst hlimit
  by_cases heven : blocks % 2 = 0
  · rw [if_pos heven, ready_halfWords, decide_eq_true_iff,
      decide_eq_false_iff_not]
    simp only [halfWords, ringWords, maxGrowth] at hnext hbound ⊢
    omega
  · rw [if_neg heven, ready_zero, decide_eq_true_iff, decide_eq_false_iff_not]
    simp only [halfWords, ringWords, maxGrowth] at hnext hbound ⊢
    omega

namespace ReaderInv

/-- A step of the writer stores the next word of the stream. -/
theorem writer_step
    (hinv : ReaderInv acquisition blocks started copied word s) :
    ReaderInv acquisition blocks started copied word (writerStep word s) := by
  obtain ⟨henabled, hacquired, hlimit, hchild, -, -, -, -⟩ :=
    writerStep_frame word s
  have hwritten : (writerStep word s).written = s.written + 1 := by
    simp [writerStep, hinv.running]
  have hram : (writerStep word s).ram =
      Function.update s.ram (s.written % ringWords)
        (word acquisition s.written) := by
    simp [writerStep, hinv.running, hinv.acquired, position]
  refine ⟨henabled.trans hinv.running, hacquired.trans hinv.acquired, ?_, ?_,
    hinv.next, ?_, ?_, hinv.copies⟩
  · have hstored := hinv.ring.concat (word acquisition s.written)
    rw [length_stream, ← stream_succ, ← hram, ← hwritten] at hstored
    exact hstored
  · exact hinv.child.congr hchild hlimit
  · rw [hwritten]
    exact hinv.begun.trans (Nat.le_succ _)
  · exact hinv.paced.congr hchild hlimit

/-- A serving parent leaves the ring and the child alone. -/
theorem parent_step
    (hinv : ReaderInv acquisition blocks started copied word s)
    (hserving : Serving s) :
    ReaderInv acquisition blocks started copied word (parentStep true s) := by
  obtain ⟨-, henabled, hacquired, hwritten, hram, hlimit, hchild, -⟩ :=
    parentStep_of_serving hserving
  refine ⟨henabled.trans hinv.running, hacquired.trans hinv.acquired, ?_,
    hinv.child.congr hchild hlimit, hinv.next, ?_, ?_, hinv.copies⟩
  · rw [hram, hwritten]
    exact hinv.ring
  · rw [hwritten]
    exact hinv.begun
  · exact hinv.paced.congr hchild hlimit

/-- The word that `memcpy` reads is the next one of the stream: the writer is
past it and has not come round to its slot again. -/
theorem copyEvent_eq
    (hinv : ReaderInv acquisition blocks started copied word s)
    (hpace : s.written ≤ started + maxGrowth) {offset done : ℕ}
    (hchild : s.child = .copy offset done) (hdone : done < halfWords) :
    s.ram (offset + done) = word acquisition copied.length := by
  have hat := hinv.child
  have hpaced := hinv.paced
  have hbegun := hinv.begun
  unfold ChildAt at hat
  unfold PacedAt at hpaced
  rw [hchild] at hat hpaced
  obtain ⟨hcopied, -, hoffset, -⟩ := hat
  obtain ⟨hpast, hlate⟩ := hpaced
  have hwritten : copied.length < (stream word acquisition s.written).length := by
    rw [length_stream, hcopied]
    simp only [halfWords] at hdone hpast ⊢
    omega
  have hrecent : (stream word acquisition s.written).length ≤
      copied.length + ringWords := by
    rw [length_stream, hcopied]
    simp only [halfWords, ringWords, maxGrowth] at hpace hlate ⊢
    omega
  have hread := hinv.ring copied.length hwritten hrecent
  rwa [getElem_stream, hcopied, ← slot_of_half hdone, ← hoffset, ← hcopied]
    at hread

/-- The copies stay with the stream. -/
theorem copies_child
    (hinv : ReaderInv acquisition blocks started copied word s)
    (hpace : s.written ≤ started + maxGrowth) :
    copied ++ copyEvent s .child =
      stream word acquisition (copied ++ copyEvent s .child).length := by
  cases hchild : s.child with
  | poll => simpa [copyEvent, hchild] using hinv.copies
  | test place => simpa [copyEvent, hchild] using hinv.copies
  | copy offset done =>
      by_cases hdone : done < halfWords
      · have hword := hinv.copyEvent_eq hpace hchild hdone
        simp only [copyEvent, hchild, hdone, if_true, hword,
          List.length_append, List.length_singleton]
        rw [stream_succ, ← hinv.copies]
      · simpa [copyEvent, hchild, hdone] using hinv.copies

/-- The next half begins no later than the iteration; with the token of a half
the one after it does. -/
theorem next_child
    (hinv : ReaderInv acquisition blocks started copied word s) :
    (blocks + (tokenEvent s .child).length) * halfWords ≤
      startedAfter started s .child := by
  have hnext := hinv.next
  have hbegun := hinv.begun
  cases hchild : s.child with
  | poll =>
      simp only [startedAfter, polls, tokenEvent, hchild, if_true,
        List.length_nil, add_zero]
      omega
  | test place => simpa [startedAfter, polls, tokenEvent, hchild] using hnext
  | copy offset done =>
      by_cases hdone : done < halfWords
      · simpa [startedAfter, polls, tokenEvent, hchild, hdone] using hnext
      · have hpaced := hinv.paced
        unfold PacedAt at hpaced
        rw [hchild] at hpaced
        simpa [startedAfter, polls, tokenEvent, hchild, hdone] using hpaced.1

theorem begun_child
    (hinv : ReaderInv acquisition blocks started copied word s) :
    startedAfter started s .child ≤ s.written := by
  rw [startedAfter]
  split
  case isTrue => exact le_rfl
  case isFalse => exact hinv.begun

/-- A poll that begins an iteration reads a position that decides rightly, and
a copy leaves room for the next poll. -/
theorem paced_child
    (hinv : ReaderInv acquisition blocks started copied word s)
    (hpace : s.written ≤ started + maxGrowth) :
    PacedAt (blocks + (tokenEvent s .child).length)
      (startedAfter started s .child) (childStep s) := by
  have hpaced := hinv.paced
  unfold PacedAt at hpaced
  cases hchild : s.child with
  | poll =>
      rw [hchild] at hpaced
      have hlimit : s.limit = if blocks % 2 = 0 then halfWords else 0 := by
        have hat := hinv.child
        unfold ChildAt at hat
        rw [hchild] at hat
        exact hat.2
      have hlate : s.written ≤ (blocks + 1) * halfWords + maxGrowth := by omega
      obtain ⟨hpast, hfuture⟩ :=
        ready_iff hlimit (hinv.next.trans hinv.begun) hlate
      rw [childStep_poll hchild]
      simp only [PacedAt, startedAfter, polls, tokenEvent, hchild, if_true,
        List.length_nil, add_zero, position]
      exact ⟨hpast, hfuture, hlate⟩
  | test place =>
      rw [hchild] at hpaced
      obtain ⟨hpast, hfuture, hlate⟩ := hpaced
      cases hready : ready s.limit place with
      | false =>
          rw [childStep_of_not_ready hchild hready]
          simpa [PacedAt, startedAfter, polls, tokenEvent, hchild] using
            hfuture hready
      | true =>
          rw [childStep_of_ready hchild hready]
          simpa [PacedAt, startedAfter, polls, tokenEvent, hchild] using
            ⟨hpast hready, hlate⟩
  | copy offset done =>
      rw [hchild] at hpaced
      obtain ⟨hpast, hlate⟩ := hpaced
      by_cases hdone : done < halfWords
      · rw [childStep_copy hchild hdone]
        simpa [PacedAt, startedAfter, polls, tokenEvent, hchild, hdone] using
          ⟨hpast, hlate⟩
      · rw [childStep_token hchild hdone]
        simp only [PacedAt, startedAfter, polls, tokenEvent, hchild, hdone,
          if_false, Bool.false_eq_true, List.length_singleton]
        have hroom : maxGrowth ≤ halfWords := by decide
        rw [Nat.add_mul (blocks + 1) 1 halfWords, Nat.one_mul]
        exact hlate.trans (Nat.add_le_add_left hroom _)

/-- A step of the child: a poll begins an iteration, a test that passes begins
the copy of the next half, and the copy stays with the stream. -/
theorem child_step
    (hinv : ReaderInv acquisition blocks started copied word s)
    (hpace : s.written ≤ started + maxGrowth) :
    ReaderInv acquisition (blocks + (tokenEvent s .child).length)
      (startedAfter started s .child) (copied ++ copyEvent s .child) word
      (childStep s) := by
  obtain ⟨henabled, hacquired, hwritten, hram, -, -⟩ := childStep_frame s
  have hchildAt := hinv.child.child
  rw [← List.length_append] at hchildAt
  refine ⟨henabled.trans hinv.running, hacquired.trans hinv.acquired, ?_,
    hchildAt, hinv.next_child, ?_, hinv.paced_child hpace,
    hinv.copies_child hpace⟩
  · rw [hram, hwritten]
    exact hinv.ring
  · rw [hwritten]
    exact hinv.begun_child

/-- Nothing is copied before it is written. -/
theorem copied_le (hinv : ReaderInv acquisition blocks started copied word s) :
    copied.length ≤ s.written := by
  have hat := hinv.child
  have hpaced := hinv.paced
  have hnext := hinv.next
  have hbegun := hinv.begun
  unfold ChildAt at hat
  unfold PacedAt at hpaced
  cases hchild : s.child with
  | poll =>
      rw [hchild] at hat
      omega
  | test place =>
      rw [hchild] at hat
      omega
  | copy offset done =>
      rw [hchild] at hat hpaced
      rw [Nat.add_mul, Nat.one_mul] at hpaced
      omega

/-- Nothing is written over before it is copied. -/
theorem written_le (hinv : ReaderInv acquisition blocks started copied word s)
    (hpace : s.written ≤ started + maxGrowth) :
    s.written ≤ copied.length + ringWords := by
  have hat := hinv.child
  have hpaced := hinv.paced
  have hring : ringWords = halfWords + (maxGrowth + maxGrowth) := rfl
  unfold ChildAt at hat
  unfold PacedAt at hpaced
  rw [Nat.add_mul, Nat.one_mul] at hpaced
  cases hchild : s.child with
  | poll =>
      rw [hchild] at hat hpaced
      omega
  | test place =>
      rw [hchild] at hat hpaced
      omega
  | copy offset done =>
      rw [hchild] at hat hpaced
      omega

end ReaderInv

section Run

variable (word) (start : State Word) (turn : ℕ → Turn)

/-- The words copied before a cycle. -/
def copiedWords : ℕ → List Word := (server word start).log turn copyEvent

/-- The halves copied before a cycle. -/
def halvesCopied (cycle : ℕ) : ℕ :=
  ((server word start).log turn tokenEvent cycle).length

/-- The words written when the iteration in progress began; the run begins
with an iteration. -/
def startedAt : ℕ → ℕ
  | 0 => start.written
  | cycle + 1 =>
      startedAfter (startedAt cycle) ((server word start).stateAt turn cycle)
        (turn cycle)

/-- The writer adds at most a quarter of the ring between the starts of two
consecutive iterations, and in the last one up to the horizon. -/
def Paced (horizon : ℕ) : Prop :=
  ∀ cycle ≤ horizon, ((server word start).stateAt turn cycle).written ≤
    startedAt word start turn cycle + maxGrowth

end Run

theorem serving_opened (ram buf : ℕ → Word) : Serving (opened ram buf) :=
  trivial

theorem readerInv_opened (ram buf : ℕ → Word) :
    ReaderInv 1 0 0 [] word (opened ram buf) where
  running := rfl
  acquired := rfl
  ring := holds_nil ram ringWords
  child := ⟨rfl, rfl⟩
  next := Nat.le_of_eq (Nat.zero_mul _)
  begun := le_rfl
  paced := Nat.zero_le _
  copies := rfl

/-- A parent that never fails to send keeps serving. -/
theorem serving_stateAt {start : State Word} {turn : ℕ → Turn} {horizon : ℕ}
    (hserving : Serving start)
    (hsent : ∀ cycle < horizon, turn cycle ≠ .parent false) :
    ∀ cycle ≤ horizon, Serving ((server word start).stateAt turn cycle) := by
  refine upTo_induction horizon hserving ?_
  intro cycle hcycle ih
  exact ih.step (hsent cycle hcycle)

theorem readerInv_stateAt (ram buf : ℕ → Word) {turn : ℕ → Turn} {horizon : ℕ}
    (hsent : ∀ cycle < horizon, turn cycle ≠ .parent false)
    (hpaced : Paced word (opened ram buf) turn horizon) :
    ∀ cycle ≤ horizon,
      ReaderInv 1 (halvesCopied word (opened ram buf) turn cycle)
        (startedAt word (opened ram buf) turn cycle)
        (copiedWords word (opened ram buf) turn cycle) word
        ((server word (opened ram buf)).stateAt turn cycle) := by
  refine upTo_induction horizon (readerInv_opened ram buf) ?_
  intro cycle hcycle ih
  have hserving : Serving ((server word (opened ram buf)).stateAt turn cycle) :=
    serving_stateAt (serving_opened ram buf) hsent cycle hcycle.le
  have hpace := hpaced cycle hcycle.le
  have hturn := hsent cycle hcycle
  rw [halvesCopied, copiedWords, startedAt, Machine.log_succ, Machine.log_succ,
    List.length_append, ← copiedWords, ← halvesCopied, Machine.stateAt_succ]
  generalize (server word (opened ram buf)).stateAt turn cycle = s at *
  change ReaderInv _ _ _ _ word (step word s (turn cycle))
  cases hcase : turn cycle with
  | writer =>
      simpa [startedAfter, polls, copyEvent, tokenEvent, step] using ih.writer_step
  | child => exact ih.child_step hpace
  | parent sendOk =>
      cases sendOk with
      | true =>
          simpa [startedAfter, polls, copyEvent, tokenEvent, step] using
            ih.parent_step hserving
      | false => exact absurd hcase hturn

/-- The `k`-th half copied is words `k * halfWords .. (k + 1) * halfWords - 1`
of the stream, and a half in progress is its beginning. -/
theorem reader_copies_stream (word : ℕ → ℕ → Word) (ram buf : ℕ → Word)
    (turn : ℕ → Turn) (horizon : ℕ)
    (hsent : ∀ cycle < horizon, turn cycle ≠ .parent false)
    (hpaced : Paced word (opened ram buf) turn horizon) :
    ∀ cycle ≤ horizon,
      (∀ k < halvesCopied word (opened ram buf) turn cycle,
        block k (copiedWords word (opened ram buf) turn cycle) =
          (List.range halfWords).map fun j => word 1 (k * halfWords + j)) ∧
      copiedWords word (opened ram buf) turn cycle =
        stream word 1 (copiedWords word (opened ram buf) turn cycle).length := by
  intro cycle hcycle
  have hinv := readerInv_stateAt ram buf hsent hpaced cycle hcycle
  constructor
  · intro k hk
    have hwhole := hinv.child.whole_le
    rw [hinv.copies]
    apply block_stream
    exact (Nat.mul_le_mul_right halfWords hk).trans hwhole
  · exact hinv.copies

section Pace

variable (word) in
/-- A turn, with the words written when the iteration in progress began. -/
def paceStep (s : State Word × ℕ) (turn : Turn) : State Word × ℕ :=
  (step word s.1 turn, startedAfter s.2 s.1 turn)

def InPace (s : State Word × ℕ) : Prop := s.1.written ≤ s.2 + maxGrowth

variable {started : ℕ}

theorem fst_foldl_paceStep (s : State Word × ℕ) (turns : List Turn) :
    (turns.foldl (paceStep word) s).1 = turns.foldl (step word) s.1 := by
  induction turns generalizing s with
  | nil => rfl
  | cons turn turns ih => exact ih (paceStep word s turn)

theorem pace_stateAt (start : State Word) (turn : ℕ → Turn) (cycle : ℕ) :
    (Machine.mk (start, start.written) (paceStep word)).stateAt turn cycle =
      ((server word start).stateAt turn cycle,
        startedAt word start turn cycle) := by
  induction cycle with
  | zero => rfl
  | succ cycle ih =>
      rw [Machine.stateAt_succ, ih]
      rfl

theorem paced_of_throughout {start : State Word} {turns : List Turn}
    (hpace : Throughout (paceStep word) InPace (start, start.written) turns) :
    Paced word start (played turns .writer) turns.length := by
  intro cycle hcycle
  have hstate : InPace ((Machine.mk (start, start.written)
      (paceStep word)).stateAt (played turns .writer) cycle) :=
    Throughout.stateAt hpace .writer cycle hcycle
  rw [pace_stateAt] at hstate
  exact hstate

theorem foldl_writers (n : ℕ) :
    (List.replicate n .writer).foldl (paceStep word) (s, started) =
      (after word s (List.replicate n .writer), started) := by
  induction n generalizing s with
  | zero => rfl
  | succ n ih =>
      rw [List.replicate_succ, List.foldl_cons]
      exact ih

theorem foldl_test (hchild : s.child = .poll) :
    [Turn.child, .child].foldl (paceStep word) (s, started) =
      (after word s [.child, .child], s.written) := by
  refine Prod.ext rfl ?_
  change startedAfter (startedAfter started s .child) (childStep s) .child = _
  rw [childStep_poll hchild]
  simp [startedAfter, polls, hchild]

variable (word) in
theorem written_writerStep_le (s : State Word) :
    (writerStep word s).written ≤ s.written + 1 := by
  unfold writerStep
  split
  case isTrue => exact le_rfl
  case isFalse => exact Nat.le_succ _

variable (word started) in
theorem throughout_writers (n : ℕ)
    (hroom : s.written + n ≤ started + maxGrowth) :
    Throughout (paceStep word) InPace (s, started)
      (List.replicate n .writer) := by
  induction n generalizing s with
  | zero => exact Throughout.of_step hroom (by simp)
  | succ n ih =>
      refine Throughout.cons (Nat.le_of_add_right_le hroom) (ih ?_)
      have hone := written_writerStep_le word s
      change (writerStep word s).written + n ≤ _
      omega

/-- The processes let the writer stand. -/
theorem InPace.process {s : State Word × ℕ} (hpace : InPace s) {turn : Turn}
    (hturn : turn ≠ .writer) : InPace (paceStep word s turn) := by
  unfold InPace at hpace ⊢
  cases turn with
  | writer => exact absurd rfl hturn
  | child =>
      obtain ⟨-, -, hwritten, -, -, -⟩ := childStep_frame s.1
      change (childStep s.1).written ≤ startedAfter s.2 s.1 .child + maxGrowth
      rw [hwritten, startedAfter]
      split
      case isTrue => exact Nat.le_add_right _ _
      case isFalse => exact hpace
  | parent sendOk =>
      refine le_trans ?_ hpace
      change (parentStep sendOk s.1).written ≤ s.1.written
      unfold parentStep
      split <;> (try split_ifs) <;> simp

theorem throughout_processes {turns : List Turn}
    (hpace : InPace (s, started)) (hturns : ∀ turn ∈ turns, turn ≠ .writer) :
    Throughout (paceStep word) InPace (s, started) turns :=
  Throughout.of_step hpace fun turn hturn _ hbefore =>
    hbefore.process (hturns turn hturn)

/-- The child that copies the first half keeps up with the writer. -/
theorem throughout_firstHalf (word : ℕ → ℕ → Word) (ram buf : ℕ → Word)
    {early middle late : ℕ} (hearly : early ≤ maxGrowth)
    (hmiddle : middle ≤ maxGrowth) (hlate : late ≤ maxGrowth)
    (turns : List Turn) (hturns : ∀ turn ∈ turns, turn ≠ .writer) :
    Throughout (paceStep word) InPace (opened ram buf, 0)
      (firstHalf early middle late ++ turns) := by
  have hhalf : halfWords = maxGrowth + maxGrowth := rfl
  have hring : ringWords = 2 * halfWords := rfl
  have hpos : 0 < maxGrowth := Nat.two_pow_pos 18
  have hplace : ∀ written < ringWords, written % ringWords = written :=
    fun _ => Nat.mod_eq_of_lt
  obtain ⟨ram₁, hfirst, -⟩ := waiting_writers word ram buf 0 halfWords 0 early
    (by rw [hplace _ (by omega)]; omega)
  obtain ⟨ram₂, hsecond, -⟩ := waiting_writers word ram₁ buf (0 + early)
    halfWords 0 middle (by rw [hplace _ (by omega)]; omega)
  have htest₁ := waiting_failedTest word ram₁ buf (0 + early) 0
    (by rw [hplace _ (by omega)]; omega)
  have htest₂ := waiting_failedTest word ram₂ buf (0 + early + middle) 0
    (by rw [hplace _ (by omega)]; omega)
  have hothers : ∀ turn ∈ copyHalf ++ turns, turn ≠ .writer := by
    intro turn hmem
    obtain hcopy | hlater := List.mem_append.mp hmem
    · simp only [copyHalf, List.mem_append, List.mem_replicate, List.mem_cons,
        List.not_mem_nil, or_false] at hcopy
      rintro rfl
      simp at hcopy
    · exact hturns turn hlater
  have htests : ∀ turn ∈ [Turn.child, .child], turn ≠ .writer := by decide
  simp only [firstHalf, List.append_assoc]
  rw [opened_eq_waiting]
  refine (throughout_writers word _ early ?_).append ?_
  · exact Nat.add_le_add_left hearly 0
  rw [foldl_writers, hfirst]
  refine (throughout_processes ?_ htests).append ?_
  · exact Nat.add_le_add_left hearly 0
  rw [foldl_test rfl, htest₁]
  refine (throughout_writers word _ middle ?_).append ?_
  · exact Nat.add_le_add_left hmiddle _
  rw [foldl_writers, hsecond]
  refine (throughout_processes ?_ htests).append ?_
  · exact Nat.add_le_add_left hmiddle _
  rw [foldl_test rfl, htest₂]
  refine (throughout_writers word _ late ?_).append ?_
  · exact Nat.add_le_add_left hlate _
  rw [foldl_writers]
  refine throughout_processes ?_ hothers
  have hend := throughout_writers word (0 + early + middle)
    (s := waiting (0 + early + middle) halfWords 0 ram₂ buf) late
    (Nat.add_le_add_left hlate _) _ List.prefix_rfl
  rwa [foldl_writers] at hend

end Pace

theorem copiedWords_played (start : State Word) (turns : List Turn) :
    copiedWords word start (played turns .writer) turns.length =
      emitted (step word) copyEvent start turns := by
  have hlog := (server word start).log_played copyEvent turns [] .writer
  rwa [List.append_nil] at hlog

/-- A child that has copied the words of a half and polls has put a token. -/
theorem halvesCopied_eq_one {ram buf : ℕ → Word} {turns : List Turn}
    (hsent : ∀ cycle < turns.length, played turns .writer cycle ≠ .parent false)
    (hpaced : Paced word (opened ram buf) (played turns .writer) turns.length)
    (hchild : (after word (opened ram buf) turns).child = .poll)
    (hcopied : (emitted (step word) copyEvent (opened ram buf) turns).length =
      halfWords) :
    halvesCopied word (opened ram buf) (played turns .writer) turns.length =
      1 := by
  have hat := (readerInv_stateAt ram buf hsent hpaced turns.length le_rfl).child
  rw [server_played, copiedWords_played, hcopied] at hat
  unfold ChildAt at hat
  rw [hchild] at hat
  have hpos : 0 < halfWords := by decide
  exact Nat.eq_of_mul_eq_mul_right hpos (hat.1.symm.trans (Nat.one_mul _).symm)

/-- The writer goes by quarters of the ring and one word past the first half. -/
def firstTurns : List Turn := firstHalf maxGrowth maxGrowth 1

theorem firstTurns_sent (cycle : ℕ) :
    played firstTurns .writer cycle ≠ .parent false := by
  apply played_ne_of_forall
  · intro turn hturn
    simp only [firstTurns, firstHalf, copyHalf, List.mem_append,
      List.mem_replicate, List.mem_cons, List.not_mem_nil, or_false] at hturn
    rintro rfl
    simp at hturn
  · decide

theorem firstTurns_paced (word : ℕ → ℕ → Word) (ram buf : ℕ → Word) :
    Paced word (opened ram buf) (played firstTurns .writer)
      firstTurns.length := by
  have hpace := throughout_firstHalf word ram buf (le_refl maxGrowth)
    (le_refl maxGrowth) (by decide : 1 ≤ maxGrowth) [] (by simp)
  rw [List.append_nil] at hpace
  exact paced_of_throughout hpace

/-- The first half of a ring of numbers is copied. -/
theorem reader_copies_stream_firstTurns :
    halvesCopied (fun _ index => index) (opened id id)
        (played firstTurns .writer) firstTurns.length = 1 ∧
      block 0 (copiedWords (fun _ index => index) (opened id id)
          (played firstTurns .writer) firstTurns.length) =
        (List.range halfWords).map fun j => 0 * halfWords + j := by
  have hsent := fun cycle (_ : cycle < firstTurns.length) =>
    firstTurns_sent cycle
  have hpaced := firstTurns_paced (fun _ index => index) (id : ℕ → ℕ) id
  obtain ⟨ram, buf, hafter, -, hcopied⟩ := after_firstHalf_opened
    (fun _ index => index) (id : ℕ → ℕ) id maxGrowth maxGrowth 1 (by decide)
    (by decide) (by decide)
  have hone := halvesCopied_eq_one hsent hpaced
    (by rw [firstTurns, hafter]; rfl) (by rw [firstTurns, hcopied, length_stream])
  refine ⟨hone, ?_⟩
  obtain ⟨hblocks, -⟩ := reader_copies_stream (fun _ index => index) id id
    (played firstTurns .writer) firstTurns.length hsent hpaced firstTurns.length
    le_rfl
  exact hblocks 0 (by rw [hone]; decide)

end Rfsoc.BlockServer
