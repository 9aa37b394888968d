import Rfsoc.Axi.AxisWriter

/-!
# The DAC player

`dac-player.c` reads its file in chunks of up to 65536 bytes, waits until the
FIFO holds at most 16384 words, and copies the chunk word by word into a path
without a ready signal: `axi_axis_writer` turns each write into a stream word,
and a FIFO that is full loses it.  The consumer drains the FIFO at any times.

How four bytes or a short last group travel as one word is a parameter.  The
signal that ends the program early is left out.
-/

namespace Rfsoc.DacPlayer

open Rfsoc.Clocked

abbrev Byte := BitVec 8
abbrev Word := BitVec 32

/-- `sizeof(buffer)`, what one `fread` takes. -/
def bufferBytes : ℕ := 65536

/-- `FIFO_DEPTH` of `fifo_1`. -/
def fifoDepth : ℕ := 32768

/-- The count up to which a chunk is copied. -/
def countLimit : ℕ := 16384

variable (toWord : List Byte → Word)

/-- The words of some bytes, the last one possibly of less than four. -/
def words (bytes : List Byte) : List Word :=
  (List.range ((bytes.length + 3) / 4)).map fun k =>
    toWord ((bytes.drop (4 * k)).take 4)

/-- The loop: about to read a chunk, waiting for room with a chunk in the
buffer, in `memcpy` with the words left to copy, or past the end of the file. -/
inductive Phase where
  | read
  | wait (chunk : List Word)
  | copy (left : List Word)
  | done

structure State where
  file : List Byte
  phase : Phase
  fifo : List Word

/-- One step of the program, or a word taken by the consumer. -/
inductive Turn where
  | player
  | drain
  deriving DecidableEq

/-- The AXI write of a word. -/
def writeWord (word : Word) : AxisWriter.Input 32 32 where
  aresetn := true
  sAxiAwaddr := 0
  sAxiAwvalid := true
  sAxiWdata := word
  sAxiWvalid := true
  sAxiBready := true

/-- The FIFO behind the writer: a word that finds it full is lost. -/
def fifoAfter (i : AxisWriter.Input 32 32) (fifo : List Word) : List Word :=
  if AxisWriter.mAxisTvalid i && fifo.length < fifoDepth then
    fifo ++ [AxisWriter.mAxisTdata i]
  else fifo

def playerStep (s : State) : State :=
  match s.phase with
  | .read =>
      if (s.file.take bufferBytes).length ≤ 0 then { s with phase := .done }
      else
        { s with
          file := s.file.drop bufferBytes
          phase := .wait (words toWord (s.file.take bufferBytes)) }
  | .wait chunk =>
      if s.fifo.length > countLimit then s else { s with phase := .copy chunk }
  | .copy [] => { s with phase := .read }
  | .copy (word :: left) =>
      { s with phase := .copy left, fifo := fifoAfter (writeWord word) s.fifo }
  | .done => s

def step (s : State) : Turn → State
  | .player => playerStep toWord s
  | .drain => { s with fifo := s.fifo.tail }

/-- The player at the start of a file, with an empty FIFO. -/
def player (file : List Byte) : Machine State Turn :=
  ⟨⟨file, .read, []⟩, step toWord⟩

/-- The word that the consumer takes. -/
def drained (s : State) (turn : Turn) : List Word :=
  match turn, s.fifo with
  | .drain, word :: _ => [word]
  | _, _ => []

/-- A word is written to the DAC. -/
def writes (s : State) (turn : Turn) : Bool :=
  match turn, s.phase with
  | .player, .copy (_ :: _) => true
  | _, _ => false

theorem length_words (bytes : List Byte) :
    (words toWord bytes).length = (bytes.length + 3) / 4 := by
  simp [words]

/-- Words do not cross the end of a front of whole words. -/
theorem words_append (front rest : List Byte) (hwhole : 4 ∣ front.length) :
    words toWord (front ++ rest) = words toWord front ++ words toWord rest := by
  obtain ⟨count, hcount⟩ := hwhole
  have hfront : (front.length + 3) / 4 = count := by omega
  have hboth : ((front ++ rest).length + 3) / 4 =
      count + (rest.length + 3) / 4 := by
    rw [List.length_append]
    omega
  rw [words, hboth, List.range_add, List.map_append, words, hfront, words,
    List.map_map]
  congr 1
  · apply List.map_congr_left
    intro k hk
    have hin : 4 * k + 4 ≤ front.length := by
      have := List.mem_range.mp hk
      omega
    rw [List.drop_append_of_le_length (by omega),
      List.take_append_of_le_length (by rw [List.length_drop]; omega)]
  · apply List.map_congr_left
    intro k _
    have hskip : 4 * (count + k) = front.length + 4 * k := by omega
    rw [Function.comp_apply, hskip, ← List.drop_drop, List.drop_left]

/-- A chunk has whole words unless it is the last. -/
theorem words_chunk (file : List Byte) :
    words toWord file =
      words toWord (file.take bufferBytes) ++
        words toWord (file.drop bufferBytes) := by
  by_cases hlong : bufferBytes ≤ file.length
  · have hwhole : 4 ∣ (file.take bufferBytes).length := by
      rw [List.length_take, Nat.min_eq_left hlong]
      decide
    rw [← words_append toWord _ _ hwhole, List.take_append_drop]
  · have hshort : file.length ≤ bufferBytes := by omega
    rw [List.take_of_length_le hshort, List.drop_of_length_le hshort]
    simp [words]

theorem length_chunk_le (file : List Byte) :
    (words toWord (file.take bufferBytes)).length ≤ countLimit := by
  rw [length_words, List.length_take]
  have hmin := Nat.min_le_left bufferBytes file.length
  have hsize : bufferBytes = 4 * countLimit := by decide
  omega

/-- The words in the buffer that have not been written yet. -/
def pending : Phase → List Word
  | .wait chunk => chunk
  | .copy left => left
  | _ => []

/-- There is room for what is in the buffer once its copy has begun. -/
def Room (s : State) : Prop :=
  match s.phase with
  | .wait chunk => chunk.length ≤ countLimit
  | .copy left => s.fifo.length + left.length ≤ fifoDepth
  | _ => True

theorem Room.wait {s : State} {chunk : List Word} (hroom : Room s)
    (hphase : s.phase = .wait chunk) : chunk.length ≤ countLimit := by
  unfold Room at hroom
  rwa [hphase] at hroom

theorem Room.copy {s : State} {left : List Word} (hroom : Room s)
    (hphase : s.phase = .copy left) :
    s.fifo.length + left.length ≤ fifoDepth := by
  unfold Room at hroom
  rwa [hphase] at hroom

theorem Room.drain {s : State} (hroom : Room s) :
    Room { s with fifo := s.fifo.tail } := by
  unfold Room
  cases hphase : s.phase with
  | read => trivial
  | wait chunk => exact hroom.wait hphase
  | copy left =>
      have hleft := hroom.copy hphase
      change s.fifo.tail.length + left.length ≤ fifoDepth
      rw [List.length_tail]
      omega
  | done => trivial

/-- The books after the consumer has taken a list of words. -/
structure PlayerInv (file : List Byte) (taken : List Word) (s : State) :
    Prop where
  ledger : words toWord file =
    taken ++ s.fifo ++ pending s.phase ++ words toWord s.file
  room : Room s
  finished : s.phase = .done → s.file = []

variable {toWord} {file : List Byte} {taken : List Word} {s : State}

/-- With room for the word the FIFO takes it. -/
theorem fifoAfter_writeWord {fifo : List Word} (word : Word)
    (hroom : fifo.length < fifoDepth) :
    fifoAfter (writeWord word) fifo = fifo ++ [word] := by
  simp [fifoAfter, writeWord, AxisWriter.mAxisTvalid, AxisWriter.mAxisTdata,
    hroom]

/-- Draining moves a word from the FIFO to the consumer and only adds room. -/
theorem PlayerInv.drain_step (hinv : PlayerInv toWord file taken s) :
    PlayerInv toWord file (taken ++ drained s .drain)
      (step toWord s .drain) := by
  refine ⟨?_, hinv.room.drain, hinv.finished⟩
  have hledger := hinv.ledger
  cases hfifo : s.fifo with
  | nil => simpa [drained, step, hfifo] using hledger
  | cons word rest => simpa [drained, step, hfifo] using hledger

/-- The player moves words from the file to the buffer and from there to the
FIFO, which has room for each of them. -/
theorem PlayerInv.player_step (hinv : PlayerInv toWord file taken s) :
    PlayerInv toWord file taken (step toWord s .player) := by
  have hledger := hinv.ledger
  have hroom := hinv.room
  change PlayerInv toWord file taken (playerStep toWord s)
  cases hphase : s.phase with
  | read =>
      rw [hphase] at hledger
      by_cases hend : (s.file.take bufferBytes).length ≤ 0
      · have hempty : s.file = [] := by
          rw [List.length_take, Nat.le_zero, Nat.min_eq_zero_iff] at hend
          exact List.length_eq_zero_iff.mp (hend.resolve_left (by decide))
        simp only [playerStep, hphase, hend, if_true]
        exact ⟨by simpa [pending] using hledger, trivial, fun _ => hempty⟩
      · simp only [playerStep, hphase, hend, if_false]
        refine ⟨?_, length_chunk_le toWord s.file, by simp⟩
        rw [hledger, words_chunk toWord s.file]
        simp [pending]
  | wait chunk =>
      by_cases hfull : s.fifo.length > countLimit
      · simpa [playerStep, hphase, hfull] using hinv
      · simp only [playerStep, hphase, hfull, if_false]
        have hchunk := hroom.wait hphase
        rw [hphase] at hledger
        refine ⟨hledger, ?_, by simp⟩
        change s.fifo.length + chunk.length ≤ fifoDepth
        have hdepth : fifoDepth = countLimit + countLimit := by decide
        omega
  | copy left =>
      have hleft := hroom.copy hphase
      rw [hphase] at hledger
      cases left with
      | nil =>
          simp only [playerStep, hphase]
          exact ⟨hledger, trivial, by simp⟩
      | cons word left =>
          rw [List.length_cons] at hleft
          have haccepted : fifoAfter (writeWord word) s.fifo =
              s.fifo ++ [word] :=
            fifoAfter_writeWord word (by omega)
          simp only [playerStep, hphase, haccepted]
          refine ⟨by simpa [pending] using hledger, ?_, by simp⟩
          change (s.fifo ++ [word]).length + left.length ≤ fifoDepth
          rw [List.length_append, List.length_singleton]
          omega
  | done => simpa [playerStep, hphase] using hinv

variable (toWord) (file) (turn : ℕ → Turn)

def stateAt (cycle : ℕ) : State := (player toWord file).stateAt turn cycle

/-- The words the consumer has taken before a cycle. -/
def delivered (cycle : ℕ) : List Word :=
  (player toWord file).log turn drained cycle

theorem playerInv_stateAt (cycle : ℕ) :
    PlayerInv toWord file (delivered toWord file turn cycle)
      (stateAt toWord file turn cycle) := by
  induction cycle with
  | zero =>
      exact {
        ledger := by simp [stateAt, player, delivered, pending]
        room := trivial
        finished := by simp [stateAt, player] }
  | succ cycle ih =>
      rw [stateAt, delivered, Machine.stateAt_succ, Machine.log_succ,
        ← stateAt, ← delivered]
      cases hturn : turn cycle with
      | drain => exact ih.drain_step
      | player =>
          have hnone : drained (stateAt toWord file turn cycle) .player = [] := by
            simp [drained]
          rw [hnone, List.append_nil]
          exact ih.player_step

/-- What the consumer gets out of a file. -/
structure PlayedOnce (cycle : ℕ) : Prop where
  /-- No word write finds the FIFO full. -/
  room : writes (stateAt toWord file turn cycle) (turn cycle) = true →
    (stateAt toWord file turn cycle).fifo.length < fifoDepth
  /-- The words come in the order of the file, each of them once. -/
  order : delivered toWord file turn cycle <+: words toWord file
  /-- When the file is at its end and the FIFO is drained, all have come. -/
  complete : (stateAt toWord file turn cycle).phase = .done →
    (stateAt toWord file turn cycle).fifo = [] →
      delivered toWord file turn cycle = words toWord file

/-- For every file and every interleaving of the player with the consumer the
FIFO never overflows and delivers the words of the file. -/
theorem player_playedOnce (toWord : List Byte → Word) (file : List Byte)
    (turn : ℕ → Turn) (cycle : ℕ) : PlayedOnce toWord file turn cycle := by
  have hinv := playerInv_stateAt toWord file turn cycle
  have hledger := hinv.ledger
  have hroom := hinv.room
  constructor
  · intro hwrites
    unfold writes at hwrites
    split at hwrites
    case h_1 hphase =>
      have hleft := hroom.copy hphase
      rw [List.length_cons] at hleft
      omega
    case h_2 => exact absurd hwrites Bool.false_ne_true
  · rw [hledger, List.append_assoc, List.append_assoc]
    exact List.prefix_append _ _
  · intro hdone hdrained
    rw [hledger, hdone, hdrained, hinv.finished hdone]
    simp [pending, words]

end Rfsoc.DacPlayer
