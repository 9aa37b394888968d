import Rfsoc.Axis.StreamCores
import Rfsoc.Host.DacPlayer
import Rfsoc.System.Control
import Mathlib.Data.List.ReduceOption

/-!
# The transmitter of the player design

In `dac_player` the words that `dac-player.c` writes pass `writer_1`, `fifo_1`,
`zeroer_0` and `inter_0` on their way to the DAC.  The zeroer fills in when the
FIFO is empty, so the interpolator always has a word to take; what is played is
the file with zeros wherever the player was late, each word as often as the first
argument of the player says.
-/

namespace Rfsoc.Transmitter

open Rfsoc.Clocked
open Rfsoc.Control (factorCfg toNat_factorCfg)
open Rfsoc.DacPlayer
open Rfsoc.Stream

structure State where
  player : DacPlayer.State
  interpolator : Interpolator.State 32 16

/-- Whether the player takes a turn in a cycle and whether the way to the DAC is
ready. -/
structure Input where
  turn : Bool
  ready : Bool

section Wires

variable (toWord : List Byte → Word) (number : ℕ)

/-- The FIFO is read: the zeroer is ready when the interpolator is. -/
def reads (s : State) : Bool :=
  Zeroer.sAxisTready (Interpolator.sAxisTready s.interpolator)

/-- What the zeroer offers for the head of the FIFO. -/
def filled (head : Option Word) : Word :=
  Zeroer.mAxisTdata head.isSome (head.getD 0)

/-- The lines of the interpolator. -/
def interpolatorDrive (s : State) (i : Input) : Drive Word where
  offer :=
    { valid := Zeroer.mAxisTvalid
      data := filled s.player.fifo.head? }
  ready := i.ready

/-- The turns of the player and of its FIFO in a cycle: a word can be taken that
was in the FIFO before the turn of the player. -/
def turns (s : State) (i : Input) : List Turn :=
  (if i.turn then [.player] else []) ++
    if reads s && !s.player.fifo.isEmpty then [.drain] else []

def step (s : State) (i : Input) : State where
  player := (turns s i).foldl (DacPlayer.step toWord) s.player
  interpolator :=
    (Interpolator.streamCore 32 (factorCfg number)).step s.interpolator
      (interpolatorDrive s i)

/-- The transmitter when the player has opened its file. -/
def system (file : List Byte) : Machine State Input where
  start :=
    { player := (DacPlayer.player toWord file).start
      interpolator := Interpolator.resetState }
  step := step toWord number

end Wires

section Run

variable (toWord : List Byte → Word) (number : ℕ) (file : List Byte)
  (input : ℕ → Input)

def stateAt (cycle : ℕ) : State :=
  (system toWord number file).stateAt input cycle

/-- What the interpolator takes in a cycle: the head of the FIFO, or none. -/
def takenWord (s : State) (_ : Input) : List (Option Word) :=
  if reads s then [s.player.fifo.head?] else []

/-- What the interpolator has taken before a cycle. -/
def taken : ℕ → List (Option Word) :=
  (system toWord number file).log input takenWord

/-- The word handed on to the DAC in a cycle. -/
def playedWord (s : State) (i : Input) : List Word :=
  (Interpolator.streamCore 32 (factorCfg number)).transferredWord s.interpolator
    (interpolatorDrive s i)

/-- The words handed on to the DAC before a cycle. -/
def played : ℕ → List Word :=
  (system toWord number file).log input (playedWord number)

/-- The transmitter at a cycle. -/
structure Plays (cycle : ℕ) : Prop where
  /-- Without the fills, what has been taken is the beginning of the file. -/
  order : (taken toWord number file input cycle).reduceOption <+:
    words toWord file
  /-- Each word, or fill, is played `number` times before the next one. -/
  copies : played toWord number file input cycle <+:
    (taken toWord number file input cycle).flatMap fun word =>
      List.replicate number (word.getD 0)
  /-- Only copies of the last one may still be missing. -/
  lastOnly : ((taken toWord number file input cycle).length - 1) * number ≤
    (played toWord number file input cycle).length
  /-- A write finds room in the FIFO. -/
  room : (input cycle).turn = true →
    writes (stateAt toWord number file input cycle).player .player = true →
      (stateAt toWord number file input cycle).player.fifo.length < fifoDepth
  /-- At the end of the file and of the FIFO all words have been taken. -/
  complete : (stateAt toWord number file input cycle).player.phase = .done →
    (stateAt toWord number file input cycle).player.fifo = [] →
      (taken toWord number file input cycle).reduceOption = words toWord file

variable {toWord} {number} {file} {input}

/-- The player only adds to the FIFO. -/
theorem fifo_playerStep (s : DacPlayer.State) :
    s.fifo <+: (playerStep toWord s).fifo := by
  cases hphase : s.phase with
  | read =>
      by_cases hend : (s.file.take bufferBytes).length ≤ 0
      · simp only [playerStep, hphase, hend, if_true]
        exact List.prefix_rfl
      · simp only [playerStep, hphase, hend, if_false]
        exact List.prefix_rfl
  | wait chunk =>
      by_cases hfull : s.fifo.length > countLimit
      · simp [playerStep, hphase, hfull]
      · simp [playerStep, hphase, hfull]
  | copy left =>
      cases left with
      | nil => simp [playerStep, hphase]
      | cons word left =>
          simp only [playerStep, hphase, fifoAfter]
          split
          case isTrue => exact List.prefix_append _ _
          case isFalse => exact List.prefix_rfl
  | done => simp [playerStep, hphase]

/-- A word that is taken was the head of the FIFO before the player's turn. -/
theorem drained_eq {s : DacPlayer.State} {fifo : List Word}
    (hearlier : fifo <+: s.fifo) (hfull : fifo ≠ []) :
    drained s .drain = fifo.head?.toList := by
  obtain ⟨word, rest, rfl⟩ := List.exists_cons_of_ne_nil hfull
  obtain ⟨more, hmore⟩ := hearlier
  simp [drained, ← hmore]

/-- A cycle keeps the books of the player. -/
theorem playerInv_turns {s : State} {i : Input} {words : List Word}
    (hinv : PlayerInv toWord file words s.player) :
    PlayerInv toWord file
      (words ++ if reads s then s.player.fifo.head?.toList else [])
      ((turns s i).foldl (DacPlayer.step toWord) s.player) := by
  obtain ⟨player, hplayer, hturn, hfifo⟩ : ∃ player,
      PlayerInv toWord file words player ∧
        (if i.turn then [Turn.player] else []).foldl (DacPlayer.step toWord)
          s.player = player ∧
        s.player.fifo <+: player.fifo := by
    cases i.turn with
    | false => exact ⟨s.player, hinv, rfl, List.prefix_rfl⟩
    | true =>
        exact ⟨playerStep toWord s.player, hinv.player_step, rfl,
          fifo_playerStep s.player⟩
  rw [turns, List.foldl_append, hturn]
  cases reads s with
  | false => simpa using hplayer
  | true =>
      cases hhead : s.player.fifo with
      | nil => simpa using hplayer
      | cons word rest =>
          have hnext := hplayer.drain_step
          rw [hhead] at hfifo
          rw [drained_eq hfifo (List.cons_ne_nil word rest)] at hnext
          exact hnext

theorem playerInv_stateAt (cycle : ℕ) :
    PlayerInv toWord file (taken toWord number file input cycle).reduceOption
      (stateAt toWord number file input cycle).player := by
  induction cycle with
  | zero =>
      exact {
        ledger := by
          simp [taken, stateAt, system, DacPlayer.player, pending]
        room := trivial
        finished := by simp [stateAt, system, DacPlayer.player] }
  | succ cycle ih =>
      rw [taken, Machine.log_succ, ← taken, List.reduceOption_append]
      have hnext := playerInv_turns (i := input cycle) ih
      have htaken : (takenWord (stateAt toWord number file input cycle)
          (input cycle)).reduceOption =
          if reads (stateAt toWord number file input cycle) then
            (stateAt toWord number file input cycle).player.fifo.head?.toList
          else [] := by
        rw [takenWord]
        split
        case isTrue => exact List.reduceOption_singleton _
        case isFalse => rfl
      rw [← htaken] at hnext
      exact hnext

variable (toWord number file) in
theorem component_interpolator :
    Component (system toWord number file)
      (Interpolator.streamCore 32 (factorCfg number)).machine
      State.interpolator interpolatorDrive where
  start := rfl
  step := fun _ _ => rfl

/-- The interpolator is offered a word in every cycle. -/
theorem accepted_eq (cycle : ℕ) :
    (Interpolator.streamCore 32 (factorCfg number)).accepted
        (wired (system toWord number file) interpolatorDrive input) cycle =
      (taken toWord number file input cycle).map filled := by
  rw [taken, Machine.log_map]
  refine ((component_interpolator toWord number file).log input _ cycle).trans ?_
  apply Machine.log_congr
  intro earlier _
  rw [takenWord]
  cases hreads : reads ((system toWord number file).stateAt input earlier) with
  | false =>
      rw [reads, Zeroer.sAxisTready] at hreads
      simp [Core.acceptedWord, Interpolator.streamCore, hreads]
  | true =>
      rw [reads, Zeroer.sAxisTready] at hreads
      simp [Core.acceptedWord, Interpolator.streamCore, hreads,
        interpolatorDrive, Zeroer.mAxisTvalid]

theorem played_eq (cycle : ℕ) :
    (Interpolator.streamCore 32 (factorCfg number)).transferred
        (wired (system toWord number file) interpolatorDrive input) cycle =
      played toWord number file input cycle :=
  (component_interpolator toWord number file).log input _ cycle

theorem filled_eq (head : Option Word) : filled head = head.getD 0 := by
  cases head <;> rfl

/-- What has been taken is played, but for the copies still to be made of the
last word. -/
theorem played_ledger (hlow : 10 ≤ number) (hhigh : number ≤ 65535)
    (cycle : ℕ) :
    ∃ left,
      ((taken toWord number file input cycle).flatMap fun word =>
          List.replicate number (word.getD 0)) =
        played toWord number file input cycle ++ left ∧
      left.length ≤ number := by
  have hfactor : number - 1 + 1 = number := by omega
  have hstart : Interpolator.ShowsCopies (factorCfg number).toNat
      (Interpolator.streamCore 32 (factorCfg number)).start () [] :=
    ⟨⟨Nat.zero_le _, fun _ => rfl⟩, rfl⟩
  obtain ⟨left, ⟨hcounts, hleft⟩, hledger⟩ :=
    (Interpolator.realizes_repetition (factorCfg number)).ledger hstart
      (fun _ _ => trivial) cycle le_rfl
  rw [Interpolator.run_repetition, accepted_eq, played_eq,
    toNat_factorCfg hlow hhigh, Interpolator.repeated, hfactor,
    List.flatMap_map, List.nil_append] at hledger
  simp only [filled_eq] at hledger
  refine ⟨left, hledger, ?_⟩
  rw [hleft, Interpolator.remaining, toNat_factorCfg hlow hhigh, hfactor]
  split
  case isTrue =>
    rw [List.length_replicate]
    exact Nat.sub_le _ _
  case isFalse => exact Nat.zero_le number

end Run

/-- The transmitter plays the file: for every file and in every run, what goes to
the DAC is the file with zeros where the FIFO was found empty, each word `number`
times in a row. -/
theorem transmitter_plays (toWord : List Byte → Word) (number : ℕ)
    (hlow : 10 ≤ number) (hhigh : number ≤ 65535) (file : List Byte)
    (input : ℕ → Input) (cycle : ℕ) : Plays toWord number file input cycle := by
  have hinv : PlayerInv toWord file
      (taken toWord number file input cycle).reduceOption
      (stateAt toWord number file input cycle).player := playerInv_stateAt cycle
  have hledger := hinv.ledger
  obtain ⟨left, hplayed, hleft⟩ :
      ∃ left,
        ((taken toWord number file input cycle).flatMap fun word =>
            List.replicate number (word.getD 0)) =
          played toWord number file input cycle ++ left ∧
        left.length ≤ number := played_ledger hlow hhigh cycle
  refine ⟨?_, ?_, ?_, ?_, ?_⟩
  · rw [hledger, List.append_assoc, List.append_assoc]
    exact List.prefix_append _ _
  · rw [hplayed]
    exact List.prefix_append _ _
  · have hlength := congrArg List.length hplayed
    rw [List.length_append, List.length_flatMap] at hlength
    simp only [List.length_replicate, List.map_const',
      List.sum_replicate_nat] at hlength
    rw [Nat.sub_mul, Nat.one_mul]
    omega
  · intro _ hwrites
    unfold writes at hwrites
    split at hwrites
    case h_1 hphase =>
      have hroom := hinv.room.copy hphase
      rw [List.length_cons] at hroom
      omega
    case h_2 => exact absurd hwrites Bool.false_ne_true
  · intro hdone hdrained
    rw [hledger, hdone, hdrained, hinv.finished hdone]
    simp [pending, words]

/-- Two words of a file with a factor of ten. -/
theorem transmitter_plays_file :
    Plays (fun bytes => (bytes.headD 0).setWidth 32) 10
      [1#8, 2#8, 3#8, 4#8, 5#8, 6#8, 7#8, 8#8]
      (fun _ => { turn := true, ready := true }) 40 :=
  transmitter_plays (fun bytes => (bytes.headD 0).setWidth 32) 10 (by decide)
    (by decide) [1#8, 2#8, 3#8, 4#8, 5#8, 6#8, 7#8, 8#8]
    (fun _ => { turn := true, ready := true }) 40

end Rfsoc.Transmitter
