import Rfsoc.Axi.MemoryPort
import Rfsoc.Host.HandOff
import Mathlib.Data.List.GetD

/-!
# The acquisition path

`writer_0` of the recorder designs writes its stream to a ring of `2 ^ 20` words
at `0x1E000000`.  The two processes of `adc-recorder.c` and `adc-test-server.c`
see it through a status word that counts modulo the ring and through the memory
behind `adc`.  This file wires the core, its memory port and the processes
together, clock edge by clock edge, and compares them with the block server:
every cycle is at most one turn of a process and then at most one of the writer.

The run begins when the parent has entered normal operating mode, and no write
of the parent fails.
-/

namespace Rfsoc.Acquisition

open Rfsoc.Clocked
open Rfsoc.MemoryPort (Port place store)
open Rfsoc.Ring

/-- `ADDR_WIDTH` of `writer_0`. -/
def addrWidth : ℕ := 20

/-- `const_2`, and the address that `adc` is mapped to. -/
def base : RamWriter.Address := 503316480#32

abbrev Word := RamWriter.Word

variable {axiIdWidth : ℕ}

/-- What the two processes keep: the variables of the child, the shared buffer,
the tokens in the pipe, the place of the parent and what it has put out. -/
structure Host where
  limit : ℕ
  child : BlockServer.ChildPhase
  buf : ℕ → Word
  pipe : ℕ
  parent : BlockServer.ParentPhase
  output : List Word

structure State (axiIdWidth : ℕ) where
  writer : RamWriter.State addrWidth axiIdWidth
  port : Port axiIdWidth
  host : Host

inductive Process where
  | child
  | parent
  deriving DecidableEq

/-- The ports of the core in a cycle, and the process that takes a turn. -/
structure Input where
  ports : RamWriter.Input
  turn : Option Process

/-- The board and the processes as the block server has them, with the words
counted by `written`. -/
def board (port : Port axiIdWidth) (host : Host) (written : ℕ) :
    BlockServer.State Word where
  enabled := true
  acquisition := 1
  written := written
  ram := fun slot => port.memory (base.toNat + 8 * slot)
  limit := host.limit
  child := host.child
  buf := host.buf
  pipe := host.pipe
  parent := host.parent
  client := host.output

/-- What the processes keep of it. -/
def Host.of (s : BlockServer.State Word) : Host where
  limit := s.limit
  child := s.child
  buf := s.buf
  pipe := s.pipe
  parent := s.parent
  output := s.client

/-- The turn of a process, as a turn of the block server. -/
def Process.toTurn : Process → BlockServer.Turn
  | .child => .child
  | .parent => .parent true

/-- The step of a process: of the written words it sees `sts_data`. -/
def processStep (turn : Process) (s : BlockServer.State Word) :
    BlockServer.State Word :=
  match turn with
  | .child => BlockServer.childStep s
  | .parent => BlockServer.parentStep true s

def hostStep (s : State axiIdWidth) : Option Process → Host
  | none => s.host
  | some turn =>
      Host.of (processStep turn
        (board s.port s.host (RamWriter.stsData s.writer).toNat))

def step (s : State axiIdWidth) (i : Input) : State axiIdWidth where
  writer := RamWriter.step s.writer i.ports
  port := s.port.step (RamWriter.awHandshake base s.writer i.ports)
    (RamWriter.wHandshake s.writer i.ports)
  host := hostStep s i.turn

/-- The path when the parent has entered normal operating mode. -/
def system (axiIdWidth : ℕ) (memory buf : ℕ → Word) :
    Machine (State axiIdWidth) Input where
  start :=
    { writer := RamWriter.resetState
      port := { starts := [], beats := 0, memory := memory }
      host := Host.of (BlockServer.opened memory buf) }
  step := step

/-- The path as the block server, with the data beats as its words. -/
def view (s : State axiIdWidth) : BlockServer.State Word :=
  board s.port s.host s.port.beats

@[simp]
theorem view_client (s : State axiIdWidth) : (view s).client = s.host.output :=
  rfl

/-- The turns of the block server in one cycle. -/
def turns (s : State axiIdWidth) (i : Input) : List BlockServer.Turn :=
  (i.turn.map Process.toTurn).toList ++
    if RamWriter.intRdenWire s.writer i.ports then [.writer] else []

/-- The child begins an iteration of its loop. -/
def polls (s : State axiIdWidth) (i : Input) : Bool :=
  match i.turn with
  | some turn => BlockServer.polls (view s) turn.toTurn
  | none => false

/-- The word that `memcpy` copies. -/
def copyEvent (s : State axiIdWidth) (i : Input) : List Word :=
  match i.turn with
  | some turn => BlockServer.copyEvent (view s) turn.toTurn
  | none => []

/-- The parent puts a word out. -/
def putsOut (s : State axiIdWidth) (i : Input) : Bool :=
  match i.turn with
  | some turn => BlockServer.sends (view s) turn.toTurn
  | none => false

section Processes

variable {s : BlockServer.State Word} {written : ℕ}

/-- The child looks at the number of words modulo the ring only. -/
theorem childStep_written
    (hsame : written % BlockServer.ringWords =
      s.written % BlockServer.ringWords) :
    BlockServer.childStep { s with written := written } =
      { BlockServer.childStep s with written := written } := by
  cases hchild : s.child with
  | poll => simp [BlockServer.childStep, BlockServer.position, hchild, hsame]
  | test position =>
      cases hready : BlockServer.ready s.limit position with
      | false => simp [BlockServer.childStep, hchild, hready]
      | true => simp [BlockServer.childStep, hchild, hready]
  | copy offset done =>
      by_cases hdone : done < BlockServer.halfWords
      · simp [BlockServer.childStep, hchild, hdone]
      · simp [BlockServer.childStep, hchild, hdone]

/-- A serving parent does not look at it. -/
theorem parentStep_written (hserving : BlockServer.Serving s) :
    BlockServer.parentStep true { s with written := written } =
      { BlockServer.parentStep true s with written := written } := by
  unfold BlockServer.Serving at hserving
  cases hparent : s.parent with
  | reset => simp [hparent] at hserving
  | accept => simp [hparent] at hserving
  | enable => simp [hparent] at hserving
  | take offset =>
      by_cases hpipe : s.pipe = 0
      · simp [BlockServer.parentStep, hparent, hpipe]
      · simp [BlockServer.parentStep, hparent, hpipe]
  | send offset done =>
      by_cases hdone : done < BlockServer.halfWords
      · simp [BlockServer.parentStep, hparent, hdone]
      · simp [BlockServer.parentStep, hparent, hdone]

/-- A process sees the status word as it would see the number of words. -/
theorem processStep_written (turn : Process)
    (hserving : BlockServer.Serving s)
    (hsame : written % BlockServer.ringWords =
      s.written % BlockServer.ringWords) :
    processStep turn { s with written := written } =
      { processStep turn s with written := written } := by
  cases turn with
  | child => exact childStep_written hsame
  | parent => exact parentStep_written hserving

/-- The processes leave the ring to the writer. -/
theorem processStep_frame (turn : Process) (hserving : BlockServer.Serving s) :
    (processStep turn s).enabled = s.enabled ∧
      (processStep turn s).acquisition = s.acquisition ∧
      (processStep turn s).written = s.written ∧
      (processStep turn s).ram = s.ram := by
  cases turn with
  | child =>
      obtain ⟨henabled, hacquired, hwritten, hram, -, -⟩ :=
        BlockServer.childStep_frame s
      exact ⟨henabled, hacquired, hwritten, hram⟩
  | parent =>
      obtain ⟨-, henabled, hacquired, hwritten, hram, -, -, -⟩ :=
        BlockServer.parentStep_of_serving hserving
      exact ⟨henabled, hacquired, hwritten, hram⟩

end Processes

/-- A state of the block server with the ring of a port is the board of that
port and of its own processes. -/
theorem board_of {port : Port axiIdWidth} {s : BlockServer.State Word}
    (henabled : s.enabled = true) (hacquired : s.acquisition = 1)
    (hram : s.ram = fun slot => port.memory (base.toNat + 8 * slot)) :
    board port (Host.of s) s.written = s := by
  obtain ⟨enabled, acquisition, written, ram, limit, child, buf, pipe, parent,
    client⟩ := s
  subst henabled hacquired hram
  rfl

/-- The turn of a process on the path is its turn in the block server. -/
theorem board_hostStep (word : ℕ → ℕ → Word) {s : State axiIdWidth}
    (hserving : BlockServer.Serving (view s))
    (hstatus : (RamWriter.stsData s.writer).toNat =
      s.port.beats % 2 ^ addrWidth) (turn : Option Process) :
    board s.port (hostStep s turn) s.port.beats =
      ((turn.map Process.toTurn).toList).foldl (BlockServer.step word)
        (view s) := by
  cases turn with
  | none => rfl
  | some turn =>
      have hsame : s.port.beats % BlockServer.ringWords =
          (RamWriter.stsData s.writer).toNat % BlockServer.ringWords := by
        rw [hstatus]
        exact (Nat.mod_mod _ _).symm
      have hseen : processStep turn (view s) =
          { processStep turn (board s.port s.host
              (RamWriter.stsData s.writer).toNat) with
            written := s.port.beats } :=
        processStep_written
          (s := board s.port s.host (RamWriter.stsData s.writer).toNat)
          turn hserving hsame
      obtain ⟨henabled, hacquired, hwritten, hram⟩ :=
        processStep_frame turn hserving
      have hhost : hostStep s (some turn) = Host.of (processStep turn (view s)) := by
        rw [hseen]
        rfl
      have hstep : processStep turn (view s) =
          BlockServer.step word (view s) turn.toTurn := by
        cases turn with
        | child => rfl
        | parent => rfl
      have hboard : board s.port (Host.of (processStep turn (view s)))
          (processStep turn (view s)).written = processStep turn (view s) :=
        board_of henabled hacquired hram
      rw [hwritten] at hboard
      rw [hhost]
      exact hboard.trans hstep

/-- What the environment and the run so far give in a cycle: the status word
counts the data beats, a serving parent, and for a data beat its burst's address
and the word of its number. -/
structure Orderly (word : ℕ → ℕ → Word) (s : State axiIdWidth) (i : Input) :
    Prop where
  status : (RamWriter.stsData s.writer).toNat = s.port.beats % 2 ^ addrWidth
  serving : BlockServer.Serving (view s)
  starts : (s.port.step (RamWriter.awHandshake base s.writer i.ports)
      (RamWriter.wHandshake s.writer i.ports)).starts =
    (List.range (s.port.step (RamWriter.awHandshake base s.writer i.ports)
      (RamWriter.wHandshake s.writer i.ports)).starts.length).map
      (RamWriter.burstStart addrWidth axiIdWidth base)
  cover : RamWriter.intRdenWire s.writer i.ports = true →
    s.port.beats < 16 * (s.port.step
      (RamWriter.awHandshake base s.writer i.ports)
      (RamWriter.wHandshake s.writer i.ports)).starts.length
  data : RamWriter.intRdenWire s.writer i.ports = true →
    RamWriter.mAxiWdata s.writer = word 1 s.port.beats

variable {word : ℕ → ℕ → Word} {s : State axiIdWidth} {i : Input}

/-- The memory port takes its step as the writer of the block server does. -/
theorem board_port (horderly : Orderly word s i) (host : Host) :
    board (s.port.step (RamWriter.awHandshake base s.writer i.ports)
        (RamWriter.wHandshake s.writer i.ports)) host
        (s.port.step (RamWriter.awHandshake base s.writer i.ports)
          (RamWriter.wHandshake s.writer i.ports)).beats =
      (if RamWriter.intRdenWire s.writer i.ports then
          [BlockServer.Turn.writer] else []).foldl (BlockServer.step word)
        (board s.port host s.port.beats) := by
  have hlength := RamWriter.length_wHandshake s.writer i.ports
  cases hread : RamWriter.intRdenWire s.writer i.ports with
  | false =>
      rw [hread] at hlength
      have hnone : RamWriter.wHandshake s.writer i.ports = [] :=
        List.length_eq_zero_iff.mp hlength
      rw [hnone]
      rfl
  | true =>
      have hvalid : (RamWriter.mAxiWvalid s.writer && i.ports.mAxiWready) =
          true := by
        rw [Bool.and_comm]
        exact hread
      have hone : RamWriter.wHandshake s.writer i.ports =
          [⟨RamWriter.mAxiWid s.writer, RamWriter.mAxiWdata s.writer,
            RamWriter.mAxiWlast s.writer⟩] := if_pos hvalid
      have hplace := MemoryPort.place_eq (by decide) (by decide)
        horderly.starts (horderly.cover hread)
      have hdata := horderly.data hread
      rw [hone] at hplace ⊢
      have hram := MemoryPort.store_slot base s.port.memory
        (s.port.beats % 2 ^ addrWidth)
        ⟨RamWriter.mAxiWid s.writer, RamWriter.mAxiWdata s.writer,
          RamWriter.mAxiWlast s.writer⟩
      rw [← hplace] at hram
      simp only [board, if_true, List.foldl_cons, List.foldl_nil,
        BlockServer.step, BlockServer.writerStep, BlockServer.position, ← hdata]
      congr 1

/-- The refinement: a cycle of the path is a turn of a process and then a turn
of the writer, each of them if it takes place. -/
theorem view_step (horderly : Orderly word s i) :
    view (step s i) =
      (turns s i).foldl (BlockServer.step word) (view s) := by
  rw [turns, List.foldl_append,
    ← board_hostStep word horderly.serving horderly.status i.turn]
  exact board_port horderly (hostStep s i.turn)

/-- No write of the parent fails. -/
theorem ne_of_mem_turns {turn : BlockServer.Turn} (hturn : turn ∈ turns s i) :
    turn ≠ .parent false := by
  rw [turns, List.mem_append] at hturn
  obtain hprocess | hwriter := hturn
  · cases hsome : i.turn with
    | none => simp [hsome] at hprocess
    | some process =>
        cases process with
        | child => simp_all [Process.toTurn]
        | parent => simp_all [Process.toTurn]
  · split at hwriter
    case isTrue =>
      rw [List.mem_singleton.mp hwriter]
      exact BlockServer.Turn.noConfusion
    case isFalse => exact absurd hwriter List.not_mem_nil

/-- The copy of a cycle is that of its turns. -/
theorem emitted_turns (word : ℕ → ℕ → Word) (s : State axiIdWidth) (i : Input) :
    emitted (BlockServer.step word) BlockServer.copyEvent (view s) (turns s i) =
      copyEvent s i := by
  rw [turns, copyEvent]
  cases i.turn <;> cases RamWriter.intRdenWire s.writer i.ports <;>
    simp [emitted, BlockServer.copyEvent]

/-- The iteration in progress after a cycle is that after its turns. -/
theorem foldl_paceStep_turns (word : ℕ → ℕ → Word) (s : State axiIdWidth)
    (i : Input) (started : ℕ) :
    (turns s i).foldl (BlockServer.paceStep word) (view s, started) =
      ((turns s i).foldl (BlockServer.step word) (view s),
        if polls s i then s.port.beats else started) := by
  rw [turns, polls]
  cases i.turn <;> cases RamWriter.intRdenWire s.writer i.ports <;> rfl

section Run

variable (axiIdWidth) (memory buf : ℕ → Word) (input : ℕ → Input)

def stateAt (cycle : ℕ) : State axiIdWidth :=
  (system axiIdWidth memory buf).stateAt input cycle

/-- The ports of the core along a run. -/
def ports (cycle : ℕ) : RamWriter.Input := (input cycle).ports

/-- The words that the core has taken from its stream before a cycle. -/
def taken (cycle : ℕ) : List Word :=
  RamWriter.streamWords addrWidth axiIdWidth (ports input) cycle

/-- The words that `memcpy` has copied before a cycle. -/
def copied : ℕ → List Word :=
  (system axiIdWidth memory buf).log input copyEvent

/-- The turns of the block server before a cycle. -/
def trace : ℕ → List BlockServer.Turn :=
  (system axiIdWidth memory buf).log input turns

/-- The data beats taken when the iteration in progress began. -/
def startedAt : ℕ → ℕ
  | 0 => 0
  | cycle + 1 =>
      if polls (stateAt axiIdWidth memory buf input cycle) (input cycle) then
        (stateAt axiIdWidth memory buf input cycle).port.beats
      else startedAt cycle

end Run

section Run

variable (axiIdWidth) (memory buf : ℕ → Word) (input : ℕ → Input)

/-- The core runs in the path as it does alone. -/
theorem component_writer :
    Component (system axiIdWidth memory buf)
      (RamWriter.core addrWidth axiIdWidth) State.writer
      fun _ i => i.ports where
  start := rfl
  step := fun _ _ => rfl

theorem writer_stateAt (cycle : ℕ) :
    (stateAt axiIdWidth memory buf input cycle).writer =
      (RamWriter.core addrWidth axiIdWidth).stateAt (ports input) cycle :=
  (component_writer axiIdWidth memory buf).stateAt input cycle

/-- The core and its memory run in the path as they do without processes. -/
theorem component_memory :
    Component (system axiIdWidth memory buf)
      (MemoryPort.system addrWidth axiIdWidth base memory)
      (fun s => ⟨s.writer, s.port⟩) fun _ i => i.ports where
  start := rfl
  step := fun _ _ => rfl

/-- The port has taken what the core has handed over. -/
theorem port_stateAt (cycle : ℕ) :
    (stateAt axiIdWidth memory buf input cycle).port.starts =
        RamWriter.awBeats addrWidth axiIdWidth base (ports input) cycle ∧
      (stateAt axiIdWidth memory buf input cycle).port.beats =
        (RamWriter.wBeats addrWidth axiIdWidth (ports input) cycle).length := by
  have hport := congrArg MemoryPort.State.port
    ((component_memory axiIdWidth memory buf).stateAt input cycle)
  change (stateAt axiIdWidth memory buf input cycle).port = _ at hport
  rw [hport]
  exact MemoryPort.port_stateAt addrWidth axiIdWidth base memory (ports input)
    cycle

end Run

section Run

variable (memory buf : ℕ → Word) {input : ℕ → Input} {horizon : ℕ}

/-- The stream of the run as the block server numbers it. -/
def streamWord (axiIdWidth : ℕ) (input : ℕ → Input) (horizon : ℕ)
    (_ index : ℕ) : Word :=
  (taken axiIdWidth input horizon).getD index 0

/-- A word that has been taken stays the word of its number. -/
theorem streamWord_eq {cycle index : ℕ} (hcycle : cycle ≤ horizon)
    (hindex : index < (taken axiIdWidth input cycle).length) :
    streamWord axiIdWidth input horizon 1 index =
      (taken axiIdWidth input cycle)[index] := by
  have hearlier : taken axiIdWidth input cycle <+:
      taken axiIdWidth input horizon :=
    Machine.log_isPrefix RamWriter.streamHandshake hcycle
  rw [streamWord, List.getD_eq_getElem _ _ (hindex.trans_le hearlier.length_le),
    hearlier.getElem hindex]

theorem stream_eq_take {cycle count : ℕ} (hcycle : cycle ≤ horizon)
    (hcount : count ≤ (taken axiIdWidth input cycle).length) :
    BlockServer.stream (streamWord axiIdWidth input horizon) 1 count =
      (taken axiIdWidth input cycle).take count := by
  apply List.ext_getElem
  · rw [BlockServer.length_stream, List.length_take, Nat.min_eq_left hcount]
  · intro index hleft hright
    rw [BlockServer.length_stream] at hleft
    rw [BlockServer.getElem_stream, List.getElem_take,
      streamWord_eq hcycle (hleft.trans_le hcount)]

section Slave

variable (hslave : RamWriter.OrderlySlave addrWidth axiIdWidth base
  (ports input) horizon)
include hslave

/-- The words taken are those stored and then those in the FIFO. -/
theorem taken_eq {cycle : ℕ} (hcycle : cycle ≤ horizon) :
    taken axiIdWidth input cycle =
      (RamWriter.wBeats addrWidth axiIdWidth (ports input) cycle).map
          RamWriter.WBeat.data ++
        (stateAt axiIdWidth memory buf input cycle).writer.fifo := by
  rw [writer_stateAt]
  exact RamWriter.streamWords_eq horizon hslave.run hslave.fifo cycle hcycle

theorem beats_le {cycle : ℕ} (hcycle : cycle ≤ horizon) :
    (stateAt axiIdWidth memory buf input cycle).port.beats ≤
      (taken axiIdWidth input cycle).length := by
  rw [(port_stateAt axiIdWidth memory buf input cycle).2, taken_eq memory buf hslave
    hcycle, List.length_append, List.length_map]
  exact Nat.le_add_right _ _

/-- An orderly memory port and a serving parent make every cycle orderly. -/
theorem orderly_stateAt {cycle : ℕ} (hcycle : cycle < horizon)
    (hserving : BlockServer.Serving
      (view (stateAt axiIdWidth memory buf input cycle))) :
    Orderly (streamWord axiIdWidth input horizon)
      (stateAt axiIdWidth memory buf input cycle) (input cycle) := by
  have hwidth : 4 ≤ addrWidth := by decide
  have hfirst := hslave.addressFirst hwidth
  obtain ⟨-, hbeats⟩ := port_stateAt axiIdWidth memory buf input cycle
  obtain ⟨hstarts, hnext⟩ := port_stateAt axiIdWidth memory buf input (cycle + 1)
  have hinv : RamWriter.BeatInv
      (RamWriter.wBeats addrWidth axiIdWidth (ports input) cycle).length
      ((RamWriter.core addrWidth axiIdWidth).stateAt (ports input) cycle) :=
    RamWriter.beatInv_stateAt hwidth horizon hslave.run cycle hcycle.le
  rw [← writer_stateAt axiIdWidth memory buf, ← hbeats] at hinv
  have hgrow := RamWriter.length_wBeats_succ addrWidth axiIdWidth (ports input)
    cycle
  rw [← writer_stateAt axiIdWidth memory buf, ← hbeats] at hgrow
  refine ⟨hinv.addr, hserving, ?_, ?_, ?_⟩
  · have hplaces := RamWriter.awBeats_eq base hwidth horizon hslave.run hfirst
      (cycle + 1) hcycle
    rw [← hstarts] at hplaces
    exact hplaces
  · intro hread
    have hcover := hslave.address (cycle + 1) hcycle
    rw [← hstarts, hgrow] at hcover
    change _ + (RamWriter.intRdenWire
      (stateAt axiIdWidth memory buf input cycle).writer
      (input cycle).ports).toNat ≤ _ at hcover
    rw [hread] at hcover
    exact hcover
  · intro hread
    have hfull := hslave.fifo cycle hcycle
    rw [← writer_stateAt axiIdWidth memory buf] at hfull
    obtain ⟨head, rest, hcontents⟩ := List.exists_cons_of_ne_nil (hfull hread)
    have htaken := taken_eq memory buf hslave hcycle.le
    rw [hcontents] at htaken
    have hindex : (stateAt axiIdWidth memory buf input cycle).port.beats <
        (taken axiIdWidth input cycle).length := by
      rw [htaken, List.length_append, List.length_map, ← hbeats,
        List.length_cons]
      omega
    rw [streamWord_eq hcycle.le hindex, RamWriter.mAxiWdata, hcontents,
      List.headD_cons, List.getElem_of_eq htaken]
    rw [List.getElem_append_right (by rw [List.length_map, ← hbeats])]
    simp [← hbeats]

/-- The path is the block server that takes the turns of the trace. -/
theorem pace_stateAt :
    ∀ cycle ≤ horizon,
      (view (stateAt axiIdWidth memory buf input cycle),
          startedAt axiIdWidth memory buf input cycle) =
        (trace axiIdWidth memory buf input cycle).foldl
          (BlockServer.paceStep (streamWord axiIdWidth input horizon))
          (BlockServer.opened (fun slot => memory (base.toNat + 8 * slot)) buf,
            0) := by
  apply upTo_induction
  · rfl
  · intro cycle hcycle ih
    have hserving : BlockServer.Serving
        (view (stateAt axiIdWidth memory buf input cycle)) := by
      have hview := congrArg Prod.fst ih
      rw [BlockServer.fst_foldl_paceStep] at hview
      change view (stateAt axiIdWidth memory buf input cycle) = _ at hview
      rw [hview]
      refine (BlockServer.serving_opened _ buf).foldl fun turn hturn => ?_
      obtain ⟨earlier, -, hearlier⟩ :=
        (Machine.mem_log_iff turns cycle turn).mp hturn
      exact ne_of_mem_turns hearlier
    have hnext := view_step (orderly_stateAt memory buf hslave hcycle hserving)
    rw [trace, Machine.log_succ, List.foldl_append, ← trace, ← ih]
    refine Eq.trans ?_ (foldl_paceStep_turns _ _ (input cycle) _).symm
    exact Prod.ext hnext rfl

/-- What the block server has come to. -/
theorem view_stateAt {cycle : ℕ} (hcycle : cycle ≤ horizon) :
    view (stateAt axiIdWidth memory buf input cycle) =
      BlockServer.after (streamWord axiIdWidth input horizon)
        (BlockServer.opened (fun slot => memory (base.toNat + 8 * slot)) buf)
        (trace axiIdWidth memory buf input cycle) := by
  have hview := congrArg Prod.fst (pace_stateAt memory buf hslave cycle hcycle)
  rw [BlockServer.fst_foldl_paceStep] at hview
  exact hview

/-- The path copies what the block server copies. -/
theorem copied_eq_emitted :
    ∀ cycle ≤ horizon,
      copied axiIdWidth memory buf input cycle =
        emitted (BlockServer.step (streamWord axiIdWidth input horizon))
          BlockServer.copyEvent
          (BlockServer.opened (fun slot => memory (base.toNat + 8 * slot)) buf)
          (trace axiIdWidth memory buf input cycle) := by
  apply upTo_induction
  · rfl
  · intro cycle hcycle ih
    have hview := view_stateAt memory buf hslave hcycle.le
    rw [copied, trace, Machine.log_succ, Machine.log_succ, emitted_append,
      ← copied, ← trace, ← ih, ← BlockServer.after, ← hview]
    exact congrArg (_ ++ ·) (emitted_turns _ _ _).symm

end Slave

end Run

end Rfsoc.Acquisition
