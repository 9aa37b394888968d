import Rfsoc.Axi.ReadyPort
import Rfsoc.System.Acquisition

/-!
# What the acquisition path records

The output of the path is the beginning of what the core has taken from its
stream, as long as the memory port is orderly, the child keeps up with the writer
and the parent with the child.  A run with such a port, in which the processes
copy and send the first half, shows that the three can be had together.
-/

namespace Rfsoc.Acquisition

open Rfsoc.Clocked
open Rfsoc.Ring

variable {axiIdWidth : ℕ}

section Run

variable (axiIdWidth) (memory buf : ℕ → Word) (input : ℕ → Input)

/-- A run whose memory port is orderly, whose child is never more than a quarter
of the ring late, and whose parent is never lapped by the child. -/
structure Attended (horizon : ℕ) : Prop where
  slave : RamWriter.OrderlySlave addrWidth axiIdWidth base (ports input) horizon
  paced : ∀ cycle ≤ horizon,
    (stateAt axiIdWidth memory buf input cycle).port.beats ≤
      startedAt axiIdWidth memory buf input cycle + BlockServer.maxGrowth
  notLapped : ∀ cycle < horizon,
    putsOut (stateAt axiIdWidth memory buf input cycle) (input cycle) = true →
      (copied axiIdWidth memory buf input cycle).length ≤
        (stateAt axiIdWidth memory buf input cycle).host.output.length +
          BlockServer.ringWords

/-- What the recorder has put out at a cycle is the beginning of what the core
has taken from its stream, by way of the copies; what has not been copied yet is
still in the ring, each word in its slot, or in the FIFO. -/
structure Recorded (cycle : ℕ) : Prop where
  output : (stateAt axiIdWidth memory buf input cycle).host.output <+:
    copied axiIdWidth memory buf input cycle
  copies : copied axiIdWidth memory buf input cycle <+:
    (taken axiIdWidth input cycle).take
      (stateAt axiIdWidth memory buf input cycle).port.beats
  ring : ∀ k (h : k < (taken axiIdWidth input cycle).length),
    (copied axiIdWidth memory buf input cycle).length ≤ k →
    k < (stateAt axiIdWidth memory buf input cycle).port.beats →
    (stateAt axiIdWidth memory buf input cycle).port.memory
      (base.toNat + 8 * (k % 2 ^ addrWidth)) = (taken axiIdWidth input cycle)[k]
  fifo : taken axiIdWidth input cycle =
    (taken axiIdWidth input cycle).take
        (stateAt axiIdWidth memory buf input cycle).port.beats ++
      (stateAt axiIdWidth memory buf input cycle).writer.fifo

end Run

section Run

variable (memory buf : ℕ → Word) {input : ℕ → Input} {horizon : ℕ}

/-- The books of both processes. -/
def Books (word : ℕ → ℕ → Word) (started : ℕ) (copies : List Word)
    (s : BlockServer.State Word) : Prop :=
  ∃ halves blocks, BlockServer.ReaderInv 1 halves started copies word s ∧
    BlockServer.HandOffInv halves blocks copies s

section Books

variable {word : ℕ → ℕ → Word} {started : ℕ} {copies : List Word}
  {s : BlockServer.State Word}

/-- The writer keeps the books. -/
theorem Books.writer (hbooks : Books word started copies s) :
    Books word started copies (BlockServer.step word s .writer) := by
  obtain ⟨halves, blocks, hreader, hhandOff⟩ := hbooks
  exact ⟨halves, blocks, hreader.writer_step, hhandOff.writer_step⟩

/-- A turn of the child adds its copy. -/
theorem Books.child (hbooks : Books word started copies s)
    (hpace : s.written ≤ started + BlockServer.maxGrowth) :
    Books word (BlockServer.startedAfter started s .child)
      (copies ++ BlockServer.copyEvent s .child)
      (BlockServer.step word s .child) := by
  obtain ⟨halves, blocks, hreader, hhandOff⟩ := hbooks
  exact ⟨_, blocks, hreader.child_step hpace, hhandOff.child_step⟩

/-- A turn of the parent that is not lapped keeps the books. -/
theorem Books.parent (hbooks : Books word started copies s)
    (hlap : BlockServer.sends s (.parent true) = true →
      copies.length ≤ s.client.length + BlockServer.ringWords) :
    Books word started copies (BlockServer.step word s (.parent true)) := by
  obtain ⟨halves, blocks, hreader, hhandOff⟩ := hbooks
  obtain ⟨blocks', hnext⟩ := hhandOff.parent_step hlap
  exact ⟨halves, blocks', hreader.parent_step hhandOff.serving, hnext⟩

theorem Books.serving (hbooks : Books word started copies s) :
    BlockServer.Serving s := by
  obtain ⟨halves, blocks, hreader, hhandOff⟩ := hbooks
  exact hhandOff.serving

/-- The turns of one cycle keep the books. -/
theorem Books.turns {s : State axiIdWidth} {i : Input}
    (hbooks : Books word started copies (view s))
    (hpace : s.port.beats ≤ started + BlockServer.maxGrowth)
    (hlap : putsOut s i = true →
      copies.length ≤ s.host.output.length + BlockServer.ringWords) :
    Books word (if polls s i then s.port.beats else started)
      (copies ++ copyEvent s i)
      ((Acquisition.turns s i).foldl (BlockServer.step word) (view s)) := by
  have hprocess : Books word (if polls s i then s.port.beats else started)
      (copies ++ copyEvent s i)
      ((i.turn.map Process.toTurn).toList.foldl (BlockServer.step word)
        (view s)) := by
    unfold polls copyEvent
    unfold putsOut at hlap
    cases hturn : i.turn with
    | none => simpa using hbooks
    | some turn =>
        rw [hturn] at hlap
        cases turn with
        | child => exact hbooks.child hpace
        | parent =>
            have hnext := hbooks.parent hlap
            simpa [Process.toTurn, BlockServer.polls, BlockServer.copyEvent]
              using hnext
  rw [Acquisition.turns, List.foldl_append]
  cases RamWriter.intRdenWire s.writer i.ports with
  | false => exact hprocess
  | true => exact hprocess.writer

end Books

variable {memory buf} in
theorem books_stateAt
    (hattended : Attended axiIdWidth memory buf input horizon) :
    ∀ cycle ≤ horizon, Books (streamWord axiIdWidth input horizon)
      (startedAt axiIdWidth memory buf input cycle)
      (copied axiIdWidth memory buf input cycle)
      (view (stateAt axiIdWidth memory buf input cycle)) := by
  apply upTo_induction
  · exact ⟨0, 0, BlockServer.readerInv_opened _ buf,
      BlockServer.handOffInv_opened _ buf⟩
  · intro cycle hcycle ih
    have horderly := orderly_stateAt memory buf hattended.slave hcycle ih.serving
    have hnext := ih.turns (hattended.paced cycle hcycle.le)
      (hattended.notLapped cycle hcycle)
    rw [← view_step horderly] at hnext
    exact hnext

/-- The copies are the beginning of what has been stored. -/
theorem copied_isPrefix
    (hattended : Attended axiIdWidth memory buf input horizon) {cycle : ℕ}
    (hcycle : cycle ≤ horizon) :
    copied axiIdWidth memory buf input cycle <+:
      (taken axiIdWidth input cycle).take
        (stateAt axiIdWidth memory buf input cycle).port.beats := by
  obtain ⟨halves, blocks, hreader, -⟩ := books_stateAt hattended cycle hcycle
  have hbeats := beats_le memory buf hattended.slave hcycle
  have hcount : (copied axiIdWidth memory buf input cycle).length ≤
      (stateAt axiIdWidth memory buf input cycle).port.beats :=
    hreader.copied_le
  rw [hreader.copies, stream_eq_take hcycle (hcount.trans hbeats)]
  exact List.take_prefix_take_left hcount

/-- The output is the beginning of what the core has taken. -/
theorem output_isPrefix
    (hattended : Attended axiIdWidth memory buf input horizon) {cycle : ℕ}
    (hcycle : cycle ≤ horizon) :
    (stateAt axiIdWidth memory buf input cycle).host.output <+:
      taken axiIdWidth input cycle := by
  obtain ⟨halves, blocks, -, hhandOff⟩ := books_stateAt hattended cycle hcycle
  have hcopied := copied_isPrefix memory buf hattended hcycle
  exact hhandOff.output.trans (hcopied.trans (List.take_prefix _ _))

section FirstBlock

variable {memory buf} {early middle late : ℕ}

/-- The words that the core has taken are those stored and those in the FIFO. -/
theorem length_taken
    (hslave : RamWriter.OrderlySlave addrWidth axiIdWidth base (ports input)
      horizon) {cycle : ℕ} (hcycle : cycle ≤ horizon) :
    (taken axiIdWidth input cycle).length =
      (stateAt axiIdWidth memory buf input cycle).port.beats +
        (stateAt axiIdWidth memory buf input cycle).writer.fifo.length := by
  rw [taken_eq memory buf hslave hcycle, List.length_append, List.length_map,
    (port_stateAt axiIdWidth memory buf input cycle).2]

/-- A cycle adds the turn of a process and then that of the writer. -/
theorem trace_succ (cycle : ℕ) :
    ∃ m ≤ 1, trace axiIdWidth memory buf input (cycle + 1) =
        trace axiIdWidth memory buf input cycle ++
          (((input cycle).turn.map Process.toTurn).toList ++
            List.replicate m .writer) ∧
      (stateAt axiIdWidth memory buf input (cycle + 1)).port.beats =
        (stateAt axiIdWidth memory buf input cycle).port.beats + m ∧
      ((input cycle).ports.mAxiWready = false → m = 0) := by
  have hgrow := RamWriter.length_wHandshake
    (stateAt axiIdWidth memory buf input cycle).writer (input cycle).ports
  refine ⟨_, Bool.toNat_le _, ?_, congrArg (_ + ·) hgrow, ?_⟩
  · rw [trace, Machine.log_succ]
    change _ ++ turns (stateAt axiIdWidth memory buf input cycle) _ = _
    rw [turns]
    cases RamWriter.intRdenWire
      (stateAt axiIdWidth memory buf input cycle).writer
      (input cycle).ports <;> rfl
  · intro hbusy
    rw [RamWriter.intRdenWire, hbusy]
    rfl

variable (axiIdWidth memory buf) in
/-- Cycles without a process add turns of the writer only. -/
theorem trace_idle {early n : ℕ}
    (hidle : ∀ k < n, (input (early + k)).turn = none) :
    ∃ m, trace axiIdWidth memory buf input (early + n) =
        trace axiIdWidth memory buf input early ++ List.replicate m .writer ∧
      (stateAt axiIdWidth memory buf input (early + n)).port.beats =
        (stateAt axiIdWidth memory buf input early).port.beats + m := by
  induction n with
  | zero => exact ⟨0, (List.append_nil _).symm, rfl⟩
  | succ n ih =>
      obtain ⟨m, htrace, hbeats⟩ := ih fun k hk => hidle k (by omega)
      obtain ⟨one, -, hnext, hmore, -⟩ := trace_succ (early + n)
      rw [hidle n (Nat.lt_succ_self n), htrace] at hnext
      rw [hbeats] at hmore
      refine ⟨m + one, ?_, ?_⟩
      · rw [← Nat.add_assoc, hnext, List.replicate_add, List.append_assoc]
        rfl
      · rw [← Nat.add_assoc, hmore, Nat.add_assoc]

variable (axiIdWidth memory buf) in
/-- Cycles in which the port lets a process by add the turns of that process. -/
theorem trace_busy {early n : ℕ} {process : Process}
    (hturn : ∀ k < n, (input (early + k)).turn = some process)
    (hbusy : ∀ k < n, (input (early + k)).ports.mAxiWready = false) :
    trace axiIdWidth memory buf input (early + n) =
        trace axiIdWidth memory buf input early ++
          List.replicate n process.toTurn ∧
      (stateAt axiIdWidth memory buf input (early + n)).port.beats =
        (stateAt axiIdWidth memory buf input early).port.beats := by
  induction n with
  | zero => exact ⟨(List.append_nil _).symm, rfl⟩
  | succ n ih =>
      obtain ⟨htrace, hbeats⟩ := ih (fun k hk => hturn k (by omega))
        fun k hk => hbusy k (by omega)
      obtain ⟨one, -, hnext, hmore, hnone⟩ := trace_succ (early + n)
      obtain rfl := hnone (hbusy n (Nat.lt_succ_self n))
      rw [hturn n (Nat.lt_succ_self n), htrace] at hnext
      rw [hbeats] at hmore
      refine ⟨?_, hmore⟩
      rw [← Nat.add_assoc, hnext, List.replicate_succ', List.append_assoc]
      rfl

/-- The stretches of a run in which the processes copy and send the first half,
with a cycle for each of their turns. -/
def blockPhases (early middle late : ℕ) : List (ℕ × Option Process) :=
  [(early, none), (2, some .child), (middle, none), (2, some .child),
    (late, none), (BlockServer.halfWords + 3, some .child),
    (BlockServer.halfWords + 2, some .parent)]

/-- The cycle in which the first half has been sent. -/
def blockEnd (early middle late : ℕ) : ℕ :=
  early + 2 + middle + 2 + late + (BlockServer.halfWords + 3) +
    (BlockServer.halfWords + 2)

theorem copyHalf_eq_replicate :
    BlockServer.copyHalf =
      List.replicate (BlockServer.halfWords + 3) BlockServer.Turn.child := by
  have hturns : ∀ n, [BlockServer.Turn.child, .child] ++
      (List.replicate n BlockServer.Turn.child ++ [.child]) =
        List.replicate (n + 3) BlockServer.Turn.child := by
    intro n
    rw [← List.replicate_succ']
    rfl
  exact hturns BlockServer.halfWords

theorem sendHalf_eq_replicate :
    BlockServer.sendHalf =
      List.replicate (BlockServer.halfWords + 2)
        (BlockServer.Turn.parent true) := by
  have hturns : ∀ n, [BlockServer.Turn.parent true] ++
      (List.replicate n (BlockServer.Turn.parent true) ++ [.parent true]) =
        List.replicate (n + 2) (BlockServer.Turn.parent true) := by
    intro n
    rw [← List.replicate_succ']
    rfl
  exact hturns BlockServer.halfWords

variable (axiIdWidth memory buf input early middle late) in
/-- A run that goes through these stretches with a port that looks at the FIFO.
The words that come in each stretch take the writer past the first half, by less
than a quarter of the ring at a time. -/
structure FirstBlock : Prop where
  turn : GoesThrough (fun cycle => (input cycle).turn) 0
    (blockPhases early middle late) none
  tended : ∀ cycle, RamWriter.Tended
    (stateAt axiIdWidth memory buf input cycle).writer (input cycle).ports
  busy : ∀ cycle, (input cycle).turn ≠ none →
    (input cycle).ports.mAxiWready = false
  first : (taken axiIdWidth input early).length ≤ BlockServer.maxGrowth
  second : (taken axiIdWidth input (early + 2 + middle)).length ≤
    BlockServer.halfWords
  secondPace : (taken axiIdWidth input (early + 2 + middle)).length + 17 ≤
    (taken axiIdWidth input early).length + BlockServer.maxGrowth
  third : BlockServer.halfWords + 17 <
    (taken axiIdWidth input (early + 2 + middle + 2 + late)).length
  thirdPace : (taken axiIdWidth input
      (early + 2 + middle + 2 + late)).length + 17 ≤
    (taken axiIdWidth input (early + 2 + middle)).length + BlockServer.maxGrowth

section Stretches

variable (hblock : FirstBlock axiIdWidth memory buf input early middle late)
include hblock

theorem FirstBlock.slave (horizon : ℕ) :
    RamWriter.OrderlySlave addrWidth axiIdWidth base (ports input) horizon := by
  refine RamWriter.orderlySlave_of_tended (by decide) fun cycle _ => ?_
  rw [← writer_stateAt axiIdWidth memory buf]
  exact hblock.tended cycle

/-- What has been stored is within 17 words of what has been taken. -/
theorem FirstBlock.beats (cycle : ℕ) :
    (stateAt axiIdWidth memory buf input cycle).port.beats ≤
        (taken axiIdWidth input cycle).length ∧
      (taken axiIdWidth input cycle).length ≤
        (stateAt axiIdWidth memory buf input cycle).port.beats + 17 := by
  have hlevel : RamWriter.LevelInv
      ((RamWriter.core addrWidth axiIdWidth).stateAt (ports input) cycle) := by
    refine RamWriter.levelInv_stateAt (fun earlier _ => ?_) cycle le_rfl
    rw [← writer_stateAt axiIdWidth memory buf]
    exact hblock.tended earlier
  rw [← writer_stateAt axiIdWidth memory buf] at hlevel
  have hstored := hlevel.level
  have htaken : (taken axiIdWidth input cycle).length =
      (stateAt axiIdWidth memory buf input cycle).port.beats +
        (stateAt axiIdWidth memory buf input cycle).writer.fifo.length :=
    length_taken (hblock.slave cycle) le_rfl
  omega

/-- The trace of such a run is the schedule of the first block. -/
theorem FirstBlock.trace_eq :
    ∃ filled more past, trace axiIdWidth memory buf input
          (blockEnd early middle late) =
        BlockServer.firstHalf filled more past ++ BlockServer.sendHalf ∧
      (stateAt axiIdWidth memory buf input early).port.beats = filled ∧
      (stateAt axiIdWidth memory buf input (early + 2 + middle)).port.beats =
        filled + more ∧
      (stateAt axiIdWidth memory buf input
          (early + 2 + middle + 2 + late)).port.beats =
        filled + more + past := by
  have hquiet : ∀ {start n : ℕ} {process : Process},
      (∀ k < n, (input (start + k)).turn = some process) →
        ∀ k < n, (input (start + k)).ports.mAxiWready = false := by
    intro start n process hturn k hk
    apply hblock.busy
    rw [hturn k hk]
    exact Option.some_ne_none process
  have hphase₁ := hblock.turn
  have hphase₂ := hphase₁.tail
  rw [Nat.zero_add] at hphase₂
  have hphase₃ := hphase₂.tail
  have hphase₄ := hphase₃.tail
  have hphase₅ := hphase₄.tail
  have hphase₆ := hphase₅.tail
  have hphase₇ := hphase₆.tail
  obtain ⟨filled, htrace₁, hbeats₁⟩ :=
    trace_idle axiIdWidth memory buf hphase₁.head
  obtain ⟨htrace₂, hbeats₂⟩ :=
    trace_busy axiIdWidth memory buf hphase₂.head (hquiet hphase₂.head)
  obtain ⟨more, htrace₃, hbeats₃⟩ :=
    trace_idle axiIdWidth memory buf hphase₃.head
  obtain ⟨htrace₄, hbeats₄⟩ :=
    trace_busy axiIdWidth memory buf hphase₄.head (hquiet hphase₄.head)
  obtain ⟨past, htrace₅, hbeats₅⟩ :=
    trace_idle axiIdWidth memory buf hphase₅.head
  obtain ⟨htrace₆, -⟩ :=
    trace_busy axiIdWidth memory buf hphase₆.head (hquiet hphase₆.head)
  obtain ⟨htrace₇, -⟩ :=
    trace_busy axiIdWidth memory buf hphase₇.head (hquiet hphase₇.head)
  rw [Nat.zero_add] at htrace₁ hbeats₁
  have hfilled : (stateAt axiIdWidth memory buf input early).port.beats =
      filled := hbeats₁.trans (Nat.zero_add filled)
  rw [hbeats₂, hfilled] at hbeats₃
  rw [hbeats₄, hbeats₃] at hbeats₅
  refine ⟨filled, more, past, ?_, hfilled, hbeats₃, hbeats₅⟩
  rw [blockEnd, htrace₇, htrace₆, htrace₅, htrace₄, htrace₃, htrace₂,
    htrace₁, BlockServer.firstHalf, copyHalf_eq_replicate,
    sendHalf_eq_replicate]
  simp only [List.append_assoc]
  rfl

/-- The stretches are within the pace of the child. -/
theorem FirstBlock.bounds :
    ∃ filled more past, trace axiIdWidth memory buf input
          (blockEnd early middle late) =
        BlockServer.firstHalf filled more past ++ BlockServer.sendHalf ∧
      (filled ≤ BlockServer.maxGrowth ∧ more ≤ BlockServer.maxGrowth ∧
        past ≤ BlockServer.maxGrowth) ∧
      filled + more ≤ BlockServer.halfWords ∧
      BlockServer.halfWords < filled + more + past ∧
      filled + more + past < BlockServer.ringWords := by
  obtain ⟨filled, more, past, htrace, hfilled, hmore, hpast⟩ := hblock.trace_eq
  have hbeats₁ := hblock.beats early
  have hbeats₂ := hblock.beats (early + 2 + middle)
  have hbeats₃ := hblock.beats (early + 2 + middle + 2 + late)
  rw [hfilled] at hbeats₁
  rw [hmore] at hbeats₂
  rw [hpast] at hbeats₃
  have hfirst := hblock.first
  have hsecond := hblock.second
  have hsecondPace := hblock.secondPace
  have hthird := hblock.third
  have hthirdPace := hblock.thirdPace
  have hhalf : BlockServer.halfWords =
      BlockServer.maxGrowth + BlockServer.maxGrowth := rfl
  have hring : BlockServer.ringWords = 2 * BlockServer.halfWords := rfl
  have hpos : 0 < BlockServer.maxGrowth := Nat.two_pow_pos 18
  exact ⟨filled, more, past, htrace, by omega, by omega, by omega, by omega⟩

theorem FirstBlock.attended :
    Attended axiIdWidth memory buf input (blockEnd early middle late) := by
  obtain ⟨filled, more, past, htrace, ⟨hfilled, hmore, hlate⟩, hbefore, hpast,
    hroom⟩ := hblock.bounds
  have hslave := hblock.slave (blockEnd early middle late)
  refine ⟨hslave, ?_, ?_⟩
  · intro cycle hcycle
    have hpace := BlockServer.throughout_firstHalf
      (streamWord axiIdWidth input (blockEnd early middle late))
      (fun slot => memory (base.toNat + 8 * slot)) buf hfilled hmore hlate
      BlockServer.sendHalf (by
        rintro turn hturn rfl
        simp [BlockServer.sendHalf] at hturn)
    rw [← htrace] at hpace
    have hearlier := hpace _ (Machine.log_isPrefix turns hcycle)
    rw [← trace, ← pace_stateAt memory buf hslave cycle hcycle] at hearlier
    exact hearlier
  · intro cycle hcycle _
    have hgrows : copied axiIdWidth memory buf input cycle <+:
        copied axiIdWidth memory buf input (blockEnd early middle late) :=
      Machine.log_isPrefix copyEvent hcycle.le
    have hblockCopied := (BlockServer.after_block
      (streamWord axiIdWidth input (blockEnd early middle late))
      (fun slot => memory (base.toNat + 8 * slot)) buf filled more past hbefore
      hpast hroom).2
    rw [← htrace, ← copied_eq_emitted memory buf hslave _ le_rfl] at hblockCopied
    have hlength := hgrows.length_le
    rw [hblockCopied, BlockServer.length_stream] at hlength
    have hring : BlockServer.ringWords = 2 * BlockServer.halfWords := rfl
    omega

theorem FirstBlock.halfWords_le :
    BlockServer.halfWords ≤
      (taken axiIdWidth input (blockEnd early middle late)).length := by
  have hearlier : taken axiIdWidth input (early + 2 + middle + 2 + late) <+:
      taken axiIdWidth input (blockEnd early middle late) :=
    Machine.log_isPrefix RamWriter.streamHandshake (by
      rw [blockEnd]
      omega)
  have hlength := hearlier.length_le
  have hthird := hblock.third
  omega

/-- The first half of the stream has been put out. -/
theorem FirstBlock.output :
    (stateAt axiIdWidth memory buf input
        (blockEnd early middle late)).host.output =
      (taken axiIdWidth input (blockEnd early middle late)).take
        BlockServer.halfWords := by
  obtain ⟨filled, more, past, htrace, -, hbefore, hpast, hroom⟩ := hblock.bounds
  have hslave := hblock.slave (blockEnd early middle late)
  have hview := view_stateAt memory buf hslave le_rfl
  have hclient := (BlockServer.after_block
    (streamWord axiIdWidth input (blockEnd early middle late))
    (fun slot => memory (base.toNat + 8 * slot)) buf filled more past hbefore
    hpast hroom).1
  rw [← htrace, ← hview, view_client,
    stream_eq_take le_rfl hblock.halfWords_le] at hclient
  exact hclient

end Stretches

end FirstBlock

end Run

/-- The path records its stream: in every run with an orderly memory port, a
child that keeps up and a parent that is not lapped, the output is the
beginning of what the core has taken from its stream. -/
theorem acquisition_records (axiIdWidth : ℕ) (memory buf : ℕ → Word)
    (input : ℕ → Input) (horizon : ℕ)
    (hattended : Attended axiIdWidth memory buf input horizon) :
    ∀ cycle ≤ horizon, Recorded axiIdWidth memory buf input cycle := by
  intro cycle hcycle
  obtain ⟨halves, blocks, hreader, hhandOff⟩ :=
    books_stateAt hattended cycle hcycle
  refine ⟨hhandOff.output, copied_isPrefix memory buf hattended hcycle, ?_, ?_⟩
  · intro k hk hfresh hlt
    have hkept : (stateAt axiIdWidth memory buf input cycle).port.beats ≤
        (copied axiIdWidth memory buf input cycle).length +
          BlockServer.ringWords :=
      hreader.written_le (hattended.paced cycle hcycle)
    have hrecent : (stateAt axiIdWidth memory buf input cycle).port.beats ≤
        k + BlockServer.ringWords := by omega
    have hring := hreader.ring k
      (by
        rw [BlockServer.length_stream]
        exact hlt)
      (by
        rw [BlockServer.length_stream]
        exact hrecent)
    rw [BlockServer.getElem_stream, streamWord_eq hcycle hk] at hring
    exact hring
  · have hstored := taken_eq memory buf hattended.slave hcycle
    rw [(port_stateAt axiIdWidth memory buf input cycle).2]
    conv_lhs => rw [hstored]
    congr 1
    rw [hstored]
    exact (List.take_left' (List.length_map _)).symm

/-- A word in every cycle without a turn, and a port that takes what is in store
in these cycles. -/
def feed (early middle late cycle : ℕ) (s : State 3) : Input where
  ports :=
    { aresetn := true
      intEmptyWire := decide (s.writer.fifo.length ≤ 15)
      intFullWire := false
      mAxiAwready := true
      mAxiWready := (phased (blockPhases early middle late) none cycle).isNone &&
        !s.writer.fifo.isEmpty
      sAxisTdata := BitVec.ofNat 64 cycle
      sAxisTvalid :=
        (phased (blockPhases early middle late) none cycle).isNone }
  turn := phased (blockPhases early middle late) none cycle

def feedingRun (early middle late : ℕ) : ℕ → Input :=
  (system 3 (fun _ => 0) fun _ => 0).chosen (feed early middle late)

section Feeding

variable {early middle late : ℕ}

theorem feedingRun_eq (cycle : ℕ) :
    feedingRun early middle late cycle = feed early middle late cycle
      (stateAt 3 (fun _ => 0) (fun _ => 0) (feedingRun early middle late)
        cycle) :=
  Machine.chosen_eq _ _ cycle

theorem feedingRun_tended (cycle : ℕ) :
    RamWriter.Tended
      (stateAt 3 (fun _ => 0) (fun _ => 0) (feedingRun early middle late)
        cycle).writer (feedingRun early middle late cycle).ports := by
  rw [feedingRun_eq]
  generalize stateAt 3 (fun _ => 0) (fun _ => 0) _ cycle = s
  refine ⟨rfl, rfl, rfl, ?_, ?_⟩
  · intro hready
    simpa [feed] using (Bool.and_eq_true_iff.mp hready).2
  · intro hword hstored
    have hvalid : (phased (blockPhases early middle late) none cycle).isNone =
        true := (Bool.and_eq_true_iff.mp hword).2
    simp [feed, hvalid, hstored]

/-- A stretch without turns brings a word in every cycle, and any other none. -/
theorem feedingRun_taken {start length : ℕ} {turn : Option Process}
    (hturn : ∀ k < length,
      (feedingRun early middle late (start + k)).turn = turn) :
    (taken 3 (feedingRun early middle late) (start + length)).length =
      (taken 3 (feedingRun early middle late) start).length +
        length * turn.isNone.toNat := by
  induction length with
  | zero => simp
  | succ n ih =>
      have hlast := hturn n (Nat.lt_succ_self n)
      have hone : (RamWriter.streamHandshake
          ((RamWriter.core addrWidth 3).stateAt
            (ports (feedingRun early middle late)) (start + n))
          (ports (feedingRun early middle late) (start + n))).length =
            turn.isNone.toNat := by
        rw [← hlast, ports, feedingRun_eq, RamWriter.streamHandshake]
        cases hnone : (phased (blockPhases early middle late) none
          (start + n)).isNone <;>
            simp only [feed, RamWriter.intTreadyWire, hnone] <;> rfl
      rw [← Nat.add_assoc, taken, RamWriter.streamWords, Machine.log_succ,
        List.length_append, hone, ← RamWriter.streamWords, ← taken,
        ih fun k hk => hturn k (by omega), Nat.add_assoc, ← Nat.succ_mul]

variable (early middle late) in
theorem feedingRun_turn :
    GoesThrough (fun cycle => (feedingRun early middle late cycle).turn) 0
      (blockPhases early middle late) none := by
  intro cycle
  rw [Nat.zero_add]
  rfl

theorem feedingRun_firstBlock (hearly : early ≤ BlockServer.maxGrowth)
    (hmiddle : middle + 17 ≤ BlockServer.maxGrowth)
    (hlate : late + 17 ≤ BlockServer.maxGrowth)
    (hpast : BlockServer.halfWords + 17 < early + middle + late) :
    FirstBlock 3 (fun _ => 0) (fun _ => 0) (feedingRun early middle late) early
      middle late := by
  have hphase₁ := feedingRun_turn early middle late
  have hphase₂ := hphase₁.tail
  have hphase₃ := hphase₂.tail
  have hphase₄ := hphase₃.tail
  have hphase₅ := hphase₄.tail
  have htaken₁ := feedingRun_taken hphase₁.head
  have htaken₂ := feedingRun_taken hphase₂.head
  have htaken₃ := feedingRun_taken hphase₃.head
  have htaken₄ := feedingRun_taken hphase₄.head
  have htaken₅ := feedingRun_taken hphase₅.head
  rw [htaken₄, htaken₃, htaken₂, htaken₁] at htaken₅
  rw [htaken₂, htaken₁] at htaken₃
  simp only [Nat.zero_add, Option.isNone_none, Option.isNone_some,
    Bool.toNat_true, Bool.toNat_false, Nat.mul_one, Nat.mul_zero, Nat.add_zero]
    at htaken₁ htaken₃ htaken₅
  have hnone : (taken 3 (feedingRun early middle late) 0).length = 0 := rfl
  have hhalf : BlockServer.halfWords =
      BlockServer.maxGrowth + BlockServer.maxGrowth := rfl
  refine ⟨hphase₁, feedingRun_tended, ?_, ?_, ?_, ?_, ?_, ?_⟩
  · intro cycle hturn
    rw [feedingRun_eq] at hturn ⊢
    simp only [feed] at hturn ⊢
    rw [Option.isNone_eq_false_iff.mpr (Option.isSome_iff_ne_none.mpr hturn)]
    rfl
  all_goals omega

end Feeding

/-- The first half of a stream of numbers is stored, copied and put out. -/
theorem acquisition_records_feedingRun :
    Recorded 3 (fun _ => 0) (fun _ => 0)
        (feedingRun BlockServer.maxGrowth (BlockServer.maxGrowth - 17) 64)
        (blockEnd BlockServer.maxGrowth (BlockServer.maxGrowth - 17) 64) ∧
      (stateAt 3 (fun _ => 0) (fun _ => 0)
          (feedingRun BlockServer.maxGrowth (BlockServer.maxGrowth - 17) 64)
          (blockEnd BlockServer.maxGrowth (BlockServer.maxGrowth - 17)
            64)).host.output.length = BlockServer.halfWords := by
  have hblock := feedingRun_firstBlock (le_refl BlockServer.maxGrowth)
    (by decide : BlockServer.maxGrowth - 17 + 17 ≤ BlockServer.maxGrowth)
    (by decide : 64 + 17 ≤ BlockServer.maxGrowth) (by decide)
  refine ⟨acquisition_records 3 (fun _ => 0) (fun _ => 0)
    (feedingRun BlockServer.maxGrowth (BlockServer.maxGrowth - 17) 64) _
    hblock.attended _ le_rfl, ?_⟩
  rw [hblock.output, List.length_take]
  exact Nat.min_eq_left hblock.halfWords_le

end Rfsoc.Acquisition
