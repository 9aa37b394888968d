import Rfsoc.Host.RingReader
import Rfsoc.Host.Schedule

/-!
# The hand-off between the two processes

The shared buffer holds two halves and the pipe says how many have been filled;
nothing tells the child how many have been sent.  What the parent outputs is
what the child has copied as long as the child does not lap it, that is as long
as no word is sent after the word two halves later has been copied over it.
-/

namespace Rfsoc.BlockServer

open Rfsoc.Clocked
open Rfsoc.Ring

variable {Word : Type*} {word : ℕ → ℕ → Word}

/-- A prefix that goes on as the list does is a prefix. -/
theorem concat_getElem {short long : List Word} (hshort : short <+: long)
    (hlt : short.length < long.length) :
    short ++ [long[short.length]] <+: long := by
  obtain ⟨rest, rfl⟩ := hshort
  cases rest with
  | nil => simp at hlt
  | cons next rest => simp

/-- The buffer, the pipe and the two processes after the copies of a list:
`halves` tokens put and `blocks` blocks output. -/
structure HandOffInv (halves blocks : ℕ) (copied : List Word)
    (s : State Word) : Prop where
  child : ChildAt copied.length halves s
  parent : ParentAt s.client.length blocks s
  tokens : halves = tokensTaken blocks s + s.pipe
  buffer : Holds s.buf ringWords copied
  output : s.client <+: copied

variable {halves blocks : ℕ} {copied : List Word} {s : State Word}

namespace HandOffInv

theorem serving (hinv : HandOffInv halves blocks copied s) : Serving s := by
  have hat := hinv.parent
  unfold ParentAt at hat
  unfold Serving
  split at hat <;> simp_all

theorem writer_step (hinv : HandOffInv halves blocks copied s) :
    HandOffInv halves blocks copied (writerStep word s) := by
  obtain ⟨-, -, hlimit, hchild, hbuf, hpipe, hparent, hclient⟩ :=
    writerStep_frame word s
  refine ⟨hinv.child.congr hchild hlimit, ?_, ?_, ?_, ?_⟩
  · rw [hclient]
    exact hinv.parent.congr hparent
  · rw [tokensTaken, hparent, hpipe]
    exact hinv.tokens
  · rw [hbuf]
    exact hinv.buffer
  · rw [hclient]
    exact hinv.output

/-- The child puts its tokens into the pipe. -/
theorem pipe_child (s : State Word) :
    (childStep s).pipe = s.pipe + (tokenEvent s .child).length := by
  cases hchild : s.child with
  | poll => simp [childStep_poll hchild, tokenEvent, hchild]
  | test place =>
      cases hready : ready s.limit place with
      | false => simp [childStep_of_not_ready hchild hready, tokenEvent, hchild]
      | true => simp [childStep_of_ready hchild hready, tokenEvent, hchild]
  | copy offset done =>
      by_cases hdone : done < halfWords
      · simp [childStep_copy hchild hdone, tokenEvent, hchild, hdone]
      · simp [childStep_token hchild hdone, tokenEvent, hchild, hdone]

/-- A copied word goes into the slot of its place. -/
theorem buffer_child (hinv : HandOffInv halves blocks copied s) :
    Holds (childStep s).buf ringWords (copied ++ copyEvent s .child) := by
  cases hchild : s.child with
  | poll => simpa [childStep_poll hchild, copyEvent, hchild] using hinv.buffer
  | test place =>
      cases hready : ready s.limit place with
      | false =>
          simpa [childStep_of_not_ready hchild hready, copyEvent, hchild]
            using hinv.buffer
      | true =>
          simpa [childStep_of_ready hchild hready, copyEvent, hchild]
            using hinv.buffer
  | copy offset done =>
      by_cases hdone : done < halfWords
      · have hat := hinv.child
        unfold ChildAt at hat
        rw [hchild] at hat
        obtain ⟨hcopied, -, hoffset, -⟩ := hat
        have hslot : offset + done = copied.length % ringWords := by
          rw [hoffset, hcopied, slot_of_half hdone]
        simp only [childStep_copy hchild hdone, copyEvent, hchild, hdone,
          if_true]
        rw [hslot]
        exact hinv.buffer.concat _
      · simpa [childStep_token hchild hdone, copyEvent, hchild, hdone]
          using hinv.buffer

/-- The child fills the next slot, or puts a token for a half. -/
theorem child_step (hinv : HandOffInv halves blocks copied s) :
    HandOffInv (halves + (tokenEvent s .child).length) blocks
      (copied ++ copyEvent s .child) (childStep s) := by
  obtain ⟨-, -, -, -, hparent, hclient⟩ := childStep_frame s
  have hchildAt := hinv.child.child
  rw [← List.length_append] at hchildAt
  have hparentAt : ParentAt (childStep s).client.length blocks (childStep s) := by
    rw [hclient]
    exact hinv.parent.congr hparent
  have htaken : tokensTaken blocks (childStep s) = tokensTaken blocks s := by
    rw [tokensTaken, tokensTaken, hparent]
  have houtput : (childStep s).client <+: copied ++ copyEvent s .child := by
    rw [hclient]
    exact hinv.output.trans (List.prefix_append _ _)
  refine ⟨hchildAt, hparentAt, ?_, hinv.buffer_child, houtput⟩
  rw [htaken, pipe_child, hinv.tokens, Nat.add_assoc]

/-- The word that `send` takes is the next copied one unless the child has been
round the buffer since. -/
theorem sent_eq (hinv : HandOffInv halves blocks copied s) {offset done : ℕ}
    (hparent : s.parent = .send offset done) (hdone : done < halfWords)
    (hlap : copied.length ≤ s.client.length + ringWords) :
    ∃ hlt : s.client.length < copied.length,
      s.buf (offset + done) = copied[s.client.length] := by
  have hat := hinv.parent
  have htokens := hinv.tokens
  have hwhole := hinv.child.whole_le
  unfold ParentAt at hat
  rw [hparent] at hat
  rw [tokensTaken_send hparent] at htokens
  obtain ⟨hsent, -, hoffset⟩ := hat
  have hhalves : (blocks + 1) * halfWords ≤ halves * halfWords :=
    Nat.mul_le_mul_right halfWords (by omega)
  rw [Nat.add_mul, Nat.one_mul] at hhalves
  have hlt : s.client.length < copied.length := by omega
  refine ⟨hlt, ?_⟩
  rw [hoffset, slot_of_half hdone, ← hsent]
  exact hinv.buffer s.client.length hlt hlap

/-- The parent takes a token, sends a word or comes to the end of a block. -/
theorem parent_step (hinv : HandOffInv halves blocks copied s)
    (hlap : sends s (.parent true) = true →
      copied.length ≤ s.client.length + ringWords) :
    ∃ blocks', HandOffInv halves blocks' copied (parentStep true s) := by
  obtain ⟨-, -, -, -, -, hlimit, hchild, hbuf⟩ :=
    parentStep_of_serving hinv.serving
  have hchildAt : ChildAt copied.length halves (parentStep true s) :=
    hinv.child.congr hchild hlimit
  have hbuffer : Holds (parentStep true s).buf ringWords copied := by
    rw [hbuf]
    exact hinv.buffer
  have hat := hinv.parent
  have htokens := hinv.tokens
  unfold ParentAt at hat
  cases hparent : s.parent with
  | reset => simp [hparent] at hat
  | accept => simp [hparent] at hat
  | enable => simp [hparent] at hat
  | take offset =>
      rw [hparent] at hat
      rw [tokensTaken_take hparent] at htokens
      by_cases hpipe : s.pipe = 0
      · rw [parentStep_wait hparent hpipe]
        exact ⟨blocks, hinv⟩
      · refine ⟨blocks, hchildAt, ?_, ?_, hbuffer, ?_⟩
        · rw [parentStep_take hparent hpipe]
          simp only [ParentAt, add_zero]
          exact ⟨hat.1, Nat.zero_le _, hat.2⟩
        · rw [parentStep_take hparent hpipe, tokensTaken_send rfl]
          change halves = blocks + 1 + (s.pipe - 1)
          omega
        · rw [parentStep_take hparent hpipe]
          exact hinv.output
  | send offset done =>
      rw [hparent] at hat
      rw [tokensTaken_send hparent] at htokens
      obtain ⟨hsent, hle, hoffset⟩ := hat
      by_cases hdone : done < halfWords
      · obtain ⟨hlt, hword⟩ := hinv.sent_eq hparent hdone
          (hlap (by simp [sends, hparent, hdone]))
        refine ⟨blocks, hchildAt, ?_, ?_, hbuffer, ?_⟩
        · rw [parentStep_word hparent hdone]
          simp only [ParentAt, List.length_append, List.length_singleton]
          exact ⟨by omega, hdone, hoffset⟩
        · rw [parentStep_word hparent hdone, tokensTaken_send rfl]
          exact htokens
        · rw [parentStep_word hparent hdone, hword]
          exact concat_getElem hinv.output hlt
      · refine ⟨blocks + 1, hchildAt, ?_, ?_, hbuffer, ?_⟩
        · rw [parentStep_sent hparent hdone]
          simp only [ParentAt, hoffset, ParentAt.nextOffset_eq, and_true]
          rw [Nat.add_mul, Nat.one_mul]
          omega
        · rw [parentStep_sent hparent hdone, tokensTaken_take rfl]
          exact htokens
        · rw [parentStep_sent hparent hdone]
          exact hinv.output

end HandOffInv

/-- No word is sent after the child has copied the word two halves later over
it. -/
def NotLapped (word : ℕ → ℕ → Word) (start : State Word) (turn : ℕ → Turn)
    (horizon : ℕ) : Prop :=
  ∀ cycle < horizon,
    sends ((server word start).stateAt turn cycle) (turn cycle) = true →
      (copiedWords word start turn cycle).length ≤
        ((server word start).stateAt turn cycle).client.length + ringWords

theorem handOffInv_opened (ram buf : ℕ → Word) :
    HandOffInv 0 0 [] (opened ram buf) where
  child := ⟨rfl, rfl⟩
  parent := ⟨rfl, rfl⟩
  tokens := rfl
  buffer := holds_nil buf ringWords
  output := List.prefix_rfl

theorem handOffInv_stateAt (ram buf : ℕ → Word) {turn : ℕ → Turn} {horizon : ℕ}
    (hsent : ∀ cycle < horizon, turn cycle ≠ .parent false)
    (hlap : NotLapped word (opened ram buf) turn horizon) :
    ∀ cycle ≤ horizon, ∃ blocks,
      HandOffInv (halvesCopied word (opened ram buf) turn cycle) blocks
        (copiedWords word (opened ram buf) turn cycle)
        ((server word (opened ram buf)).stateAt turn cycle) := by
  refine upTo_induction horizon ⟨0, handOffInv_opened ram buf⟩ ?_
  rintro cycle hcycle ⟨blocks, hinv⟩
  have hturn := hsent cycle hcycle
  have hnotLapped := hlap cycle hcycle
  rw [halvesCopied, copiedWords, Machine.log_succ, Machine.log_succ,
    List.length_append, ← copiedWords, ← halvesCopied, Machine.stateAt_succ]
  generalize (server word (opened ram buf)).stateAt turn cycle = s at *
  change ∃ blocks', HandOffInv _ blocks' _ (step word s (turn cycle))
  cases hcase : turn cycle with
  | writer =>
      refine ⟨blocks, ?_⟩
      simpa [copyEvent, tokenEvent, step] using hinv.writer_step
  | child => exact ⟨blocks, hinv.child_step⟩
  | parent sendOk =>
      cases sendOk with
      | true =>
          rw [hcase] at hnotLapped
          obtain ⟨blocks', hnext⟩ := hinv.parent_step hnotLapped
          refine ⟨blocks', ?_⟩
          simpa [copyEvent, tokenEvent, step] using hnext
      | false => exact absurd hcase hturn

/-- The output so far is the beginning of the copies, block for block. -/
def HandedOver (word : ℕ → ℕ → Word) (start : State Word) (turn : ℕ → Turn)
    (cycle : ℕ) : Prop :=
  ((server word start).stateAt turn cycle).client <+:
      copiedWords word start turn cycle ∧
    ∀ k, (k + 1) * halfWords ≤
        ((server word start).stateAt turn cycle).client.length →
      block k ((server word start).stateAt turn cycle).client =
        block k (copiedWords word start turn cycle)

/-- A whole block of a prefix is the block of the list. -/
theorem block_of_prefix {short long : List Word} (hshort : short <+: long)
    {k : ℕ} (hwhole : (k + 1) * halfWords ≤ short.length) :
    block k short = block k long := by
  rw [Nat.add_mul, Nat.one_mul] at hwhole
  obtain ⟨rest, rfl⟩ := hshort
  have hskip : k * halfWords ≤ short.length := by omega
  have hroom : halfWords ≤ (short.drop (k * halfWords)).length := by
    rw [List.length_drop]
    omega
  rw [block, block, List.drop_append_of_le_length hskip,
    List.take_append_of_le_length hroom]

/-- A parent that is never lapped outputs the blocks that the child has copied,
in order and whole. -/
theorem parent_outputs_copies (word : ℕ → ℕ → Word) (ram buf : ℕ → Word)
    (turn : ℕ → Turn) (horizon : ℕ)
    (hsent : ∀ cycle < horizon, turn cycle ≠ .parent false)
    (hlap : NotLapped word (opened ram buf) turn horizon) :
    ∀ cycle ≤ horizon, HandedOver word (opened ram buf) turn cycle := by
  intro cycle hcycle
  obtain ⟨blocks, hinv⟩ := handOffInv_stateAt ram buf hsent hlap cycle hcycle
  exact ⟨hinv.output, fun k hwhole => block_of_prefix hinv.output hwhole⟩

/-- A child that has not copied more than the buffer holds laps nobody. -/
theorem notLapped_of_short {start : State Word} {turn : ℕ → Turn} {horizon : ℕ}
    (hshort : (copiedWords word start turn horizon).length ≤ ringWords) :
    NotLapped word start turn horizon := by
  intro cycle hcycle _
  have hearlier : copiedWords word start turn cycle <+:
      copiedWords word start turn horizon :=
    Machine.log_isPrefix copyEvent hcycle.le
  exact hearlier.length_le.trans (hshort.trans (Nat.le_add_left _ _))

/-- The first half is copied and then sent. -/
def blockTurns : List Turn := firstTurns ++ sendHalf

theorem blockTurns_sent (cycle : ℕ) :
    played blockTurns .writer cycle ≠ .parent false := by
  apply played_ne_of_forall
  · intro turn hturn
    simp only [blockTurns, firstTurns, firstHalf, copyHalf, sendHalf,
      List.mem_append, List.mem_replicate, List.mem_cons, List.not_mem_nil,
      or_false] at hturn
    rintro rfl
    simp at hturn
  · decide

/-- The copies and the output of the first block. -/
theorem after_blockTurns (word : ℕ → ℕ → Word) (ram buf : ℕ → Word) :
    (after word (opened ram buf) blockTurns).client = stream word 1 halfWords ∧
      emitted (step word) copyEvent (opened ram buf) blockTurns =
        stream word 1 halfWords :=
  after_block word ram buf maxGrowth maxGrowth 1 (by decide) (by decide)
    (by decide)

theorem blockTurns_paced (word : ℕ → ℕ → Word) (ram buf : ℕ → Word) :
    Paced word (opened ram buf) (played blockTurns .writer)
      blockTurns.length := by
  refine paced_of_throughout (throughout_firstHalf word ram buf
    (le_refl maxGrowth) (le_refl maxGrowth) (by decide) sendHalf ?_)
  rintro turn hturn rfl
  simp [sendHalf] at hturn

theorem blockTurns_notLapped (word : ℕ → ℕ → Word) (ram buf : ℕ → Word) :
    NotLapped word (opened ram buf) (played blockTurns .writer)
      blockTurns.length := by
  apply notLapped_of_short
  rw [copiedWords_played, (after_blockTurns word ram buf).2, length_stream]
  decide

/-- The first block of a ring of numbers is sent. -/
theorem parent_outputs_copies_blockTurns :
    HandedOver (fun _ index => index) (opened id id)
        (played blockTurns .writer) blockTurns.length ∧
      ((server (fun _ index => index) (opened (id : ℕ → ℕ) id)).stateAt
        (played blockTurns .writer) blockTurns.length).client =
          List.range halfWords := by
  constructor
  · exact parent_outputs_copies (fun _ index => index) id id
      (played blockTurns .writer) blockTurns.length
      (fun cycle _ => blockTurns_sent cycle)
      (blockTurns_notLapped (fun _ index => index) id id) blockTurns.length le_rfl
  · rw [server_played,
      (after_blockTurns (fun _ index => index) (id : ℕ → ℕ) id).1]
    exact List.map_id _

/-- Two halves are copied and a third is begun before the parent has its first
turn. -/
def lappingTurns : List Turn :=
  List.replicate (halfWords + 1) Turn.writer ++ (copyHalf ++
    (List.replicate (halfWords - 1) Turn.writer ++ (copyHalf ++
      (List.replicate (halfWords + 1) Turn.writer ++
        [Turn.child, .child, .child, .parent true, .parent true]))))

/-- The child begins the first half while the parent, which has not yet sent
anything, holds a token for it. -/
theorem client_begun_again (word : ℕ → ℕ → Word) (ram buf : ℕ → Word)
    (written pipe : ℕ) (hpast : halfWords < written % ringWords) :
    (after word (waiting written halfWords (pipe + 1) ram buf)
      [.child, .child, .child, .parent true, .parent true]).client = [ram 0] := by
  have hpos : 0 < halfWords := by decide
  have htest := after_passed_test word
    (s := waiting written halfWords (pipe + 1) ram buf) rfl
    (by rw [position, waiting, ready_halfWords, decide_eq_true hpast])
  have hsplit : [Turn.child, .child, .child, .parent true, .parent true] =
      [.child, .child] ++ [.child, .parent true, .parent true] := rfl
  rw [hsplit, after_append, htest]
  simp [after, step, childStep, parentStep, waiting, hpos]

/-- The first word that is sent is the first word of the third half, although
the first word copied was that of the first. -/
theorem after_lappingTurns (word : ℕ → ℕ → Word) (ram buf : ℕ → Word) :
    (after word (opened ram buf) lappingTurns).client = [word 1 ringWords] ∧
      (emitted (step word) copyEvent (opened ram buf) lappingTurns).head? =
        some (word 1 0) := by
  have hturn : 0 + (halfWords + 1) + (halfWords - 1) = ringWords := by decide
  obtain ⟨ram₁, hfilled, hfirstWords, -⟩ :=
    waiting_writers word ram buf 0 halfWords 0 (halfWords + 1) (by decide)
  obtain ⟨buf₁, hfirst, -⟩ :=
    waiting_firstHalf word ram₁ buf (0 + (halfWords + 1)) 0 (by decide)
  obtain ⟨ram₂, hwrapped, -, -⟩ :=
    waiting_writers word ram₁ buf₁ (0 + (halfWords + 1)) 0 (0 + 1)
      (halfWords - 1) (by decide)
  obtain ⟨buf₂, hsecond, -⟩ :=
    waiting_secondHalf word ram₂ buf₁ ringWords (0 + 1) (by decide)
  obtain ⟨ram₃, hrefilled, hthirdWords, -⟩ :=
    waiting_writers word ram₂ buf₂ ringWords halfWords (0 + 1 + 1)
      (halfWords + 1) (by decide)
  rw [hturn] at hwrapped
  rw [opened_eq_waiting]
  constructor
  · have hslot : ram₃ 0 = word 1 ringWords := by
      simpa using hthirdWords 0 (by decide)
    rw [lappingTurns, after_append, hfilled, after_append, hfirst, after_append,
      hwrapped, after_append, hsecond, after_append, hrefilled,
      client_begun_again word ram₃ buf₂ _ _ (by decide), hslot]
  · have hhead : ram₁ 0 = word 1 0 := by
      simpa using hfirstWords 0 (by decide)
    have hready : ready halfWords ((0 + (halfWords + 1)) % ringWords) = true := by
      decide
    rw [lappingTurns, emitted_append, emitted_replicate (by decide), List.nil_append, ← after,
      hfilled, head?_emitted_copyHalf rfl hready]
    exact congrArg some hhead

theorem lappingTurns_sent (cycle : ℕ) :
    played lappingTurns .writer cycle ≠ .parent false := by
  apply played_ne_of_forall
  · intro turn hturn
    simp only [lappingTurns, copyHalf, List.mem_append, List.mem_replicate,
      List.mem_cons, List.not_mem_nil, or_false] at hturn
    rintro rfl
    simp at hturn
  · decide

/-- In the run of `lappingTurns`, where every send succeeds, the first word that
the parent outputs is not the first word that the child copied. -/
theorem parent_lapped :
    (∀ cycle < lappingTurns.length,
      played lappingTurns .writer cycle ≠ .parent false) ∧
      ¬ HandedOver (fun _ index => index) (opened id id)
        (played lappingTurns .writer) lappingTurns.length := by
  obtain ⟨hclient, hcopied⟩ :=
    after_lappingTurns (fun _ index => index) (id : ℕ → ℕ) id
  constructor
  · exact fun cycle _ => lappingTurns_sent cycle
  · rintro ⟨houtput, -⟩
    rw [server_played, hclient] at houtput
    rw [List.singleton_prefix_iff_head?_eq_some, copiedWords_played] at houtput
    have hsame : some 0 = some ringWords := hcopied.symm.trans houtput
    revert hsame
    decide

end Rfsoc.BlockServer
