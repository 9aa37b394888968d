import Rfsoc.Host.HandOff

/-!
# Connections after the first

On a failed send the parent closes the socket, resets the writer and starts the
next connection at the first half; the child keeps its limit and the pipe its
tokens.  A connection gets its own acquisition from the first word on when the
two sides are in phase at the moment the writer is enabled, and as long as the
reader keeps up and the parent is not lapped.
-/

namespace Rfsoc.BlockServer

open Rfsoc.Clocked
open Rfsoc.Ring

variable {Word : Type*} {word : ℕ → ℕ → Word}

/-- What the client of the current connection has got is the beginning of the
acquisition enabled for it. -/
def StartsClean (word : ℕ → ℕ → Word) (s : State Word) : Prop :=
  s.client = stream word s.acquisition s.client.length

/-- The parent is about to set the bits that enable the writer. -/
def enables (s : State Word) (turn : Turn) : Bool :=
  match turn, s.parent with
  | .parent _, .enable => true
  | _, _ => false

/-- Neither in `memcpy` nor about to enter it for the first half. -/
def waitsForFirst : ChildPhase → Bool
  | .poll => true
  | .test place => place ≤ halfWords
  | .copy _ _ => false

/-- No token is left and the child waits for the first half. -/
def InPhase (s : State Word) : Prop :=
  s.pipe = 0 ∧ s.limit = halfWords ∧ waitsForFirst s.child = true

section Run

variable (word) (start : State Word) (turn : ℕ → Turn)

/-- The words copied since the writer was last enabled. -/
def copiedSince : ℕ → List Word
  | 0 => []
  | cycle + 1 =>
      if enables ((server word start).stateAt turn cycle) (turn cycle) then []
      else
        copiedSince cycle ++
          copyEvent ((server word start).stateAt turn cycle) (turn cycle)

/-- The words written when the iteration in progress began, none if the writer
has been enabled since. -/
def startedSince : ℕ → ℕ
  | 0 => 0
  | cycle + 1 =>
      if enables ((server word start).stateAt turn cycle) (turn cycle) then 0
      else
        startedAfter (startedSince cycle)
          ((server word start).stateAt turn cycle) (turn cycle)

/-- A run in which every connection finds the two sides in phase, the reader
keeps up with the writer and the parent is not lapped. -/
structure CleanRun (horizon : ℕ) : Prop where
  inPhase : ∀ cycle < horizon,
    enables ((server word start).stateAt turn cycle) (turn cycle) = true →
      InPhase ((server word start).stateAt turn cycle)
  paced : ∀ cycle ≤ horizon, Serving ((server word start).stateAt turn cycle) →
    ((server word start).stateAt turn cycle).written ≤
      startedSince word start turn cycle + maxGrowth
  notLapped : ∀ cycle < horizon,
    sends ((server word start).stateAt turn cycle) (turn cycle) = true →
      (copiedSince word start turn cycle).length ≤
        ((server word start).stateAt turn cycle).client.length + ringWords

end Run

/-- The server between and during connections. -/
structure ServerInv (word : ℕ → ℕ → Word) (started : ℕ) (copied : List Word)
    (s : State Word) : Prop where
  clean : StartsClean word s
  quiet : s.parent = .accept ∨ s.parent = .enable →
    s.enabled = false ∧ s.written = 0
  fresh : s.parent = .enable → s.client = []
  serving : Serving s → ∃ halves blocks,
    ReaderInv s.acquisition halves started copied word s ∧
      HandOffInv halves blocks copied s

variable {started : ℕ} {copied : List Word} {s : State Word}

theorem serverInv_booted (ram buf : ℕ → Word) :
    ServerInv word 0 [] (booted ram buf) where
  clean := rfl
  quiet := by simp [booted]
  fresh := fun _ => rfl
  serving := fun hserving => hserving.elim

/-- While the copies are the stream, so is the output. -/
theorem startsClean_of_handOff {halves blocks : ℕ}
    (hreader : ReaderInv s.acquisition halves started copied word s)
    (hhandOff : HandOffInv halves blocks copied s) : StartsClean word s := by
  have houtput := List.prefix_iff_eq_take.mp hhandOff.output
  have hle := hhandOff.output.length_le
  calc
    s.client = copied.take s.client.length := houtput
    _ = (stream word s.acquisition copied.length).take s.client.length := by
      rw [← hreader.copies]
    _ = stream word s.acquisition s.client.length := by
      rw [stream, ← List.map_take, List.take_range, Nat.min_eq_left hle, stream]

theorem childAt_of_waits (hlimit : s.limit = halfWords)
    (hchild : waitsForFirst s.child = true) : ChildAt 0 0 s := by
  unfold ChildAt
  cases hcase : s.child with
  | poll => exact ⟨(Nat.zero_mul _).symm, hlimit⟩
  | test place => exact ⟨(Nat.zero_mul _).symm, hlimit⟩
  | copy offset done => simp [hcase, waitsForFirst] at hchild

variable (word) in
/-- In phase, the writer and the child begin the new acquisition together. -/
theorem readerInv_enabled (hphase : InPhase s) (hwritten : s.written = 0)
    (sendOk : Bool) (hparent : s.parent = .enable) :
    ReaderInv (parentStep sendOk s).acquisition 0 0 [] word
      (parentStep sendOk s) := by
  obtain ⟨-, hlimit, hchild⟩ := hphase
  rw [parentStep_enable sendOk hparent]
  refine ⟨rfl, rfl, ?_, ?_, Nat.le_of_eq (Nat.zero_mul _), Nat.zero_le _, ?_,
    rfl⟩
  · change Holds s.ram ringWords (stream word _ s.written)
    rw [hwritten]
    exact holds_nil s.ram ringWords
  · exact childAt_of_waits hlimit hchild
  · unfold PacedAt
    cases hcase : s.child with
    | poll => exact Nat.zero_le _
    | test place =>
        rw [hcase, waitsForFirst, decide_eq_true_iff] at hchild
        have hfails : ready s.limit place = false := by
          rw [hlimit, ready_halfWords, decide_eq_false_iff_not]
          omega
        simp [hfails]
    | copy offset done => simp [hcase, waitsForFirst] at hchild

theorem handOffInv_enabled (hphase : InPhase s) (hclient : s.client = [])
    (sendOk : Bool) (hparent : s.parent = .enable) :
    HandOffInv 0 0 [] (parentStep sendOk s) := by
  obtain ⟨hpipe, hlimit, hchild⟩ := hphase
  rw [parentStep_enable sendOk hparent]
  refine ⟨?_, ?_, ?_, holds_nil s.buf ringWords, ?_⟩
  · exact childAt_of_waits hlimit hchild
  · exact ⟨by rw [hclient]; rfl, rfl⟩
  · rw [tokensTaken_take rfl, Nat.zero_add]
    exact hpipe.symm
  · change s.client <+: []
    rw [hclient]

namespace ServerInv

theorem writer_step (hinv : ServerInv word started copied s) :
    ServerInv word started copied (writerStep word s) := by
  obtain ⟨henabled, hacquired, -, -, -, -, hparent, hclient⟩ :=
    writerStep_frame word s
  refine ⟨?_, ?_, ?_, ?_⟩
  · rw [StartsClean, hclient, hacquired]
    exact hinv.clean
  · rw [hparent]
    intro hwaits
    obtain ⟨hstopped, hwritten⟩ := hinv.quiet hwaits
    simp [writerStep, hstopped, hwritten]
  · rw [hparent, hclient]
    exact hinv.fresh
  · intro hserving
    have hbefore : Serving s := by
      simpa only [Serving, hparent] using hserving
    obtain ⟨halves, blocks, hreader, hhandOff⟩ := hinv.serving hbefore
    rw [hacquired]
    exact ⟨halves, blocks, hreader.writer_step, hhandOff.writer_step⟩

theorem child_step (hinv : ServerInv word started copied s)
    (hpace : Serving s → s.written ≤ started + maxGrowth) :
    ServerInv word (startedAfter started s .child)
      (copied ++ copyEvent s .child) (childStep s) := by
  obtain ⟨henabled, hacquired, hwritten, -, hparent, hclient⟩ :=
    childStep_frame s
  refine ⟨?_, ?_, ?_, ?_⟩
  · rw [StartsClean, hclient, hacquired]
    exact hinv.clean
  · rw [hparent, henabled, hwritten]
    exact hinv.quiet
  · rw [hparent, hclient]
    exact hinv.fresh
  · intro hserving
    have hbefore : Serving s := by
      simpa only [Serving, hparent] using hserving
    obtain ⟨halves, blocks, hreader, hhandOff⟩ := hinv.serving hbefore
    rw [hacquired]
    exact ⟨_, blocks, hreader.child_step (hpace hbefore), hhandOff.child_step⟩

/-- A step of a serving parent whose send does not fail. -/
theorem serving_step (hinv : ServerInv word started copied s)
    (hserving : Serving s)
    (hlap : sends s (.parent true) = true →
      copied.length ≤ s.client.length + ringWords) :
    ServerInv word started copied (parentStep true s) := by
  obtain ⟨halves, blocks, hreader, hhandOff⟩ := hinv.serving hserving
  obtain ⟨blocks', hnext⟩ := hhandOff.parent_step hlap
  obtain ⟨hserves, -, hacquired, -, -, -, -, -⟩ := parentStep_of_serving hserving
  have hreads := hreader.parent_step hserving
  rw [← hacquired] at hreads
  unfold Serving at hserves
  exact {
    clean := startsClean_of_handOff hreads hnext
    quiet := by
      rintro (hparent | hparent) <;> simp [hparent] at hserves
    fresh := by
      intro hparent
      simp [hparent] at hserves
    serving := fun _ => ⟨halves, blocks', hreads, hnext⟩ }

/-- Reset mode, and a client that connects. -/
theorem reset_step (hinv : ServerInv word started copied s) (sendOk : Bool)
    (hparent : s.parent = .reset ∨ s.parent = .accept) :
    ServerInv word started copied (parentStep sendOk s) := by
  obtain hreset | haccept := hparent
  · rw [parentStep_reset sendOk hreset]
    exact {
      clean := hinv.clean
      quiet := fun _ => ⟨rfl, rfl⟩
      fresh := by simp
      serving := fun hserving => hserving.elim }
  · rw [parentStep_accept sendOk haccept]
    exact {
      clean := rfl
      quiet := fun _ => hinv.quiet (Or.inl haccept)
      fresh := fun _ => rfl
      serving := fun hserving => hserving.elim }

/-- Normal operating mode: a connection opens with its own acquisition. -/
theorem enable_step (hinv : ServerInv word started copied s) (sendOk : Bool)
    (hparent : s.parent = .enable) (hphase : InPhase s) :
    ServerInv word 0 [] (parentStep sendOk s) := by
  have hreader := readerInv_enabled word hphase
    (hinv.quiet (Or.inr hparent)).2 sendOk hparent
  have hhandOff := handOffInv_enabled hphase (hinv.fresh hparent) sendOk hparent
  have hafter : (parentStep sendOk s).parent = .take 0 := by
    rw [parentStep_enable sendOk hparent]
  exact {
    clean := startsClean_of_handOff (hreader.acquired ▸ hreader) hhandOff
    quiet := by simp [hafter]
    fresh := by simp [hafter]
    serving := fun _ => ⟨0, 0, hreader.acquired ▸ hreader, hhandOff⟩ }

/-- A send that fails ends the connection. -/
theorem fail_step (hinv : ServerInv word started copied s) {offset done : ℕ}
    (hparent : s.parent = .send offset done) :
    ServerInv word started copied (parentStep false s) := by
  rw [parentStep_fail hparent]
  exact {
    clean := hinv.clean
    quiet := by simp
    fresh := by simp
    serving := fun hserving => hserving.elim }

end ServerInv

theorem enables_parent (sendOk : Bool) :
    enables s (.parent sendOk) = true ↔ s.parent = .enable := by
  unfold enables
  split <;> simp_all

/-- Every turn keeps the invariant in a clean run. -/
theorem ServerInv.turn_step (hinv : ServerInv word started copied s)
    (turn : Turn) (hphase : enables s turn = true → InPhase s)
    (hpace : Serving s → s.written ≤ started + maxGrowth)
    (hlap : sends s turn = true →
      copied.length ≤ s.client.length + ringWords) :
    ServerInv word
      (if enables s turn then 0 else startedAfter started s turn)
      (if enables s turn then [] else copied ++ copyEvent s turn)
      (step word s turn) := by
  cases turn with
  | writer =>
      simpa [enables, startedAfter, polls, copyEvent, step] using
        hinv.writer_step
  | child =>
      simpa [enables, step] using hinv.child_step hpace
  | parent sendOk =>
      have hstarted : startedAfter started s (.parent sendOk) = started := by
        simp [startedAfter, polls]
      have hcopied : copied ++ copyEvent s (.parent sendOk) = copied := by
        simp [copyEvent]
      rw [hstarted, hcopied]
      change ServerInv word _ _ (parentStep sendOk s)
      by_cases henable : s.parent = .enable
      · have hturn := (enables_parent (s := s) sendOk).mpr henable
        rw [if_pos hturn, if_pos hturn]
        exact hinv.enable_step sendOk henable (hphase hturn)
      · have hturn : ¬ enables s (.parent sendOk) = true :=
          fun hturn => henable ((enables_parent sendOk).mp hturn)
        rw [if_neg hturn, if_neg hturn]
        cases hparent : s.parent with
        | reset => exact hinv.reset_step sendOk (Or.inl hparent)
        | accept => exact hinv.reset_step sendOk (Or.inr hparent)
        | enable => exact absurd hparent henable
        | take offset =>
            have hserving : Serving s := by simp [Serving, hparent]
            have hsame : parentStep sendOk s = parentStep true s := by
              simp [parentStep, hparent]
            rw [hsame]
            exact hinv.serving_step hserving (by simp [sends, hparent])
        | send offset done =>
            have hserving : Serving s := by simp [Serving, hparent]
            cases sendOk with
            | false => exact hinv.fail_step hparent
            | true => exact hinv.serving_step hserving hlap

/-- In a clean run every client gets the acquisition enabled for its
connection, from the first word on and in order. -/
theorem connections_start_clean (word : ℕ → ℕ → Word) (ram buf : ℕ → Word)
    (turn : ℕ → Turn) (horizon : ℕ)
    (hclean : CleanRun word (booted ram buf) turn horizon) :
    ∀ cycle ≤ horizon,
      StartsClean word ((server word (booted ram buf)).stateAt turn cycle) := by
  have hinv : ∀ cycle ≤ horizon,
      ServerInv word (startedSince word (booted ram buf) turn cycle)
        (copiedSince word (booted ram buf) turn cycle)
        ((server word (booted ram buf)).stateAt turn cycle) := by
    refine upTo_induction horizon (serverInv_booted ram buf) ?_
    intro cycle hcycle ih
    exact ih.turn_step (turn cycle) (hclean.inPhase cycle hcycle)
      (hclean.paced cycle hcycle.le) (hclean.notLapped cycle hcycle)
  exact fun cycle hcycle => (hinv cycle hcycle).clean

section FirstConnection

variable {ram buf : ℕ → Word} {turn : ℕ → Turn} {horizon : ℕ}
  (hfirst : ∀ cycle < 3, turn cycle = .parent true)
include hfirst

/-- Three turns of the parent open the first connection. -/
theorem stateAt_connected (cycle : ℕ) :
    (server word (booted ram buf)).stateAt turn (3 + cycle) =
      (server word (opened ram buf)).stateAt (fun later => turn (3 + later))
        cycle := by
  have hopened : (server word (booted ram buf)).stateAt turn 3 =
      opened ram buf := by
    rw [Machine.stateAt_succ, Machine.stateAt_succ, Machine.stateAt_succ,
      hfirst 0 (by omega), hfirst 1 (by omega), hfirst 2 (by omega)]
    rfl
  rw [Machine.stateAt_add, hopened]
  rfl

variable (word ram buf) in
/-- Until then nobody is served. -/
theorem stateAt_connecting {cycle : ℕ} (hcycle : cycle < 3) :
    ¬ Serving ((server word (booted ram buf)).stateAt turn cycle) ∧
      InPhase ((server word (booted ram buf)).stateAt turn cycle) := by
  have hreset := hfirst 0 (by omega)
  have haccept := hfirst 1 (by omega)
  obtain rfl | rfl | rfl : cycle = 0 ∨ cycle = 1 ∨ cycle = 2 := by omega
  · exact ⟨id, rfl, rfl, rfl⟩
  · rw [Machine.stateAt_succ, hreset]
    exact ⟨id, rfl, rfl, rfl⟩
  · rw [Machine.stateAt_succ, Machine.stateAt_succ, hreset, haccept]
    exact ⟨id, rfl, rfl, rfl⟩

variable (hsent : ∀ cycle < horizon, turn (3 + cycle) ≠ .parent false)
include hsent

variable (word ram buf) in
theorem enables_connected {cycle : ℕ} (hcycle : cycle ≤ horizon) (turn' : Turn) :
    enables ((server word (booted ram buf)).stateAt turn (3 + cycle)) turn' =
      false := by
  rw [stateAt_connected hfirst]
  have hserving : Serving ((server word (opened ram buf)).stateAt
      (fun later => turn (3 + later)) cycle) :=
    serving_stateAt (serving_opened ram buf) hsent cycle hcycle
  generalize (server word (opened ram buf)).stateAt _ cycle = s at hserving ⊢
  unfold Serving at hserving
  unfold enables
  split <;> simp_all

/-- On the first connection the books begin with it. -/
theorem since_connected {cycle : ℕ} (hcycle : cycle ≤ horizon) :
    copiedSince word (booted ram buf) turn (3 + cycle) =
        copiedWords word (opened ram buf) (fun later => turn (3 + later)) cycle ∧
      startedSince word (booted ram buf) turn (3 + cycle) =
        startedAt word (opened ram buf) (fun later => turn (3 + later)) cycle := by
  induction cycle with
  | zero =>
      have henables : enables
          ((server word (booted ram buf)).stateAt turn 2) (turn 2) = true := by
        rw [Machine.stateAt_succ, Machine.stateAt_succ, hfirst 0 (by omega),
          hfirst 1 (by omega), hfirst 2 (by omega)]
        rfl
      rw [copiedSince, startedSince, if_pos henables, if_pos henables]
      exact ⟨rfl, rfl⟩
  | succ cycle ih =>
      obtain ⟨hcopied, hstarted⟩ := ih (by omega)
      have hnone := enables_connected word ram buf hfirst hsent
        (Nat.le_of_succ_le hcycle) (turn (3 + cycle))
      rw [← Nat.add_assoc, copiedSince, startedSince, hnone, hcopied, hstarted,
        stateAt_connected hfirst]
      exact ⟨rfl, rfl⟩

/-- A first connection that is served as the hand-off asks is clean. -/
theorem cleanRun_connected
    (hpaced : Paced word (opened ram buf) (fun later => turn (3 + later)) horizon)
    (hlap : NotLapped word (opened ram buf) (fun later => turn (3 + later))
      horizon) :
    CleanRun word (booted ram buf) turn (3 + horizon) where
  inPhase := by
    intro cycle hcycle henables
    by_cases hearly : cycle < 3
    · exact (stateAt_connecting word ram buf hfirst hearly).2
    · obtain ⟨later, rfl⟩ := Nat.exists_eq_add_of_le (not_lt.mp hearly)
      rw [enables_connected word ram buf hfirst hsent (by omega)] at henables
      exact absurd henables Bool.false_ne_true
  paced := by
    intro cycle hcycle hserving
    by_cases hearly : cycle < 3
    · exact absurd hserving (stateAt_connecting word ram buf hfirst hearly).1
    · obtain ⟨later, rfl⟩ := Nat.exists_eq_add_of_le (not_lt.mp hearly)
      rw [(since_connected hfirst hsent (by omega)).2, stateAt_connected hfirst]
      exact hpaced later (by omega)
  notLapped := by
    intro cycle hcycle hsends
    by_cases hearly : cycle < 3
    · refine absurd ?_ (stateAt_connecting word ram buf hfirst hearly).1
      unfold sends at hsends
      unfold Serving
      split at hsends <;> simp_all
    · obtain ⟨later, rfl⟩ := Nat.exists_eq_add_of_le (not_lt.mp hearly)
      rw [stateAt_connected hfirst] at hsends
      rw [(since_connected hfirst hsent (by omega)).1, stateAt_connected hfirst]
      exact hlap later (by omega) hsends

end FirstConnection

/-- A client connects and is sent its first block. -/
def connectionTurns : List Turn :=
  [.parent true, .parent true, .parent true] ++ blockTurns

theorem connectionTurns_first (cycle : ℕ) (hcycle : cycle < 3) :
    played connectionTurns .writer cycle = .parent true := by
  obtain rfl | rfl | rfl : cycle = 0 ∨ cycle = 1 ∨ cycle = 2 := by omega
  all_goals rfl

theorem connectionTurns_later :
    (fun later => played connectionTurns .writer (3 + later)) =
      played blockTurns .writer := by
  funext later
  rw [played, played, connectionTurns, List.getD_eq_getElem?_getD,
    List.getElem?_append_right (Nat.le_add_right 3 later),
    List.getD_eq_getElem?_getD]
  exact congrArg (fun place => (blockTurns[place]?).getD .writer)
    (Nat.add_sub_cancel_left 3 later)

/-- The first connection gets the first half of its acquisition. -/
theorem connections_start_clean_connectionTurns :
    StartsClean (fun _ index => index)
        ((server (fun _ index => index) (booted (id : ℕ → ℕ) id)).stateAt
          (played connectionTurns .writer) (3 + blockTurns.length)) ∧
      ((server (fun _ index => index) (booted (id : ℕ → ℕ) id)).stateAt
          (played connectionTurns .writer) (3 + blockTurns.length)).client =
        List.range halfWords := by
  have hlater := connectionTurns_later
  constructor
  · refine connections_start_clean (fun _ index => index) id id
      (played connectionTurns .writer) (3 + blockTurns.length)
      (cleanRun_connected connectionTurns_first ?_ ?_ ?_)
      (3 + blockTurns.length) le_rfl
    · intro cycle _
      exact congrFun hlater cycle ▸ blockTurns_sent cycle
    · rw [hlater]
      exact blockTurns_paced _ id id
    · rw [hlater]
      exact blockTurns_notLapped _ id id
  · rw [stateAt_connected connectionTurns_first, hlater, server_played,
      (after_blockTurns (fun _ index => index) (id : ℕ → ℕ) id).1]
    exact List.map_id _

/-- The first send of the first connection fails after its half was copied; the
child, which waits for the second half, takes the reset for a wrap, and the next
client connects. -/
def staleTurns : List Turn :=
  [Turn.parent true, .parent true, .parent true] ++
    (List.replicate maxGrowth Turn.writer ++ ([Turn.child, .child] ++
      (List.replicate maxGrowth Turn.writer ++ ([Turn.child, .child] ++
        (List.replicate 1 Turn.writer ++ (copyHalf ++
          ([Turn.parent true, .parent false, .parent true] ++ (copyHalf ++
            [Turn.parent true, .parent true, .parent true, .parent true]))))))))

/-- The failed send and the reset. -/
theorem after_failedSend (word : ℕ → ℕ → Word) (ram buf : ℕ → Word)
    (written : ℕ) :
    after word (waiting written 0 1 ram buf)
        [.parent true, .parent false, .parent true] =
      { waiting 0 0 0 ram buf with enabled := false, parent := .accept } := by
  simp [after, step, parentStep, waiting]

/-- The next connection, with a token in the pipe. -/
theorem after_nextConnection (word : ℕ → ℕ → Word) (ram buf : ℕ → Word) :
    (after word
        { waiting 0 halfWords 1 ram buf with
          enabled := false
          parent := .accept }
        [.parent true, .parent true, .parent true, .parent true]).client =
        [buf 0] ∧
      (after word
        { waiting 0 halfWords 1 ram buf with
          enabled := false
          parent := .accept }
        [.parent true, .parent true, .parent true, .parent true]).acquisition =
        2 := by
  have hpos : 0 < halfWords := by decide
  simp [after, step, parentStep, waiting, hpos]

/-- The client of the second connection gets a word of the first acquisition. -/
theorem after_staleTurns (word : ℕ → ℕ → Word) (ram buf : ℕ → Word) :
    (after word (booted ram buf) staleTurns).client = [word 1 0] ∧
      (after word (booted ram buf) staleTurns).acquisition = 2 := by
  have hbooted : after word (booted ram buf)
      [.parent true, .parent true, .parent true] =
        waiting 0 halfWords 0 ram buf := rfl
  obtain ⟨ram₁, hquarter, hwords, -⟩ :=
    waiting_writers word ram buf 0 halfWords 0 maxGrowth (by decide)
  have hfirstTest :=
    waiting_failedTest word ram₁ buf (0 + maxGrowth) 0 (by decide)
  obtain ⟨ram₂, hhalf, -, hkept₂⟩ :=
    waiting_writers word ram₁ buf (0 + maxGrowth) halfWords 0 maxGrowth
      (by decide)
  have hsecondTest :=
    waiting_failedTest word ram₂ buf (0 + maxGrowth + maxGrowth) 0 (by decide)
  obtain ⟨ram₃, hpast, -, hkept₃⟩ :=
    waiting_writers word ram₂ buf (0 + maxGrowth + maxGrowth) halfWords 0 1
      (by decide)
  obtain ⟨buf₁, hfirst, hcopied⟩ :=
    waiting_firstHalf word ram₃ buf (0 + maxGrowth + maxGrowth + 1) 0
      (by decide)
  obtain ⟨buf₂, hsecond, hrest⟩ := after_secondHalf word
    (s := { waiting 0 0 0 ram₃ buf₁ with enabled := false, parent := .accept })
    rfl rfl (by simp only [position, waiting]; decide)
  have hstale : buf₂ 0 = word 1 0 := by
    calc
      buf₂ 0 = buf₁ 0 := hrest 0 (by decide)
      _ = ram₃ 0 := hcopied 0 (by decide)
      _ = ram₂ 0 := hkept₃ 0 (by decide)
      _ = ram₁ 0 := hkept₂ 0 (by decide)
      _ = word 1 0 := by simpa using hwords 0 (by decide)
  have hscript : after word (booted ram buf) staleTurns =
      after word
        { waiting 0 halfWords 1 ram₃ buf₂ with
          enabled := false
          parent := .accept }
        [.parent true, .parent true, .parent true, .parent true] := by
    rw [staleTurns, after_append, hbooted, after_append, hquarter, after_append,
      hfirstTest, after_append, hhalf, after_append, hsecondTest, after_append,
      hpast, after_append, hfirst, after_append, after_failedSend, after_append,
      hsecond]
    rfl
  rw [hscript, ← hstale]
  exact after_nextConnection word ram₃ buf₂

/-- After a reconnection a client gets data acquired before it connected. -/
theorem connection_starts_stale :
    ¬ StartsClean (fun acquisition index => (acquisition, index))
      ((server (fun acquisition index => (acquisition, index))
        (booted (fun _ => (0, 0)) fun _ => (0, 0))).stateAt
          (played staleTurns .writer) staleTurns.length) := by
  obtain ⟨hclient, hacquisition⟩ :=
    after_staleTurns (fun acquisition index => (acquisition, index))
      (fun _ => (0, 0)) fun _ => (0, 0)
  rw [StartsClean, server_played, hclient, hacquisition]
  decide

end Rfsoc.BlockServer
