import Rfsoc.Host.BlockServer

/-!
# Schedules of the block server

What a stretch of turns of one process does at the sizes of the program: a
stretch of the writer fills the next slots of the ring, and `halfWords + 3`
turns of the child poll, test, copy a half and put its token.
-/

namespace Rfsoc.BlockServer

open Rfsoc.Clocked

variable {Word : Type*} (word : ℕ → ℕ → Word)

/-- The state after a list of turns. -/
def after (s : State Word) (turns : List Turn) : State Word :=
  turns.foldl (step word) s

variable {word} {s : State Word}

theorem after_append (early late : List Turn) :
    after word s (early ++ late) = after word (after word s early) late :=
  List.foldl_append ..

theorem after_replicate_succ (n : ℕ) (turn : Turn) :
    after word s (List.replicate (n + 1) turn) =
      step word (after word s (List.replicate n turn)) turn := by
  rw [List.replicate_succ', after_append]
  rfl

variable (word) in
/-- A stretch of the writer that does not reach the end of the ring. -/
theorem after_writers (henabled : s.enabled = true) :
    ∀ n, position s + n ≤ ringWords →
      ∃ ram, after word s (List.replicate n .writer) =
          { s with ram := ram, written := s.written + n } ∧
        (∀ k < n, ram (position s + k) =
          word s.acquisition (s.written + k)) ∧
        ∀ slot < position s, ram slot = s.ram slot := by
  intro n
  induction n with
  | zero =>
      intro _
      exact ⟨s.ram, rfl, fun k hk => absurd hk (Nat.not_lt_zero k),
        fun slot _ => rfl⟩
  | succ n ih =>
      intro hroom
      obtain ⟨ram, hafter, hwords, hrest⟩ := ih (by omega)
      have hposition : (s.written + n) % ringWords = position s + n := by
        rw [position] at hroom ⊢
        rw [Nat.add_mod, Nat.mod_eq_of_lt (b := ringWords) (a := n) (by omega),
          Nat.mod_eq_of_lt (by omega)]
      refine ⟨Function.update ram (position s + n)
        (word s.acquisition (s.written + n)), ?_, ?_, ?_⟩
      · rw [after_replicate_succ, hafter]
        simp [step, writerStep, henabled, position, hposition, Nat.add_assoc]
      · intro k hk
        obtain hlt | rfl := Nat.lt_succ_iff_lt_or_eq.mp hk
        · rw [Function.update_of_ne (by omega), hwords k hlt]
        · exact Function.update_self ..
      · intro slot hslot
        rw [Function.update_of_ne (by omega), hrest slot hslot]

/-- Only the child copies. -/
theorem emitted_of_ne_child {turns : List Turn}
    (hturns : ∀ turn ∈ turns, turn ≠ .child) :
    emitted (step word) copyEvent s turns = [] := by
  induction turns generalizing s with
  | nil => rfl
  | cons turn turns ih =>
      have hnone : copyEvent s turn = [] := by
        cases turn with
        | writer => rfl
        | child => exact absurd rfl (hturns .child (by simp))
        | parent sendOk => rfl
      rw [emitted, hnone, List.nil_append]
      exact ih fun later hlater => hturns later (by simp [hlater])

theorem emitted_replicate {turn : Turn} (hturn : turn ≠ .child) (n : ℕ) :
    emitted (step word) copyEvent s (List.replicate n turn) = [] :=
  emitted_of_ne_child fun _ hmem => List.eq_of_mem_replicate hmem ▸ hturn

variable (word) in
/-- A stretch of `memcpy`. -/
theorem after_copies {offset : ℕ} (hchild : s.child = .copy offset 0) :
    ∀ n ≤ halfWords,
      ∃ buf, after word s (List.replicate n .child) =
          { s with buf := buf, child := .copy offset n } ∧
        (∀ j < n, buf (offset + j) = s.ram (offset + j)) ∧
        ∀ slot < offset, buf slot = s.buf slot := by
  intro n
  induction n with
  | zero =>
      intro _
      refine ⟨s.buf, ?_, fun j hj => absurd hj (Nat.not_lt_zero j),
        fun slot _ => rfl⟩
      rw [← hchild]
      rfl
  | succ n ih =>
      intro hle
      obtain ⟨buf, hafter, hwords, hrest⟩ := ih (by omega)
      refine ⟨Function.update buf (offset + n) (s.ram (offset + n)), ?_, ?_, ?_⟩
      · rw [after_replicate_succ, hafter]
        have hnext := childStep_copy
          (s := { s with buf := buf, child := .copy offset n }) rfl hle
        exact hnext
      · intro j hj
        obtain hlt | rfl := Nat.lt_succ_iff_lt_or_eq.mp hj
        · rw [Function.update_of_ne (by omega), hwords j hlt]
        · exact Function.update_self ..
      · intro slot hslot
        rw [Function.update_of_ne (by omega), hrest slot hslot]

variable (word) in
/-- A poll and a test that passes. -/
theorem after_passed_test (hchild : s.child = .poll)
    (hready : ready s.limit (position s) = true) :
    after word s [.child, .child] =
      { s with
        child := .copy (if s.limit > 0 then 0 else halfWords) 0
        limit := if s.limit > 0 then 0 else halfWords } := by
  change childStep (childStep s) = _
  rw [childStep_poll hchild]
  exact childStep_of_ready rfl hready

/-- A poll and a test that fails. -/
theorem after_failed_test (hchild : s.child = .poll)
    (hready : ready s.limit (position s) = false) :
    after word s [.child, .child] = s := by
  change childStep (childStep s) = _
  rw [childStep_poll hchild]
  have hnext := childStep_of_not_ready
    (s := { s with child := .test (position s) }) rfl hready
  rw [hnext, ← hchild]

/-- The turns of the child that copy one half. -/
def copyHalf : List Turn :=
  [.child, .child] ++ (List.replicate halfWords .child ++ [.child])

variable (word) in
/-- A whole iteration of the child's loop: the half it waits for is in the
buffer, its token in the pipe, and it waits for the other one. -/
theorem after_copyHalf (hchild : s.child = .poll)
    (hready : ready s.limit (position s) = true) :
    ∃ buf, after word s copyHalf =
        { s with
          limit := if s.limit > 0 then 0 else halfWords
          buf := buf
          pipe := s.pipe + 1 } ∧
      (∀ j < halfWords,
        buf ((if s.limit > 0 then 0 else halfWords) + j) =
          s.ram ((if s.limit > 0 then 0 else halfWords) + j)) ∧
      ∀ slot < if s.limit > 0 then 0 else halfWords,
        buf slot = s.buf slot := by
  rw [copyHalf, after_append, after_append, after_passed_test word hchild hready]
  obtain ⟨buf, hafter, hwords, hrest⟩ := after_copies word
    (s := { s with
      child := .copy (if s.limit > 0 then 0 else halfWords) 0
      limit := if s.limit > 0 then 0 else halfWords }) rfl halfWords le_rfl
  refine ⟨buf, ?_, hwords, hrest⟩
  rw [hafter]
  have hnext := childStep_token
    (s := { s with
      child := .copy (if s.limit > 0 then 0 else halfWords) halfWords
      limit := if s.limit > 0 then 0 else halfWords
      buf := buf }) rfl (lt_irrefl halfWords)
  refine hnext.trans ?_
  rw [← hchild]

variable (word) in
/-- The first half is copied once the position is past it. -/
theorem after_firstHalf (hchild : s.child = .poll) (hlimit : s.limit = halfWords)
    (hpast : halfWords < position s) :
    ∃ buf, after word s copyHalf =
        { s with limit := 0, buf := buf, pipe := s.pipe + 1 } ∧
      ∀ j < halfWords, buf j = s.ram j := by
  have hpos : 0 < halfWords := by decide
  have hready : ready s.limit (position s) = true := by
    rw [hlimit, ready_halfWords, decide_eq_true hpast]
  obtain ⟨buf, hafter, hwords, -⟩ := after_copyHalf word hchild hready
  rw [hlimit, if_pos hpos] at hafter hwords
  exact ⟨buf, hafter, by simpa using hwords⟩

variable (word) in
/-- The second half is copied once the position has wrapped. -/
theorem after_secondHalf (hchild : s.child = .poll) (hlimit : s.limit = 0)
    (hwrapped : position s < halfWords) :
    ∃ buf, after word s copyHalf =
        { s with limit := halfWords, buf := buf, pipe := s.pipe + 1 } ∧
      ∀ slot < halfWords, buf slot = s.buf slot := by
  have hready : ready s.limit (position s) = true := by
    rw [hlimit, ready_zero, decide_eq_true hwrapped]
  obtain ⟨buf, hafter, -, hrest⟩ := after_copyHalf word hchild hready
  rw [hlimit, if_neg (lt_irrefl 0)] at hafter hrest
  exact ⟨buf, hafter, hrest⟩

/-- The server with the child at the head of its loop and the parent waiting
for its first token. -/
def waiting (written limit pipe : ℕ) (ram buf : ℕ → Word) : State Word where
  enabled := true
  acquisition := 1
  written := written
  ram := ram
  limit := limit
  child := .poll
  buf := buf
  pipe := pipe
  parent := .take 0
  client := []

section Waiting

variable (word) (ram buf : ℕ → Word) (written : ℕ)

theorem opened_eq_waiting : opened ram buf = waiting 0 halfWords 0 ram buf :=
  rfl

theorem waiting_writers (limit pipe n : ℕ)
    (hroom : written % ringWords + n ≤ ringWords) :
    ∃ ram', after word (waiting written limit pipe ram buf)
          (List.replicate n .writer) =
        waiting (written + n) limit pipe ram' buf ∧
      (∀ k < n, ram' (written % ringWords + k) = word 1 (written + k)) ∧
      ∀ slot < written % ringWords, ram' slot = ram slot :=
  after_writers word (s := waiting written limit pipe ram buf) rfl n hroom

theorem waiting_failedTest (pipe : ℕ)
    (hbefore : written % ringWords ≤ halfWords) :
    after word (waiting written halfWords pipe ram buf) [.child, .child] =
      waiting written halfWords pipe ram buf := by
  apply after_failed_test rfl
  rw [position, waiting, ready_halfWords, decide_eq_false_iff_not]
  exact not_lt.mpr hbefore

theorem waiting_firstHalf (pipe : ℕ)
    (hpast : halfWords < written % ringWords) :
    ∃ buf', after word (waiting written halfWords pipe ram buf) copyHalf =
        waiting written 0 (pipe + 1) ram buf' ∧
      ∀ j < halfWords, buf' j = ram j :=
  after_firstHalf word (s := waiting written halfWords pipe ram buf) rfl rfl
    hpast

theorem waiting_secondHalf (pipe : ℕ)
    (hwrapped : written % ringWords < halfWords) :
    ∃ buf', after word (waiting written 0 pipe ram buf) copyHalf =
        waiting written halfWords (pipe + 1) ram buf' ∧
      ∀ slot < halfWords, buf' slot = buf slot :=
  after_secondHalf word (s := waiting written 0 pipe ram buf) rfl rfl hwrapped

end Waiting

theorem emitted_copies {offset : ℕ} (hchild : s.child = .copy offset 0) :
    ∀ n ≤ halfWords,
      emitted (step word) copyEvent s (List.replicate n .child) =
        (List.range n).map fun j => s.ram (offset + j) := by
  intro n
  induction n with
  | zero => exact fun _ => rfl
  | succ n ih =>
      intro hle
      obtain ⟨buf, hafter, -, -⟩ := after_copies word hchild n (by omega)
      rw [List.replicate_succ', emitted_append, ih (by omega), ← after, hafter,
        List.range_succ, List.map_append]
      simp [emitted, copyEvent, Nat.lt_of_succ_le hle]

/-- A poll and a test copy nothing. -/
theorem emitted_test (hchild : s.child = .poll) :
    emitted (step word) copyEvent s [.child, .child] = [] := by
  simp [emitted, copyEvent, step, hchild, childStep_poll hchild]

theorem emitted_copyHalf (hchild : s.child = .poll)
    (hready : ready s.limit (position s) = true) :
    emitted (step word) copyEvent s copyHalf =
      (List.range halfWords).map fun j =>
        s.ram ((if s.limit > 0 then 0 else halfWords) + j) := by
  rw [copyHalf, emitted_append, emitted_test hchild, ← after,
    after_passed_test word hchild hready, List.nil_append, emitted_append]
  obtain ⟨buf, hafter, -, -⟩ := after_copies word
    (s := { s with
      child := .copy (if s.limit > 0 then 0 else halfWords) 0
      limit := if s.limit > 0 then 0 else halfWords }) rfl halfWords le_rfl
  rw [emitted_copies rfl halfWords le_rfl, ← after, hafter]
  simp [emitted, copyEvent]

/-- The first word that the copy of a half takes. -/
theorem head?_emitted_copyHalf (hchild : s.child = .poll)
    (hready : ready s.limit (position s) = true) (late : List Turn) :
    (emitted (step word) copyEvent s (copyHalf ++ late)).head? =
      some (s.ram (if s.limit > 0 then 0 else halfWords)) := by
  have hpos : halfWords ≠ 0 := by decide
  rw [emitted_append, emitted_copyHalf hchild hready, List.head?_append,
    List.head?_map, List.head?_range, if_neg hpos]
  rfl

/-- What a script of turns leads to. -/
theorem server_played (start : State Word) (turns : List Turn) :
    (server word start).stateAt (played turns .writer) turns.length =
      after word start turns := by
  have hplayed := (server word start).stateAt_played turns [] .writer
  rwa [List.append_nil] at hplayed

theorem played_ne_of_forall {turns : List Turn} {turn : Turn}
    (hturns : ∀ played ∈ turns, played ≠ turn) (hwriter : turn ≠ .writer)
    (cycle : ℕ) : played turns .writer cycle ≠ turn := by
  rw [played, List.getD_eq_getElem?_getD]
  cases hget : turns[cycle]? with
  | none => exact hwriter.symm
  | some found => exact hturns found (List.mem_of_getElem? hget)

/-- The writer goes past the first half in three stretches; the child polls in
vain after the first two and then copies the half. -/
def firstHalf (early middle late : ℕ) : List Turn :=
  List.replicate early .writer ++ ([.child, .child] ++
    (List.replicate middle .writer ++ ([.child, .child] ++
      (List.replicate late .writer ++ copyHalf))))

/-- The parent takes the token and sends the half. -/
def sendHalf : List Turn :=
  [.parent true] ++ (List.replicate halfWords (.parent true) ++ [.parent true])

section FirstBlock

variable (word) (ram buf : ℕ → Word) {written early middle late : ℕ}

variable {ram} in
/-- A stretch of the first round. -/
theorem waiting_filled (limit pipe n : ℕ)
    (hfilled : ∀ k < written, ram k = word 1 k)
    (hroom : written + n < ringWords) :
    ∃ ram', after word (waiting written limit pipe ram buf)
          (List.replicate n .writer) =
        waiting (written + n) limit pipe ram' buf ∧
      ∀ k < written + n, ram' k = word 1 k := by
  have hplace : written % ringWords = written := Nat.mod_eq_of_lt (by omega)
  obtain ⟨ram', hafter, hwords, hkept⟩ :=
    waiting_writers word ram buf written limit pipe n (by omega)
  rw [hplace] at hwords hkept
  refine ⟨ram', hafter, fun k hk => ?_⟩
  by_cases hold : k < written
  · rw [hkept k hold, hfilled k hold]
  · have hnew := hwords (k - written) (by omega)
    rwa [Nat.add_sub_cancel' (not_lt.mp hold)] at hnew

/-- The words that the copy of the first half takes. -/
theorem emitted_waiting (written pipe : ℕ)
    (hpast : halfWords < written % ringWords) :
    emitted (step word) copyEvent (waiting written halfWords pipe ram buf)
        copyHalf =
      (List.range halfWords).map ram := by
  have hready : ready halfWords (written % ringWords) = true := by
    rw [ready_halfWords, decide_eq_true hpast]
  have hpos : 0 < halfWords := by decide
  refine (emitted_copyHalf (s := waiting written halfWords pipe ram buf) rfl
    hready).trans ?_
  apply List.map_congr_left
  intro j _
  change ram ((if halfWords > 0 then 0 else halfWords) + j) = ram j
  rw [if_pos hpos, Nat.zero_add]

variable (early middle late) in
/-- The child has copied the first half, whose token waits in the pipe. -/
theorem after_firstHalf_opened (hbefore : early + middle ≤ halfWords)
    (hpast : halfWords < early + middle + late)
    (hroom : early + middle + late < ringWords) :
    ∃ ram' buf', after word (opened ram buf) (firstHalf early middle late) =
        waiting (early + middle + late) 0 1 ram' buf' ∧
      (∀ j < halfWords, buf' j = word 1 j) ∧
      emitted (step word) copyEvent (opened ram buf)
          (firstHalf early middle late) =
        stream word 1 halfWords := by
  have hring : ringWords = 2 * halfWords := rfl
  obtain ⟨ram₁, hfirst, hfilled₁⟩ := waiting_filled word buf halfWords 0 early
    (fun k hk => absurd hk (Nat.not_lt_zero k) : ∀ k < 0, ram k = word 1 k)
    (by omega)
  obtain ⟨ram₂, hsecond, hfilled₂⟩ :=
    waiting_filled word buf halfWords 0 middle hfilled₁ (by omega)
  obtain ⟨ram₃, hthird, hfilled₃⟩ :=
    waiting_filled word buf halfWords 0 late hfilled₂ (by omega)
  rw [Nat.zero_add] at hfirst hsecond hthird hfilled₃
  have htest₁ : early % ringWords ≤ halfWords := by
    rw [Nat.mod_eq_of_lt (by omega)]
    omega
  have htest₂ : (early + middle) % ringWords ≤ halfWords := by
    rw [Nat.mod_eq_of_lt (by omega)]
    exact hbefore
  have htest₃ : halfWords < (early + middle + late) % ringWords := by
    rw [Nat.mod_eq_of_lt hroom]
    exact hpast
  obtain ⟨buf', hcopied, hwords⟩ :=
    waiting_firstHalf word ram₃ buf (early + middle + late) 0 htest₃
  refine ⟨ram₃, buf', ?_, ?_, ?_⟩
  · rw [firstHalf, opened_eq_waiting, after_append, hfirst, after_append,
      waiting_failedTest word ram₁ buf early 0 htest₁, after_append, hsecond,
      after_append, waiting_failedTest word ram₂ buf (early + middle) 0 htest₂,
      after_append, hthird, hcopied]
  · intro j hj
    rw [hwords j hj, hfilled₃ j (by omega)]
  · rw [firstHalf, opened_eq_waiting, emitted_append,
      emitted_replicate (by decide), ← after, hfirst, List.nil_append,
      emitted_append, emitted_test rfl, ← after,
      waiting_failedTest word ram₁ buf early 0 htest₁, List.nil_append,
      emitted_append, emitted_replicate (by decide), ← after, hsecond,
      List.nil_append, emitted_append,
      emitted_test rfl, ← after,
      waiting_failedTest word ram₂ buf (early + middle) 0 htest₂,
      List.nil_append, emitted_append, emitted_replicate (by decide), ← after,
      hthird, List.nil_append, emitted_waiting word ram₃ buf _ 0 htest₃, stream]
    apply List.map_congr_left
    intro j hj
    have hhalf : j < halfWords := List.mem_range.mp hj
    exact hfilled₃ j (by omega)

/-- A stretch of `send`. -/
theorem after_sends (hparent : s.parent = .send 0 0) :
    ∀ n ≤ halfWords, after word s (List.replicate n (.parent true)) =
      { s with
        client := s.client ++ (List.range n).map s.buf
        parent := .send 0 n } := by
  intro n
  induction n with
  | zero =>
      intro _
      rw [List.range_zero, List.map_nil, List.append_nil, ← hparent]
      rfl
  | succ n ih =>
      intro hle
      rw [after_replicate_succ, ih (by omega), step, parentStep_word rfl hle,
        List.range_succ, List.map_append, ← List.append_assoc, Nat.zero_add]
      rfl

/-- The end of a block adds nothing. -/
theorem client_sent {offset : ℕ} (hparent : s.parent = .send offset halfWords) :
    (after word s [.parent true]).client = s.client := by
  change (parentStep true s).client = s.client
  rw [parentStep_sent hparent (lt_irrefl halfWords)]

/-- The first half has been sent as it stands in the buffer. -/
theorem client_sendHalf (limit pipe : ℕ) :
    (after word (waiting written limit (pipe + 1) ram buf) sendHalf).client =
      (List.range halfWords).map buf := by
  have htake : after word (waiting written limit (pipe + 1) ram buf)
      [.parent true] =
        { waiting written limit pipe ram buf with parent := .send 0 0 } := rfl
  have hsends := after_sends word
    (s := { waiting written limit pipe ram buf with parent := .send 0 0 }) rfl
    halfWords le_rfl
  rw [sendHalf, after_append, htake, after_append, hsends, client_sent word rfl]
  exact List.nil_append _

variable (early middle late) in
/-- The copies and the output of the first block. -/
theorem after_block (hbefore : early + middle ≤ halfWords)
    (hpast : halfWords < early + middle + late)
    (hroom : early + middle + late < ringWords) :
    (after word (opened ram buf)
        (firstHalf early middle late ++ sendHalf)).client =
        stream word 1 halfWords ∧
      emitted (step word) copyEvent (opened ram buf)
          (firstHalf early middle late ++ sendHalf) =
        stream word 1 halfWords := by
  obtain ⟨ram', buf', hafter, hbuf, hcopied⟩ := after_firstHalf_opened word ram
    buf early middle late hbefore hpast hroom
  constructor
  · rw [after_append, hafter, client_sendHalf word ram' buf' _ 0, stream]
    apply List.map_congr_left
    intro j hj
    exact hbuf j (List.mem_range.mp hj)
  · have hnone : emitted (step word) copyEvent
        (after word (opened ram buf) (firstHalf early middle late)) sendHalf =
          [] := by
      apply emitted_of_ne_child
      rintro turn hturn rfl
      simp [sendHalf] at hturn
    rw [emitted_append, hcopied, ← after, hnone, List.append_nil]

end FirstBlock

end Rfsoc.BlockServer
