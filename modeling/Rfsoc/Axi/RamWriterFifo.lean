import Rfsoc.Axi.RamWriterBursts

/-!
# The FIFO of the RAM writer

A burst is started when the FIFO is not almost empty, that is when more than 15
words are stored.  From idle this is enough for 16 beats.  In the last beat of
the previous burst one of these words is still being read, so a burst chained at
a level of exactly 16 words has only 15 of its own and depends on an arrival
before its last beat.
-/

namespace Rfsoc.RamWriter

open Rfsoc.Clocked

section Run

variable (addrWidth axiIdWidth : ℕ) (input : ℕ → Input)

/-- Words stored in the FIFO, the one on `DO` included. -/
def stored (cycle : ℕ) : ℕ :=
  ((core addrWidth axiIdWidth).stateAt input cycle).fifo.length

/-- `RDEN`: a data beat is taken from the FIFO. -/
def rden (cycle : ℕ) : Bool :=
  intRdenWire ((core addrWidth axiIdWidth).stateAt input cycle) (input cycle)

/-- The data beat of a cycle is the last of its burst. -/
def LastBeat (cycle : ℕ) : Prop :=
  rden addrWidth axiIdWidth input cycle = true ∧
    intWlastWire ((core addrWidth axiIdWidth).stateAt input cycle) = true

/-- `ALMOSTEMPTY` with `ALMOST_EMPTY_OFFSET` 15: low exactly when more than 15
words are stored. -/
def AlmostEmptyFlag (horizon : ℕ) : Prop :=
  ∀ cycle < horizon, (input cycle).intEmptyWire =
    decide (stored addrWidth axiIdWidth input cycle ≤ 15)

/-- No data beat is taken from an empty FIFO. -/
def NeverReadsEmpty (horizon : ℕ) : Prop :=
  ∀ cycle < horizon, rden addrWidth axiIdWidth input cycle = true →
    1 ≤ stored addrWidth axiIdWidth input cycle

/-- The burst in progress at `cycle` was chained in the last beat `first` at a
level of 16 words, and no word has been accepted since. -/
structure ChainedShort (first cycle : ℕ) : Prop where
  before : first < cycle
  last : LastBeat addrWidth axiIdWidth input first
  level : stored addrWidth axiIdWidth input first = 16
  inside : ∀ between, first < between → between < cycle →
    ¬ LastBeat addrWidth axiIdWidth input between
  quiet : ∀ between, first ≤ between → between < cycle →
    fifoWren (input between) = false

variable {addrWidth axiIdWidth input} {horizon : ℕ}

/-- A read takes a word and an accepted word adds one. -/
theorem stored_succ (hrun : ∀ cycle < horizon, (input cycle).aresetn = true)
    {cycle : ℕ} (hcycle : cycle < horizon) :
    stored addrWidth axiIdWidth input (cycle + 1) =
      stored addrWidth axiIdWidth input cycle -
          (rden addrWidth axiIdWidth input cycle).toNat +
        (fifoWren (input cycle)).toNat := by
  have hreset : fifoReset ((core addrWidth axiIdWidth).stateAt input cycle)
      (input cycle) = false :=
    fifoReset_stateAt horizon hrun cycle hcycle
  rw [stored, stored, rden, Machine.stateAt_succ]
  generalize (core addrWidth axiIdWidth).stateAt input cycle = s at hreset ⊢
  change (step s (input cycle)).fifo.length = _
  simp only [step, fifo36e1, hreset]
  cases intRdenWire s (input cycle) <;> cases fifoWren (input cycle) <;> simp

theorem lastBeat_iff (hwidth : 4 ≤ addrWidth)
    (hrun : ∀ cycle < horizon, (input cycle).aresetn = true) {cycle : ℕ}
    (hcycle : cycle ≤ horizon) :
    LastBeat addrWidth axiIdWidth input cycle ↔
      rden addrWidth axiIdWidth input cycle = true ∧
        (wBeats addrWidth axiIdWidth input cycle).length % 16 = 15 := by
  have hinv : BeatInv (wBeats addrWidth axiIdWidth input cycle).length
      ((core addrWidth axiIdWidth).stateAt input cycle) :=
    beatInv_stateAt hwidth horizon hrun cycle hcycle
  rw [LastBeat, hinv.wlast hwidth, decide_eq_true_iff]

theorem beats_succ (cycle : ℕ) :
    (wBeats addrWidth axiIdWidth input (cycle + 1)).length =
      (wBeats addrWidth axiIdWidth input cycle).length +
        (rden addrWidth axiIdWidth input cycle).toNat :=
  length_wBeats_succ addrWidth axiIdWidth input cycle

/-- Every cycle that neither ends the burst nor accepts a word leaves it
short. -/
theorem ChainedShort.extend {first cycle : ℕ}
    (hshort : ChainedShort addrWidth axiIdWidth input first cycle)
    (hinside : ¬ LastBeat addrWidth axiIdWidth input cycle)
    (hquiet : fifoWren (input cycle) = false) :
    ChainedShort addrWidth axiIdWidth input first (cycle + 1) where
  before := Nat.lt_succ_of_lt hshort.before
  last := hshort.last
  level := hshort.level
  inside := by
    intro between hlow hhigh
    obtain hlt | rfl := Nat.lt_succ_iff_lt_or_eq.mp hhigh
    · exact hshort.inside between hlow hlt
    · exact hinside
  quiet := by
    intro between hlow hhigh
    obtain hlt | rfl := Nat.lt_succ_iff_lt_or_eq.mp hhigh
    · exact hshort.quiet between hlow hlt
    · exact hquiet

/-- Chaining at 16 words without an arrival makes the next burst short. -/
theorem ChainedShort.of_lastBeat {cycle : ℕ}
    (hlast : LastBeat addrWidth axiIdWidth input cycle)
    (hlevel : stored addrWidth axiIdWidth input cycle = 16)
    (hquiet : fifoWren (input cycle) = false) :
    ChainedShort addrWidth axiIdWidth input cycle (cycle + 1) where
  before := Nat.lt_succ_self cycle
  last := hlast
  level := hlevel
  inside := fun between hlow hhigh => by omega
  quiet := by
    intro between hlow hhigh
    obtain rfl : between = cycle := by omega
    exact hquiet

/-- A short burst has 15 words for its 16 beats as long as nothing arrives. -/
theorem ChainedShort.stored_eq (hwidth : 4 ≤ addrWidth)
    (hrun : ∀ cycle < horizon, (input cycle).aresetn = true) {first : ℕ} :
    ∀ cycle, first + 1 ≤ cycle → cycle ≤ horizon →
      ChainedShort addrWidth axiIdWidth input first cycle →
      stored addrWidth axiIdWidth input cycle +
        (wBeats addrWidth axiIdWidth input cycle).length % 16 = 15 := by
  intro cycle hfirst
  induction cycle, hfirst using Nat.le_induction with
  | base =>
      intro hle hshort
      have hlast := (lastBeat_iff hwidth hrun (by omega)).mp hshort.last
      have hquiet := hshort.quiet first le_rfl (Nat.lt_succ_self first)
      rw [stored_succ hrun hle, beats_succ, hshort.level, hlast.1, hquiet]
      simp only [Bool.toNat_true, Bool.toNat_false]
      omega
  | succ cycle hfirst ih =>
      intro hle hshort
      have hbefore := ih (by omega)
        ⟨hfirst, hshort.last, hshort.level,
          fun between hlow hhigh => hshort.inside between hlow (by omega),
          fun between hlow hhigh => hshort.quiet between hlow (by omega)⟩
      have hquiet := hshort.quiet cycle (by omega) (Nat.lt_succ_self cycle)
      have hinside := hshort.inside cycle hfirst (Nat.lt_succ_self cycle)
      rw [lastBeat_iff hwidth hrun (by omega)] at hinside
      rw [stored_succ hrun hle, beats_succ, hquiet]
      cases hread : rden addrWidth axiIdWidth input cycle with
      | false => simpa using hbefore
      | true =>
          have hnotLast :
              (wBeats addrWidth axiIdWidth input cycle).length % 16 ≠ 15 :=
            fun hend => hinside ⟨hread, hend⟩
          simp only [Bool.toNat_true, Bool.toNat_false]
          omega

/-- The words of a burst in progress: enough for its remaining beats, or one
short and nothing has arrived. -/
def BurstLevel (addrWidth axiIdWidth : ℕ) (input : ℕ → Input) (cycle : ℕ) :
    Prop :=
  16 ≤ stored addrWidth axiIdWidth input cycle +
      (wBeats addrWidth axiIdWidth input cycle).length % 16 ∨
    ∃ first, ChainedShort addrWidth axiIdWidth input first cycle

section BurstLevel

variable (hwidth : 4 ≤ addrWidth)
  (hrun : ∀ cycle < horizon, (input cycle).aresetn = true)
include hwidth hrun

/-- A burst opens from idle with more than 15 words in store. -/
theorem burstLevel_of_idle {cycle : ℕ} (hcycle : cycle < horizon)
    (hwvalid :
      ((core addrWidth axiIdWidth).stateAt input cycle).intWvalidReg = false)
    (hlevel : ¬ stored addrWidth axiIdWidth input cycle ≤ 15) :
    BurstLevel addrWidth axiIdWidth input (cycle + 1) := by
  have hinv : BeatInv (wBeats addrWidth axiIdWidth input cycle).length
      ((core addrWidth axiIdWidth).stateAt input cycle) :=
    beatInv_stateAt hwidth horizon hrun cycle hcycle.le
  have hidle := hinv.idle hwvalid
  have hread : rden addrWidth axiIdWidth input cycle = false := by
    rw [rden, intRdenWire, hwvalid, Bool.and_false]
  left
  rw [stored_succ hrun hcycle, beats_succ, hread, Bool.toNat_false]
  omega

/-- The next burst is chained in the last beat of this one. -/
theorem burstLevel_of_lastBeat {cycle : ℕ} (hcycle : cycle < horizon)
    (hend : LastBeat addrWidth axiIdWidth input cycle)
    (hlevel : ¬ stored addrWidth axiIdWidth input cycle ≤ 15) :
    BurstLevel addrWidth axiIdWidth input (cycle + 1) := by
  obtain ⟨hread, hbeats⟩ := (lastBeat_iff hwidth hrun hcycle.le).mp hend
  rw [BurstLevel, stored_succ hrun hcycle, beats_succ, hread, Bool.toNat_true]
  cases hquiet : fifoWren (input cycle) with
  | true =>
      left
      rw [Bool.toNat_true]
      omega
  | false =>
      by_cases hshort : stored addrWidth axiIdWidth input cycle = 16
      · exact Or.inr ⟨cycle, .of_lastBeat hend hshort hquiet⟩
      · left
        rw [Bool.toNat_false]
        omega

/-- Inside the burst a read and its beat cancel. -/
theorem burstLevel_inside {cycle : ℕ} (hcycle : cycle < horizon)
    (hinside : ¬ LastBeat addrWidth axiIdWidth input cycle)
    (hburst : BurstLevel addrWidth axiIdWidth input cycle) :
    BurstLevel addrWidth axiIdWidth input (cycle + 1) := by
  have hnotLast : rden addrWidth axiIdWidth input cycle = true →
      (wBeats addrWidth axiIdWidth input cycle).length % 16 ≠ 15 := by
    intro hread hbeats
    exact hinside ((lastBeat_iff hwidth hrun hcycle.le).mpr ⟨hread, hbeats⟩)
  rw [BurstLevel, stored_succ hrun hcycle, beats_succ]
  obtain henough | ⟨first, hshort⟩ := hburst
  · left
    cases hread : rden addrWidth axiIdWidth input cycle with
    | false =>
        rw [Bool.toNat_false]
        omega
    | true =>
        have hbeats := hnotLast hread
        rw [Bool.toNat_true]
        omega
  · cases hquiet : fifoWren (input cycle) with
    | false => exact Or.inr ⟨first, hshort.extend hinside hquiet⟩
    | true =>
        have hlevel := ChainedShort.stored_eq hwidth hrun cycle
          hshort.before hcycle.le hshort
        left
        cases hread : rden addrWidth axiIdWidth input cycle with
        | false =>
            rw [Bool.toNat_false, Bool.toNat_true]
            omega
        | true =>
            have hbeats := hnotLast hread
            rw [Bool.toNat_true]
            omega

theorem burst_level (hflag : AlmostEmptyFlag addrWidth axiIdWidth input horizon) :
    ∀ cycle ≤ horizon,
      ((core addrWidth axiIdWidth).stateAt input cycle).intWvalidReg = true →
        BurstLevel addrWidth axiIdWidth input cycle := by
  refine upTo_induction horizon ?_ ?_
  · intro hvalid
    exact absurd hvalid Bool.false_ne_true
  intro cycle hcycle ih hvalid
  have hinv : BeatInv (wBeats addrWidth axiIdWidth input cycle).length
      ((core addrWidth axiIdWidth).stateAt input cycle) :=
    beatInv_stateAt hwidth horizon hrun cycle hcycle.le
  have hnext : ((core addrWidth axiIdWidth).stateAt input
      (cycle + 1)).intWvalidReg =
        intWvalidNext ((core addrWidth axiIdWidth).stateAt input cycle)
          (input cycle) := by
    simp [Machine.stateAt_succ, core, step, hrun cycle hcycle]
  rw [hnext, intWvalidNext, hinv.wlast hwidth, hflag cycle hcycle] at hvalid
  cases hwvalid :
      ((core addrWidth axiIdWidth).stateAt input cycle).intWvalidReg with
  | false =>
      apply burstLevel_of_idle hwidth hrun hcycle hwvalid
      intro hlow
      simp [hwvalid, hlow] at hvalid
  | true =>
      by_cases hend : LastBeat addrWidth axiIdWidth input cycle
      · apply burstLevel_of_lastBeat hwidth hrun hcycle hend
        obtain ⟨hread, hbeats⟩ := (lastBeat_iff hwidth hrun hcycle.le).mp hend
        have hready : (input cycle).mAxiWready = true := by
          rw [rden, intRdenWire, hwvalid, Bool.and_true] at hread
          exact hread
        intro hlow
        simp [hwvalid, hready, hbeats, hlow] at hvalid
      · exact burstLevel_inside hwidth hrun hcycle hend (ih hwvalid)

end BurstLevel

end Run

/-- Between the last beats of two bursts, the second chained at a level of 16
words, some word is accepted. -/
def ArrivalInShortBurst (addrWidth axiIdWidth : ℕ) (input : ℕ → Input)
    (horizon : ℕ) : Prop :=
  ∀ first last, first < last → last < horizon →
    LastBeat addrWidth axiIdWidth input first →
    LastBeat addrWidth axiIdWidth input last →
    (∀ between, first < between → between < last →
      ¬ LastBeat addrWidth axiIdWidth input between) →
    stored addrWidth axiIdWidth input first = 16 →
      ∃ arrival, first ≤ arrival ∧ arrival < last ∧
        fifoWren (input arrival) = true

/-- The FIFO is never read empty exactly when every burst chained at a level of
16 words gets a further word before its last beat. -/
theorem ramWriter_neverReadsEmpty_iff (addrWidth axiIdWidth : ℕ)
    (hwidth : 4 ≤ addrWidth) (input : ℕ → Input) (horizon : ℕ)
    (hrun : ∀ cycle < horizon, (input cycle).aresetn = true)
    (hflag : AlmostEmptyFlag addrWidth axiIdWidth input horizon) :
    NeverReadsEmpty addrWidth axiIdWidth input horizon ↔
      ArrivalInShortBurst addrWidth axiIdWidth input horizon := by
  constructor
  · intro hnever first last hlt hlast hfirst hend hinside hlevel
    by_contra hnone
    have hshort : ChainedShort addrWidth axiIdWidth input first last := by
      refine ⟨hlt, hfirst, hlevel, hinside, ?_⟩
      intro between hlow hhigh
      rw [← Bool.not_eq_true]
      exact fun harrival => hnone ⟨between, hlow, hhigh, harrival⟩
    have hstored := ChainedShort.stored_eq hwidth hrun last hlt hlast.le hshort
    obtain ⟨hread, hbeats⟩ := (lastBeat_iff hwidth hrun hlast.le).mp hend
    have hword := hnever last hlast hread
    omega
  · intro harrival cycle hcycle hread
    have hwvalid :
        ((core addrWidth axiIdWidth).stateAt input cycle).intWvalidReg =
          true := by
      rw [rden, intRdenWire, Bool.and_eq_true] at hread
      exact hread.2
    obtain henough | ⟨first, hshort⟩ :=
      burst_level hwidth hrun hflag cycle hcycle.le hwvalid
    · omega
    · have hstored := ChainedShort.stored_eq hwidth hrun cycle hshort.before
        hcycle.le hshort
      by_contra hdry
      have hbeats :
          (wBeats addrWidth axiIdWidth input cycle).length % 16 = 15 := by
        omega
      have hend := (lastBeat_iff hwidth hrun hcycle.le).mpr ⟨hread, hbeats⟩
      obtain ⟨arrival, hlow, hhigh, haccepted⟩ := harrival first cycle
        hshort.before hcycle hshort.last hend hshort.inside hshort.level
      rw [hshort.quiet arrival hlow hhigh] at haccepted
      exact Bool.false_ne_true haccepted

/-- A slave that is always ready and a stream of 31 words, one in each of the
first cycles. -/
def stoppingStream (cycle : ℕ) : Input where
  aresetn := true
  intEmptyWire := decide (cycle < 16 ∨ 32 < cycle)
  intFullWire := false
  mAxiAwready := true
  mAxiWready := true
  sAxisTdata := BitVec.ofNat 64 cycle
  sAxisTvalid := decide (cycle < 31)

theorem ramWriter_neverReadsEmpty_stoppingStream :
    NeverReadsEmpty 20 3 stoppingStream 50 ↔
      ArrivalInShortBurst 20 3 stoppingStream 50 :=
  ramWriter_neverReadsEmpty_iff 20 3 (by decide) stoppingStream 50 (by decide)
    (by
      unfold AlmostEmptyFlag
      decide +kernel)

/-- The second burst is chained at 16 words and reads its last beat from an
empty FIFO. -/
theorem ramWriter_readsEmpty_stoppingStream :
    (∀ cycle < 50, (stoppingStream cycle).aresetn = true) ∧
      AlmostEmptyFlag 20 3 stoppingStream 50 ∧
      ¬ NeverReadsEmpty 20 3 stoppingStream 50 := by
  unfold AlmostEmptyFlag NeverReadsEmpty
  decide +kernel

end Rfsoc.RamWriter
