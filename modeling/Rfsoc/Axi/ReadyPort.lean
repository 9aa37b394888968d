import Rfsoc.Axi.RamWriterFifo
import Rfsoc.Axi.RamWriterRing

/-!
# A memory port that looks at the FIFO

A port that takes every address at once and asks for a data beat only while a
word is stored is orderly.  When it asks for one in every cycle in which a word
comes, the FIFO with the documented `ALMOSTEMPTY` never holds more than 17 words,
so what has been stored is never far behind what has been taken.
-/

namespace Rfsoc.RamWriter

open Rfsoc.Clocked

variable {addrWidth axiIdWidth : ℕ}

/-- What the port and the flags drive in such a cycle. -/
structure Tended (s : State addrWidth axiIdWidth) (i : Input) : Prop where
  run : i.aresetn = true
  flag : i.intEmptyWire = decide (s.fifo.length ≤ 15)
  address : i.mAxiAwready = true
  data : i.mAxiWready = true → s.fifo ≠ []
  keepsUp : fifoWren i = true → s.fifo ≠ [] → i.mAxiWready = true

/-- An idle core waits for 16 words, and one that writes gives a word away for
every further one. -/
structure LevelInv (s : State addrWidth axiIdWidth) : Prop where
  running : s.resetS = false ∧ s.resetShreg = 0
  pending : s.intAwvalidReg = true → s.intWvalidReg = true
  idle : s.intWvalidReg = false → s.fifo.length ≤ 16
  level : s.fifo.length ≤ 17

theorem levelInv_resetState :
    LevelInv (resetState : State addrWidth axiIdWidth) where
  running := ⟨rfl, rfl⟩
  pending := fun hoffers => absurd hoffers Bool.false_ne_true
  idle := fun _ => Nat.zero_le 16
  level := Nat.zero_le 17

section Step

variable {s : State addrWidth axiIdWidth} {i : Input}

/-- What a cycle leaves in the FIFO. -/
theorem length_fifo_step (hrunning : s.resetS = false)
    (hrun : i.aresetn = true) :
    (step s i).fifo.length =
      s.fifo.length - (intRdenWire s i).toNat + (fifoWren i).toNat := by
  have hreset : fifoReset s i = false := by
    rw [fifoReset, hrunning, hrun]
    rfl
  simp only [step, fifo36e1, hreset]
  cases intRdenWire s i <;> cases fifoWren i <;> simp

/-- The core goes on only with the words of a burst in store. -/
theorem intWvalidReg_idle (htended : Tended s i) (hinv : LevelInv s)
    (hidle : s.intWvalidReg = false) :
    (step s i).intWvalidReg = decide (15 < s.fifo.length) := by
  have hnone : s.intAwvalidReg = false := by
    rw [← Bool.not_eq_true]
    exact fun hoffers =>
      Bool.false_ne_true (hidle.symm.trans (hinv.pending hoffers))
  simp [step, htended.run, intWvalidNext, htended.flag, hidle, hnone]

/-- An address is on offer only while the core writes. -/
theorem LevelInv.pending_step (htended : Tended s i) (hinv : LevelInv s) :
    (RamWriter.step s i).intAwvalidReg = true →
      (RamWriter.step s i).intWvalidReg = true := by
  intro hoffers
  simp only [RamWriter.step, htended.run, if_true, intAwvalidNext,
    intWvalidNext, htended.address] at hoffers ⊢
  have hpending := hinv.pending
  cases hempty : i.intEmptyWire <;> cases hvalid : s.intWvalidReg <;>
    cases hlast : i.mAxiWready && intWlastWire s <;> simp_all

/-- A core that is idle, or becomes so, has few words. -/
theorem LevelInv.idle_step (htended : Tended s i) (hinv : LevelInv s) :
    (RamWriter.step s i).intWvalidReg = false →
      (RamWriter.step s i).fifo.length ≤ 16 := by
  intro hnext
  have hlength := length_fifo_step hinv.running.1 htended.run
  have hone := Bool.toNat_le (fifoWren i)
  cases hvalid : s.intWvalidReg with
  | false =>
      have hread : intRdenWire s i = false := by
        rw [intRdenWire, hvalid, Bool.and_false]
      rw [intWvalidReg_idle htended hinv hvalid, decide_eq_false_iff_not]
        at hnext
      rw [hlength, hread, Bool.toNat_false]
      omega
  | true =>
      -- the last beat of a burst, with no words for the next
      simp only [RamWriter.step, htended.run, if_true, intWvalidNext, hvalid,
        htended.flag] at hnext
      have hlow : s.fifo.length ≤ 15 := by
        by_contra hhigh
        simp [hhigh] at hnext
      omega

/-- A core that writes gives a word for every one that comes. -/
theorem LevelInv.level_step (htended : Tended s i) (hinv : LevelInv s) :
    (RamWriter.step s i).fifo.length ≤ 17 := by
  have hlength := length_fifo_step hinv.running.1 htended.run
  have hlevel := hinv.level
  have hone := Bool.toNat_le (fifoWren i)
  cases hvalid : s.intWvalidReg with
  | false =>
      have hidle := hinv.idle hvalid
      omega
  | true =>
      cases hwren : fifoWren i with
      | false =>
          rw [hlength, hwren, Bool.toNat_false]
          omega
      | true =>
          by_cases hstored : s.fifo = []
          · rw [hlength, hstored]
            simp only [List.length_nil]
            omega
          · have hword : intRdenWire s i = true := by
              rw [intRdenWire, htended.keepsUp hwren hstored, hvalid]
              rfl
            rw [hlength, hword, hwren, Bool.toNat_true]
            omega

theorem LevelInv.step (htended : Tended s i) (hinv : LevelInv s) :
    LevelInv (RamWriter.step s i) where
  running := by simp [RamWriter.step, hinv.running.2]
  pending := hinv.pending_step htended
  idle := hinv.idle_step htended
  level := hinv.level_step htended

end Step

section Run

variable {base : Address} {input : ℕ → Input} {horizon : ℕ}

/-- The core in a run with such a port. -/
theorem levelInv_stateAt
    (htended : ∀ cycle < horizon,
      Tended ((core addrWidth axiIdWidth).stateAt input cycle) (input cycle)) :
    ∀ cycle ≤ horizon,
      LevelInv ((core addrWidth axiIdWidth).stateAt input cycle) := by
  refine upTo_induction horizon levelInv_resetState ?_
  intro cycle hcycle ih
  exact ih.step (htended cycle hcycle)

/-- Such a port is orderly. -/
theorem orderlySlave_of_tended (hwidth : 4 ≤ addrWidth)
    (htended : ∀ cycle < horizon,
      Tended ((core addrWidth axiIdWidth).stateAt input cycle) (input cycle)) :
    OrderlySlave addrWidth axiIdWidth base input horizon := by
  have hrun : ∀ cycle < horizon, (input cycle).aresetn = true :=
    fun cycle hcycle => (htended cycle hcycle).run
  refine ⟨hrun, ?_, ?_⟩
  · intro cycle hcycle hread
    rw [intRdenWire, Bool.and_eq_true] at hread
    exact (htended cycle hcycle).data hread.1
  · have hinv : ∀ cycle ≤ horizon,
        AddressInv (wBeats addrWidth axiIdWidth input cycle).length
          (awBeats addrWidth axiIdWidth base input cycle).length
          ((core addrWidth axiIdWidth).stateAt input cycle) :=
      addressInv_stateAt base hwidth horizon hrun
        fun cycle hcycle _ _ _ => (htended cycle hcycle).address
    apply upTo_induction
    · exact Nat.zero_le _
    · intro cycle hcycle ih
      have hissued := (hinv cycle hcycle.le).issued
      rw [length_wBeats_succ, length_awBeats_succ, awTaken, intRdenWire,
        (htended cycle hcycle).address, Bool.and_true]
      cases hvalid :
          ((core addrWidth axiIdWidth).stateAt input cycle).intWvalidReg with
      | false =>
          rw [Bool.and_false, Bool.toNat_false]
          omega
      | true =>
          have hone := Bool.toNat_le ((input cycle).mAxiWready && true)
          rw [hvalid, Bool.toNat_true] at hissued
          omega

end Run

end Rfsoc.RamWriter
