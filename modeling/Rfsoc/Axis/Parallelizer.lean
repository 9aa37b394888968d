import Rfsoc.Core.Bits
import Rfsoc.Core.Signals
import Mathlib.Data.Fin.Tuple.Basic
import Mathlib.Tactic.FinCases

/-!
# The parallelizer

`parallelizer` shifts the words of its slave stream through eight registers and
offers all eight as one beat when its modulo-8 counter comes round.  The slave
side is always ready, but a word is only shifted in when the consumer is ready
too, and the beat is offered in the cycle after the counter stood at seven,
whether or not an eighth word has come.
-/

namespace Rfsoc.Parallelizer

open Rfsoc.Bits
open Rfsoc.Clocked
open Rfsoc.Signals

variable {axisTdataWidth : ℕ}

structure State (axisTdataWidth : ℕ) where
  /-- `r0_reg` to `r7_reg`. -/
  rReg : Fin 8 → BitVec axisTdataWidth
  cntrReg : BitVec 3
  validReg : Bool

structure Input (axisTdataWidth : ℕ) where
  aresetn : Bool
  sAxisTdata : BitVec axisTdataWidth
  sAxisTvalid : Bool
  mAxisTready : Bool

/-- `r0_next` to `r7_next`. -/
def rNext (s : State axisTdataWidth) (i : Input axisTdataWidth) :
    Fin 8 → BitVec axisTdataWidth :=
  if i.sAxisTvalid && i.mAxisTready then
    Fin.cons i.sAxisTdata fun k : Fin 7 => s.rReg k.castSucc
  else s.rReg

def cntrNext (s : State axisTdataWidth) (i : Input axisTdataWidth) : BitVec 3 :=
  if i.sAxisTvalid && i.mAxisTready then s.cntrReg + 1 else s.cntrReg

def validNext (s : State axisTdataWidth) : Bool :=
  decide (s.cntrReg.toNat = 7)

def resetState : State axisTdataWidth where
  rReg := fun _ => 0
  cntrReg := 0
  validReg := false

def step (s : State axisTdataWidth) (i : Input axisTdataWidth) :
    State axisTdataWidth :=
  if i.aresetn then
    { rReg := rNext s i
      cntrReg := cntrNext s i
      validReg := validNext s }
  else resetState

def core : Machine (State axisTdataWidth) (Input axisTdataWidth) :=
  ⟨resetState, step⟩

/-- Eight words as one, word 0 in the top bits. -/
def concat (r : Fin 8 → BitVec axisTdataWidth) : BitVec (8 * axisTdataWidth) :=
  (r 0 ++ r 1 ++ r 2 ++ r 3 ++ r 4 ++ r 5 ++ r 6 ++ r 7).cast (by omega)

def sAxisTready : Bool := true

def mAxisTdata (s : State axisTdataWidth) : BitVec (8 * axisTdataWidth) :=
  concat s.rReg

def mAxisTvalid (s : State axisTdataWidth) : Bool := s.validReg

def acceptedWord (_ : State axisTdataWidth) (i : Input axisTdataWidth) :
    List (BitVec axisTdataWidth) :=
  if i.sAxisTvalid && sAxisTready then [i.sAxisTdata] else []

def transferredBeat (s : State axisTdataWidth) (i : Input axisTdataWidth) :
    List (BitVec (8 * axisTdataWidth)) :=
  if mAxisTvalid s && i.mAxisTready then [mAxisTdata s] else []

theorem concat_injective :
    Function.Injective
      (concat : (Fin 8 → BitVec axisTdataWidth) → BitVec (8 * axisTdataWidth)) := by
  intro left right heq
  rw [concat, concat] at heq
  obtain ⟨happend, h7⟩ := append_inj (cast_injective _ heq)
  obtain ⟨happend, h6⟩ := append_inj happend
  obtain ⟨happend, h5⟩ := append_inj happend
  obtain ⟨happend, h4⟩ := append_inj happend
  obtain ⟨happend, h3⟩ := append_inj happend
  obtain ⟨happend, h2⟩ := append_inj happend
  obtain ⟨h0, h1⟩ := append_inj happend
  funext k
  fin_cases k
  · exact h0
  · exact h1
  · exact h2
  · exact h3
  · exact h4
  · exact h5
  · exact h6
  · exact h7

section Run

variable (input : ℕ → Input axisTdataWidth)

def stateAt (cycle : ℕ) : State axisTdataWidth := core.stateAt input cycle

/-- The words accepted on the slave side before a cycle. -/
def accepted : ℕ → List (BitVec axisTdataWidth) :=
  core.log input acceptedWord

/-- The beats transferred on the master side before a cycle. -/
def transferred : ℕ → List (BitVec (8 * axisTdataWidth)) :=
  core.log input transferredBeat

/-- Beat `n` holds the words `8 n` to `8 n + 7`, the newest in the top bits. -/
def Packs (horizon : ℕ) : Prop :=
  ∀ n beat, (transferred input horizon)[n]? = some beat →
    ∃ words : Fin 8 → BitVec axisTdataWidth,
      beat = concat words ∧
        ∀ k, (accepted input horizon)[8 * n + 7 - k.val]? = some (words k)

/-- The same handshakes with other data. -/
def withData (data : ℕ → BitVec axisTdataWidth) (cycle : ℕ) :
    Input axisTdataWidth :=
  { input cycle with sAxisTdata := data cycle }

def validAt (cycle : ℕ) : Bool := (input cycle).sAxisTvalid

def readyAt (cycle : ℕ) : Bool := (input cycle).mAxisTready

/-- A word is shifted in. -/
def shiftsAt (cycle : ℕ) : Bool := validAt input cycle && readyAt input cycle

/-- Seven words of a group have been shifted in. -/
def SevenIn (cycle : ℕ) : Prop := highCycles (shiftsAt input) cycle % 8 = 7

/-- A beat is transferred: seven words were in one cycle before. -/
def transfersAt : ℕ → Bool
  | 0 => false
  | cycle + 1 =>
      decide (highCycles (shiftsAt input) cycle % 8 = 7) &&
        readyAt input (cycle + 1)

/-- Before a cycle the consumer was ready for every word and for every full
beat, and no gap came before the last word of a group. -/
structure Undisturbed (cycle : ℕ) : Prop where
  word : ∀ earlier < cycle, validAt input earlier = true →
    readyAt input earlier = true
  eighth : ∀ earlier < cycle, SevenIn input earlier →
    validAt input earlier = true
  beat : ∀ earlier, earlier + 1 < cycle → SevenIn input earlier →
    readyAt input (earlier + 1) = true

end Run

section Counting

variable {input : ℕ → Input axisTdataWidth}

/-- Every word accepted before a cycle has been shifted in, and all but the
last eight have left. -/
structure Aligned (input : ℕ → Input axisTdataWidth) (cycle : ℕ) : Prop where
  shifted : highCycles (shiftsAt input) cycle = highCycles (validAt input) cycle
  left : highCycles (shiftsAt input) cycle =
    8 * highCycles (transfersAt input) cycle + 8

theorem validAt_of_shiftsAt (cycle : ℕ) (hshifts : shiftsAt input cycle = true) :
    validAt input cycle = true :=
  (Bool.and_eq_true_iff.mp hshifts).1

/-- The eight registers hold the next eight accepted words: register `k` the
one whose number among those shifted in is `k` before the last. -/
def Fresh (input : ℕ → Input axisTdataWidth) (cycle : ℕ) : Prop :=
  ∀ k : Fin 8, ∃ earlier < cycle, shiftsAt input earlier = true ∧
    highCycles (shiftsAt input) earlier + k.val + 1 =
      highCycles (shiftsAt input) cycle ∧
    highCycles (validAt input) earlier + k.val =
      8 * highCycles (transfersAt input) cycle + 7

theorem Aligned.fresh {cycle : ℕ} (haligned : Aligned input cycle) :
    Fresh input cycle := by
  intro k
  have hleft := haligned.left
  have hk := k.isLt
  have hplace : 8 * highCycles (transfersAt input) cycle + 7 - k.val <
      highCycles (shiftsAt input) cycle := by omega
  obtain ⟨earlier, hearlier, hshifts, hcount⟩ := exists_highCycles_eq hplace
  have hsame : highCycles (shiftsAt input) earlier =
      highCycles (validAt input) earlier := by
    rw [highCycles_eq_iff validAt_of_shiftsAt]
    intro before hbefore
    exact (highCycles_eq_iff validAt_of_shiftsAt cycle).mp haligned.shifted
      before (by omega)
  exact ⟨earlier, hearlier, hshifts, by omega, by omega⟩

/-- Seven words were in when the beat was offered. -/
theorem sevenIn_of_transfersAt {cycle : ℕ}
    (htransfers : transfersAt input (cycle + 1) = true) :
    SevenIn input cycle := by
  rw [transfersAt, Bool.and_eq_true, decide_eq_true_iff] at htransfers
  exact htransfers.1

/-- The words of the beats before a cycle had all come when the last of these
beats left. -/
theorem zero_or_last_transfer {cycle : ℕ}
    (haligned : ∀ before < cycle, transfersAt input before = true →
      Aligned input before) :
    highCycles (transfersAt input) cycle = 0 ∨
      ∃ before < cycle,
        highCycles (shiftsAt input) before =
            highCycles (validAt input) before ∧
          highCycles (shiftsAt input) before =
            8 * highCycles (transfersAt input) cycle := by
  cases hcount : highCycles (transfersAt input) cycle with
  | zero => exact Or.inl rfl
  | succ beats =>
      have hplace : beats < highCycles (transfersAt input) cycle := by omega
      obtain ⟨before, hbefore, hleaves, hbeats⟩ := exists_highCycles_eq hplace
      obtain ⟨hshifted, hleft⟩ := haligned before hbefore hleaves
      exact Or.inr ⟨before, hbefore, hshifted, by omega⟩

/-- If all beats so far held the words of their number, no word has been
missed: the previous beat has left where this one begins. -/
theorem aligned_of_fresh {horizon : ℕ}
    (hfresh : ∀ cycle < horizon, transfersAt input cycle = true →
      Fresh input cycle) :
    ∀ cycle < horizon, transfersAt input cycle = true →
      Aligned input cycle := by
  intro cycle
  induction cycle using Nat.strong_induction_on with
  | _ cycle ih =>
      intro hcycle htransfers
      obtain ⟨first, hfirst, hshiftsFirst, hcountFirst, hnumberFirst⟩ :=
        hfresh cycle hcycle htransfers 7
      obtain ⟨last, hlast, hshiftsLast, hcountLast, hnumberLast⟩ :=
        hfresh cycle hcycle htransfers 0
      simp only [Fin.val_zero, Fin.isValue] at hcountLast hnumberLast
      change _ + 7 + 1 = _ at hcountFirst
      change _ + 7 = _ at hnumberFirst
      have hle : highCycles (shiftsAt input) first ≤
          highCycles (validAt input) first :=
        highCycles_le validAt_of_shiftsAt first
      have hbegin : 8 * highCycles (transfersAt input) cycle ≤
          highCycles (shiftsAt input) first := by
        have hcases := zero_or_last_transfer fun before hbefore =>
          ih before hbefore (by omega)
        obtain hnone | ⟨before, -, hshifted, hwords⟩ := hcases
        · omega
        · -- `first` is not before the beat: all words valid by then have left
          have hafter : before ≤ first := by
            by_contra hlate
            have hlt := highCycles_lt (validAt_of_shiftsAt first hshiftsFirst)
              (Nat.lt_of_not_le hlate)
            omega
          have hmono : highCycles (shiftsAt input) before ≤
              highCycles (shiftsAt input) first := highCycles_mono hafter
          omega
      cases cycle with
      | zero => exact absurd htransfers Bool.false_ne_true
      | succ cycle =>
          have hseven : highCycles (shiftsAt input) cycle % 8 = 7 :=
            sevenIn_of_transfersAt htransfers
          have hsucc : highCycles (shiftsAt input) (cycle + 1) = _ :=
            highCycles_succ cycle
          cases hshifts : shiftsAt input cycle with
          | false =>
              rw [hshifts, Bool.toNat_false] at hsucc
              omega
          | true =>
              rw [hshifts, Bool.toNat_true] at hsucc
              obtain rfl : last = cycle :=
                eq_of_highCycles_eq hshiftsLast hshifts (by omega)
              have hvalid : highCycles (validAt input) (last + 1) = _ :=
                highCycles_succ last
              rw [validAt_of_shiftsAt last hshifts, Bool.toNat_true] at hvalid
              exact ⟨by omega, by omega⟩

/-- While seven words wait for the eighth, the next ready cycle transfers
them as they are. -/
theorem exists_transfer_of_gap {earlier distance : ℕ}
    (hseven : SevenIn input earlier) (hgap : shiftsAt input earlier = false)
    (hready : readyAt input (earlier + 1 + distance) = true) :
    ∃ between ≤ earlier + 1 + distance,
      transfersAt input between = true ∧ SevenIn input between := by
  have hstays : SevenIn input (earlier + 1) := by
    rw [SevenIn, highCycles_succ, hgap]
    exact hseven
  have hoffers : ∀ cycle, readyAt input (cycle + 1) = true →
      SevenIn input cycle → transfersAt input (cycle + 1) = true := by
    intro cycle hnext hin
    rw [transfersAt, hnext, Bool.and_true]
    exact decide_eq_true hin
  induction distance generalizing earlier with
  | zero => exact ⟨earlier + 1, le_rfl, hoffers earlier hready hseven, hstays⟩
  | succ distance ih =>
      cases hnext : readyAt input (earlier + 1) with
      | true =>
          exact ⟨earlier + 1, by omega, hoffers earlier hnext hseven, hstays⟩
      | false =>
          have hgapNext : shiftsAt input (earlier + 1) = false := by
            rw [shiftsAt, hnext, Bool.and_false]
          have hplace : earlier + 1 + (distance + 1) =
              earlier + 1 + 1 + distance := by omega
          rw [hplace] at hready ⊢
          refine ih hstays hgapNext hready ?_
          rw [SevenIn, highCycles_succ, hgapNext]
          exact hstays

/-- No full beat was refused before an aligned one: the refused one is
withdrawn, and the next would hold eight words more. -/
theorem readyAt_of_aligned {cycle earlier : ℕ}
    (haligned : ∀ earlier ≤ cycle, transfersAt input earlier = true →
      Aligned input earlier)
    (htransfers : transfersAt input cycle = true) (hearlier : earlier + 1 < cycle)
    (hseven : SevenIn input earlier) (hshifts : shiftsAt input earlier = true) :
    readyAt input (earlier + 1) = true := by
  by_contra hrefused
  rw [SevenIn] at hseven
  have hsucc : highCycles (shiftsAt input) (earlier + 1) =
      highCycles (shiftsAt input) earlier + 1 := by
    rw [highCycles_succ, hshifts, Bool.toNat_true]
  have hnone : highCycles (transfersAt input) (earlier + 2) =
      highCycles (transfersAt input) (earlier + 1) := by
    have hidle : transfersAt input (earlier + 1) = false := by
      rw [transfersAt, Bool.eq_false_iff.mpr hrefused, Bool.and_false]
    rw [highCycles_succ, hidle, Bool.toNat_false, Nat.add_zero]
  -- the beats before the refused one hold fewer words than it does
  have hfew : 8 * highCycles (transfersAt input) (earlier + 1) ≤
      highCycles (shiftsAt input) earlier := by
    have hbeats : ∀ before < earlier + 1, transfersAt input before = true →
        Aligned input before :=
      fun before hbefore => haligned before (by omega)
    obtain hzero | ⟨before, hbefore, -, hwords⟩ := zero_or_last_transfer hbeats
    · omega
    · have hmono : highCycles (shiftsAt input) before ≤
          highCycles (shiftsAt input) earlier := highCycles_mono (by omega)
      omega
  -- and the beat after it holds eight words more
  have hplace : highCycles (transfersAt input) (earlier + 1) <
      highCycles (transfersAt input) (cycle + 1) := by
    have hmono : highCycles (transfersAt input) (earlier + 2) ≤
        highCycles (transfersAt input) cycle := highCycles_mono (by omega)
    have hlast : highCycles (transfersAt input) (cycle + 1) =
        highCycles (transfersAt input) cycle + 1 := by
      rw [highCycles_succ, htransfers, Bool.toNat_true]
    omega
  obtain ⟨next, hnext, hleaves, hbeats⟩ := exists_highCycles_eq hplace
  have hlater : earlier + 2 ≤ next := by
    by_contra hearly
    have hlt := highCycles_lt hleaves (Nat.lt_of_not_le hearly)
    omega
  have hleft := (haligned next (by omega) hleaves).left
  obtain ⟨before, rfl⟩ : ∃ before, next = before + 1 :=
    ⟨next - 1, by omega⟩
  have hstill : highCycles (shiftsAt input) before % 8 = 7 :=
    sevenIn_of_transfersAt hleaves
  have hmono : highCycles (shiftsAt input) (earlier + 1) ≤
      highCycles (shiftsAt input) before := highCycles_mono (by omega)
  have hmonoNext : highCycles (shiftsAt input) before ≤
      highCycles (shiftsAt input) (before + 1) := highCycles_mono (by omega)
  omega

/-- Aligned beats leave no room for a disturbance. -/
theorem undisturbed_of_aligned {cycle : ℕ}
    (haligned : ∀ earlier ≤ cycle, transfersAt input earlier = true →
      Aligned input earlier)
    (htransfers : transfersAt input cycle = true) :
    Undisturbed input cycle := by
  have hready : readyAt input cycle = true := by
    cases cycle with
    | zero => exact absurd htransfers Bool.false_ne_true
    | succ cycle => exact (Bool.and_eq_true_iff.mp htransfers).2
  have hall := (highCycles_eq_iff validAt_of_shiftsAt cycle).mp
    (haligned cycle le_rfl htransfers).shifted
  have heighth : ∀ earlier < cycle, SevenIn input earlier →
      shiftsAt input earlier = true := by
    intro earlier hearlier hseven
    by_contra hgap
    obtain ⟨distance, rfl⟩ := Nat.exists_eq_add_of_le hearlier
    obtain ⟨between, hbetween, hleaves, hstill⟩ :=
      exists_transfer_of_gap hseven (Bool.eq_false_iff.mpr hgap) hready
    have hleft := (haligned between hbetween hleaves).left
    rw [SevenIn] at hstill
    omega
  constructor
  · intro earlier hearlier hvalid
    exact (Bool.and_eq_true_iff.mp (hall earlier hearlier hvalid)).2
  · intro earlier hearlier hseven
    exact validAt_of_shiftsAt earlier (heighth earlier hearlier hseven)
  · intro earlier hearlier hseven
    exact readyAt_of_aligned haligned htransfers hearlier hseven
      (heighth earlier (by omega) hseven)

/-- Without a disturbance the beats are the groups of eight. -/
theorem highCycles_transfersAt {cycle : ℕ}
    (hundisturbed : Undisturbed input cycle) {earlier : ℕ}
    (hle : earlier + 1 ≤ cycle) :
    highCycles (transfersAt input) (earlier + 1) =
      highCycles (shiftsAt input) earlier / 8 := by
  induction earlier with
  | zero =>
      rw [highCycles_succ, highCycles_zero, highCycles_zero]
      rfl
  | succ earlier ih =>
      rw [highCycles_succ, ih (by omega), highCycles_succ, transfersAt]
      by_cases hseven : highCycles (shiftsAt input) earlier % 8 = 7
      · have hvalid := hundisturbed.eighth earlier (by omega) hseven
        have hshifts : shiftsAt input earlier = true := by
          rw [shiftsAt, hvalid, hundisturbed.word earlier (by omega) hvalid]
          rfl
        rw [hshifts, hundisturbed.beat earlier (by omega) hseven,
          decide_eq_true hseven, Bool.and_true, Bool.toNat_true]
        omega
      · have hfew := Bool.toNat_le (shiftsAt input earlier)
        rw [decide_eq_false hseven, Bool.false_and, Bool.toNat_false]
        omega

theorem aligned_of_undisturbed {cycle : ℕ}
    (hundisturbed : Undisturbed input cycle)
    (htransfers : transfersAt input cycle = true) : Aligned input cycle := by
  have hshifts : ∀ earlier < cycle, validAt input earlier = true →
      shiftsAt input earlier = true := by
    intro earlier hearlier hvalid
    rw [shiftsAt, hvalid, hundisturbed.word earlier hearlier hvalid]
    rfl
  refine ⟨(highCycles_eq_iff validAt_of_shiftsAt cycle).mpr hshifts, ?_⟩
  cases cycle with
  | zero => exact absurd htransfers Bool.false_ne_true
  | succ cycle =>
      have hseven := sevenIn_of_transfersAt htransfers
      have hvalid := hundisturbed.eighth cycle (by omega) hseven
      rw [SevenIn] at hseven
      rw [highCycles_transfersAt hundisturbed le_rfl, highCycles_succ,
        hshifts cycle (by omega) hvalid, Bool.toNat_true]
      omega

end Counting

section Registers

variable {input : ℕ → Input axisTdataWidth} {horizon : ℕ}
  (hrun : ∀ cycle < horizon, (input cycle).aresetn = true)
include hrun

theorem stateAt_succ {cycle : ℕ} (hcycle : cycle < horizon) :
    stateAt input (cycle + 1) =
      { rReg := rNext (stateAt input cycle) (input cycle)
        cntrReg := cntrNext (stateAt input cycle) (input cycle)
        validReg := validNext (stateAt input cycle) } := by
  change step (stateAt input cycle) (input cycle) = _
  rw [step, if_pos (hrun cycle hcycle)]

theorem cntrReg_stateAt : ∀ cycle ≤ horizon,
    (stateAt input cycle).cntrReg.toNat =
      highCycles (shiftsAt input) cycle % 8 := by
  apply upTo_induction
  · rfl
  · intro cycle hcycle ih
    rw [stateAt_succ hrun hcycle, highCycles_succ]
    change (cntrNext _ _).toNat = _
    rw [cntrNext]
    change (if shiftsAt input cycle = true then _ else _ : BitVec 3).toNat = _
    cases shiftsAt input cycle with
    | false => exact ih
    | true => exact toNat_add_one ih

/-- The valid register is the one that the handshakes give. -/
theorem transfersAt_eq : ∀ cycle ≤ horizon,
    (mAxisTvalid (stateAt input cycle) && (input cycle).mAxisTready) =
      transfersAt input cycle := by
  intro cycle hcycle
  cases cycle with
  | zero => rfl
  | succ cycle =>
      rw [stateAt_succ hrun hcycle, transfersAt,
        ← cntrReg_stateAt hrun cycle (by omega)]
      rfl

/-- Register `k` holds the word shifted in `k` before the last, or nothing
yet. -/
theorem rReg_stateAt : ∀ cycle ≤ horizon, ∀ k : Fin 8,
    highCycles (shiftsAt input) cycle ≤ k.val ∧
        (stateAt input cycle).rReg k = 0 ∨
      ∃ earlier < cycle, shiftsAt input earlier = true ∧
        highCycles (shiftsAt input) earlier + k.val + 1 =
          highCycles (shiftsAt input) cycle ∧
        (stateAt input cycle).rReg k = (input earlier).sAxisTdata := by
  apply upTo_induction
  · exact fun k => Or.inl ⟨Nat.zero_le _, rfl⟩
  · intro cycle hcycle ih k
    have hnext : (stateAt input (cycle + 1)).rReg =
        rNext (stateAt input cycle) (input cycle) := by
      rw [stateAt_succ hrun hcycle]
    rw [hnext, highCycles_succ, rNext]
    change _ ∧ (if shiftsAt input cycle = true then _ else _ : Fin 8 → _) k = 0 ∨
      ∃ earlier < cycle + 1, _ ∧ _ ∧
        (if shiftsAt input cycle = true then _ else _ : Fin 8 → _) k = _
    cases hshifts : shiftsAt input cycle with
    | false =>
        simp only [Bool.false_eq_true, if_false, Bool.toNat_false, Nat.add_zero]
        cases ih k with
        | inl hempty => exact Or.inl hempty
        | inr hword =>
            obtain ⟨earlier, hearlier, hword⟩ := hword
            exact Or.inr ⟨earlier, by omega, hword⟩
    | true =>
        simp only [if_true, Bool.toNat_true]
        cases k using Fin.cases with
        | zero => exact Or.inr ⟨cycle, Nat.lt_succ_self cycle, hshifts, rfl, rfl⟩
        | succ k =>
            simp only [Fin.cons_succ, Fin.val_succ]
            cases ih k.castSucc with
            | inl hempty =>
                obtain ⟨hfew, hzero⟩ := hempty
                rw [Fin.val_castSucc] at hfew
                exact Or.inl ⟨by omega, hzero⟩
            | inr hword =>
                obtain ⟨earlier, hearlier, hshifted, hcount, hsame⟩ := hword
                rw [Fin.val_castSucc] at hcount
                exact Or.inr ⟨earlier, by omega, hshifted, by omega, hsame⟩

/-- The register that the count of a shifted word points to holds it. -/
theorem rReg_of_count {cycle earlier : ℕ} (hcycle : cycle ≤ horizon)
    (hshifts : shiftsAt input earlier = true) {k : Fin 8}
    (hcount : highCycles (shiftsAt input) earlier + k.val + 1 =
      highCycles (shiftsAt input) cycle) :
    (stateAt input cycle).rReg k = (input earlier).sAxisTdata := by
  cases rReg_stateAt hrun cycle hcycle k with
  | inl hempty =>
      obtain ⟨hfew, -⟩ := hempty
      omega
  | inr hword =>
      obtain ⟨other, -, hshifted, hcountOther, hsame⟩ := hword
      obtain rfl : other = earlier :=
        eq_of_highCycles_eq hshifted hshifts (by omega)
      exact hsame

omit hrun in
theorem accepted_eq (cycle : ℕ) :
    accepted input cycle =
      picked (validAt input) (fun later => (input later).sAxisTdata) cycle := by
  refine log_eq_picked (fun later _ => ?_) cycle le_rfl
  rw [acceptedWord, sAxisTready, Bool.and_true]
  rfl

theorem transferred_eq :
    transferred input horizon =
      picked (transfersAt input)
        (fun later => mAxisTdata (stateAt input later)) horizon := by
  refine log_eq_picked (fun later hlater => ?_) horizon le_rfl
  rw [← transfersAt_eq hrun later hlater.le]
  rfl

/-- The beats hold the words of their numbers exactly when the registers do
in the cycles in which a beat is transferred. -/
theorem packs_iff :
    Packs input horizon ↔
      ∀ cycle < horizon, transfersAt input cycle = true → ∀ k : Fin 8,
        ∃ later < horizon, validAt input later = true ∧
          highCycles (validAt input) later + k.val =
            8 * highCycles (transfersAt input) cycle + 7 ∧
          (input later).sAxisTdata = (stateAt input cycle).rReg k := by
  have hword : ∀ n k : ℕ, ∀ word, k < 8 →
      ((accepted input horizon)[8 * n + 7 - k]? = some word ↔
        ∃ later < horizon, validAt input later = true ∧
          highCycles (validAt input) later + k = 8 * n + 7 ∧
          (input later).sAxisTdata = word) := by
    intro n k word hk
    rw [accepted_eq, getElem?_picked_iff]
    have hplace : ∀ later,
        highCycles (validAt input) later = 8 * n + 7 - k ↔
          highCycles (validAt input) later + k = 8 * n + 7 := by omega
    simp only [hplace]
  rw [Packs, transferred_eq hrun]
  simp only [getElem?_picked_iff]
  constructor
  · intro hpacks cycle hcycle htransfers k
    obtain ⟨words, hbeat, hwords⟩ := hpacks _ _
      ⟨cycle, hcycle, htransfers, rfl, rfl⟩
    rw [concat_injective hbeat]
    exact (hword _ k _ k.isLt).mp (hwords k)
  · rintro hholds n beat ⟨cycle, hcycle, htransfers, rfl, rfl⟩
    refine ⟨(stateAt input cycle).rReg, rfl, fun k => ?_⟩
    exact (hword _ k _ k.isLt).mpr (hholds cycle hcycle htransfers k)

end Registers

section AnyData

variable {input : ℕ → Input axisTdataWidth} {horizon : ℕ}

theorem transfersAt_withData (data : ℕ → BitVec axisTdataWidth) :
    transfersAt (withData input data) = transfersAt input := by
  funext cycle
  cases cycle with
  | zero => rfl
  | succ cycle => rfl

/-- With any data the beats hold the words of their numbers exactly when the
registers hold the words that are due. -/
theorem forall_packs_iff_fresh (hwidth : 0 < axisTdataWidth)
    (hrun : ∀ cycle < horizon, (input cycle).aresetn = true) :
    (∀ data, Packs (withData input data) horizon) ↔
      ∀ cycle < horizon, transfersAt input cycle = true →
        Fresh input cycle := by
  have hrunData : ∀ data : ℕ → BitVec axisTdataWidth, ∀ cycle < horizon,
      (withData input data cycle).aresetn = true := fun _ => hrun
  simp only [packs_iff (hrunData _), transfersAt_withData]
  constructor
  · intro hholds cycle hcycle htransfers k
    obtain ⟨due, -, hvalid, hnumber, -⟩ :=
      hholds (fun _ => 0) cycle hcycle htransfers k
    -- data that marks the word that is due in register `k`
    let marked : ℕ → BitVec axisTdataWidth := fun later =>
      if later = due then BitVec.allOnes axisTdataWidth else 0
    have hones : BitVec.allOnes axisTdataWidth ≠ 0 := by
      intro hzero
      have hbit := congrArg (BitVec.getLsbD · 0) hzero
      simp [hwidth] at hbit
    obtain ⟨later, -, hvalidLater, hnumberLater, hmark⟩ :=
      hholds marked cycle hcycle htransfers k
    obtain rfl : later = due :=
      eq_of_highCycles_eq hvalidLater hvalid
        (Nat.add_right_cancel (hnumberLater.trans hnumber.symm))
    have hshown : BitVec.allOnes axisTdataWidth =
        (stateAt (withData input marked) cycle).rReg k :=
      (if_pos rfl).symm.trans hmark
    cases rReg_stateAt (hrunData marked) cycle hcycle.le k with
    | inl hempty => exact absurd (hshown.trans hempty.2) hones
    | inr hword =>
        obtain ⟨earlier, hearlier, hshifts, hcount, hsame⟩ := hword
        obtain rfl : earlier = later := by
          by_contra hdifferent
          exact hones ((hshown.trans hsame).trans (if_neg hdifferent))
        exact ⟨earlier, hearlier, hshifts, hcount, hnumber⟩
  · intro hfresh data cycle hcycle htransfers k
    obtain ⟨due, hdue, hshifts, hcount, hnumber⟩ :=
      hfresh cycle hcycle htransfers k
    refine ⟨due, by omega, validAt_of_shiftsAt due hshifts, hnumber, ?_⟩
    exact (rReg_of_count (hrunData data) hcycle.le hshifts hcount).symm

end AnyData

/-- The beats hold the words of their numbers, whatever the words are, exactly
in the runs that are undisturbed before every transferred beat. -/
theorem parallelizer_packs_iff (hwidth : 0 < axisTdataWidth)
    (input : ℕ → Input axisTdataWidth) (horizon : ℕ)
    (hrun : ∀ cycle < horizon, (input cycle).aresetn = true) :
    (∀ data, Packs (withData input data) horizon) ↔
      ∀ cycle < horizon, transfersAt input cycle = true →
        Undisturbed input cycle := by
  rw [forall_packs_iff_fresh hwidth hrun]
  constructor
  · intro hfresh cycle hcycle htransfers
    have haligned := aligned_of_fresh hfresh
    exact undisturbed_of_aligned
      (fun earlier hearlier => haligned earlier (by omega)) htransfers
  · intro hundisturbed cycle hcycle htransfers
    exact (aligned_of_undisturbed (hundisturbed cycle hcycle htransfers)
      htransfers).fresh

/-- Numbered words without a gap, for a consumer that is always ready. -/
def steadyRun (cycle : ℕ) : Input 8 where
  aresetn := true
  sAxisTdata := BitVec.ofNat 8 cycle
  sAxisTvalid := true
  mAxisTready := true

theorem parallelizer_packs_steadyRun : Packs steadyRun 40 := by
  refine (parallelizer_packs_iff (by decide) steadyRun 40 fun _ _ => rfl).mpr ?_
    (BitVec.ofNat 8)
  exact fun _ _ _ => ⟨fun _ _ _ => rfl, fun _ _ _ => rfl, fun _ _ _ => rfl⟩

/-- The eighth word comes one cycle late. -/
def gapRun (cycle : ℕ) : Input 8 :=
  { steadyRun cycle with sAxisTvalid := decide (cycle ≠ 7) }

/-- The first beat leaves with seven words and the reset value of `r7_reg`. -/
theorem parallelizer_not_packs_gapRun :
    (∀ cycle < 9, (gapRun cycle).aresetn = true) ∧
      transferred gapRun 9 = [0x0605040302010000#64] ∧
      ¬ Packs gapRun 9 := by
  refine ⟨fun _ _ => rfl, by decide +kernel, ?_⟩
  intro hpacks
  obtain ⟨words, hbeat, hwords⟩ := hpacks 0 (mAxisTdata (stateAt gapRun 8))
    (by decide +kernel)
  have hlanes : (stateAt gapRun 8).rReg = words := concat_injective hbeat
  have hnewest := hwords 0
  rw [← hlanes] at hnewest
  revert hnewest
  decide +kernel

end Rfsoc.Parallelizer
