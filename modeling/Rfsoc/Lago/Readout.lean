import Rfsoc.Core.Bits
import Rfsoc.Lago.Grammar
import Mathlib.Tactic.Ring

/-!
# Reading a record out

With `m_axis_tready` high a record opened in cycle `t` loads its word `n` in
cycle `t + 1 + n`, so every word is what the registers hold in that cycle, not
in cycle `t`.  Later triggers overwrite the status and counter registers, and
later sub-triggers the scaler registers, while a record is being read from
them.  This file settles exactly when the words are still those of cycle `t`.
-/

namespace Rfsoc.LagoTrigger

open Rfsoc.Bits
open Rfsoc.Clocked

/-- The words transferred from the cycle that opens a record to the cycle that
is idle again. -/
def readout (input : ℕ → Input) (cycle : ℕ) (kind : Kind) : List Word :=
  (transferred input (cycle + kind.length + 2)).drop
    (transferred input cycle).length

theorem counterWord_injective : Function.Injective counterWord :=
  fun _ _ heq => (append_inj heq).2

theorem flagWord_eq_iff {flag2 flag1 flag2' flag1' : Bool}
    {clkCnt clkCnt' : BitVec 27} :
    flagWord flag2 flag1 clkCnt = flagWord flag2' flag1' clkCnt' ↔
      flag2 = flag2' ∧ flag1 = flag1' ∧ clkCnt = clkCnt' := by
  constructor
  · intro heq
    obtain ⟨hflags, hclk⟩ := append_inj heq
    obtain ⟨hhigh, hlow⟩ := append_inj hflags
    exact ⟨BitVec.ofBool_eq_iff_eq.mp (append_inj hhigh).2,
      BitVec.ofBool_eq_iff_eq.mp hlow, hclk⟩
  · rintro ⟨rfl, rfl, rfl⟩
    rfl

section Readout

variable {input : ℕ → Input} {cycle : ℕ} {kind : Kind}

/-- A run in which the core is out of reset and `m_axis_tready` is high. -/
structure Flowing (input : ℕ → Input) (horizon : ℕ) : Prop where
  run : ∀ cycle < horizon, (input cycle).aresetn = true
  ready : ∀ cycle < horizon, (input cycle).mAxisTready = true

/-- Out of reset the edge loads every register with its next value. -/
theorem stateAt_succ_of_run (hrun : (input cycle).aresetn = true) :
    core.stateAt input (cycle + 1) =
      { toFsmRegs := fsmNext (core.stateAt input cycle) (input cycle)
        arrayPpsReg := arrayPpsNext (core.stateAt input cycle) (input cycle)
        adcDatAReg := adcDatANext (core.stateAt input cycle) (input cycle)
        adcDatBReg := adcDatBNext (core.stateAt input cycle) (input cycle)
        trStatusReg := trStatusNext (core.stateAt input cycle) (input cycle)
        cntStatusReg := cntStatusNext (core.stateAt input cycle) (input cycle)
        trigCntReg := trigCntNext (core.stateAt input cycle) (input cycle)
        charge1Reg := chargeNext (core.stateAt input cycle).charge1Reg
        charge2Reg := chargeNext (core.stateAt input cycle).charge2Reg
        arrayScalersReg :=
          arrayScalersNext (core.stateAt input cycle) (input cycle) } :=
  if_pos hrun

theorem Flowing.ledger {horizon : ℕ} (hflow : Flowing input horizon) :
    ∀ cycle ≤ horizon,
      Ledger (opened input cycle) (loaded input cycle)
        (transferred input cycle) (core.stateAt input cycle) :=
  ledger_stateAt hflow.run fun cycle hcycle _ => hflow.ready cycle hcycle

/-- A record opened in a cycle stands at word `n` after `n + 1` cycles. -/
theorem position_readout (hflow : Flowing input (cycle + kind.length + 2))
    (hopens : opens (core.stateAt input cycle) (input cycle) = some kind) :
    ∀ n ≤ kind.length,
      position (core.stateAt input (cycle + 1 + n)) = some (kind, n) := by
  have hidle := position_eq_none_of_opens hopens
  refine upTo_induction kind.length ?_ ?_
  · have hnext := (step_open (hflow.run cycle (by omega))
      (countInv_stateAt input cycle) hidle).1
    rw [hopens] at hnext
    exact hnext
  · intro n hn ih
    exact (step_load (hflow.run (cycle + 1 + n) (by omega))
      (countInv_stateAt input _) ih hn
      (hflow.ready (cycle + 1 + n) (by omega))).1

/-- Word `n` of the record is what the registers hold `n + 1` cycles later. -/
theorem readout_eq (hflow : Flowing input (cycle + kind.length + 2))
    (hopens : opens (core.stateAt input cycle) (input cycle) = some kind) :
    readout input cycle kind =
      (List.range kind.length).map fun n =>
        recordWord kind (core.stateAt input (cycle + 1 + n)) n := by
  have hidle := position_eq_none_of_opens hopens
  have hpos := position_readout hflow hopens
  have hquiet := ((hflow.ledger cycle (by omega)).idle hidle).1
  have hwords : ∀ n ≤ kind.length,
      transferred input (cycle + 1 + n) ++
          offered (core.stateAt input (cycle + 1 + n)) =
        transferred input cycle ++ (List.range n).map fun m =>
          recordWord kind (core.stateAt input (cycle + 1 + m)) m := by
    refine upTo_induction kind.length ?_ ?_
    · have hstill := (step_open (hflow.run cycle (by omega))
        (countInv_stateAt input cycle) hidle).2.trans hquiet
      have hnone : offered (core.stateAt input (cycle + 1)) = [] :=
        offered_of_not_valid hstill
      rw [Nat.add_zero, hnone, transferred, Machine.log_succ,
        transfer_of_ready (hflow.ready cycle (by omega)),
        offered_of_not_valid hquiet]
      simp
    · intro n hn ih
      obtain ⟨-, hoffer, hdata⟩ := step_load
        (hflow.run (cycle + 1 + n) (by omega)) (countInv_stateAt input _)
        (hpos n hn.le) hn (hflow.ready (cycle + 1 + n) (by omega))
      have hlast : offered (core.stateAt input (cycle + 1 + (n + 1))) =
          [recordWord kind (core.stateAt input (cycle + 1 + n)) n] := by
        rw [← hdata]
        exact offered_of_valid hoffer
      rw [hlast, ← Nat.add_assoc, transferred, Machine.log_succ, ← transferred,
        transfer_of_ready (hflow.ready _ (by omega)), ih, List.append_assoc,
        List.range_succ, List.map_append]
      rfl
  have hclose : transferred input (cycle + kind.length + 2) =
      transferred input (cycle + 1 + kind.length) ++
        offered (core.stateAt input (cycle + 1 + kind.length)) := by
    rw [show cycle + kind.length + 2 = cycle + 1 + kind.length + 1 by omega,
      transferred, Machine.log_succ,
      transfer_of_ready (hflow.ready _ (by omega))]
  rw [readout, hclose, hwords kind.length le_rfl, List.drop_left]

end Readout

section Pulse

variable {input : ℕ → Input} {cycle : ℕ}

/-- `tr_s` in a cycle. -/
def triggered (input : ℕ → Input) (cycle : ℕ) : Prop :=
  trS (core.stateAt input cycle) (input cycle) = true

instance (input : ℕ → Input) : DecidablePred (triggered input) :=
  fun _ => inferInstanceAs (Decidable (_ = true))

/-- `trig_cnt_reg` adds one for each trigger. -/
theorem trigCntReg_enabled (horizon : ℕ)
    (hrun : ∀ cycle < horizon, (input cycle).aresetn = true) :
    Enabled (fun cycle => (core.stateAt input cycle).trigCntReg)
      (triggered input)
      (fun cycle => (core.stateAt input cycle).trigCntReg + 1) horizon :=
  .of_next fun cycle hcycle => by
    rw [stateAt_succ_of_run (hrun cycle hcycle)]
    rfl

/-- `cnt_status_reg` keeps the count of the latest trigger. -/
theorem cntStatusReg_enabled (horizon : ℕ)
    (hrun : ∀ cycle < horizon, (input cycle).aresetn = true) :
    Enabled (fun cycle => (core.stateAt input cycle).cntStatusReg)
      (triggered input)
      (fun cycle => counterWord
        ((core.stateAt input cycle).trigCntReg.extractLsb' 0 30)) horizon :=
  .of_next fun cycle hcycle => by
    rw [stateAt_succ_of_run (hrun cycle hcycle)]
    rfl

/-- `tr_status_reg` keeps the flags and time of the latest trigger. -/
theorem trStatusReg_enabled (horizon : ℕ)
    (hrun : ∀ cycle < horizon, (input cycle).aresetn = true) :
    Enabled (fun cycle => (core.stateAt input cycle).trStatusReg)
      (triggered input)
      (fun cycle => flagWord (tr2S (core.stateAt input cycle) (input cycle))
        (tr1S (core.stateAt input cycle) (input cycle))
        (input cycle).clkCntPpsI) horizon :=
  .of_next fun cycle hcycle => by
    rw [stateAt_succ_of_run (hrun cycle hcycle)]
    rfl

/-- The trigger counter counts the cycles with a trigger. -/
theorem trigCntReg_eq (horizon : ℕ)
    (hrun : ∀ cycle < horizon, (input cycle).aresetn = true) :
    ∀ cycle ≤ horizon, (core.stateAt input cycle).trigCntReg =
      BitVec.ofNat 32 (Nat.count (triggered input) cycle) := by
  have hregister := trigCntReg_enabled horizon hrun
  refine upTo_induction horizon rfl ?_
  intro cycle hcycle ih
  rw [Nat.count_succ]
  by_cases htr : triggered input cycle
  · calc (core.stateAt input (cycle + 1)).trigCntReg
        = (core.stateAt input cycle).trigCntReg + 1 :=
          hregister.load cycle hcycle htr
      _ = BitVec.ofNat 32 (Nat.count (triggered input) cycle) + 1 := by rw [ih]
      _ = _ := by rw [if_pos htr, BitVec.ofNat_add]; rfl
  · calc (core.stateAt input (cycle + 1)).trigCntReg
        = (core.stateAt input cycle).trigCntReg :=
          hregister.hold cycle hcycle htr
      _ = _ := by rw [ih, if_neg htr, Nat.add_zero]

/-- The counter register holds the number of triggers before the last one. -/
theorem cntStatusReg_eq (horizon : ℕ)
    (hrun : ∀ cycle < horizon, (input cycle).aresetn = true) :
    ∀ cycle ≤ horizon, ∀ before,
      Nat.count (triggered input) cycle = before + 1 →
        (core.stateAt input cycle).cntStatusReg =
          counterWord (BitVec.ofNat 30 before) := by
  have hregister := cntStatusReg_enabled horizon hrun
  refine upTo_induction horizon (fun before h => by simp at h) ?_
  intro cycle hcycle ih before hcount
  rw [Nat.count_succ] at hcount
  by_cases htr : triggered input cycle
  · rw [if_pos htr] at hcount
    obtain rfl : Nat.count (triggered input) cycle = before := by omega
    rw [hregister.load cycle hcycle htr,
      trigCntReg_eq horizon hrun cycle hcycle.le]
    congr 1
    apply BitVec.eq_of_toNat_eq
    simp [Nat.mod_mod_of_dvd]
  · rw [if_neg htr] at hcount
    rw [hregister.hold cycle hcycle htr]
    exact ih before (by omega)

/-- The last two words of the pulse record opened in a cycle: the flags and
time of the trigger that opened it, and the number of triggers before it. -/
structure OwnStatus (input : ℕ → Input) (cycle : ℕ) : Prop where
  status : (readout input cycle .pulse)[12]? =
    some (flagWord (tr2S (core.stateAt input cycle) (input cycle))
      (tr1S (core.stateAt input cycle) (input cycle)) (input cycle).clkCntPpsI)
  counter : (readout input cycle .pulse)[13]? =
    some (counterWord
      (BitVec.ofNat 30 (Nat.count (triggered input) cycle)))

/-- The last two words are read twelve and thirteen cycles after the first. -/
theorem readout_pulse_tail (hflow : Flowing input (cycle + 16))
    (hopens : opens (core.stateAt input cycle) (input cycle) = some .pulse) :
    (readout input cycle .pulse)[12]? =
        some (core.stateAt input (cycle + 13)).trStatusReg ∧
      (readout input cycle .pulse)[13]? =
        some (core.stateAt input (cycle + 14)).cntStatusReg := by
  have hwords := readout_eq hflow hopens
  constructor <;> simp [hwords, recordWord, dataArrayLength]

/-- Triggers in the thirteen cycles after a cycle. -/
def laterTriggers (input : ℕ → Input) (cycle : ℕ) : ℕ :=
  Nat.count (fun later => triggered input (cycle + 1 + later)) 13

theorem laterTriggers_eq_zero_iff (input : ℕ → Input) (cycle : ℕ) :
    laterTriggers input cycle = 0 ↔
      ∀ later ≤ cycle + 13, cycle < later → ¬ triggered input later := by
  rw [laterTriggers, Nat.count_iff_forall_not]
  constructor
  · intro hnone later hhigh hlow
    have hquiet := hnone (later - (cycle + 1)) (by omega)
    rwa [show cycle + 1 + (later - (cycle + 1)) = later by omega] at hquiet
  · intro hquiet later hlater
    exact hquiet (cycle + 1 + later) (by omega) (by omega)

/-- The counter register when it is read: the later triggers are counted in. -/
theorem cntStatusReg_readout
    (hrun : ∀ earlier < cycle + 14, (input earlier).aresetn = true)
    (htr : triggered input cycle) :
    (core.stateAt input (cycle + 14)).cntStatusReg =
      counterWord (BitVec.ofNat 30
        (Nat.count (triggered input) cycle + laterTriggers input cycle)) := by
  apply cntStatusReg_eq (cycle + 14) hrun (cycle + 14) le_rfl
  calc Nat.count (triggered input) (cycle + 14)
      = Nat.count (triggered input) (cycle + 1) + laterTriggers input cycle :=
        Nat.count_add (triggered input) (cycle + 1) 13
    _ = Nat.count (triggered input) cycle + 1 + laterTriggers input cycle := by
        rw [Nat.count_succ, if_pos htr]
    _ = Nat.count (triggered input) cycle + laterTriggers input cycle + 1 := by
        ring

/-- The status and counter words are the opening trigger's own exactly when no
trigger is detected in the thirteen cycles after it. -/
theorem lagoTrigger_ownStatus_iff (input : ℕ → Input) (cycle : ℕ)
    (hrun : ∀ earlier < cycle + 16, (input earlier).aresetn = true)
    (hready : ∀ earlier < cycle + 16, (input earlier).mAxisTready = true)
    (hidle : (core.stateAt input cycle).stateReg = .stIdle)
    (htr : trS (core.stateAt input cycle) (input cycle) = true)
    (hpps : (input cycle).ppsI = false) :
    OwnStatus input cycle ↔
      ∀ later ≤ cycle + 13, cycle < later →
        trS (core.stateAt input later) (input later) = false := by
  have hopens : opens (core.stateAt input cycle) (input cycle) = some .pulse := by
    simp [opens_eq _ _ hidle, hpps, htr]
  obtain ⟨hstatus, hcounter⟩ := readout_pulse_tail ⟨hrun, hready⟩ hopens
  have hregister := cntStatusReg_readout
    (fun earlier h => hrun earlier (by omega)) htr
  have hquiet_iff : laterTriggers input cycle = 0 ↔
      ∀ later ≤ cycle + 13, cycle < later →
        trS (core.stateAt input later) (input later) = false := by
    simpa [triggered] using laterTriggers_eq_zero_iff input cycle
  rw [← hquiet_iff]
  constructor
  · rintro ⟨-, hown⟩
    -- at most thirteen more triggers cannot wrap the thirty-bit count
    have hfew : laterTriggers input cycle ≤ 13 := Nat.count_le _
    rw [hcounter, Option.some.injEq, hregister] at hown
    have hnat := congrArg BitVec.toNat (counterWord_injective hown)
    rw [BitVec.toNat_ofNat, BitVec.toNat_ofNat] at hnat
    omega
  · intro hnone
    have hlast := (laterTriggers_eq_zero_iff input cycle).mp hnone
    have hflags := trStatusReg_enabled (cycle + 13)
      fun earlier h => hrun earlier (by omega)
    refine ⟨?_, ?_⟩
    · rw [hstatus, hflags.eq_of_latest (by omega) le_rfl htr]
      exact fun between hlow hhigh => hlast between (by omega) hlow
    · rw [hcounter, hregister, hnone, Nat.add_zero]

/-- The step of `busyRun` triggers once. -/
theorem lagoTrigger_ownStatus_busyRun : OwnStatus busyRun 29 :=
  (lagoTrigger_ownStatus_iff busyRun 29 (by decide) (by decide)
    (by decide +kernel) (by decide +kernel) (by decide)).mpr
    (by decide +kernel)

/-- Channel A is high in cycles 20 and 21 and again from cycle 24 on. -/
def doublePulseRun (cycle : ℕ) : Input :=
  { busyRun cycle with
    sAxisTdata :=
      if 20 ≤ cycle ∧ cycle ≠ 22 ∧ cycle ≠ 23 then 0x00000100#32 else 0 }

/-- The second pulse triggers in cycle 33 and overwrites the status and counter
of the record opened in cycle 29. -/
theorem lagoTrigger_ownStatus_doublePulseRun :
    (core.stateAt doublePulseRun 29).stateReg = .stIdle ∧
      trS (core.stateAt doublePulseRun 29) (doublePulseRun 29) = true ∧
      (doublePulseRun 29).ppsI = false ∧ ¬ OwnStatus doublePulseRun 29 := by
  refine ⟨by decide +kernel, by decide +kernel, by decide, ?_⟩
  intro hown
  exact absurd hown.counter (by decide +kernel)

end Pulse

section SubTrigger

variable {input : ℕ → Input} {cycle : ℕ}

/-- `subtr_s` in a cycle. -/
def subTriggered (input : ℕ → Input) (cycle : ℕ) : Prop :=
  subtrS (core.stateAt input cycle) (input cycle) = true

instance (input : ℕ → Input) : DecidablePred (subTriggered input) :=
  fun _ => inferInstanceAs (Decidable (_ = true))

/-- `array_scalers_reg` keeps the three words of the latest sub-trigger. -/
theorem arrayScalersReg_enabled (horizon : ℕ)
    (hrun : ∀ cycle < horizon, (input cycle).aresetn = true) :
    Enabled (fun cycle => (core.stateAt input cycle).arrayScalersReg)
      (subTriggered input)
      (fun cycle => scalerWord (core.stateAt input cycle) (input cycle))
      horizon :=
  .of_next fun cycle hcycle => by
    rw [stateAt_succ_of_run (hrun cycle hcycle)]
    funext k
    exact (ite_apply ..).symm

/-- The charge registers move in every cycle, so no two consecutive cycles
compute the same charge word. -/
theorem scalerWord_one_ne (hrun : (input cycle).aresetn = true) :
    scalerWord (core.stateAt input (cycle + 1)) (input (cycle + 1)) 1 ≠
      scalerWord (core.stateAt input cycle) (input cycle) 1 := by
  intro heq
  have hcharge : chargeNext (core.stateAt input cycle).charge2Reg =
      (core.stateAt input cycle).charge2Reg := by
    have hlow := (append_inj heq).2
    rwa [stateAt_succ_of_run hrun] at hlow
  have hnat := congrArg BitVec.toNat hcharge
  simp [chargeNext] at hnat
  omega

/-- The three words of the sub-trigger record opened in a cycle are the ones
computed in that cycle. -/
def Untorn (input : ℕ → Input) (cycle : ℕ) : Prop :=
  readout input cycle .subTrigger =
    List.ofFn (scalerWord (core.stateAt input cycle) (input cycle))

/-- The record is its own sub-trigger's exactly when the next cycle has no
sub-trigger and the one after has none or one with the same flags and time. -/
theorem lagoTrigger_untorn_iff (input : ℕ → Input) (cycle : ℕ)
    (hrun : ∀ earlier < cycle + 5, (input earlier).aresetn = true)
    (hready : ∀ earlier < cycle + 5, (input earlier).mAxisTready = true)
    (hidle : (core.stateAt input cycle).stateReg = .stIdle)
    (hsub : subtrS (core.stateAt input cycle) (input cycle) = true)
    (htr : trS (core.stateAt input cycle) (input cycle) = false)
    (hpps : (input cycle).ppsI = false) :
    Untorn input cycle ↔
      subtrS (core.stateAt input (cycle + 1)) (input (cycle + 1)) = false ∧
        (subtrS (core.stateAt input (cycle + 2)) (input (cycle + 2)) = true →
          subtr2S (core.stateAt input (cycle + 2)) (input (cycle + 2)) =
              subtr2S (core.stateAt input cycle) (input cycle) ∧
            subtr1S (core.stateAt input (cycle + 2)) (input (cycle + 2)) =
              subtr1S (core.stateAt input cycle) (input cycle) ∧
            (input (cycle + 2)).clkCntPpsI = (input cycle).clkCntPpsI) := by
  have hopens : opens (core.stateAt input cycle) (input cycle) =
      some .subTrigger := by
    simp [opens_eq _ _ hidle, hpps, htr, hsub]
  have hflow : Flowing input (cycle + Kind.subTrigger.length + 2) :=
    ⟨hrun, hready⟩
  have hwords := readout_eq hflow hopens
  have hregister := arrayScalersReg_enabled (cycle + 5) hrun
  have hfirst := hregister.load cycle (by omega) hsub
  have hparts : Untorn input cycle ↔
      (core.stateAt input (cycle + 2)).arrayScalersReg 1 =
          scalerWord (core.stateAt input cycle) (input cycle) 1 ∧
        (core.stateAt input (cycle + 3)).arrayScalersReg 2 =
          scalerWord (core.stateAt input cycle) (input cycle) 2 := by
    simp [Untorn, hwords, recordWord, arrayScalersAt, List.range_succ, hfirst]
    exact fun _ => Iff.rfl
  rw [hparts]
  by_cases hnext : subTriggered input (cycle + 1)
  · have htorn := scalerWord_one_ne (hrun cycle (by omega))
    rw [hregister.load (cycle + 1) (by omega) hnext]
    simp [htorn, show subtrS _ _ = true from hnext]
  · have hkept := (hregister.hold (cycle + 1) (by omega) hnext).trans hfirst
    have hquiet : subtrS (core.stateAt input (cycle + 1)) (input (cycle + 1)) =
        false := by
      simpa [subTriggered] using hnext
    rw [hkept]
    by_cases hlast : subTriggered input (cycle + 2)
    · rw [hregister.load (cycle + 2) (by omega) hlast]
      simp [hquiet, show subtrS _ _ = true from hlast, scalerWord,
        flagWord_eq_iff]
    · rw [hregister.hold (cycle + 2) (by omega) hlast, hkept]
      have hnone : subtrS (core.stateAt input (cycle + 2)) (input (cycle + 2)) =
          false := by
        simpa [subTriggered] using hlast
      simp [hquiet, hnone]

/-- A peak on channel A in cycle 20 that reaches only the sub-trigger level. -/
def peakRun (cycle : ℕ) : Input :=
  { busyRun cycle with
    subtrigLvlI := 0x00320032#32
    sAxisTdata := if cycle = 20 then 0x0000003C#32 else 0 }

theorem lagoTrigger_untorn_peakRun : Untorn peakRun 30 :=
  (lagoTrigger_untorn_iff peakRun 30 (by decide) (by decide)
    (by decide +kernel) (by decide +kernel) (by decide +kernel) (by decide)).mpr
    (by decide +kernel)

/-- The same peak followed by one on channel B a cycle later. -/
def twinPeakRun (cycle : ℕ) : Input :=
  { peakRun cycle with
    sAxisTdata :=
      if cycle = 20 then 0x0000003C#32
      else if cycle = 21 then 0x003C0000#32
      else 0 }

/-- The record opened in cycle 30 has the maxima of the peak on channel A and
the charges, flags and time of the one on channel B. -/
theorem lagoTrigger_untorn_twinPeakRun :
    (core.stateAt twinPeakRun 30).stateReg = .stIdle ∧
      subtrS (core.stateAt twinPeakRun 30) (twinPeakRun 30) = true ∧
      trS (core.stateAt twinPeakRun 30) (twinPeakRun 30) = false ∧
      (twinPeakRun 30).ppsI = false ∧ ¬ Untorn twinPeakRun 30 := by
  refine ⟨by decide +kernel, by decide +kernel, by decide +kernel, by decide, ?_⟩
  rw [Untorn]
  decide +kernel

end SubTrigger

end Rfsoc.LagoTrigger
