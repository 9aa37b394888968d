import Rfsoc.Lago.Grammar

/-!
# PPS records

`pps_i` is high for one cycle a second and `axis_lago_trigger` looks at it in
`ST_IDLE` only.  This file counts the PPS records that have been sent against
the pulses that have come in, at the cycle of a pulse, when every earlier record
has had time to leave.
-/

namespace Rfsoc.LagoTrigger

open Rfsoc.Clocked

/-- Complete PPS records transferred before a cycle: every PPS record has ten
PPS words and no other record has any. -/
def ppsRecordsSent (input : ℕ → Input) (cycle : ℕ) : ℕ :=
  ((transferred input cycle).map tag).count .pps / metadataArrayLength

theorem count_pps_flatMap_tags (kinds : List Kind) :
    (kinds.flatMap Kind.tags).count .pps =
      kinds.count .pps * metadataArrayLength := by
  induction kinds with
  | nil => rfl
  | cons kind kinds ih =>
      rw [List.flatMap_cons, List.count_append, ih, List.count_cons, Nat.add_mul,
        Nat.add_comm]
      cases kind <;> rfl

theorem map_tag_flatMap_words (records : List Record) :
    (records.flatMap Record.words).map tag =
      (records.map Record.kind).flatMap Kind.tags := by
  rw [List.map_flatMap, List.flatMap_map]
  exact congrArg (records.flatMap ·) (funext Record.tagged)

/-- A record that is still being sent is not counted. -/
theorem count_pps_lt {tail : List Word} {kind : Kind}
    (hlength : tail.length < kind.length) (hstart : tail.map tag <+: kind.tags) :
    (tail.map tag).count .pps < metadataArrayLength := by
  cases kind with
  | pps =>
      have hle := List.count_le_length (a := Tag.pps) (l := tail.map tag)
      rw [List.length_map] at hle
      exact hle.trans_lt hlength
  | pulse | subTrigger =>
      have hle := hstart.sublist.count_le Tag.pps
      exact hle.trans_lt (by decide)

/-- The count is the number of PPS records in the parse of the words. -/
theorem ppsRecordsSent_eq {input : ℕ → Input} {cycle : ℕ}
    {records : List Record} {tail : List Word}
    (hwords : transferred input cycle = records.flatMap Record.words ++ tail)
    (htail : (tail.map tag).count .pps < metadataArrayLength) :
    ppsRecordsSent input cycle = (records.map Record.kind).count .pps := by
  rw [ppsRecordsSent, hwords, List.map_append, List.count_append,
    map_tag_flatMap_words, count_pps_flatMap_tags, Nat.mul_comm,
    Nat.mul_add_div (by decide), Nat.div_eq_of_lt htail, Nat.add_zero]

/-- `pps_i` in a cycle. -/
def ppsPulse (input : ℕ → Input) (cycle : ℕ) : Prop :=
  (input cycle).ppsI = true

instance (input : ℕ → Input) : DecidablePred (ppsPulse input) :=
  fun _ => inferInstanceAs (Decidable (_ = true))

/-- A cycle in which the core is in `ST_IDLE`. -/
def idleAt (input : ℕ → Input) (cycle : ℕ) : Prop :=
  (core.stateAt input cycle).stateReg = .stIdle

instance (input : ℕ → Input) : DecidablePred (idleAt input) :=
  fun _ => inferInstanceAs (Decidable (_ = Fsm.stIdle))

theorem opens_eq_pps_iff (s : State) (i : Input) :
    opens s i = some .pps ↔ i.ppsI = true ∧ s.stateReg = .stIdle := by
  by_cases hidle : s.stateReg = .stIdle
  · rw [opens_eq s i hidle]
    split_ifs with hpps htr hsub <;> simp [hpps, hidle]
  · simp [opens, hidle]

/-- The opened PPS records are the pulses that came in `ST_IDLE`. -/
theorem count_pps_opened (input : ℕ → Input) (cycle : ℕ) :
    (opened input cycle).count .pps =
      Nat.count (fun earlier => ppsPulse input earlier ∧ idleAt input earlier)
        cycle := by
  induction cycle with
  | zero => rfl
  | succ cycle ih =>
      rw [opened, Machine.log_succ, ← opened, List.count_append, ih,
        Nat.count_succ]
      congr 1
      have hiff := opens_eq_pps_iff (core.stateAt input cycle) (input cycle)
      by_cases hpps : ppsPulse input cycle ∧ idleAt input cycle
      · rw [if_pos hpps, hiff.mpr hpps]
        rfl
      · rw [if_neg hpps, List.count_eq_zero]
        rwa [Option.mem_toList, hiff]

/-- All cycles with `p` have `q` when counting those with both gives as many. -/
theorem count_and_eq_iff (p q : ℕ → Prop) [DecidablePred p] [DecidablePred q]
    (cycle : ℕ) :
    Nat.count (fun earlier => p earlier ∧ q earlier) cycle = Nat.count p cycle ↔
      ∀ earlier < cycle, p earlier → q earlier := by
  induction cycle with
  | zero => simp
  | succ cycle ih =>
      have hle : Nat.count (fun earlier => p earlier ∧ q earlier) cycle ≤
          Nat.count p cycle :=
        Nat.count_mono_left fun _ _ hboth => hboth.1
      rw [Nat.count_succ, Nat.count_succ, Nat.forall_lt_succ_right, ← ih]
      by_cases hp : p cycle <;> by_cases hq : q cycle <;> simp [hp, hq]
      omega

section Kept

variable {input : ℕ → Input} {horizon : ℕ}

/-- With `m_axis_tready` high the record being sent was opened as many cycles
ago as it has words loaded, and one. -/
theorem opens_of_sending
    (hrun : ∀ cycle < horizon, (input cycle).aresetn = true)
    (hready : ∀ cycle < horizon, (input cycle).mAxisTready = true) :
    ∀ cycle ≤ horizon, ∀ kind n,
      position (core.stateAt input cycle) = some (kind, n) →
        ∃ opening, opening + n + 1 = cycle ∧
          opens (core.stateAt input opening) (input opening) = some kind := by
  refine upTo_induction horizon (by simp [core, position, resetState]) ?_
  intro cycle hcycle ih kind n hpos
  have hcount := countInv_stateAt input cycle
  rw [Machine.stateAt_succ] at hpos
  rcases kind_of_step hpos with hopens | ⟨m, hbefore⟩
  · have hidle := position_eq_none_of_opens hopens
    have hnext := (step_open (hrun cycle hcycle) hcount hidle).1
    rw [hopens] at hnext
    obtain rfl : n = 0 := by
      have heq := hpos.symm.trans hnext
      simpa using heq
    exact ⟨cycle, rfl, hopens⟩
  · rcases (hcount.position_le hbefore).lt_or_eq with hlt | rfl
    · have hnext := (step_load (hrun cycle hcycle) hcount hbefore hlt
        (hready cycle hcycle)).1
      obtain rfl : n = m + 1 := by
        have heq := hpos.symm.trans hnext
        simpa using heq
      obtain ⟨opening, hopening, hopens⟩ := ih kind m hbefore
      exact ⟨opening, by omega, hopens⟩
    · have hnext := (step_close (hrun cycle hcycle) hcount hbefore
        (hready cycle hcycle)).1
      exact absurd (hpos.symm.trans hnext) (by simp)

/-- At a pulse, every PPS record opened before has been sent completely. -/
theorem ppsRecordsSent_eq_opened
    (hrun : ∀ earlier < horizon, (input earlier).aresetn = true)
    (hready : ∀ earlier < horizon, (input earlier).mAxisTready = true)
    (hapart : ∀ early < horizon, ppsPulse input early → early + 64 ≤ horizon) :
    ppsRecordsSent input horizon = (opened input horizon).count .pps := by
  have hledger := ledger_stateAt hrun (fun cycle hcycle _ => hready cycle hcycle)
    horizon le_rfl
  cases hpos : position (core.stateAt input horizon) with
  | none =>
      obtain ⟨records, hwords, hkinds⟩ := parse_of_idle hrun hledger hpos
      rw [hkinds]
      rw [← List.append_nil (records.flatMap Record.words)] at hwords
      exact ppsRecordsSent_eq hwords (by decide)
  | some at_ =>
      obtain ⟨kind, n⟩ := at_
      obtain ⟨records, tail, hwords, hkinds, hlength, hstart⟩ :=
        parse_of_sending hrun hledger hpos
      have hnotPps : kind ≠ .pps := by
        rintro rfl
        obtain ⟨opening, hopening, hopens⟩ :=
          opens_of_sending hrun hready horizon le_rfl _ n hpos
        have hfar := hapart opening (by omega) ((opens_eq_pps_iff _ _).mp hopens).1
        have hbound := (countInv_stateAt input horizon).position_le hpos
        rw [Kind.length_pps] at hbound
        omega
      rw [hkinds, List.count_append,
        ppsRecordsSent_eq hwords (count_pps_lt hlength hstart)]
      simp [hnotPps]

end Kept

/-- At a pulse, as many PPS records have been sent as pulses came before it
exactly when each of those found the core in `ST_IDLE`. -/
theorem lagoTrigger_ppsKept_iff (input : ℕ → Input) (cycle : ℕ)
    (hrun : ∀ earlier < cycle, (input earlier).aresetn = true)
    (hready : ∀ earlier < cycle, (input earlier).mAxisTready = true)
    (hapart : ∀ late ≤ cycle, ∀ early < late,
      (input early).ppsI = true → (input late).ppsI = true → early + 64 ≤ late)
    (hpps : (input cycle).ppsI = true) :
    ppsRecordsSent input cycle = Nat.count (ppsPulse input) cycle ↔
      ∀ earlier < cycle, (input earlier).ppsI = true →
        (core.stateAt input earlier).stateReg = .stIdle := by
  rw [ppsRecordsSent_eq_opened hrun hready fun early hearly hpulse =>
      hapart cycle le_rfl early hearly hpulse hpps,
    count_pps_opened]
  exact count_and_eq_iff (ppsPulse input) (idleAt input) cycle

/-- `busyRun` with a second pulse in cycle 100. -/
def secondPulseRun (cycle : ℕ) : Input :=
  { busyRun cycle with ppsI := cycle == 3 || cycle == 100 }

theorem lagoTrigger_ppsKept_secondPulseRun :
    ppsRecordsSent secondPulseRun 100 = Nat.count (ppsPulse secondPulseRun) 100 :=
  (lagoTrigger_ppsKept_iff secondPulseRun 100 (by decide) (by decide)
    (by decide +kernel) (by decide)).mpr (by decide +kernel)

/-- The first pulse comes in the cycle after the trigger of cycle 29. -/
def latePulseRun (cycle : ℕ) : Input :=
  { busyRun cycle with ppsI := cycle == 30 || cycle == 100 }

/-- No PPS record is sent for the pulse in cycle 30. -/
theorem lagoTrigger_ppsKept_latePulseRun :
    (latePulseRun 100).ppsI = true ∧
      Nat.count (ppsPulse latePulseRun) 100 = 1 ∧
      ppsRecordsSent latePulseRun 100 = 0 := by
  refine ⟨by decide, by decide +kernel, by decide +kernel⟩

end Rfsoc.LagoTrigger
