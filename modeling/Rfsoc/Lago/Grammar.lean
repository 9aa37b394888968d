import Rfsoc.Lago.Backpressure
import Mathlib.Tactic.IntervalCases

/-!
# The output grammar

With `m_axis_tready` always high the transferred words are complete records
and at most one record that is still being sent.  The tags come from the
registers: a record is only opened in the cycle that loads the registers it
will be read from, and every later load of them has the same tags.
-/

namespace Rfsoc.LagoTrigger

open Rfsoc.Clocked

/-- The registers that a record of this kind is read from hold words with the
record's tags. -/
def Tagged : Kind → State → Prop
  | .pps, s => ∀ k, tag (s.arrayPpsReg k) = .pps
  | .pulse, s => tag s.trStatusReg = .status ∧ tag s.cntStatusReg = .counter
  | .subTrigger, s =>
      ∀ k, tag (s.arrayScalersReg k) = if k = 2 then .status else .sample

theorem Tagged.recordWord {kind : Kind} {s : State} (htagged : Tagged kind s)
    {n : ℕ} (hn : n < kind.length) :
    kind.tags[n]? = some (tag (recordWord kind s n)) := by
  cases kind with
  | pps =>
      simp only [Kind.length_pps] at hn
      have htag := htagged ⟨n, hn⟩
      simp [LagoTrigger.recordWord, arrayPpsAt, hn, htag, Kind.tags]
  | pulse =>
      simp only [Kind.length_pulse] at hn
      rcases Nat.lt_trichotomy n 12 with hlt | rfl | hgt
      · simp [LagoTrigger.recordWord, hlt, sampleWord, tag_pairWord, Kind.tags,
          List.getElem?_append]
      · simp [LagoTrigger.recordWord, htagged.1, Kind.tags]
      · obtain rfl : n = 13 := by omega
        simp [LagoTrigger.recordWord, htagged.2, Kind.tags, dataArrayLength]
  | subTrigger =>
      simp only [Kind.length_subTrigger] at hn
      have htag := htagged ⟨n, hn⟩
      simp only [LagoTrigger.recordWord, arrayScalersAt, hn, dif_pos, htag]
      interval_cases n <;> rfl

/-- Opening a record loads its registers. -/
theorem tagged_of_opens {kind : Kind} {s : State} {i : Input}
    (hrun : i.aresetn = true) (hopens : opens s i = some kind) :
    Tagged kind (step s i) := by
  have hidle : s.stateReg = .stIdle := by
    by_contra hbusy
    simp [opens, hbusy] at hopens
  rw [opens_eq s i hidle] at hopens
  rw [step, if_pos hrun]
  cases hpps : i.ppsI with
  | true =>
      obtain rfl : Kind.pps = kind := by simpa [hpps] using hopens
      intro k
      simp [arrayPpsNext, hpps, tag_ppsWord]
  | false =>
      cases htr : trS s i with
      | true =>
          obtain rfl : Kind.pulse = kind := by simpa [hpps, htr] using hopens
          simp [Tagged, trStatusNext, cntStatusNext, htr, tag_flagWord,
            tag_counterWord]
      | false =>
          obtain ⟨hsub, rfl⟩ : subtrS s i = true ∧ Kind.subTrigger = kind := by
            simpa [hpps, htr] using hopens
          intro k
          simp [arrayScalersNext, hsub, tag_scalerWord]

/-- Reloading the registers keeps their tags. -/
theorem Tagged.step {kind : Kind} {s : State} {i : Input}
    (htagged : Tagged kind s) (hrun : i.aresetn = true) :
    Tagged kind (step s i) := by
  rw [LagoTrigger.step, if_pos hrun]
  cases kind with
  | pps =>
      intro k
      simp only [arrayPpsNext]
      split
      · exact tag_ppsWord i k
      · exact htagged k
  | pulse =>
      simp only [Tagged, trStatusNext, cntStatusNext]
      split
      · exact ⟨tag_flagWord _ _ _, tag_counterWord _⟩
      · exact htagged
  | subTrigger =>
      intro k
      simp only [arrayScalersNext]
      split
      · exact tag_scalerWord s i k
      · exact htagged k

/-- An edge never changes the kind of the record being sent. -/
theorem kind_of_step {kind : Kind} {m : ℕ} {s : State} {i : Input}
    (hpos : position (step s i) = some (kind, m)) :
    opens s i = some kind ∨ ∃ n, position s = some (kind, n) := by
  cases hrun : i.aresetn with
  | false => simp [step, hrun, position, resetState] at hpos
  | true =>
      rw [step, if_pos hrun] at hpos
      cases hstate : s.stateReg with
      | stIdle =>
          left
          rw [opens_eq s i hstate]
          cases hpps : i.ppsI <;> cases htr : trS s i <;>
            cases hsub : subtrS s i <;>
            simp_all [fsmNext, position]
      | stAttTr | stSendTrStatus | stSendCntStatus | stAttSubtr | stAttPps =>
          right
          simp only [fsmNext, hstate] at hpos
          split_ifs at hpos <;> simp_all [position]

theorem tagged_stateAt {input : ℕ → Input} {horizon : ℕ}
    (hrun : ∀ cycle < horizon, (input cycle).aresetn = true) :
    ∀ cycle ≤ horizon, ∀ kind n,
      position (core.stateAt input cycle) = some (kind, n) →
        Tagged kind (core.stateAt input cycle) := by
  refine upTo_induction horizon (by simp [core, position, resetState]) ?_
  intro cycle hcycle ih kind n hpos
  rw [Machine.stateAt_succ] at hpos ⊢
  rcases kind_of_step hpos with hopens | ⟨m, hbefore⟩
  · exact tagged_of_opens (hrun cycle hcycle) hopens
  · exact (ih kind m hbefore).step (hrun cycle hcycle)

theorem tag_of_mem_loaded {input : ℕ → Input} {horizon : ℕ}
    (hrun : ∀ cycle < horizon, (input cycle).aresetn = true)
    {load : Load} (hmem : load ∈ loaded input horizon) :
    load.kind.tags[load.index]? = some (tag load.word) := by
  obtain ⟨cycle, hcycle, hload⟩ :=
    (Machine.mem_log_iff loads horizon load).mp hmem
  cases hpos : position (core.stateAt input cycle) with
  | none => simp [loads, hpos] at hload
  | some at_ =>
      obtain ⟨kind, n⟩ := at_
      simp only [loads, hpos] at hload
      split at hload
      case isFalse => simp at hload
      case isTrue hguard =>
        obtain rfl := List.mem_singleton.mp hload
        exact (tagged_stateAt hrun cycle hcycle.le kind n hpos).recordWord
          hguard.1

/-- Words loaded as the first `n` words of a record have its first `n` tags. -/
theorem map_tag_eq_take {loadings : List Load} {kind : Kind} {n : ℕ}
    (htags : ∀ load ∈ loadings,
      load.kind.tags[load.index]? = some (tag load.word))
    (hslots : loadings.map Load.slot =
      (List.range n).map fun index => (kind, index)) :
    (loadings.map Load.word).map tag = kind.tags.take n := by
  have hlength : loadings.length = n := by
    simpa using congrArg List.length hslots
  apply List.ext_getElem?
  intro index
  rw [List.map_map, List.getElem?_map, List.getElem?_take]
  by_cases hindex : index < n
  · have hlt : index < loadings.length := by omega
    have hslot := List.getElem_of_eq hslots (i := index) (by simpa using hlt)
    simp only [List.getElem_map, List.getElem_range, Load.slot,
      Prod.mk.injEq] at hslot
    have htag := htags loadings[index] (List.getElem_mem hlt)
    rw [hslot.1, hslot.2] at htag
    rw [if_pos hindex, htag, List.getElem?_eq_getElem hlt]
    rfl
  · rw [if_neg hindex, List.getElem?_eq_none (by omega)]
    rfl

/-- Loads that cover the words of some records, and then some more, are those
records and then some more loads. -/
theorem exists_records (openings : List Kind) :
    ∀ (loadings : List Load) (rest : List (Kind × ℕ)),
      (∀ load ∈ loadings,
        load.kind.tags[load.index]? = some (tag load.word)) →
      loadings.map Load.slot = openings.flatMap Kind.slots ++ rest →
      ∃ (records : List Record) (tail : List Load),
        loadings.map Load.word =
            records.flatMap Record.words ++ tail.map Load.word ∧
          records.map Record.kind = openings ∧
          tail.map Load.slot = rest ∧ ∀ load ∈ tail, load ∈ loadings := by
  induction openings with
  | nil =>
      intro loadings rest _ hslots
      exact ⟨[], loadings, by simp, rfl, by simpa using hslots, fun _ h => h⟩
  | cons kind openings ih =>
      intro loadings rest htags hslots
      rw [List.flatMap_cons, List.append_assoc] at hslots
      obtain ⟨first, others, rfl, hfirst, hothers⟩ :=
        List.map_eq_append_iff.mp hslots
      have hwords : (first.map Load.word).map tag = kind.tags := by
        rw [map_tag_eq_take (fun load hmem => htags load (by simp [hmem])) hfirst]
        exact List.take_length
      obtain ⟨records, tail, hsplit, hkinds, htail, hmem⟩ := ih others rest
        (fun load h => htags load (by simp [h])) hothers
      refine ⟨⟨kind, first.map Load.word, hwords⟩ :: records, tail, ?_, ?_,
        htail, fun load h => by simp [hmem load h]⟩
      · rw [List.map_append, hsplit, List.flatMap_cons, List.append_assoc]
      · rw [List.map_cons, hkinds]

/-- The output grammar at a horizon: the transferred words are complete records
and the start of at most one more, of the kinds that were opened; idle opens
PPS before pulse before sub-trigger; no other records have the same words. -/
structure OutputGrammar (input : ℕ → Input) (horizon : ℕ) : Prop where
  parse : ∃ (records : List Record) (tail : List Word),
    transferred input horizon = records.flatMap Record.words ++ tail ∧
      (opened input horizon = records.map Record.kind ∧ tail = [] ∨
        ∃ kind, opened input horizon = records.map Record.kind ++ [kind] ∧
          tail.length < kind.length ∧ tail.map tag <+: kind.tags)
  opening : ∀ cycle < horizon,
    (core.stateAt input cycle).stateReg = .stIdle →
      (core.stateAt input (cycle + 1)).stateReg =
        if (input cycle).ppsI then .stAttPps
        else if trS (core.stateAt input cycle) (input cycle) then .stAttTr
        else if subtrS (core.stateAt input cycle) (input cycle) then .stAttSubtr
        else .stIdle
  unique : ∀ left right : List Record,
    left.flatMap Record.words = right.flatMap Record.words → left = right

theorem stateReg_of_idle {s : State} {i : Input} (hrun : i.aresetn = true)
    (hidle : s.stateReg = .stIdle) :
    (step s i).stateReg =
      if i.ppsI then .stAttPps
      else if trS s i then .stAttTr
      else if subtrS s i then .stAttSubtr
      else .stIdle := by
  rw [step, if_pos hrun]
  cases hpps : i.ppsI <;> cases htr : trS s i <;> cases hsub : subtrS s i <;>
    simp [fsmNext, hidle, hpps, htr, hsub]

section Parse

variable {input : ℕ → Input} {horizon : ℕ}
  (hrun : ∀ cycle < horizon, (input cycle).aresetn = true)
  (hledger : Ledger (opened input horizon) (loaded input horizon)
    (transferred input horizon) (core.stateAt input horizon))
include hrun hledger

/-- In idle the transferred words are exactly the opened records. -/
theorem parse_of_idle (hpos : position (core.stateAt input horizon) = none) :
    ∃ records : List Record,
      transferred input horizon = records.flatMap Record.words ∧
        opened input horizon = records.map Record.kind := by
  obtain ⟨hquiet, hslots⟩ := hledger.idle hpos
  obtain ⟨records, tail, hsplit, hkinds, htail, -⟩ :=
    exists_records _ _ [] (fun load => tag_of_mem_loaded hrun)
      (by simpa using hslots)
  obtain rfl := List.map_eq_nil_iff.mp htail
  have hwords := hledger.words
  rw [offered_of_not_valid hquiet, List.append_nil, hsplit] at hwords
  exact ⟨records, by simpa using hwords, hkinds.symm⟩

/-- While a record is being sent they are the records opened before it and a
proper start of it. -/
theorem parse_of_sending {kind : Kind} {n : ℕ}
    (hpos : position (core.stateAt input horizon) = some (kind, n)) :
    ∃ (records : List Record) (tail : List Word),
      transferred input horizon = records.flatMap Record.words ++ tail ∧
        opened input horizon = records.map Record.kind ++ [kind] ∧
        tail.length < kind.length ∧ tail.map tag <+: kind.tags := by
  have htags : ∀ load ∈ loaded input horizon,
      load.kind.tags[load.index]? = some (tag load.word) :=
    fun load => tag_of_mem_loaded hrun
  obtain ⟨hvalid, earlier, hopenings, hslots⟩ := hledger.sending kind n hpos
  obtain ⟨records, tail, hsplit, hkinds, htail, hmem⟩ :=
    exists_records _ _ _ htags hslots
  have hbound := (countInv_stateAt input horizon).position_le hpos
  have htailTags := map_tag_eq_take
    (fun load h => htags load (hmem load h)) htail
  have hlength : tail.length = n := by
    simpa using congrArg List.length htail
  have hwords := hledger.words
  rw [hsplit] at hwords
  refine ⟨records, (tail.map Load.word).dropLast, ?_, ?_, ?_, ?_⟩
  · rcases Nat.eq_zero_or_pos n with rfl | hpositive
    · rw [offered_of_not_valid (by simp [hvalid])] at hwords
      obtain rfl := List.length_eq_zero_iff.mp hlength
      simpa using hwords
    · have hne : tail.map Load.word ≠ [] := by
        intro hnil
        rw [List.map_eq_nil_iff.mp hnil] at hlength
        simp at hlength
        omega
      rw [offered_of_valid (by simp [hvalid, hpositive]),
        ← List.dropLast_append_getLast hne, ← List.append_assoc] at hwords
      exact (List.append_inj' hwords rfl).1
  · rw [hopenings, hkinds]
  · have := kind.length_pos
    simp
    omega
  · rw [List.map_dropLast, htailTags]
    exact (List.dropLast_prefix _).trans (List.take_prefix _ _)

end Parse

/-- With `m_axis_tready` always high the output is a sequence of records. -/
theorem lagoTrigger_outputGrammar (input : ℕ → Input) (horizon : ℕ)
    (hrun : ∀ cycle < horizon, (input cycle).aresetn = true)
    (hready : ∀ cycle < horizon, (input cycle).mAxisTready = true) :
    OutputGrammar input horizon where
  parse := by
    have hledger := ledger_stateAt hrun (fun cycle hcycle _ => hready cycle hcycle)
      horizon le_rfl
    cases hpos : position (core.stateAt input horizon) with
    | none =>
        obtain ⟨records, hwords, hkinds⟩ := parse_of_idle hrun hledger hpos
        exact ⟨records, [], by simpa using hwords, .inl ⟨hkinds, rfl⟩⟩
    | some at_ =>
        obtain ⟨records, tail, hwords, hkinds, htail⟩ :=
          parse_of_sending hrun hledger hpos
        exact ⟨records, tail, hwords, .inr ⟨at_.1, hkinds, htail⟩⟩
  opening := fun cycle hcycle hidle =>
    stateReg_of_idle (hrun cycle hcycle) hidle
  unique := fun _ _ heq => flatMap_words_injective heq

/-- A PPS pulse in cycle 3 and a sample step in cycle 20, always ready. -/
def busyRun (cycle : ℕ) : Input :=
  { patientRun cycle with
    sAxisTdata := if 20 ≤ cycle then 0x00000100#32 else 0
    mAxisTready := true }

/-- The words of a PPS record and the start of a pulse record. -/
theorem lagoTrigger_outputGrammar_busyRun : OutputGrammar busyRun 40 :=
  lagoTrigger_outputGrammar busyRun 40 (by decide) (by decide)

end Rfsoc.LagoTrigger
