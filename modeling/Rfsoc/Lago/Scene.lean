import Rfsoc.Core.DeadTime
import Rfsoc.Core.Signals
import Rfsoc.Lago.Charge
import Rfsoc.Lago.Exclusion

/-!
# The record stream as a whole

What `axis_lago_trigger` sends is a function of what happens on its two channels and
of the time: a recorder that is blind while it sends, for two cycles more than its
record has words, and words that are told from the values and the time alone.  This
file states that recorder and proves that the core is one when `m_axis_tready` stays
high.
-/

namespace Rfsoc.LagoTrigger

open Rfsoc.Clocked
open Rfsoc.DeadTime
open Rfsoc.Signals
open Rfsoc.Window

/-- A channel: its value and its two levels in each cycle. -/
structure Channel where
  value : ℕ → ℤ
  level : ℕ → ℤ
  sublevel : ℕ → ℤ

/-- The channels, the pulse of the second and the cycles since. -/
structure Scene where
  a : Channel
  b : Channel
  pps : ℕ → Bool
  time : ℕ → ℕ

namespace Channel

variable (channel : Channel)

/-- The value of cycle `cycle - 11 + place`, zero before reset. -/
def past (cycle place : ℕ) : ℤ :=
  if 11 ≤ cycle + place then channel.value (cycle + place - 11) else 0

/-- Two values below the level and then one that is not. -/
def rises (cycle : ℕ) : Bool :=
  decide (channel.level cycle ≤ channel.past cycle 2 ∧
    channel.past cycle 1 < channel.level cycle ∧
    channel.past cycle 0 < channel.level cycle)

/-- A maximum, or a plateau of two, between the two levels. -/
def peaks (cycle : ℕ) : Bool :=
  decide (channel.sublevel cycle ≤ channel.past cycle 1 ∧
    channel.past cycle 0 < channel.past cycle 1 ∧
    (channel.past cycle 2 < channel.past cycle 1 ∨
      channel.past cycle 2 = channel.past cycle 1 ∧
        channel.past cycle 3 < channel.past cycle 1) ∧
    channel.past cycle 1 < channel.level cycle ∧
    channel.past cycle 2 < channel.level cycle ∧
    channel.past cycle 3 < channel.level cycle)

end Channel

namespace Scene

variable (scene : Scene)

def trigger (cycle : ℕ) : Bool := scene.a.rises cycle || scene.b.rises cycle

def subTrigger (cycle : ℕ) : Bool := scene.a.peaks cycle || scene.b.peaks cycle

/-- The record that a cycle asks for. -/
def wants (cycle : ℕ) : Option Kind :=
  if scene.pps cycle then some .pps
  else if scene.trigger cycle then some .pulse
  else if scene.subTrigger cycle then some .subTrigger
  else none

/-- Flags and time of a cycle. -/
def stamp (flag2 flag1 : ℕ → Bool) (cycle : ℕ) : Word :=
  flagWord (flag2 cycle) (flag1 cycle) (BitVec.ofNat 27 (scene.time cycle))

/-- The PPS record of a cycle: the time, and the level of channel A eight times. -/
def metadata (cycle : ℕ) : List Word :=
  let level := BitVec.ofInt 16 (scene.a.level cycle)
  [0xFFFFFFFF#32,
    0b11000#5 ++ BitVec.ofNat 27 (scene.time cycle),
    0b11001#5 ++ 0#11 ++ level,
    0b11010#5 ++ 0#11 ++ level,
    0b11011#5 ++ 0#11 ++ level,
    0b11100#5 ++ 0#11 ++ level,
    0b11100001#8 ++ 0#8 ++ level,
    0b11100010#8 ++ 0#8 ++ level,
    0b11100011#8 ++ 0#8 ++ level,
    0b11100100#8 ++ 0#8 ++ level]

/-- The three words of a sub-trigger: the maxima, twice the charge, which counts
cycles in steps of eleven, and flags and time. -/
def scalers (cycle : ℕ) : List Word :=
  [0b0000#4 ++ BitVec.ofInt 14 (scene.a.past cycle 1) ++
      BitVec.ofInt 14 (scene.b.past cycle 1),
    0b0000#4 ++ BitVec.ofNat 14 (11 * cycle) ++ BitVec.ofNat 14 (11 * cycle),
    scene.stamp scene.b.peaks scene.a.peaks cycle]

/-- Word `n` of a record.  Behind the values of a pulse come flags and time, and
the number, of the latest trigger before the word is read; the words of a
sub-trigger are those of the latest one. -/
def word (opening : ℕ) (kind : Kind) (n : ℕ) : Word :=
  match kind with
  | .pps => (scene.metadata opening).getD n 0
  | .pulse =>
      if n < dataArrayLength then
        pairWord (BitVec.ofInt 14 (scene.b.past opening n))
          (BitVec.ofInt 14 (scene.a.past opening n))
      else
        let latest := lastHigh scene.trigger (opening + n)
        if n = dataArrayLength then
          scene.stamp scene.b.rises scene.a.rises latest
        else counterWord (BitVec.ofNat 30 (highCycles scene.trigger latest))
  | .subTrigger =>
      (scene.scalers (lastHigh scene.subTrigger (opening + n))).getD n 0

/-- The cycles between the event and its first word on `m_axis`. -/
def delay : ℕ := 2

/-- The records opened before a cycle. -/
def records (cycle : ℕ) : List (ℕ × Kind) :=
  taken scene.wants (dead Kind.length delay) cycle

/-- The words sent before a cycle. -/
def words (cycle : ℕ) : List Word :=
  output scene.wants Kind.length delay scene.word cycle

end Scene

/-- A channel of the core. -/
structure Channel.Shows (channel : Channel) (half level sublevel : Input → Sample)
    (input : ℕ → Input) (horizon : ℕ) : Prop where
  value : ∀ cycle < horizon, (half (input cycle)).toInt = channel.value cycle
  level : ∀ cycle < horizon, (level (input cycle)).toInt = channel.level cycle
  sublevel : ∀ cycle < horizon,
    (sublevel (input cycle)).toInt = channel.sublevel cycle

/-- The ports carry the scene; a second is longer than a PPS record. -/
structure Scene.Shows (scene : Scene) (input : ℕ → Input) (horizon : ℕ) :
    Prop where
  a : scene.a.Shows channelA trigLvlA subtrigLvlA input horizon
  b : scene.b.Shows channelB trigLvlB subtrigLvlB input horizon
  pps : ∀ cycle < horizon, (input cycle).ppsI = scene.pps cycle
  time : ∀ cycle < horizon,
    (input cycle).clkCntPpsI = BitVec.ofNat 27 (scene.time cycle)
  apart : ∀ late < horizon, ∀ early < late, scene.pps early = true →
    scene.pps late = true → early + metadataArrayLength ≤ late

/-- The low bits of a sample. -/
theorem extractLsb'_eq_ofInt (sample : Sample) :
    sample.extractLsb' 0 14 = BitVec.ofInt 14 sample.toInt := by
  apply BitVec.eq_of_toNat_eq
  have hlt := sample.isLt
  rw [BitVec.extractLsb'_toNat, Nat.shiftRight_zero, BitVec.toNat_ofInt,
    BitVec.toInt_eq_toNat_cond]
  split <;> omega

/-- The low bits of a count. -/
theorem extractLsb'_ofNat (count : ℕ) :
    (BitVec.ofNat 32 count).extractLsb' 0 30 = BitVec.ofNat 30 count := by
  apply BitVec.eq_of_toNat_eq
  rw [BitVec.extractLsb'_toNat, BitVec.toNat_ofNat, BitVec.toNat_ofNat,
    Nat.shiftRight_zero]
  omega

namespace Channel.Shows

variable {channel : Channel} {half level sublevel : Input → Sample}
  {input : ℕ → Input} {horizon : ℕ}
  (hshows : channel.Shows half level sublevel input horizon)
include hshows

theorem toInt_captured {cycle place : ℕ} (hplace : cycle + place < horizon + 11) :
    (captured half input cycle place).toInt = channel.past cycle place := by
  rw [captured, Channel.past]
  split
  · exact hshows.value _ (by omega)
  · rfl

theorem extractLsb'_captured {cycle place : ℕ}
    (hplace : cycle + place < horizon + 11) :
    (captured half input cycle place).extractLsb' 0 14 =
      BitVec.ofInt 14 (channel.past cycle place) := by
  rw [extractLsb'_eq_ofInt, hshows.toInt_captured hplace]

/-- The places 1 to 4 of the array. -/
theorem toInt_latest {cycle : ℕ} (hcycle : cycle < horizon) (place : ℕ)
    (hplace : place < 4) (k : Fin dataArrayLength) (hk : k.val = place + 1) :
    (latest 0 (presented half input cycle) k).toInt = channel.past cycle place := by
  have hsame : cycle + k.val = cycle + place + 1 := by omega
  rw [latest_presented half input hsame, hshows.toInt_captured (by omega)]

theorem crosses_eq {cycle : ℕ} (hcycle : cycle < horizon) :
    crosses (latest 0 (presented half input cycle)) (level (input cycle)) =
      channel.rises cycle := by
  have hplace := hshows.toInt_latest hcycle
  rw [Bool.eq_iff_iff, crosses_iff, Channel.rises, decide_eq_true_iff,
    hplace 2 (by decide) 3 rfl, hplace 1 (by decide) 2 rfl,
    hplace 0 (by decide) 1 rfl, hshows.level cycle hcycle]

theorem peaks_eq {cycle : ℕ} (hcycle : cycle < horizon) :
    LagoTrigger.peaks (latest 0 (presented half input cycle))
        (sublevel (input cycle)) (level (input cycle)) =
      channel.peaks cycle := by
  have hplace := hshows.toInt_latest hcycle
  rw [Bool.eq_iff_iff, LagoTrigger.peaks, Channel.peaks, decide_eq_true_iff]
  simp only [Bool.and_eq_true, Bool.or_eq_true, beq_iff_eq, ← BitVec.toInt_inj,
    BitVec.slt_iff_toInt_lt, BitVec.sle_iff_toInt_le, and_assoc]
  rw [hplace 3 (by decide) 4 rfl, hplace 2 (by decide) 3 rfl,
    hplace 1 (by decide) 2 rfl, hplace 0 (by decide) 1 rfl,
    hshows.level cycle hcycle, hshows.sublevel cycle hcycle]

end Channel.Shows

/-- The words that a PPS pulse latches. -/
theorem Scene.Shows.ppsWord_eq {scene : Scene} {input : ℕ → Input} {horizon : ℕ}
    (hshows : scene.Shows input horizon) {cycle : ℕ} (hcycle : cycle < horizon)
    (k : Fin metadataArrayLength) :
    ppsWord (input cycle) k = (scene.metadata cycle).getD k.val 0 := by
  have hlevel : trigLvlA (input cycle) =
      BitVec.ofInt 16 (scene.a.level cycle) := by
    rw [← hshows.a.level cycle hcycle, BitVec.ofInt_toInt]
  have htime := hshows.time cycle hcycle
  match k with
  | 0 => rfl
  | 1 =>
      rw [ppsWord, htime]
      rfl
  | 2 | 3 | 4 | 5 | 6 | 7 | 8 | 9 =>
      rw [ppsWord, hlevel]
      rfl

section Registers

variable {scene : Scene} {input : ℕ → Input} {horizon : ℕ}
  (hshows : scene.Shows input horizon)
  (hrun : ∀ cycle < horizon, (input cycle).aresetn = true)
include hshows hrun

section Flags

variable {cycle : ℕ} (hcycle : cycle < horizon)
include hcycle

theorem tr1S_eq :
    tr1S (core.stateAt input cycle) (input cycle) = scene.a.rises cycle := by
  rw [tr1S, (adcDat_eq hrun cycle hcycle.le).1]
  exact hshows.a.crosses_eq hcycle

theorem tr2S_eq :
    tr2S (core.stateAt input cycle) (input cycle) = scene.b.rises cycle := by
  rw [tr2S, (adcDat_eq hrun cycle hcycle.le).2]
  exact hshows.b.crosses_eq hcycle

theorem subtr1S_eq :
    subtr1S (core.stateAt input cycle) (input cycle) = scene.a.peaks cycle := by
  rw [subtr1S, (adcDat_eq hrun cycle hcycle.le).1]
  exact hshows.a.peaks_eq hcycle

theorem subtr2S_eq :
    subtr2S (core.stateAt input cycle) (input cycle) = scene.b.peaks cycle := by
  rw [subtr2S, (adcDat_eq hrun cycle hcycle.le).2]
  exact hshows.b.peaks_eq hcycle

theorem trS_eq :
    trS (core.stateAt input cycle) (input cycle) = scene.trigger cycle := by
  rw [trS, tr1S_eq hshows hrun hcycle, tr2S_eq hshows hrun hcycle, Scene.trigger]

theorem subtrS_eq :
    subtrS (core.stateAt input cycle) (input cycle) = scene.subTrigger cycle := by
  rw [subtrS, subtr1S_eq hshows hrun hcycle, subtr2S_eq hshows hrun hcycle,
    Scene.subTrigger]

/-- In idle the core opens what the cycle asks for. -/
theorem opens_eq_wants (hidle : (core.stateAt input cycle).stateReg = .stIdle) :
    opens (core.stateAt input cycle) (input cycle) = scene.wants cycle := by
  rw [opens_eq _ _ hidle, hshows.pps cycle hcycle, trS_eq hshows hrun hcycle,
    subtrS_eq hshows hrun hcycle, Scene.wants]

/-- The words that a sub-trigger latches. -/
theorem scalerWord_eq (k : Fin subtrigArrayLength) :
    scalerWord (core.stateAt input cycle) (input cycle) k =
      (scene.scalers cycle).getD k.val 0 := by
  obtain ⟨hA, hB⟩ := adcDat_eq hrun cycle hcycle.le
  obtain ⟨hfirst, hsecond⟩ := charge_eq hrun cycle hcycle.le
  match k with
  | 0 =>
      rw [scalerWord, hA, hB, extractLsb'_eq_ofInt, extractLsb'_eq_ofInt,
        hshows.a.toInt_latest hcycle 1 (by decide) 2 rfl,
        hshows.b.toInt_latest hcycle 1 (by decide) 2 rfl]
      rfl
  | 1 =>
      rw [scalerWord, hfirst, hsecond]
      rfl
  | 2 =>
      rw [scalerWord, subtr1S_eq hshows hrun hcycle, subtr2S_eq hshows hrun hcycle,
        hshows.time cycle hcycle]
      rfl

end Flags

theorem triggered_iff :
    ∀ cycle < horizon, triggered input cycle ↔ scene.trigger cycle = true := by
  intro cycle hcycle
  rw [triggered, trS_eq hshows hrun hcycle]

theorem subTriggered_iff :
    ∀ cycle < horizon, subTriggered input cycle ↔ scene.subTrigger cycle = true := by
  intro cycle hcycle
  rw [subTriggered, subtrS_eq hshows hrun hcycle]

theorem count_triggered {cycle : ℕ} (hcycle : cycle ≤ horizon) :
    Nat.count (triggered input) cycle = highCycles scene.trigger cycle := by
  have hsame : ∀ earlier < cycle,
      (fun before => trS (core.stateAt input before) (input before)) earlier =
        scene.trigger earlier :=
    fun earlier hearlier => trS_eq hshows hrun (hearlier.trans_le hcycle)
  exact highCycles_congr hsame

/-- `array_pps_reg` keeps the words of the latest pulse. -/
theorem arrayPpsReg_enabled :
    Enabled (fun cycle => (core.stateAt input cycle).arrayPpsReg)
      (fun cycle => scene.pps cycle = true)
      (fun cycle => ppsWord (input cycle)) horizon :=
  .of_next fun cycle hcycle => by
    rw [stateAt_succ_of_run (hrun cycle hcycle)]
    funext k
    change (if (input cycle).ppsI = true then _ else _) = _
    rw [hshows.pps cycle hcycle]
    exact (ite_apply ..).symm

section Words

variable {opening : ℕ}

/-- A PPS record is read out before the next pulse. -/
theorem pps_recordWord (hpps : scene.pps opening = true) {n : ℕ}
    (hn : n < metadataArrayLength) (hlate : opening + n < horizon) :
    recordWord .pps (core.stateAt input (opening + n + 1)) n =
      scene.word opening .pps n := by
  have hlt : opening < opening + n + 1 := by omega
  have hlatest := (arrayPpsReg_enabled hshows hrun).eq_of_latest hlt hlate hpps
    (by
      intro between hlow hup hagain
      have hfar := hshows.apart between (by omega) opening hlow hpps hagain
      omega)
  rw [recordWord, arrayPpsAt, dif_pos hn, hlatest,
    hshows.ppsWord_eq (by omega)]
  rfl

/-- The values of a pulse record have been on the ports. -/
theorem sample_recordWord {n : ℕ} (hn : n < dataArrayLength)
    (hlate : opening + n < horizon) :
    recordWord .pulse (core.stateAt input (opening + n + 1)) n =
      scene.word opening .pulse n := by
  have hplace : opening + n + 1 + (0 : Fin dataArrayLength).val =
      opening + n + 1 := Nat.add_zero _
  obtain ⟨hA, hB⟩ := adcDat_eq hrun (opening + n + 1) hlate
  rw [recordWord, if_pos hn, sampleWord, hA, hB,
    latest_presented channelA input hplace, latest_presented channelB input hplace,
    hshows.a.extractLsb'_captured (by omega),
    hshows.b.extractLsb'_captured (by omega), Scene.word, if_pos hn]

/-- The status word is that of the latest trigger. -/
theorem status_recordWord (htrigger : scene.trigger opening = true)
    (hlate : opening + dataArrayLength < horizon) :
    recordWord .pulse (core.stateAt input (opening + dataArrayLength + 1))
        dataArrayLength =
      scene.word opening .pulse dataArrayLength := by
  have hlatest := eq_lastHigh (trStatusReg_enabled horizon hrun)
    (triggered_iff hshows hrun) htrigger (Nat.le_add_right opening dataArrayLength) hlate
  have hbefore : lastHigh scene.trigger (opening + dataArrayLength) < horizon :=
    (lastHigh_le _ _).trans_lt hlate
  rw [recordWord, if_neg (Nat.lt_irrefl _), if_pos rfl, hlatest,
    tr1S_eq hshows hrun hbefore, tr2S_eq hshows hrun hbefore,
    hshows.time _ hbefore, Scene.word, if_neg (Nat.lt_irrefl _), if_pos rfl]
  rfl

/-- The counter word is that of the latest trigger. -/
theorem counter_recordWord (htrigger : scene.trigger opening = true)
    (hlate : opening + 13 < horizon) :
    recordWord .pulse (core.stateAt input (opening + 13 + 1)) 13 =
      scene.word opening .pulse 13 := by
  have hlatest := eq_lastHigh (cntStatusReg_enabled horizon hrun)
    (triggered_iff hshows hrun) htrigger (Nat.le_add_right opening 13) hlate
  have hbefore : lastHigh scene.trigger (opening + 13) < horizon :=
    (lastHigh_le _ _).trans_lt hlate
  rw [recordWord, if_neg (by decide), if_neg (by decide), hlatest,
    trigCntReg_eq horizon hrun _ hbefore.le, extractLsb'_ofNat,
    count_triggered hshows hrun hbefore.le, Scene.word,
    if_neg (by decide), if_neg (by decide)]

/-- The words of a sub-trigger record are those of the latest sub-trigger. -/
theorem subTrigger_recordWord (hsub : scene.subTrigger opening = true) {n : ℕ}
    (hn : n < subtrigArrayLength) (hlate : opening + n < horizon) :
    recordWord .subTrigger (core.stateAt input (opening + n + 1)) n =
      scene.word opening .subTrigger n := by
  have hlatest := eq_lastHigh (arrayScalersReg_enabled horizon hrun)
    (subTriggered_iff hshows hrun) hsub (Nat.le_add_right opening n) hlate
  have hbefore : lastHigh scene.subTrigger (opening + n) < horizon :=
    (lastHigh_le _ _).trans_lt hlate
  rw [recordWord, arrayScalersAt, dif_pos hn, hlatest,
    scalerWord_eq hshows hrun hbefore]
  rfl

/-- The registers hold the words of the scene when a record is read. -/
theorem recordWord_eq {kind : Kind} (hwants : scene.wants opening = some kind)
    {n : ℕ} (hn : n < kind.length) (hlate : opening + n < horizon) :
    recordWord kind (core.stateAt input (opening + n + 1)) n =
      scene.word opening kind n := by
  unfold Scene.wants at hwants
  split at hwants
  · rename_i hpps
    cases hwants
    exact pps_recordWord hshows hrun hpps hn hlate
  split at hwants
  · rename_i htrigger
    cases hwants
    rw [Kind.length_pulse] at hn
    obtain hvalue | rfl | hlast := Nat.lt_trichotomy n dataArrayLength
    · exact sample_recordWord hshows hrun hvalue hlate
    · exact status_recordWord hshows hrun htrigger hlate
    · obtain rfl : n = 13 := by
        simp only [dataArrayLength] at hlast
        omega
      exact counter_recordWord hshows hrun htrigger hlate
  split at hwants
  · rename_i hsub
    cases hwants
    exact subTrigger_recordWord hshows hrun hsub hn hlate
  · cases hwants

end Words

end Registers

namespace Scene

variable (scene : Scene)

/-- The record being sent in a cycle and how many of its words are loaded. -/
def reading (cycle : ℕ) : Option (Kind × ℕ) :=
  match (scene.records cycle).getLast? with
  | none => none
  | some (opening, kind) =>
      if cycle < opening + dead Kind.length delay kind then
        some (kind, cycle - (opening + 1))
      else none

variable {scene} {cycle : ℕ}

theorem exists_of_reading {kind : Kind} {n : ℕ}
    (hreading : scene.reading cycle = some (kind, n)) :
    ∃ opening, (scene.records cycle).getLast? = some (opening, kind) ∧
      opening + 1 + n = cycle ∧ n ≤ kind.length ∧
        scene.wants opening = some kind := by
  unfold reading at hreading
  split at hreading
  · cases hreading
  · rename_i opening other hlast
    split at hreading
    · rename_i hdead
      cases hreading
      obtain ⟨hopening, hwants, -⟩ := mem_taken_iff.mp (List.mem_of_getLast? hlast)
      rw [dead, delay] at hdead
      exact ⟨opening, hlast, by omega, by omega, hwants⟩
    · cases hreading

/-- No record is being sent when the recorder is free. -/
theorem reading_eq_none_iff :
    scene.reading cycle = none ↔
      free scene.wants (dead Kind.length delay) cycle ≤ cycle := by
  rw [free_eq, reading, records]
  cases (taken scene.wants (dead Kind.length delay) cycle).getLast? with
  | none => simp
  | some record => simp

theorem reading_of_takes {kind : Kind}
    (htakes : takes scene.wants (dead Kind.length delay) cycle = some kind) :
    scene.reading (cycle + 1) = some (kind, 0) := by
  rw [reading, records, taken_of_takes htakes, List.getLast?_concat]
  change (if cycle + 1 < cycle + dead Kind.length delay kind then _ else _) = _
  rw [dead, delay, if_pos (by omega), Nat.sub_self]

theorem reading_of_takes_none
    (hnone : takes scene.wants (dead Kind.length delay) cycle = none)
    (hreading : scene.reading cycle = none) : scene.reading (cycle + 1) = none := by
  rw [reading_eq_none_iff] at hreading ⊢
  rw [free_of_takes_none hnone]
  exact hreading.trans (Nat.le_succ cycle)

/-- A record moves on by a word a cycle until all are loaded. -/
theorem reading_succ {kind : Kind} {n : ℕ}
    (hreading : scene.reading cycle = some (kind, n)) :
    scene.reading (cycle + 1) =
      if n < kind.length then some (kind, n + 1) else none := by
  obtain ⟨opening, hlast, hcycle, hn, -⟩ := exists_of_reading hreading
  have hbusy : takes scene.wants (dead Kind.length delay) cycle = none := by
    have hne : scene.reading cycle ≠ none := by
      rw [hreading]
      exact Option.some_ne_none _
    rw [Ne, reading_eq_none_iff] at hne
    exact if_neg hne
  rw [reading, records, taken_of_takes_none hbusy, ← records, hlast]
  change (if cycle + 1 < opening + dead Kind.length delay kind then _ else _) = _
  rw [dead, delay]
  by_cases hmore : n < kind.length
  · rw [if_pos (by omega), if_pos hmore]
    congr 2
    omega
  · rw [if_neg (by omega), if_neg hmore]

/-- A word that is not the first comes after another one of its record. -/
theorem reading_before {kind : Kind} {n : ℕ}
    (hreading : scene.reading (cycle + 1) = some (kind, n + 1)) :
    scene.reading cycle = some (kind, n) ∧ n < kind.length := by
  cases hbefore : scene.reading cycle with
  | none =>
      cases htakes : takes scene.wants (dead Kind.length delay) cycle with
      | none =>
          rw [reading_of_takes_none htakes hbefore] at hreading
          cases hreading
      | some other =>
          rw [reading_of_takes htakes] at hreading
          cases hreading
  | some place =>
      obtain ⟨other, m⟩ := place
      rw [reading_succ hbefore] at hreading
      split at hreading
      · rename_i hmore
        cases hreading
        exact ⟨rfl, hmore⟩
      · cases hreading

end Scene

section Run

variable {scene : Scene} {input : ℕ → Input} {horizon : ℕ}
  (hshows : scene.Shows input horizon) (hflow : Flowing input horizon)
include hshows hflow

/-- The core sends the record that the recorder does. -/
theorem position_eq_reading : ∀ cycle ≤ horizon,
    position (core.stateAt input cycle) = scene.reading cycle := by
  refine upTo_induction horizon rfl ?_
  intro cycle hcycle ih
  have hrun := hflow.run cycle hcycle
  have hcount := countInv_stateAt input cycle
  rw [Machine.stateAt_succ]
  cases hreading : scene.reading cycle with
  | none =>
      rw [hreading] at ih
      have hidle := (position_eq_none_iff _).mp ih
      have hfree := Scene.reading_eq_none_iff.mp hreading
      have hnext := (step_open (i := input cycle) hrun hcount ih).1
      rw [opens_eq_wants hshows hflow.run hcycle hidle] at hnext
      rw [show core.step = step from rfl, hnext]
      cases hwants : scene.wants cycle with
      | none =>
          have hnone : takes scene.wants (dead Kind.length Scene.delay) cycle =
              none := by
            rw [takes, if_pos hfree, hwants]
          rw [Scene.reading_of_takes_none hnone hreading]
          rfl
      | some kind =>
          have htakes : takes scene.wants (dead Kind.length Scene.delay) cycle =
              some kind := by
            rw [takes, if_pos hfree, hwants]
          rw [Scene.reading_of_takes htakes]
          rfl
  | some place =>
      obtain ⟨kind, n⟩ := place
      rw [hreading] at ih
      have hready := hflow.ready cycle hcycle
      rw [Scene.reading_succ hreading]
      obtain ⟨-, -, -, hn, -⟩ := Scene.exists_of_reading hreading
      obtain hlt | rfl := hn.lt_or_eq
      · rw [if_pos hlt]
        exact (step_load hrun hcount ih hlt hready).1
      · rw [if_neg (Nat.lt_irrefl _)]
        exact (step_close hrun hcount ih hready).1

/-- The word on offer is the one that the recorder puts out. -/
theorem offered_eq_emission (cycle : ℕ) (hcycle : cycle ≤ horizon) :
    offered (core.stateAt input cycle) =
      emission scene.wants Kind.length Scene.delay scene.word cycle := by
  have hpos := position_eq_reading hshows hflow cycle hcycle
  have hledger := hflow.ledger cycle hcycle
  cases hreading : scene.reading cycle with
  | none =>
      rw [hreading] at hpos
      rw [offered_of_not_valid (hledger.idle hpos).1, emission]
      rw [Scene.reading_eq_none_iff, free_eq] at hreading
      cases hlast : (taken scene.wants (dead Kind.length Scene.delay)
          cycle).getLast? with
      | none => rfl
      | some record =>
          obtain ⟨opening, kind⟩ := record
          rw [hlast] at hreading
          change opening + dead Kind.length Scene.delay kind ≤ cycle at hreading
          exact (if_neg fun hinside =>
            absurd hinside.2 (Nat.not_lt.mpr hreading)).symm
  | some place =>
      obtain ⟨kind, n⟩ := place
      rw [hreading] at hpos
      obtain ⟨hvalid, -⟩ := hledger.sending kind n hpos
      obtain ⟨opening, hlast, hplace, hn, hwants⟩ :=
        Scene.exists_of_reading hreading
      rw [Scene.records] at hlast
      rw [emission, hlast]
      change _ = if opening + Scene.delay ≤ cycle ∧
        cycle < opening + dead Kind.length Scene.delay kind then _ else _
      rw [dead, Scene.delay]
      cases n with
      | zero =>
          rw [offered_of_not_valid hvalid, if_neg (by omega)]
      | succ n =>
          -- The word was loaded in the cycle before.
          obtain rfl : opening + n + 1 + 1 = cycle := by omega
          obtain ⟨hbefore, hmore⟩ := Scene.reading_before hreading
          rw [← position_eq_reading hshows hflow _ (by omega)] at hbefore
          have hload := step_load (hflow.run _ hcycle) (countInv_stateAt input _)
            hbefore hmore (hflow.ready _ hcycle)
          rw [offered_of_valid (hvalid.trans (decide_eq_true (Nat.succ_pos n))),
            if_pos (by omega)]
          have hindex : opening + n + 1 + 1 - (opening + 2) = n := by omega
          rw [hindex, ← recordWord_eq hshows hflow.run hwants hmore (by omega)]
          exact congrArg (· :: []) hload.2.2

/-- The core is the recorder: with `m_axis_tready` high the words transferred are
those of the scene. -/
theorem transferred_eq_words : ∀ cycle ≤ horizon,
    transferred input cycle = scene.words cycle := by
  refine upTo_induction horizon rfl ?_
  intro cycle hcycle ih
  rw [Scene.words, output_succ (by decide), ← Scene.words, ← ih,
    ← offered_eq_emission hshows hflow cycle hcycle.le, transferred,
    Machine.log_succ, transfer_of_ready (hflow.ready cycle hcycle)]

end Run

end Rfsoc.LagoTrigger
