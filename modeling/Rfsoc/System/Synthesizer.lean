import Rfsoc.Board.RpDac
import Rfsoc.Core.Composition
import Rfsoc.Core.Rotation
import Rfsoc.Generator.SignalGen
import Rfsoc.Host.LiaRp

/-!
# From the command line to the tone

In `gen_test` the last word of the configuration register is the frequency.  It
crosses to the clock of the converters in `fifo_1`, `sg_0` turns it into the phase
of a sine and a cosine, and `dac_0` codes both for the DAC.  Nothing on that side
is ever reset, so the registers start with anything.

After `lia_rp -s fv v` the tone makes `v` turns in a second of 125 MHz, less
11 in a million, which is how far 35184 is from `2^42 / 125000000`.
-/

namespace Rfsoc.Synthesizer

open Rfsoc.BinaryFloat
open Rfsoc.CfgBus
open Rfsoc.CfgRegister
open Rfsoc.Clocked
open Rfsoc.LiaRp
open Rfsoc.Numerals
open Rfsoc.ParseParam
open Rfsoc.RegisterValue
open Rfsoc.Rotation
open Rfsoc.Sessions

/-- `Freq_value`. -/
def freqValue (core : CfgRegister.State cfgSize) : BitVec 32 :=
  (cfgData core).extractLsb' 128 32

structure State where
  generator : SignalGen.State
  dac : RpDac.State

/-- The word that `fifo_1` hands over in a cycle, and the lock of the PLL. -/
structure Input where
  word : Option (BitVec 32)
  locked : Bool

/-- The generator is out of reset; its words come from `fifo_1`. -/
def generatorPorts (i : Input) : SignalGen.Input where
  aresetn := true
  sAxisTvalid := i.word.isSome
  sAxisTdata := i.word.getD 0
  mAxisTready := RpDac.sAxisTready

def dacPorts (s : State) (i : Input) : RpDac.Input 32 where
  locked := i.locked
  sAxisTvalid := SignalGen.mAxisTvalid s.generator
  sAxisTdata := SignalGen.mAxisTdata s.generator

section System

variable (isin : BitVec 12 → BitVec 16)

def step (s : State) (i : Input) : State where
  generator := SignalGen.step isin s.generator (generatorPorts i)
  dac := RpDac.step s.dac (dacPorts s i)

/-- From any registers. -/
def system (start : State) : Machine State Input := ⟨start, step isin⟩

variable (start : State) (input : ℕ → Input)

def stateAt (cycle : ℕ) : State := (system isin start).stateAt input cycle

/-- The phase in parts of `2^50` of a turn. -/
def phase (cycle : ℕ) : ℕ :=
  (stateAt isin start input cycle).generator.phaseAccReg.toNat

/-- The address of the wave table. -/
def address (cycle : ℕ) : BitVec 14 :=
  SignalGen.lutAddr (stateAt isin start input cycle).generator

/-- What the phase grows by in a cycle for a frequency in Hz. -/
def increment (frequency : ℕ) : ℕ := 35184 * (256 * frequency)

/-- The tone from a cycle on. -/
structure Tone (frequency cycle : ℕ) : Prop where
  phase : ∀ later, cycle ≤ later →
    phase isin start input (later + 1) =
      (phase isin start input later + increment frequency) % 2 ^ 50
  /-- A second of 125 MHz, from any cycle on. -/
  turns : ∀ later, cycle ≤ later →
    turns (fun step => Synthesizer.phase isin start input (later + step))
        125000000 ≤ frequency ∧
      frequency ≤ turns (fun step => Synthesizer.phase isin start input (later + step))
        125000000 + frequency / 94558 + 1
  /-- The DAC has the codes of the wave five cycles after its phase. -/
  codes : ∀ later, cycle ≤ later →
    ((stateAt isin start input (later + 5)).dac.intDatAReg.toNat : ℤ) =
        8191 - SincosLut.cosine isin (address isin start input later) ∧
      ((stateAt isin start input (later + 5)).dac.intDatBReg.toNat : ℤ) =
        8191 - SincosLut.sine isin (address isin start input later)

end System

section Generator

variable {isin : BitVec 12 → BitVec 16} {start : State} {input : ℕ → Input}
  {word : BitVec 32} {cycle : ℕ}

theorem rConstReg_succ (cycle : ℕ) :
    (stateAt isin start input (cycle + 1)).generator.rConstReg = 35184 := rfl

/-- The words that come later are the same one. -/
theorem freqReg_of_arrival (harrives : (input cycle).word = some word)
    (hsame : ∀ later, cycle ≤ later → ∀ other, (input later).word = some other →
      other = word)
    {later : ℕ} (hlater : cycle < later) :
    (stateAt isin start input later).generator.freqReg = word := by
  induction later, hlater using Nat.le_induction with
  | base =>
      change SignalGen.freqNext _ (generatorPorts (input cycle)) = word
      simp [SignalGen.freqNext, generatorPorts, harrives, SignalGen.tready]
  | succ later hlater ih =>
      change SignalGen.freqNext _ (generatorPorts (input later)) = word
      cases hother : (input later).word with
      | none =>
          simp only [SignalGen.freqNext, generatorPorts, hother]
          exact ih
      | some other =>
          rw [hsame later (by omega) other hother] at hother
          simp [SignalGen.freqNext, generatorPorts, hother, SignalGen.tready]

section Constant

variable (hword : ∀ later, cycle < later →
  (stateAt isin start input later).generator.freqReg = word)
include hword

theorem phaseStep_eq {later : ℕ} (hlater : cycle < later) :
    (SignalGen.phaseStep (stateAt isin start input later).generator).toNat =
      35184 * word.toNat := by
  have hlt := word.isLt
  obtain ⟨before, rfl⟩ := Nat.exists_eq_add_of_lt hlater
  rw [SignalGen.phaseStep, hword _ hlater, rConstReg_succ, BitVec.toNat_mul,
    BitVec.toNat_setWidth, BitVec.toNat_setWidth]
  change 35184 * (_ % 2 ^ 50) % 2 ^ 50 = _
  omega

/-- Three cycles after the word the phase grows by its product. -/
theorem phase_succ {later : ℕ} (hlater : cycle + 3 ≤ later) :
    phase isin start input (later + 1) =
      (phase isin start input later + 35184 * word.toNat) % 2 ^ 50 := by
  obtain ⟨before, rfl⟩ := Nat.exists_eq_add_of_le hlater
  have hstep : phase isin start input (cycle + 3 + before + 1) =
      (phase isin start input (cycle + 3 + before) +
        (SignalGen.phaseStep
          (stateAt isin start input (cycle + 1 + before)).generator).toNat) %
          2 ^ 50 := by
    rw [show cycle + 3 + before = cycle + 1 + before + 2 by omega]
    exact BitVec.toNat_add _ _
  rw [hstep, phaseStep_eq hword (by omega)]

end Constant

/-- The wave table runs beside the accumulator. -/
theorem sin_eq (cycle : ℕ) :
    (stateAt isin start input (cycle + 3)).generator.lut.sin.toInt =
      SincosLut.sine isin (address isin start input cycle) := rfl

theorem cos_eq (cycle : ℕ) :
    (stateAt isin start input (cycle + 3)).generator.lut.cos.toInt =
      SincosLut.cosine isin (address isin start input cycle) := rfl

end Generator

section Codes

variable {isin : BitVec 12 → BitVec 16} {start : State} {input : ℕ → Input}
  {cycle : ℕ}

theorem toNat_dacCode (sample : BitVec 14) :
    ((RpDac.dacCode sample).toNat : ℤ) = 8191 - sample.toInt := by
  have hlt := sample.isLt
  have hcode : (RpDac.dacCode sample).toNat =
      sample.toNat / 8192 * 8192 + (8191 - sample.toNat % 8192) := by
    rw [RpDac.dacCode, Bits.toNat_append_eq, BitVec.toNat_not,
      BitVec.extractLsb'_toNat, BitVec.extractLsb'_toNat,
      Nat.shiftRight_eq_div_pow, Nat.shiftRight_zero]
    omega
  rw [hcode, BitVec.toInt_eq_toNat_cond]
  split_ifs <;> omega

theorem getLsbD_signExtend_of_lt (sample : BitVec 14) {k : ℕ} (hk : k < 14) :
    (sample.signExtend 16).getLsbD k = sample.getLsbD k := by
  rw [BitVec.getLsbD_signExtend, decide_eq_true (show k < 16 by omega),
    Bool.true_and, if_pos hk]

theorem intDatAWire_dacPorts (s : State) (i : Input) :
    RpDac.intDatAWire (dacPorts s i) = s.generator.cosReg := by
  apply BitVec.eq_of_getLsbD_eq
  intro k hk
  rw [RpDac.intDatAWire, BitVec.getLsbD_extractLsb', decide_eq_true hk,
    Bool.true_and, Nat.zero_add]
  change (s.generator.sinReg.signExtend 16 ++
    s.generator.cosReg.signExtend 16).getLsbD k = _
  rw [BitVec.getLsbD_append, if_pos (by omega), getLsbD_signExtend_of_lt _ hk]

theorem intDatBWire_dacPorts (s : State) (i : Input) :
    RpDac.intDatBWire (dacPorts s i) = s.generator.sinReg := by
  apply BitVec.eq_of_getLsbD_eq
  intro k hk
  rw [RpDac.intDatBWire, BitVec.getLsbD_extractLsb', decide_eq_true hk,
    Bool.true_and]
  change (s.generator.sinReg.signExtend 16 ++
    s.generator.cosReg.signExtend 16).getLsbD (16 + k) = _
  rw [BitVec.getLsbD_append, if_neg (by omega), Nat.add_sub_cancel_left,
    getLsbD_signExtend_of_lt _ hk]

/-- With a frequency the samples follow the table, and a locked DAC codes them. -/
theorem codes_eq
    (hsound : ∀ later, cycle < later →
      SignalGen.tvalid (stateAt isin start input later).generator = true)
    (hlocked : ∀ later, cycle ≤ later → (input later).locked = true)
    {later : ℕ} (hlater : cycle < later) :
    ((stateAt isin start input (later + 5)).dac.intDatAReg.toNat : ℤ) =
        8191 - SincosLut.cosine isin (address isin start input later) ∧
      ((stateAt isin start input (later + 5)).dac.intDatBReg.toNat : ℤ) =
        8191 - SincosLut.sine isin (address isin start input later) := by
  have hcos : (stateAt isin start input (later + 4)).generator.cosReg =
      (stateAt isin start input (later + 3)).generator.lut.cos := by
    change SignalGen.cosNext (stateAt isin start input (later + 3)).generator _ = _
    rw [SignalGen.cosNext, hsound (later + 3) (by omega)]
    rfl
  have hsin : (stateAt isin start input (later + 4)).generator.sinReg =
      (stateAt isin start input (later + 3)).generator.lut.sin := by
    change SignalGen.sinNext (stateAt isin start input (later + 3)).generator _ = _
    rw [SignalGen.sinNext, hsound (later + 3) (by omega)]
    rfl
  have hplaying : ¬ RpDac.Muted
      (dacPorts (stateAt isin start input (later + 4)) (input (later + 4))) := by
    rintro (hunlocked | hsilent)
    · exact absurd ((hlocked (later + 4) (by omega)).symm.trans hunlocked)
        Bool.false_ne_true.symm
    · exact absurd ((hsound (later + 4) (by omega)).symm.trans hsilent)
        Bool.false_ne_true.symm
  have hdac : (stateAt isin start input (later + 5)).dac =
      RpDac.step (stateAt isin start input (later + 4)).dac
        (dacPorts (stateAt isin start input (later + 4)) (input (later + 4))) :=
    rfl
  rw [hdac, RpDac.step_playing hplaying, intDatAWire_dacPorts,
    intDatBWire_dacPorts, hcos, hsin, ← sin_eq, ← cos_eq]
  exact ⟨toNat_dacCode _, toNat_dacCode _⟩

end Codes

section Tone

variable {isin : BitVec 12 → BitVec 16} {start : State} {input : ℕ → Input}
  {word : BitVec 32} {cycle frequency : ℕ}

theorem turns_of_increment {phase : ℕ → ℕ} (hfrequency : frequency ≤ 8388607)
    (hstart : phase 0 < 2 ^ 50)
    (hnext : ∀ step, phase (step + 1) =
      (phase step + increment frequency) % 2 ^ 50) :
    turns phase 125000000 ≤ frequency ∧
      frequency ≤ turns phase 125000000 + frequency / 94558 + 1 := by
  have hturn : increment frequency < 2 ^ 50 := by
    rw [increment]
    omega
  rw [turns_eq hturn hstart hnext, increment]
  omega

/-- A word of a frequency that has come through `fifo_1`, and no other one after
it. -/
theorem tone_of_arrival (hword : word.toNat = 256 * frequency)
    (hpos : 0 < frequency) (hfrequency : frequency ≤ 8388607)
    (harrives : (input cycle).word = some word)
    (hsame : ∀ later, cycle ≤ later → ∀ other, (input later).word = some other →
      other = word)
    (hlocked : ∀ later, cycle ≤ later → (input later).locked = true) :
    Tone isin start input frequency (cycle + 3) := by
  have hfreq : ∀ later, cycle < later →
      (stateAt isin start input later).generator.freqReg = word :=
    fun later hlater => freqReg_of_arrival harrives hsame hlater
  have hphase : ∀ later, cycle + 3 ≤ later →
      phase isin start input (later + 1) =
        (phase isin start input later + increment frequency) % 2 ^ 50 := by
    intro later hlater
    rw [phase_succ hfreq hlater, hword, increment]
  refine ⟨hphase, ?_, ?_⟩
  · intro later hlater
    apply turns_of_increment hfrequency
    · exact (stateAt isin start input later).generator.phaseAccReg.isLt
    · intro step
      exact hphase (later + step) (by omega)
  · intro later hlater
    apply codes_eq _ hlocked (show cycle < later by omega)
    intro now hnow
    rw [SignalGen.tvalid, hfreq now hnow]
    apply decide_eq_true
    intro hzero
    rw [hzero] at hword
    change 0 = 256 * frequency at hword
    omega

end Tone

section Frequency

-- `-s` takes 15 characters of its value and up to 2^23 Hz.
variable {undefined : Number → CfgBus.Word} {program : Text} {number : Decimal}

theorem fromFloat_of_writeFloat {offset : BitVec 32} {value : Number} {data : ℤ}
    (hwrite : writeFloat offset value =
      some (RegisterValue.devWrite offset data)) :
    fromFloat undefined value = BitVec.ofInt 32 data := by
  rw [writeFloat] at hwrite
  obtain ⟨whole, hwhole, hdata⟩ := Option.map_eq_some_iff.mp hwrite
  rw [fromFloat, hwhole]
  exact congrArg Prod.snd hdata

/-- The globals of `lia_rp -s fv v` for a frequency that is not refused. -/
theorem accepted_frequency (hkept : ¬ 8400000 < kept number) :
    accepted (commandLine program .fv number) =
      some { parsed .fv number blankGlobals with ffVal := true } := by
  rw [accepted, parseParam_commandLine, checkValue_frequency hkept]
  rfl

theorem mapped_fValue : mapped cfgFValueOffset = true := by decide

theorem leaves_setting {g : Globals} {word : ℕ} (hread : g.fReadReg = false)
    (hwrite : g.fWriteReg = false) (hset : g.fSetCfgReg = true)
    (hmapped : mapped g.regOff = true) (hword : wordAt g.regOff = word) :
    leaves undefined g word = some (settingWord undefined g) := by
  simp [leaves, hread, hwrite, hset, hmapped, hword]

theorem asks_frequency (hpos : 0 ≤ number.value)
    (hhigh : number.value ≤ 8388607) (hkept : kept number = number.value) :
    asks undefined (commandLine program .fv number) 4 =
      some (BitVec.ofInt 32 (number.value * 2 ^ 8)) := by
  have hword : frequencyWord undefined
      (binary32.convert (atof (number.text.take 15))) =
        BitVec.ofInt 32 (kept number * 2 ^ 8) := by
    have hbits : |kept number| < 2 ^ 24 := by
      rw [hkept, abs_of_nonneg hpos]
      omega
    have hwrite : writeFloat cfgFValueOffset (scaled 8
        (binary32.convert (atof (number.text.take 15)))) =
          some (RegisterValue.devWrite cfgFValueOffset (kept number * 2 ^ 8)) :=
      writeFloat_kept (by decide) hbits (by omega) (by omega)
    exact fromFloat_of_writeFloat hwrite
  have hleaves : leaves undefined
      { parsed .fv number blankGlobals with ffVal := true } 4 =
        some (frequencyWord undefined
          (binary32.convert (atof (number.text.take 15)))) :=
    leaves_setting rfl rfl rfl mapped_fValue wordAt_fValue
  rw [asks, accepted_frequency (by omega), Option.bind_some, hleaves, hword, hkept]

theorem toNat_frequency (hpos : 0 ≤ number.value)
    (hhigh : number.value ≤ 8388607) :
    (BitVec.ofInt 32 (number.value * 2 ^ 8)).toNat =
      256 * number.value.toNat := by
  rw [BitVec.toNat_ofInt]
  omega

end Frequency

/-- The words that `fifo_1` hands over, by the cycle of the processor in which it
has taken them. -/
def converted (registers : ℕ → CfgRegister.State cfgSize)
    (samples : ℕ → Option ℕ) (locked : ℕ → Bool) (cycle : ℕ) : Input where
  word := (samples cycle).map fun sampled => freqValue (registers sampled)
  locked := locked cycle

/-- A clock converter keeps the order of its words. -/
def InOrder (samples : ℕ → Option ℕ) : Prop :=
  ∀ early late first second, early ≤ late → samples early = some first →
    samples late = some second → first ≤ second

section Design

variable (undefined : Number → CfgBus.Word) (core : CfgRegister.State cfgSize)
  (commands : ℕ → CfgBus.Input (Choice (List Text)))

/-- From a cycle on no command line is run; the last one about the frequency was
`lia_rp -s fv v`. -/
structure FrequencySet (program : Text) (number : Decimal) (first : ℕ) :
    Prop where
  idle : (LiaRp.stateAt undefined core commands first).master.phase = .idle
  done : (LiaRp.stateAt undefined core commands first).master.program = .done
  quiet : ∀ cycle, first ≤ cycle → (commands cycle).choice = none
  unkilled : .kill ∉ choicesAt undefined core commands first
  settings : ∀ argv ∈ linesAt undefined core commands first, ¬ WritesFirst argv
  last : ∃ earlier later, linesAt undefined core commands first =
      earlier ++ commandLine program .fv number :: later ∧
    ∀ argv ∈ later, asks undefined argv 4 = none

variable {undefined core commands} {program : Text} {number : Decimal}
  {first : ℕ}

theorem FrequencySet.freqValue_eq
    (hset : FrequencySet undefined core commands program number first)
    (hreset : core.resetS = false) (hblank : cfgWord core 0 = 0)
    (hpos : 0 ≤ number.value) (hhigh : number.value ≤ 8388607)
    (hkept : kept number = number.value) {cycle : ℕ} (hcycle : first ≤ cycle) :
    freqValue (LiaRp.stateAt undefined core commands cycle).core =
      BitVec.ofInt 32 (number.value * 2 ^ 8) := by
  obtain ⟨hmaster, hchoices⟩ := stateAt_quiet hset.idle hset.quiet hcycle
  have hlines : linesAt undefined core commands cycle =
      linesAt undefined core commands first :=
    congrArg (started (main undefined) (memory cfgSize 32) (cfgWord core)) hchoices
  obtain ⟨earlier, later, hlast, hlater⟩ := hset.last
  have hasks : asks undefined (commandLine program .fv number) 4 = _ :=
    asks_frequency hpos hhigh hkept
  have hsettled : Settled undefined (linesAt undefined core commands cycle)
      (cfgWord core)
      (cfgWord (LiaRp.stateAt undefined core commands cycle).core) := by
    apply settled_stateAt hreset hblank
    · have hsame : choicesAt undefined core commands cycle =
          choicesAt undefined core commands first := hchoices
      rw [hsame]
      exact hset.unkilled
    · rw [hlines]
      exact hset.settings
    · exact (congrArg Master.program hmaster).trans hset.done
  have haccepted : ∃ argv ∈ linesAt undefined core commands cycle,
      accepted argv ≠ none := by
    refine ⟨commandLine program .fv number, ?_, ?_⟩
    · rw [hlines, hlast]
      exact List.mem_append_right _ List.mem_cons_self
    · rw [accepted_frequency (by omega)]
      exact Option.some_ne_none _
  have hword := hsettled.settings haccepted 4 (by decide) le_rfl
  rw [hlines, hlast, lastAsked_of_last hasks hlater] at hword
  exact hword

end Design

/-- What is typed is heard. -/
theorem synthesizer_plays (isin : BitVec 12 → BitVec 16) (start : State)
    (undefined : Number → CfgBus.Word) (core : CfgRegister.State cfgSize)
    (hreset : core.resetS = false) (hblank : cfgWord core 0 = 0)
    (commands : ℕ → CfgBus.Input (Choice (List Text))) (program : Text)
    (number : Decimal) (hpos : 0 < number.value)
    (hhigh : number.value ≤ 8388607) (hkept : kept number = number.value)
    (first : ℕ)
    (hset : FrequencySet undefined core commands program number first)
    (samples : ℕ → Option ℕ) (horder : InOrder samples) (locked : ℕ → Bool)
    (arrival sampled : ℕ) (harrives : samples arrival = some sampled)
    (hsampled : first ≤ sampled)
    (hlocked : ∀ later, arrival ≤ later → locked later = true) :
    Tone isin start
      (converted (fun cycle => (LiaRp.stateAt undefined core commands cycle).core)
        samples locked)
      number.value.toNat (arrival + 3) := by
  have hfreq : ∀ cycle, first ≤ cycle →
      freqValue (LiaRp.stateAt undefined core commands cycle).core =
        BitVec.ofInt 32 (number.value * 2 ^ 8) :=
    fun cycle hcycle => hset.freqValue_eq hreset hblank hpos.le hhigh hkept hcycle
  apply tone_of_arrival (toNat_frequency hpos.le hhigh) (by omega) (by omega)
  · rw [converted, harrives, Option.map_some, hfreq sampled hsampled]
  · intro later hlater other hother
    obtain ⟨second, hsecond, rfl⟩ := Option.map_eq_some_iff.mp hother
    exact hfreq second (hsampled.trans
      (horder arrival later sampled second hlater harrives hsecond))
  · exact hlocked

/-- `lia_rp -s fv 440` on a bus that makes its accesses at once. -/
def concertPitch (cycle : ℕ) : CfgBus.Input (Choice (List Text)) where
  choice :=
    if cycle = 0 then
      some (.start (commandLine ['l'] .fv ⟨.none, 4, [4, 0]⟩))
    else if cycle < 40 then some .next else none
  aw := true
  w := true
  ar := true
  bready := true
  rready := true

theorem synthesizer_plays_concertPitch :
    Tone SincosLut.risingTable
      ⟨SignalGen.resetState SignalGen.blankLut, ⟨0, 0, false⟩⟩
      (converted (fun cycle =>
        (LiaRp.stateAt (fun _ => 0) blankCore concertPitch cycle).core)
        (fun cycle => some cycle) (fun _ => true)) 440 53 := by
  refine synthesizer_plays _ _ (fun _ => 0) blankCore rfl rfl concertPitch ['l']
    ⟨.none, 4, [4, 0]⟩ (by decide) (by decide) (by decide) 40 ?_
    (fun cycle => some cycle) ?_ (fun _ => true) 50 50 rfl (by decide)
    (fun _ _ => rfl)
  · have hlines : linesAt (fun _ => 0) blankCore concertPitch 40 =
        [commandLine ['l'] .fv ⟨.none, 4, [4, 0]⟩] := by decide +kernel
    refine ⟨by decide +kernel, by decide +kernel, ?_, by decide +kernel, ?_,
      [], [], hlines, fun argv hargv => absurd hargv List.not_mem_nil⟩
    · intro cycle hcycle
      rw [concertPitch, if_neg (by omega), if_neg (by omega)]
    · intro argv hargv
      rw [hlines, List.mem_singleton] at hargv
      subst hargv
      rintro ⟨g, hg, hwrite, -⟩
      rw [accepted_frequency (by decide)] at hg
      obtain rfl := Option.some.inj hg
      exact absurd hwrite Bool.false_ne_true
  · intro early late first second hle hearly hlate
    obtain rfl := Option.some.inj hearly
    obtain rfl := Option.some.inj hlate
    exact hle

end Rfsoc.Synthesizer
