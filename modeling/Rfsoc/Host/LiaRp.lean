import Rfsoc.Axi.CfgBus
import Rfsoc.Core.Sessions
import Rfsoc.Host.RegisterValue

/-!
# Sessions of the lock-in amplifier

`lia_rp` is run once for each command line.  Its `main` writes the defaults of the
four settings when the first word of the configuration register is 0, and takes
this as the first access; the word is set to 1 after the settings only.  So a run
that is killed halfway through the defaults is made good by the next one, and
what the register holds otherwise is what the command lines have asked for.

The registers are read and written through `dev_read` and `dev_write`; what `-r`
prints and the status register, which `-o` prints until it is interrupted, change
nothing here.
-/

namespace Rfsoc.LiaRp

open Rfsoc.Atomic
open Rfsoc.BinaryFloat
open Rfsoc.CfgBus
open Rfsoc.CfgRegister
open Rfsoc.Numerals
open Rfsoc.ParseParam
open Rfsoc.RegisterValue (scaled)
open Rfsoc.Sessions

abbrev Main := Program (Access 32) Word

/-- The words of `cfg_0`. -/
def cfgSize : ℕ := 5

/-- `CFG_BASEADDR` -/
def cfgPtr : BitVec 32 := 0x40001000#32

/-- The page of the device; a word there has to be aligned. -/
def mapped (offset : BitVec 32) : Bool :=
  offset.toNat % 4 = 0 && offset.toNat < 4096

/-- An access elsewhere ends the process. -/
def devWrite (offset : BitVec 32) (value : Word) (rest : Main) : Main :=
  if mapped offset then
    .ask (.store (cfgPtr + offset) value 0b1111#4) fun _ => rest
  else .done

def devRead (offset : BitVec 32) (next : Word → Main) : Main :=
  if mapped offset then .ask (.load (cfgPtr + offset)) next else .done

/-- `CFG_RESET_GRAL_OFFSET` -/
def cfgResetGralOffset : BitVec 32 := 0x0#32

/-- The word of the register at an offset. -/
def wordAt (offset : BitVec 32) : ℕ := addressSlice cfgSize (cfgPtr + offset)

section Values

-- What the processor makes of a `float` that fits no `int`.
variable (undefined : Number → Word)

/-- The argument of `dev_write` from a `float`. -/
def fromFloat (fVal : Number) : Word :=
  match fVal.toInteger (-2 ^ 31) (2 ^ 31 - 1) with
  | some value => BitVec.ofInt 32 value
  | none => undefined fVal

def frequencyWord (value : Number) : Word := fromFloat undefined (scaled 8 value)

def xvalueWord (value : Number) : Word := fromFloat undefined (scaled 31 value)

def setFrequency (offset : BitVec 32) (value : Number) (rest : Main) : Main :=
  devWrite offset (frequencyWord undefined value) rest

def setKconstant (offset : BitVec 32) (value : Word) (rest : Main) : Main :=
  devWrite offset value rest

/-- The value is read back to be printed. -/
def setXvalue (offset : BitVec 32) (value : Number) (rest : Main) : Main :=
  devWrite offset (xvalueWord undefined value) <|
  devRead cfgXValueOffset fun _ => rest

/-- A constant of the source, a `double`, as a `float` parameter. -/
def floatOf (constant : ℚ) : Number :=
  binary32.convert (binary64.round constant)

def initSystem : Main :=
  devRead cfgResetGralOffset fun regVal =>
  devWrite cfgResetGralOffset (regVal &&& ~~~1#32) <|
  setFrequency undefined cfgFValueOffset (floatOf 10000) <|
  setKconstant cfgKpOffset 2097152#32 <|
  setKconstant cfgKiOffset 32#32 <|
  setXvalue undefined cfgXValueOffset (floatOf (999998994 / 1000000000)) <|
  devRead cfgResetGralOffset fun regVal =>
  devWrite cfgResetGralOffset (regVal ||| 1#32) .done

/-- A read beyond the register has no word to return and is left out. -/
def rdRegValue (nDev : ℕ) (regOff : BitVec 32) : Main :=
  if nDev = 1 ∧ wordAt regOff < cfgSize then devRead regOff fun _ => .done
  else .done

def wrRegValue (nDev : ℕ) (regOff : BitVec 32) (regVal : Word) : Main :=
  if nDev = 1 then devWrite regOff regVal .done else .done

def rdCfgStatus : Main :=
  devRead cfgKpOffset fun _ =>
  devRead cfgKiOffset fun _ =>
  devRead cfgXValueOffset fun _ =>
  devRead cfgFValueOffset fun _ => .done

/-- The branch of `fSetCfgReg`. -/
def setCfgReg (g : Globals) : Main :=
  if g.ffVal then
    setFrequency undefined g.regOff (binary32.convert (atof g.charRegValue)) .done
  else if g.fxVal then
    setXvalue undefined g.regOff (binary32.convert (atof g.charRegValue)) .done
  else wrRegValue 1 g.regOff (BitVec.ofInt 32 (atoi g.charRegValue))

/-- The branch of `fToFile` and `fToStdout`. -/
def enable : Main :=
  devRead cfgResetGralOffset fun regVal =>
  devWrite cfgResetGralOffset (regVal ||| 1#32) .done

def act (g : Globals) : Main :=
  if g.fReadReg then rdRegValue g.nDev g.regOff
  else if g.fWriteReg then wrRegValue g.nDev g.regOff g.regVal
  else if g.fSetCfgReg then setCfgReg undefined g
  else if g.fGetCfgStatus then rdCfgStatus
  else if g.fInitSystem then initSystem undefined
  else if g.fToFile || g.fToStdout then enable
  else .done

/-- From the check for the first access on. -/
def access (g : Globals) : Main :=
  devRead cfgResetGralOffset fun general =>
  (if general = 0 then initSystem undefined else .done).andThen (act undefined g)

/-- The globals of a command line that `parse_param` accepts. -/
def accepted (argv : List Text) : Option Globals :=
  match (parseParam argv blankGlobals).outcome with
  | .returned (_ + 1) => some (parseParam argv blankGlobals).globals
  | _ => none

def main (argv : List Text) : Main :=
  match accepted argv with
  | some g => access undefined g
  | none => .done

/-- The defaults of `init_system`, by their word. -/
def defaultWord (word : ℕ) : Word :=
  if word = 1 then 2097152#32
  else if word = 2 then 32#32
  else if word = 3 then
    xvalueWord undefined (floatOf (999998994 / 1000000000))
  else frequencyWord undefined (floatOf 10000)

/-- The value of `-s`. -/
def settingWord (g : Globals) : Word :=
  if g.ffVal then
    frequencyWord undefined (binary32.convert (atof g.charRegValue))
  else if g.fxVal then
    xvalueWord undefined (binary32.convert (atof g.charRegValue))
  else BitVec.ofInt 32 (atoi g.charRegValue)

/-- What an accepted command line leaves in a word, if it writes it. -/
def leaves (g : Globals) (word : ℕ) : Option Word :=
  if g.fReadReg then none
  else if g.fWriteReg then
    if g.nDev = 1 ∧ mapped g.regOff ∧ wordAt g.regOff = word then some g.regVal
    else none
  else if g.fSetCfgReg then
    if mapped g.regOff ∧ wordAt g.regOff = word then some (settingWord undefined g)
    else none
  else if g.fGetCfgStatus then none
  else if g.fInitSystem then some (defaultWord undefined word)
  else none

/-- What a command line asks for, accepted or not. -/
def asks (argv : List Text) (word : ℕ) : Option Word :=
  (accepted argv).bind fun g => leaves undefined g word

/-- A value that the defaults or a command line have put into a word. -/
def Asked (lines : List (List Text)) (word : ℕ) (value : Word) : Prop :=
  value = defaultWord undefined word ∨
    ∃ argv ∈ lines, asks undefined argv word = some value

/-- Every setting is one that has been asked for. -/
def Ready (lines : List (List Text)) (words : ℕ → Word) : Prop :=
  ∀ word, 1 ≤ word → word ≤ 4 → Asked undefined lines word (words word)

/-- With the first word set, the settings are ready. -/
def Sound (lines : List (List Text)) (words : ℕ → Word) : Prop :=
  words 0 ≠ 0 → Ready undefined lines words

/-- `-w` and `-s` on the first word. -/
def WritesGeneral (g : Globals) : Prop :=
  mapped g.regOff = true ∧ wordAt g.regOff = 0 ∧
    (g.fWriteReg = true ∧ g.nDev = 1 ∨ g.fWriteReg = false ∧ g.fSetCfgReg = true)

/-- What the branches of `main` make of the words. -/
structure Effect (g : Globals) (words words' : ℕ → Word) : Prop where
  settings : ∀ word, 1 ≤ word → word ≤ 4 →
    words' word = (leaves undefined g word).getD (words word)
  general : ¬ WritesGeneral g → words' 0 = words 0 ∨ words' 0 = words 0 ||| 1#32

end Values

section Devices

variable {crash post : (ℕ → Word) → Prop} {words : ℕ → Word}
  {offset : BitVec 32}

theorem wordAt_general : wordAt cfgResetGralOffset = 0 := by decide +kernel

theorem wordAt_kp : wordAt cfgKpOffset = 1 := by decide +kernel

theorem wordAt_ki : wordAt cfgKiOffset = 2 := by decide +kernel

theorem wordAt_xValue : wordAt cfgXValueOffset = 3 := by decide +kernel

theorem wordAt_fValue : wordAt cfgFValueOffset = 4 := by decide +kernel

theorem perform_store (value : Word) :
    (Access.store (cfgPtr + offset) value 0b1111#4).perform cfgSize words =
      Function.update words (wordAt offset) value := by
  rw [Access.perform, merge_word]
  rfl

/-- The triple of a write: it is done or ends the process. -/
theorem keeps_devWrite {value : Word} {rest : Main} (hcrash : crash words)
    (hrest : mapped offset = true → rest.Keeps (memory cfgSize 32) crash post
      (Function.update words (wordAt offset) value))
    (hfault : mapped offset = false → post words) :
    (devWrite offset value rest).Keeps (memory cfgSize 32) crash post words := by
  cases hmapped : mapped offset with
  | false =>
      rw [devWrite, hmapped, if_neg Bool.false_ne_true]
      exact ⟨hcrash, hfault hmapped⟩
  | true =>
      have hkeeps := hrest hmapped
      rw [← perform_store] at hkeeps
      rw [devWrite, hmapped, if_pos rfl]
      exact ⟨hcrash, hkeeps⟩

theorem keeps_done (hcrash : post words → crash words) (hpost : post words) :
    (Program.done : Main).Keeps (memory cfgSize 32) crash post words :=
  ⟨hcrash hpost, hpost⟩

theorem keeps_devRead {next : Word → Main} (hcrash : crash words)
    (hnext : mapped offset = true →
      (next (words (wordAt offset))).Keeps (memory cfgSize 32) crash post words)
    (hfault : mapped offset = false → post words) :
    (devRead offset next).Keeps (memory cfgSize 32) crash post words := by
  cases hmapped : mapped offset with
  | false =>
      rw [devRead, hmapped, if_neg Bool.false_ne_true]
      exact ⟨hcrash, hfault hmapped⟩
  | true =>
      rw [devRead, hmapped, if_pos rfl]
      exact ⟨hcrash, hnext hmapped⟩

/-- The offsets of the five registers are in the page. -/
theorem keeps_write {value : Word} {rest : Main} {word : ℕ}
    (hmapped : mapped offset = true) (hword : wordAt offset = word)
    (hcrash : crash words)
    (hrest : rest.Keeps (memory cfgSize 32) crash post
      (Function.update words word value)) :
    (devWrite offset value rest).Keeps (memory cfgSize 32) crash post words := by
  subst hword
  apply keeps_devWrite hcrash (fun _ => hrest)
  intro hfault
  exact absurd (hmapped.symm.trans hfault) Bool.false_ne_true.symm

theorem keeps_read {next : Word → Main} {word : ℕ}
    (hmapped : mapped offset = true) (hword : wordAt offset = word)
    (hcrash : crash words)
    (hnext : (next (words word)).Keeps (memory cfgSize 32) crash post words) :
    (devRead offset next).Keeps (memory cfgSize 32) crash post words := by
  subst hword
  apply keeps_devRead hcrash (fun _ => hnext)
  intro hfault
  exact absurd (hmapped.symm.trans hfault) Bool.false_ne_true.symm

end Devices

/-! ## What a killed run leaves -/

section Sound

variable {undefined : Number → Word} {lines : List (List Text)}
  {words : ℕ → Word}

theorem Ready.sound (hready : Ready undefined lines words) :
    Sound undefined lines words :=
  fun _ => hready

theorem Ready.store {word : ℕ} {value : Word}
    (hready : Ready undefined lines words)
    (hasked : 1 ≤ word → word ≤ 4 → Asked undefined lines word value) :
    Ready undefined lines (Function.update words word value) := by
  intro other hlow hhigh
  by_cases hhere : other = word
  · subst hhere
    rw [Function.update_self]
    exact hasked hlow hhigh
  · rw [Function.update_of_ne hhere]
    exact hready other hlow hhigh

/-- A setting may be stored at any time. -/
theorem Sound.setting {word : ℕ} {value : Word}
    (hsound : Sound undefined lines words) (hword : 1 ≤ word)
    (hasked : Asked undefined lines word value) :
    Sound undefined lines (Function.update words word value) := by
  intro hset
  rw [Function.update_of_ne (by omega)] at hset
  exact (hsound hset).store fun _ _ => hasked

/-- The first word may be cleared at any time. -/
theorem Sound.clear {value : Word} (hsound : Sound undefined lines words)
    (hclear : value ≠ 0 → words 0 ≠ 0) :
    Sound undefined lines (Function.update words 0 value) := by
  intro hset
  rw [Function.update_self] at hset
  exact (hsound (hclear hset)).store fun hlow => absurd hlow (by omega)

theorem Sound.more (hsound : Sound undefined lines words) (argv : List Text) :
    Sound undefined (lines ++ [argv]) words := by
  intro hset word hlow hhigh
  rcases hsound hset word hlow hhigh with hdefault | ⟨line, hline, hasks⟩
  · exact Or.inl hdefault
  · exact Or.inr ⟨line, List.mem_append_left _ hline, hasks⟩

/-- What the defaults make of the words. -/
structure Initialised (undefined : Number → Word) (words words' : ℕ → Word) :
    Prop where
  settings : ∀ word, 1 ≤ word → word ≤ 4 →
    words' word = defaultWord undefined word
  general : words' 0 = words 0 ||| 1#32

theorem Initialised.sound {words' : ℕ → Word}
    (hpost : Initialised undefined words words') :
    Sound undefined lines words' :=
  fun _ word hlow hhigh => Or.inl (hpost.settings word hlow hhigh)

theorem or_of_clear (general : Word) :
    (general &&& ~~~1#32) ||| 1#32 = general ||| 1#32 := by
  apply BitVec.eq_of_getLsbD_eq
  intro k hk
  rw [BitVec.getLsbD_or, BitVec.getLsbD_and, BitVec.getLsbD_not,
    BitVec.getLsbD_or, decide_eq_true hk]
  cases (1#32).getLsbD k <;> simp

/-- The first word is cleared before the settings are written and set after
them. -/
theorem keeps_initSystem (hsound : Sound undefined lines words) :
    (initSystem undefined).Keeps (memory cfgSize 32) (Sound undefined lines)
      (Initialised undefined words) words := by
  have hclear : Sound undefined lines
      (Function.update words 0 (words 0 &&& ~~~1#32)) := by
    apply hsound.clear
    intro hset hzero
    rw [hzero] at hset
    exact hset BitVec.zero_and
  have hfrequency := hclear.setting (show 1 ≤ 4 by decide)
    (Or.inl rfl : Asked undefined lines 4
      (frequencyWord undefined (floatOf 10000)))
  have hkp := hfrequency.setting (show 1 ≤ 1 by decide)
    (Or.inl rfl : Asked undefined lines 1 2097152#32)
  have hki := hkp.setting (show 1 ≤ 2 by decide)
    (Or.inl rfl : Asked undefined lines 2 32#32)
  have hxvalue := hki.setting (show 1 ≤ 3 by decide)
    (Or.inl rfl : Asked undefined lines 3
      (xvalueWord undefined (floatOf (999998994 / 1000000000))))
  apply keeps_read rfl wordAt_general hsound
  apply keeps_write rfl wordAt_general hsound
  apply keeps_write rfl wordAt_fValue hclear
  apply keeps_write rfl wordAt_kp hfrequency
  apply keeps_write rfl wordAt_ki hkp
  apply keeps_write rfl wordAt_xValue hki
  apply keeps_read rfl wordAt_xValue hxvalue
  apply keeps_read rfl wordAt_general hxvalue
  apply keeps_write rfl wordAt_general hxvalue
  apply keeps_done Initialised.sound
  constructor
  · intro word hlow hhigh
    obtain rfl | rfl | rfl | rfl : word = 1 ∨ word = 2 ∨ word = 3 ∨ word = 4 := by
      omega
    all_goals rfl
  · exact or_of_clear (words 0)

end Sound

section Branches

variable {undefined : Number → Word} {lines : List (List Text)}
  {words : ℕ → Word} {g : Globals}

/-- A branch that writes nothing. -/
theorem Effect.quiet (hleaves : ∀ word, leaves undefined g word = none) :
    Effect undefined g words words := by
  refine ⟨fun word _ _ => ?_, fun _ => Or.inl rfl⟩
  rw [hleaves word]
  rfl

/-- A branch that writes one register. -/
theorem keeps_leaves {value : Word} {rest : Main}
    (hwrites : g.fWriteReg = true ∧ g.nDev = 1 ∨
      g.fWriteReg = false ∧ g.fSetCfgReg = true)
    (hleaves : ∀ word, leaves undefined g word =
      if mapped g.regOff ∧ wordAt g.regOff = word then some value else none)
    (hready : Ready undefined lines words)
    (hasks : ∀ word value, leaves undefined g word = some value →
      Asked undefined lines word value)
    (hrest : ∀ words', Ready undefined lines words' →
      Effect undefined g words words' →
        rest.Keeps (memory cfgSize 32) (Sound undefined lines)
          (Effect undefined g words) words') :
    (devWrite g.regOff value rest).Keeps (memory cfgSize 32)
      (Sound undefined lines) (Effect undefined g words) words := by
  apply keeps_devWrite hready.sound
  · intro hmapped
    apply hrest
    · apply hready.store
      intro _ _
      apply hasks
      rw [hleaves, if_pos ⟨hmapped, rfl⟩]
    · constructor
      · intro word _ _
        rw [hleaves]
        by_cases hhere : wordAt g.regOff = word
        · rw [if_pos ⟨hmapped, hhere⟩, ← hhere, Function.update_self]
          rfl
        · rw [if_neg fun hboth => hhere hboth.2,
            Function.update_of_ne (Ne.symm hhere)]
          rfl
      · intro hgeneral
        have hword : wordAt g.regOff ≠ 0 :=
          fun hzero => hgeneral ⟨hmapped, hzero, hwrites⟩
        exact Or.inl (Function.update_of_ne (Ne.symm hword) _ _)
  · intro hfault
    apply Effect.quiet
    intro word
    rw [hleaves, if_neg]
    rintro ⟨hmapped, -⟩
    exact absurd (hmapped.symm.trans hfault) Bool.false_ne_true.symm

section Act

theorem Ready.keeps {words' : ℕ → Word} (hready : Ready undefined lines words')
    (heffect : Effect undefined g words words') :
    (Program.done : Main).Keeps (memory cfgSize 32) (Sound undefined lines)
      (Effect undefined g words) words' :=
  ⟨hready.sound, heffect⟩

variable (hready : Ready undefined lines words)
include hready

theorem keeps_rdRegValue (hquiet : Effect undefined g words words) :
    (rdRegValue g.nDev g.regOff).Keeps (memory cfgSize 32)
      (Sound undefined lines) (Effect undefined g words) words := by
  rw [rdRegValue]
  split_ifs
  · apply keeps_devRead hready.sound
    · exact fun _ => hready.keeps hquiet
    · exact fun _ => hquiet
  · exact hready.keeps hquiet

theorem keeps_rdCfgStatus (hquiet : Effect undefined g words words) :
    rdCfgStatus.Keeps (memory cfgSize 32) (Sound undefined lines)
      (Effect undefined g words) words := by
  apply keeps_read rfl wordAt_kp hready.sound
  apply keeps_read rfl wordAt_ki hready.sound
  apply keeps_read rfl wordAt_xValue hready.sound
  apply keeps_read rfl wordAt_fValue hready.sound
  exact hready.keeps hquiet

theorem keeps_enable (hnone : ∀ word, leaves undefined g word = none) :
    enable.Keeps (memory cfgSize 32) (Sound undefined lines)
      (Effect undefined g words) words := by
  apply keeps_read rfl wordAt_general hready.sound
  apply keeps_write rfl wordAt_general hready.sound
  apply Ready.keeps
  · exact hready.store fun hlow => absurd hlow (by omega)
  · refine ⟨fun word hlow hhigh => ?_, fun _ => Or.inr rfl⟩
    rw [hnone, Function.update_of_ne (by omega)]
    rfl

/-- The defaults are what `-i` leaves. -/
theorem keeps_init (hleaves : ∀ word, leaves undefined g word =
      if g.fInitSystem then some (defaultWord undefined word) else none)
    (hinit : g.fInitSystem = true) :
    (initSystem undefined).Keeps (memory cfgSize 32) (Sound undefined lines)
      (Effect undefined g words) words := by
  apply (keeps_initSystem hready.sound).mono
  intro words' hinitialised
  refine ⟨fun word hlow hhigh => ?_, fun _ => Or.inr hinitialised.general⟩
  rw [hinitialised.settings word hlow hhigh, hleaves, if_pos hinit]
  rfl

variable (hasks : ∀ word value, leaves undefined g word = some value →
  Asked undefined lines word value)
include hasks

theorem keeps_wrRegValue (hread : g.fReadReg = false)
    (hwrite : g.fWriteReg = true) :
    (wrRegValue g.nDev g.regOff g.regVal).Keeps (memory cfgSize 32)
      (Sound undefined lines) (Effect undefined g words) words := by
  rw [wrRegValue]
  split_ifs with hdevice
  · apply keeps_leaves (Or.inl ⟨hwrite, hdevice⟩) _ hready hasks
      fun _ => Ready.keeps
    intro word
    simp [leaves, hread, hwrite, hdevice]
  · apply hready.keeps
    apply Effect.quiet
    intro word
    simp [leaves, hread, hwrite, hdevice]

theorem keeps_setCfgReg (hread : g.fReadReg = false)
    (hwrite : g.fWriteReg = false) (hset : g.fSetCfgReg = true) :
    (setCfgReg undefined g).Keeps (memory cfgSize 32) (Sound undefined lines)
      (Effect undefined g words) words := by
  have hleaves : ∀ word, leaves undefined g word =
      if mapped g.regOff ∧ wordAt g.regOff = word then
        some (settingWord undefined g) else none := by
    intro word
    simp [leaves, hread, hwrite, hset]
  have hwrites : g.fWriteReg = true ∧ g.nDev = 1 ∨
      g.fWriteReg = false ∧ g.fSetCfgReg = true := Or.inr ⟨hwrite, hset⟩
  rw [setCfgReg]
  split_ifs with hfrequency hxvalue
  · apply keeps_leaves hwrites _ hready hasks fun _ => Ready.keeps
    simpa [settingWord, hfrequency] using hleaves
  · apply keeps_leaves hwrites _ hready hasks
    · intro words' hready' heffect
      exact keeps_read rfl wordAt_xValue hready'.sound
        (hready'.keeps heffect)
    · simpa [settingWord, hfrequency, hxvalue] using hleaves
  · rw [wrRegValue, if_pos rfl]
    apply keeps_leaves hwrites _ hready hasks fun _ => Ready.keeps
    simpa [settingWord, hfrequency, hxvalue] using hleaves

/-- With the settings ready, every branch of `main` keeps them so. -/
theorem keeps_act :
    (act undefined g).Keeps (memory cfgSize 32) (Sound undefined lines)
      (Effect undefined g words) words := by
  rw [act]
  split_ifs with hread hwrite hset hstatus hinit hfile
  · apply keeps_rdRegValue hready
    exact Effect.quiet fun word => by simp [leaves, hread]
  · exact keeps_wrRegValue hready hasks (Bool.not_eq_true _ ▸ hread) hwrite
  · exact keeps_setCfgReg hready hasks (Bool.not_eq_true _ ▸ hread)
      (Bool.not_eq_true _ ▸ hwrite) hset
  · apply keeps_rdCfgStatus hready
    exact Effect.quiet fun word => by simp [leaves, hread, hwrite, hset, hstatus]
  · refine keeps_init hready (fun word => ?_) hinit
    simp [leaves, hread, hwrite, hset, hstatus, hinit]
  · apply keeps_enable hready
    intro word
    simp [leaves, hread, hwrite, hset, hstatus, hinit]
  · apply hready.keeps
    apply Effect.quiet
    intro word
    simp [leaves, hread, hwrite, hset, hstatus, hinit]

end Act

/-- What an accepted command line makes of the words. -/
structure Accessed (undefined : Number → Word) (g : Globals)
    (words words' : ℕ → Word) : Prop where
  settings : ∀ word, 1 ≤ word → word ≤ 4 →
    words' word = (leaves undefined g word).getD
      (if words 0 = 0 then defaultWord undefined word else words word)
  general : ¬ WritesGeneral g → words 0 = 0 ∨ words 0 = 1#32 → words' 0 = 1#32

theorem keeps_access (hsound : Sound undefined lines words)
    (hasks : ∀ word value, leaves undefined g word = some value →
      Asked undefined lines word value) :
    (access undefined g).Keeps (memory cfgSize 32) (Sound undefined lines)
      (Accessed undefined g words) words := by
  apply keeps_read rfl wordAt_general hsound
  by_cases hfirst : words 0 = 0
  · rw [if_pos hfirst]
    apply (keeps_initSystem hsound).andThen
    intro words₁ hinitialised
    have hready : Ready undefined lines words₁ :=
      fun word hlow hhigh => Or.inl (hinitialised.settings word hlow hhigh)
    apply (keeps_act hready hasks).mono
    intro words' heffect
    have hone : words₁ 0 = 1#32 := by
      rw [hinitialised.general, hfirst]
      exact BitVec.zero_or
    constructor
    · intro word hlow hhigh
      rw [heffect.settings word hlow hhigh, if_pos hfirst,
        hinitialised.settings word hlow hhigh]
    · intro hgeneral _
      rcases heffect.general hgeneral with hsame | hset
      · rw [hsame, hone]
      · rw [hset, hone]
        exact BitVec.or_self
  · rw [if_neg hfirst]
    apply (keeps_act (hsound hfirst) hasks).mono
    intro words' heffect
    constructor
    · intro word hlow hhigh
      rw [heffect.settings word hlow hhigh, if_neg hfirst]
    · intro hgeneral hbefore
      have hone := hbefore.resolve_left hfirst
      rcases heffect.general hgeneral with hsame | hset
      · rw [hsame, hone]
      · rw [hset, hone]
        exact BitVec.or_self

/-- A command line keeps the settings sound, wherever it is killed. -/
theorem keeps_main (argv : List Text) (hsound : Sound undefined lines words) :
    (main undefined argv).Keeps (memory cfgSize 32)
      (Sound undefined (lines ++ [argv]))
      (fun words' => ∀ g, accepted argv = some g →
        Accessed undefined g words words') words := by
  have hmore := hsound.more argv
  cases haccepted : accepted argv with
  | none =>
      rw [main, haccepted]
      exact ⟨hmore, fun g hg => by cases hg⟩
  | some g =>
      rw [main, haccepted]
      have hasks : ∀ word value, leaves undefined g word = some value →
          Asked undefined (lines ++ [argv]) word value := by
        intro word value hleaves
        refine Or.inr ⟨argv, List.mem_append_right _ (List.mem_singleton_self _), ?_⟩
        rw [asks, haccepted]
        exact hleaves
      apply (keeps_access hmore hasks).mono
      intro words' haccessed g' hg'
      obtain rfl := Option.some.inj hg'
      exact haccessed

end Branches

section Parsed

/-- What holds of the globals of every run that is accepted. -/
def Sat (property : Globals → Prop) (run : Run) : Prop :=
  ∀ value, run.outcome = .returned (value + 1) → property run.globals

/-- The register of `-s` is one of the four settings. -/
def SetsSetting (g : Globals) : Prop :=
  g.fSetCfgReg = true → wordAt g.regOff ≠ 0

variable {argv : List Text} {g : Globals} {property : Globals → Prop}

theorem sat_returned (hproperty : property g) : Sat property (returned 1 g) :=
  fun _ _ => hproperty

theorem sat_refused : Sat property (returned 0 g) :=
  fun _ haccepted => by cases haccepted

theorem sat_exited (message : Message) :
    Sat property (fails message (.exited 1) g) :=
  fun _ haccepted => by cases haccepted

theorem sat_argument {index : ℕ} {next : Text → Run}
    (hnext : ∀ text, Sat property (next text)) :
    Sat property (argument argv index g next) := by
  cases htext : argv[index]? with
  | none =>
      rw [argument, htext]
      exact fun _ haccepted => by cases haccepted
  | some text =>
      rw [argument_eq next htext]
      exact hnext text

theorem sat_device (hset : g.fSetCfgReg = false) :
    Sat SetsSetting (device argv g) := by
  have hvalue : ∀ g : Globals, g.fSetCfgReg = false →
      Sat SetsSetting (writeValue argv g) := by
    intro g hset
    have hwithout : ∀ g : Globals, g.fSetCfgReg = false → SetsSetting g :=
      fun g hset hsetting => absurd (hset.symm.trans hsetting) Bool.false_ne_true
    rw [writeValue]
    split
    · exact sat_argument fun text => sat_returned (hwithout _ hset)
    · exact sat_returned (hwithout g hset)
  apply sat_argument
  intro text
  rw [selectDevice]
  split
  · exact sat_argument fun text => hvalue _ hset
  split
  · exact sat_argument fun text => hvalue _ hset
  · exact sat_refused

theorem sat_registerValue (hword : wordAt g.regOff ≠ 0) :
    Sat SetsSetting (registerValue argv g) := by
  have hinteger : ∀ (word : Text) (setFlag : Globals → Globals)
      (next : Globals → Run) (g : Globals),
      (∀ g, (setFlag g).regOff = g.regOff) → wordAt g.regOff ≠ 0 →
      (∀ g : Globals, wordAt g.regOff ≠ 0 → Sat SetsSetting (next g)) →
      Sat SetsSetting (checkInteger word setFlag g next) := by
    intro word setFlag next g hflag hword hnext
    rw [checkInteger]
    split_ifs
    · exact sat_exited _
    · exact hnext _ (by rw [hflag]; exact hword)
    · exact hnext g hword
  have hfrequency : ∀ (next : Globals → Run) (g : Globals),
      wordAt g.regOff ≠ 0 →
      (∀ g : Globals, wordAt g.regOff ≠ 0 → Sat SetsSetting (next g)) →
      Sat SetsSetting (checkFrequency g next) := by
    intro next g hword hnext
    rw [checkFrequency]
    split_ifs
    · exact sat_exited _
    · exact hnext _ hword
    · exact hnext g hword
  apply sat_argument
  intro text
  rw [checkValue]
  refine hfrequency _ _ hword ?_
  intro g hword
  refine hinteger _ _ _ _ (fun _ => rfl) hword ?_
  intro g hword
  refine hinteger _ _ _ _ (fun _ => rfl) hword ?_
  intro g hword
  refine hinteger _ _ _ _ (fun _ => rfl) hword ?_
  intro g hword
  exact sat_returned fun _ => hword

theorem sat_setting : Sat SetsSetting (setting argv g) := by
  apply sat_argument
  intro text
  rw [selectRegister]
  split
  · exact sat_registerValue (by rw [wordAt_kp]; decide)
  split
  · exact sat_registerValue (by rw [wordAt_ki]; decide)
  split
  · exact sat_registerValue (by rw [wordAt_xValue]; decide)
  split
  · exact sat_registerValue (by rw [wordAt_fValue]; decide)
  · exact sat_refused

theorem sat_action (hread : g.fReadReg = false) (hwrite : g.fWriteReg = false)
    (hset : g.fSetCfgReg = false) : Sat SetsSetting (action argv g) := by
  have hwithout : ∀ g : Globals, g.fSetCfgReg = false → SetsSetting g :=
    fun g hset hsetting => absurd (hset.symm.trans hsetting) Bool.false_ne_true
  rw [action]
  split
  · rw [parameters_access (Bool.true_or _)]
    exact sat_device hset
  split
  · rw [parameters_access (Bool.or_true _)]
    exact sat_device hset
  split
  · exact sat_returned (hwithout _ hset)
  split
  · exact sat_refused
  split
  · rw [parameters_setting (by simp [hread, hwrite]) rfl]
    exact sat_setting
  split
  · exact sat_returned (hwithout _ hset)
  split
  · exact sat_returned (hwithout _ hset)
  · exact sat_refused

/-- Only `-w` writes the first word by its offset. -/
theorem wordAt_of_accepted (haccepted : accepted argv = some g)
    (hset : g.fSetCfgReg = true) : wordAt g.regOff ≠ 0 := by
  have hsat : Sat SetsSetting (parseParam argv blankGlobals) := by
    rw [parseParam]
    split
    · exact sat_refused
    · exact sat_argument fun text => sat_action rfl rfl rfl
  rw [accepted] at haccepted
  split at haccepted
  case h_1 value hvalue =>
    obtain rfl := Option.some.inj haccepted
    exact hsat value hvalue hset
  case h_2 => cases haccepted

end Parsed

section Loads

variable {undefined : Number → Word} {g : Globals}

theorem all_devWrite {offset : BitVec 32} {value : Word} {rest : Main}
    (hrest : rest.All (Access.InRange cfgSize)) :
    (devWrite offset value rest).All (Access.InRange cfgSize) := by
  rw [devWrite]
  split_ifs
  · exact ⟨trivial, fun _ => hrest⟩
  · trivial

theorem all_devRead {offset : BitVec 32} {next : Word → Main}
    (hoffset : wordAt offset < cfgSize)
    (hnext : ∀ word, (next word).All (Access.InRange cfgSize)) :
    (devRead offset next).All (Access.InRange cfgSize) := by
  rw [devRead]
  split_ifs
  · exact ⟨hoffset, hnext⟩
  · trivial

theorem all_initSystem :
    (initSystem undefined).All (Access.InRange cfgSize) := by
  apply all_devRead (by rw [wordAt_general]; decide)
  intro regVal
  apply all_devWrite
  apply all_devWrite
  apply all_devWrite
  apply all_devWrite
  apply all_devWrite
  apply all_devRead (by rw [wordAt_xValue]; decide)
  intro _
  apply all_devRead (by rw [wordAt_general]; decide)
  intro regVal
  exact all_devWrite trivial

theorem all_act : (act undefined g).All (Access.InRange cfgSize) := by
  have hwrite : ∀ nDev regOff regVal,
      (wrRegValue nDev regOff regVal).All (Access.InRange cfgSize) := by
    intro nDev regOff regVal
    rw [wrRegValue]
    split_ifs
    · exact all_devWrite trivial
    · trivial
  rw [act]
  split
  · rw [rdRegValue]
    split_ifs with hword
    · exact all_devRead hword.2 fun _ => trivial
    · trivial
  split
  · exact hwrite _ _ _
  split
  · rw [setCfgReg]
    split_ifs
    · exact all_devWrite trivial
    · apply all_devWrite
      exact all_devRead (by rw [wordAt_xValue]; decide) fun _ => trivial
    · exact hwrite _ _ _
  split
  · apply all_devRead (by rw [wordAt_kp]; decide)
    intro _
    apply all_devRead (by rw [wordAt_ki]; decide)
    intro _
    apply all_devRead (by rw [wordAt_xValue]; decide)
    intro _
    exact all_devRead (by rw [wordAt_fValue]; decide) fun _ => trivial
  split
  · exact all_initSystem
  split
  · apply all_devRead (by rw [wordAt_general]; decide)
    intro regVal
    exact all_devWrite trivial
  · trivial

theorem all_main (argv : List Text) :
    (main undefined argv).All (Access.InRange cfgSize) := by
  rw [main]
  split
  · apply all_devRead (by rw [wordAt_general]; decide)
    intro general
    apply Program.All.andThen _ all_act
    split_ifs
    · exact all_initSystem
    · trivial
  · trivial

end Loads

section Lines

variable (undefined : Number → Word)

/-- `-w` on the first word. -/
def WritesFirst (argv : List Text) : Prop :=
  ∃ g, accepted argv = some g ∧ g.fWriteReg = true ∧ g.nDev = 1 ∧
    mapped g.regOff = true ∧ wordAt g.regOff = 0

/-- What a word was last asked to hold, and its default before. -/
def lastAsked (lines : List (List Text)) (word : ℕ) : Word :=
  (lines.reverse.findSome? fun argv => asks undefined argv word).getD
    (defaultWord undefined word)

/-- The register after some command lines: as at the start when none of them was
accepted, and else set with what was asked for last. -/
structure Settled (lines : List (List Text)) (start words : ℕ → Word) :
    Prop where
  untouched : (∀ argv ∈ lines, accepted argv = none) →
    ∀ word < cfgSize, words word = start word
  first : (∃ argv ∈ lines, accepted argv ≠ none) → words 0 = 1#32
  settings : (∃ argv ∈ lines, accepted argv ≠ none) →
    ∀ word, 1 ≤ word → word ≤ 4 → words word = lastAsked undefined lines word

variable {undefined} {lines : List (List Text)} {argv : List Text}
  {start words : ℕ → Word}

theorem lastAsked_concat (word : ℕ) :
    lastAsked undefined (lines ++ [argv]) word =
      (asks undefined argv word).getD (lastAsked undefined lines word) := by
  rw [lastAsked, List.reverse_append, List.reverse_singleton,
    List.singleton_append, List.findSome?_cons]
  cases asks undefined argv word <;> rfl

theorem lastAsked_of_none (hnone : ∀ argv ∈ lines, accepted argv = none)
    (word : ℕ) : lastAsked undefined lines word = defaultWord undefined word := by
  have hfind : (lines.reverse.findSome? fun argv =>
      asks undefined argv word) = none := by
    rw [List.findSome?_eq_none_iff]
    intro argv hargv
    rw [asks, hnone argv (List.mem_reverse.mp hargv)]
    rfl
  rw [lastAsked, hfind]
  rfl

/-- What a command line asks for holds while the later ones do not ask. -/
theorem lastAsked_of_last {earlier later : List (List Text)} {word : ℕ}
    {value : Word} (hasks : asks undefined argv word = some value)
    (hlater : ∀ other ∈ later, asks undefined other word = none) :
    lastAsked undefined (earlier ++ argv :: later) word = value := by
  have hnone : (later.reverse.findSome? fun other =>
      asks undefined other word) = none := by
    rw [List.findSome?_eq_none_iff]
    exact fun other hother => hlater other (List.mem_reverse.mp hother)
  rw [lastAsked, List.reverse_append, List.reverse_cons, List.append_assoc,
    List.findSome?_append, hnone, Option.none_or, List.singleton_append,
    List.findSome?_cons, hasks]
  rfl

/-- Before an access the settings in force, or the defaults that it writes first,
are those asked for last. -/
theorem Settled.before (hsettled : Settled undefined lines start words)
    (hstart : start 0 = 0) {word : ℕ} (hlow : 1 ≤ word) (hhigh : word ≤ 4) :
    (words 0 = 0 ∨ words 0 = 1#32) ∧
      (if words 0 = 0 then defaultWord undefined word else words word) =
        lastAsked undefined lines word := by
  by_cases hnone : ∀ argv ∈ lines, accepted argv = none
  · have hzero : words 0 = 0 := by
      rw [hsettled.untouched hnone 0 (by decide), hstart]
    rw [if_pos hzero, lastAsked_of_none hnone]
    exact ⟨Or.inl hzero, rfl⟩
  · push Not at hnone
    have hone := hsettled.first hnone
    rw [hsettled.settings hnone word hlow hhigh, hone, if_neg (by decide)]
    exact ⟨Or.inr rfl, rfl⟩

theorem Settled.concat (hsettled : Settled undefined lines start words)
    (hsound : Sound undefined lines words) (hstart : start 0 = 0)
    (hfirst : ¬ WritesFirst argv) :
    Settled undefined (lines ++ [argv]) start
      ((main undefined argv).run (memory cfgSize 32) words) := by
  cases haccepted : accepted argv with
  | none =>
      have hrun : (main undefined argv).run (memory cfgSize 32) words = words := by
        rw [main, haccepted]
        rfl
      have hmem : ∀ (hsome : ∃ other ∈ lines ++ [argv], accepted other ≠ none),
          ∃ other ∈ lines, accepted other ≠ none := by
        rintro ⟨other, hother, hsome⟩
        rcases List.mem_append.mp hother with hother | hother
        · exact ⟨other, hother, hsome⟩
        · rw [List.mem_singleton.mp hother] at hsome
          exact absurd haccepted hsome
      rw [hrun]
      refine ⟨fun hnone => hsettled.untouched fun other hother =>
        hnone other (List.mem_append_left _ hother),
        fun hsome => hsettled.first (hmem hsome), ?_⟩
      intro hsome word hlow hhigh
      rw [lastAsked_concat, asks, haccepted,
        hsettled.settings (hmem hsome) word hlow hhigh]
      rfl
  | some g =>
      have haccessed := (keeps_main argv hsound).run g haccepted
      refine ⟨fun hnone => ?_, fun _ => ?_, fun _ word hlow hhigh => ?_⟩
      · have hrefused := hnone argv
          (List.mem_append_right _ (List.mem_singleton_self _))
        exact absurd (haccepted.symm.trans hrefused) (Option.some_ne_none g)
      · apply haccessed.general
        · rintro ⟨hmapped, hword, ⟨hwrite, hdevice⟩ | ⟨-, hset⟩⟩
          · exact hfirst ⟨g, haccepted, hwrite, hdevice, hmapped, hword⟩
          · exact wordAt_of_accepted haccepted hset hword
        · exact (hsettled.before hstart le_rfl (show 1 ≤ 4 by decide)).1
      · rw [haccessed.settings word hlow hhigh,
          (hsettled.before hstart hlow hhigh).2, lastAsked_concat, asks, haccepted]
        rfl

theorem settled_foldl (hstart : start 0 = 0)
    (hfirst : ∀ argv ∈ lines, ¬ WritesFirst argv) :
    Settled undefined lines start (lines.foldl (fun words argv =>
      (main undefined argv).run (memory cfgSize 32) words) start) := by
  suffices hboth : Sound undefined lines (lines.foldl (fun words argv =>
        (main undefined argv).run (memory cfgSize 32) words) start) ∧
      Settled undefined lines start (lines.foldl (fun words argv =>
        (main undefined argv).run (memory cfgSize 32) words) start) from hboth.2
  induction lines using List.reverseRecOn with
  | nil =>
      refine ⟨fun hset => absurd hstart hset, fun _ _ _ => rfl, ?_, ?_⟩
      · rintro ⟨argv, hargv, -⟩
        exact absurd hargv List.not_mem_nil
      · rintro ⟨argv, hargv, -⟩
        exact absurd hargv List.not_mem_nil
  | append_singleton lines argv ih =>
      obtain ⟨hsound, hsettled⟩ := ih fun other hother =>
        hfirst other (List.mem_append_left _ hother)
      rw [List.foldl_append]
      exact ⟨(keeps_main argv hsound).closed.run,
        hsettled.concat hsound hstart
          (hfirst argv (List.mem_append_right _ (List.mem_singleton_self _)))⟩

end Lines

/-! ## On the bus -/

section Bus

variable (undefined : Number → Word) (core : CfgRegister.State cfgSize)
  (input : ℕ → Input (Choice (List Text)))

/-- The register with the sessions of the program on its bus. -/
def stateAt (cycle : ℕ) :
    CfgBus.State cfgSize 32 Main (Choice (List Text)) :=
  CfgBus.stateAt (sessions (main undefined)) core .done input cycle

def choicesAt (cycle : ℕ) : List (Choice (List Text)) :=
  committed (sessions (main undefined)) core .done input cycle

/-- The command lines that have been started. -/
def linesAt (cycle : ℕ) : List (List Text) :=
  started (main undefined) (memory cfgSize 32) (cfgWord core)
    (choicesAt undefined core input cycle)

/-- The register at a cycle. -/
structure Commanded (cycle : ℕ) : Prop where
  /-- Whatever was killed, with the first word set every setting has been asked
  for. -/
  asked : cfgWord (stateAt undefined core input cycle).core 0 ≠ 0 →
    ∀ word, 1 ≤ word → word ≤ 4 →
      Asked undefined (linesAt undefined core input cycle) word
        (cfgWord (stateAt undefined core input cycle).core word)
  /-- With no program running, none killed and no `-w` on the first word the
  settings are those asked for last. -/
  settled : .kill ∉ choicesAt undefined core input cycle →
    (∀ argv ∈ linesAt undefined core input cycle, ¬ WritesFirst argv) →
      (stateAt undefined core input cycle).master.program = .done →
        Settled undefined (linesAt undefined core input cycle) (cfgWord core)
          (cfgWord (stateAt undefined core input cycle).core)

variable {undefined core} in
theorem lia_busInv (hreset : core.resetS = false) (cycle : ℕ) :
    BusInv (sessions (main undefined)) (cfgWord core, .done)
      (choicesAt undefined core input cycle)
      (stateAt undefined core input cycle) := by
  apply busInv_stateAt input hreset
  intro choices choice access hact
  exact sessions_request all_main hact

variable {undefined core input} in
theorem settled_stateAt {cycle : ℕ} (hreset : core.resetS = false)
    (hblank : cfgWord core 0 = 0)
    (hkill : .kill ∉ choicesAt undefined core input cycle)
    (hfirst : ∀ argv ∈ linesAt undefined core input cycle, ¬ WritesFirst argv)
    (hdone : (stateAt undefined core input cycle).master.program = .done) :
    Settled undefined (linesAt undefined core input cycle) (cfgWord core)
      (cfgWord (stateAt undefined core input cycle).core) := by
  have hbus : BusInv (sessions (main undefined)) (cfgWord core, .done)
      (choicesAt undefined core input cycle)
      (stateAt undefined core input cycle) := lia_busInv input hreset cycle
  have hwords := hbus.words
  have hidle : settled (sessions (main undefined))
      (stateAt undefined core input cycle) = .done := by
    rcases settled_eq (sessions (main undefined))
        (stateAt undefined core input cycle) with hsettled | ⟨_, _, hsettled⟩
    · rw [hsettled, hdone]
    · rw [hsettled, hdone]
      rfl
  have hfold : Settled undefined (linesAt undefined core input cycle)
      (cfgWord core) ((linesAt undefined core input cycle).foldl
        (fun words argv => (main undefined argv).run (memory cfgSize 32) words)
        (cfgWord core)) := settled_foldl hblank hfirst
  rw [linesAt, ← run_sessions _ hkill, ← hbus.program, hidle] at hfold
  refine ⟨fun hnone word hword => ?_, fun hsome => ?_,
    fun hsome word hlow hhigh => ?_⟩
  · rw [hwords word hword]
    exact hfold.untouched hnone word hword
  · rw [hwords 0 (by decide)]
    exact hfold.first hsome
  · rw [hwords word (hhigh.trans_lt (by decide))]
    exact hfold.settings hsome word hlow hhigh

end Bus

/-- Whatever command lines are run, killed and run again, on whatever bus, the
settings in force have been asked for, and without kills they are the last. -/
theorem liaRp_commanded (undefined : Number → Word)
    (core : CfgRegister.State cfgSize) (hreset : core.resetS = false)
    (hblank : cfgWord core 0 = 0) (input : ℕ → Input (Choice (List Text)))
    (cycle : ℕ) : Commanded undefined core input cycle := by
  refine ⟨?_, settled_stateAt hreset hblank⟩
  have hbus : BusInv (sessions (main undefined)) (cfgWord core, .done)
      (choicesAt undefined core input cycle)
      (stateAt undefined core input cycle) := lia_busInv input hreset cycle
  have hwords := hbus.words
  have hsound : Sound undefined (linesAt undefined core input cycle)
      ((sessions (main undefined)).after (memory cfgSize 32)
        (cfgWord core, .done) (choicesAt undefined core input cycle)).1 := by
    have hstart : Sound undefined [] (cfgWord core) :=
      fun hset => absurd hblank hset
    exact sessions_keep hstart
      (fun lines argv words hsound => (keeps_main argv hsound).closed) _
  intro hset word hlow hhigh
  rw [hwords 0 (by decide)] at hset
  rw [hwords word (hhigh.trans_lt (by decide))]
  exact hsound hset word hlow hhigh

/-- A register after power-up. -/
def blankCore : CfgRegister.State cfgSize where
  resetS := false
  intBvalidReg := false
  intRvalidReg := false
  intRdataReg := 0
  intDataWire := 0

/-- `lia_rp -s kp 7`, killed after it has set the second default, and then
`lia_rp -s ki 9`. -/
def killedRun (cycle : ℕ) : Input (Choice (List Text)) where
  choice := some (Clocked.phased
    [(1, .start [['l'], ['-', 's'], ['k', 'p'], ['7']]), (20, .next), (1, .kill),
      (1, .start [['l'], ['-', 's'], ['k', 'i'], ['9']])] .next cycle)
  aw := true
  w := true
  ar := true
  bready := true
  rready := cycle % 2 = 0

/-- The second line finds the first word blank, and sets all defaults before it
sets its own register. -/
theorem liaRp_commanded_killedRun :
    Commanded (fun _ => 0) blankCore killedRun 90 ∧
      linesAt (fun _ => 0) blankCore killedRun 90 =
        [[['l'], ['-', 's'], ['k', 'p'], ['7']],
          [['l'], ['-', 's'], ['k', 'i'], ['9']]] ∧
      cfgWord (stateAt (fun _ => 0) blankCore killedRun 90).core 0 = 1#32 ∧
      cfgWord (stateAt (fun _ => 0) blankCore killedRun 90).core 2 = 9#32 :=
  ⟨liaRp_commanded (fun _ => 0) blankCore rfl rfl killedRun 90,
    by decide +kernel⟩

end Rfsoc.LiaRp
