import Rfsoc.Host.Numerals

/-!
# The command line of the lock-in amplifier

`parse_param` of `lia_rp.c` checks `argc` once, for the action, and then takes the
arguments its action needs; only the loop over options, which no action reaches,
looks before it takes one.  A run records the arguments whose characters it
reads, and ends where it needs one that is not there.
-/

namespace Rfsoc.ParseParam

open Rfsoc.Numerals

/-- `MAXCHRLEN` -/
def maxchrlen : ℕ := 1024

/-- The globals `parse_param` works on. -/
structure Globals where
  fReadReg : Bool
  fWriteReg : Bool
  fGetCfgStatus : Bool
  fInitSystem : Bool
  fSetCfgReg : Bool
  fToFile : Bool
  fToStdout : Bool
  fFile : Bool
  fCount : Bool
  fByte : Bool
  fshowversion : Bool
  fxVal : Bool
  fkpVal : Bool
  fkiVal : Bool
  ffVal : Bool
  nDev : ℕ
  regOff : BitVec 32
  regVal : BitVec 32
  charAction : Text
  charReg : Text
  charRegValue : Text
  charFile : Text
  scRegister : Text

inductive Message where
  /-- `"Error: maximum frequency is 8.4 MHz\n"` -/
  | maximumFrequency
  /-- `"Error: maximum value is 2^31\n"` -/
  | maximumValue
  /-- `"Error: No byte value provided\n"` -/
  | noByteValue
  /-- `"Error: No filename provided\n"` -/
  | noFilename

/-- How a run ends; `missing` is a read of an argument that does not exist. -/
inductive Outcome where
  | returned (value : ℕ)
  | exited (status : ℕ)
  | missing (index : ℕ)

/-- A finished run: its end, the globals then, what it printed and the arguments
whose characters it read. -/
structure Run where
  outcome : Outcome
  globals : Globals
  printed : List Message
  reads : List ℕ

def returned (value : ℕ) (g : Globals) : Run := ⟨.returned value, g, [], []⟩

def fails (message : Message) (outcome : Outcome) (g : Globals) : Run :=
  ⟨outcome, g, [message], []⟩

/-- `StrcpyS`: a string is cut to the size of its destination. -/
def strcpyS (cchDst : ℕ) (szSrc : Text) : Text := szSrc.take (cchDst - 1)

/-- `strncmp(text, word, 2) == 0` for a word of two characters. -/
def beginsWith (word text : Text) : Bool := decide (text.take 2 = word)

section Argv

variable (argv : List Text)

/-- The rest of a run with `argv[index]`. -/
def argument (index : ℕ) (g : Globals) (next : Text → Run) : Run :=
  match argv[index]? with
  | some text => { next text with reads := index :: (next text).reads }
  | none => ⟨.missing index, g, [], [index]⟩

def initialFlags (g : Globals) : Globals :=
  { g with
    fReadReg := false
    fWriteReg := false
    fGetCfgStatus := false
    fSetCfgReg := false
    fToFile := false
    fToStdout := false
    fFile := false
    fCount := false
    fByte := false
    fxVal := false
    fkpVal := false
    fkiVal := false
    ffVal := false }

/-- The value of `-w`. -/
def writeValue (g : Globals) : Run :=
  if g.fWriteReg then
    argument argv 4 g fun text => returned 1 { g with regVal := strtoul text }
  else returned 1 g

/-- The offset of `-r` and `-w`. -/
def registerAccess (g : Globals) : Run :=
  argument argv 3 g fun text =>
    writeValue argv { g with regOff := strtoul text }

/-- The device of `-r` and `-w`, in `charReg`. -/
def selectDevice (g : Globals) : Run :=
  if g.charReg = ['c', 'f', 'g'] then registerAccess argv { g with nDev := 1 }
  else if g.charReg = ['s', 't', 's'] then
    registerAccess argv { g with nDev := 2 }
  else returned 0 g

/-- The branch of `-r` and `-w`. -/
def device (g : Globals) : Run :=
  argument argv 2 g fun text =>
    selectDevice argv { g with charReg := strcpyS maxchrlen text }

/-- `CFG_KP_OFFSET` and the others of the four registers. -/
def cfgKpOffset : BitVec 32 := 0x4#32

def cfgKiOffset : BitVec 32 := 0x8#32

def cfgXValueOffset : BitVec 32 := 0xC#32

def cfgFValueOffset : BitVec 32 := 0x10#32

/-- The test of `fv`. -/
def checkFrequency (g : Globals) (next : Globals → Run) : Run :=
  if beginsWith ['f', 'v'] g.charReg then
    if (atof g.charRegValue).exceeds 8400000 then
      fails .maximumFrequency (.exited 1) g
    else next { g with ffVal := true }
  else next g

/-- The test of `kp`, `ki` and `xv`, with the flag that it sets. -/
def checkInteger (word : Text) (setFlag : Globals → Globals) (g : Globals)
    (next : Globals → Run) : Run :=
  if beginsWith word g.charReg then
    if 2 ^ 31 < atoi g.charRegValue then
      fails .maximumValue (.exited 1) g
    else next (setFlag g)
  else next g

/-- The tests of the value in `charRegValue`. -/
def checkValue (g : Globals) : Run :=
  checkFrequency g fun g =>
  checkInteger ['k', 'p'] (fun g => { g with fkpVal := true }) g fun g =>
  checkInteger ['k', 'i'] (fun g => { g with fkiVal := true }) g fun g =>
  checkInteger ['x', 'v'] (fun g => { g with fxVal := true }) g fun g =>
  returned 1 g

/-- The value of `-s`. -/
def registerValue (g : Globals) : Run :=
  argument argv 3 g fun text =>
    checkValue { g with charRegValue := strcpyS 16 text }

/-- The register of `-s`, in `charReg`. -/
def selectRegister (g : Globals) : Run :=
  if g.charReg = ['k', 'p'] then
    registerValue argv { g with regOff := cfgKpOffset }
  else if g.charReg = ['k', 'i'] then
    registerValue argv { g with regOff := cfgKiOffset }
  else if g.charReg = ['x', 'v'] then
    registerValue argv { g with regOff := cfgXValueOffset }
  else if g.charReg = ['f', 'v'] then
    registerValue argv { g with regOff := cfgFValueOffset }
  else returned 0 g

/-- The branch of `-s`. -/
def setting (g : Globals) : Run :=
  argument argv 2 g fun text =>
    selectRegister argv { g with charReg := strcpyS maxchrlen text }

/-- The loop over options, from an argument on, and the checks after it. -/
def optionLoop (arg : ℕ) (g : Globals) : Run :=
  if hmore : arg < argv.length then
    argument argv arg g fun text =>
      if text = ['-', 'f'] then
        if argv.length ≤ arg + 1 then returned 0 g
        else
          argument argv (arg + 1) g fun file =>
            optionLoop (arg + 2)
              { g with
                charFile := strcpyS 16 file
                fFile := true }
      else returned 0 g
  else if g.fWriteReg && !g.fByte then fails .noByteValue (.returned 0) g
  else if g.fToFile && !g.fFile then fails .noFilename (.returned 0) g
  else returned 1 g
termination_by argv.length - arg

/-- The branch of no action. -/
def options (g : Globals) : Run :=
  argument argv 2 g fun text =>
    optionLoop argv 3 { g with scRegister := strcpyS maxchrlen text }

/-- What follows the action. -/
def parameters (g : Globals) : Run :=
  if g.fReadReg || g.fWriteReg then device argv g
  else if g.fSetCfgReg then setting argv g
  else options argv g

def action (g : Globals) : Run :=
  if g.charAction = ['-', 'r'] then parameters argv { g with fReadReg := true }
  else if g.charAction = ['-', 'w'] then
    parameters argv { g with fWriteReg := true }
  else if g.charAction = ['-', 'a'] then
    returned 1 { g with fGetCfgStatus := true }
  else if g.charAction = ['-', 'v'] then
    returned 0 { g with fshowversion := true }
  else if g.charAction = ['-', 's'] then
    parameters argv { g with fSetCfgReg := true }
  else if g.charAction = ['-', 'o'] then
    returned 1 { g with fToStdout := true }
  else if g.charAction = ['-', 'i'] then
    returned 1 { g with fInitSystem := true }
  else returned 0 g

/-- `parse_param`, with `argc` the length of the vector. -/
def parseParam (g : Globals) : Run :=
  if argv.length < 2 then returned 0 (initialFlags g)
  else
    argument argv 1 (initialFlags g) fun text =>
      action argv { initialFlags g with charAction := strcpyS maxchrlen text }

/-- A run reads the arguments that exist only. -/
def Given (run : Run) : Prop := ∀ index ∈ run.reads, index < argv.length

/-- An action without the arguments it needs. -/
def Incomplete : Prop :=
  ∃ action, argv[1]? = some action ∧
    ((action = ['-', 'r'] ∨ action = ['-', 's']) ∧ argv.length < 4 ∨
      action = ['-', 'w'] ∧ argv.length < 5)

/-- Every argument read exists, and an incomplete command line is refused. -/
structure ParsesSafely (g : Globals) : Prop where
  given : Given argv (parseParam argv g)
  refused : Incomplete argv → (parseParam argv g).outcome = .returned 0

def IsDevice (text : Text) : Prop :=
  text = ['c', 'f', 'g'] ∨ text = ['s', 't', 's']

def IsRegister (text : Text) : Prop :=
  text = ['k', 'p'] ∨ text = ['k', 'i'] ∨ text = ['x', 'v'] ∨ text = ['f', 'v']

/-- A second argument follows `-r`, `-w` and `-s`, and where it is a device or a
register that they know, the rest of their arguments follow it. -/
structure ArgumentsFollow : Prop where
  access : ∀ action, argv[1]? = some action →
    action = ['-', 'r'] ∨ action = ['-', 'w'] →
    ∃ name, argv[2]? = some name ∧ (IsDevice name →
      3 < argv.length ∧ (action = ['-', 'w'] → 4 < argv.length))
  setting : argv[1]? = some ['-', 's'] →
    ∃ name, argv[2]? = some name ∧ (IsRegister name → 3 < argv.length)

end Argv

section Given

variable {argv : List Text} {g : Globals}

theorem given_returned (value : ℕ) : Given argv (returned value g) :=
  fun _ hindex => absurd hindex List.not_mem_nil

theorem given_fails (message : Message) (outcome : Outcome) :
    Given argv (fails message outcome g) :=
  fun _ hindex => absurd hindex List.not_mem_nil

theorem argument_eq {index : ℕ} {text : Text} (next : Text → Run)
    (htext : argv[index]? = some text) :
    argument argv index g next =
      { next text with reads := index :: (next text).reads } := by
  rw [argument, htext]

/-- A part that begins with an argument needs it to be there. -/
theorem given_argument_iff (index : ℕ) (next : Text → Run) :
    Given argv (argument argv index g next) ↔
      ∃ text, argv[index]? = some text ∧ Given argv (next text) := by
  cases htext : argv[index]? with
  | none =>
      rw [argument, htext]
      have hbeyond := List.getElem?_eq_none_iff.mp htext
      constructor
      · intro hgiven
        exact absurd (hgiven index (List.mem_singleton_self index))
          (not_lt.mpr hbeyond)
      · rintro ⟨text, hnone, -⟩
        exact absurd hnone (Option.some_ne_none text).symm
  | some text =>
      have hwithin := (List.getElem?_eq_some_iff.mp htext).1
      rw [argument_eq next htext, Given, List.forall_mem_cons]
      constructor
      · exact fun hgiven => ⟨text, rfl, hgiven.2⟩
      · rintro ⟨other, hsame, hgiven⟩
        obtain rfl := Option.some.inj hsame
        exact ⟨hwithin, hgiven⟩

/-- What a part needs after an argument may not depend on it. -/
theorem given_then_iff {index : ℕ} {next : Text → Run} {more : Prop}
    (hnext : ∀ text, Given argv (next text) ↔ more) :
    Given argv (argument argv index g next) ↔ index < argv.length ∧ more := by
  rw [given_argument_iff]
  constructor
  · rintro ⟨text, htext, hgiven⟩
    exact ⟨(List.getElem?_eq_some_iff.mp htext).1, (hnext text).mp hgiven⟩
  · rintro ⟨hindex, hmore⟩
    exact ⟨argv[index], List.getElem?_eq_getElem hindex, (hnext _).mpr hmore⟩

theorem given_argument {index : ℕ} {next : Text → Run}
    (hindex : index < argv.length) (hnext : ∀ text, Given argv (next text)) :
    Given argv (argument argv index g next) :=
  (given_then_iff fun text => iff_of_true (hnext text) trivial).mpr
    ⟨hindex, trivial⟩

/-- A word that fits is copied as it is. -/
theorem strcpyS_eq_iff {word text : Text} (hword : word.length < maxchrlen - 1) :
    strcpyS maxchrlen text = word ↔ text = word := by
  rw [strcpyS]
  constructor
  · intro hcut
    have hlength := congrArg List.length hcut
    rw [List.length_take] at hlength
    rwa [List.take_of_length_le (by omega)] at hcut
  · rintro rfl
    exact List.take_of_length_le hword.le

theorem given_writeValue_iff : Given argv (writeValue argv g) ↔
    (g.fWriteReg = true → 4 < argv.length) := by
  rw [writeValue]
  cases g.fWriteReg with
  | false => exact iff_of_true (given_returned 1) fun hset => nomatch hset
  | true =>
      rw [if_pos rfl, forall_prop_of_true rfl, ← and_true (4 < argv.length)]
      exact given_then_iff fun _ => iff_of_true (given_returned 1) trivial

theorem given_registerAccess_iff : Given argv (registerAccess argv g) ↔
    3 < argv.length ∧ (g.fWriteReg = true → 4 < argv.length) :=
  given_then_iff fun _ => given_writeValue_iff

/-- A test of the value reads no argument. -/
theorem given_test {register refused : Prop} [Decidable register]
    [Decidable refused] {fail pass other : Run} (hfail : Given argv fail)
    (hpass : Given argv pass) (hother : Given argv other) :
    Given argv
      (if register then if refused then fail else pass else other) := by
  split
  case isTrue =>
    split
    case isTrue => exact hfail
    case isFalse => exact hpass
  case isFalse => exact hother

theorem given_checkFrequency {next : Globals → Run}
    (hnext : ∀ g, Given argv (next g)) :
    Given argv (checkFrequency g next) :=
  given_test (given_fails _ _) (hnext _) (hnext g)

theorem given_checkInteger (word : Text) (setFlag : Globals → Globals)
    {next : Globals → Run} (hnext : ∀ g, Given argv (next g)) :
    Given argv (checkInteger word setFlag g next) :=
  given_test (given_fails _ _) (hnext _) (hnext g)

theorem given_checkValue : Given argv (checkValue g) := by
  apply given_checkFrequency
  intro g
  apply given_checkInteger
  intro g
  apply given_checkInteger
  intro g
  apply given_checkInteger
  exact fun g => given_returned 1

theorem given_registerValue_iff :
    Given argv (registerValue argv g) ↔ 3 < argv.length := by
  rw [← and_true (3 < argv.length)]
  exact given_then_iff fun _ => iff_of_true given_checkValue trivial

/-- For a name that is known, the part that it selects decides. -/
theorem given_iff_of_known {run : Run} {known more : Prop} (hknown : known)
    (hrun : Given argv run ↔ more) : Given argv run ↔ (known → more) :=
  hrun.trans (imp_iff_right hknown).symm

theorem given_selectDevice_iff : Given argv (selectDevice argv g) ↔
    (IsDevice g.charReg →
      3 < argv.length ∧ (g.fWriteReg = true → 4 < argv.length)) := by
  rw [selectDevice]
  by_cases hcfg : g.charReg = ['c', 'f', 'g']
  · rw [if_pos hcfg]
    exact given_iff_of_known (Or.inl hcfg) given_registerAccess_iff
  · rw [if_neg hcfg]
    by_cases hsts : g.charReg = ['s', 't', 's']
    · rw [if_pos hsts]
      exact given_iff_of_known (Or.inr hsts) given_registerAccess_iff
    · rw [if_neg hsts]
      exact iff_of_true (given_returned 0) fun hdevice =>
        (hdevice.elim hcfg hsts).elim

theorem given_selectRegister_iff : Given argv (selectRegister argv g) ↔
    (IsRegister g.charReg → 3 < argv.length) := by
  rw [selectRegister]
  by_cases hkp : g.charReg = ['k', 'p']
  · rw [if_pos hkp]
    exact given_iff_of_known (Or.inl hkp) given_registerValue_iff
  · rw [if_neg hkp]
    by_cases hki : g.charReg = ['k', 'i']
    · rw [if_pos hki]
      exact given_iff_of_known (Or.inr (Or.inl hki)) given_registerValue_iff
    · rw [if_neg hki]
      by_cases hxv : g.charReg = ['x', 'v']
      · rw [if_pos hxv]
        exact given_iff_of_known (Or.inr (Or.inr (Or.inl hxv)))
          given_registerValue_iff
      · rw [if_neg hxv]
        by_cases hfv : g.charReg = ['f', 'v']
        · rw [if_pos hfv]
          exact given_iff_of_known (Or.inr (Or.inr (Or.inr hfv)))
            given_registerValue_iff
        · rw [if_neg hfv]
          exact iff_of_true (given_returned 0) fun hregister =>
            (hregister.elim hkp fun hrest => hrest.elim hki fun hrest =>
              hrest.elim hxv hfv).elim

/-- `-r` and `-w` after their action. -/
theorem given_device_iff : Given argv (device argv g) ↔
    ∃ name, argv[2]? = some name ∧ (IsDevice name →
      3 < argv.length ∧ (g.fWriteReg = true → 4 < argv.length)) := by
  rw [device, given_argument_iff]
  apply exists_congr
  intro name
  apply and_congr_right
  intro _
  rw [given_selectDevice_iff]
  change (IsDevice (strcpyS maxchrlen name) → _) ↔ _
  rw [IsDevice, strcpyS_eq_iff (by decide), strcpyS_eq_iff (by decide), IsDevice]

/-- `-s` after its action. -/
theorem given_setting_iff : Given argv (setting argv g) ↔
    ∃ name, argv[2]? = some name ∧ (IsRegister name → 3 < argv.length) := by
  rw [setting, given_argument_iff]
  apply exists_congr
  intro name
  apply and_congr_right
  intro _
  rw [given_selectRegister_iff]
  change (IsRegister (strcpyS maxchrlen name) → _) ↔ _
  rw [IsRegister, strcpyS_eq_iff (by decide), strcpyS_eq_iff (by decide),
    strcpyS_eq_iff (by decide), strcpyS_eq_iff (by decide), IsRegister]

/-- The loop over options looks before it takes an argument. -/
theorem given_optionLoop (argv : List Text) (arg : ℕ) (g : Globals) :
    Given argv (optionLoop argv arg g) := by
  fun_induction optionLoop argv arg g with
  | case1 arg g hmore ih =>
      refine given_argument hmore fun text => ?_
      split
      case isTrue =>
        split
        case isTrue => exact given_returned 0
        case isFalse hnext =>
          exact given_argument (not_le.mp hnext) (ih hnext)
      case isFalse => exact given_returned 0
  | case2 arg g hend hbyte => exact given_fails _ _
  | case3 arg g hend hbyte hname => exact given_fails _ _
  | case4 arg g hend hbyte hname => exact given_returned 1

theorem parameters_access (haccess : (g.fReadReg || g.fWriteReg) = true) :
    parameters argv g = device argv g := if_pos haccess

theorem parameters_setting (haccess : (g.fReadReg || g.fWriteReg) = false)
    (hset : g.fSetCfgReg = true) : parameters argv g = setting argv g := by
  rw [parameters, if_neg (by simp [haccess]), if_pos hset]

/-- The actions that take arguments, with their flags down before. -/
theorem given_action_iff (hread : g.fReadReg = false)
    (hwrite : g.fWriteReg = false) :
    Given argv (action argv g) ↔
      (g.charAction = ['-', 'r'] ∨ g.charAction = ['-', 'w'] →
        ∃ name, argv[2]? = some name ∧ (IsDevice name → 3 < argv.length ∧
          (g.charAction = ['-', 'w'] → 4 < argv.length))) ∧
      (g.charAction = ['-', 's'] →
        ∃ name, argv[2]? = some name ∧
          (IsRegister name → 3 < argv.length)) := by
  rw [action]
  by_cases hr : g.charAction = ['-', 'r']
  · rw [if_pos hr, parameters_access (Bool.true_or _), given_device_iff]
    simp [hr, hwrite]
  rw [if_neg hr]
  by_cases hw : g.charAction = ['-', 'w']
  · rw [if_pos hw, parameters_access (Bool.or_true _), given_device_iff]
    simp [hw]
  rw [if_neg hw]
  by_cases hs : g.charAction = ['-', 's']
  · have hnot : ¬ g.charAction = ['-', 'a'] ∧ ¬ g.charAction = ['-', 'v'] := by
      rw [hs]
      decide
    rw [if_neg hnot.1, if_neg hnot.2, if_pos hs,
      parameters_setting (by simp [hread, hwrite]) rfl, given_setting_iff]
    simp [hs]
  · rw [if_neg hs]
    refine iff_of_true ?_
      ⟨fun haccess => (haccess.elim hr hw).elim, fun hset => absurd hset hs⟩
    split
    · exact given_returned 1
    split
    · exact given_returned 0
    split
    · exact given_returned 1
    split
    · exact given_returned 1
    · exact given_returned 0

theorem given_parseParam_iff :
    Given argv (parseParam argv g) ↔ ArgumentsFollow argv := by
  rw [parseParam]
  by_cases hshort : argv.length < 2
  · have hnone : argv[1]? = none := List.getElem?_eq_none (by omega)
    rw [if_pos hshort]
    refine iff_of_true (given_returned 0) ⟨?_, ?_⟩
    · intro action haction
      exact absurd (hnone.symm.trans haction) (Option.some_ne_none action).symm
    · intro haction
      exact absurd (hnone.symm.trans haction) (Option.some_ne_none _).symm
  · obtain ⟨text, htext⟩ : ∃ text, argv[1]? = some text :=
      ⟨argv[1], List.getElem?_eq_getElem (by omega)⟩
    have haction : Given argv (action argv
        { initialFlags g with charAction := strcpyS maxchrlen text }) ↔ _ :=
      given_action_iff rfl rfl
    simp (disch := decide) only [strcpyS_eq_iff] at haction
    rw [if_neg hshort, given_argument_iff]
    constructor
    · rintro ⟨other, hother, hgiven⟩
      obtain rfl := Option.some.inj (htext.symm.trans hother)
      obtain ⟨haccess, hset⟩ := haction.mp hgiven
      constructor
      · intro action hcopy hkind
        obtain rfl := Option.some.inj (htext.symm.trans hcopy)
        exact haccess hkind
      · exact fun hcopy => hset (Option.some.inj (htext.symm.trans hcopy))
    · intro hfollow
      refine ⟨text, htext, haction.mpr ⟨hfollow.access text htext, ?_⟩⟩
      rintro rfl
      exact hfollow.setting htext

end Given

section Refused

variable {argv : List Text} {g : Globals} {name : Text}

theorem outcome_argument {index : ℕ} {text : Text} {next : Text → Run}
    (htext : argv[index]? = some text) :
    (argument argv index g next).outcome = (next text).outcome := by
  rw [argument_eq next htext]

theorem outcome_device (hname : argv[2]? = some name)
    (hunknown : ¬ IsDevice name) :
    (device argv g).outcome = .returned 0 := by
  have hcfg : ¬ strcpyS maxchrlen name = ['c', 'f', 'g'] :=
    (strcpyS_eq_iff (by decide)).not.mpr fun hsame => hunknown (.inl hsame)
  have hsts : ¬ strcpyS maxchrlen name = ['s', 't', 's'] :=
    (strcpyS_eq_iff (by decide)).not.mpr fun hsame => hunknown (.inr hsame)
  rw [device, outcome_argument hname, selectDevice, if_neg hcfg, if_neg hsts]
  rfl

theorem outcome_setting (hname : argv[2]? = some name)
    (hunknown : ¬ IsRegister name) :
    (setting argv g).outcome = .returned 0 := by
  have hwords : ∀ word : Text, word.length < maxchrlen - 1 →
      (name = word → IsRegister name) → ¬ strcpyS maxchrlen name = word :=
    fun word hlength hregister =>
      (strcpyS_eq_iff hlength).not.mpr fun hsame => hunknown (hregister hsame)
  rw [setting, outcome_argument hname, selectRegister,
    if_neg (hwords _ (by decide) fun hkp => .inl hkp),
    if_neg (hwords _ (by decide) fun hki => .inr (.inl hki)),
    if_neg (hwords _ (by decide) fun hxv => .inr (.inr (.inl hxv))),
    if_neg (hwords _ (by decide) fun hfv => .inr (.inr (.inr hfv)))]
  rfl

theorem outcome_parseParam {text : Text} (htext : argv[1]? = some text) :
    (parseParam argv g).outcome = (action argv
      { initialFlags g with charAction := strcpyS maxchrlen text }).outcome := by
  have hlength := (List.getElem?_eq_some_iff.mp htext).1
  rw [parseParam, if_neg (by omega), outcome_argument htext]

/-- Where every argument that is read is there, an incomplete command line has
an unknown device or register. -/
theorem outcome_of_incomplete (hfollow : ArgumentsFollow argv)
    (hincomplete : Incomplete argv) :
    (parseParam argv g).outcome = .returned 0 := by
  obtain ⟨text, htext, hmissing⟩ := hincomplete
  rw [outcome_parseParam htext]
  obtain ⟨rfl | rfl, hshort⟩ | ⟨rfl, hshort⟩ := hmissing
  · obtain ⟨name, hname, hneeds⟩ := hfollow.access _ htext (.inl rfl)
    exact outcome_device hname fun hknown => by
      have hthird := (hneeds hknown).1
      omega
  · obtain ⟨name, hname, hneeds⟩ := hfollow.setting htext
    exact outcome_setting hname fun hknown => by
      have hthird := hneeds hknown
      omega
  · obtain ⟨name, hname, hneeds⟩ := hfollow.access _ htext (.inr rfl)
    exact outcome_device hname fun hknown => by
      have hfourth := (hneeds hknown).2 rfl
      omega

end Refused

/-- `parse_param` reads only arguments that exist exactly when those follow that
the action and the device or register ask for. -/
theorem parseParam_parsesSafely_iff (argv : List Text) (g : Globals) :
    ParsesSafely argv g ↔ ArgumentsFollow argv := by
  constructor
  · exact fun hsafe => given_parseParam_iff.mp hsafe.given
  · exact fun hfollow =>
      ⟨given_parseParam_iff.mpr hfollow, outcome_of_incomplete hfollow⟩

/-- The globals of a program that starts. -/
def blankGlobals : Globals where
  fReadReg := false
  fWriteReg := false
  fGetCfgStatus := false
  fInitSystem := false
  fSetCfgReg := false
  fToFile := false
  fToStdout := false
  fFile := false
  fCount := false
  fByte := false
  fshowversion := false
  fxVal := false
  fkpVal := false
  fkiVal := false
  ffVal := false
  nDev := 0
  regOff := 0
  regVal := 0
  charAction := []
  charReg := []
  charRegValue := []
  charFile := []
  scRegister := []

/-- `lia_rp -r`: the device is read from `argv[2]`, which is not there. -/
theorem parseParam_not_parsesSafely_lone :
    ¬ ParsesSafely [['l', 'i', 'a'], ['-', 'r']] blankGlobals := by
  intro hsafe
  have hread : 2 ∈ (parseParam [['l', 'i', 'a'], ['-', 'r']]
      blankGlobals).reads := by decide
  exact absurd (hsafe.given 2 hread) (by decide)

end Rfsoc.ParseParam
