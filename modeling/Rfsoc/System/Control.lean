import Rfsoc.Axi.CfgBus

/-!
# The control of the player design

`adc-recorder.c` and `dac-player.c` of `dac_player` run side by side on the one
register `cfg_0` of two words.  The recorder clears and sets the two low bits of
the first word by reading the word and writing it back; the factors of both
programs are halves of the second word, which each of them writes alone.  The
programs take no lock.

Each program is started with a factor, killed or interrupted at any time, and
started again; the accesses of the two come in any order.
-/

namespace Rfsoc.Control

open Rfsoc.Atomic
open Rfsoc.CfgBus
open Rfsoc.CfgRegister

/-- `(uint16_t)number - 1`. -/
def factorCfg (number : ℕ) : BitVec 16 := BitVec.ofNat 16 number - 1

theorem toNat_factorCfg {number : ℕ} (hlow : 10 ≤ number)
    (hhigh : number ≤ 65535) : (factorCfg number).toNat = number - 1 := by
  rw [factorCfg, BitVec.toNat_sub, BitVec.toNat_ofNat]
  change (2 ^ 16 - 1 + number % 2 ^ 16) % 2 ^ 16 = number - 1
  omega

/-- `0x40000000`, where `cfg` is mapped. -/
def cfg : BitVec 32 := 0x40000000#32

/-- Where the recorder stands between two accesses to `cfg`: not started yet, come
to its end, killed or under way. -/
inductive Recorder where
  | unstarted
  | exited
  | killed
  | opened (number : ℕ)
  | clearing (number : ℕ) (mode : Word)
  | cleared (number : ℕ)
  | configured (number : ℕ)
  | starting (number : ℕ) (mode : Word)
  | recording (number : ℕ)
  | stopping (number : ℕ)
  | leaving (number : ℕ) (mode : Word)
  deriving DecidableEq

namespace Recorder

/-- `argv[1]` has been read as a number, or the number is -1; a factor from 10 to
65535 starts the program. -/
def run (number : ℤ) : Recorder → Recorder
  | unstarted =>
      if number < 10 ∨ 65535 < number then unstarted else opened number.toNat
  | exited =>
      if number < 10 ∨ 65535 < number then exited else opened number.toNat
  | killed =>
      if number < 10 ∨ 65535 < number then killed else opened number.toNat
  | running => running

/-- `SIGINT` ends the loop over the buffers. -/
def interrupt : Recorder → Recorder
  | recording number => stopping number
  | other => other

/-- The process ends without another access. -/
def kill : Recorder → Recorder
  | unstarted => unstarted
  | exited => exited
  | _ => killed

/-- `&= ~3`, the factor, `|= 3` and, after the loop, `&= ~3`. -/
def act : Recorder → Action Recorder (Access 32)
  | opened _ => .request (.load cfg)
  | clearing _ mode => .request (.store cfg (mode &&& ~~~3#32) 0b1111#4)
  | cleared number =>
      .request (.store (cfg + 4) ((factorCfg number).setWidth 32) 0b0011#4)
  | configured _ => .request (.load cfg)
  | starting _ mode => .request (.store cfg (mode ||| 3#32) 0b1111#4)
  | stopping _ => .request (.load cfg)
  | leaving _ mode => .request (.store cfg (mode &&& ~~~3#32) 0b1111#4)
  | other => .move other

def resume (word : Word) : Recorder → Recorder
  | opened number => clearing number word
  | clearing number _ => cleared number
  | cleared number => configured number
  | configured number => starting number word
  | starting number _ => recording number
  | stopping number => leaving number word
  | leaving _ _ => exited
  | other => other

end Recorder

/-- Where the player stands. -/
inductive Player where
  | exited
  | opened (number : ℕ)
  | playing (number : ℕ)
  deriving DecidableEq

namespace Player

def run (number : ℤ) : Player → Player
  | exited =>
      if number < 10 ∨ 65535 < number then exited else opened number.toNat
  | running => running

/-- The factor is at `cfg + 6`. -/
def act : Player → Action Player (Access 32)
  | opened number =>
      .request (.store (cfg + 6) ((factorCfg number).setWidth 32 <<< 16) 0b1100#4)
  | other => .move other

def resume : Player → Player
  | opened number => playing number
  | other => other

end Player

structure Programs where
  recorder : Recorder
  player : Player

/-- What happens next: a program is started or ended, or makes its next access. -/
inductive Choice where
  | runRecorder (number : ℤ)
  | recorder
  | interruptRecorder
  | killRecorder
  | runPlayer (number : ℤ)
  | player
  | endPlayer

def programs : Client Programs Choice (Access 32) Word where
  act := fun p choice =>
    match choice with
    | .runRecorder number => .move { p with recorder := p.recorder.run number }
    | .recorder =>
        match p.recorder.act with
        | .move next => .move { p with recorder := next }
        | .request access => .request access
    | .interruptRecorder => .move { p with recorder := p.recorder.interrupt }
    | .killRecorder => .move { p with recorder := p.recorder.kill }
    | .runPlayer number => .move { p with player := p.player.run number }
    | .player =>
        match p.player.act with
        | .move next => .move { p with player := next }
        | .request access => .request access
    | .endPlayer => .move { p with player := .exited }
  resume := fun p choice word =>
    match choice with
    | .recorder => { p with recorder := p.recorder.resume word }
    | .player => { p with player := p.player.resume }
    | _ => p

/-- The reset of the packetizer. -/
def slice1 (core : CfgRegister.State 2) : Bool := (cfgData core).getLsbD 0

/-- The reset of the width converter and of the RAM writer. -/
def slice2 (core : CfgRegister.State 2) : Bool := (cfgData core).getLsbD 1

/-- The decimation factor. -/
def slice3 (core : CfgRegister.State 2) : BitVec 16 :=
  (cfgData core).extractLsb' 32 16

/-- The interpolation factor. -/
def slice4 (core : CfgRegister.State 2) : BitVec 16 :=
  (cfgData core).extractLsb' 48 16

def lowHalf (word : Word) : BitVec 16 := word.extractLsb' 0 16

def highHalf (word : Word) : BitVec 16 := word.extractLsb' 16 16

section Slices

variable (core : CfgRegister.State 2)

theorem slice1_eq : slice1 core = (cfgWord core 0).getLsbD 0 := by
  simp [slice1, cfgWord, axiDataWidth]

theorem slice2_eq : slice2 core = (cfgWord core 0).getLsbD 1 := by
  simp [slice2, cfgWord, axiDataWidth]

theorem slice3_eq : slice3 core = lowHalf (cfgWord core 1) := by
  ext k hk
  simp [slice3, lowHalf, cfgWord, axiDataWidth]
  omega

theorem slice4_eq : slice4 core = highHalf (cfgWord core 1) := by
  ext k hk
  have hplace : 32 + (16 + k) = 48 + k := by omega
  simp [slice4, highHalf, cfgWord, axiDataWidth, hplace]
  omega

end Slices

section Accesses

variable (words : ℕ → Word) (data : Word)

theorem addressSlice_mode : addressSlice 2 cfg = 0 := by decide +kernel

theorem addressSlice_decimation : addressSlice 2 (cfg + 4) = 1 := by
  decide +kernel

theorem addressSlice_interpolation : addressSlice 2 (cfg + 6) = 1 := by
  decide +kernel

theorem strobes_low : ∀ k < 32, (0b0011#4).getLsbD (k / 8) = decide (k < 16) := by
  decide

theorem strobes_high :
    ∀ k < 32, (0b1100#4).getLsbD (k / 8) = decide (16 ≤ k) := by
  decide

theorem getLsbD_lowHalf (word : Word) {k : ℕ} (hk : k < 16) :
    (lowHalf word).getLsbD k = word.getLsbD k := by
  simp [lowHalf, hk]

theorem getLsbD_highHalf (word : Word) {k : ℕ} (hk : k < 16) :
    (highHalf word).getLsbD k = word.getLsbD (16 + k) := by
  simp [highHalf, hk]

theorem lowHalf_merge_low (factor : BitVec 16) (old : Word) :
    lowHalf (merge 0b0011#4 (factor.setWidth 32) old) = factor := by
  apply BitVec.eq_of_getLsbD_eq
  intro k hk
  have hword : k < 32 := by omega
  rw [getLsbD_lowHalf _ hk, getLsbD_merge, strobes_low k hword]
  simp [hk, hword, axiDataWidth]

theorem highHalf_merge_low (data old : Word) :
    highHalf (merge 0b0011#4 data old) = highHalf old := by
  apply BitVec.eq_of_getLsbD_eq
  intro k hk
  have hword : 16 + k < 32 := by omega
  rw [getLsbD_highHalf _ hk, getLsbD_highHalf _ hk, getLsbD_merge,
    strobes_low (16 + k) hword]
  simp [hword]

theorem highHalf_merge_high (factor : BitVec 16) (old : Word) :
    highHalf (merge 0b1100#4 (factor.setWidth 32 <<< 16) old) = factor := by
  apply BitVec.eq_of_getLsbD_eq
  intro k hk
  have hword : 16 + k < 32 := by omega
  rw [getLsbD_highHalf _ hk, getLsbD_merge, strobes_high (16 + k) hword]
  simp [hword, axiDataWidth]

theorem lowHalf_merge_high (data old : Word) :
    lowHalf (merge 0b1100#4 data old) = lowHalf old := by
  apply BitVec.eq_of_getLsbD_eq
  intro k hk
  have hword : k < 32 := by omega
  rw [getLsbD_lowHalf _ hk, getLsbD_lowHalf _ hk, getLsbD_merge,
    strobes_high k hword]
  simp [hk, hword]

theorem perform_mode :
    (Access.store cfg data 0b1111#4).perform 2 words =
      Function.update words 0 data := by
  rw [Access.perform, addressSlice_mode, merge_word]

theorem perform_decimation :
    (Access.store (cfg + 4) data 0b0011#4).perform 2 words =
      Function.update words 1 (merge 0b0011#4 data (words 1)) := by
  rw [Access.perform, addressSlice_decimation]

theorem perform_interpolation :
    (Access.store (cfg + 6) data 0b1100#4).perform 2 words =
      Function.update words 1 (merge 0b1100#4 data (words 1)) := by
  rw [Access.perform, addressSlice_interpolation]

theorem answer_mode : (Access.load cfg).answer 2 words = words 0 := by
  rw [Access.answer, addressSlice_mode]

end Accesses

def ModeOff (words : ℕ → Word) : Prop :=
  (words 0).getLsbD 0 = false ∧ (words 0).getLsbD 1 = false

def ModeOn (words : ℕ → Word) : Prop :=
  (words 0).getLsbD 0 = true ∧ (words 0).getLsbD 1 = true

/-- The recorder may only find the other half of the second word changed. -/
structure LeavesRecorder (words words' : ℕ → Word) : Prop where
  mode : words' 0 = words 0
  factor : lowHalf (words' 1) = lowHalf (words 1)

/-- The player may only find its own half as it was. -/
def LeavesPlayer (words words' : ℕ → Word) : Prop :=
  highHalf (words' 1) = highHalf (words 1)

/-- The bits of the first word above the mode stay, and the decimation factor
changes with the mode off only. -/
structure Guarded (words words' : ℕ → Word) : Prop where
  others : ∀ k, 2 ≤ k → (words' 0).getLsbD k = (words 0).getLsbD k
  factor : lowHalf (words' 1) = lowHalf (words 1) ∨
    ModeOff words ∧ words' 0 = words 0

/-- The two bits of the mode are the same. -/
def SameMode (words words' : ℕ → Word) : Prop :=
  (words' 0).getLsbD 0 = (words 0).getLsbD 0 ∧
    (words' 0).getLsbD 1 = (words 0).getLsbD 1

/-- What the recorder knows of the words where it stands. -/
def Recorder.Knows (initial words : ℕ → Word) : Recorder → Prop
  | .unstarted => SameMode initial words
  | .exited => ModeOff words
  | .killed => True
  | .opened _ => True
  | .clearing _ mode => mode = words 0
  | .cleared _ => ModeOff words
  | .configured number => ModeOff words ∧ lowHalf (words 1) = factorCfg number
  | .starting number mode =>
      mode = words 0 ∧ ModeOff words ∧ lowHalf (words 1) = factorCfg number
  | .recording number => ModeOn words ∧ lowHalf (words 1) = factorCfg number
  | .stopping number => ModeOn words ∧ lowHalf (words 1) = factorCfg number
  | .leaving number mode =>
      mode = words 0 ∧ ModeOn words ∧ lowHalf (words 1) = factorCfg number

def Player.Knows (words : ℕ → Word) : Player → Prop
  | .playing number => highHalf (words 1) = factorCfg number
  | _ => True

section Words

variable {initial words words' : ℕ → Word}

theorem Guarded.refl (words : ℕ → Word) : Guarded words words :=
  ⟨fun _ _ => rfl, Or.inl rfl⟩

theorem LeavesRecorder.guarded (hleaves : LeavesRecorder words words') :
    Guarded words words' := by
  refine ⟨fun k _ => ?_, Or.inl hleaves.factor⟩
  rw [hleaves.mode]

/-- What the recorder knows survives what it may find changed. -/
theorem Recorder.Knows.stable {recorder : Recorder}
    (hknows : recorder.Knows initial words)
    (hleaves : LeavesRecorder words words') :
    recorder.Knows initial words' := by
  cases recorder with
  | killed => trivial
  | opened number => trivial
  | _ =>
      simpa [Recorder.Knows, SameMode, ModeOff, ModeOn, hleaves.mode,
        hleaves.factor] using hknows

theorem Player.Knows.stable {player : Player} (hknows : player.Knows words)
    (hleaves : LeavesPlayer words words') : player.Knows words' := by
  cases player with
  | playing number => exact hleaves.trans hknows
  | _ => trivial

theorem modeOff_update (mode : Word) :
    ModeOff (Function.update words 0 (mode &&& ~~~3#32)) := by
  simp [ModeOff, axiDataWidth]

theorem modeOn_update (mode : Word) :
    ModeOn (Function.update words 0 (mode ||| 3#32)) := by
  simp [ModeOn, axiDataWidth]

/-- The next step of the recorder, with a memory that serves it at once. -/
def Recorder.turn (words : ℕ → Word) (recorder : Recorder) :
    (ℕ → Word) × Recorder :=
  match recorder.act with
  | .move next => (words, next)
  | .request access =>
      (access.perform 2 words, recorder.resume (access.answer 2 words))

def Player.turn (words : ℕ → Word) (player : Player) : (ℕ → Word) × Player :=
  match player.act with
  | .move next => (words, next)
  | .request access => (access.perform 2 words, player.resume)

theorem Recorder.Knows.turn {recorder : Recorder}
    (hknows : recorder.Knows initial words) :
    (recorder.turn words).2.Knows initial (recorder.turn words).1 := by
  cases recorder with
  | unstarted => exact hknows
  | exited => exact hknows
  | killed => trivial
  | opened number => exact answer_mode words
  | clearing number mode =>
      change ModeOff ((Access.store cfg (mode &&& ~~~3#32) 0b1111#4).perform 2 words)
      rw [perform_mode]
      exact modeOff_update mode
  | cleared number =>
      change ModeOff ((Access.store (cfg + 4) _ 0b0011#4).perform 2 words) ∧
        lowHalf ((Access.store (cfg + 4) _ 0b0011#4).perform 2 words 1) = _
      rw [perform_decimation, Function.update_self, lowHalf_merge_low]
      exact ⟨hknows, rfl⟩
  | configured number => exact ⟨answer_mode words, hknows⟩
  | starting number mode =>
      change ModeOn ((Access.store cfg (mode ||| 3#32) 0b1111#4).perform 2 words) ∧
        lowHalf ((Access.store cfg (mode ||| 3#32) 0b1111#4).perform 2 words 1) = _
      rw [perform_mode]
      exact ⟨modeOn_update mode, hknows.2.2⟩
  | recording number => exact hknows
  | stopping number => exact ⟨answer_mode words, hknows⟩
  | leaving number mode =>
      change ModeOff ((Access.store cfg (mode &&& ~~~3#32) 0b1111#4).perform 2 words)
      rw [perform_mode]
      exact modeOff_update mode

theorem getLsbD_three (k : ℕ) : (3#32).getLsbD k = decide (k < 2) := by
  cases k with
  | zero => rfl
  | succ k =>
      cases k with
      | zero => rfl
      | succ k =>
          have hbit : Nat.testBit 3 (k + 1 + 1) = false := by
            apply Nat.testBit_lt_two_pow
            exact lt_of_lt_of_le (by decide)
              (Nat.pow_le_pow_right (by decide) (Nat.le_add_left 2 k))
          rw [BitVec.getLsbD_ofNat, hbit]
          simp

/-- A word stored with the mode cleared or set keeps its other bits. -/
theorem guarded_mode {mode : Word} (hothers : ∀ k, 2 ≤ k →
      mode.getLsbD k = (words 0).getLsbD k) :
    Guarded words (Function.update words 0 mode) := by
  refine ⟨fun k hk => ?_, Or.inl rfl⟩
  rw [Function.update_self, hothers k hk]

theorem getLsbD_clear (mode : Word) {k : ℕ} (hk : 2 ≤ k) :
    (mode &&& ~~~3#32).getLsbD k = mode.getLsbD k := by
  rw [BitVec.getLsbD_and, BitVec.getLsbD_not, getLsbD_three]
  simp only [not_lt.mpr hk, decide_false, Bool.not_false, Bool.and_true]
  cases hbit : mode.getLsbD k with
  | false => rfl
  | true => simpa using BitVec.lt_of_getLsbD hbit

theorem getLsbD_set (mode : Word) {k : ℕ} (hk : 2 ≤ k) :
    (mode ||| 3#32).getLsbD k = mode.getLsbD k := by
  rw [BitVec.getLsbD_or, getLsbD_three]
  simp [not_lt.mpr hk]

/-- The recorder writes back the first word as it has read it, and writes its
factor with the mode off. -/
theorem Recorder.Knows.guarded {recorder : Recorder}
    (hknows : recorder.Knows initial words) :
    Guarded words (recorder.turn words).1 := by
  cases recorder with
  | clearing number mode =>
      obtain rfl : mode = words 0 := hknows
      change Guarded words ((Access.store cfg _ 0b1111#4).perform 2 words)
      rw [perform_mode]
      exact guarded_mode fun k hk => getLsbD_clear _ hk
  | cleared number =>
      change Guarded words ((Access.store (cfg + 4) _ 0b0011#4).perform 2 words)
      rw [perform_decimation]
      exact ⟨fun k _ => rfl, Or.inr ⟨hknows, rfl⟩⟩
  | starting number mode =>
      obtain rfl : mode = words 0 := hknows.1
      change Guarded words ((Access.store cfg _ 0b1111#4).perform 2 words)
      rw [perform_mode]
      exact guarded_mode fun k hk => getLsbD_set _ hk
  | leaving number mode =>
      obtain rfl : mode = words 0 := hknows.1
      change Guarded words ((Access.store cfg _ 0b1111#4).perform 2 words)
      rw [perform_mode]
      exact guarded_mode fun k hk => getLsbD_clear _ hk
  | _ => exact Guarded.refl words

theorem Recorder.leavesPlayer (words : ℕ → Word) (recorder : Recorder) :
    LeavesPlayer words (recorder.turn words).1 := by
  have hmode : ∀ data : Word, LeavesPlayer words
      ((Access.store cfg data 0b1111#4).perform 2 words) := by
    intro data
    rw [perform_mode]
    rfl
  cases recorder with
  | clearing number mode => exact hmode _
  | cleared number =>
      change LeavesPlayer words
        ((Access.store (cfg + 4) _ 0b0011#4).perform 2 words)
      rw [perform_decimation, LeavesPlayer, Function.update_self,
        highHalf_merge_low]
  | starting number mode => exact hmode _
  | leaving number mode => exact hmode _
  | _ => rfl

theorem Player.Knows.turn {player : Player} (hknows : player.Knows words) :
    (player.turn words).2.Knows (player.turn words).1 := by
  cases player with
  | exited => trivial
  | opened number =>
      change highHalf ((Access.store (cfg + 6) _ 0b1100#4).perform 2 words 1) = _
      rw [perform_interpolation, Function.update_self, highHalf_merge_high]
  | playing number => exact hknows

theorem Player.leavesRecorder (words : ℕ → Word) (player : Player) :
    LeavesRecorder words (player.turn words).1 := by
  cases player with
  | opened number =>
      change LeavesRecorder words
        ((Access.store (cfg + 6) _ 0b1100#4).perform 2 words)
      rw [perform_interpolation]
      refine ⟨rfl, ?_⟩
      rw [Function.update_self, lowHalf_merge_high]
  | _ => exact ⟨rfl, rfl⟩

end Words

/-! ## Any order of the accesses -/

/-- The words and the programs after some choices. -/
structure ControlInv (initial : ℕ → Word) (s : (ℕ → Word) × Programs) :
    Prop where
  others : ∀ k, 2 ≤ k → (s.1 0).getLsbD k = (initial 0).getLsbD k
  recorder : s.2.recorder.Knows initial s.1
  player : s.2.player.Knows s.1

section Atomic

variable {initial : ℕ → Word} {s : (ℕ → Word) × Programs}

theorem atomic_recorder (s : (ℕ → Word) × Programs) :
    programs.atomic (memory 2 32) s .recorder =
      ((s.2.recorder.turn s.1).1,
        { s.2 with recorder := (s.2.recorder.turn s.1).2 }) := by
  cases hact : s.2.recorder.act with
  | move next =>
      simp [Client.atomic, programs, Recorder.turn, hact]
  | request access =>
      simp [Client.atomic, programs, Recorder.turn, hact, memory]

theorem atomic_player (s : (ℕ → Word) × Programs) :
    programs.atomic (memory 2 32) s .player =
      ((s.2.player.turn s.1).1,
        { s.2 with player := (s.2.player.turn s.1).2 }) := by
  cases hact : s.2.player.act with
  | move next => simp [Client.atomic, programs, Player.turn, hact]
  | request access => simp [Client.atomic, programs, Player.turn, hact, memory]

theorem Recorder.Knows.run {words : ℕ → Word} {recorder : Recorder}
    (hknows : recorder.Knows initial words) (number : ℤ) :
    (recorder.run number).Knows initial words := by
  cases recorder with
  | unstarted =>
      rw [Recorder.run]
      split_ifs
      · exact hknows
      · trivial
  | exited =>
      rw [Recorder.run]
      split_ifs
      · exact hknows
      · trivial
  | killed =>
      rw [Recorder.run]
      split_ifs <;> trivial
  | _ => exact hknows

/-- A choice changes the words as the recorder and the player may. -/
theorem ControlInv.guarded (hinv : ControlInv initial s) (choice : Choice) :
    Guarded s.1 (programs.atomic (memory 2 32) s choice).1 := by
  cases choice with
  | recorder =>
      rw [atomic_recorder]
      exact hinv.recorder.guarded
  | player =>
      rw [atomic_player]
      exact (Player.leavesRecorder s.1 s.2.player).guarded
  | _ => exact Guarded.refl s.1

theorem ControlInv.atomic (hinv : ControlInv initial s) (choice : Choice) :
    ControlInv initial (programs.atomic (memory 2 32) s choice) := by
  have hothers : ∀ k, 2 ≤ k →
      ((programs.atomic (memory 2 32) s choice).1 0).getLsbD k =
        (initial 0).getLsbD k := by
    intro k hk
    rw [(hinv.guarded choice).others k hk, hinv.others k hk]
  cases choice with
  | recorder =>
      rw [atomic_recorder] at hothers ⊢
      exact ⟨hothers, hinv.recorder.turn,
        hinv.player.stable (Recorder.leavesPlayer s.1 s.2.recorder)⟩
  | player =>
      rw [atomic_player] at hothers ⊢
      exact ⟨hothers, hinv.recorder.stable
        (Player.leavesRecorder s.1 s.2.player), hinv.player.turn⟩
  | runRecorder number =>
      exact ⟨hothers, hinv.recorder.run number, hinv.player⟩
  | interruptRecorder =>
      refine ⟨hothers, ?_, hinv.player⟩
      have hknows := hinv.recorder
      change s.2.recorder.interrupt.Knows initial s.1
      cases hrecorder : s.2.recorder <;> rw [hrecorder] at hknows <;> exact hknows
  | killRecorder =>
      refine ⟨hothers, ?_, hinv.player⟩
      have hknows := hinv.recorder
      change s.2.recorder.kill.Knows initial s.1
      cases hrecorder : s.2.recorder with
      | unstarted =>
          rw [hrecorder] at hknows
          exact hknows
      | exited =>
          rw [hrecorder] at hknows
          exact hknows
      | _ => trivial
  | runPlayer number =>
      refine ⟨hothers, hinv.recorder, ?_⟩
      have hknows := hinv.player
      change (s.2.player.run number).Knows s.1
      cases hplayer : s.2.player with
      | exited =>
          rw [Player.run]
          split_ifs <;> trivial
      | _ =>
          rw [hplayer] at hknows
          exact hknows
  | endPlayer => exact ⟨hothers, hinv.recorder, trivial⟩

end Atomic

section Run

variable (core : CfgRegister.State 2) (input : ℕ → Input Choice)

/-- Both programs wait for their first start. -/
def waiting : Programs where
  recorder := .unstarted
  player := .exited

def stateAt (cycle : ℕ) : CfgBus.State 2 32 Programs Choice :=
  CfgBus.stateAt programs core waiting input cycle

/-- The register at a cycle. -/
structure Controlled (cycle : ℕ) : Prop where
  /-- While the recorder waits for buffers, the receiver is out of reset with the
  factor of the recorder. -/
  recording : ∀ number,
    (stateAt core input cycle).master.program.recorder = .recording number →
      slice1 (stateAt core input cycle).core = true ∧
      slice2 (stateAt core input cycle).core = true ∧
      slice3 (stateAt core input cycle).core = factorCfg number
  /-- While the player plays, the interpolator has the factor of the player. -/
  playing : ∀ number,
    (stateAt core input cycle).master.program.player = .playing number →
      slice4 (stateAt core input cycle).core = factorCfg number
  /-- Before the first start the receiver is as it was. -/
  unstarted :
    (stateAt core input cycle).master.program.recorder = .unstarted →
      slice1 (stateAt core input cycle).core = slice1 core ∧
      slice2 (stateAt core input cycle).core = slice2 core
  /-- A recorder that has come to its end leaves the receiver in reset. -/
  exited : (stateAt core input cycle).master.program.recorder = .exited →
    slice1 (stateAt core input cycle).core = false ∧
    slice2 (stateAt core input cycle).core = false
  /-- The decimation factor changes in reset only. -/
  factor : slice3 (stateAt core input (cycle + 1)).core ≠
      slice3 (stateAt core input cycle).core →
    ∀ now, now = cycle ∨ now = cycle + 1 →
      slice1 (stateAt core input now).core = false ∧
      slice2 (stateAt core input now).core = false
  /-- The other bits of the first word stay as they were. -/
  others : ∀ k, 2 ≤ k → k < 32 →
    (cfgData (stateAt core input cycle).core).getLsbD k =
      (cfgData core).getLsbD k

variable {core} {input}

theorem programs_inRange (start : (ℕ → Word) × Programs) :
    LoadsInRange programs 2 start := by
  intro choices choice access hact
  generalize (programs.after (memory 2 32) start choices).2 = p at hact
  have hload : addressSlice 2 cfg < 2 := by
    rw [addressSlice_mode]
    decide
  cases choice with
  | recorder =>
      cases hrecorder : p.recorder <;>
        simp only [programs, hrecorder, Recorder.act, Action.request.injEq,
          reduceCtorEq] at hact <;> subst hact
      all_goals first | exact hload | trivial
  | player =>
      cases hplayer : p.player <;>
        simp only [programs, hplayer, Player.act, Action.request.injEq,
          reduceCtorEq] at hact
      subst hact
      trivial
  | _ => cases hact

/-- The words and the programs at a cycle, with a memory in the register's
place. -/
theorem controlInv_stateAt (core : CfgRegister.State 2) (input : ℕ → Input Choice)
    (cycle : ℕ) :
    ControlInv (cfgWord core) (programs.after (memory 2 32)
      (cfgWord core, waiting) (committed programs core waiting input cycle)) := by
  apply Client.after_induction
  · exact ⟨fun _ _ => rfl, ⟨rfl, rfl⟩, trivial⟩
  · intro s choice hinv
    exact hinv.atomic choice

/-- Where a program on the bus waits for something else than its access, it has
come as far with the memory. -/
theorem settled_recorder (s : CfgBus.State 2 32 Programs Choice)
    (hwaits : ∀ word, s.master.program.recorder.resume word =
      s.master.program.recorder) :
    (settled programs s).recorder = s.master.program.recorder := by
  rcases settled_eq programs s with hsettled | ⟨choice, word, hsettled⟩
  · rw [hsettled]
  · rw [hsettled]
    cases choice with
    | recorder => exact hwaits word
    | _ => rfl

theorem settled_player (s : CfgBus.State 2 32 Programs Choice)
    (hwaits : s.master.program.player.resume = s.master.program.player) :
    (settled programs s).player = s.master.program.player := by
  rcases settled_eq programs s with hsettled | ⟨choice, word, hsettled⟩
  · rw [hsettled]
  · rw [hsettled]
    cases choice with
    | player => exact hwaits
    | _ => rfl

/-- What a recorder that waits knows of the words. -/
theorem knows_recorder (hreset : core.resetS = false) {cycle : ℕ} {r : Recorder}
    (hrecorder : (stateAt core input cycle).master.program.recorder = r)
    (hwaits : ∀ word, r.resume word = r) :
    r.Knows (cfgWord core) (programs.after (memory 2 32) (cfgWord core, waiting)
      (committed programs core waiting input cycle)).1 := by
  have hprogram : settled programs (stateAt core input cycle) =
      (programs.after (memory 2 32) (cfgWord core, waiting)
        (committed programs core waiting input cycle)).2 :=
    (busInv_stateAt input hreset (programs_inRange _) cycle).program
  have hsettled := settled_recorder (stateAt core input cycle)
    (by rw [hrecorder]; exact hwaits)
  have hknows := (controlInv_stateAt core input cycle).recorder
  rw [← hprogram, hsettled, hrecorder] at hknows
  exact hknows

/-- The words of the register at the cycle before and after a choice. -/
theorem guarded_stateAt (core : CfgRegister.State 2) (input : ℕ → Input Choice)
    (cycle : ℕ) :
    Guarded
      (programs.after (memory 2 32) (cfgWord core, waiting)
        (committed programs core waiting input cycle)).1
      (programs.after (memory 2 32) (cfgWord core, waiting)
        (committed programs core waiting input (cycle + 1))).1 := by
  have hinv := controlInv_stateAt core input cycle
  have hnext : committed programs core waiting input (cycle + 1) =
      committed programs core waiting input cycle ++
        committedChoice programs (stateAt core input cycle) (input cycle) := rfl
  rw [hnext]
  rcases committedChoice_eq programs (stateAt core input cycle) (input cycle) with
    hnone | ⟨choice, hchoice⟩
  · rw [hnone, List.append_nil]
    exact Guarded.refl _
  · rw [hchoice, Client.after_concat]
    exact hinv.guarded choice

end Run

/-- Both programs have the register as if they were alone with it, in every order
of their accesses, starts and ends. -/
theorem control_controlled (core : CfgRegister.State 2)
    (hreset : core.resetS = false) (input : ℕ → Input Choice) (cycle : ℕ) :
    Controlled core input cycle := by
  have hcontrol := controlInv_stateAt core input cycle
  have hguarded := guarded_stateAt core input cycle
  have hbus : ∀ now, BusInv programs (cfgWord core, waiting)
      (committed programs core waiting input now) (stateAt core input now) :=
    busInv_stateAt input hreset (programs_inRange _)
  have hwords := (hbus cycle).words
  have hslices : ∀ now, ModeOff (programs.after (memory 2 32)
        (cfgWord core, waiting) (committed programs core waiting input now)).1 →
      slice1 (stateAt core input now).core = false ∧
        slice2 (stateAt core input now).core = false := by
    intro now hoff
    rw [slice1_eq, slice2_eq, (hbus now).words 0 (by decide)]
    exact hoff
  have hprogram := (hbus cycle).program
  refine ⟨?_, ?_, ?_, ?_, ?_, ?_⟩
  · intro number hrecording
    have hknows := knows_recorder hreset hrecording fun _ => rfl
    rw [slice1_eq, slice2_eq, slice3_eq, hwords 0 (by decide),
      hwords 1 (by decide)]
    exact ⟨hknows.1.1, hknows.1.2, hknows.2⟩
  · intro number hplaying
    have hplayer := settled_player (stateAt core input cycle)
      (by rw [hplaying]; rfl)
    rw [hprogram, hplaying] at hplayer
    have hknows := hcontrol.player
    rw [hplayer] at hknows
    rw [slice4_eq, hwords 1 (by decide)]
    exact hknows
  · intro hunstarted
    have hknows := knows_recorder hreset hunstarted fun _ => rfl
    rw [slice1_eq, slice2_eq, slice1_eq, slice2_eq, hwords 0 (by decide)]
    exact hknows
  · intro hexited
    have hknows := knows_recorder hreset hexited fun _ => rfl
    exact hslices cycle hknows
  · intro hchanged now hnow
    rw [slice3_eq, slice3_eq, hwords 1 (by decide),
      (hbus (cycle + 1)).words 1 (by decide)] at hchanged
    obtain ⟨hoff, hmode⟩ := hguarded.factor.resolve_left hchanged
    rcases hnow with rfl | rfl
    · exact hslices _ hoff
    · apply hslices
      rw [ModeOff, hmode]
      exact hoff
  · intro k hlow hhigh
    have hword := hwords 0 (by decide)
    have hothers := hcontrol.others k hlow
    rw [← hword] at hothers
    simpa [cfgWord, axiDataWidth, hhigh] using hothers

/-- A recorder that is started, a player that is started while it records, and an
interrupt. -/
def recordAndPlay (cycle : ℕ) : Input Choice where
  choice := some (Clocked.phased [(1, .runRecorder 100), (30, .recorder),
    (1, .runPlayer 50), (8, .player), (1, .interruptRecorder)] .recorder cycle)
  aw := true
  w := cycle % 2 = 0
  ar := true
  bready := true
  rready := true

/-- While both programs are in their loops, and when the recorder has come to its
end. -/
theorem control_controlled_recordAndPlay :
    (Controlled poweredUp recordAndPlay 40 ∧
      (stateAt poweredUp recordAndPlay 40).master.program.recorder =
        .recording 100 ∧
      (stateAt poweredUp recordAndPlay 40).master.program.player =
        .playing 50) ∧
    Controlled poweredUp recordAndPlay 50 ∧
      (stateAt poweredUp recordAndPlay 50).master.program.recorder = .exited :=
  ⟨⟨control_controlled poweredUp rfl recordAndPlay 40, by decide +kernel,
    by decide +kernel⟩, control_controlled poweredUp rfl recordAndPlay 50,
    by decide +kernel⟩

end Rfsoc.Control
