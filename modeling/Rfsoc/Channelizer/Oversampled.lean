import Rfsoc.Channelizer.StartUp
import Mathlib.Data.Fin.Tuple.Basic

/-!
# The front of the oversampled receiver

`rxchan` of `axis_rxc16_dft_2ovs` feeds one stream to two FIRs, to `rx_fir0`
through a line of eight registers and to `rx_fir1` directly.  Ready and valid
are registered; the word that goes to `rx_fir1` is not, so the two filters take
words one cycle after the handshake that announced them.  The start-up sequence
begins with set 1 and is complete when set 7 is taken.
-/

namespace Rfsoc.Oversampled

open Rfsoc.Clocked
open Rfsoc.Signals

structure State where
  config : StartUp.State
  treadyR : Bool
  tvalidR : Bool
  /-- The registers of `i_dly`, the newest first. -/
  fifoS : Fin 8 → BitVec 32

structure Input where
  aresetn : Bool
  sAxisTdata : BitVec 32
  sAxisTvalid : Bool
  sFirConfigTready : Bool
  fir0Tready : Bool
  fir1Tready : Bool

/-- `i_startup_config`, which has no reset. -/
def configNext : StartUp.State → Bool → StartUp.State :=
  StartUp.startupConfig (· + 1) 7

def treadyN (s : State) (i : Input) : Bool :=
  i.fir0Tready && i.fir1Tready && s.config.firConfigComplete

def tvalidN (s : State) (i : Input) : Bool :=
  s.config.firConfigComplete && i.sAxisTvalid

/-- `shift_register`. -/
def shift {stages : ℕ} {Word : Type*} (fifoS : Fin (stages + 1) → Word)
    (en : Bool) (dataI : Word) : Fin (stages + 1) → Word :=
  if en then Fin.cons dataI fun k : Fin stages => fifoS k.castSucc else fifoS

/-- The registers after a reset, which leaves the start-up as it is. -/
def afterReset (config : StartUp.State) : State where
  config := config
  treadyR := false
  tvalidR := false
  fifoS := fun _ => 0

def step (s : State) (i : Input) : State :=
  if i.aresetn then
    { config := configNext s.config i.sFirConfigTready
      treadyR := treadyN s i
      tvalidR := tvalidN s i
      fifoS := shift s.fifoS s.treadyR i.sAxisTdata }
  else afterReset (configNext s.config i.sFirConfigTready)

/-- The core as a reset leaves it; it powers up so with `powerUp`. -/
def core (config : StartUp.State) : Machine State Input :=
  ⟨afterReset config, step⟩

/-- `s_fir_config_tdata` starts at 1. -/
def powerUp : StartUp.State := StartUp.powerUp 1

def sAxisTready (s : State) : Bool := s.treadyR

def sFirValid (s : State) : Bool := s.tvalidR

def sFir0Tdata (s : State) : BitVec 32 := s.fifoS (Fin.last 7)

def acceptedWord (s : State) (i : Input) : List (BitVec 32) :=
  if i.sAxisTvalid && sAxisTready s then [i.sAxisTdata] else []

/-- The word that `rx_fir0` takes, which is always ready. -/
def fir0Word (s : State) (_ : Input) : List (BitVec 32) :=
  if sFirValid s then [sFir0Tdata s] else []

/-- The word that `rx_fir1` takes, which is always ready. -/
def fir1Word (s : State) (i : Input) : List (BitVec 32) :=
  if sFirValid s then [i.sAxisTdata] else []

section Branches

variable (config : StartUp.State) (input : ℕ → Input)

def accepted : ℕ → List (BitVec 32) := (core config).log input acceptedWord

def fir0Words : ℕ → List (BitVec 32) := (core config).log input fir0Word

def fir1Words : ℕ → List (BitVec 32) := (core config).log input fir1Word

/-- The FIRs take the accepted words, `rx_fir0` after eight zeros. -/
structure Branches (horizon : ℕ) : Prop where
  fir1 : fir1Words config input horizon <+: accepted config input horizon
  fir0 : fir0Words config input horizon <+:
    List.replicate 8 0 ++ accepted config input horizon

/-- The same cycles with other data. -/
def withData (data : ℕ → BitVec 32) (cycle : ℕ) : Input :=
  { input cycle with sAxisTdata := data cycle }

def validAt (cycle : ℕ) : Bool := (input cycle).sAxisTvalid

/-- The stream has no gap, or the FIRs have not seen it begin. -/
def Gapless (horizon : ℕ) : Prop :=
  (∀ cycle < horizon, validAt input cycle = true) ∨
    ∀ cycle, cycle + 1 < horizon → validAt input cycle = false

/-- No reset, and both FIRs are ready. -/
structure Steady (horizon : ℕ) : Prop where
  aresetn : ∀ cycle < horizon, (input cycle).aresetn = true
  fir0Tready : ∀ cycle < horizon, (input cycle).fir0Tready = true
  fir1Tready : ∀ cycle < horizon, (input cycle).fir1Tready = true

/-- The slave side is ready in every cycle but the first. -/
def acceptsAt (cycle : ℕ) : Bool :=
  validAt input cycle && decide (0 < cycle)

end Branches

section Line

variable {Word : Type*} {stages : ℕ}

/-- What `k` stages of a line hold that shifts in every cycle but the first. -/
def lineAt (zero : Word) (data : ℕ → Word) (cycle k : ℕ) : Word :=
  if k + 2 ≤ cycle then data (cycle - 1 - k) else zero

theorem shift_lineAt (zero : Word) (data : ℕ → Word) (cycle : ℕ) :
    shift (fun k : Fin (stages + 1) => lineAt zero data cycle k.val)
        (decide (0 < cycle)) (data cycle) =
      fun k => lineAt zero data (cycle + 1) k.val := by
  funext k
  rw [shift]
  cases cycle with
  | zero =>
      rw [if_neg (by decide), lineAt, lineAt, if_neg (by omega),
        if_neg (by omega)]
  | succ cycle =>
      rw [if_pos (decide_eq_true (Nat.succ_pos cycle))]
      cases k using Fin.cases with
      | zero => rfl
      | succ k =>
          rw [Fin.cons_succ, lineAt, lineAt, Fin.val_succ, Fin.val_castSucc]
          by_cases hfilled : k.val + 2 ≤ cycle + 1
          · rw [if_pos hfilled, if_pos (by omega)]
            congr 1
            omega
          · rw [if_neg hfilled, if_neg (by omega)]

end Line

section Invariant

variable {config : StartUp.State} {input : ℕ → Input} {horizon : ℕ}
  (hcomplete : config.firConfigComplete = true) (hsteady : Steady input horizon)

/-- The start-up is never taken up again. -/
theorem configNext_complete {s : StartUp.State} {sFirConfigTready : Bool}
    (hcomplete : s.firConfigComplete = true) :
    (configNext s sFirConfigTready).firConfigComplete = true := by
  rw [configNext, StartUp.startupConfig]
  split
  case isTrue => exact ite_eq_left_iff.mpr fun _ => hcomplete
  case isFalse => exact hcomplete

include hcomplete hsteady

theorem stateAt_eq : ∀ cycle ≤ horizon, ∃ later : StartUp.State,
    later.firConfigComplete = true ∧
      (core config).stateAt input cycle =
        { config := later
          treadyR := decide (0 < cycle)
          tvalidR := delayed (validAt input) cycle
          fifoS := fun k =>
            lineAt 0 (fun t => (input t).sAxisTdata) cycle k.val } := by
  apply upTo_induction
  · exact ⟨config, hcomplete, rfl⟩
  · intro cycle hcycle ih
    obtain ⟨later, hlater, hstate⟩ := ih
    refine ⟨configNext later (input cycle).sFirConfigTready,
      configNext_complete hlater, ?_⟩
    rw [Machine.stateAt_succ, hstate]
    change step _ _ = _
    rw [step, if_pos (hsteady.aresetn cycle hcycle), treadyN, tvalidN,
      hsteady.fir0Tready cycle hcycle, hsteady.fir1Tready cycle hcycle, hlater]
    congr 1
    exact shift_lineAt 0 (fun t => (input t).sAxisTdata) cycle

theorem accepted_eq : ∀ cycle ≤ horizon,
    accepted config input cycle =
      picked (acceptsAt input) (fun t => (input t).sAxisTdata) cycle := by
  apply log_eq_picked
  intro cycle hcycle
  obtain ⟨later, -, hstate⟩ := stateAt_eq hcomplete hsteady cycle hcycle.le
  rw [hstate]
  rfl

theorem fir1Words_eq : ∀ cycle ≤ horizon,
    fir1Words config input cycle =
      picked (delayed (validAt input)) (fun t => (input t).sAxisTdata)
        cycle := by
  apply log_eq_picked
  intro cycle hcycle
  obtain ⟨later, -, hstate⟩ := stateAt_eq hcomplete hsteady cycle hcycle.le
  rw [hstate]
  rfl

theorem fir0Words_eq : ∀ cycle ≤ horizon,
    fir0Words config input cycle =
      picked (delayed (validAt input))
        (fun t => lineAt 0 (fun t => (input t).sAxisTdata) t 7) cycle := by
  apply log_eq_picked
  intro cycle hcycle
  obtain ⟨later, -, hstate⟩ := stateAt_eq hcomplete hsteady cycle hcycle.le
  rw [hstate]
  rfl

end Invariant

section Gaps

variable {input : ℕ → Input} {horizon : ℕ}

theorem highCycles_acceptsAt (input : ℕ → Input) (cycle : ℕ) :
    highCycles (acceptsAt input) (cycle + 1) + (validAt input 0).toNat =
      highCycles (validAt input) (cycle + 1) := by
  induction cycle with
  | zero =>
      rw [highCycles_succ, highCycles_succ, acceptsAt]
      simp
  | succ cycle ih =>
      have haccepts : acceptsAt input (cycle + 1) =
          validAt input (cycle + 1) := by
        rw [acceptsAt, decide_eq_true (Nat.succ_pos cycle), Bool.and_true]
      rw [highCycles_succ, highCycles_succ (cycle + 1), haccepts, ← ih]
      omega

theorem highCycles_acceptsAt_of_high
    (hall : ∀ cycle < horizon, validAt input cycle = true) {cycle : ℕ}
    (hcycle : cycle < horizon) :
    highCycles (acceptsAt input) (cycle + 1) = cycle := by
  have hshift := highCycles_acceptsAt input cycle
  rw [hall 0 (by omega), Bool.toNat_true,
    highCycles_of_high fun t ht => hall t (by omega)] at hshift
  exact Nat.add_right_cancel hshift

/-- `rx_fir1` takes the words in the cycles in which they are accepted. -/
def TakenInPlace (input : ℕ → Input) (horizon : ℕ) : Prop :=
  ∀ cycle < horizon, delayed (validAt input) cycle = true →
    acceptsAt input cycle = true ∧
      highCycles (acceptsAt input) cycle =
        highCycles (delayed (validAt input)) cycle

theorem gapless_of_takenInPlace (htaken : TakenInPlace input horizon) :
    Gapless input horizon := by
  by_cases hfew : ∀ cycle, cycle + 1 < horizon → validAt input cycle = false
  · exact Or.inr hfew
  · -- the word announced in `early` is taken, so the stream began in cycle 0
    push Not at hfew
    obtain ⟨early, hearly, hvalid⟩ := hfew
    rw [ne_eq, Bool.not_eq_false] at hvalid
    have hnext : ∀ cycle, cycle + 1 < horizon →
        validAt input cycle = true → validAt input (cycle + 1) = true :=
      fun cycle hcycle hhigh =>
        (Bool.and_eq_true_iff.mp (htaken (cycle + 1) hcycle hhigh).1).1
    have hfirst : validAt input 0 = true := by
      have hcount := (htaken (early + 1) hearly hvalid).2
      have hshift := highCycles_acceptsAt input early
      rw [highCycles_delayed] at hcount
      rw [hcount, highCycles_succ, hvalid, Bool.toNat_true] at hshift
      exact Bool.toNat_eq_one.mp (Nat.add_left_cancel hshift)
    left
    intro cycle
    induction cycle with
    | zero => exact fun _ => hfirst
    | succ cycle ih =>
        exact fun hcycle => hnext cycle hcycle (ih (by omega))

theorem takenInPlace_of_gapless (hgapless : Gapless input horizon) :
    TakenInPlace input horizon := by
  intro cycle hcycle htaken
  cases cycle with
  | zero => exact absurd htaken Bool.false_ne_true
  | succ cycle =>
      rcases hgapless with hall | hnone
      · have haccepts : acceptsAt input (cycle + 1) = true :=
          Bool.and_eq_true_iff.mpr ⟨hall _ hcycle, rfl⟩
        refine ⟨haccepts, ?_⟩
        rw [highCycles_delayed, highCycles_acceptsAt_of_high hall (by omega),
          highCycles_of_high fun t ht => hall t (by omega)]
      · rw [delayed, hnone cycle hcycle] at htaken
        exact absurd htaken Bool.false_ne_true

/-- The words of a stream without gap, through the line and around it. -/
theorem line_isPrefix (hgapless : Gapless input horizon)
    (data : ℕ → BitVec 32) :
    picked (delayed (validAt input)) (fun t => lineAt 0 data t 7) horizon <+:
      List.replicate 8 0 ++ picked (acceptsAt input) data horizon := by
  rw [List.prefix_iff_getElem?]
  intro place hplace
  obtain ⟨cycle, hcycle, htaken, hcount, hword⟩ :=
    (getElem?_picked_iff _ _ _).mp (List.getElem?_eq_getElem hplace)
  cases cycle with
  | zero => exact absurd htaken Bool.false_ne_true
  | succ cycle =>
      rcases hgapless with hall | hnone
      · have hcycles : cycle = place := by
          rw [← hcount, highCycles_delayed,
            highCycles_of_high fun t ht => hall t (by omega)]
        subst hcycles
        rw [← hword, List.getElem?_append, List.length_replicate, lineAt]
        by_cases hzero : cycle < 8
        · rw [if_pos hzero, if_neg (by omega), List.getElem?_replicate,
            if_pos hzero]
        · rw [if_neg hzero, if_pos (by omega), getElem?_picked_iff]
          refine ⟨cycle - 8 + 1, by omega, ?_, ?_, ?_⟩
          · exact Bool.and_eq_true_iff.mpr ⟨hall _ (by omega), rfl⟩
          · exact highCycles_acceptsAt_of_high hall (by omega)
          · congr 1
            omega
      · rw [delayed, hnone cycle hcycle] at htaken
        exact absurd htaken Bool.false_ne_true

end Gaps

instance nontrivialWord : Nontrivial (BitVec 32) := ⟨0, 1, by decide⟩

theorem withData_steady {input : ℕ → Input} {horizon : ℕ}
    (hsteady : Steady input horizon) (data : ℕ → BitVec 32) :
    Steady (withData input data) horizon where
  aresetn := hsteady.aresetn
  fir0Tready := hsteady.fir0Tready
  fir1Tready := hsteady.fir1Tready

/-- Once configured and with FIRs that are always ready, both branches get the
accepted words of every stream exactly when the stream has no gap. -/
theorem oversampled_branches_iff (config : StartUp.State) (input : ℕ → Input)
    (horizon : ℕ) (hcomplete : config.firConfigComplete = true)
    (hsteady : Steady input horizon) :
    (∀ data, Branches config (withData input data) horizon) ↔
      Gapless input horizon := by
  have hwith := withData_steady hsteady
  constructor
  · intro hbranches
    have hfir1 : ∀ data : ℕ → BitVec 32,
        picked (delayed (validAt input)) data horizon <+:
          picked (acceptsAt input) data horizon := by
      intro data
      have hwords := (hbranches data).fir1
      rw [fir1Words_eq hcomplete (hwith data) horizon le_rfl,
        accepted_eq hcomplete (hwith data) horizon le_rfl] at hwords
      exact hwords
    exact gapless_of_takenInPlace
      ((forall_picked_isPrefix_iff horizon).mp hfir1)
  · intro hgapless data
    constructor
    · rw [fir1Words_eq hcomplete (hwith data) horizon le_rfl,
        accepted_eq hcomplete (hwith data) horizon le_rfl]
      exact (forall_picked_isPrefix_iff horizon).mpr
        (takenInPlace_of_gapless hgapless) data
    · rw [fir0Words_eq hcomplete (hwith data) horizon le_rfl,
        accepted_eq hcomplete (hwith data) horizon le_rfl]
      exact line_isPrefix hgapless data

/-- The start-up after its last set. -/
def configured : StartUp.State where
  sFirConfigTdata := 9
  sFirConfigTvalid := false
  firConfigComplete := true

/-- Everything ready, the number of the cycle on the bus. -/
def countingRun (sAxisTvalid : ℕ → Bool) (cycle : ℕ) : Input where
  aresetn := true
  sAxisTdata := BitVec.ofNat 32 cycle
  sAxisTvalid := sAxisTvalid cycle
  sFirConfigTready := true
  fir0Tready := true
  fir1Tready := true

/-- A hundred cycles without a gap. -/
theorem oversampled_branches_countingRun :
    (∀ data, Branches configured
        (withData (countingRun fun _ => true) data) 100) ↔
      Gapless (countingRun fun _ => true) 100 :=
  oversampled_branches_iff configured (countingRun fun _ => true) 100 rfl
    ⟨fun _ _ => rfl, fun _ _ => rfl, fun _ _ => rfl⟩

/-- The word 1 is accepted alone, and `rx_fir1` takes the word that stands on
the bus a cycle later. -/
theorem oversampled_not_branches_gap :
    ¬ Branches configured (countingRun fun cycle => decide (cycle = 1)) 3 := by
  intro hbranches
  have hfir1 : [2#32] <+: [1#32] := hbranches.fir1
  exact absurd hfir1 (by decide)

section StartsUp

variable (input : ℕ → Input)

def configTready (cycle : ℕ) : Bool := (input cycle).sFirConfigTready

/-- The set that both FIRs take in a cycle. -/
def acceptedSet (s : State) (i : Input) : List (BitVec 8) :=
  StartUp.acceptedSet s.config i.sFirConfigTready

def stateAt (cycle : ℕ) : State := (core powerUp).stateAt input cycle

def acceptedSets : ℕ → List (BitVec 8) := (core powerUp).log input acceptedSet

/-- The sets 0 to 7 of the comment. -/
def eightSets : List (BitVec 8) := (List.range 8).map (BitVec.ofNat 8)

/-- The FIRs get the eight sets in order and the stream waits for the last. -/
structure StartsUp (horizon : ℕ) : Prop where
  order : acceptedSets input horizon <+: eightSets
  range : ∀ cycle < horizon,
    (stateAt input cycle).config.sFirConfigTvalid = true →
      (stateAt input cycle).config.sFirConfigTdata ∈ eightSets
  /-- A set that has been taken is not offered again. -/
  once : ∀ cycle < horizon, ∀ earlier < cycle,
    (stateAt input cycle).config.sFirConfigTvalid = true →
      (stateAt input cycle).config.sFirConfigTdata ∉
        acceptedSet (stateAt input earlier) (input earlier)
  waits : ∀ cycle < horizon, sAxisTready (stateAt input cycle) = true →
    acceptedSets input cycle = eightSets

/-- The registers of the start-up, whatever else happens. -/
theorem config_stateAt (cycle : ℕ) :
    (stateAt input cycle).config =
      (Machine.mk powerUp configNext).stateAt (configTready input) cycle := by
  induction cycle with
  | zero => rfl
  | succ cycle ih =>
      rw [Machine.stateAt_succ, ← ih, stateAt, Machine.stateAt_succ]
      change (step _ _).config = _
      rw [step]
      split <;> rfl

theorem acceptedSets_eq_log (cycle : ℕ) :
    acceptedSets input cycle =
      (Machine.mk powerUp configNext).log (configTready input)
        StartUp.acceptedSet cycle := by
  induction cycle with
  | zero => rfl
  | succ cycle ih =>
      rw [Machine.log_succ, ← ih, ← config_stateAt]
      rfl

end StartsUp

/-- The sets are 1 to 8, and taking set 7 completes them. -/
theorem counts : StartUp.Counts (fun n => BitVec.ofNat 8 (n + 1)) 7 (· + 1) 7 where
  pos := by decide
  succ := fun n _ => BitVec.ofNat_add (n + 1) 1
  completes_iff := by
    intro n hn
    rw [BitVec.toNat_ofNat, Nat.mod_eq_of_lt (by omega)]

section StartUpRun

variable (input : ℕ → Input) (cycle : ℕ)

theorem config_eq :
    (stateAt input cycle).config =
      StartUp.afterReady (fun n => BitVec.ofNat 8 (n + 1)) 7
        (highCycles (configTready input) cycle) :=
  (config_stateAt input cycle).trans
    (StartUp.stateAt_eq counts (configTready input) cycle)

theorem acceptedSets_eq :
    acceptedSets input cycle =
      (List.range (StartUp.acceptedIn 7
        (highCycles (configTready input) cycle))).map
          fun n => BitVec.ofNat 8 (n + 1) :=
  (acceptedSets_eq_log input cycle).trans
    (StartUp.log_eq counts (configTready input) cycle)

/-- The first ready cycle offers a set and the second one takes it. -/
theorem acceptedSets_eq_nil_iff :
    acceptedSets input cycle = [] ↔
      highCycles (configTready input) cycle ≤ 1 := by
  rw [acceptedSets_eq, List.map_eq_nil_iff, List.range_eq_nil,
    StartUp.acceptedIn_eq_zero_iff]

theorem complete_of_sAxisTready
    (hready : sAxisTready (stateAt input (cycle + 1)) = true) :
    (stateAt input cycle).config.firConfigComplete = true := by
  rw [stateAt, Machine.stateAt_succ] at hready
  change sAxisTready (step (stateAt input cycle) (input cycle)) = true at hready
  rw [sAxisTready, step] at hready
  split at hready
  case isTrue => exact (Bool.and_eq_true_iff.mp hready).2
  case isFalse => exact absurd hready Bool.false_ne_true

end StartUpRun

/-- The set 1 comes first. -/
theorem head?_acceptedSets {input : ℕ → Input} {cycle : ℕ}
    (htaken : acceptedSets input cycle ≠ []) :
    (acceptedSets input cycle)[0]? = some 1 := by
  rw [ne_eq, acceptedSets_eq_nil_iff, ← StartUp.acceptedIn_eq_zero_iff] at htaken
  rw [acceptedSets_eq, List.getElem?_map,
    List.getElem?_range (Nat.pos_of_ne_zero htaken)]
  rfl

/-- While no set has been taken only the set 1 is offered and the stream
waits. -/
theorem startsUp_of_untaken {input : ℕ → Input} {horizon : ℕ}
    (hfew : highCycles (configTready input) horizon ≤ 1) :
    StartsUp input horizon := by
  have hbefore : ∀ cycle ≤ horizon,
      highCycles (configTready input) cycle ≤ 1 :=
    fun cycle hcycle => (highCycles_mono hcycle).trans hfew
  have hnone : ∀ cycle ≤ horizon, acceptedSets input cycle = [] :=
    fun cycle hcycle =>
      (acceptedSets_eq_nil_iff input cycle).mpr (hbefore cycle hcycle)
  constructor
  · rw [hnone horizon le_rfl]
    exact List.nil_prefix
  · intro cycle hcycle _
    rw [config_eq, StartUp.afterReady,
      (StartUp.acceptedIn_eq_zero_iff 7 _).mpr (hbefore cycle hcycle.le)]
    exact List.mem_map.mpr ⟨1, by decide, rfl⟩
  · intro cycle hcycle earlier hearlier _
    have hlog := hnone (earlier + 1) (by omega)
    rw [acceptedSets, Machine.log_succ, List.append_eq_nil_iff] at hlog
    rw [stateAt, stateAt, hlog.2]
    exact List.not_mem_nil
  · intro cycle hcycle hready
    cases cycle with
    | zero => exact absurd hready Bool.false_ne_true
    | succ cycle =>
        have hle := hbefore cycle (by omega)
        have hcomplete := complete_of_sAxisTready input cycle hready
        rw [config_eq, StartUp.afterReady, decide_eq_true_iff] at hcomplete
        omega

/-- The start-up is as announced exactly while no set has been taken. -/
theorem oversampled_startsUp_iff (input : ℕ → Input) (horizon : ℕ) :
    StartsUp input horizon ↔
      highCycles (configTready input) horizon ≤ 1 := by
  constructor
  · intro hstarts
    rw [← acceptedSets_eq_nil_iff]
    by_contra htaken
    have hfirst := head?_acceptedSets htaken
    obtain ⟨rest, hrest⟩ := hstarts.order
    have hzero : eightSets[0]? = some 1 := by
      rw [← hrest]
      obtain ⟨hplace, -⟩ := List.getElem?_eq_some_iff.mp hfirst
      rw [List.getElem?_append_left hplace, hfirst]
    exact absurd hzero (by decide)
  · exact startsUp_of_untaken

/-- With FIRs that are always ready the first set is set 1. -/
theorem oversampled_not_startsUp_countingRun :
    ¬ StartsUp (countingRun fun _ => false) 2 := by
  intro hstarts
  have horder : [1#8] <+: eightSets := hstarts.order
  exact absurd horder (by decide)

end Rfsoc.Oversampled
