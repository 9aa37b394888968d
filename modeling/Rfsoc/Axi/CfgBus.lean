import Rfsoc.Axi.CfgRegister
import Rfsoc.Core.Atomic
import Rfsoc.Core.Progress

/-!
# The processor and the configuration register

The programs reach `axi_cfg_register` through loads and stores, one at a time:
the bus raises the valid lines of an access in its own time, keeps them up until
they are accepted, and makes the next access only after the response.  The
address and the data of a store may come in either order.

For such a bus the core is the memory that the programs take it for: every
access takes effect once and at once, in the order in which they are made, every
load returns what the stores before it have left, and none is left without a
response.
-/

namespace Rfsoc.CfgBus

open Filter
open Rfsoc.Atomic
open Rfsoc.Bits
open Rfsoc.CfgRegister
open Rfsoc.Clocked
open Rfsoc.Progress

abbrev Word := BitVec axiDataWidth

variable {cfgSize axiAddrWidth : ℕ} {Program Choice : Type*}

inductive Access (axiAddrWidth : ℕ) where
  | store (addr : BitVec axiAddrWidth) (data : Word) (strb : BitVec 4)
  | load (addr : BitVec axiAddrWidth)

/-- The strobed bytes of a word, and the others as they were. -/
def merge (strb : BitVec 4) (data old : Word) : Word :=
  generateBits axiDataWidth fun k =>
    if strb.getLsbD (k / 8) then data.getLsbD k else old.getLsbD k

theorem getLsbD_merge (strb : BitVec 4) (data old : Word) (k : ℕ) :
    (merge strb data old).getLsbD k =
      (decide (k < axiDataWidth) &&
        if strb.getLsbD (k / 8) then data.getLsbD k else old.getLsbD k) :=
  getLsbD_generateBits _ _ _

theorem strobes_word : ∀ k < 32, (0b1111#4).getLsbD (k / 8) = true := by
  decide

theorem merge_word (data old : Word) : merge 0b1111#4 data old = data := by
  apply BitVec.eq_of_getLsbD_eq
  intro k hk
  rw [getLsbD_merge, strobes_word k hk, if_pos rfl, decide_eq_true hk,
    Bool.true_and]

namespace Access

/-- What an access does to the words. -/
def perform (cfgSize : ℕ) (words : ℕ → Word) :
    Access axiAddrWidth → ℕ → Word
  | store addr data strb =>
      Function.update words (addressSlice cfgSize addr)
        (merge strb data (words (addressSlice cfgSize addr)))
  | load _ => words

/-- What a load returns. -/
def answer (cfgSize : ℕ) (words : ℕ → Word) : Access axiAddrWidth → Word
  | store _ _ _ => 0
  | load addr => words (addressSlice cfgSize addr)

/-- A load decodes to a word that exists. -/
def InRange (cfgSize : ℕ) : Access axiAddrWidth → Prop
  | store _ _ _ => True
  | load addr => addressSlice cfgSize addr < cfgSize

end Access

def memory (cfgSize axiAddrWidth : ℕ) :
    Service (ℕ → Word) (Access axiAddrWidth) Word where
  serve := Access.perform cfgSize
  reply := Access.answer cfgSize

/-! ## The bus -/

/-- The access in progress and the choice it comes from: the valid lines that are
up, or the response that has not come yet. -/
inductive Phase (axiAddrWidth : ℕ) (Choice : Type*) where
  | idle
  | storing (choice : Choice) (addr : BitVec axiAddrWidth) (data : Word)
      (strb : BitVec 4) (awvalid wvalid : Bool)
  | stored (choice : Choice)
  | loading (choice : Choice) (addr : BitVec axiAddrWidth) (arvalid : Bool)
  | loaded (choice : Choice)
  deriving DecidableEq

structure Master (axiAddrWidth : ℕ) (Program Choice : Type*) where
  program : Program
  phase : Phase axiAddrWidth Choice

structure State (cfgSize axiAddrWidth : ℕ) (Program Choice : Type*) where
  core : CfgRegister.State cfgSize
  master : Master axiAddrWidth Program Choice

/-- What the programs do next, if anything, and when the bus raises its lines. -/
structure Input (Choice : Type*) where
  choice : Option Choice
  aw : Bool
  w : Bool
  ar : Bool
  bready : Bool
  rready : Bool

/-- The ports of the core. -/
def lines (phase : Phase axiAddrWidth Choice) (i : Input Choice) :
    CfgRegister.Input axiAddrWidth where
  aresetn := true
  sAxiAwaddr := match phase with | .storing _ addr _ _ _ _ => addr | _ => 0
  sAxiAwvalid := match phase with | .storing _ _ _ _ aw _ => aw | _ => false
  sAxiWdata := match phase with | .storing _ _ data _ _ _ => data | _ => 0
  sAxiWstrb := match phase with | .storing _ _ _ strb _ _ => strb | _ => 0
  sAxiWvalid := match phase with | .storing _ _ _ _ _ w => w | _ => false
  sAxiBready := match phase with | .stored _ => i.bready | _ => false
  sAxiAraddr := match phase with | .loading _ addr _ => addr | _ => 0
  sAxiArvalid := match phase with | .loading _ _ ar => ar | _ => false
  sAxiRready := match phase with | .loaded _ => i.rready | _ => false

/-- An access comes on the bus. -/
def raise (choice : Choice) (i : Input Choice) :
    Access axiAddrWidth → Phase axiAddrWidth Choice
  | .store addr data strb => .storing choice addr data strb i.aw i.w
  | .load addr => .loading choice addr i.ar

section System

variable (client : Client Program Choice (Access axiAddrWidth) Word)

/-- The master looks at the ready and response lines of the core only. -/
def Master.step (wready arready bvalid rvalid : Bool) (rdata : Word)
    (m : Master axiAddrWidth Program Choice) (i : Input Choice) :
    Master axiAddrWidth Program Choice :=
  match m.phase with
  | .idle =>
      match i.choice with
      | none => m
      | some choice =>
          match client.act m.program choice with
          | .move next => { m with program := next }
          | .request access => { m with phase := raise choice i access }
  | .storing choice addr data strb aw w =>
      if wready then { m with phase := .stored choice }
      else { m with phase := .storing choice addr data strb (aw || i.aw) (w || i.w) }
  | .stored choice =>
      if bvalid && i.bready then
        { program := client.resume m.program choice 0, phase := .idle }
      else m
  | .loading choice addr ar =>
      if ar && arready then { m with phase := .loaded choice }
      else { m with phase := .loading choice addr (ar || i.ar) }
  | .loaded choice =>
      if rvalid && i.rready then
        { program := client.resume m.program choice rdata, phase := .idle }
      else m

def step (s : State cfgSize axiAddrWidth Program Choice) (i : Input Choice) :
    State cfgSize axiAddrWidth Program Choice where
  core := CfgRegister.step s.core (lines s.master.phase i)
  master := s.master.step client (sAxiWready (lines s.master.phase i)) sAxiArready
    (sAxiBvalid s.core) (sAxiRvalid s.core) (sAxiRdata s.core) i

/-- A core out of reset and some programs at their beginning. -/
def system (core : CfgRegister.State cfgSize) (program : Program) :
    Machine (State cfgSize axiAddrWidth Program Choice) (Input Choice) where
  start := { core := core, master := { program := program, phase := .idle } }
  step := step client

/-- The choice that takes effect in a cycle. -/
def committedChoice (s : State cfgSize axiAddrWidth Program Choice)
    (i : Input Choice) : List Choice :=
  match s.master.phase with
  | .idle =>
      match i.choice with
      | none => []
      | some choice =>
          match client.act s.master.program choice with
          | .move _ => [choice]
          | .request _ => []
  | .storing choice _ _ _ aw w => if aw && w then [choice] else []
  | .loading choice _ ar => if ar then [choice] else []
  | _ => []

/-- The programs when the response on the bus is taken. -/
def settled (s : State cfgSize axiAddrWidth Program Choice) : Program :=
  match s.master.phase with
  | .stored choice => client.resume s.master.program choice 0
  | .loaded choice => client.resume s.master.program choice (sAxiRdata s.core)
  | _ => s.master.program

end System

section Core

variable {s : CfgRegister.State cfgSize} {i : CfgRegister.Input axiAddrWidth}

/-- An accepted write merges its strobed bytes into its word. -/
theorem cfgWord_step (hreset : s.resetS = false) {word : ℕ}
    (hword : word < cfgSize) :
    cfgWord (CfgRegister.step s i) word =
      if intWvalidWire i ∧ addressSlice cfgSize i.sAxiAwaddr = word then
        merge i.sAxiWstrb i.sAxiWdata (cfgWord s word)
      else cfgWord s word := by
  apply BitVec.eq_of_getLsbD_eq
  intro n hn
  have hplace : n / 8 * 8 + n % 8 = n := Nat.div_add_mod' n 8
  have hlane : n / 8 < 4 := Nat.div_lt_of_lt_mul hn
  have hbit := getLsbD_intDataNext s i hword hlane (Nat.mod_lt n (by omega))
  rw [hplace, hreset] at hbit
  have hnext : (cfgWord (CfgRegister.step s i) word).getLsbD n =
      (intDataNext s i).getLsbD (word * axiDataWidth + n) := by
    simp [cfgWord, cfgData, CfgRegister.step, hn]
  have hold : (cfgWord s word).getLsbD n =
      s.intDataWire.getLsbD (word * axiDataWidth + n) := by
    simp [cfgWord, cfgData, hn]
  rw [hnext, hbit, ← hold, fdre, if_neg Bool.false_ne_true]
  by_cases hwrites : intWvalidWire i ∧ addressSlice cfgSize i.sAxiAwaddr = word
  · rw [if_pos hwrites, getLsbD_merge, decide_eq_true hn, Bool.true_and]
    simp [tmpS1, intCeWire, hwrites.1, hwrites.2]
  · rw [if_neg hwrites]
    have hquiet : tmpS1 cfgSize i word n = false := by
      by_contra hset
      simp only [tmpS1, intCeWire, Bool.not_eq_false, Bool.and_eq_true,
        beq_iff_eq] at hset
      exact hwrites hset.1
    rw [hquiet, if_neg Bool.false_ne_true]

/-- The read register takes the word that a read selects. -/
theorem intRdataReg_step (hrun : i.aresetn = true) :
    sAxiRdata (CfgRegister.step s i) =
      if i.sAxiArvalid then cfgWord s (addressSlice cfgSize i.sAxiAraddr)
      else sAxiRdata s := by
  simp [CfgRegister.step, sAxiRdata, intRdataNext, hrun, intDataMux, cfgWord,
    cfgData]

end Core

/-- The choice whose access is on the bus and not accepted yet. -/
def onBus : Phase axiAddrWidth Choice → List Choice
  | .storing choice _ _ _ _ _ => [choice]
  | .loading choice _ _ => [choice]
  | _ => []

section Invariant

variable (client : Client Program Choice (Access axiAddrWidth) Word)

/-- The access on the bus is the one that its choice asks for. -/
def Raised (m : Master axiAddrWidth Program Choice) : Prop :=
  match m.phase with
  | .storing choice addr data strb _ _ =>
      client.act m.program choice = .request (.store addr data strb)
  | .loading choice addr _ => client.act m.program choice = .request (.load addr)
  | _ => True

/-- An accepted access has its response. -/
def Responds (s : State cfgSize axiAddrWidth Program Choice) : Prop :=
  match s.master.phase with
  | .stored _ => sAxiBvalid s.core = true
  | .loaded _ => sAxiRvalid s.core = true
  | _ => True

/-- The programs load words of the register only. -/
def LoadsInRange (cfgSize : ℕ) (start : (ℕ → Word) × Program) : Prop :=
  ∀ choices choice access,
    client.act (client.after (memory cfgSize axiAddrWidth) start choices).2
        choice = .request access →
      access.InRange cfgSize

/-- The bus after some choices have taken effect. -/
structure BusInv (start : (ℕ → Word) × Program) (choices : List Choice)
    (s : State cfgSize axiAddrWidth Program Choice) : Prop where
  reset : s.core.resetS = false
  words : ∀ word < cfgSize, cfgWord s.core word =
    (client.after (memory cfgSize axiAddrWidth) start choices).1 word
  program : settled client s =
    (client.after (memory cfgSize axiAddrWidth) start choices).2
  raised : Raised client s.master
  responds : Responds s

end Invariant

section Step

variable {client : Client Program Choice (Access axiAddrWidth) Word}
  {start : (ℕ → Word) × Program} {choices : List Choice}
  {s : State cfgSize axiAddrWidth Program Choice} {i : Input Choice}

/-- Without a store on its lines the core keeps its words. -/
theorem BusInv.words_quiet (hinv : BusInv client start choices s)
    (hquiet : intWvalidWire (lines s.master.phase i) = false) :
    ∀ word < cfgSize, cfgWord (step client s i).core word =
      (client.after (memory cfgSize axiAddrWidth) start choices).1 word := by
  intro word hword
  rw [← hinv.words word hword]
  change cfgWord (CfgRegister.step s.core (lines s.master.phase i)) word = _
  rw [cfgWord_step hinv.reset hword, hquiet]
  simp

/-- An accepted store is in the words after the cycle. -/
theorem BusInv.words_store (hinv : BusInv client start choices s)
    {choice : Choice} {addr : BitVec axiAddrWidth} {data : Word} {strb : BitVec 4}
    (hphase : s.master.phase = .storing choice addr data strb true true) :
    ∀ word < cfgSize, cfgWord (step client s i).core word =
      Access.perform cfgSize
        (client.after (memory cfgSize axiAddrWidth) start choices).1
        (.store addr data strb) word := by
  intro word hword
  change cfgWord (CfgRegister.step s.core (lines s.master.phase i)) word = _
  rw [cfgWord_step hinv.reset hword, hphase, Access.perform]
  simp only [lines, intWvalidWire, Bool.and_self, true_and]
  by_cases hhere : addressSlice cfgSize addr = word
  · rw [if_pos hhere, hhere, Function.update_self, hinv.words word hword]
  · rw [if_neg hhere, Function.update_of_ne (Ne.symm hhere),
      hinv.words word hword]

/-- The word of an accepted load is in the read register after the cycle. -/
theorem BusInv.read (hinv : BusInv client start choices s)
    {choice : Choice} {addr : BitVec axiAddrWidth}
    (hphase : s.master.phase = .loading choice addr true)
    (hword : addressSlice cfgSize addr < cfgSize) :
    sAxiRdata (step client s i).core =
      Access.answer cfgSize
        (client.after (memory cfgSize axiAddrWidth) start choices).1
        (.load addr) := by
  rw [Access.answer, ← hinv.words _ hword]
  change sAxiRdata (CfgRegister.step s.core (lines s.master.phase i)) = _
  rw [intRdataReg_step rfl, hphase]
  simp [lines]

/-- A cycle in which no choice takes effect and no response is lost. -/
theorem BusInv.wait (hinv : BusInv client start choices s)
    (hquiet : intWvalidWire (lines s.master.phase i) = false)
    (hcommitted : committedChoice client s i = [])
    (hsettled : settled client (step client s i) = settled client s)
    (hraised : Raised client (step client s i).master)
    (hresponds : Responds (step client s i)) :
    BusInv client start (choices ++ committedChoice client s i)
      (step client s i) := by
  rw [hcommitted, List.append_nil]
  refine ⟨rfl, hinv.words_quiet hquiet, ?_, hraised, hresponds⟩
  rw [hsettled]
  exact hinv.program

theorem BusInv.step_idle (hinv : BusInv client start choices s)
    (hphase : s.master.phase = .idle) :
    BusInv client start (choices ++ committedChoice client s i)
      (step client s i) := by
  have hquiet : intWvalidWire (lines s.master.phase i) = false := by
    simp [lines, hphase, intWvalidWire]
  cases hchoice : i.choice with
  | none =>
      have hnext : (step client s i).master = s.master := by
        simp [step, Master.step, hphase, hchoice]
      apply hinv.wait hquiet
      · simp [committedChoice, hphase, hchoice]
      · simp [settled, hnext, hphase]
      · simp [Raised, hnext, hphase]
      · simp [Responds, hnext, hphase]
  | some choice =>
      cases hact : client.act s.master.program choice with
      | move next =>
          have hcommitted : committedChoice client s i = [choice] := by
            simp [committedChoice, hphase, hchoice, hact]
          have hnext : (step client s i).master =
              { s.master with program := next } := by
            simp [step, Master.step, hphase, hchoice, hact]
          have hprogram : s.master.program =
              (client.after (memory cfgSize axiAddrWidth) start choices).2 := by
            rw [← hinv.program, settled, hphase]
          rw [hprogram] at hact
          rw [hcommitted]
          refine ⟨rfl, ?_, ?_, ?_, ?_⟩
          · rw [Client.after_concat, Client.atomic_of_move hact]
            exact hinv.words_quiet hquiet
          · rw [Client.after_concat, Client.atomic_of_move hact]
            simp [settled, hnext, hphase]
          · simp [Raised, hnext, hphase]
          · simp [Responds, hnext, hphase]
      | request access =>
          have hnext : (step client s i).master =
              { s.master with phase := raise choice i access } := by
            simp [step, Master.step, hphase, hchoice, hact]
          apply hinv.wait hquiet
          · simp [committedChoice, hphase, hchoice, hact]
          · cases access <;> simp [settled, hnext, hphase, raise]
          · cases access <;> simpa [Raised, hnext, raise] using hact
          · cases access <;> simp [Responds, hnext, raise]

theorem BusInv.step_storing (hinv : BusInv client start choices s)
    {choice : Choice} {addr : BitVec axiAddrWidth} {data : Word} {strb : BitVec 4}
    {aw w : Bool} (hphase : s.master.phase = .storing choice addr data strb aw w) :
    BusInv client start (choices ++ committedChoice client s i)
      (step client s i) := by
  have hact : client.act s.master.program choice =
      .request (.store addr data strb) := by
    have hraised := hinv.raised
    rw [Raised, hphase] at hraised
    exact hraised
  cases hboth : aw && w with
  | false =>
      have hnext : (step client s i).master = { s.master with
          phase := .storing choice addr data strb (aw || i.aw) (w || i.w) } := by
        simp [step, Master.step, hphase, lines, sAxiWready, intWvalidWire, hboth]
      apply hinv.wait
      · simp [lines, hphase, intWvalidWire, hboth]
      · simp [committedChoice, hphase, hboth]
      · simp [settled, hnext, hphase]
      · simpa [Raised, hnext] using hact
      · simp [Responds, hnext]
  | true =>
      obtain ⟨rfl, rfl⟩ := Bool.and_eq_true_iff.mp hboth
      have hcommitted : committedChoice client s i = [choice] := by
        simp [committedChoice, hphase]
      have hnext : (step client s i).master =
          { s.master with phase := .stored choice } := by
        simp [step, Master.step, hphase, lines, sAxiWready, intWvalidWire]
      have hprogram : s.master.program =
          (client.after (memory cfgSize axiAddrWidth) start choices).2 := by
        rw [← hinv.program, settled, hphase]
      rw [hprogram] at hact
      rw [hcommitted]
      refine ⟨rfl, ?_, ?_, ?_, ?_⟩
      · rw [Client.after_concat, Client.atomic_of_request hact]
        exact hinv.words_store hphase
      · rw [Client.after_concat, Client.atomic_of_request hact, ← hprogram, settled, hnext]
        rfl
      · simp [Raised, hnext]
      · rw [Responds, hnext]
        simp [step, hphase, lines, intWvalidWire, CfgRegister.step, sAxiBvalid,
          intBvalidNext]

theorem BusInv.step_loading (hinv : BusInv client start choices s)
    {choice : Choice} {addr : BitVec axiAddrWidth} {ar : Bool}
    (hphase : s.master.phase = .loading choice addr ar)
    (hrange : LoadsInRange client cfgSize start) :
    BusInv client start (choices ++ committedChoice client s i)
      (step client s i) := by
  have hact : client.act s.master.program choice = .request (.load addr) := by
    have hraised := hinv.raised
    rw [Raised, hphase] at hraised
    exact hraised
  have hquiet : intWvalidWire (lines s.master.phase i) = false := by
    simp [lines, hphase, intWvalidWire]
  cases ar with
  | false =>
      have hnext : (step client s i).master =
          { s.master with phase := .loading choice addr i.ar } := by
        simp [step, Master.step, hphase]
      apply hinv.wait hquiet
      · simp [committedChoice, hphase]
      · simp [settled, hnext, hphase]
      · simpa [Raised, hnext] using hact
      · simp [Responds, hnext]
  | true =>
      have hcommitted : committedChoice client s i = [choice] := by
        simp [committedChoice, hphase]
      have hnext : (step client s i).master =
          { s.master with phase := .loaded choice } := by
        simp [step, Master.step, hphase, sAxiArready]
      have hprogram : s.master.program =
          (client.after (memory cfgSize axiAddrWidth) start choices).2 := by
        rw [← hinv.program, settled, hphase]
      rw [hprogram] at hact
      have hread := hinv.read (i := i) hphase (hrange choices choice _ hact)
      rw [hcommitted]
      refine ⟨rfl, ?_, ?_, ?_, ?_⟩
      · rw [Client.after_concat, Client.atomic_of_request hact]
        exact hinv.words_quiet hquiet
      · rw [Client.after_concat, Client.atomic_of_request hact, ← hprogram, settled, hnext,
          hread]
        rfl
      · simp [Raised, hnext]
      · rw [Responds, hnext]
        simp [step, hphase, lines, CfgRegister.step, sAxiRvalid, intRvalidNext]

theorem BusInv.step_stored (hinv : BusInv client start choices s)
    {choice : Choice} (hphase : s.master.phase = .stored choice) :
    BusInv client start (choices ++ committedChoice client s i)
      (step client s i) := by
  have hvalid : sAxiBvalid s.core = true := by
    have hresponds := hinv.responds
    rw [Responds, hphase] at hresponds
    exact hresponds
  have hquiet : intWvalidWire (lines s.master.phase i) = false := by
    simp [lines, hphase, intWvalidWire]
  have hcommitted : committedChoice client s i = [] := by
    simp [committedChoice, hphase]
  cases hready : i.bready with
  | false =>
      have hnext : (step client s i).master = s.master := by
        simp [step, Master.step, hphase, hready]
      apply hinv.wait hquiet hcommitted
      · simp [settled, hnext, hphase]
      · simp [Raised, hnext, hphase]
      · rw [sAxiBvalid] at hvalid
        rw [Responds, hnext, hphase]
        simp [step, hphase, lines, hready, CfgRegister.step, sAxiBvalid,
          intBvalidNext, hvalid]
  | true =>
      have hnext : (step client s i).master =
          { program := client.resume s.master.program choice 0
            phase := .idle } := by
        simp [step, Master.step, hphase, hvalid, hready]
      apply hinv.wait hquiet hcommitted
      · simp [settled, hnext, hphase]
      · simp [Raised, hnext]
      · simp [Responds, hnext]

theorem BusInv.step_loaded (hinv : BusInv client start choices s)
    {choice : Choice} (hphase : s.master.phase = .loaded choice) :
    BusInv client start (choices ++ committedChoice client s i)
      (step client s i) := by
  have hvalid : sAxiRvalid s.core = true := by
    have hresponds := hinv.responds
    rw [Responds, hphase] at hresponds
    exact hresponds
  have hquiet : intWvalidWire (lines s.master.phase i) = false := by
    simp [lines, hphase, intWvalidWire]
  have hcommitted : committedChoice client s i = [] := by
    simp [committedChoice, hphase]
  have hread : sAxiRdata (step client s i).core = sAxiRdata s.core := by
    change sAxiRdata (CfgRegister.step s.core (lines s.master.phase i)) = _
    rw [intRdataReg_step rfl, hphase]
    simp [lines]
  cases hready : i.rready with
  | false =>
      have hnext : (step client s i).master = s.master := by
        simp [step, Master.step, hphase, hready]
      apply hinv.wait hquiet hcommitted
      · simp [settled, hnext, hphase, hread]
      · simp [Raised, hnext, hphase]
      · rw [sAxiRvalid] at hvalid
        rw [Responds, hnext, hphase]
        simp [step, hphase, lines, hready, CfgRegister.step, sAxiRvalid,
          intRvalidNext, hvalid]
  | true =>
      have hnext : (step client s i).master =
          { program := client.resume s.master.program choice (sAxiRdata s.core)
            phase := .idle } := by
        simp [step, Master.step, hphase, hvalid, hready]
      apply hinv.wait hquiet hcommitted
      · simp [settled, hnext, hphase]
      · simp [Raised, hnext]
      · simp [Responds, hnext]

theorem BusInv.step (hinv : BusInv client start choices s)
    (hrange : LoadsInRange client cfgSize start) :
    BusInv client start (choices ++ committedChoice client s i)
      (step client s i) := by
  cases hphase : s.master.phase with
  | idle => exact hinv.step_idle hphase
  | storing choice addr data strb aw w => exact hinv.step_storing hphase
  | stored choice => exact hinv.step_stored hphase
  | loading choice addr ar => exact hinv.step_loading hphase hrange
  | loaded choice => exact hinv.step_loaded hphase

end Step

theorem committedChoice_eq (client : Client Program Choice (Access axiAddrWidth) Word)
    (s : State cfgSize axiAddrWidth Program Choice) (i : Input Choice) :
    committedChoice client s i = [] ∨
      ∃ choice, committedChoice client s i = [choice] := by
  rw [committedChoice]
  split
  · split
    · exact Or.inl rfl
    · split
      · exact Or.inr ⟨_, rfl⟩
      · exact Or.inl rfl
  · split_ifs
    · exact Or.inr ⟨_, rfl⟩
    · exact Or.inl rfl
  · split_ifs
    · exact Or.inr ⟨_, rfl⟩
    · exact Or.inl rfl
  · exact Or.inl rfl

theorem settled_eq (client : Client Program Choice (Access axiAddrWidth) Word)
    (s : State cfgSize axiAddrWidth Program Choice) :
    settled client s = s.master.program ∨ ∃ choice word,
      settled client s = client.resume s.master.program choice word := by
  cases hphase : s.master.phase with
  | stored choice => exact Or.inr ⟨choice, 0, by rw [settled, hphase]⟩
  | loaded choice =>
      exact Or.inr ⟨choice, sAxiRdata s.core, by rw [settled, hphase]⟩
  | _ => exact Or.inl (by rw [settled, hphase])

/-! ## Progress -/

/-- A bus on which no line waits for ever. -/
structure Fair (input : ℕ → Input Choice) : Prop where
  aw : ∃ᶠ cycle in atTop, (input cycle).aw = true
  w : ∃ᶠ cycle in atTop, (input cycle).w = true
  ar : ∃ᶠ cycle in atTop, (input cycle).ar = true
  bready : ∃ᶠ cycle in atTop, (input cycle).bready = true
  rready : ∃ᶠ cycle in atTop, (input cycle).rready = true

section Run

variable (client : Client Program Choice (Access axiAddrWidth) Word)
  (core : CfgRegister.State cfgSize) (program : Program)
  (input : ℕ → Input Choice)

def stateAt (cycle : ℕ) : State cfgSize axiAddrWidth Program Choice :=
  (system client core program).stateAt input cycle

/-- The choices that have taken effect before a cycle. -/
def committed : ℕ → List Choice :=
  (system client core program).log input (committedChoice client)

/-- The bus is in a phase, after some choices. -/
def At (phase : Phase axiAddrWidth Choice) (choices : List Choice) (cycle : ℕ) :
    Prop :=
  (stateAt client core program input cycle).master.phase = phase ∧
    committed client core program input cycle = choices

variable {client core program}

theorem busInv_stateAt (hreset : core.resetS = false)
    (hrange : LoadsInRange client cfgSize (cfgWord core, program))
    (cycle : ℕ) :
    BusInv client (cfgWord core, program)
      (committed client core program input cycle)
      (stateAt client core program input cycle) := by
  induction cycle with
  | zero => exact ⟨hreset, fun _ _ => rfl, rfl, trivial, trivial⟩
  | succ cycle ih =>
      rw [committed, Machine.log_succ, ← committed]
      exact ih.step hrange

variable {input} {choices : List Choice} {choice : Choice}
  {addr : BitVec axiAddrWidth} {data : Word} {strb : BitVec 4}

/-- A cycle of the bus, by the phase it leaves and the choice it commits. -/
theorem At.succ {phase next : Phase axiAddrWidth Choice} {more : List Choice}
    {cycle : ℕ} (hat : At client core program input phase choices cycle)
    (hnext : (step client (stateAt client core program input cycle)
      (input cycle)).master.phase = next)
    (hmore : committedChoice client (stateAt client core program input cycle)
      (input cycle) = more) :
    At client core program input next (choices ++ more) (cycle + 1) := by
  refine ⟨hnext, ?_⟩
  rw [committed, Machine.log_succ, ← committed, hat.2]
  exact congrArg (choices ++ ·) hmore

theorem storing_wait {aw w : Bool} {cycle : ℕ}
    (hat : At client core program input (.storing choice addr data strb aw w)
      choices cycle) (hboth : (aw && w) = false) :
    At client core program input
      (.storing choice addr data strb (aw || (input cycle).aw)
        (w || (input cycle).w)) choices (cycle + 1) := by
  have hnone : committedChoice client (stateAt client core program input cycle)
      (input cycle) = [] := by
    simp [committedChoice, hat.1, hboth]
  have hnext := hat.succ rfl hnone
  rw [List.append_nil] at hnext
  convert hnext using 1
  simp [step, Master.step, hat.1, lines, sAxiWready, intWvalidWire, hboth]

theorem storing_leadsTo (hfair : Fair input) {aw w : Bool} :
    LeadsTo
      (At client core program input (.storing choice addr data strb aw w) choices)
      (At client core program input (.stored choice) (choices ++ [choice])) := by
  have hboth : LeadsTo
      (At client core program input (.storing choice addr data strb true true)
        choices)
      (At client core program input (.stored choice) (choices ++ [choice])) := by
    apply LeadsTo.of_next
    intro cycle hat
    apply hat.succ
    · simp [step, Master.step, hat.1, lines, sAxiWready, intWvalidWire]
    · simp [committedChoice, hat.1]
  have haddress : ∀ w, LeadsTo
      (At client core program input (.storing choice addr data strb true w)
        choices)
      (At client core program input (.stored choice) (choices ++ [choice])) := by
    intro w
    cases w with
    | true => exact hboth
    | false =>
        refine (LeadsTo.of_event hfair.w ?_ ?_).trans hboth
        · intro cycle hat hquiet
          have hnext := storing_wait hat rfl
          rw [Bool.eq_false_iff.mpr hquiet] at hnext
          exact hnext
        · intro cycle hat hraised
          have hnext := storing_wait hat rfl
          rw [hraised] at hnext
          exact hnext
  have hdata : LeadsTo
      (fun cycle => ∃ w, At client core program input
        (.storing choice addr data strb false w) choices cycle)
      (fun cycle => ∃ w, At client core program input
        (.storing choice addr data strb true w) choices cycle) := by
    apply LeadsTo.of_event hfair.aw
    · rintro cycle ⟨w, hat⟩ hquiet
      have hnext := storing_wait hat rfl
      rw [Bool.eq_false_iff.mpr hquiet] at hnext
      exact ⟨_, hnext⟩
    · rintro cycle ⟨w, hat⟩ hraised
      have hnext := storing_wait hat rfl
      rw [hraised] at hnext
      exact ⟨_, hnext⟩
  cases aw with
  | true => exact haddress w
  | false =>
      intro cycle hat
      obtain ⟨middle, hmiddle, w, hthere⟩ := hdata cycle ⟨w, hat⟩
      obtain ⟨later, hlater, hend⟩ := haddress w middle hthere
      exact ⟨later, hmiddle.trans hlater, hend⟩

theorem loading_leadsTo (hfair : Fair input) {ar : Bool} :
    LeadsTo (At client core program input (.loading choice addr ar) choices)
      (At client core program input (.loaded choice) (choices ++ [choice])) := by
  have hraised : LeadsTo
      (At client core program input (.loading choice addr true) choices)
      (At client core program input (.loaded choice) (choices ++ [choice])) := by
    apply LeadsTo.of_next
    intro cycle hat
    apply hat.succ
    · simp [step, Master.step, hat.1, sAxiArready]
    · simp [committedChoice, hat.1]
  cases ar with
  | true => exact hraised
  | false =>
      refine (LeadsTo.of_event hfair.ar ?_ ?_).trans hraised
      · intro cycle hat hquiet
        rw [← List.append_nil choices]
        apply hat.succ
        · simp [step, Master.step, hat.1, Bool.eq_false_iff.mpr hquiet]
        · simp [committedChoice, hat.1]
      · intro cycle hat hevent
        rw [← List.append_nil choices]
        apply hat.succ
        · simp [step, Master.step, hat.1, hevent]
        · simp [committedChoice, hat.1]

/-- A free bus on which nothing is chosen stays as it is. -/
theorem stateAt_quiet {first cycle : ℕ}
    (hidle : (stateAt client core program input first).master.phase = .idle)
    (hquiet : ∀ later, first ≤ later → (input later).choice = none)
    (hcycle : first ≤ cycle) :
    (stateAt client core program input cycle).master =
        (stateAt client core program input first).master ∧
      committed client core program input cycle =
        committed client core program input first := by
  induction cycle, hcycle using Nat.le_induction with
  | base => exact ⟨rfl, rfl⟩
  | succ cycle hcycle ih =>
      obtain ⟨hmaster, hcommitted⟩ := ih
      have hphase := hidle
      rw [← hmaster] at hphase
      have hnone := hquiet cycle hcycle
      have hnext : (stateAt client core program input (cycle + 1)).master =
          (stateAt client core program input cycle).master := by
        change (step client (stateAt client core program input cycle)
          (input cycle)).master = _
        simp [step, Master.step, hphase, hnone]
      have hchoice : committedChoice client
          (stateAt client core program input cycle) (input cycle) = [] := by
        simp [committedChoice, hphase, hnone]
      constructor
      · rw [hnext, hmaster]
      · rw [committed, Machine.log_succ, ← committed, hcommitted]
        exact (congrArg (_ ++ ·) hchoice).trans (List.append_nil _)

section Responses

variable (hreset : core.resetS = false)
  (hrange : LoadsInRange client cfgSize (cfgWord core, program))
include hreset hrange

theorem stored_leadsTo (hfair : Fair input) :
    LeadsTo (At client core program input (.stored choice) choices)
      (At client core program input .idle choices) := by
  have hvalid : ∀ cycle,
      At client core program input (.stored choice) choices cycle →
        sAxiBvalid (stateAt client core program input cycle).core = true := by
    intro cycle hat
    have hresponds : Responds (stateAt client core program input cycle) :=
      (busInv_stateAt input hreset hrange cycle).responds
    rw [Responds, hat.1] at hresponds
    exact hresponds
  apply LeadsTo.of_event hfair.bready
  · intro cycle hat hquiet
    rw [← List.append_nil choices]
    apply hat.succ
    · simp [step, Master.step, hat.1, Bool.eq_false_iff.mpr hquiet]
    · simp [committedChoice, hat.1]
  · intro cycle hat hready
    rw [← List.append_nil choices]
    apply hat.succ
    · simp [step, Master.step, hat.1, hvalid cycle hat, hready]
    · simp [committedChoice, hat.1]

theorem loaded_leadsTo (hfair : Fair input) :
    LeadsTo (At client core program input (.loaded choice) choices)
      (At client core program input .idle choices) := by
  have hvalid : ∀ cycle,
      At client core program input (.loaded choice) choices cycle →
        sAxiRvalid (stateAt client core program input cycle).core = true := by
    intro cycle hat
    have hresponds : Responds (stateAt client core program input cycle) :=
      (busInv_stateAt input hreset hrange cycle).responds
    rw [Responds, hat.1] at hresponds
    exact hresponds
  apply LeadsTo.of_event hfair.rready
  · intro cycle hat hquiet
    rw [← List.append_nil choices]
    apply hat.succ
    · simp [step, Master.step, hat.1, Bool.eq_false_iff.mpr hquiet]
    · simp [committedChoice, hat.1]
  · intro cycle hat hready
    rw [← List.append_nil choices]
    apply hat.succ
    · simp [step, Master.step, hat.1, hvalid cycle hat, hready]
    · simp [committedChoice, hat.1]

/-- On a fair bus every access takes effect, and the bus is free again. -/
theorem idle_of_fair (hfair : Fair input) (cycle : ℕ) :
    ∃ later, cycle ≤ later ∧ At client core program input .idle
      (committed client core program input cycle ++
        onBus (stateAt client core program input cycle).master.phase) later := by
  have hat : At client core program input
      (stateAt client core program input cycle).master.phase
      (committed client core program input cycle) cycle := ⟨rfl, rfl⟩
  cases hphase : (stateAt client core program input cycle).master.phase with
  | idle =>
      rw [hphase] at hat
      simp only [onBus, List.append_nil]
      exact ⟨cycle, le_rfl, hat⟩
  | storing choice addr data strb aw w =>
      rw [hphase] at hat
      exact ((storing_leadsTo hfair).trans
        (stored_leadsTo hreset hrange hfair)) cycle hat
  | stored choice =>
      rw [hphase] at hat
      simp only [onBus, List.append_nil]
      exact stored_leadsTo hreset hrange hfair cycle hat
  | loading choice addr ar =>
      rw [hphase] at hat
      exact ((loading_leadsTo hfair).trans
        (loaded_leadsTo hreset hrange hfair)) cycle hat
  | loaded choice =>
      rw [hphase] at hat
      simp only [onBus, List.append_nil]
      exact loaded_leadsTo hreset hrange hfair cycle hat

end Responses

variable (client core program input)

/-- The core with its bus at a cycle, next to a memory that makes every access at
once: the words and the programs are those after the choices that have taken
effect. -/
structure ActsAtOnce (cycle : ℕ) : Prop where
  words : ∀ word < cfgSize,
    cfgWord (stateAt client core program input cycle).core word =
      (client.after (memory cfgSize axiAddrWidth) (cfgWord core, program)
        (committed client core program input cycle)).1 word
  programs : settled client (stateAt client core program input cycle) =
    (client.after (memory cfgSize axiAddrWidth) (cfgWord core, program)
      (committed client core program input cycle)).2
  /-- On a fair bus what is on the bus takes effect, once and before anything
  else, and the bus is free again. -/
  progress : Fair input → ∃ later, cycle ≤ later ∧
    (stateAt client core program input later).master.phase = .idle ∧
    committed client core program input later =
      committed client core program input cycle ++
        onBus (stateAt client core program input cycle).master.phase

end Run

/-- The core is the memory that the programs take it for, whatever the timing of
the bus. -/
theorem cfgBus_actsAtOnce
    (client : Client Program Choice (Access axiAddrWidth) Word)
    (core : CfgRegister.State cfgSize) (hreset : core.resetS = false)
    (program : Program)
    (hrange : LoadsInRange client cfgSize (cfgWord core, program))
    (input : ℕ → Input Choice) (cycle : ℕ) :
    ActsAtOnce client core program input cycle := by
  have hinv : BusInv client (cfgWord core, program)
      (committed client core program input cycle)
      (stateAt client core program input cycle) :=
    busInv_stateAt input hreset hrange cycle
  exact ⟨hinv.words, hinv.program,
    fun hfair => idle_of_fair hreset hrange hfair cycle⟩

/-- A half-word store and a read of the word that it is in, over and over. -/
def readBack : Client (List Word) Bool (Access 32) Word where
  act := fun _ stores =>
    if stores then .request (.store 6#32 0x00630000#32 0b1100#4)
    else .request (.load 4#32)
  resume := fun seen stores word => if stores then seen else seen ++ [word]

/-- A bus that lets the address of a store come after its data. -/
theorem cfgBus_actsAtOnce_readBack :
    ActsAtOnce readBack poweredUp []
      (fun cycle =>
        { choice := some (cycle % 8 < 4)
          aw := cycle % 2 = 1, w := true, ar := true
          bready := true, rready := cycle % 3 = 0 }) 16 :=
  cfgBus_actsAtOnce readBack poweredUp rfl []
    (by
      intro choices choice access hact
      cases choice
      · obtain rfl := Action.request.inj hact
        exact (by decide +kernel : addressSlice 2 4#32 < 2)
      · obtain rfl := Action.request.inj hact
        exact trivial) _ 16

end Rfsoc.CfgBus
