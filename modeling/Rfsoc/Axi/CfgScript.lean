import Rfsoc.Axi.CfgBus
import Mathlib.Order.Monotone.Basic

/-!
# Scripts over the configuration register

The programs that take one snapshot configure the cores line by line: a line
stores a value into a part of the register, or reads a word, changes it and
writes it back.  When no other program runs, the words after some lines are what
these lines make of them one after the other, and what a line has read still
stands in the register when it writes.  After its last line the program goes on
with what it sees of the hardware.
-/

namespace Rfsoc.CfgScript

open Rfsoc.Atomic
open Rfsoc.CfgBus
open Rfsoc.CfgRegister
open Rfsoc.Clocked

variable {cfgSize : ℕ} {After Sight : Type*}

inductive Line where
  | write (addr : BitVec 32) (data : Word) (strb : BitVec 4)
  | modify (addr : BitVec 32) (change : Word → Word) (strb : BitVec 4)

/-- What a line by itself does to the words. -/
def Line.perform (cfgSize : ℕ) (words : ℕ → Word) : Line → ℕ → Word
  | write addr data strb => (Access.store addr data strb).perform cfgSize words
  | modify addr change strb =>
      (Access.store addr (change (words (addressSlice cfgSize addr)))
        strb).perform cfgSize words

section Perform

variable {words : ℕ → Word} {addr : BitVec 32} {word : ℕ}

/-- A line leaves the words of other addresses. -/
theorem perform_write_of_ne {data : Word} {strb : BitVec 4}
    (hword : word ≠ addressSlice cfgSize addr) :
    (Line.write addr data strb).perform cfgSize words word = words word := by
  rw [Line.perform, Access.perform, Function.update_of_ne hword]

theorem perform_modify_of_ne {change : Word → Word} {strb : BitVec 4}
    (hword : word ≠ addressSlice cfgSize addr) :
    (Line.modify addr change strb).perform cfgSize words word = words word := by
  rw [Line.perform, Access.perform, Function.update_of_ne hword]

/-- With all its strobes a line sets a whole word. -/
theorem perform_write_word {data : Word}
    (hword : addressSlice cfgSize addr = word) :
    (Line.write addr data 0b1111#4).perform cfgSize words word = data := by
  rw [Line.perform, Access.perform, hword, Function.update_self, merge_word]

theorem perform_modify_word {change : Word → Word}
    (hword : addressSlice cfgSize addr = word) :
    (Line.modify addr change 0b1111#4).perform cfgSize words word =
      change (words word) := by
  rw [Line.perform, Access.perform, hword, Function.update_self, merge_word]

end Perform

/-- The words after some lines of a script. -/
def performed (cfgSize : ℕ) (lines : List Line) (start : ℕ → Word) (count : ℕ) :
    ℕ → Word :=
  (lines.take count).foldl (Line.perform cfgSize) start

/-- The lines that are left, and the word that the first of them has read. -/
structure Script where
  lines : List Line
  loaded : Option Word

namespace Script

def next (script : Script) : Option (Access 32) :=
  match script.lines, script.loaded with
  | [], _ => none
  | .write addr data strb :: _, _ => some (.store addr data strb)
  | .modify addr _ _ :: _, none => some (.load addr)
  | .modify addr change strb :: _, some word =>
      some (.store addr (change word) strb)

def resume (word : Word) (script : Script) : Script :=
  match script.lines, script.loaded with
  | .modify addr change strb :: rest, none =>
      { lines := .modify addr change strb :: rest, loaded := some word }
  | lines, _ => { lines := lines.tail, loaded := none }

theorem next_eq_none {script : Script} (hnext : script.next = none) :
    script.lines = [] := by
  obtain ⟨lines, loaded⟩ := script
  cases lines with
  | nil => rfl
  | cons line rest =>
      cases line with
      | write addr data strb => cases hnext
      | modify addr change strb => cases loaded <;> cases hnext

/-- An access is a store that ends its line, or the load that begins it. -/
theorem next_cases {script : Script} {access : Access 32}
    (hnext : script.next = some access) :
    ∃ line rest, script.lines = line :: rest ∧
      ((∃ addr data strb, line = .write addr data strb ∧
          access = .store addr data strb ∧
          ∀ word, script.resume word = { lines := rest, loaded := none }) ∨
        (∃ addr change strb, line = .modify addr change strb ∧
          access = .load addr ∧ ∀ word, script.resume word =
            { lines := line :: rest, loaded := some word }) ∨
        ∃ addr change strb old, line = .modify addr change strb ∧
          script.loaded = some old ∧ access = .store addr (change old) strb ∧
          ∀ word, script.resume word = { lines := rest, loaded := none }) := by
  obtain ⟨lines, loaded⟩ := script
  cases lines with
  | nil => cases hnext
  | cons line rest =>
      refine ⟨line, rest, rfl, ?_⟩
      cases line with
      | write addr data strb =>
          obtain rfl := Option.some.inj hnext
          exact Or.inl ⟨addr, data, strb, rfl, rfl, fun _ => rfl⟩
      | modify addr change strb =>
          cases loaded with
          | none =>
              obtain rfl := Option.some.inj hnext
              exact Or.inr (Or.inl ⟨addr, change, strb, rfl, rfl, fun _ => rfl⟩)
          | some old =>
              obtain rfl := Option.some.inj hnext
              exact Or.inr (Or.inr
                ⟨addr, change, strb, old, rfl, rfl, rfl, fun _ => rfl⟩)

end Script

/-- A program in its script or behind it. -/
inductive Host (After : Type*) where
  | configuring (script : Script)
  | after (place : After)

/-- A program that begins with a script and then moves by what it sees. -/
def scripted (first : After) (move : After → Sight → After) :
    Client (Host After) Sight (Access 32) Word where
  act := fun host sight =>
    match host with
    | .configuring script =>
        match script.next with
        | some access => .request access
        | none => .move (.after first)
    | .after place => .move (.after (move place sight))
  resume := fun host _ word =>
    match host with
    | .configuring script => .configuring (script.resume word)
    | .after place => .after place

/-- What a cycle does to the words and the program, as far as the accesses that
have taken effect go. -/
inductive Advance (cfgSize : ℕ) (first : After) (move : After → Sight → After)
    (seen : Option Sight) :
    (ℕ → Word) × Host After → (ℕ → Word) × Host After → Prop where
  | stay (s) : Advance cfgSize first move seen s s
  | access {words script access} (hnext : script.next = some access) :
      Advance cfgSize first move seen (words, .configuring script)
        (access.perform cfgSize words,
          .configuring (script.resume (access.answer cfgSize words)))
  | finish {words script} (hnext : script.next = none) :
      Advance cfgSize first move seen (words, .configuring script)
        (words, .after first)
  | move {words place sight} (hseen : seen = some sight) :
      Advance cfgSize first move seen (words, .after place)
        (words, .after (move place sight))

/-- How a program has come to a place behind its script. -/
theorem Advance.after_cases {first : After} {move : After → Sight → After}
    {seen : Option Sight} {s s' : (ℕ → Word) × Host After}
    (hadvance : Advance cfgSize first move seen s s') {place : After}
    (hplace : s'.2 = .after place) :
    s.2 = .after place ∨ place = first ∨
      ∃ before sight, s.2 = .after before ∧ seen = some sight ∧
        place = move before sight := by
  cases hadvance with
  | stay => exact Or.inl hplace
  | access hnext => cases hplace
  | finish hnext => exact Or.inr (Or.inl (Host.after.inj hplace).symm)
  | move hseen =>
      exact Or.inr (Or.inr ⟨_, _, rfl, hseen, (Host.after.inj hplace).symm⟩)

/-- The lines that have been made. -/
def linesDone (lines : List Line) : Host After → ℕ
  | .configuring script => lines.length - script.lines.length
  | .after _ => lines.length

/-- A program in its script: the words are those after the lines so far, and a
word that has been read is still there. -/
structure Ordered (cfgSize : ℕ) (lines : List Line) (start : ℕ → Word)
    (s : (ℕ → Word) × Host After) : Prop where
  words : s.1 = performed cfgSize lines start (linesDone lines s.2)
  left : ∀ script, s.2 = .configuring script → script.lines <:+ lines
  loaded : ∀ script, s.2 = .configuring script →
    ∀ word, script.loaded = some word → ∃ addr change strb rest,
      script.lines = .modify addr change strb :: rest ∧
        word = s.1 (addressSlice cfgSize addr)

section Order

variable {lines : List Line} {start : ℕ → Word}

/-- One more line. -/
theorem performed_of_suffix {line : Line} {rest : List Line}
    (hleft : line :: rest <:+ lines) :
    performed cfgSize lines start (lines.length - rest.length) =
      line.perform cfgSize
        (performed cfgSize lines start
          (lines.length - (line :: rest).length)) := by
  obtain ⟨before, rfl⟩ := hleft
  have hhere : (before ++ line :: rest).length - (line :: rest).length =
      before.length := by
    rw [List.length_append, Nat.add_sub_cancel]
  have hnext : (before ++ line :: rest).length - rest.length =
      (before ++ [line]).length := by
    simp only [List.length_append, List.length_cons, List.length_nil]
    omega
  have hsplit : before ++ line :: rest = before ++ [line] ++ rest := by
    rw [List.append_assoc]
    rfl
  rw [hhere, hnext, performed, performed, List.take_left, hsplit, List.take_left,
    List.foldl_append]
  rfl

theorem ordered_start :
    Ordered cfgSize lines start
      (start,
        (.configuring { lines := lines, loaded := none } : Host After)) where
  words := by simp [performed, linesDone]
  left := by
    rintro script hscript
    obtain rfl := Host.configuring.inj hscript
    exact List.suffix_rfl
  loaded := by
    rintro script hscript word hword
    obtain rfl := Host.configuring.inj hscript
    exact absurd hword (Option.some_ne_none word).symm

variable {first : After} {move : After → Sight → After} {seen : Option Sight}
  {s s' : (ℕ → Word) × Host After}

/-- A line that is finished. -/
theorem ordered_line {words : ℕ → Word} {script : Script} {line : Line}
    {rest : List Line} (hlines : script.lines = line :: rest)
    (hordered : Ordered cfgSize lines start
      (words, (.configuring script : Host After))) :
    Ordered cfgSize lines start
        (line.perform cfgSize words,
          (.configuring { lines := rest, loaded := none } : Host After)) ∧
      lines.length - rest.length =
        linesDone lines (.configuring script : Host After) + 1 := by
  have hleft : line :: rest <:+ lines := hlines ▸ hordered.left script rfl
  have hwords : words = performed cfgSize lines start
      (lines.length - (line :: rest).length) := hlines ▸ hordered.words
  have hlength := hleft.length_le
  rw [List.length_cons] at hlength
  refine ⟨⟨?_, ?_, ?_⟩, ?_⟩
  · rw [hwords]
    exact (performed_of_suffix hleft).symm
  · rintro script' hscript
    obtain rfl := Host.configuring.inj hscript
    exact (List.suffix_cons line rest).trans hleft
  · rintro script' hscript word hword
    obtain rfl := Host.configuring.inj hscript
    exact absurd hword (Option.some_ne_none word).symm
  · rw [linesDone, hlines, List.length_cons]
    omega

/-- An access finishes its line, or is the load that begins one. -/
theorem ordered_access {words : ℕ → Word} {script : Script} {access : Access 32}
    (hnext : script.next = some access)
    (hordered : Ordered cfgSize lines start
      (words, (.configuring script : Host After))) :
    Ordered cfgSize lines start
        (access.perform cfgSize words,
          (.configuring (script.resume (access.answer cfgSize words)) :
            Host After)) ∧
      (linesDone lines (.configuring
            (script.resume (access.answer cfgSize words)) : Host After) =
          linesDone lines (.configuring script : Host After) ∨
        linesDone lines (.configuring
            (script.resume (access.answer cfgSize words)) : Host After) =
          linesDone lines (.configuring script : Host After) + 1) := by
  obtain ⟨line, rest, hlines, hcases⟩ := Script.next_cases hnext
  obtain ⟨hline, hcount⟩ := ordered_line hlines hordered
  obtain ⟨addr, data, strb, rfl, rfl, hresume⟩ |
      ⟨addr, change, strb, rfl, rfl, hresume⟩ |
      ⟨addr, change, strb, old, rfl, hloaded, rfl, hresume⟩ := hcases
  · rw [hresume]
    exact ⟨hline, Or.inr hcount⟩
  · rw [hresume, ← hlines]
    refine ⟨⟨hordered.words, ?_, ?_⟩, Or.inl rfl⟩
    · rintro script' hscript
      obtain rfl := Host.configuring.inj hscript
      exact hordered.left script rfl
    · rintro script' hscript word hword
      obtain rfl := Host.configuring.inj hscript
      obtain rfl := Option.some.inj hword
      exact ⟨addr, change, strb, rest, hlines, rfl⟩
  · obtain ⟨addr', change', strb', rest', hhead, hold⟩ :=
      hordered.loaded script rfl old hloaded
    rw [hlines] at hhead
    obtain ⟨rfl, rfl, rfl⟩ := Line.modify.inj (List.cons.inj hhead).1
    rw [hresume, hold]
    exact ⟨hline, Or.inr hcount⟩

/-- Every step keeps the order and makes at most one line. -/
theorem Ordered.advance (hordered : Ordered cfgSize lines start s)
    (hadvance : Advance cfgSize first move seen s s') :
    Ordered cfgSize lines start s' ∧
      (linesDone lines s'.2 = linesDone lines s.2 ∨
        linesDone lines s'.2 = linesDone lines s.2 + 1) := by
  have hafter : ∀ {words : ℕ → Word} {place : After},
      words = performed cfgSize lines start lines.length →
        Ordered cfgSize lines start (words, .after place) := by
    intro words place hwords
    refine ⟨hwords, ?_, ?_⟩
    · intro script hscript
      cases hscript
    · intro script hscript
      cases hscript
  cases hadvance with
  | stay => exact ⟨hordered, Or.inl rfl⟩
  | access hnext => exact ordered_access hnext hordered
  | @finish words script hnext =>
      have hcount : linesDone lines (.configuring script : Host After) =
          lines.length := by
        rw [linesDone, Script.next_eq_none hnext]
        rfl
      have hwords := hordered.words
      rw [hcount] at hwords
      exact ⟨hafter hwords, Or.inl hcount.symm⟩
  | move => exact ⟨hafter hordered.words, Or.inl rfl⟩

end Order

section Count

variable {count : ℕ → ℕ} (hstep : ∀ cycle,
  count (cycle + 1) = count cycle ∨ count (cycle + 1) = count cycle + 1)
include hstep

theorem count_mono : Monotone count := by
  apply monotone_nat_of_le_succ
  intro cycle
  obtain hsame | hmore := hstep cycle <;> omega

/-- Every line has its cycle. -/
theorem exists_line {lines : ℕ} (hstart : count 0 ≤ lines) {cycle : ℕ}
    (hmade : lines < count cycle) :
    ∃ made < cycle, count made = lines ∧
      ∀ between, made < between → between ≤ cycle → lines < count between := by
  induction cycle with
  | zero => omega
  | succ cycle ih =>
      have hlast := hstep cycle
      by_cases hbefore : lines < count cycle
      · obtain ⟨made, hlt, hline, hsince⟩ := ih hbefore
        refine ⟨made, Nat.lt_succ_of_lt hlt, hline, fun between hlow hhigh => ?_⟩
        obtain hle | rfl := Nat.le_succ_iff.mp hhigh
        · exact hsince between hlow hle
        · exact hmade
      · refine ⟨cycle, Nat.lt_succ_self cycle, by omega,
          fun between hlow hhigh => ?_⟩
        obtain rfl : between = cycle + 1 := by omega
        exact hmade

end Count

section Bus

variable {lines : List Line} {start : ℕ → Word} {first : After}
  {move : After → Sight → After}

/-- A step with a register that acts at once. -/
theorem advance_atomic (s : (ℕ → Word) × Host After) (sight : Sight) :
    Advance cfgSize first move (some sight) s
      ((scripted first move).atomic (memory cfgSize 32) s sight) := by
  obtain ⟨words, host⟩ := s
  cases host with
  | configuring script =>
      cases hnext : script.next with
      | none =>
          have hact : (scripted first move).act (.configuring script) sight =
              .move (.after first) := by
            simp only [scripted, hnext]
          rw [Client.atomic_of_move hact]
          exact .finish hnext
      | some access =>
          have hact : (scripted first move).act (.configuring script) sight =
              .request access := by
            simp only [scripted, hnext]
          rw [Client.atomic_of_request hact]
          exact .access hnext
  | after place => exact .move rfl

/-- What a program in its script sees does not matter. -/
theorem Advance.of_configuring {seen : Option Sight} {sight : Sight}
    {words : ℕ → Word} {script : Script} {s' : (ℕ → Word) × Host After}
    (hadvance : Advance cfgSize first move (some sight)
      (words, .configuring script) s') :
    Advance cfgSize first move seen (words, .configuring script) s' := by
  cases hadvance with
  | stay => exact .stay _
  | access hnext => exact .access hnext
  | finish hnext => exact .finish hnext

variable (cfgSize) in
/-- The words that the script reads exist. -/
def ReadsInRange (lines : List Line) : Prop :=
  ∀ addr change strb, .modify addr change strb ∈ lines →
    addressSlice cfgSize addr < cfgSize

theorem ordered_after (sights : List Sight) :
    Ordered cfgSize lines start ((scripted first move).after (memory cfgSize 32)
      (start, .configuring { lines := lines, loaded := none }) sights) := by
  apply Client.after_induction
  · exact ordered_start
  · intro s sight hordered
    exact (hordered.advance (advance_atomic s sight)).1

theorem loadsInRange (hreads : ReadsInRange cfgSize lines) :
    LoadsInRange (scripted first move) cfgSize
      (start, .configuring { lines := lines, loaded := none }) := by
  intro sights sight access hact
  have hordered : Ordered cfgSize lines start
      ((scripted first move).after (memory cfgSize 32) _ sights) :=
    ordered_after sights
  revert hact hordered
  generalize (scripted first move).after (memory cfgSize 32) _ sights = s
  intro hact hordered
  obtain ⟨words, host⟩ := s
  cases host with
  | after place => cases hact
  | configuring script =>
      cases hnext : script.next with
      | none =>
          simp only [scripted, hnext] at hact
          cases hact
      | some asked =>
          simp only [scripted, hnext] at hact
          obtain rfl := Action.request.inj hact
          obtain ⟨line, rest, hlines, hcases⟩ := Script.next_cases hnext
          obtain ⟨addr, data, strb, -, rfl, -⟩ |
              ⟨addr, change, strb, rfl, rfl, -⟩ |
              ⟨addr, change, strb, old, -, -, rfl, -⟩ := hcases
          · trivial
          · have hmem : Line.modify addr change strb ∈ lines :=
              (hordered.left script rfl).subset
                (hlines ▸ List.mem_cons_self)
            exact hreads addr change strb hmem
          · trivial

/-- Behind its script the program asks nothing of the bus. -/
theorem choice_of_after
    {s : CfgBus.State cfgSize 32 (Host After) Sight} {i : CfgBus.Input Sight}
    {place : After} {sight : Sight}
    (hprogram : settled (scripted first move) s = .after place)
    (hraised : Raised (scripted first move) s.master)
    (hone : committedChoice (scripted first move) s i = [sight]) :
    i.choice = some sight := by
  obtain ⟨core, program, phase⟩ := s
  cases phase with
  | idle =>
      obtain rfl : program = .after place := hprogram
      cases hchoice : i.choice with
      | none =>
          simp only [committedChoice, hchoice] at hone
          exact absurd hone (List.cons_ne_nil _ _).symm
      | some choice =>
          simp only [committedChoice, hchoice, scripted] at hone
          exact congrArg some (List.singleton_inj.mp hone)
  | storing choice addr data strb aw w =>
      obtain rfl : program = .after place := hprogram
      cases hraised
  | loading choice addr ar =>
      obtain rfl : program = .after place := hprogram
      cases hraised
  | stored choice => exact absurd hone (List.cons_ne_nil _ _).symm
  | loaded choice => exact absurd hone (List.cons_ne_nil _ _).symm

section Run

variable (core : CfgRegister.State cfgSize) (lines) (first move)
  (input : ℕ → CfgBus.Input Sight)

/-- The program before its first line. -/
def opened : Host After := .configuring { lines := lines, loaded := none }

def stateAt (cycle : ℕ) : CfgBus.State cfgSize 32 (Host After) Sight :=
  CfgBus.stateAt (scripted first move) core (opened lines) input cycle

/-- The words and the program after the accesses that have taken effect before a
cycle. -/
def reached (cycle : ℕ) : (ℕ → Word) × Host After :=
  (scripted first move).after (memory cfgSize 32) (cfgWord core, opened lines)
    (committed (scripted first move) core (opened lines) input cycle)

variable {core lines first move input}

theorem ordered_reached (cycle : ℕ) :
    Ordered cfgSize lines (cfgWord core)
      (reached lines first move core input cycle) :=
  ordered_after _

theorem busInv_reached (hreset : core.resetS = false)
    (hreads : ReadsInRange cfgSize lines) (cycle : ℕ) :
    BusInv (scripted first move) (cfgWord core, opened lines)
      (committed (scripted first move) core (opened lines) input cycle)
      (stateAt lines first move core input cycle) :=
  busInv_stateAt input hreset (loadsInRange hreads) cycle

/-- In a cycle the program makes one step at most, and behind its script one by
what it sees in that cycle. -/
theorem advance_reached (hreset : core.resetS = false)
    (hreads : ReadsInRange cfgSize lines) (cycle : ℕ) :
    Advance cfgSize first move (input cycle).choice
      (reached lines first move core input cycle)
      (reached lines first move core input (cycle + 1)) := by
  have hinv : BusInv (scripted first move) (cfgWord core, opened lines)
      (committed (scripted first move) core (opened lines) input cycle)
      (stateAt lines first move core input cycle) :=
    busInv_reached hreset hreads cycle
  have hprogram : settled (scripted first move)
      (stateAt lines first move core input cycle) =
        (reached lines first move core input cycle).2 := hinv.program
  have hraised := hinv.raised
  have hnext : reached lines first move core input (cycle + 1) =
      (scripted first move).after (memory cfgSize 32) (cfgWord core, opened lines)
        (committed (scripted first move) core (opened lines) input cycle ++
          committedChoice (scripted first move)
            (stateAt lines first move core input cycle) (input cycle)) := rfl
  rw [hnext]
  obtain hnone | ⟨sight, hone⟩ := committedChoice_eq (scripted first move)
    (stateAt lines first move core input cycle) (input cycle)
  · rw [hnone, List.append_nil]
    exact .stay _
  · rw [hone, Client.after_concat]
    have hatomic : Advance cfgSize first move (some sight)
        (reached lines first move core input cycle)
        ((scripted first move).atomic (memory cfgSize 32)
          (reached lines first move core input cycle) sight) :=
      advance_atomic _ sight
    revert hprogram hatomic
    change _ → _ → Advance _ _ _ _ (reached lines first move core input cycle)
      ((scripted first move).atomic (memory cfgSize 32)
        (reached lines first move core input cycle) sight)
    generalize reached lines first move core input cycle = s
    intro hprogram hatomic
    obtain ⟨words, host⟩ := s
    cases host with
    | configuring script => exact hatomic.of_configuring
    | after place =>
        have hseen := choice_of_after hprogram hraised hone
        rw [hseen]
        exact hatomic

variable (lines first move core input) in
/-- The number of lines made before a cycle. -/
def lineCount (cycle : ℕ) : ℕ :=
  linesDone lines (settled (scripted first move)
    (stateAt lines first move core input cycle))

/-- A program is behind its script when it shows so. -/
theorem settled_eq_after_iff
    (s : CfgBus.State cfgSize 32 (Host After) Sight) (place : After) :
    settled (scripted first move) s = .after place ↔
      s.master.program = .after place := by
  obtain hsame | ⟨choice, word, hresumed⟩ := settled_eq (scripted first move) s
  · rw [hsame]
  · rw [hresumed]
    cases s.master.program with
    | configuring script =>
        constructor <;>
          · intro hplace
            cases hplace
    | after here => exact Iff.rfl

section Reset

variable (hreset : core.resetS = false) (hreads : ReadsInRange cfgSize lines)
include hreset hreads

theorem settled_eq_reached (cycle : ℕ) :
    settled (scripted first move) (stateAt lines first move core input cycle) =
      (reached lines first move core input cycle).2 := by
  have hinv : BusInv (scripted first move) (cfgWord core, opened lines)
      (committed (scripted first move) core (opened lines) input cycle)
      (stateAt lines first move core input cycle) :=
    busInv_reached hreset hreads cycle
  exact hinv.program

theorem lineCount_succ (cycle : ℕ) :
    lineCount lines first move core input (cycle + 1) =
        lineCount lines first move core input cycle ∨
      lineCount lines first move core input (cycle + 1) =
        lineCount lines first move core input cycle + 1 := by
  rw [lineCount, lineCount, settled_eq_reached hreset hreads,
    settled_eq_reached hreset hreads]
  exact ((ordered_reached cycle).advance (advance_reached hreset hreads cycle)).2

/-- The register holds what the lines have made of it. -/
theorem words_eq (cycle : ℕ) : ∀ word < cfgSize,
    cfgWord (stateAt lines first move core input cycle).core word =
      performed cfgSize lines (cfgWord core)
        (lineCount lines first move core input cycle) word := by
  intro word hword
  have hinv : BusInv (scripted first move) (cfgWord core, opened lines)
      (committed (scripted first move) core (opened lines) input cycle)
      (stateAt lines first move core input cycle) :=
    busInv_reached hreset hreads cycle
  have hordered : Ordered cfgSize lines (cfgWord core)
      (reached lines first move core input cycle) := ordered_reached cycle
  rw [hinv.words word hword, lineCount, settled_eq_reached hreset hreads]
  exact congrFun hordered.words word

theorem program_eq_after_iff (cycle : ℕ) (place : After) :
    (stateAt lines first move core input cycle).master.program = .after place ↔
      (reached lines first move core input cycle).2 = .after place := by
  rw [← settled_eq_reached hreset hreads]
  exact (settled_eq_after_iff _ place).symm

/-- How the program has come to a place behind its script. -/
theorem after_cases {cycle : ℕ} {place : After}
    (hplace : (stateAt lines first move core input
      (cycle + 1)).master.program = .after place) :
    (stateAt lines first move core input cycle).master.program =
        .after place ∨ place = first ∨
      ∃ before sight,
        (stateAt lines first move core input cycle).master.program =
            .after before ∧
          (input cycle).choice = some sight ∧ place = move before sight := by
  simp only [program_eq_after_iff hreset hreads] at hplace ⊢
  exact (advance_reached hreset hreads cycle).after_cases hplace

end Reset

theorem lineCount_le (cycle : ℕ) :
    lineCount lines first move core input cycle ≤ lines.length := by
  rw [lineCount]
  cases settled (scripted first move)
      (stateAt lines first move core input cycle) with
  | configuring script => exact Nat.sub_le _ _
  | after place => exact le_rfl

theorem lineCount_of_after {cycle : ℕ} {place : After}
    (hplace : (stateAt lines first move core input cycle).master.program =
      .after place) :
    lineCount lines first move core input cycle = lines.length := by
  rw [lineCount, (settled_eq_after_iff _ place).mpr hplace]
  rfl

end Run

end Bus

end Rfsoc.CfgScript
