import Rfsoc.Core.Signals

/-!
# A place that is overwritten

A place holds the latest letter.  A new letter replaces the one that is there,
taken or not; a letter is taken in the first cycle in which the taker is ready
while it is there.  So a letter is lost exactly when the taker has not been
ready before the next one comes.
-/

namespace Rfsoc.Mailbox

open Rfsoc.Clocked
open Rfsoc.Signals

section Letters

variable (load ready full : ℕ → Bool)

/-- The numbers, from one, of the letters taken before a cycle. -/
def taken : ℕ → List ℕ
  | 0 => []
  | cycle + 1 =>
      taken cycle ++
        if full cycle && ready cycle then [highCycles load cycle] else []

/-- The place is full from the cycle after a letter comes until one is taken. -/
structure Place (horizon : ℕ) : Prop where
  empty : full 0 = false
  next : ∀ cycle < horizon,
    full (cycle + 1) = (load cycle || (full cycle && !ready cycle))

/-- Letter `number` comes in a cycle. -/
def Comes (number cycle : ℕ) : Prop :=
  load cycle = true ∧ highCycles load cycle + 1 = number

end Letters

variable {load ready full : ℕ → Bool} {horizon : ℕ}

/-- The cycles in which letter `number` is the latest one. -/
theorem latest_iff {number first last between : ℕ}
    (hfirst : Comes load number first) (hlast : Comes load (number + 1) last) :
    highCycles load between = number ↔ first < between ∧ between ≤ last := by
  obtain ⟨hload, hcount⟩ := hfirst
  obtain ⟨hloadNext, hcountNext⟩ := hlast
  have hafter : highCycles load (first + 1) = number := by
    rw [highCycles_succ, hload, Bool.toNat_true, hcount]
  have hafterNext : highCycles load (last + 1) = number + 1 := by
    rw [highCycles_succ, hloadNext, Bool.toNat_true, hcountNext]
  constructor
  · intro hbetween
    constructor
    · by_contra hlow
      have hmono : highCycles load between ≤ highCycles load first :=
        highCycles_mono (by omega)
      omega
    · by_contra hhigh
      have hmono : highCycles load (last + 1) ≤ highCycles load between :=
        highCycles_mono (by omega)
      omega
  · rintro ⟨hlow, hhigh⟩
    have hmono : highCycles load (first + 1) ≤ highCycles load between :=
      highCycles_mono hlow
    have hmonoNext : highCycles load between ≤ highCycles load last :=
      highCycles_mono hhigh
    omega

theorem exists_comes {number cycle : ℕ} (hpos : 1 ≤ number)
    (hle : number ≤ highCycles load cycle) :
    ∃ earlier < cycle, Comes load number earlier := by
  obtain ⟨earlier, hearlier, hload, hcount⟩ :=
    exists_highCycles_eq (Nat.lt_of_lt_of_le (Nat.sub_lt hpos one_pos) hle)
  exact ⟨earlier, hearlier, hload, by omega⟩

section Place

variable (hplace : Place load ready full horizon)
include hplace

/-- The place is full as long as the taker has not been ready for the latest
letter. -/
theorem full_iff : ∀ cycle ≤ horizon,
    full cycle = true ↔
      1 ≤ highCycles load cycle ∧
        ∀ earlier < cycle, highCycles load earlier = highCycles load cycle →
          ready earlier = false := by
  apply upTo_induction
  · rw [hplace.empty, highCycles_zero]
    simp
  · intro cycle hcycle ih
    rw [hplace.next cycle hcycle, highCycles_succ, Nat.forall_lt_succ_right]
    cases load cycle with
    | false =>
        rw [Bool.false_or, Bool.and_eq_true, ih, Bool.toNat_false, Nat.add_zero,
          Bool.not_eq_true', and_assoc]
        simp
    | true =>
        -- the letters before are all older than the one that comes now
        rw [Bool.true_or, Bool.toNat_true]
        refine iff_of_true rfl ⟨by omega, fun earlier hearlier hsame => ?_, ?_⟩
        · have hmono : highCycles load earlier ≤ highCycles load cycle :=
            highCycles_mono hearlier.le
          omega
        · intro hsame
          omega

/-- A letter is taken in the cycles in which it is the latest one, as soon as
the taker is ready. -/
theorem mem_taken_iff (number : ℕ) : ∀ cycle ≤ horizon,
    number ∈ taken load ready full cycle ↔
      1 ≤ number ∧ ∃ earlier < cycle,
        highCycles load earlier = number ∧ ready earlier = true := by
  apply upTo_induction
  · simp [taken]
  · intro cycle hcycle ih
    have hfull := full_iff hplace cycle hcycle.le
    rw [taken, List.mem_append, ih, Nat.exists_lt_succ_right,
      List.mem_ite_nil_right, List.mem_singleton, Bool.and_eq_true, hfull]
    constructor
    · rintro (⟨hpos, hearlier⟩ | ⟨⟨⟨hpos, -⟩, hready⟩, rfl⟩)
      · exact ⟨hpos, Or.inl hearlier⟩
      · exact ⟨hpos, Or.inr ⟨rfl, hready⟩⟩
    · rintro ⟨hpos, hearlier | ⟨rfl, hready⟩⟩
      · exact Or.inl ⟨hpos, hearlier⟩
      · by_cases htaken : ∃ earlier < cycle,
            highCycles load earlier = highCycles load cycle ∧ ready earlier = true
        · exact Or.inl ⟨hpos, htaken⟩
        · refine Or.inr ⟨⟨⟨hpos, fun earlier hearlier hsame => ?_⟩, hready⟩, rfl⟩
          by_contra hready
          exact htaken ⟨earlier, hearlier, hsame, by simpa using hready⟩

/-- Letters are taken in their order, each at most once. -/
theorem pairwise_taken : ∀ cycle ≤ horizon,
    (taken load ready full cycle).Pairwise (· < ·) := by
  apply upTo_induction
  · exact List.Pairwise.nil
  · intro cycle hcycle ih
    rw [taken]
    split
    case isFalse =>
      rw [List.append_nil]
      exact ih
    case isTrue htakes =>
      rw [Bool.and_eq_true, full_iff hplace cycle hcycle.le] at htakes
      obtain ⟨⟨-, hquiet⟩, -⟩ := htakes
      refine List.pairwise_append.mpr ⟨ih, List.pairwise_singleton _ _, ?_⟩
      intro number hnumber latest hlatest
      rw [List.mem_singleton.mp hlatest]
      obtain ⟨-, earlier, hearlier, rfl, hready⟩ :=
        (mem_taken_iff hplace number cycle hcycle.le).mp hnumber
      refine lt_of_le_of_ne (highCycles_mono hearlier.le) fun hsame => ?_
      exact absurd hready (by rw [hquiet earlier hearlier hsame]; decide)

/-- A letter is lost exactly when the taker has not been ready from the cycle
after it comes to the cycle in which the next one comes. -/
theorem not_mem_taken_iff {number first last : ℕ}
    (hfirst : Comes load number first) (hlast : Comes load (number + 1) last)
    (hhorizon : last < horizon) :
    number ∉ taken load ready full horizon ↔
      ∀ between, first < between → between ≤ last → ready between = false := by
  have hpos : 1 ≤ number := by
    obtain ⟨-, hcount⟩ := hfirst
    omega
  rw [mem_taken_iff hplace number horizon le_rfl]
  constructor
  · intro hlost between hlow hhigh
    by_contra hready
    refine hlost ⟨hpos, between, by omega, ?_, by simpa using hready⟩
    exact (latest_iff hfirst hlast).mpr ⟨hlow, hhigh⟩
  · rintro hquiet ⟨-, between, -, hlatest, hready⟩
    obtain ⟨hlow, hhigh⟩ := (latest_iff hfirst hlast).mp hlatest
    rw [hquiet between hlow hhigh] at hready
    exact Bool.false_ne_true hready

end Place

end Rfsoc.Mailbox
