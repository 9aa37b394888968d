import Mathlib.Data.List.Basic
import Mathlib.Order.Nat

/-!
# Recording with a dead time

A recorder takes an event and is then blind for a time that depends on the kind of
the event.  In each cycle at most one event wants to be taken.  A taken event is read
out at one item a cycle within its dead time, after a delay.
-/

namespace Rfsoc.DeadTime

variable {Kind Item : Type*}

section Recorder

variable (wants : ℕ → Option Kind) (dead : Kind → ℕ)

/-- The end of the latest dead time, as it stands before a cycle. -/
def free : ℕ → ℕ
  | 0 => 0
  | cycle + 1 =>
      if free cycle ≤ cycle then
        match wants cycle with
        | some kind => cycle + dead kind
        | none => free cycle
      else free cycle

/-- The event taken in a cycle. -/
def takes (cycle : ℕ) : Option Kind :=
  if free wants dead cycle ≤ cycle then wants cycle else none

/-- The events taken before a cycle with their own cycles, oldest first. -/
def taken : ℕ → List (ℕ × Kind)
  | 0 => []
  | cycle + 1 => taken cycle ++ ((takes wants dead cycle).map (cycle, ·)).toList

variable {wants dead}

theorem free_of_takes {cycle : ℕ} {kind : Kind}
    (htakes : takes wants dead cycle = some kind) :
    free wants dead (cycle + 1) = cycle + dead kind := by
  unfold takes at htakes
  split at htakes
  · rename_i hfree
    rw [free, if_pos hfree, htakes]
  · cases htakes

theorem free_of_takes_none {cycle : ℕ} (hnone : takes wants dead cycle = none) :
    free wants dead (cycle + 1) = free wants dead cycle := by
  unfold takes at hnone
  split at hnone
  · rename_i hfree
    rw [free, if_pos hfree, hnone]
  · rename_i hbusy
    rw [free, if_neg hbusy]

theorem taken_of_takes {cycle : ℕ} {kind : Kind}
    (htakes : takes wants dead cycle = some kind) :
    taken wants dead (cycle + 1) = taken wants dead cycle ++ [(cycle, kind)] := by
  rw [taken, htakes]
  rfl

theorem taken_of_takes_none {cycle : ℕ} (hnone : takes wants dead cycle = none) :
    taken wants dead (cycle + 1) = taken wants dead cycle := by
  rw [taken, hnone]
  exact List.append_nil _

theorem free_le_of_takes {cycle : ℕ} {kind : Kind}
    (htakes : takes wants dead cycle = some kind) : free wants dead cycle ≤ cycle := by
  unfold takes at htakes
  split at htakes
  · assumption
  · cases htakes

/-- An event is taken in its own cycle. -/
theorem mem_taken {horizon cycle : ℕ} {kind : Kind} :
    (cycle, kind) ∈ taken wants dead horizon ↔
      cycle < horizon ∧ takes wants dead cycle = some kind := by
  induction horizon with
  | zero => simp [taken]
  | succ horizon ih =>
      rw [taken, List.mem_append, ih]
      simp only [Option.mem_toList, Option.map_eq_some_iff, Prod.mk.injEq]
      constructor
      · rintro (⟨hcycle, htakes⟩ | ⟨other, htakes, rfl, rfl⟩)
        · exact ⟨by omega, htakes⟩
        · exact ⟨Nat.lt_succ_self horizon, htakes⟩
      · rintro ⟨hcycle, htakes⟩
        obtain hlt | rfl := Nat.lt_succ_iff_lt_or_eq.mp hcycle
        · exact Or.inl ⟨hlt, htakes⟩
        · exact Or.inr ⟨kind, htakes, rfl, rfl⟩

/-- The dead times of the taken events end by `free`. -/
theorem dead_le_free {cycle : ℕ} :
    ∀ record ∈ taken wants dead cycle,
      record.1 + dead record.2 ≤ free wants dead cycle := by
  induction cycle with
  | zero => simp [taken]
  | succ cycle ih =>
      intro record hmem
      cases htakes : takes wants dead cycle with
      | none =>
          rw [taken_of_takes_none htakes] at hmem
          rw [free_of_takes_none htakes]
          exact ih record hmem
      | some kind =>
          rw [taken_of_takes htakes, List.mem_append, List.mem_singleton] at hmem
          rw [free_of_takes htakes]
          obtain hearlier | rfl := hmem
          · exact (ih record hearlier).trans
              ((free_le_of_takes htakes).trans (Nat.le_add_right cycle _))
          · exact le_rfl

/-- `free` is the end of the dead time of the last event. -/
theorem free_eq (cycle : ℕ) :
    free wants dead cycle =
      ((taken wants dead cycle).getLast?.map
        fun record => record.1 + dead record.2).getD 0 := by
  induction cycle with
  | zero => rfl
  | succ cycle ih =>
      cases htakes : takes wants dead cycle with
      | none =>
          rw [free_of_takes_none htakes, taken_of_takes_none htakes, ih]
      | some kind =>
          rw [free_of_takes htakes, taken_of_takes htakes, List.getLast?_concat]
          rfl

/-- The recorder is free when every dead time is over. -/
theorem free_le_iff {cycle : ℕ} :
    free wants dead cycle ≤ cycle ↔
      ∀ record ∈ taken wants dead cycle, record.1 + dead record.2 ≤ cycle := by
  constructor
  · intro hfree record hmem
    exact (dead_le_free record hmem).trans hfree
  · intro hover
    rw [free_eq]
    cases hlast : (taken wants dead cycle).getLast? with
    | none => exact Nat.zero_le cycle
    | some record => exact hover record (List.mem_of_getLast? hlast)

/-- The events taken are those outside the dead times of the events taken before
them. -/
theorem mem_taken_iff {horizon cycle : ℕ} {kind : Kind} :
    (cycle, kind) ∈ taken wants dead horizon ↔
      cycle < horizon ∧ wants cycle = some kind ∧
        ∀ record ∈ taken wants dead cycle, record.1 + dead record.2 ≤ cycle := by
  rw [mem_taken, ← free_le_iff, takes]
  split
  · rename_i hfree
    exact and_congr_right fun _ => (and_iff_left hfree).symm
  · rename_i hbusy
    exact ⟨fun h => absurd h.2 (by simp), fun h => absurd h.2.2 hbusy⟩

variable (wants dead) in
/-- Nothing is taken in the dead time of an event. -/
theorem pairwise_taken (cycle : ℕ) :
    (taken wants dead cycle).Pairwise fun early late =>
      early.1 + dead early.2 ≤ late.1 := by
  induction cycle with
  | zero => exact List.Pairwise.nil
  | succ cycle ih =>
      cases htakes : takes wants dead cycle with
      | none =>
          rw [taken_of_takes_none htakes]
          exact ih
      | some kind =>
          rw [taken_of_takes htakes, List.pairwise_append]
          refine ⟨ih, List.pairwise_singleton _ _, ?_⟩
          intro early hearly late hlate
          rw [List.mem_singleton.mp hlate]
          exact (dead_le_free early hearly).trans (free_le_of_takes htakes)

end Recorder

section Readout

variable (wants : ℕ → Option Kind) (length : Kind → ℕ) (delay : ℕ)
  (item : ℕ → Kind → ℕ → Item)

/-- An event is dead until its items are out. -/
def dead (kind : Kind) : ℕ := delay + length kind

/-- The items of an event that are out before a cycle. -/
def sent (cycle : ℕ) (record : ℕ × Kind) : List Item :=
  (List.range (min (length record.2) (cycle - (record.1 + delay)))).map
    (item record.1 record.2)

/-- All items out before a cycle. -/
def output (cycle : ℕ) : List Item :=
  (taken wants (dead length delay) cycle).flatMap (sent length delay item cycle)

/-- The item that the last event puts out in a cycle. -/
def emission (cycle : ℕ) : List Item :=
  match (taken wants (dead length delay) cycle).getLast? with
  | none => []
  | some (opening, kind) =>
      if opening + delay ≤ cycle ∧ cycle < opening + dead length delay kind then
        [item opening kind (cycle - (opening + delay))]
      else []

variable {wants length delay item}

theorem sent_of_complete {cycle : ℕ} {record : ℕ × Kind}
    (hcomplete : record.1 + dead length delay record.2 ≤ cycle) :
    sent length delay item (cycle + 1) record = sent length delay item cycle record := by
  have hall : length record.2 ≤ cycle - (record.1 + delay) := by
    rw [dead] at hcomplete
    omega
  rw [sent, sent, Nat.min_eq_left hall, Nat.min_eq_left (hall.trans (by omega))]

theorem sent_succ (cycle opening : ℕ) (kind : Kind) :
    sent length delay item (cycle + 1) (opening, kind) =
      sent length delay item cycle (opening, kind) ++
        if opening + delay ≤ cycle ∧ cycle < opening + dead length delay kind then
          [item opening kind (cycle - (opening + delay))]
        else [] := by
  split
  · rename_i hinside
    obtain ⟨hstarted, hunfinished⟩ := hinside
    rw [dead] at hunfinished
    have hnow : min (length kind) (cycle - (opening + delay)) =
        cycle - (opening + delay) := Nat.min_eq_right (by omega)
    have hnext : min (length kind) (cycle + 1 - (opening + delay)) =
        cycle - (opening + delay) + 1 := by
      rw [Nat.sub_add_comm hstarted]
      exact Nat.min_eq_right (by omega)
    rw [sent, sent, hnow, hnext, List.range_succ, List.map_append,
      List.map_singleton]
  · rename_i houtside
    rw [List.append_nil]
    by_cases hstarted : opening + delay ≤ cycle
    · apply sent_of_complete
      change opening + dead length delay kind ≤ cycle
      omega
    · rw [sent, sent]
      congr 2
      change min (length kind) (cycle + 1 - (opening + delay)) =
        min (length kind) (cycle - (opening + delay))
      omega

/-- A cycle adds the item of the last event. -/
theorem output_succ (hdelay : 0 < delay) (cycle : ℕ) :
    output wants length delay item (cycle + 1) =
      output wants length delay item cycle ++
        emission wants length delay item cycle := by
  have hnew : output wants length delay item (cycle + 1) =
      (taken wants (dead length delay) cycle).flatMap
        (sent length delay item (cycle + 1)) := by
    rw [output]
    cases htakes : takes wants (dead length delay) cycle with
    | none => rw [taken_of_takes_none htakes]
    | some kind =>
        have hempty : sent length delay item (cycle + 1) (cycle, kind) = [] := by
          rw [sent, Nat.sub_eq_zero_of_le (Nat.add_le_add_left hdelay cycle),
            Nat.min_zero]
          rfl
        rw [taken_of_takes htakes, List.flatMap_append, List.flatMap_singleton,
          hempty, List.append_nil]
  rw [hnew, output, emission]
  cases hlast : (taken wants (dead length delay) cycle).getLast? with
  | none =>
      rw [List.getLast?_eq_none_iff.mp hlast]
      rfl
  | some record =>
      obtain ⟨opening, kind⟩ := record
      obtain ⟨earlier, hearlier⟩ := List.getLast?_eq_some_iff.mp hlast
      have hordered := pairwise_taken wants (dead length delay) cycle
      rw [hearlier, List.pairwise_append] at hordered
      have hopening : opening < cycle :=
        (mem_taken.mp (List.mem_of_getLast? hlast)).1
      have hcomplete : earlier.flatMap (sent length delay item (cycle + 1)) =
          earlier.flatMap (sent length delay item cycle) := by
        apply List.flatMap_congr
        intro record hrecord
        have hover := hordered.2.2 record hrecord (opening, kind)
          (List.mem_singleton_self _)
        exact sent_of_complete (hover.trans hopening.le)
      rw [hearlier, List.flatMap_append, List.flatMap_append, hcomplete,
        List.flatMap_singleton, List.flatMap_singleton, sent_succ,
        List.append_assoc]

end Readout

end Rfsoc.DeadTime
