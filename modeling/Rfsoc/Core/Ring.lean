import Mathlib.Data.List.Induction
import Mathlib.Data.Nat.ModEq
import Mathlib.Data.Set.Function
import Mathlib.Order.Interval.Set.Defs

/-!
# Ring buffers in memory

The general fact behind a writer that wraps: when word `k` goes to slot
`k % size`, the memory always holds the last `size` words, each in its own
slot, and nothing outside the slots has moved.
-/

namespace Rfsoc.Ring

variable {Address Word : Type*} [DecidableEq Address]

/-- The memory after a log of stores, oldest first. -/
def memoryAfter (memory : Address → Word) (stores : List (Address × Word)) :
    Address → Word :=
  stores.foldl (fun memory store => Function.update memory store.1 store.2)
    memory

/-- The stores of a wrapping writer: word `k` goes to slot `k % size`. -/
def ringStores (place : ℕ → Address) (size : ℕ) (word : ℕ → Word)
    (count : ℕ) : List (Address × Word) :=
  (List.range count).map fun k => (place (k % size), word k)

theorem memoryAfter_concat (memory : Address → Word)
    (stores : List (Address × Word)) (store : Address × Word) :
    memoryAfter memory (stores ++ [store]) =
      Function.update (memoryAfter memory stores) store.1 store.2 := by
  rw [memoryAfter, List.foldl_append]
  rfl

theorem memoryAfter_of_not_mem (memory : Address → Word)
    (stores : List (Address × Word)) (address : Address)
    (hfresh : ∀ store ∈ stores, store.1 ≠ address) :
    memoryAfter memory stores address = memory address := by
  induction stores using List.reverseRecOn with
  | nil => rfl
  | append_singleton stores store ih =>
      have hne : address ≠ store.1 := (hfresh store (by simp)).symm
      rw [memoryAfter_concat, Function.update_of_ne hne]
      exact ih fun earlier hearlier => hfresh earlier (by simp [hearlier])

omit [DecidableEq Address] in
theorem ringStores_succ (place : ℕ → Address) (size : ℕ) (word : ℕ → Word)
    (count : ℕ) :
    ringStores place size word (count + 1) =
      ringStores place size word count ++
        [(place (count % size), word count)] := by
  simp [ringStores, List.range_succ]

/-- Two of the last `size` words never share a slot. -/
theorem slot_ne {size late early : ℕ} (hlt : early < late)
    (hrecent : late < early + size) : early % size ≠ late % size := by
  intro heq
  have hdvd : size ∣ late - early := (Nat.modEq_iff_dvd' hlt.le).mp heq
  have := Nat.le_of_dvd (by omega) hdvd
  omega

/-- The last `size` words are in memory, each in its slot. -/
theorem memoryAfter_ringStores (memory : Address → Word) (place : ℕ → Address)
    (size : ℕ) (word : ℕ → Word)
    (hplace : Set.InjOn place (Set.Iio size)) (count : ℕ) :
    ∀ k < count, count ≤ k + size →
      memoryAfter memory (ringStores place size word count)
        (place (k % size)) = word k := by
  induction count with
  | zero => exact fun k hk => absurd hk (Nat.not_lt_zero k)
  | succ count ih =>
      intro k hk hrecent
      rw [ringStores_succ, memoryAfter_concat]
      by_cases hlast : k = count
      · subst hlast
        exact Function.update_self ..
      · have hslot : k % size ≠ count % size := slot_ne (by omega) (by omega)
        have hpos : 0 < size := by omega
        have hne : place (k % size) ≠ place (count % size) := fun heq =>
          hslot (hplace (Nat.mod_lt k hpos) (Nat.mod_lt count hpos) heq)
        rw [Function.update_of_ne hne]
        exact ih k (by omega) (by omega)

section Log

variable {memory : ℕ → Word} {size : ℕ} {log : List Word}

/-- The memory holds the last `size` words of a log, each in its own slot. -/
def Holds (memory : ℕ → Word) (size : ℕ) (log : List Word) : Prop :=
  ∀ k (h : k < log.length), log.length ≤ k + size →
    memory (k % size) = log[k]

theorem holds_nil (memory : ℕ → Word) (size : ℕ) : Holds memory size [] :=
  fun k hk => absurd hk (Nat.not_lt_zero k)

/-- Storing the next word in its slot gives up the oldest one only. -/
theorem Holds.concat (hholds : Holds memory size log) (word : Word) :
    Holds (Function.update memory (log.length % size) word) size
      (log ++ [word]) := by
  intro k hk hrecent
  rw [List.length_append, List.length_singleton] at hk hrecent
  by_cases hlast : k = log.length
  · subst hlast
    simp
  · have hslot : k % size ≠ log.length % size := slot_ne (by omega) (by omega)
    rw [Function.update_of_ne hslot, hholds k (by omega) (by omega),
      List.getElem_append_left (by omega)]

end Log

end Rfsoc.Ring
