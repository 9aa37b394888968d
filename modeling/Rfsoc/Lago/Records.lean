import Rfsoc.Core.PrefixCode
import Rfsoc.Lago.Trigger

/-!
# Records

The word stream of the LAGO trigger as a format: every word shows its kind in
its top bits, a record is a fixed sequence of word kinds, and a concatenation
of records can be cut in only one way.
-/

namespace Rfsoc.LagoTrigger

open InformationTheory
open Rfsoc.PrefixCode

/-- The kind of a word, as its top bits show it. -/
inductive Tag where
  | pps
  | sample
  | status
  | counter
  | other
  deriving DecidableEq

def tag (word : Word) : Tag :=
  if word.extractLsb' 30 2 = 0b11#2 then .pps
  else if word.extractLsb' 30 2 = 0b00#2 then .sample
  else if word.extractLsb' 30 2 = 0b10#2 then .counter
  else if word.extractLsb' 29 3 = 0b010#3 then .status
  else .other

inductive Kind where
  | pps
  | pulse
  | subTrigger
  deriving DecidableEq

/-- The word kinds of a record, in order. -/
def Kind.tags : Kind → List Tag
  | .pps => List.replicate metadataArrayLength .pps
  | .pulse => List.replicate dataArrayLength .sample ++ [.status, .counter]
  | .subTrigger => [.sample, .sample, .status]

def Kind.length (kind : Kind) : ℕ := kind.tags.length

@[simp]
theorem Kind.length_pps : Kind.pps.length = 10 := rfl

@[simp]
theorem Kind.length_pulse : Kind.pulse.length = 14 := rfl

@[simp]
theorem Kind.length_subTrigger : Kind.subTrigger.length = 3 := rfl

theorem Kind.length_pos (kind : Kind) : 0 < kind.length := by
  cases kind <;> decide

/-- A complete record: a kind and words of exactly that kind's tags. -/
structure Record where
  kind : Kind
  words : List Word
  tagged : words.map tag = kind.tags

theorem tag_ppsWord (i : Input) (k : Fin metadataArrayLength) :
    tag (ppsWord i k) = .pps := by
  have htop : (ppsWord i k).extractLsb' 30 2 = 0b11#2 := by
    match k with
    | 0 => simp [ppsWord]
    | 1 | 2 | 3 | 4 | 5 | 6 | 7 | 8 | 9 =>
        simp (disch := omega) only [ppsWord,
          BitVec.extractLsb'_append_eq_of_le]
        rfl
  rw [tag, if_pos htop]

theorem tag_flagWord (flag2 flag1 : Bool) (clkCnt : BitVec 27) :
    tag (flagWord flag2 flag1 clkCnt) = .status := by
  have htwo : (flagWord flag2 flag1 clkCnt).extractLsb' 30 2 = 0b01#2 := by
    simp (disch := omega) only [flagWord, BitVec.extractLsb'_append_eq_of_le]
    rfl
  have hthree : (flagWord flag2 flag1 clkCnt).extractLsb' 29 3 = 0b010#3 := by
    simp (disch := omega) only [flagWord, BitVec.extractLsb'_append_eq_of_le]
    rfl
  simp [tag, htwo, hthree]

theorem tag_counterWord (count : BitVec 30) :
    tag (counterWord count) = .counter := by
  have htop : (counterWord count).extractLsb' 30 2 = 0b10#2 :=
    BitVec.extractLsb'_append_eq_left
  simp [tag, htop]

/-- Words that start with two zero bits carry samples. -/
theorem tag_of_top_zero (word : Word) (htop : word.extractLsb' 30 2 = 0#2) :
    tag word = .sample := by
  simp [tag, htop]

theorem tag_pairWord (b a : BitVec 14) : tag (pairWord b a) = .sample := by
  apply tag_of_top_zero
  simp (disch := omega) only [pairWord, BitVec.extractLsb'_append_eq_of_le]
  rfl

theorem tag_scalerWord (s : State) (i : Input) (k : Fin subtrigArrayLength) :
    tag (scalerWord s i k) = if k = 2 then .status else .sample := by
  match k with
  | 0 | 1 =>
      apply tag_of_top_zero
      simp (disch := omega) only [scalerWord,
        BitVec.extractLsb'_append_eq_of_le]
      rfl
  | 2 => exact tag_flagWord _ _ _

/-- The word sequences of complete records. -/
def recordCode : Set (List Word) :=
  {words | ∃ kind : Kind, words.map tag = kind.tags}

theorem Kind.eq_of_tags_prefix {left right : Kind}
    (hstart : left.tags <+: right.tags) : left = right := by
  revert hstart
  cases left <;> cases right <;> decide

theorem recordCode_prefixFree : PrefixFree recordCode where
  nonempty := by
    rintro words ⟨kind, htags⟩ rfl
    cases kind <;> simp [Kind.tags] at htags
  cancel := by
    rintro left ⟨leftKind, hleft⟩ right ⟨rightKind, hright⟩ hstart
    have htags : leftKind.tags <+: rightKind.tags := by
      rw [← hleft, ← hright]
      exact hstart.map tag
    have hkind := Kind.eq_of_tags_prefix htags
    apply hstart.eq_of_length
    rw [← List.length_map (f := tag), hleft, hkind, ← hright, List.length_map]

theorem Record.words_injective : Function.Injective Record.words := by
  rintro ⟨leftKind, words, hleft⟩ ⟨rightKind, _, hright⟩ rfl
  have hkind : leftKind = rightKind :=
    Kind.eq_of_tags_prefix (by rw [← hleft, ← hright])
  subst hkind
  rfl

/-- Two lists of records with the same words are the same list. -/
theorem flatMap_words_injective :
    Function.Injective fun records : List Record =>
      records.flatMap Record.words := by
  intro left right heq
  simp only [List.flatMap_def] at heq
  apply List.map_injective_iff.mpr Record.words_injective
  apply recordCode_prefixFree.uniquelyDecodable _ _ _ _ heq
  · intro words hmem
    obtain ⟨record, -, rfl⟩ := List.mem_map.mp hmem
    exact ⟨record.kind, record.tagged⟩
  · intro words hmem
    obtain ⟨record, -, rfl⟩ := List.mem_map.mp hmem
    exact ⟨record.kind, record.tagged⟩

end Rfsoc.LagoTrigger
