import Mathlib.Data.Multiset.Filter
import Mathlib.Tactic.Common

namespace Bytes

variable {α : Type}

/-- The list agrees with a word from an offset on. -/
def Holds (bytes : List α) (offset : Nat) (word : List α) : Prop :=
  ∀ i < word.length, bytes[offset + i]? = word[i]?

/-- A held word is a prefix of the list from its offset on. -/
theorem Holds.isPrefix {bytes word : List α} {offset : Nat} (holds : Holds bytes offset word) :
    word <+: bytes.drop offset := by
  rw [List.prefix_iff_getElem?]
  intro i inside
  rw [List.getElem?_drop, holds i inside, List.getElem?_eq_getElem inside]

/-- Lists that agree on a word hold it both. -/
theorem Holds.congr {bytes bytes' word : List α} {offset : Nat} (holds : Holds bytes offset word)
    (same : ∀ i, offset ≤ i → i < offset + word.length → bytes'[i]? = bytes[i]?) :
    Holds bytes' offset word := by
  intro i inside
  rw [same (offset + i) (Nat.le_add_right _ _) (by omega), holds i inside]

/-- The list with a word in place of its elements from an offset on. -/
def overwrite (bytes : List α) (offset : Nat) (word : List α) : List α :=
  bytes.take offset ++ word ++ bytes.drop (offset + word.length)

section Overwrite

variable {bytes word : List α} {offset : Nat} (fits : offset + word.length ≤ bytes.length)

include fits

theorem overwrite_length : (overwrite bytes offset word).length = bytes.length := by
  simp only [overwrite, List.length_append, List.length_take, List.length_drop]
  omega

/-- The written word is held. -/
theorem overwrite_holds : Holds (overwrite bytes offset word) offset word := by
  intro i inside
  have before : (bytes.take offset).length = offset := by
    rw [List.length_take]
    omega
  rw [overwrite, List.append_assoc, List.getElem?_append_right (by omega), before,
    List.getElem?_append_left (by omega), Nat.add_sub_cancel_left]

/-- The elements before the word stay. -/
theorem overwrite_before {i : Nat} (below : i < offset) :
    (overwrite bytes offset word)[i]? = bytes[i]? := by
  have before : (bytes.take offset).length = offset := by
    rw [List.length_take]
    omega
  rw [overwrite, List.append_assoc, List.getElem?_append_left (by omega),
    List.getElem?_take_of_lt below]

end Overwrite

/-- A region has an offset and a length. -/
abbrev Region := Nat × Nat

def Covers (i : Nat) (region : Region) : Prop :=
  region.1 ≤ i ∧ i < region.1 + region.2

instance (i : Nat) : DecidablePred (Covers i) :=
  fun region => inferInstanceAs (Decidable (region.1 ≤ i ∧ i < region.1 + region.2))

/-- No two of the regions share an index. -/
def Apart (regions : Multiset Region) : Prop :=
  ∀ i, regions.countP (Covers i) ≤ 1

theorem apart_zero : Apart 0 := fun _ => by simp

theorem Apart.of_le {regions regions' : Multiset Region} (apart : Apart regions)
    (fewer : regions' ≤ regions) : Apart regions' :=
  fun i => (Multiset.countP_le_of_le _ fewer).trans (apart i)

/-- A region above all others shares no index with them. -/
theorem Apart.cons_above {regions : Multiset Region} (apart : Apart regions) {offset length : Nat}
    (below : ∀ region ∈ regions, region.1 + region.2 ≤ offset) :
    Apart ((offset, length) ::ₘ regions) := by
  intro i
  by_cases covered : Covers i (offset, length)
  · rw [Multiset.countP_cons_of_pos _ covered, Multiset.countP_eq_zero.mpr]
    intro region member covers
    have ends := below region member
    have starts := covered.1
    have inside := covers.2
    dsimp only at starts
    omega
  · rw [Multiset.countP_cons_of_neg _ covered]
    exact apart i

/-- An index of one region belongs to no other region. -/
theorem Apart.outside {regions : Multiset Region} {region other : Region}
    (apart : Apart (region ::ₘ regions)) (member : other ∈ regions) {i : Nat}
    (covered : Covers i region) : ¬ Covers i other := by
  intro covers
  have count := apart i
  rw [Multiset.countP_cons_of_pos _ covered] at count
  have positive : 0 < regions.countP (Covers i) := Multiset.countP_pos_of_mem member covers
  omega

end Bytes
