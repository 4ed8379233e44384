import Mathlib.Algebra.BigOperators.Group.Finset.Basic
import Mathlib.Algebra.BigOperators.Group.Finset.Piecewise
import Mathlib.Algebra.Order.BigOperators.Group.Finset
import Mathlib.Algebra.Order.Group.Multiset
import Mathlib.Algebra.BigOperators.Intervals
import Mathlib.Tactic.Common

namespace Slots

open Finset

variable {α β M : Type}

/-- An array of cells has the sum of the measures of its cells below a bound. -/
def total [AddCommMonoid M] (count : Nat) (measure : α → M) (cells : Nat → α) : M :=
  ∑ i ∈ range count, measure (cells i)

/-- The sum depends only on the measures of the cells. -/
theorem total_congr [AddCommMonoid M] {count : Nat} {measure : α → M} {measure' : β → M}
    {cells : Nat → α} {cells' : Nat → β}
    (same : ∀ i < count, measure (cells i) = measure' (cells' i)) :
    total count measure cells = total count measure' cells' :=
  sum_congr rfl fun i inside => same i (mem_range.mp inside)

/-- An update replaces one term of the sum. -/
theorem total_update [AddCommMonoid M] {count index : Nat} (inside : index < count)
    (measure : α → M) (cells : Nat → α) (cell : α) :
    total count measure (Function.update cells index cell) + measure (cells index) =
      total count measure cells + measure cell := by
  unfold total
  have member : index ∈ range count := mem_range.mpr inside
  rw [← add_sum_erase _ _ member, ← add_sum_erase (range count) (fun i => measure (cells i)) member]
  have rest : ∑ i ∈ (range count).erase index, measure (Function.update cells index cell i) =
      ∑ i ∈ (range count).erase index, measure (cells i) := by
    apply sum_congr rfl
    intro i away
    rw [Function.update_of_ne (ne_of_mem_erase away)]
  rw [rest, Function.update_self]
  ac_rfl

/-- An update of a cell with the zero measure adds the measure of the new cell. -/
theorem total_update_empty [AddCommMonoid M] {count index : Nat} (inside : index < count)
    (measure : α → M) (cells : Nat → α) (cell : α) (empty : measure (cells index) = 0) :
    total count measure (Function.update cells index cell) =
      measure cell + total count measure cells := by
  have changed := total_update inside measure cells cell
  rw [empty, add_zero] at changed
  rw [changed, add_comm]

/-- An update to a cell with the zero measure removes the measure of the old cell. -/
theorem total_update_erase [AddCommMonoid M] {count index : Nat} (inside : index < count)
    (measure : α → M) (cells : Nat → α) (cell : α) (empty : measure cell = 0) :
    total count measure cells =
      measure (cells index) + total count measure (Function.update cells index cell) := by
  have changed := total_update inside measure cells cell
  rw [empty, add_zero] at changed
  rw [← changed, add_comm]

/-- Cells beyond a bound count nothing when their measure is zero. -/
theorem total_extend [AddCommMonoid M] {count count' : Nat} (longer : count ≤ count')
    {measure : α → M} {cells : Nat → α}
    (empty : ∀ i, count ≤ i → i < count' → measure (cells i) = 0) :
    total count' measure cells = total count measure cells := by
  unfold total
  rw [← sum_range_add_sum_Ico _ longer, sum_eq_zero (s := Ico count count'), add_zero]
  intro i member
  exact empty i (mem_Ico.mp member).1 (mem_Ico.mp member).2

/-- The members of a sum of multisets are the members of its cells. -/
theorem mem_total {count : Nat} {measure : α → Multiset β} {cells : Nat → α} {element : β} :
    element ∈ total count measure cells ↔ ∃ i < count, element ∈ measure (cells i) := by
  unfold total
  rw [Multiset.mem_sum]
  simp only [mem_range]

/-- A partial map of the sum is the sum of the partial maps. -/
theorem filterMap_total {γ : Type} (f : β → Option γ) {count : Nat} {measure : α → Multiset β}
    {cells : Nat → α} :
    (total count measure cells).filterMap f =
      total count (fun cell => (measure cell).filterMap f) cells := by
  unfold total
  induction count with
  | zero => rfl
  | succ count ih => rw [sum_range_succ, Multiset.filterMap_add, ih, sum_range_succ]

/-- The size of a sum of multisets counts the cells that hold one element. -/
theorem card_total {count : Nat} {measure : α → Multiset β} {cells : Nat → α} {live : Nat → Prop}
    [DecidablePred live] (one : ∀ i < count, (measure (cells i)).card = if live i then 1 else 0) :
    (total count measure cells).card = ((range count).filter live).card := by
  unfold total
  rw [Multiset.card_sum, card_filter]
  exact sum_congr rfl fun i inside => one i (mem_range.mp inside)

end Slots
