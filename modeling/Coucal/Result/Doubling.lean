import Coucal.Proof.Reshuffle

namespace Coucal

open Outcome

variable {P : Platform} {κ : Type}

/-- The relocation loop of a doubling over the slots below an index. -/
def Hashtable.splitSlots (t : Hashtable P κ) (index : Nat) : Result (Hashtable P κ) :=
  forUpTo (Hashtable.splitSlot t.lgSize (2 ^ t.lgSize)) index t.doubled

/-- A doubling that returns has made this table by the relocation loop over all its slots. -/
theorem Hashtable.splitSlots_of_expand {env : Env P κ} {t t' : Hashtable P κ} (positive : 0 < t.lgSize)
    (returned : t.expand env = .ok t') : t.splitSlots (2 ^ t.lgSize) = .ok t' := by
  have looped := expand_returned returned
  dsimp only at looped
  rw [doubled_half positive] at looped
  exact looped

/-- A doubling that splits each slot in two. No pass of its loop changes a slot that holds an item, other
than the slot of the pass. -/
structure Lossless (t t' : Hashtable P κ) : Prop where
  lgSize_eq : t'.lgSize = t.lgSize + 1
  live : liveIn (2 ^ t'.lgSize) t'.items = liveIn (2 ^ t.lgSize) t.items
  placed : Placed t'.lgSize t'.items
  split : ∀ i < 2 ^ t.lgSize, (t.items i).name ≠ none →
    t'.items i = t.items i ∧ (t'.items (i + 2 ^ t.lgSize)).name = none ∨
      (t'.items i).name = none ∧ t'.items (i + 2 ^ t.lgSize) = t.items i
  keeps : ∀ index < 2 ^ t.lgSize, ∃ before after, t.splitSlots index = .ok before ∧
    t.splitSlots (index + 1) = .ok after ∧
      ∀ pos, pos ≠ index → (before.items pos).name ≠ none → after.items pos = before.items pos

/-- A pass moves its item to a free slot. -/
theorem moveSlot_keeps {t s s' : Hashtable P κ} {index : Nat} {hash : Hashkey P} (state : Splitting t index s)
    (inside : index < 2 ^ t.lgSize) (placed : hashToPos_ t.lgSize hash = index)
    (moved : Hashtable.moveSlot (2 ^ t.lgSize) index (hashToPos_ (t.lgSize + 1) hash) s = .ok s') {pos : Nat}
    (apart : pos ≠ index) (named : (s.items pos).name ≠ none) : s'.items pos = s.items pos := by
  obtain ⟨-, upper⟩ := state.rest index (Nat.le_refl _) inside
  unfold Hashtable.moveSlot at moved
  split at moved
  next moves =>
    obtain ⟨_, -, same⟩ := bind_eq_ok.mp moved
    cases same
    have other : pos ≠ hashToPos_ (t.lgSize + 1) hash := by
      rw [hashToPos_moves placed moves]
      rintro rfl
      exact named upper
    exact move_other apart other
  next =>
    cases moved
    rfl

theorem splitSlot_keeps {t s s' : Hashtable P κ} {index : Nat} (state : Splitting t index s)
    (inside : index < 2 ^ t.lgSize)
    (passed : Hashtable.splitSlot t.lgSize (2 ^ t.lgSize) index s = .ok s') {pos : Nat} (apart : pos ≠ index)
    (named : (s.items pos).name ≠ none) : s'.items pos = s.items pos := by
  have lgSize_eq : s.lgSize = t.lgSize + 1 := by rw [state.frame]
  unfold Hashtable.splitSlot at passed
  simp only [Hashtable.hashToPos, lgSize_eq] at passed
  split at passed
  next =>
    cases passed
    rfl
  next =>
    split at passed
    next first => exact moveSlot_keeps state inside first passed apart named
    next =>
      split at passed
      next second => exact moveSlot_keeps state inside second passed apart named
      next => cases passed

/-- The relocation loop splits a placed table of any size without loss, and no assertion fails. -/
theorem splitSlots_lossless {t : Hashtable P κ} (placed : Placed t.lgSize t.items) :
    ∃ t', t.splitSlots (2 ^ t.lgSize) = .ok t' ∧ Lossless t t' := by
  have reached : ∀ index ≤ 2 ^ t.lgSize, ∃ s, t.splitSlots index = .ok s ∧ Splitting t index s := by
    intro index inside
    have state := splitSlots_spec placed inside
    cases run : t.splitSlots index with
    | error => exact (state.of_error run).elim
    | ok s => exact ⟨s, rfl, state.of_ok run⟩
  obtain ⟨t', completed, state⟩ := reached _ (Nat.le_refl _)
  have expanded := state.expanded
  have lgSize : t'.lgSize = t.lgSize + 1 := by rw [expanded.frame]
  refine ⟨t', completed, lgSize, lgSize.symm ▸ expanded.live, lgSize.symm ▸ expanded.placed,
    fun i inside _ => expanded.split i inside, fun index inside => ?_⟩
  obtain ⟨before, run, earlier⟩ := reached index (Nat.le_of_lt inside)
  obtain ⟨after, run', -⟩ := reached (index + 1) inside
  refine ⟨before, after, run, run', fun pos apart named => splitSlot_keeps earlier inside ?_ apart named⟩
  have step := run'
  unfold Hashtable.splitSlots at run step
  rw [forUpTo_succ, run, ok_bind] at step
  exact step

/-- A table of two slots with one item at each, whose two candidate slots coincide. -/
theorem splitSlots_lossless_pair :
    ∃ t t' : Hashtable Platform.lp64 Empty, t.splitSlots 2 = .ok t' ∧ Lossless t t' := by
  let t : Hashtable Platform.lp64 Empty :=
    { lgSize := 1, items := fun i => ⟨some .emptyString, 0, ⟨BitVec.ofNat 32 i, BitVec.ofNat 32 (i + 2)⟩⟩, used := 2,
      stash := { items := fun _ => Item.null _ _, size := 0, extent := 0 },
      pool := { buffer := 0, bytes := [], size := 0, capacity := 0, used := 0 }, calls := [], allocs := 0 }
  have placed : Placed t.lgSize t.items := by
    intro i inside _
    left
    have small : i = 0 ∨ i = 1 := by
      change i < 2 at inside
      omega
    rcases small with rfl | rfl <;> decide
  obtain ⟨t', completed, lossless⟩ := splitSlots_lossless placed
  exact ⟨t, t', completed, lossless⟩

end Coucal
