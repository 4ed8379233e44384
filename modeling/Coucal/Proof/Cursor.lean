import Coucal.Proof.Search

namespace Coucal

variable {P : Platform} {κ : Type}

/-- The search stops at the first index that the test does not skip, or at its bound. -/
theorem skipWhile_spec (skip : Nat → Bool) (rounds index : Nat) :
    index ≤ Hashtable.skipWhile skip rounds index ∧
      Hashtable.skipWhile skip rounds index ≤ index + rounds ∧
      (∀ i, index ≤ i → i < Hashtable.skipWhile skip rounds index → skip i = true) ∧
      (Hashtable.skipWhile skip rounds index < index + rounds →
        skip (Hashtable.skipWhile skip rounds index) = false) := by
  induction rounds generalizing index with
  | zero =>
      exact ⟨Nat.le_refl _, Nat.le_refl _, fun i above below => absurd below (Nat.not_lt.mpr above),
        fun below => absurd below (Nat.lt_irrefl _)⟩
  | succ rounds ih =>
      unfold Hashtable.skipWhile
      split
      next skips =>
        obtain ⟨lower, upper, skipped, stops⟩ := ih (index + 1)
        refine ⟨by omega, by omega, ?_, fun below => stops (by omega)⟩
        intro i above below
        rcases Nat.eq_or_lt_of_le above with rfl | later
        · exact skips
        · exact skipped i later below
      next stops => exact ⟨Nat.le_refl _, by omega, fun i above below => by omega, fun _ => by simpa using stops⟩

namespace Hashtable

variable {t : Hashtable P κ}

/-- The place of a slot in the order of the enumeration. -/
def position (t : Hashtable P κ) : Slot → Nat
  | .table pos => pos
  | .stash index => 2 ^ t.lgSize + index

theorem position_injective {slot other : Slot} (inside : t.Within slot) (inside' : t.Within other)
    (same : t.position slot = t.position other) : slot = other := by
  cases slot with
  | table pos =>
      cases other with
      | table pos' => exact congrArg Slot.table same
      | stash index =>
          simp only [Within] at inside
          simp only [position] at same
          omega
  | stash index =>
      cases other with
      | table pos =>
          simp only [Within] at inside'
          simp only [position] at same
          omega
      | stash index' => exact congrArg Slot.stash (Nat.add_left_cancel same)

/-- The cursor moves to the next live slot, and to the end when there is none. -/
def CursorMoves (t : Hashtable P κ) (index next : Nat) : Option Slot → Prop
  | some slot => t.Within slot ∧ (t.item slot).name ≠ none ∧ index ≤ t.position slot ∧
      next = t.position slot + 1 ∧ ∀ other, t.Within other → index ≤ t.position other →
        t.position other < t.position slot → (t.item other).name = none
  | none => index ≤ next ∧
      ∀ other, t.Within other → index ≤ t.position other → (t.item other).name = none

/-- The cursor moves to the next live slot below the extent of the stash, whatever the stash holds beyond
it, and otherwise stays inside the bounds. -/
theorem enumNext_moves (t : Hashtable P κ) (index : Nat) :
    (∀ slot, (t.enumNext index).2 = some slot → t.Below slot ∧ (t.item slot).name ≠ none ∧
      index ≤ t.position slot ∧ (t.enumNext index).1 = t.position slot + 1 ∧
      ∀ other, t.Below other → index ≤ t.position other → t.position other < t.position slot →
        (t.item other).name = none) ∧
    ((t.enumNext index).2 = none → index ≤ (t.enumNext index).1 ∧
      (t.enumNext index).1 ≤ max index (2 ^ t.lgSize + t.stash.extent) ∧
      ∀ other, t.Below other → index ≤ t.position other → (t.item other).name = none) := by
  unfold enumNext
  obtain ⟨lower, upper, skipped, stops⟩ := skipWhile_spec t.isFree (2 ^ t.lgSize - index) index
  dsimp only
  generalize skipWhile t.isFree (2 ^ t.lgSize - index) index = pos at *
  have table : ∀ i, index ≤ i → i < pos → (t.items i).name = none := by
    intro i above below
    simpa [isFree] using skipped i above below
  split
  next inside =>
    refine ⟨?_, fun none => absurd none (Option.some_ne_none _)⟩
    rintro _ ⟨⟩
    refine ⟨inside, ?_, lower, rfl, ?_⟩
    · intro free
      have occupied := stops (by omega)
      rw [isFree, show (t.items pos).name = none from free] at occupied
      cases occupied
    · intro other within above below
      cases other with
      | table i => exact table i above below
      | stash i =>
          simp only [position] at below
          omega
  next outside =>
    obtain ⟨lower', upper', skipped', stops'⟩ := skipWhile_spec
      (fun i => (t.stash.items (i - 2 ^ t.lgSize)).name.isNone)
      (2 ^ t.lgSize + t.stash.extent - pos) pos
    generalize skipWhile (fun i => (t.stash.items (i - 2 ^ t.lgSize)).name.isNone)
      (2 ^ t.lgSize + t.stash.extent - pos) pos = last at *
    have stash : ∀ i, index ≤ 2 ^ t.lgSize + i → 2 ^ t.lgSize + i < last →
        (t.stash.items i).name = none := by
      intro i above below
      rcases Nat.lt_or_ge (2 ^ t.lgSize + i) pos with early | late
      · omega
      · have free := skipped' _ late below
        simpa using free
    split
    next inside =>
      refine ⟨?_, fun none => absurd none (Option.some_ne_none _)⟩
      rintro _ ⟨⟩
      refine ⟨?_, ?_, ?_, ?_, ?_⟩
      · change last - 2 ^ t.lgSize < t.stash.extent
        omega
      · intro free
        have occupied := stops' (by omega)
        rw [show (t.stash.items (last - 2 ^ t.lgSize)).name = none from free] at occupied
        cases occupied
      · simp only [position]
        omega
      · simp only [position]
        omega
      · intro other within above below
        cases other with
        | table i => exact table i above (by simp only [Below] at within; omega)
        | stash i =>
            simp only [position] at above below
            exact stash i above (by omega)
    next finished =>
      refine ⟨fun _ found => absurd found.symm (Option.some_ne_none _), fun _ => ⟨by omega, by omega, ?_⟩⟩
      intro other within above
      cases other with
      | table i => exact table i above (by simp only [Below] at within; omega)
      | stash i =>
          simp only [position] at above
          simp only [Below] at within
          exact stash i above (by omega)

theorem enumNext_spec (bounded : t.stash.Bounded) (index : Nat) :
    t.CursorMoves index (t.enumNext index).1 (t.enumNext index).2 := by
  obtain ⟨moves, ends⟩ := t.enumNext_moves index
  have beyond : ∀ other, (t.Below other → (t.item other).name = none) → t.Within other →
      (t.item other).name = none := by
    intro other free inside
    cases other with
    | table pos => exact free inside
    | stash i =>
        rcases Nat.lt_or_ge i t.stash.extent with below | above
        · exact free below
        · exact bounded.above i above
  cases chosen : (t.enumNext index).2 with
  | none =>
      obtain ⟨later, -, free⟩ := ends chosen
      exact ⟨later, fun other inside above => beyond other (fun below => free other below above) inside⟩
  | some slot =>
      obtain ⟨below, named, ahead, next, free⟩ := moves slot chosen
      exact ⟨below.within bounded.extent_le, named, ahead, next, fun other inside above earlier =>
        beyond other (fun below => free other below above earlier) inside⟩

theorem position_lt {slot : Slot} (below : t.Below slot) :
    t.position slot < 2 ^ t.lgSize + t.stash.extent := by
  cases slot with
  | table pos => exact Nat.lt_add_right _ below
  | stash index => exact Nat.add_lt_add_left below _

/-- The index never decreases and increases with each result. It stays inside the current bounds unless
it is beyond them already. -/
theorem enumNext_advances (t : Hashtable P κ) (index : Nat) :
    index + (t.enumNext index).2.isSome.toNat ≤ (t.enumNext index).1 ∧
      (t.enumNext index).1 ≤ max index (2 ^ t.lgSize + t.stash.extent) := by
  obtain ⟨moves, ends⟩ := t.enumNext_moves index
  cases found : (t.enumNext index).2 with
  | none =>
      obtain ⟨later, bound, -⟩ := ends found
      exact ⟨later, bound⟩
  | some slot =>
      obtain ⟨below, -, ahead, next, -⟩ := moves slot found
      have inside := position_lt below
      rw [next]
      exact ⟨Nat.succ_le_succ ahead, le_max_of_le_right inside⟩

/-- The places that the calls of one enumerator return before NULL. -/
inductive Enumeration (t : Hashtable P κ) : Nat → List Slot → Prop where
  | last {index : Nat} (ends : (t.enumNext index).2 = none) : Enumeration t index []
  | next {index index' : Nat} {slot : Slot} {slots : List Slot}
      (returns : t.enumNext index = (index', some slot)) (rest : Enumeration t index' slots) :
      Enumeration t index (slot :: slots)

/-- Each enumeration ends. -/
theorem exists_enumeration (t : Hashtable P κ) (index : Nat) : ∃ slots, t.Enumeration index slots := by
  induction left : 2 ^ t.lgSize + t.stash.extent - index using Nat.strong_induction_on generalizing index with
  | h left ih =>
      cases found : (t.enumNext index).2 with
      | none => exact ⟨[], .last found⟩
      | some slot =>
          obtain ⟨below, -, ahead, next, -⟩ := (t.enumNext_moves index).1 slot found
          have inside := position_lt below
          obtain ⟨slots, rest⟩ := ih _ (by omega) (t.enumNext index).1 rfl
          exact ⟨slot :: slots, .next (Prod.ext rfl found) rest⟩

/-- An enumeration returns each live slot from its index on, once. -/
theorem Enumeration.spec (bounded : t.stash.Bounded) {index : Nat} {slots : List Slot}
    (enumeration : t.Enumeration index slots) :
    slots.Nodup ∧ ∀ slot, slot ∈ slots ↔
      t.Within slot ∧ (t.item slot).name ≠ none ∧ index ≤ t.position slot := by
  induction enumeration with
  | @last index ends =>
      have moves := t.enumNext_spec bounded index
      rw [ends] at moves
      refine ⟨List.nodup_nil, fun slot => ⟨fun member => absurd member List.not_mem_nil, ?_⟩⟩
      rintro ⟨inside, named, above⟩
      exact absurd (moves.2 slot inside above) named
  | @next index index' first slots returns rest ih =>
      obtain ⟨nodup, members⟩ := ih
      have moves := t.enumNext_spec bounded index
      rw [returns] at moves
      obtain ⟨inside, named, ahead, rfl, free⟩ := moves
      refine ⟨List.nodup_cons.mpr ⟨fun member => ?_, nodup⟩, fun slot => ?_⟩
      · have above := ((members first).mp member).2.2
        omega
      · rw [List.mem_cons, members]
        constructor
        · rintro (rfl | ⟨inside', named', above⟩)
          · exact ⟨inside, named, ahead⟩
          · exact ⟨inside', named', by omega⟩
        · rintro ⟨inside', named', above⟩
          rcases Nat.lt_trichotomy (t.position slot) (t.position first) with earlier | same | later
          · exact absurd (free slot inside' above earlier) named'
          · exact .inl (position_injective inside' inside same)
          · exact .inr ⟨inside', named', later⟩

/-- An enumeration from the start counts the live items. -/
theorem Enumeration.length_eq (bounded : t.stash.Bounded) {slots : List Slot}
    (enumeration : t.Enumeration 0 slots) : slots.length = t.live.card := by
  obtain ⟨nodup, members⟩ := enumeration.spec bounded
  rw [← card_liveSlots, ← List.toFinset_card_of_nodup nodup]
  congr 1
  ext slot
  rw [List.mem_toFinset, members, mem_liveSlots]
  simp

end Hashtable
end Coucal
