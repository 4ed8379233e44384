import Coucal.Proof.Insertion

namespace Coucal

open Outcome

variable {P : Platform} {κ : Type}

/-- An insertion changes the items and the stash only. It keeps each stash entry at its place and adds
at most one, which has no free candidate slot when the table is less than half full. -/
structure Added (t : Hashtable P κ) (item : Item P κ) (t' : Hashtable P κ) : Prop where
  frame : t' = { t with items := t'.items, stash := t'.stash }
  placed : Placed t.lgSize t'.items
  fills : Fills t.items t'.items
  live : t'.live = item ::ₘ t.live
  stashOk : t'.stash.Ok
  stashed : t'.stash = t.stash ∨ ∃ left, left.name ≠ none ∧ t.stash.size < stashSize ∧
    t'.stash = t.stash.insert left ∧
    (HalfFree t.lgSize t.items → Blocked t.lgSize t'.items left)

namespace Added

variable {t t' : Hashtable P κ} {item : Item P κ}

theorem lgSize_eq (added : Added t item t') : t'.lgSize = t.lgSize := by
  rw [added.frame]

theorem size_le (added : Added t item t') : t'.stash.size ≤ t.stash.size + 1 := by
  rcases added.stashed with same | ⟨left, -, -, grown, -⟩
  · rw [same]
    exact Nat.le_succ _
  · rw [grown]
    exact Nat.le_refl _

/-- No stash entry has a free candidate slot when that held before. -/
theorem blocked (added : Added t item t') (half : HalfFree t.lgSize t.items)
    (before : ∀ i, (t.stash.items i).name ≠ none → Blocked t.lgSize t.items (t.stash.items i)) (i : Nat)
    (named : (t'.stash.items i).name ≠ none) : Blocked t.lgSize t'.items (t'.stash.items i) := by
  rcases added.stashed with same | ⟨left, -, -, grown, blocked⟩
  · rw [same] at named ⊢
    exact (before i named).fills added.fills
  · rw [grown] at named ⊢
    unfold Stash.insert at named ⊢
    dsimp only at named ⊢
    by_cases hole : i = t.stash.firstHole
    · subst hole
      rw [Function.update_self]
      exact blocked half
    · rw [Function.update_of_ne hole] at named ⊢
      exact (before i named).fills added.fills

end Added

/-- An insertion exchanges its item for the one that is left for the stash, if any. -/
structure Exchanged (t : Hashtable P κ) (item : Item P κ)
    (result : (Nat → Item P κ) × Option (Item P κ)) : Prop extends Evicted t.lgSize t.items item result where
  room : ∀ left, result.2 = some left → t.stash.size < stashSize
  blocked : ∀ left, result.2 = some left → HalfFree t.lgSize t.items → Blocked t.lgSize result.1 left

/-- A free candidate slot takes the new item. -/
theorem exchanged_of_free {t : Hashtable P κ} {item : Item P κ} {pos : Nat}
    (placed : Placed t.lgSize t.items) (named : item.name ≠ none)
    (candidate : pos = hashToPos_ t.lgSize item.hashes.hash1 ∨ pos = hashToPos_ t.lgSize item.hashes.hash2)
    (free : (t.items pos).name = none) : Exchanged t item (Function.update t.items pos item, none) where
  placed := placed.update fun _ => candidate
  fills := Fills.update t.items pos named
  named _ same := nomatch same
  live := by
    have inside : pos < 2 ^ t.lgSize := by rcases candidate with rfl | rfl <;> exact hashToPos_lt _ _
    simp only [Option.elim_none, zero_add]
    exact liveIn_fill inside free named
  room _ same := nomatch same
  blocked _ same := nomatch same

/-- The table after an exchange. -/
def Hashtable.exchange (t : Hashtable P κ) (result : (Nat → Item P κ) × Option (Item P κ)) : Hashtable P κ :=
  { t with items := result.1, stash := result.2.elim t.stash t.stash.insert }

/-- An insertion is an exchange, and fails only when the stash has no room for the item that is left. -/
theorem addItem_exchanges {t : Hashtable P κ} {item : Item P κ} (placed : Placed t.lgSize t.items)
    (named : item.name ≠ none) :
    Meets (t.addItem_ item)
      (fun result => ∃ exchange, Exchanged t item exchange ∧ result = (true, t.exchange exchange))
      fun error => error = .assertion .stashCollision ∧ stashSize ≤ t.stash.size := by
  unfold Hashtable.addItem_
  simp only [Hashtable.isFree, Hashtable.hashToPos, Option.isNone_iff_eq_none]
  split
  next free => exact ⟨_, exchanged_of_free placed named (.inl rfl) free, rfl⟩
  next occupied1 =>
    split
    next free => exact ⟨_, exchanged_of_free placed named (.inr rfl) free, rfl⟩
    next occupied2 =>
      have evicted := evict_spec item.hashes.hash1 (2 ^ t.lgSize) placed named (.inl rfl)
      cases run : evict t.lgSize item.hashes.hash1 (2 ^ t.lgSize) t.items item item.hashes.hash1 with
      | error error => exact (evicted.of_error run).elim
      | ok result =>
          obtain ⟨items, left⟩ := result
          have outcome := evicted.of_ok run
          rw [ok_bind]
          cases left with
          | none =>
              exact ⟨(items, none), ⟨outcome, fun _ same => (nomatch same), fun _ same => (nomatch same)⟩, rfl⟩
          | some left =>
              dsimp only
              apply Meets.guard
              · intro full
                exact ⟨rfl, Nat.le_of_not_lt full⟩
              · intro room
                refine ⟨(items, some left), ⟨outcome, fun _ _ => room, ?_⟩, rfl⟩
                rintro _ ⟨⟩ half
                exact evict_blocked placed named half ⟨occupied1, occupied2⟩ run

/-- An insertion succeeds unless the stash is full. -/
theorem addItem_spec {t : Hashtable P κ} {item : Item P κ} (placed : Placed t.lgSize t.items)
    (ok : t.stash.Ok) (named : item.name ≠ none) :
    Meets (t.addItem_ item) (fun result => result.1 = true ∧ Added t item result.2) fun error =>
      error = .assertion .stashCollision ∧ stashSize ≤ t.stash.size := by
  refine (addItem_exchanges placed named).imp ?_
  rintro _ ⟨⟨items, left⟩, exchanged, rfl⟩
  have live := exchanged.live
  cases left with
  | none =>
      refine ⟨rfl, rfl, exchanged.placed, exchanged.fills, ?_, ok, .inl rfl⟩
      simp only [Option.elim_none, zero_add] at live
      simp only [Hashtable.exchange, Hashtable.live, Option.elim_none, live, Multiset.cons_add]
  | some left =>
      have room := exchanged.room left rfl
      have leftNamed := exchanged.named left rfl
      refine ⟨rfl, rfl, exchanged.placed, exchanged.fills, ?_, ok.insert room leftNamed,
        .inr ⟨left, leftNamed, room, rfl, exchanged.blocked left rfl⟩⟩
      simp only [Option.elim_some, Multiset.singleton_add] at live
      simp only [Hashtable.exchange, Hashtable.live, Option.elim_some, ok.live_insert room leftNamed,
        Multiset.add_cons]
      rw [← Multiset.cons_add, live, Multiset.cons_add]

/-- A merge of the stash moves entries between the stash and the table only. -/
structure Merged (t t' : Hashtable P κ) : Prop where
  frame : t' = { t with items := t'.items, stash := t'.stash }
  placed : Placed t.lgSize t'.items
  fills : Fills t.items t'.items
  live : t'.live = t.live
  stashOk : t'.stash.Ok
  size_le : t'.stash.size ≤ t.stash.size

/-- The loop that inserts the saved entries again has this state before an index. -/
structure Merging (t : Hashtable P κ) (index : Nat) (s : Hashtable P κ) : Prop where
  frame : s = { t with items := s.items, stash := s.stash }
  placed : Placed t.lgSize s.items
  fills : Fills t.items s.items
  live : s.live = liveIn (2 ^ t.lgSize) t.items + liveIn index t.stash.items
  stashOk : s.stash.Ok
  size_le : s.stash.size ≤ (liveIn index t.stash.items).card
  blocked : 2 * t.live.card + 2 ≤ 2 ^ t.lgSize →
    ∀ i, (s.stash.items i).name ≠ none → Blocked t.lgSize s.items (s.stash.items i)

/-- The merge starts with an empty stash. -/
theorem merging_start {t : Hashtable P κ} (placed : Placed t.lgSize t.items) :
    Merging t 0 { t with stash := { items := fun _ => Item.null P κ, size := 0, extent := 0 } } := by
  refine ⟨rfl, placed, Fills.refl _, ?_, Stash.ok_empty, Nat.zero_le _, ?_⟩
  · have empty : liveIn stashSize (fun _ => Item.null P κ) = 0 := liveIn_eq_zero fun _ _ => rfl
    simp only [Hashtable.live, empty, add_zero, liveIn_zero]
  · intro _ i named
    exact absurd rfl named

/-- The table of a merge is less than half full when there is room for all items. -/
theorem Merging.halfFree {t s : Hashtable P κ} {index : Nat} (ok : t.stash.Ok)
    (inside : index ≤ t.stash.extent) (state : Merging t index s)
    (half : 2 * t.live.card + 2 ≤ 2 ^ t.lgSize) : HalfFree s.lgSize s.items := by
  have lgSize_eq : s.lgSize = t.lgSize := by rw [state.frame]
  have total := congrArg Multiset.card state.live
  have fewer := Multiset.card_le_card (liveIn_mono (inside.trans ok.extent_le) t.stash.items)
  simp only [Hashtable.live, Multiset.card_add, lgSize_eq] at total half
  unfold HalfFree
  rw [lgSize_eq]
  omega

/-- Each saved entry is inserted again, and the stash has room for it. -/
theorem mergeEntry_step {t s : Hashtable P κ} {index : Nat} (ok : t.stash.Ok)
    (inside : index < t.stash.extent) (state : Merging t index s) :
    Meets (Hashtable.mergeEntry t.stash index s) (Merging t (index + 1)) fun _ => False := by
  have lgSize_eq : s.lgSize = t.lgSize := by rw [state.frame]
  have next := liveIn_succ index t.stash.items
  unfold Hashtable.mergeEntry
  split
  next free =>
    have empty : (t.stash.items index).live = 0 := Item.live_of_free (by simpa using free)
    rw [empty, zero_add] at next
    exact ⟨state.frame, state.placed, state.fills, next ▸ state.live, state.stashOk, next ▸ state.size_le,
      state.blocked⟩
  next named =>
    have named : (t.stash.items index).name ≠ none := by simpa using named
    rw [Item.live_of_named named, Multiset.singleton_add] at next
    have room : s.stash.size < stashSize :=
      Nat.lt_of_le_of_lt (state.size_le.trans (card_liveIn_le _ _)) (Nat.lt_of_lt_of_le inside ok.extent_le)
    have insertion := addItem_spec (t := s) (lgSize_eq ▸ state.placed) state.stashOk named
    refine (insertion.mono (fun _ => id) ?_).bind ?_
    · rintro error ⟨-, full⟩
      exact absurd room (Nat.not_lt.mpr full)
    rintro ⟨flag, s'⟩ ⟨rfl, added⟩
    change Added s _ s' at added
    apply Meets.guard (fun fails => (fails rfl).elim)
    intro _
    refine ⟨?_, lgSize_eq ▸ added.placed, state.fills.trans added.fills, ?_, added.stashOk, ?_, ?_⟩
    · conv_lhs => rw [added.frame, state.frame]
    · rw [added.live, state.live, next, Multiset.add_cons]
    · rw [next, Multiset.card_cons]
      exact added.size_le.trans (Nat.succ_le_succ state.size_le)
    · intro half i named
      have kept := added.blocked (state.halfFree ok (Nat.le_of_lt inside) half)
        (lgSize_eq ▸ state.blocked half) i named
      exact lgSize_eq ▸ kept

/-- The merge never exhausts the stash. In a table that is less than half full it leaves no entry with
a free candidate slot. -/
theorem mergeStash_spec {t : Hashtable P κ} (placed : Placed t.lgSize t.items) (ok : t.stash.Ok) :
    Meets t.mergeStash (fun t' => Merged t t' ∧ (2 * t.live.card + 2 ≤ 2 ^ t.lgSize →
      ∀ i, (t'.stash.items i).name ≠ none → Blocked t.lgSize t'.items (t'.stash.items i)))
      fun _ => False := by
  unfold Hashtable.mergeStash
  split
  next =>
    refine (Meets.forUpTo (Merging t) (merging_start placed) fun index inside s state =>
      mergeEntry_step ok inside state).bind fun s state => ?_
    have whole := ok.liveIn_extent
    have smaller : s.stash.size ≤ t.stash.size := by
      rw [ok.size_eq, whole]
      exact state.size_le
    apply Meets.guard (fun fails => (fails smaller).elim)
    intro _
    refine ⟨⟨state.frame, state.placed, state.fills, ?_, state.stashOk, smaller⟩, state.blocked⟩
    rw [state.live, ← whole]
    rfl
  next empty =>
    have empty : t.stash.size = 0 := by simpa using empty
    refine ⟨⟨rfl, placed, Fills.refl _, rfl, ok, Nat.le_refl _⟩, ?_⟩
    intro _ i named
    exact absurd (ok.free_of_size empty i) named

end Coucal
