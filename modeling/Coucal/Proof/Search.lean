import Coucal.Proof.Entries

namespace Coucal

variable {P : Platform} {κ : Type}

/-- An entry answers a search for a key with some hashes. -/
def Entry.Matches (env : Env P κ) (key : Key κ) (hashes : Hashkeys P) (entry : Entry P κ) : Prop :=
  entry.hashes = hashes ∧ env.equals entry.key key = true

namespace Hashtable

variable {env : Env P κ} {t : Hashtable P κ}

/-- A slot of the table or of the stash. -/
def Within (t : Hashtable P κ) : Slot → Prop
  | .table pos => pos < 2 ^ t.lgSize
  | .stash index => index < stashSize

/-- A slot of the table, or of the stash below its extent. -/
def Below (t : Hashtable P κ) : Slot → Prop
  | .table pos => pos < 2 ^ t.lgSize
  | .stash index => index < t.stash.extent

theorem Below.within {slot : Slot} (below : t.Below slot) (extent_le : t.stash.extent ≤ stashSize) :
    t.Within slot := by
  cases slot with
  | table pos => exact below
  | stash index => exact Nat.lt_of_lt_of_le below extent_le

/-- The entry at a slot. -/
def entryAt (t : Hashtable P κ) (slot : Slot) : Option (Entry P κ) := (t.item slot).entry t.pool

theorem mem_entries {entry : Entry P κ} :
    entry ∈ t.entries ↔ ∃ slot, t.Within slot ∧ t.entryAt slot = some entry := by
  unfold entries live
  rw [Multiset.filterMap_add, Multiset.mem_add, Multiset.mem_filterMap, Multiset.mem_filterMap]
  have cell : ∀ (count : Nat) (items : Nat → Item P κ),
      (∃ item ∈ liveIn count items, item.entry t.pool = some entry) ↔
        ∃ i < count, (items i).entry t.pool = some entry := by
    intro count items
    constructor
    · rintro ⟨item, member, stored⟩
      obtain ⟨i, inside, rfl, -⟩ := mem_liveIn.mp member
      exact ⟨i, inside, stored⟩
    · rintro ⟨i, inside, stored⟩
      refine ⟨items i, mem_liveIn.mpr ⟨i, inside, rfl, ?_⟩, stored⟩
      rw [Ne, ← @Item.entry_eq_none P κ t.pool, stored]
      exact Option.some_ne_none entry
  rw [cell, cell]
  constructor
  · rintro (⟨i, inside, stored⟩ | ⟨i, inside, stored⟩)
    · exact ⟨.table i, inside, stored⟩
    · exact ⟨.stash i, inside, stored⟩
  · rintro ⟨slot, inside, stored⟩
    cases slot with
    | table pos => exact .inl ⟨pos, inside, stored⟩
    | stash index => exact .inr ⟨index, inside, stored⟩

theorem mem_names {name : Name κ} :
    name ∈ t.names ↔ ∃ slot, t.Within slot ∧ (t.item slot).name = some name := by
  rw [names_eq, Multiset.mem_add, mem_namesIn, mem_namesIn]
  constructor
  · rintro (⟨i, inside, named⟩ | ⟨i, inside, named⟩)
    · exact ⟨.table i, inside, named⟩
    · exact ⟨.stash i, inside, named⟩
  · rintro ⟨slot, inside, named⟩
    cases slot with
    | table pos => exact .inl ⟨pos, inside, named⟩
    | stash index => exact .inr ⟨index, inside, named⟩

/-- The slots of the live items. -/
def liveSlots (t : Hashtable P κ) : Finset Slot :=
  ((Finset.range (2 ^ t.lgSize)).filter fun i => (t.items i).name ≠ none).image Slot.table ∪
    ((Finset.range stashSize).filter fun i => (t.stash.items i).name ≠ none).image Slot.stash

theorem mem_liveSlots {slot : Slot} : slot ∈ t.liveSlots ↔ t.Within slot ∧ (t.item slot).name ≠ none := by
  rw [liveSlots, Finset.mem_union, Finset.mem_image, Finset.mem_image]
  constructor
  · rintro (⟨i, member, rfl⟩ | ⟨i, member, rfl⟩) <;>
      exact ⟨Finset.mem_range.mp (Finset.mem_filter.mp member).1, (Finset.mem_filter.mp member).2⟩
  · rintro ⟨inside, named⟩
    cases slot with
    | table pos => exact .inl ⟨pos, Finset.mem_filter.mpr ⟨Finset.mem_range.mpr inside, named⟩, rfl⟩
    | stash index => exact .inr ⟨index, Finset.mem_filter.mpr ⟨Finset.mem_range.mpr inside, named⟩, rfl⟩

theorem card_liveSlots (t : Hashtable P κ) : t.liveSlots.card = t.live.card := by
  have apart : Disjoint
      (((Finset.range (2 ^ t.lgSize)).filter fun i => (t.items i).name ≠ none).image Slot.table)
      (((Finset.range stashSize).filter fun i => (t.stash.items i).name ≠ none).image Slot.stash) := by
    rw [Finset.disjoint_left]
    intro slot first second
    obtain ⟨i, -, rfl⟩ := Finset.mem_image.mp first
    obtain ⟨j, -, same⟩ := Finset.mem_image.mp second
    cases same
  rw [liveSlots, Finset.card_union_of_disjoint apart,
    Finset.card_image_of_injective _ fun i j same => Slot.table.inj same,
    Finset.card_image_of_injective _ fun i j same => Slot.stash.inj same,
    live, Multiset.card_add, card_liveIn, card_liveIn]

@[simp] theorem item_setItem (t : Hashtable P κ) (slot : Slot) (item : Item P κ) :
    (t.setItem slot item).item slot = item := by
  cases slot <;> exact Function.update_self ..

theorem item_setItem_of_ne (t : Hashtable P κ) {slot other : Slot} (item : Item P κ)
    (apart : other ≠ slot) : (t.setItem slot item).item other = t.item other := by
  cases slot with
  | table pos =>
      cases other with
      | table pos' => exact Function.update_of_ne (fun same => apart (congrArg Slot.table same)) _ _
      | stash => rfl
  | stash index =>
      cases other with
      | table => rfl
      | stash index' => exact Function.update_of_ne (fun same => apart (congrArg Slot.stash same)) _ _

@[simp] theorem setItem_setItem (t : Hashtable P κ) (slot : Slot) (item item' : Item P κ) :
    (t.setItem slot item).setItem slot item' = t.setItem slot item' := by
  cases slot <;> simp [setItem]

@[simp] theorem setItem_item (t : Hashtable P κ) (slot : Slot) : t.setItem slot (t.item slot) = t := by
  cases slot <;> simp [setItem, item]

@[simp] theorem setItem_pool (t : Hashtable P κ) (slot : Slot) (item : Item P κ) :
    (t.setItem slot item).pool = t.pool := by
  cases slot <;> rfl

@[simp] theorem setItem_allocs (t : Hashtable P κ) (slot : Slot) (item : Item P κ) :
    (t.setItem slot item).allocs = t.allocs := by
  cases slot <;> rfl

@[simp] theorem setItem_lgSize (t : Hashtable P κ) (slot : Slot) (item : Item P κ) :
    (t.setItem slot item).lgSize = t.lgSize := by
  cases slot <;> rfl

@[simp] theorem setItem_used (t : Hashtable P κ) (slot : Slot) (item : Item P κ) :
    (t.setItem slot item).used = t.used := by
  cases slot <;> rfl

@[simp] theorem setItem_calls (t : Hashtable P κ) (slot : Slot) (item : Item P κ) :
    (t.setItem slot item).calls = t.calls := by
  cases slot <;> rfl

@[simp] theorem setItem_size (t : Hashtable P κ) (slot : Slot) (item : Item P κ) :
    (t.setItem slot item).stash.size = t.stash.size := by
  cases slot <;> rfl

@[simp] theorem setItem_extent (t : Hashtable P κ) (slot : Slot) (item : Item P κ) :
    (t.setItem slot item).stash.extent = t.stash.extent := by
  cases slot <;> rfl

/-- The live items are the item of one slot and the items of the other slots. -/
theorem live_setItem {slot : Slot} (inside : t.Within slot) (item : Item P κ) :
    (t.setItem slot item).live = item.live + (t.setItem slot (Item.null P κ)).live := by
  have cell : ∀ (count i : Nat) (items : Nat → Item P κ), i < count →
      liveIn count (Function.update items i item) =
        item.live + liveIn count (Function.update items i (Item.null P κ)) := by
    intro count i items below
    have erased := Slots.total_update_erase below Item.live (Function.update items i item)
      (Item.null P κ) rfl
    rw [Function.update_self, Function.update_idem] at erased
    exact erased
  cases slot with
  | table pos =>
      simp only [live, setItem]
      rw [cell _ _ _ inside, add_assoc]
  | stash index =>
      simp only [live, setItem]
      rw [cell _ _ _ inside]
      ac_rfl

theorem entries_setItem {slot : Slot} (inside : t.Within slot) (item : Item P κ) :
    (t.setItem slot item).entries =
      elements (item.entry t.pool) + (t.setItem slot (Item.null P κ)).entries := by
  unfold entries
  rw [live_setItem inside, Multiset.filterMap_add, setItem_pool, setItem_pool,
    Item.filterMap_live fun _ => Item.entry_of_free]

theorem names_setItem {slot : Slot} (inside : t.Within slot) (item : Item P κ) :
    (t.setItem slot item).names = elements item.name + (t.setItem slot (Item.null P κ)).names := by
  unfold names
  rw [live_setItem inside, Multiset.filterMap_add, Item.filterMap_live fun _ => id]

/-- The entry at a slot and the entries of the other slots. -/
theorem entries_eq_cons {slot : Slot} (inside : t.Within slot) {entry : Entry P κ}
    (stored : t.entryAt slot = some entry) :
    t.entries = entry ::ₘ (t.setItem slot (Item.null P κ)).entries := by
  have split := entries_setItem inside (t.item slot)
  rw [setItem_item] at split
  rw [split, show (t.item slot).entry t.pool = some entry from stored, elements, Option.elim_some,
    Multiset.singleton_add]

/-- Another slot keeps its entry when a slot changes. -/
theorem entryAt_setItem_of_ne {slot other : Slot} (item : Item P κ) (apart : other ≠ slot) :
    (t.setItem slot item).entryAt other = t.entryAt other := by
  unfold entryAt
  rw [item_setItem_of_ne t item apart, setItem_pool]

theorem within_setItem {slot other : Slot} (item : Item P κ) :
    (t.setItem slot item).Within other ↔ t.Within other := by
  cases other <;> simp [Within]

theorem matches_iff {item : Item P κ} {name : Name κ} {hashes : Hashkeys P} :
    t.matches_ env item name hashes = true ↔
      ∃ entry, item.entry t.pool = some entry ∧ entry.Matches env (t.key name) hashes := by
  unfold matches_
  cases named : item.name with
  | none => simp [Item.entry_of_free named]
  | some stored =>
      rw [Item.entry_of_named named]
      have both : item.hashes.hash1 = hashes.hash1 ∧ item.hashes.hash2 = hashes.hash2 ↔
          item.hashes = hashes := by
        constructor
        · rintro ⟨first, second⟩
          cases hashes
          cases equal : item.hashes
          simp_all
        · rintro rfl
          exact ⟨rfl, rfl⟩
      simp only [decide_eq_true_eq, ← and_assoc, both, Option.some.injEq, Entry.Matches, equals, key]
      simp only [and_assoc, exists_eq_left']

/-- A located slot is one of those that the search compares. -/
theorem locate_matches {name : Name κ} {hashes : Hashkeys P} {slot : Slot}
    (found : t.locate env name hashes = some slot) :
    t.Below slot ∧ t.matches_ env (t.item slot) name hashes = true := by
  unfold locate at found
  split at found
  next first =>
    cases found
    exact ⟨hashToPos_lt _ _, first⟩
  next =>
    split at found
    next second =>
      cases found
      exact ⟨hashToPos_lt _ _, second⟩
    next =>
      split at found
      next =>
        obtain ⟨index, search, rfl⟩ := Option.map_eq_some_iff.mp found
        have answer : t.matches_ env (t.stash.items index) name hashes = true := by
          simpa using List.find?_some search
        exact ⟨List.mem_range.mp (List.mem_of_find?_eq_some search), answer⟩
      next => cases found

/-- A located slot is live. -/
theorem locate_named {name : Name κ} {hashes : Hashkeys P} {slot : Slot}
    (found : t.locate env name hashes = some slot) : (t.item slot).name ≠ none := by
  obtain ⟨entry, stored, -⟩ := matches_iff.mp (locate_matches found).2
  rw [Ne, ← @Item.entry_eq_none P κ t.pool, stored]
  exact Option.some_ne_none entry

/-- A located slot holds an entry that matches. -/
theorem locate_some {name : Name κ} {hashes : Hashkeys P} {slot : Slot} (bounded : t.stash.Bounded)
    (found : t.locate env name hashes = some slot) :
    t.Within slot ∧ ∃ entry, t.entryAt slot = some entry ∧ entry.Matches env (t.key name) hashes := by
  obtain ⟨below, answer⟩ := locate_matches found
  exact ⟨below.within bounded.extent_le, matches_iff.mp answer⟩

/-- A search without a result means that no entry matches. -/
theorem locate_none {name : Name κ} {hashes : Hashkeys P} (placed : Placed t.lgSize t.items)
    (stash : t.stash.Ok) (missing : t.locate env name hashes = none) :
    ∀ entry ∈ t.entries, ¬ entry.Matches env (t.key name) hashes := by
  intro entry member matches_
  obtain ⟨slot, inside, stored⟩ := mem_entries.mp member
  have named : (t.item slot).name ≠ none := by
    rw [Ne, ← @Item.entry_eq_none P κ t.pool]
    exact ne_of_eq_of_ne stored (Option.some_ne_none entry)
  have found : t.matches_ env (t.item slot) name hashes = true := matches_iff.mpr ⟨entry, stored, matches_⟩
  unfold locate at missing
  split at missing
  next => cases missing
  next notFirst =>
    split at missing
    next => cases missing
    next notSecond =>
      cases slot with
      | table pos =>
          have same : (t.items pos).hashes = hashes := by
            rw [← matches_.1]
            obtain ⟨name, named⟩ := Option.ne_none_iff_exists'.mp named
            have equal := stored
            rw [entryAt, Item.entry_of_named named] at equal
            cases equal
            rfl
          rcases placed pos inside named with first | second
          · rw [same] at first
            exact notFirst (by rw [hashToPos, ← first]; exact found)
          · rw [same] at second
            exact notSecond (by rw [hashToPos, ← second]; exact found)
      | stash index =>
          have below : index < t.stash.extent := by
            by_contra outside
            exact named (stash.above index (Nat.le_of_not_lt outside))
          have nonempty : t.stash.size ≠ 0 := fun empty => named (stash.free_of_size empty index)
          rw [if_pos nonempty, Option.map_eq_none_iff, List.find?_eq_none] at missing
          exact missing index (List.mem_range.mpr below) found

end Hashtable
end Coucal
