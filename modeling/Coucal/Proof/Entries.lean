import Coucal.Proof.Stash
import Coucal.Proof.Strings

namespace Coucal

variable {P : Platform} {κ : Type}

/-- The content of a live item. -/
structure Entry (P : Platform) (κ : Type) where
  key : Key κ
  value : Value P
  hashes : Hashkeys P

/-- The elements of an optional value. -/
abbrev elements {α : Type} (value : Option α) : Multiset α := value.elim 0 ({·})

theorem filterMap_singleton {α β : Type} (f : α → Option β) (element : α) :
    ({element} : Multiset α).filterMap f = elements (f element) := by
  rw [← Multiset.cons_zero, Multiset.filterMap_cons, Multiset.filterMap_zero, add_zero]
  cases f element <;> rfl

/-- The entry that an item holds while the pool has this content. -/
def Item.entry (pool : Pool) (item : Item P κ) : Option (Entry P κ) :=
  item.name.map fun name => ⟨pool.key name, item.value, item.hashes⟩

theorem Item.entry_of_free {pool : Pool} {item : Item P κ} (free : item.name = none) :
    item.entry pool = none := by
  simp [entry, free]

theorem Item.entry_of_named {pool : Pool} {item : Item P κ} {name : Name κ}
    (named : item.name = some name) :
    item.entry pool = some ⟨pool.key name, item.value, item.hashes⟩ := by
  simp [entry, named]

@[simp] theorem Item.entry_eq_none {pool : Pool} {item : Item P κ} :
    item.entry pool = none ↔ item.name = none := by
  simp [entry]

/-- Equal entries agree on the hashes of a live item. -/
theorem Item.hashes_eq {pool pool' : Pool} {item item' : Item P κ}
    (same : item'.entry pool' = item.entry pool) (named : item.name ≠ none) :
    item'.hashes = item.hashes := by
  obtain ⟨name, stored⟩ := Option.ne_none_iff_exists'.mp named
  rw [item.entry_of_named stored] at same
  unfold entry at same
  obtain ⟨name', -, equal⟩ := Option.map_eq_some_iff.mp same
  exact congrArg Entry.hashes equal

/-- The key of an item determines its entry. -/
theorem Item.entry_congr {pool pool' : Pool} {name name' : Option (Name κ)} (value : Value P)
    (hashes : Hashkeys P) (same : name'.map pool'.key = name.map pool.key) :
    Item.entry pool' ⟨name', value, hashes⟩ = Item.entry pool ⟨name, value, hashes⟩ := by
  have keys := congrArg (Option.map fun key => (⟨key, value, hashes⟩ : Entry P κ)) same
  rw [Option.map_map, Option.map_map] at keys
  exact keys

/-- An item keeps its entry while its name keeps its string. -/
theorem Item.entry_keep {pool pool' : Pool} {item : Item P κ}
    (held : ∀ name, item.name = some name → pool'.key name = pool.key name) :
    item.entry pool' = item.entry pool := by
  refine entry_congr item.value item.hashes ?_
  cases named : item.name with
  | none => rfl
  | some name => exact congrArg some (held name named)

theorem Item.named_iff {pool pool' : Pool} {item item' : Item P κ}
    (same : item'.entry pool' = item.entry pool) : item'.name = none ↔ item.name = none := by
  rw [← @entry_eq_none P κ pool', same, entry_eq_none]

/-- A partial function of a cell ignores free items. -/
theorem Item.filterMap_live {β : Type} {f : Item P κ → Option β}
    (absent : ∀ item, item.name = none → f item = none) (item : Item P κ) :
    item.live.filterMap f = elements (f item) := by
  by_cases free : item.name = none
  · rw [live_of_free free, absent _ free]
    rfl
  · rw [live_of_named free, filterMap_singleton]

/-- A function of the live items is summed over the cells. -/
theorem filterMap_liveIn {β : Type} {f : Item P κ → Option β}
    (absent : ∀ item, item.name = none → f item = none) (count : Nat) (items : Nat → Item P κ) :
    (liveIn count items).filterMap f = Slots.total count (fun item => elements (f item)) items := by
  unfold liveIn
  rw [Slots.filterMap_total]
  exact Slots.total_congr fun i _ => Item.filterMap_live absent (items i)

/-- The names of the live items of an array. -/
def namesIn (count : Nat) (items : Nat → Item P κ) : Multiset (Name κ) :=
  (liveIn count items).filterMap Item.name

theorem namesIn_succ (count : Nat) (items : Nat → Item P κ) :
    namesIn (count + 1) items = elements (items count).name + namesIn count items := by
  unfold namesIn
  rw [filterMap_liveIn fun _ => id, filterMap_liveIn fun _ => id]
  exact (Finset.sum_range_succ ..).trans (add_comm _ _)

theorem namesIn_congr {count : Nat} {items items' : Nat → Item P κ}
    (same : ∀ i < count, (items i).name = (items' i).name) : namesIn count items = namesIn count items' := by
  unfold namesIn
  rw [filterMap_liveIn fun _ => id, filterMap_liveIn fun _ => id]
  exact Slots.total_congr fun i inside => by rw [same i inside]

theorem mem_namesIn {count : Nat} {items : Nat → Item P κ} {name : Name κ} :
    name ∈ namesIn count items ↔ ∃ i < count, (items i).name = some name := by
  unfold namesIn
  rw [Multiset.mem_filterMap]
  constructor
  · rintro ⟨item, member, named⟩
    obtain ⟨i, inside, rfl, -⟩ := mem_liveIn.mp member
    exact ⟨i, inside, named⟩
  · rintro ⟨i, inside, named⟩
    exact ⟨items i, mem_liveIn.mpr ⟨i, inside, rfl, by simp [named]⟩, named⟩

theorem namesIn_mono {count count' : Nat} (shorter : count ≤ count') (items : Nat → Item P κ) :
    namesIn count items ≤ namesIn count' items :=
  Multiset.filterMap_le_filterMap _ (liveIn_mono shorter items)

namespace Hashtable

/-- The names of the live items. -/
def names (t : Hashtable P κ) : Multiset (Name κ) := t.live.filterMap Item.name

/-- The entries of the table and the stash. -/
def entries (t : Hashtable P κ) : Multiset (Entry P κ) := t.live.filterMap (Item.entry t.pool)

theorem names_eq (t : Hashtable P κ) :
    t.names = namesIn (2 ^ t.lgSize) t.items + namesIn stashSize t.stash.items :=
  Multiset.filterMap_add ..

/-- The names of the stash lie below its extent. -/
theorem names_of_extent {t : Hashtable P κ} (stash : t.stash.Bounded) :
    t.names = namesIn (2 ^ t.lgSize) t.items + namesIn t.stash.extent t.stash.items := by
  rw [names_eq]
  exact congrArg (_ + Multiset.filterMap Item.name ·) stash.liveIn_extent

theorem mem_names_table {t : Hashtable P κ} {i : Nat} (inside : i < 2 ^ t.lgSize) {name : Name κ}
    (named : (t.items i).name = some name) : name ∈ t.names := by
  rw [names_eq]
  exact Multiset.mem_add.mpr (.inl (mem_namesIn.mpr ⟨i, inside, named⟩))

theorem mem_names_stash {t : Hashtable P κ} (bounded : t.stash.Bounded) {i : Nat} {name : Name κ}
    (named : (t.stash.items i).name = some name) : name ∈ t.names := by
  rw [names_eq]
  have inside : i < stashSize := bounded.lt_of_named (by simp [named])
  exact Multiset.mem_add.mpr (.inr (mem_namesIn.mpr ⟨i, inside, named⟩))

theorem map_key_entries (t : Hashtable P κ) : t.entries.map Entry.key = t.names.map t.pool.key := by
  unfold entries names
  rw [Multiset.map_filterMap, Multiset.map_filterMap]
  congr 1
  funext item
  unfold Item.entry
  cases item.name <;> rfl

theorem card_entries (t : Hashtable P κ) : t.entries.card = t.live.card := by
  unfold entries live
  rw [Multiset.filterMap_add, Multiset.card_add, Multiset.card_add]
  have count : ∀ (bound : Nat) (items : Nat → Item P κ),
      ((liveIn bound items).filterMap (Item.entry t.pool)).card = (liveIn bound items).card := by
    intro bound items
    rw [filterMap_liveIn fun _ => Item.entry_of_free, card_liveIn]
    apply Slots.card_total
    intro i _
    cases named : (items i).name with
    | none => simp [Item.entry_of_free named]
    | some name => simp [Item.entry_of_named named]
  rw [count, count]

/-- The live names account for the bytes of the entries. -/
theorem footprint_names (t : Hashtable P κ) :
    t.pool.footprint t.names = (t.entries.map fun entry => entry.key.footprint).sum := by
  have keys := congrArg (Multiset.map Key.footprint) t.map_key_entries
  rw [Multiset.map_map, Multiset.map_map] at keys
  exact (congrArg Multiset.sum keys).symm

end Hashtable

/-- Two items are both free, or both live with the same hashes. -/
def Item.Alike (item item' : Item P κ) : Prop :=
  (item'.name = none ↔ item.name = none) ∧ (item.name ≠ none → item'.hashes = item.hashes)

/-- Two tables have items with the same hashes in the same places. -/
structure Alike (t t' : Hashtable P κ) : Prop where
  lgSize_eq : t'.lgSize = t.lgSize
  size_eq : t'.stash.size = t.stash.size
  extent_eq : t'.stash.extent = t.stash.extent
  table : ∀ i < 2 ^ t.lgSize, (t.items i).Alike (t'.items i)
  stash : ∀ i, (t.stash.items i).Alike (t'.stash.items i)

namespace Alike

variable {t t' : Hashtable P κ}

/-- Each array has the same number of live items. -/
theorem card_liveIn_eq {count : Nat} {items items' : Nat → Item P κ}
    (alike : ∀ i < count, (items i).Alike (items' i)) :
    (liveIn count items').card = (liveIn count items).card := by
  rw [card_liveIn, card_liveIn]
  congr 1
  apply Finset.filter_congr
  intro i member
  exact not_congr (alike i (Finset.mem_range.mp member)).1

theorem card_live_eq (alike : Alike t t') : t'.live.card = t.live.card := by
  unfold Hashtable.live
  rw [Multiset.card_add, Multiset.card_add, alike.lgSize_eq, card_liveIn_eq alike.table,
    card_liveIn_eq fun i _ => alike.stash i]

/-- The placement looks at the hashes only. -/
theorem placed (alike : Alike t t') (placed : Placed t.lgSize t.items) :
    Placed t'.lgSize t'.items := by
  rw [alike.lgSize_eq]
  intro i inside named
  obtain ⟨free, hashes⟩ := alike.table i inside
  have before := (not_congr free).mp named
  rw [hashes before]
  exact placed i inside before

theorem bounded (alike : Alike t t') (bounded : t.stash.Bounded) : t'.stash.Bounded := by
  refine ⟨alike.extent_eq ▸ bounded.extent_le, fun i above => ?_⟩
  exact (alike.stash i).1.mpr (bounded.above i (alike.extent_eq ▸ above))

theorem stashOk (alike : Alike t t') (ok : t.stash.Ok) : t'.stash.Ok := by
  refine ⟨alike.bounded ok.toBounded, ?_, ?_⟩
  · rw [alike.size_eq, ok.size_eq]
    exact (card_liveIn_eq fun i _ => alike.stash i).symm
  · rw [alike.extent_eq]
    exact ok.top.imp_right (not_congr (alike.stash _).1).mpr

end Alike

/-- A change of the pool renames the items and keeps their entries in their places. -/
structure Repooled (t t' : Hashtable P κ) : Prop where
  frame : t' = { t with
    items := t'.items
    stash := { t.stash with items := t'.stash.items }
    pool := t'.pool
    calls := t'.calls
    allocs := t'.allocs }
  table : ∀ i < 2 ^ t.lgSize, (t'.items i).entry t'.pool = (t.items i).entry t.pool
  stash : ∀ i, (t'.stash.items i).entry t'.pool = (t.stash.items i).entry t.pool

namespace Repooled

variable {t t' t'' : Hashtable P κ}

theorem refl (t : Hashtable P κ) : Repooled t t := ⟨rfl, fun _ _ => rfl, fun _ => rfl⟩

/-- A pool that keeps the keys of the live names changes no entry. -/
theorem of_keys (bounded : t.stash.Bounded) {pool : Pool}
    (same : ∀ name ∈ t.names, pool.key name = t.pool.key name) : Repooled t { t with pool } where
  frame := rfl
  table _ inside := Item.entry_keep fun name named => same name (Hashtable.mem_names_table inside named)
  stash _ := Item.entry_keep fun name named => same name (Hashtable.mem_names_stash bounded named)

theorem lgSize_eq (repooled : Repooled t t') : t'.lgSize = t.lgSize := by
  rw [repooled.frame]

theorem used_eq (repooled : Repooled t t') : t'.used = t.used := by
  rw [repooled.frame]

theorem size_eq (repooled : Repooled t t') : t'.stash.size = t.stash.size := by
  rw [repooled.frame]

theorem extent_eq (repooled : Repooled t t') : t'.stash.extent = t.stash.extent := by
  rw [repooled.frame]

theorem trans (first : Repooled t t') (second : Repooled t' t'') : Repooled t t'' := by
  refine ⟨?_, ?_, fun i => (second.stash i).trans (first.stash i)⟩
  · conv_lhs => rw [second.frame, first.frame]
  · intro i inside
    exact (second.table i (first.lgSize_eq ▸ inside)).trans (first.table i inside)

theorem alike (repooled : Repooled t t') : Alike t t' where
  lgSize_eq := repooled.lgSize_eq
  size_eq := repooled.size_eq
  extent_eq := repooled.extent_eq
  table i inside := ⟨Item.named_iff (repooled.table i inside), Item.hashes_eq (repooled.table i inside)⟩
  stash i := ⟨Item.named_iff (repooled.stash i), Item.hashes_eq (repooled.stash i)⟩

theorem entries_eq (repooled : Repooled t t') : t'.entries = t.entries := by
  unfold Hashtable.entries Hashtable.live
  rw [Multiset.filterMap_add, Multiset.filterMap_add]
  simp only [filterMap_liveIn fun _ => Item.entry_of_free, repooled.lgSize_eq]
  congr 1
  · exact Slots.total_congr fun i inside => by rw [repooled.table i inside]
  · exact Slots.total_congr fun i _ => by rw [repooled.stash i]

end Repooled
end Coucal
