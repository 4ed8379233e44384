import Coucal.Construction.Table
import Coucal.Library.Slots

namespace Coucal

open Outcome

variable {P : Platform} {κ : Type}

/-- A position is the hash modulo the table size. -/
theorem hashToPos_eq_mod (lgSize : Nat) (hash : Hashkey P) :
    hashToPos_ lgSize hash = hash.toNat % 2 ^ lgSize := by
  unfold hashToPos_
  apply Nat.eq_of_testBit_eq
  intro i
  have high : P.hashSize ≤ i → hash.toNat.testBit i = false := fun above =>
    Nat.testBit_lt_two_pow (lt_of_lt_of_le hash.isLt (Nat.pow_le_pow_right (by decide) above))
  by_cases inside : i < P.hashSize
  · simp [Nat.testBit_mod_two_pow, inside, Bool.and_comm]
  · simp [Nat.testBit_mod_two_pow, high (Nat.le_of_not_lt inside)]

/-- A position lies inside the table. -/
theorem hashToPos_lt (lgSize : Nat) (hash : Hashkey P) : hashToPos_ lgSize hash < 2 ^ lgSize := by
  rw [hashToPos_eq_mod]
  exact Nat.mod_lt _ (Nat.two_pow_pos lgSize)

/-- A doubled table keeps a position or moves it by the old size. -/
theorem hashToPos_succ (lgSize : Nat) (hash : Hashkey P) :
    hashToPos_ (lgSize + 1) hash = hashToPos_ lgSize hash ∨
      hashToPos_ (lgSize + 1) hash = hashToPos_ lgSize hash + 2 ^ lgSize := by
  simp only [hashToPos_eq_mod, Nat.pow_succ, Nat.mod_mul]
  rcases Nat.mod_two_eq_zero_or_one (hash.toNat / 2 ^ lgSize) with even | odd
  · left
    rw [even]
    simp
  · right
    rw [odd]
    simp

/-- A position that changes in the doubled table is in the upper half. -/
theorem hashToPos_moves {lgSize index : Nat} {hash : Hashkey P} (placed : hashToPos_ lgSize hash = index)
    (moves : hashToPos_ (lgSize + 1) hash ≠ index) : hashToPos_ (lgSize + 1) hash = index + 2 ^ lgSize := by
  rcases hashToPos_succ lgSize hash with stays | goes
  · exact absurd (stays.trans placed) moves
  · rw [goes, placed]

/-- A valid assertion has no effect. -/
theorem coucalAssert_of {which : Assertion} {condition : Prop} [Decidable condition]
    (holds : condition) : coucalAssert which condition = .ok () := guard_eq_ok.mpr holds

/-- The assertions on the results of allocations. -/
def Failure.onMemory : Failure → Bool
  | .assertion .stagingMemory | .assertion .reallocMemory | .assertion .compactionMemory
  | .assertion .tableMemory => true
  | _ => false

/-- An allocation returns an address other than NULL. -/
theorem malloc_spec (env : Env P κ) (t : Hashtable P κ) (which : Assertion) :
    Meets (t.malloc env which)
      (fun result => result.1 ≠ 0 ∧ result.2 = { t with allocs := t.allocs + 1 })
      fun error => error = .assertion which ∧ env.alloc t.allocs = 0 := by
  unfold Hashtable.malloc
  apply Meets.guard
  · intro null
    exact ⟨rfl, by simpa using null⟩
  · intro nonzero
    exact ⟨nonzero, rfl⟩

/-- The slots of the table before a doubling are slots after it. -/
theorem doubled_half_le (lgSize : Nat) : 2 ^ (lgSize - 1) * 2 ≤ 2 ^ (lgSize + 1) := by
  rw [← Nat.pow_succ]
  exact Nat.pow_le_pow_right Nat.two_pos (by omega)

/-- The doubled half of a table with two slots or more is the table. -/
theorem doubled_half {lgSize : Nat} (sized : 1 ≤ lgSize) : 2 ^ (lgSize - 1) * 2 = 2 ^ lgSize := by
  rw [← Nat.pow_succ, Nat.succ_eq_add_one, Nat.sub_add_cancel sized]

/-- A doubling that returns has made its table by the relocation loop. -/
theorem expand_returned {env : Env P κ} {t t' : Hashtable P κ} (returned : t.expand env = .ok t') :
    let prevSize := 2 ^ (t.lgSize - 1) * 2
    forUpTo (Hashtable.splitSlot t.lgSize prevSize) prevSize
      { t with
        lgSize := t.lgSize + 1
        allocs := t.allocs + 1
        items := fun i => if prevSize ≤ i ∧ i < prevSize * 2 then Item.null P κ else t.items i } = .ok t' := by
  unfold Hashtable.expand at returned
  obtain ⟨_, -, returned⟩ := bind_eq_ok.mp returned
  obtain ⟨_, -, returned⟩ := bind_eq_ok.mp returned
  obtain ⟨⟨_, _⟩, allocated, returned⟩ := bind_eq_ok.mp returned
  obtain ⟨-, rfl⟩ := (malloc_spec env _ _).of_ok allocated
  exact returned

/-- A cell holds one item, or nothing when its name is NULL. -/
def Item.live (item : Item P κ) : Multiset (Item P κ) :=
  if item.name.isNone then 0 else {item}

@[simp] theorem Item.live_of_free {item : Item P κ} (free : item.name = none) : item.live = 0 := by
  simp [Item.live, free]

@[simp] theorem Item.live_of_named {item : Item P κ} (named : item.name ≠ none) :
    item.live = {item} := by
  simp [Item.live, named]

@[simp] theorem Item.null_name : (Item.null P κ).name = none := rfl

theorem Item.mem_live {item member : Item P κ} :
    member ∈ item.live ↔ member = item ∧ item.name ≠ none := by
  by_cases free : item.name = none <;> simp [free]

theorem Item.card_live (item : Item P κ) : item.live.card = if item.name ≠ none then 1 else 0 := by
  by_cases free : item.name = none <;> simp [free]

/-- The live items of an array below a bound. -/
def liveIn (count : Nat) (items : Nat → Item P κ) : Multiset (Item P κ) :=
  Slots.total count Item.live items

theorem mem_liveIn {count : Nat} {items : Nat → Item P κ} {item : Item P κ} :
    item ∈ liveIn count items ↔ ∃ i < count, items i = item ∧ item.name ≠ none := by
  unfold liveIn
  rw [Slots.mem_total]
  constructor
  · rintro ⟨i, inside, member⟩
    obtain ⟨rfl, named⟩ := Item.mem_live.mp member
    exact ⟨i, inside, rfl, named⟩
  · rintro ⟨i, inside, rfl, named⟩
    exact ⟨i, inside, Item.mem_live.mpr ⟨rfl, named⟩⟩

/-- A live item in a free cell joins the live items. -/
theorem liveIn_fill {count index : Nat} {items : Nat → Item P κ} {item : Item P κ}
    (inside : index < count) (free : (items index).name = none) (named : item.name ≠ none) :
    liveIn count (Function.update items index item) = item ::ₘ liveIn count items := by
  unfold liveIn
  rw [Slots.total_update_empty inside _ _ _ (Item.live_of_free free), Item.live_of_named named,
    Multiset.singleton_add]

/-- A live item takes the place of another one. -/
theorem liveIn_swap {count index : Nat} {items : Nat → Item P κ} {item : Item P κ}
    (inside : index < count) (occupied : (items index).name ≠ none) (named : item.name ≠ none) :
    items index ::ₘ liveIn count (Function.update items index item) =
      item ::ₘ liveIn count items := by
  have changed := Slots.total_update inside Item.live items item
  rw [Item.live_of_named occupied, Item.live_of_named named] at changed
  rw [← Multiset.singleton_add, ← Multiset.singleton_add, add_comm {items index},
    add_comm ({item} : Multiset (Item P κ))]
  exact changed

/-- A cleared cell loses its item. -/
theorem liveIn_clear {count index : Nat} {items : Nat → Item P κ} {item : Item P κ}
    (inside : index < count) (occupied : (items index).name ≠ none) (free : item.name = none) :
    liveIn count items = items index ::ₘ liveIn count (Function.update items index item) := by
  unfold liveIn
  rw [Slots.total_update_erase inside _ _ _ (Item.live_of_free free), Item.live_of_named occupied,
    Multiset.singleton_add]

section Move

variable {items : Nat → Item P κ} {source target : Nat}

/-- The cells after an item has moved and its old cell is cleared. -/
theorem move_source : Function.update (Function.update items target (items source)) source (Item.null P κ) source =
    Item.null P κ := Function.update_self ..

theorem move_target (apart : target ≠ source) :
    Function.update (Function.update items target (items source)) source (Item.null P κ) target = items source := by
  rw [Function.update_of_ne apart, Function.update_self]

theorem move_other {i : Nat} (apart : i ≠ source) (apart' : i ≠ target) :
    Function.update (Function.update items target (items source)) source (Item.null P κ) i = items i := by
  rw [Function.update_of_ne apart, Function.update_of_ne apart']

/-- A move to a free cell keeps the items. -/
theorem liveIn_move {count : Nat} (inside : source < count) (inside' : target < count) (apart : source ≠ target)
    (named : (items source).name ≠ none) (free : (items target).name = none) :
    liveIn count (Function.update (Function.update items target (items source)) source (Item.null P κ)) =
      liveIn count items := by
  have kept : Function.update items target (items source) source = items source := Function.update_of_ne apart _ _
  have grown : liveIn count (Function.update items target (items source)) = items source ::ₘ liveIn count items :=
    liveIn_fill inside' free named
  rw [liveIn_clear inside (kept.symm ▸ named) Item.null_name, kept] at grown
  exact (Multiset.cons_inj_right _).mp grown

end Move

/-- Cells without names hold nothing. -/
theorem liveIn_eq_zero {count : Nat} {items : Nat → Item P κ}
    (free : ∀ i < count, (items i).name = none) : liveIn count items = 0 := by
  unfold liveIn Slots.total
  exact Finset.sum_eq_zero fun i inside => Item.live_of_free (free i (Finset.mem_range.mp inside))

/-- The number of live items counts the occupied cells. -/
theorem card_liveIn (count : Nat) (items : Nat → Item P κ) :
    (liveIn count items).card = ((Finset.range count).filter fun i => (items i).name ≠ none).card :=
  Slots.card_total fun i _ => Item.card_live (items i)

@[simp] theorem liveIn_zero (items : Nat → Item P κ) : liveIn 0 items = 0 := rfl

theorem liveIn_succ (count : Nat) (items : Nat → Item P κ) :
    liveIn (count + 1) items = (items count).live + liveIn count items := by
  unfold liveIn Slots.total
  rw [Finset.sum_range_succ, add_comm]

theorem card_liveIn_le (count : Nat) (items : Nat → Item P κ) : (liveIn count items).card ≤ count := by
  rw [card_liveIn]
  exact (Finset.card_filter_le _ _).trans_eq (Finset.card_range count)

theorem liveIn_mono {count count' : Nat} (shorter : count ≤ count') (items : Nat → Item P κ) :
    liveIn count items ≤ liveIn count' items := by
  unfold liveIn Slots.total
  exact Finset.sum_le_sum_of_subset (Finset.range_subset_range.mpr shorter)

/-- Free cells beyond a bound hold nothing. -/
theorem liveIn_extend {count count' : Nat} (longer : count ≤ count') {items : Nat → Item P κ}
    (free : ∀ i, count ≤ i → i < count' → (items i).name = none) :
    liveIn count' items = liveIn count items :=
  Slots.total_extend longer fun i above below => Item.live_of_free (free i above below)

/-- The live items of the table and the stash. -/
def Hashtable.live (t : Hashtable P κ) : Multiset (Item P κ) :=
  liveIn (2 ^ t.lgSize) t.items + liveIn stashSize t.stash.items

/-- Each occupied cell is a candidate position of its item. -/
def Placed (lgSize : Nat) (items : Nat → Item P κ) : Prop :=
  ∀ i < 2 ^ lgSize, (items i).name ≠ none →
    i = hashToPos_ lgSize (items i).hashes.hash1 ∨ i = hashToPos_ lgSize (items i).hashes.hash2

/-- A candidate position of an item keeps the placement. -/
theorem Placed.update {lgSize pos : Nat} {items : Nat → Item P κ} {item : Item P κ}
    (placed : Placed lgSize items)
    (candidate : item.name ≠ none →
      pos = hashToPos_ lgSize item.hashes.hash1 ∨ pos = hashToPos_ lgSize item.hashes.hash2) :
    Placed lgSize (Function.update items pos item) := by
  intro i inside named
  by_cases same : i = pos
  · subst same
    rw [Function.update_self] at named ⊢
    exact candidate named
  · rw [Function.update_of_ne same] at named ⊢
    exact placed i inside named

/-- No occupied cell becomes free. -/
def Fills (items items' : Nat → Item P κ) : Prop :=
  ∀ i, (items i).name ≠ none → (items' i).name ≠ none

theorem Fills.refl (items : Nat → Item P κ) : Fills items items := fun _ named => named

theorem Fills.trans {items items' items'' : Nat → Item P κ} (first : Fills items items')
    (second : Fills items' items'') : Fills items items'' :=
  fun i named => second i (first i named)

theorem Fills.update (items : Nat → Item P κ) (pos : Nat) {item : Item P κ}
    (named : item.name ≠ none) : Fills items (Function.update items pos item) := by
  intro i occupied
  by_cases same : i = pos
  · subst same
    rwa [Function.update_self]
  · rwa [Function.update_of_ne same]

end Coucal
