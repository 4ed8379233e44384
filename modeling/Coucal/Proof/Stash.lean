import Coucal.Proof.Live

namespace Coucal

variable {P : Platform} {κ : Type}

/-- The live entries of the stash lie below the extent. -/
structure Stash.Bounded (stash : Stash P κ) : Prop where
  extent_le : stash.extent ≤ stashSize
  above : ∀ i, stash.extent ≤ i → (stash.items i).name = none

/-- The stash counts its live entries, and the last entry below the extent is live. -/
structure Stash.Ok (stash : Stash P κ) : Prop extends stash.Bounded where
  size_eq : stash.size = (liveIn stashSize stash.items).card
  top : stash.extent = 0 ∨ (stash.items (stash.extent - 1)).name ≠ none

theorem Stash.ok_empty :
    Stash.Ok { items := fun _ => Item.null P κ, size := 0, extent := 0 } where
  extent_le := Nat.zero_le _
  above _ _ := rfl
  size_eq := by rw [liveIn_eq_zero fun _ _ => rfl]; rfl
  top := .inl rfl

/-- The entries beyond the extent hold nothing. -/
theorem Stash.Bounded.liveIn_extent {stash : Stash P κ} (bounded : stash.Bounded) :
    liveIn stashSize stash.items = liveIn stash.extent stash.items :=
  liveIn_extend bounded.extent_le fun i outside _ => bounded.above i outside

/-- A live entry lies in the stash. -/
theorem Stash.Bounded.lt_of_named {stash : Stash P κ} (bounded : stash.Bounded) {i : Nat}
    (named : (stash.items i).name ≠ none) : i < stashSize := by
  by_contra outside
  exact named (bounded.above i (bounded.extent_le.trans (Nat.le_of_not_lt outside)))

/-- An empty stash has no live entry. -/
theorem Stash.Ok.free_of_size {stash : Stash P κ} (ok : stash.Ok) (empty : stash.size = 0) (i : Nat) :
    (stash.items i).name = none := by
  by_contra named
  have inside := ok.lt_of_named named
  have member : stash.items i ∈ liveIn stashSize stash.items := mem_liveIn.mpr ⟨i, inside, rfl, named⟩
  have none : (liveIn stashSize stash.items).card = 0 := by rw [← ok.size_eq, empty]
  rw [Multiset.card_eq_zero.mp none] at member
  exact Multiset.notMem_zero _ member

/-- The search stops at the first hole, or at the extent when there is none. -/
theorem Stash.firstHole_cases (stash : Stash P κ) :
    stash.firstHole < stash.extent ∧ (stash.items stash.firstHole).name = none ∨
      stash.firstHole = stash.extent ∧ ∀ i < stash.extent, (stash.items i).name ≠ none := by
  unfold firstHole
  cases search : (List.range stash.extent).find? fun i => (stash.items i).name.isNone with
  | none =>
      right
      refine ⟨rfl, ?_⟩
      intro i inside
      have occupied := List.find?_eq_none.mp search i (List.mem_range.mpr inside)
      simpa using occupied
  | some hole =>
      left
      have free := List.find?_some search
      exact ⟨List.mem_range.mp (List.mem_of_find?_eq_some search), by simpa using free⟩

/-- The size counts the live entries below the extent. -/
structure Stash.Counted (stash : Stash P κ) : Prop where
  extent_le : stash.extent ≤ stashSize
  size_eq : stash.size = (liveIn stash.extent stash.items).card

theorem Stash.Ok.counted {stash : Stash P κ} (ok : stash.Ok) : stash.Counted :=
  ⟨ok.extent_le, by rw [ok.size_eq, ok.liveIn_extent]⟩

/-- The size bounds the number of live entries, which lie below the extent. -/
structure Stash.Roomy (stash : Stash P κ) : Prop extends stash.Bounded where
  live_le : (liveIn stash.extent stash.items).card ≤ stash.size

theorem Stash.Ok.roomy {stash : Stash P κ} (ok : stash.Ok) : stash.Roomy :=
  ⟨ok.toBounded, Nat.le_of_eq ok.counted.size_eq.symm⟩

/-- A stash with room has its first hole inside its bounds. -/
theorem Stash.firstHole_lt {stash : Stash P κ} (extent_le : stash.extent ≤ stashSize)
    (live_le : (liveIn stash.extent stash.items).card ≤ stash.size) (room : stash.size < stashSize) :
    stash.firstHole < stashSize := by
  rcases stash.firstHole_cases with ⟨below, -⟩ | ⟨atExtent, full⟩
  · exact Nat.lt_of_lt_of_le below extent_le
  · -- without a hole each entry below the extent is live
    have every : (liveIn stash.extent stash.items).card = stash.extent := by
      rw [card_liveIn, Finset.filter_true_of_mem fun i member => full i (Finset.mem_range.mp member),
        Finset.card_range]
    rw [atExtent, ← every]
    exact Nat.lt_of_le_of_lt live_le room

/-- An insertion extends the stash inside its bounds. -/
theorem Stash.extent_insert {stash : Stash P κ} (extent_le : stash.extent ≤ stashSize)
    (live_le : (liveIn stash.extent stash.items).card ≤ stash.size) (room : stash.size < stashSize)
    (item : Item P κ) : (stash.insert item).extent ≤ stashSize := by
  have inside := firstHole_lt extent_le live_le room
  simp only [Stash.insert]
  split <;> omega

/-- The entries beyond the new extent are free. -/
theorem Stash.Bounded.above_insert {stash : Stash P κ} (bounded : stash.Bounded) (item : Item P κ) {i : Nat}
    (above : (stash.insert item).extent ≤ i) : ((stash.insert item).items i).name = none := by
  simp only [Stash.insert] at above ⊢
  rcases stash.firstHole_cases with ⟨below, -⟩ | ⟨atExtent, -⟩
  · rw [if_neg (Nat.ne_of_lt below)] at above
    rw [Function.update_of_ne (by omega)]
    exact bounded.above i above
  · rw [if_pos atExtent] at above
    rw [Function.update_of_ne (by omega)]
    exact bounded.above i (by omega)

/-- An insertion adds its item to the live entries below the extent. -/
theorem Stash.liveIn_insert (stash : Stash P κ) {item : Item P κ} (named : item.name ≠ none) :
    liveIn (stash.insert item).extent (stash.insert item).items =
      item ::ₘ liveIn stash.extent stash.items := by
  rcases stash.firstHole_cases with ⟨below, free⟩ | ⟨atExtent, -⟩
  · simp only [Stash.insert, if_neg (Nat.ne_of_lt below)]
    exact liveIn_fill below free named
  · simp only [Stash.insert, atExtent, if_pos]
    rw [liveIn_succ, Function.update_self, Item.live_of_named named, Multiset.singleton_add]
    congr 1
    exact Slots.total_congr fun i below => by rw [Function.update_of_ne (Nat.ne_of_lt below)]

/-- An insertion of an item without a name adds nothing to them. -/
theorem Stash.liveIn_insert_free (stash : Stash P κ) {item : Item P κ} (free : item.name = none) :
    liveIn (stash.insert item).extent (stash.insert item).items = liveIn stash.extent stash.items := by
  rcases stash.firstHole_cases with ⟨below, hole⟩ | ⟨atExtent, -⟩
  · simp only [Stash.insert, if_neg (Nat.ne_of_lt below)]
    unfold liveIn
    rw [Slots.total_update_empty below _ _ _ (Item.live_of_free hole), Item.live_of_free free, zero_add]
  · simp only [Stash.insert, atExtent, if_pos]
    rw [liveIn_succ, Function.update_self, Item.live_of_free free, zero_add]
    exact Slots.total_congr fun i below => by rw [Function.update_of_ne (Nat.ne_of_lt below)]

theorem Stash.Roomy.insert {stash : Stash P κ} (roomy : stash.Roomy) (room : stash.size < stashSize)
    (item : Item P κ) : (stash.insert item).Roomy := by
  refine ⟨⟨Stash.extent_insert roomy.extent_le roomy.live_le room item,
    fun i => roomy.above_insert item⟩, ?_⟩
  have bound := roomy.live_le
  change _ ≤ stash.size + 1
  by_cases free : item.name = none
  · rw [stash.liveIn_insert_free free]
    exact Nat.le_succ_of_le bound
  · rw [stash.liveIn_insert free, Multiset.card_cons]
    exact Nat.succ_le_succ bound

/-- A live entry leaves a hole, and the size counts one entry less. -/
theorem Stash.Roomy.clear {stash : Stash P κ} (roomy : stash.Roomy) {index : Nat} {item : Item P κ}
    (below : index < stash.extent) (named : (stash.items index).name ≠ none) (free : item.name = none) :
    Stash.Roomy { stash with items := Function.update stash.items index item, size := stash.size - 1 } := by
  refine ⟨⟨roomy.extent_le, fun i above => ?_⟩, ?_⟩
  · dsimp only at above ⊢
    rw [Function.update_of_ne (by omega)]
    exact roomy.above i above
  have count := congrArg Multiset.card (liveIn_clear below named free)
  rw [Multiset.card_cons] at count
  have bound := roomy.live_le
  dsimp only
  omega

theorem Stash.Counted.insert {stash : Stash P κ} (counted : stash.Counted) (room : stash.size < stashSize)
    {item : Item P κ} (named : item.name ≠ none) : (stash.insert item).Counted := by
  refine ⟨Stash.extent_insert counted.extent_le counted.size_eq.ge room item, ?_⟩
  rw [stash.liveIn_insert named, Multiset.card_cons, ← counted.size_eq]
  rfl

/-- An insertion leaves each live entry below the extent at its place. -/
theorem Stash.insert_of_named (stash : Stash P κ) (item : Item P κ) {i : Nat} (below : i < stash.extent)
    (named : (stash.items i).name ≠ none) : (stash.insert item).items i = stash.items i := by
  refine Function.update_of_ne ?_ _ _
  rintro rfl
  rcases stash.firstHole_cases with ⟨-, free⟩ | ⟨atExtent, -⟩
  · exact named free
  · exact absurd atExtent (Nat.ne_of_lt below)

/-- A stash with room takes an entry at a free place and disturbs no other entry. -/
theorem Stash.Ok.firstHole_free {stash : Stash P κ} (ok : stash.Ok) (room : stash.size < stashSize) :
    stash.firstHole < stashSize ∧ (stash.items stash.firstHole).name = none := by
  refine ⟨Stash.firstHole_lt ok.extent_le ok.counted.size_eq.ge room, ?_⟩
  rcases stash.firstHole_cases with ⟨-, free⟩ | ⟨atExtent, -⟩
  · exact free
  · exact ok.above _ (Nat.le_of_eq atExtent.symm)

theorem Stash.Ok.live_insert {stash : Stash P κ} (ok : stash.Ok) (room : stash.size < stashSize)
    {item : Item P κ} (named : item.name ≠ none) :
    liveIn stashSize (stash.insert item).items = item ::ₘ liveIn stashSize stash.items :=
  liveIn_fill (ok.firstHole_free room).1 (ok.firstHole_free room).2 named

theorem Stash.Ok.insert {stash : Stash P κ} (ok : stash.Ok) (room : stash.size < stashSize)
    {item : Item P κ} (named : item.name ≠ none) : (stash.insert item).Ok := by
  have bound : stash.firstHole ≤ stash.extent := by
    rcases stash.firstHole_cases with ⟨below, -⟩ | ⟨atExtent, -⟩ <;> omega
  refine ⟨(ok.roomy.insert room item).toBounded, ?_, ?_⟩
  · rw [ok.live_insert room named, Multiset.card_cons, ← ok.size_eq]
    rfl
  · right
    simp only [Stash.insert]
    by_cases grows : stash.firstHole = stash.extent
    · rw [if_pos grows, Nat.add_sub_cancel, ← grows, Function.update_self]
      exact named
    · rw [if_neg grows]
      by_cases same : stash.extent - 1 = stash.firstHole
      · rw [same, Function.update_self]
        exact named
      · rw [Function.update_of_ne same]
        exact ok.top.resolve_left (by omega)

/-- The lowered extent drops free entries only and stops at a live entry. -/
theorem trimExtent_spec (items : Nat → Item P κ) (extent : Nat) :
    trimExtent items extent ≤ extent ∧
      (∀ i, trimExtent items extent ≤ i → i < extent → (items i).name = none) ∧
      (trimExtent items extent = 0 ∨ (items (trimExtent items extent - 1)).name ≠ none) := by
  induction extent with
  | zero => exact ⟨Nat.le_refl _, fun i _ below => absurd below (Nat.not_lt_zero i), .inl rfl⟩
  | succ extent ih =>
      unfold trimExtent
      split
      next free =>
        refine ⟨Nat.le_succ_of_le ih.1, ?_, ih.2.2⟩
        intro i above below
        by_cases last : i = extent
        · subst last
          simpa using free
        · exact ih.2.1 i above (by omega)
      next named =>
        refine ⟨Nat.le_refl _, fun i above below => by omega, .inr ?_⟩
        simpa using named

theorem Stash.Roomy.trim {stash : Stash P κ} (roomy : stash.Roomy) : stash.trim.Roomy := by
  obtain ⟨lower, free, -⟩ := trimExtent_spec stash.items stash.extent
  refine ⟨⟨lower.trans roomy.extent_le, fun i outside => ?_⟩,
    (Multiset.card_le_card (liveIn_mono lower stash.items)).trans roomy.live_le⟩
  rcases Nat.lt_or_ge i stash.extent with below | above
  · exact free i outside below
  · exact roomy.above i above

/-- Trimming restores the stash after entries became free. -/
theorem Stash.Bounded.trim {stash : Stash P κ} (bounded : stash.Bounded)
    (size_eq : stash.size = (liveIn stashSize stash.items).card) : stash.trim.Ok := by
  obtain ⟨lower, free, top⟩ := trimExtent_spec stash.items stash.extent
  refine ⟨⟨Nat.le_trans lower bounded.extent_le, ?_⟩, size_eq, top⟩
  intro i outside
  by_cases below : i < stash.extent
  · exact free i outside below
  · exact bounded.above i (Nat.le_of_not_lt below)

end Coucal
