import Coucal.Proof.Insertion

namespace Coucal

open Outcome

variable {P : Platform} {κ : Type}

/-- Each item of the stash and of a table with two slots or more has a property. -/
structure Hashtable.Each (t : Hashtable P κ) (property : Item P κ → Prop) : Prop where
  sized : 1 ≤ t.lgSize
  table : ∀ pos < 2 ^ t.lgSize, property (t.items pos)
  stash : ∀ index, property (t.stash.items index)

/-- A rearrangement moves items and takes at most one from outside, whatever the table holds. It keeps the
stash inside its bounds. -/
structure Rearranged (t : Hashtable P κ) (item : Item P κ) (t' : Hashtable P κ) : Prop where
  used_eq : t'.used = t.used
  pool_eq : t'.pool = t.pool
  calls_eq : t'.calls = t.calls
  each : ∀ property, property (Item.null P κ) → property item → t.Each property → t'.Each property
  roomy : t.stash.Roomy → t'.stash.Roomy

namespace Rearranged

variable {t s t' : Hashtable P κ} {item : Item P κ}

theorem refl (t : Hashtable P κ) (item : Item P κ) : Rearranged t item t :=
  ⟨rfl, rfl, rfl, fun _ _ _ each => each, id⟩

/-- A second rearrangement takes no item from outside. -/
theorem trans (first : Rearranged t item s) (second : Rearranged s (Item.null P κ) t') :
    Rearranged t item t' :=
  ⟨second.used_eq.trans first.used_eq, second.pool_eq.trans first.pool_eq,
    second.calls_eq.trans first.calls_eq,
    fun property null new each => second.each property null null (first.each property null new each),
    fun roomy => second.roomy (first.roomy roomy)⟩

end Rearranged

theorem property_update {property : Item P κ → Prop} {items : Nat → Item P κ} {item : Item P κ} {i : Nat}
    (old : property (items i)) (new : property item) (pos : Nat) :
    property (Function.update items pos item i) := by
  by_cases same : i = pos
  · rw [same, Function.update_self]
    exact new
  · rw [Function.update_of_ne same]
    exact old

/-- The eviction loop invents no item. -/
theorem evict_each {lgSize : Nat} {initial hash : Hashkey P} {property : Item P κ → Prop} (loops : Nat)
    {items items' : Nat → Item P κ} {item : Item P κ} {left : Option (Item P κ)}
    (each : ∀ pos < 2 ^ lgSize, property (items pos)) (new : property item)
    (run : evict lgSize initial loops items item hash = .ok (items', left)) :
    (∀ pos < 2 ^ lgSize, property (items' pos)) ∧ ∀ last, left = some last → property last := by
  induction loops generalizing items item hash with
  | zero =>
      cases run
      exact ⟨each, fun _ same => Option.some_inj.mp same ▸ new⟩
  | succ loops ih =>
      have each' : ∀ pos < 2 ^ lgSize, property (Function.update items (hashToPos_ lgSize hash) item pos) :=
        fun pos inside => property_update (each pos inside) new _
      have kicked := each _ (hashToPos_lt lgSize hash)
      by_cases free : (items (hashToPos_ lgSize hash)).name = none
      · rw [evict_free free] at run
        cases run
        exact ⟨each', fun _ same => by cases same⟩
      · rw [evict_kicks free] at run
        dsimp only at run
        split at run
        next =>
          split at run
          next =>
            cases run
            exact ⟨each', fun _ same => Option.some_inj.mp same ▸ kicked⟩
          next => exact ih each' kicked run
        next => cases run

theorem addItem_rearranged {t t' : Hashtable P κ} {item : Item P κ} {added : Bool}
    (returned : t.addItem_ item = .ok (added, t')) : added = true ∧ Rearranged t item t' := by
  have fill (pos : Nat) : Rearranged t item { t with items := Function.update t.items pos item } :=
    ⟨rfl, rfl, rfl, fun _ _ new each =>
      ⟨each.sized, fun i inside => property_update (each.table i inside) new pos, each.stash⟩, id⟩
  unfold Hashtable.addItem_ at returned
  dsimp only at returned
  split at returned
  next =>
    cases returned
    exact ⟨rfl, fill _⟩
  next =>
    split at returned
    next =>
      cases returned
      exact ⟨rfl, fill _⟩
    next =>
      obtain ⟨⟨items, left⟩, run, returned⟩ := bind_eq_ok.mp returned
      have each {property : Item P κ → Prop} (new : property item) (before : t.Each property) :=
        evict_each _ before.table new run
      cases left with
      | none =>
          cases returned
          exact ⟨rfl, rfl, rfl, rfl, fun _ _ new before =>
            ⟨before.sized, (each new before).1, before.stash⟩, id⟩
      | some left =>
          obtain ⟨_, room, returned⟩ := bind_eq_ok.mp returned
          cases returned
          refine ⟨rfl, rfl, rfl, rfl, fun _ _ new before =>
            ⟨before.sized, (each new before).1, fun index => ?_⟩, fun roomy =>
            roomy.insert (guard_eq_ok.mp room) left⟩
          exact property_update (before.stash index) ((each new before).2 left rfl) _

/-- A drain of the entries below an index keeps the extent. -/
theorem drainEntries_rearranged (t : Hashtable P κ) (index : Nat) (inside : index ≤ t.stash.extent) :
    Rearranged t (Item.null P κ) (t.drainEntries index) ∧
      (t.drainEntries index).stash.extent = t.stash.extent := by
  induction index with
  | zero => exact ⟨.refl t _, rfl⟩
  | succ index ih =>
      obtain ⟨before, extent⟩ := ih (Nat.le_of_succ_le inside)
      have below : index < (t.drainEntries index).stash.extent := extent.symm ▸ inside
      unfold Hashtable.drainEntries
      generalize t.drainEntries index = s at before extent below
      unfold Hashtable.drainEntry
      dsimp only
      split
      next => exact ⟨before, extent⟩
      next named =>
        have move (pos : Nat) : Rearranged t (Item.null P κ) (s.unstash index pos) ∧
            (s.unstash index pos).stash.extent = t.stash.extent := by
          refine ⟨before.trans ⟨rfl, rfl, rfl, fun _ null _ each =>
            ⟨each.sized, fun i inside => ?_, fun i => ?_⟩, fun roomy => ?_⟩, extent⟩
          · exact property_update (each.table i inside) (each.stash index) pos
          · exact property_update (each.stash i) null index
          · exact roomy.clear below (by simpa using named) Item.null_name
        split
        next => exact move _
        next =>
          split
          next => exact move _
          next => exact ⟨before, extent⟩

theorem drainStash_rearranged (t : Hashtable P κ) : Rearranged t (Item.null P κ) t.drainStash := by
  obtain ⟨drained, -⟩ := drainEntries_rearranged t t.stash.extent (Nat.le_refl _)
  exact drained.trans ⟨rfl, rfl, rfl, fun _ _ _ each => ⟨each.sized, each.table, each.stash⟩, Stash.Roomy.trim⟩

/-- A pass of the relocation loop moves one item. -/
theorem splitSlot_rearranged {t t' : Hashtable P κ} {prevPower prevSize index : Nat}
    (inside : index < 2 ^ t.lgSize)
    (passed : Hashtable.splitSlot prevPower prevSize index t = .ok t') :
    Rearranged t (Item.null P κ) t' ∧ t'.lgSize = t.lgSize := by
  have move {pos : Nat} (moved : Hashtable.moveSlot prevSize index pos t = .ok t') :
      Rearranged t (Item.null P κ) t' ∧ t'.lgSize = t.lgSize := by
    unfold Hashtable.moveSlot at moved
    split at moved
    next =>
      obtain ⟨_, -, same⟩ := bind_eq_ok.mp moved
      cases same
      refine ⟨⟨rfl, rfl, rfl, fun _ null _ each => ⟨each.sized, fun i below => ?_, each.stash⟩, id⟩, rfl⟩
      exact property_update (property_update (each.table i below) (each.table index inside) pos) null index
    next =>
      cases moved
      exact ⟨.refl t _, rfl⟩
  unfold Hashtable.splitSlot at passed
  dsimp only at passed
  split at passed
  next =>
    cases passed
    exact ⟨.refl t _, rfl⟩
  next =>
    split at passed
    next => exact move passed
    next =>
      split at passed
      next => exact move passed
      next => cases passed

theorem expand_rearranged {env : Env P κ} {t t' : Hashtable P κ} (returned : t.expand env = .ok t') :
    Rearranged t (Item.null P κ) t' := by
  refine (forUpTo_advances (fun _ s => Rearranged t (Item.null P κ) s ∧ s.lgSize = t.lgSize + 1)
    (expand_returned returned) ?_ fun index below s s' before passed => ?_).1
  · refine ⟨⟨rfl, rfl, rfl, fun property null _ each =>
      ⟨Nat.le_succ_of_le each.sized, fun pos inside => ?_, each.stash⟩, id⟩, rfl⟩
    dsimp only at inside ⊢
    split
    next => exact null
    next outside =>
      -- the slots of the upper half are empty
      have lower := doubled_half each.sized
      refine each.table pos ?_
      rw [Nat.pow_succ] at inside
      omega
  · obtain ⟨earlier, doubled⟩ := before
    obtain ⟨moved, same⟩ := splitSlot_rearranged (doubled ▸ below.trans_le (doubled_half_le _)) passed
    exact ⟨earlier.trans moved, same.trans doubled⟩

/-- The merge inserts the entries of the stash again. -/
theorem mergeStash_rearranged {t t' : Hashtable P κ} (returned : t.mergeStash = .ok t') :
    Rearranged t (Item.null P κ) t' := by
  unfold Hashtable.mergeStash at returned
  split at returned
  next =>
    obtain ⟨s, merged, returned⟩ := bind_eq_ok.mp returned
    obtain ⟨_, -, returned⟩ := bind_eq_ok.mp returned
    cases returned
    refine forUpTo_advances (fun _ => Rearranged t (Item.null P κ)) merged ?_
      fun index _ s s' before entered => ?_
    · refine ⟨rfl, rfl, rfl, fun property null _ each => ⟨each.sized, each.table, fun _ => null⟩, fun _ =>
        ⟨⟨Nat.zero_le _, fun _ _ => rfl⟩, Nat.zero_le _⟩⟩
    · unfold Hashtable.mergeEntry at entered
      split at entered
      next =>
        cases entered
        exact before
      next =>
        obtain ⟨⟨added, u⟩, insertion, entered⟩ := bind_eq_ok.mp entered
        obtain ⟨_, -, entered⟩ := bind_eq_ok.mp entered
        cases entered
        obtain ⟨-, moved⟩ := addItem_rearranged insertion
        exact ⟨moved.used_eq.trans before.used_eq, moved.pool_eq.trans before.pool_eq,
          moved.calls_eq.trans before.calls_eq, fun property null new each =>
            moved.each property null (each.stash index) (before.each property null new each),
          fun roomy => moved.roomy (before.roomy roomy)⟩
  next =>
    cases returned
    exact .refl t _

end Coucal
