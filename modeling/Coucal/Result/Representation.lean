import Coucal.Proof.Calls

namespace Coucal

variable {P : Platform} {κ : Type} {env : Env P κ}

/-- A duplicate has the hashes of its original. The pool copies the bytes of a key. -/
def Env.KeepsHashes (env : Env P κ) : Prop :=
  ∀ key copy, env.Copies key copy → env.hash copy = env.hash key

theorem Env.Lawful.keepsHashes (lawful : env.Lawful) : env.KeepsHashes :=
  fun _ _ copies => lawful.hash _ _ (copies.equals lawful)

theorem Env.keepsHashes_of_pool (pool : env.dup = none) : env.KeepsHashes := by
  intro key copy copies
  unfold Env.Copies at copies
  rw [pool] at copies
  rw [copies.1]

/-- The representation of the items by the table, the stash and their counters. The hashes of an item
are those of the key that was written, and its name is a duplicate of that key. -/
structure Representation (env : Env P κ) (t : Hashtable P κ) : Prop where
  position : ∀ pos < 2 ^ t.lgSize, (t.items pos).name ≠ none →
    pos = t.hashToPos (t.items pos).hashes.hash1 ∨ pos = t.hashToPos (t.items pos).hashes.hash2
  written : ∀ slot name, t.Within slot → (t.item slot).name = some name →
    ∃ key, env.Copies key (t.key name) ∧ (t.item slot).hashes = env.hash key
  hashes : env.KeepsHashes → ∀ slot name, t.Within slot → (t.item slot).name = some name →
    (t.item slot).hashes = t.calcHashes env name
  distinct : env.Lawful → ∀ slot other name name', t.Within slot → t.Within other →
    (t.item slot).name = some name → (t.item other).name = some name' →
    t.equals env name name' = true → slot = other
  size_eq : t.stash.size = ((Finset.range stashSize).filter fun i => (t.stash.items i).name ≠ none).card
  extent_le : t.stash.extent ≤ stashSize
  above : ∀ i, t.stash.extent ≤ i → (t.stash.items i).name = none
  top : t.stash.extent = 0 ∨ (t.stash.items (t.stash.extent - 1)).name ≠ none
  used_eq : t.used = ((Finset.range (2 ^ t.lgSize)).filter fun i => (t.items i).name ≠ none).card +
    ((Finset.range stashSize).filter fun i => (t.stash.items i).name ≠ none).card
  lgSize_ge : minLgSize ≤ t.lgSize
  half : t.used < 2 ^ (t.lgSize - 1)

/-- A live item is an entry of the table. -/
theorem Hashtable.entryAt_of_named {t : Hashtable P κ} {slot : Slot} {name : Name κ}
    (named : (t.item slot).name = some name) :
    t.entryAt slot = some ⟨t.key name, (t.item slot).value, (t.item slot).hashes⟩ :=
  Item.entry_of_named named

/-- Two slots with equal keys are one slot. -/
theorem Inv.slot_unique {t : Hashtable P κ} (inv : Inv env t) (lawful : env.Lawful) {slot other : Slot}
    {entry entry' : Entry P κ} (inside : t.Within slot) (inside' : t.Within other)
    (stored : t.entryAt slot = some entry) (stored' : t.entryAt other = some entry')
    (equal : env.equals entry.key entry'.key = true) : slot = other := by
  by_contra apart
  have keyed := inv.keyed
  rw [Hashtable.entries_eq_cons inside' stored'] at keyed
  refine keyed.apart lawful ?_ equal
  rw [Hashtable.mem_entries]
  exact ⟨slot, (Hashtable.within_setItem _).mpr inside,
    (Hashtable.entryAt_setItem_of_ne _ apart).trans stored⟩

theorem Inv.representation {t : Hashtable P κ} (inv : Inv env t) : Representation env t where
  position := inv.placed
  written slot name inside named :=
    inv.keyed.hashed _ (Hashtable.mem_entries.mpr ⟨slot, inside, Hashtable.entryAt_of_named named⟩)
  hashes kept slot name inside named := by
    obtain ⟨key, copies, hashes⟩ :=
      inv.keyed.hashed _ (Hashtable.mem_entries.mpr ⟨slot, inside, Hashtable.entryAt_of_named named⟩)
    exact hashes.trans (kept key _ copies).symm
  distinct lawful slot other name name' inside inside' named named' equal :=
    inv.slot_unique lawful inside inside' (Hashtable.entryAt_of_named named)
      (Hashtable.entryAt_of_named named') equal
  size_eq := inv.stash.size_eq.trans (card_liveIn _ _)
  extent_le := inv.stash.extent_le
  above := inv.stash.above
  top := inv.stash.top
  used_eq := by
    rw [inv.used_eq, Hashtable.live, Multiset.card_add, card_liveIn, card_liveIn]
  lgSize_ge := inv.lgSize_ge
  half := inv.half

/-- Each reachable table represents its items in this way. -/
theorem reachable_representation {t : Hashtable P κ} (returns : env.DupReturns)
    (reachable : Reachable env t) : Representation env t :=
  (reachable.inv returns).representation

/-- Three strings with the same two positions leave an entry in the stash. -/
theorem reachable_representation_lengths :
    ∃ t : Hashtable Platform.lp64 Empty, t.stash.size = 1 ∧ Representation Env.lengths t := by
  have answers : (Hashtable.session Env.lengths 0 [
      .writeValue (.string ⟨[97], by decide⟩) 1, .writeValue (.string ⟨[98], by decide⟩) 2,
      .writeValue (.string ⟨[99], by decide⟩) 3]).map (fun result => result.2.stash.size) = some 1 := by
    decide +kernel
  obtain ⟨⟨_, t⟩, completed, size⟩ := Option.map_eq_some_iff.mp answers
  obtain ⟨created, new, run⟩ := Hashtable.session_run completed
  exact ⟨t, size, reachable_representation (Env.strings_lawful _ _ _ : Env.lengths.Lawful).dupReturns
    ⟨0, created, _, new, run⟩⟩

end Coucal
