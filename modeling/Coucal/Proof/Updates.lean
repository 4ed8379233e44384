import Coucal.Proof.Invariant

namespace Coucal

open Outcome

variable {P : Platform} {κ : Type} {env : Env P κ}

/-- The handler calls that release a value, if any. -/
def Env.releases (env : Env P κ) (value : Value P) : List (Call P κ) :=
  if env.freeValue ∧ value ≠ 0 then [.freeValue value] else []

namespace Hashtable

variable {t : Hashtable P κ} {slot : Slot} {entry : Entry P κ}

/-- The table with another value at a slot. -/
def setValue (t : Hashtable P κ) (slot : Slot) (value : Value P) : Hashtable P κ :=
  t.setItem slot { t.item slot with value }

theorem delValue_eq (env : Env P κ) (t : Hashtable P κ) (slot : Slot) :
    t.delValue_ env slot =
      { t.setValue slot 0 with calls := env.releases (t.item slot).value ++ t.calls } := by
  unfold delValue_ setValue Env.releases
  dsimp only
  split
  next nonzero =>
    by_cases handler : env.freeValue = true
    · rw [if_pos handler, if_pos ⟨handler, nonzero⟩]
      cases slot <;> rfl
    · rw [if_neg handler, if_neg fun both => handler both.1]
      cases slot <;> rfl
  next zero =>
    have zero : (t.item slot).value = 0 := by simpa using zero
    have same : { t.item slot with value := 0 } = t.item slot := by
      rw [← zero]
    rw [if_neg fun both => both.2 zero, same, setItem_item]
    rfl

/-- The live item of an entry. -/
theorem item_of_entryAt (stored : t.entryAt slot = some entry) :
    ∃ name, (t.item slot).name = some name ∧ t.key name = entry.key ∧
      (t.item slot).value = entry.value ∧ (t.item slot).hashes = entry.hashes := by
  unfold entryAt Item.entry at stored
  obtain ⟨name, named, rfl⟩ := Option.map_eq_some_iff.mp stored
  exact ⟨name, named, rfl, rfl, rfl⟩

theorem entryAt_setValue (stored : t.entryAt slot = some entry) (value : Value P) :
    (t.setValue slot value).entryAt slot = some { entry with value } := by
  obtain ⟨name, named, key, -, hashes⟩ := item_of_entryAt stored
  rw [entryAt, setValue, item_setItem, setItem_pool, Item.entry_of_named (by exact named)]
  rw [← key, ← hashes]
  rfl

/-- A change of an item that keeps its hashes, or its absence, keeps the places. -/
theorem alike_setItem {item : Item P κ} (alike : (t.item slot).Alike item) : Alike t (t.setItem slot item) := by
  have each : ∀ other, (t.item other).Alike ((t.setItem slot item).item other) := by
    intro other
    by_cases same : other = slot
    · rw [same, item_setItem]
      exact alike
    · rw [item_setItem_of_ne t item same]
      exact ⟨Iff.rfl, fun _ => rfl⟩
  exact ⟨setItem_lgSize .., setItem_size .., setItem_extent .., fun i _ => each (.table i),
    fun i => each (.stash i)⟩

theorem alike_setValue (t : Hashtable P κ) (slot : Slot) (value : Value P) :
    Alike t (t.setValue slot value) := alike_setItem ⟨Iff.rfl, fun _ => rfl⟩

/-- A change of a value replaces one entry. -/
theorem entries_setValue (inside : t.Within slot) (stored : t.entryAt slot = some entry) (value : Value P) :
    (t.setValue slot value).entries =
      { entry with value } ::ₘ (t.setItem slot (Item.null P κ)).entries := by
  have split := entries_eq_cons ((within_setItem _).mpr inside) (entryAt_setValue stored value)
  rw [setItem_setItem] at split
  exact split

theorem names_setValue (inside : t.Within slot) (value : Value P) : (t.setValue slot value).names = t.names := by
  have before := names_setItem inside (t.item slot)
  rw [setItem_item] at before
  rw [setValue, names_setItem inside, before]

/-- A free item in place of another one keeps the bounds of the stash. -/
theorem bounded_clear {item : Item P κ} (bounded : t.stash.Bounded) (free : item.name = none) :
    (t.setItem slot item).stash.Bounded := by
  refine ⟨(setItem_extent t slot item).symm ▸ bounded.extent_le, fun i above => ?_⟩
  rw [setItem_extent] at above
  change ((t.setItem slot item).item (.stash i)).name = none
  by_cases same : Slot.stash i = slot
  · rw [same, item_setItem]
    exact free
  · rw [item_setItem_of_ne t item same]
    exact bounded.above i above

theorem placed_clear {item : Item P κ} (placed : Placed t.lgSize t.items) (free : item.name = none) :
    Placed (t.setItem slot item).lgSize (t.setItem slot item).items := by
  rw [setItem_lgSize]
  cases slot with
  | table pos => exact placed.update fun named => absurd free named
  | stash index => exact placed

/-- A free item in place of a live one removes its name. -/
theorem names_clear {item : Item P κ} {name : Name κ} (inside : t.Within slot)
    (named : (t.item slot).name = some name) (free : item.name = none) :
    t.names = name ::ₘ (t.setItem slot item).names := by
  have before := names_setItem inside (t.item slot)
  rw [setItem_item, named] at before
  rw [before, names_setItem inside item, free]
  exact (Multiset.singleton_add _ _).trans (congrArg _ (zero_add _).symm)

end Hashtable

/-- A change of a value keeps the invariant. -/
theorem Inv.setValue {t : Hashtable P κ} (inv : Inv env t) {slot : Slot} {entry : Entry P κ}
    (inside : t.Within slot) (stored : t.entryAt slot = some entry) (value : Value P)
    (calls : List (Call P κ)) : Inv env { t.setValue slot value with calls } := by
  have alike := t.alike_setValue slot value
  have lgSize : (t.setValue slot value).lgSize = t.lgSize := alike.lgSize_eq
  have used : (t.setValue slot value).used = t.used := Hashtable.setItem_used ..
  have pool : (t.setValue slot value).pool = t.pool := Hashtable.setItem_pool ..
  have keyed := inv.keyed
  rw [Hashtable.entries_eq_cons inside stored] at keyed
  refine ⟨lgSize ▸ inv.lgSize_ge, alike.placed inv.placed, alike.stashOk inv.stash, ?_, ?_, ?_, ?_⟩
  · exact used.trans (inv.used_eq.trans alike.card_live_eq.symm)
  · change (t.setValue slot value).used < 2 ^ ((t.setValue slot value).lgSize - 1)
    rw [used, lgSize]
    exact inv.half
  · change env.Managed (t.setValue slot value).pool (t.setValue slot value).names
    rw [pool, Hashtable.names_setValue inside]
    exact inv.managed
  · change env.Keyed (t.setValue slot value).entries
    rw [Hashtable.entries_setValue inside stored]
    exact keyed.setValue value

/-- The release of an entry clears its slot and keeps the other entries in their places. -/
structure Removed (env : Env P κ) (t : Hashtable P κ) (slot : Slot) (entry : Entry P κ)
    (t' : Hashtable P κ) : Prop where
  entries : t.entries = entry ::ₘ t'.entries
  lgSize_eq : t'.lgSize = t.lgSize
  used_eq : t'.used = t.used
  extent_le : t'.stash.extent ≤ t.stash.extent
  placed : Placed t'.lgSize t'.items
  stash : t'.stash.Ok
  managed : env.Managed t'.pool t'.names
  cleared : t'.entryAt slot = none
  others : ∀ other, other ≠ slot → t.Within other → t'.entryAt other = t.entryAt other
  calls : ∃ name, (t.item slot).name = some name ∧
    t'.calls = (if env.dup.isNone then [] else [.freeKey name]) ++ env.releases entry.value ++ t.calls
  capacity_le : t'.pool.capacity ≤ t.pool.capacity

/-- A deletion of an item clears its slot, and then releases its name. -/
theorem Hashtable.delItem_eq {t : Hashtable P κ} {slot : Slot} {name : Name κ}
    (named : (t.item slot).name = some name) : t.delItem env slot =
      ({ t.setItem slot (Item.null P κ) with
        calls := env.releases (t.item slot).value ++ t.calls } : Hashtable P κ).freeKey env name := by
  let calls := env.releases (t.item slot).value ++ t.calls
  unfold delItem delName
  rw [delValue_eq]
  have held : ({ t.setValue slot 0 with calls } : Hashtable P κ).item slot = { t.item slot with value := 0 } := by
    cases slot <;> exact Function.update_self ..
  have cleared : ({ t.setValue slot 0 with calls } : Hashtable P κ).setItem slot (Item.null P κ) =
      { t.setItem slot (Item.null P κ) with calls } := by
    cases slot <;> simp [setValue, setItem]
  rw [held]
  dsimp only
  rw [named]
  exact congrArg (freeKey env · name) cleared

theorem delItem_spec {t : Hashtable P κ} {slot : Slot} {name : Name κ} (inside : t.Within slot)
    (named : (t.item slot).name = some name) (bounded : t.stash.Bounded)
    (managed : env.Managed t.pool t.names) :
    Meets (t.delItem env slot)
      (Released env { t.setItem slot (Item.null P κ) with
        calls := env.releases (t.item slot).value ++ t.calls } name)
      (ReleaseError env t) := by
  rw [Hashtable.delItem_eq named]
  have managed' : env.Managed (t.setItem slot (Item.null P κ)).pool
      (name ::ₘ (t.setItem slot (Item.null P κ)).names) := by
    rw [Hashtable.setItem_pool, ← Hashtable.names_clear inside named Item.null_name]
    exact managed
  have freed := freeKey_spec (t := { t.setItem slot (Item.null P κ) with
    calls := env.releases (t.item slot).value ++ t.calls }) (Hashtable.bounded_clear bounded Item.null_name) managed'
  refine freed.mono (fun _ => id) fun error failed => ⟨failed.pool, failed.asserted, ?_⟩
  rw [← Hashtable.setItem_allocs t slot (Item.null P κ)]
  exact failed.null

/-- A change of the pool keeps each entry at its slot. -/
theorem Repooled.entryAt_eq {t t' : Hashtable P κ} (repooled : Repooled t t') {slot : Slot}
    (inside : t.Within slot) : t'.entryAt slot = t.entryAt slot := by
  cases slot with
  | table pos => exact repooled.table pos inside
  | stash index => exact repooled.stash index

/-- A released slot is a removal, whatever the counters of the stash. -/
theorem removed_of_released {t t' : Hashtable P κ} {slot : Slot} {entry : Entry P κ} {name : Name κ}
    {stash : Stash P κ} (inside : t.Within slot) (stored : t.entryAt slot = some entry)
    (named : (t.item slot).name = some name) (placed : Placed t.lgSize t.items)
    (released : Released env { t.setItem slot (Item.null P κ) with
      calls := env.releases (t.item slot).value ++ t.calls } name t')
    (items : stash.items = t'.stash.items) (extent_le : stash.extent ≤ t.stash.extent) (ok : stash.Ok) :
    Removed env t slot entry { t' with stash } := by
  let item := Item.null P κ
  have free : item.name = none := rfl
  let s : Hashtable P κ := { t.setItem slot item with calls := env.releases (t.item slot).value ++ t.calls }
  have alike := released.repooled.alike
  have live : ({ t' with stash } : Hashtable P κ).live = t'.live := by
    simp only [Hashtable.live, items]
  have within : ∀ other, s.Within other ↔ t.Within other := fun other => by
    cases other <;> exact Iff.of_eq (by simp [s, Hashtable.Within])
  have entryAt : ∀ other, t.Within other →
      ({ t' with stash } : Hashtable P κ).entryAt other = (t.setItem slot item).entryAt other := by
    intro other inside
    have kept := released.repooled.entryAt_eq ((within other).mpr inside)
    cases other with
    | table pos => exact kept
    | stash index =>
        change (stash.items index).entry t'.pool = _
        rw [items]
        exact kept
  refine ⟨?_, ?_, ?_, extent_le, ?_, ok, ?_, ?_, ?_, ?_, ?_⟩
  · have rest := released.repooled.entries_eq
    have cleared := Hashtable.entries_setItem inside item
    rw [Item.entry_of_free free] at cleared
    change _ = entry ::ₘ ({ t' with stash } : Hashtable P κ).live.filterMap (Item.entry t'.pool)
    rw [live, Hashtable.entries_eq_cons inside stored]
    exact congrArg _ ((zero_add _).symm.trans (cleared.symm.trans rest.symm))
  · exact alike.lgSize_eq.trans (Hashtable.setItem_lgSize ..)
  · exact released.repooled.used_eq.trans (Hashtable.setItem_used ..)
  · exact alike.placed (Hashtable.placed_clear placed free)
  · change env.Managed t'.pool (({ t' with stash } : Hashtable P κ).live.filterMap Item.name)
    rw [live]
    exact released.managed
  · rw [entryAt slot inside]
    unfold Hashtable.entryAt
    rw [Hashtable.item_setItem]
    exact Item.entry_of_free free
  · intro other apart inOther
    rw [entryAt other inOther, Hashtable.entryAt_setItem_of_ne item apart]
  · obtain ⟨-, -, -, value, -⟩ := Hashtable.item_of_entryAt stored
    refine ⟨name, named, released.calls_eq.trans ?_⟩
    rw [value]
    split
    next => rfl
    next => rfl
  · refine released.capacity_le.trans (Nat.le_of_eq ?_)
    change (t.setItem slot item).pool.capacity = _
    rw [Hashtable.setItem_pool]

/-- A removal clears the located slot, and trims the stash after a removal from it. -/
theorem removeLocated_spec {t : Hashtable P κ} {name : Name κ} {hashes : Hashkeys P} (inv : Inv env t) :
    Meets (t.remove_ env name hashes)
      (fun result => result = (false, t) ∧ t.locate env name hashes = none ∨
        result.1 = true ∧ ∃ slot entry, t.locate env name hashes = some slot ∧
          t.entryAt slot = some entry ∧ Removed env t slot entry result.2)
      (ReleaseError env t) := by
  unfold Hashtable.remove_
  cases found : t.locate env name hashes with
  | none => exact .inl ⟨rfl, rfl⟩
  | some slot =>
      obtain ⟨inside, entry, stored, -⟩ := Hashtable.locate_some inv.stash.toBounded found
      obtain ⟨stored', named, -⟩ := Hashtable.item_of_entryAt stored
      have deletion := delItem_spec inside named inv.stash.toBounded inv.managed
      cases slot with
      | table pos =>
          refine deletion.bind fun t' => ?_
          intro released
          have alike := released.repooled.alike
          exact .inr ⟨rfl, _, entry, rfl, stored, removed_of_released inside stored named inv.placed
            released rfl (Nat.le_of_eq alike.extent_eq) (alike.stashOk inv.stash)⟩
      | stash index =>
          refine deletion.bind fun t' => ?_
          intro released
          have alike := released.repooled.alike
          have bounded := alike.bounded (Hashtable.bounded_clear inv.stash.toBounded Item.null_name)
          refine .inr ⟨rfl, _, entry, rfl, stored, removed_of_released inside stored named inv.placed
            released rfl ?_ ?_⟩
          · exact (trimExtent_spec _ _).1.trans (Nat.le_of_eq alike.extent_eq)
          · refine Stash.Bounded.trim ⟨bounded.extent_le, bounded.above⟩ ?_
            have size : t'.stash.size = t.stash.size := alike.size_eq
            have count : (liveIn stashSize t'.stash.items).card =
                (liveIn stashSize (Function.update t.stash.items index (Item.null P κ))).card :=
              Alike.card_liveIn_eq fun i _ => alike.stash i
            have occupied : (t.stash.items index).name ≠ none := by
              rw [show (t.stash.items index).name = some stored' from named]
              exact Option.some_ne_none stored'
            have cleared := congrArg Multiset.card (liveIn_clear inside occupied Item.null_name)
            rw [Multiset.card_cons, ← inv.stash.size_eq] at cleared
            dsimp only
            omega

/-- A removal keeps the invariant and counts one entry less. -/
theorem Removed.inv {t t' : Hashtable P κ} {slot : Slot} {entry : Entry P κ} (inv : Inv env t)
    (removed : Removed env t slot entry t') : 0 < t.used ∧ Inv env { t' with used := t'.used - 1 } := by
  have count := congrArg Multiset.card removed.entries
  rw [Multiset.card_cons, t.card_entries, t'.card_entries, ← inv.used_eq] at count
  have half := inv.half
  have used := removed.used_eq
  refine ⟨by omega, ?_, removed.placed, removed.stash, ?_, ?_, removed.managed, ?_⟩
  · exact removed.lgSize_eq.symm ▸ inv.lgSize_ge
  · change t'.used - 1 = t'.live.card
    omega
  · change t'.used - 1 < 2 ^ (t'.lgSize - 1)
    rw [removed.lgSize_eq]
    omega
  · have keyed := inv.keyed
    rw [removed.entries] at keyed
    exact keyed.of_cons

/-- The two outcomes of a removal: no entry matches, or the located one is gone. -/
inductive RemoveOutcome (env : Env P κ) (t : Hashtable P κ) (name : Name κ) :
    Bool → Hashtable P κ → Prop where
  | absent (missing : t.locate env name (t.calcHashes env name) = none) : RemoveOutcome env t name false t
  | removed {slot : Slot} {entry : Entry P κ} {t' : Hashtable P κ}
      (found : t.locate env name (t.calcHashes env name) = some slot)
      (stored : t.entryAt slot = some entry) (effect : Removed env t slot entry t') :
      RemoveOutcome env t name true { t' with used := t'.used - 1 }

theorem remove_spec {t : Hashtable P κ} {name : Name κ} (inv : Inv env t) :
    Meets (t.remove env name) (fun result => RemoveOutcome env t name result.1 result.2) (ReleaseError env t) := by
  unfold Hashtable.remove
  refine (removeLocated_spec inv).bind ?_
  rintro ⟨removed, t'⟩ (⟨same, missing⟩ | ⟨flag, slot, entry, found, stored, effect⟩)
  · cases same
    exact .absent missing
  · cases flag
    have positive := (effect.inv inv).1
    rw [← effect.used_eq] at positive
    refine Meets.guard (fun fails => absurd (Nat.ne_of_gt positive) fails) fun _ => ?_
    exact .removed found stored effect

end Coucal
