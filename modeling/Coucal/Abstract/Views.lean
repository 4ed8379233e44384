import Coucal.Abstract.FiniteMap

namespace Coucal

open Outcome

variable {P : Platform} {κ : Type} {env : Env P κ}

namespace FiniteMap

variable {lawful : env.Lawful} {map : FiniteMap lawful}

/-- The map binds the present keys of a family to their values. -/
def Binds (map : FiniteMap lawful) (key : Nat → Key κ) (bound : Nat) (present : Nat → Bool)
    (value : Nat → Value P) : Prop :=
  ∀ i < bound, map.find (key i) = if present i then some (value i) else none

/-- The keys of a family differ. -/
def Apart (env : Env P κ) (key : Nat → Key κ) (bound : Nat) : Prop :=
  ∀ i < bound, ∀ j < bound, env.equals (key i) (key j) = true → i = j

namespace Binds

variable {key : Nat → Key κ} {bound : Nat} {present : Nat → Bool} {values : Nat → Value P} {i : Nat}

theorem isSome_eq (binds : map.Binds key bound present values) (inside : i < bound) :
    (map.find (key i)).isSome = present i := by
  rw [binds i inside]
  cases present i <;> rfl

theorem isNone_eq (binds : map.Binds key bound present values) (inside : i < bound) :
    (map.find (key i)).isNone = !present i := by
  rw [binds i inside]
  cases present i <;> rfl

/-- A new binding makes its key present. -/
theorem insert (binds : map.Binds key bound present values) (apart : Apart env key bound) (inside : i < bound)
    (value : Value P) :
    Binds (map.insert (Quotient.mk _ (key i)) value) key bound (Function.update present i true)
      (Function.update values i value) := by
  intro j inside'
  rw [Represents.find_insert]
  by_cases same : j = i
  · subst same
    rw [if_pos (lawful.refl _), Function.update_self, Function.update_self, if_pos rfl]
  · rw [if_neg fun equal => same (apart i inside j inside' equal).symm, binds j inside',
      Function.update_of_ne same, Function.update_of_ne same]

/-- An erased key is absent. -/
theorem erase (binds : map.Binds key bound present values) (apart : Apart env key bound) (inside : i < bound) :
    Binds (map.erase (Quotient.mk _ (key i))) key bound (Function.update present i false) values := by
  intro j inside'
  rw [Represents.find_erase]
  by_cases same : j = i
  · subst same
    rw [if_pos (lawful.refl _), Function.update_self]
    rfl
  · rw [if_neg fun equal => same (apart i inside j inside' equal).symm, binds j inside',
      Function.update_of_ne same]

end Binds
end FiniteMap

/-- A table between two calls shows the map that represents its entries. -/
structure Shows (lawful : env.Lawful) (t : Hashtable P κ) (map : FiniteMap lawful) : Prop where
  inv : Inv env t
  represents : map.Represents t.entries

namespace Shows

variable {lawful : env.Lawful} {t t' : Hashtable P κ} {map : FiniteMap lawful}

/-- A new table shows the empty map. -/
theorem new {initialSize : Nat} {created : Hashtable P κ} (new : Hashtable.new env initialSize = some created) :
    Shows lawful created ∅ := by
  obtain ⟨inv, empty, -⟩ := new_spec new
  exact ⟨inv, empty.symm ▸ .empty⟩

/-- The effect of a call on the table is a step of the map. -/
theorem effect {op : Op P (Name κ)} {reply : Reply P κ} (shows : Shows lawful t map)
    (effect : Effect env t op reply t') :
    ∃ map', FiniteMap.Step lawful map (op.map t.key, reply) map' ∧ Shows lawful t' map' := by
  obtain ⟨map', step, represents⟩ := (effect.contents shows.inv).simulated shows.inv.keyed shows.represents
  exact ⟨map', step, effect.inv shows.inv, represents⟩

/-- The number of entries is the number of keys. -/
theorem used_eq (shows : Shows lawful t map) : t.used = map.keys.card := by
  rw [shows.inv.used_eq, ← t.card_entries, shows.represents.card_eq]

theorem write (shows : Shows lawful t map) (name : Name κ) (readable : t.Readable name) (value : Value P) :
    Meets (t.writeValue env name value)
      (fun result => result.1 = (map.find (t.key name)).isNone ∧
        Shows lawful result.2 (map.insert (Quotient.mk _ (t.key name)) value))
      (WriteError env t name value) := by
  refine (writeValue_spec (fun _ => lawful.dupReturns.grants t name) shows.inv readable).imp ?_
  rintro ⟨added, t'⟩ outcome
  obtain ⟨map', step, after⟩ := shows.effect (.write outcome)
  cases step
  exact ⟨rfl, after⟩

theorem remove (shows : Shows lawful t map) (name : Name κ) :
    Meets (t.remove env name)
      (fun result => result.1 = (map.find (t.key name)).isSome ∧
        Shows lawful result.2 (map.erase (Quotient.mk _ (t.key name))))
      (ReleaseError env t) := by
  refine (remove_spec shows.inv).imp ?_
  rintro ⟨removed, t'⟩ outcome
  obtain ⟨map', step, after⟩ := shows.effect (.remove outcome)
  cases step
  exact ⟨rfl, after⟩

theorem readValue_eq (shows : Shows lawful t map) (name : Name κ) :
    t.readValue env name = map.find (t.key name) := by
  obtain ⟨found, answers, read⟩ := Hashtable.readValue_answers shows.inv name
  rw [read, shows.represents.find_answer shows.inv.keyed found answers]

theorem exists_eq (shows : Shows lawful t map) (name : Name κ) :
    t.exists_ env name = (map.find (t.key name)).isSome := by
  rw [Hashtable.exists_, shows.readValue_eq]

theorem inc (shows : Shows lawful t map) (name : Name κ) (readable : t.Readable name) :
    Meets (t.inc env name)
      (fun result => result.1 = ((map.find (t.key name)).getD 0 + 1).setWidth P.intSize ∧
        Shows lawful result.2 (map.insert (Quotient.mk _ (t.key name)) ((map.find (t.key name)).getD 0 + 1)))
      (WriteError env t name 1) := by
  refine (inc_spec (fun _ => lawful.dupReturns.grants t name) shows.inv readable).bind ?_
  rintro ⟨value, t'⟩ outcome
  obtain ⟨map', step, after⟩ := shows.effect (.inc outcome)
  change FiniteMap.Step lawful map (.inc (t.key name), .int (value.setWidth P.intSize)) map' at step
  generalize answer : Reply.int (κ := κ) (value.setWidth P.intSize) = reply at step
  cases step with
  | count counts =>
      cases counts
      exact ⟨Reply.int.inj answer, after⟩

/-- The entry of a live slot is a binding of the map. -/
theorem find_entry (shows : Shows lawful t map) {slot : Slot} {entry : Entry P κ} (inside : t.Within slot)
    (stored : t.entryAt slot = some entry) : map.find entry.key = some entry.value :=
  (shows.represents.find_eq _ _).mpr
    ⟨entry, Hashtable.mem_entries.mpr ⟨slot, inside, stored⟩, lawful.refl _, rfl⟩

end Shows
end Coucal
